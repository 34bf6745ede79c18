import LogicConduit.LiveRun

namespace LogicConduit

open ProcessingGraph

def WiredTo (plan : ProcessingGraph) (names : NodeId → Option String) (id : NodeId)
    (input : RunningInput) : Prop :=
  match input.sub with
  | none => ∀ e ∈ plan.edges, e.target ≠ (id, input.port)
  | some s => ∃ e ∈ plan.edges, carries names id input.port s e = true

/-- An input is subscribed as the plan wires it and typed as the plan negotiates it. -/
def TypedTo (plan : ProcessingGraph) (names : NodeId → Option String) (id : NodeId)
    (input : RunningInput) : Prop :=
  match input.sub with
  | none => ∀ e ∈ plan.edges, e.target ≠ (id, input.port)
  | some s => ∃ e ∈ plan.edges, carries names id input.port s e = true ∧
      input.kind = some e.kind.typeId

/-- The inputs of a node are those its process declares, each subscribed as the plan wires it, and every edge
of the plan into one of them has its subscription. -/
structure Subscribed (plan : ProcessingGraph) (names : NodeId → Option String) (id : NodeId)
    (node : RunningNode) : Prop where
  declared : node.inputs.map RunningInput.port = node.schema
  inputs : ∀ input ∈ node.inputs, WiredTo plan names id input
  edges : ∀ e ∈ plan.edges, e.target.1 = id → e.target.2 ∈ node.schema → ∃ input ∈ node.inputs,
    input.port = e.target.2 ∧ ∃ wire ∈ plan.edges, wire.target = e.target ∧ ∃ producer,
      names wire.source.1 = some producer ∧ input.sub = some ⟨producer, wire.source.2, wire.buffer⟩

/-- A node runs with the builder, the configuration and the typed subscriptions of the plan. -/
structure RunsAs (plan : ProcessingGraph) (names : NodeId → Option String) (id : NodeId)
    (node : RunningNode) : Prop where
  builder : node.builder = (plan.compiledNode id).builder
  configuration : node.configuration = (plan.compiledNode id).executionState
  subscribed : Subscribed plan names id node
  typed : ∀ input ∈ node.inputs, TypedTo plan names id input

/-- The running nodes are those of the plan, each subscribed as the plan wires it. -/
structure Mirrors (plan : ProcessingGraph) (t : Supervisor) : Prop where
  mem_ids : ∀ id, id ∈ plan.ids ↔ (t.names id).isSome
  named : ∀ id name, t.names id = some name → ∃ slug, name = nodeName id slug
  running : ∀ id name, t.names id = some name → ∃ node, t.nodes name = some node ∧
    node.started = true ∧ Subscribed plan t.names id node
  only : ∀ name, (t.nodes name).isSome → ∃ id, t.names id = some name

variable {names : NodeId → Option String} {id : NodeId}

theorem carries_iff {port : String} {s : Live.InputSub} {e : ProcessingEdge} :
    carries names id port s e = true ↔
      e.target = (id, port) ∧ names e.source.1 = some s.fromNode ∧ e.source.2 = s.fromPort ∧
        e.buffer = s.buffer := by
  simp [carries, and_assoc]

variable {plan : ProcessingGraph} {input : RunningInput}

theorem subscribed_of {node : RunningNode} (declared : node.inputs.map RunningInput.port = node.schema)
    (inputs : ∀ input ∈ node.inputs, WiredTo plan names id input) : Subscribed plan names id node := by
  refine ⟨declared, inputs, ?_⟩
  intro e inside target port
  rw [← declared] at port
  obtain ⟨input, member, same⟩ := List.mem_map.mp port
  have target : e.target = (id, input.port) := Prod.ext target same.symm
  have wired := inputs input member
  refine ⟨input, member, same, ?_⟩
  unfold WiredTo at wired
  split at wired
  next none => exact absurd target (wired e inside)
  next s some =>
    obtain ⟨wire, known, carried⟩ := wired
    rw [carries_iff] at carried
    obtain ⟨leads, producer, output, buffer⟩ := carried
    exact ⟨wire, known, leads.trans target.symm, s.fromNode, producer, some.trans (by rw [output, buffer])⟩

theorem TypedTo.wiredTo (h : TypedTo plan names id input) : WiredTo plan names id input := by
  unfold TypedTo at h
  unfold WiredTo
  split at h
  next none => exact h
  next s some =>
    obtain ⟨e, inside, carried, -⟩ := h
    exact ⟨e, inside, carried⟩

variable {names names' : NodeId → Option String}

section

variable (agree : ∀ e ∈ plan.edges, ∀ n, names e.source.1 = some n → names' e.source.1 = some n)
include agree

theorem WiredTo.mono (h : WiredTo plan names id input) : WiredTo plan names' id input := by
  unfold WiredTo at h ⊢
  split at h
  next none => exact h
  next s some =>
    obtain ⟨e, inside, carried⟩ := h
    rw [carries_iff] at carried
    exact ⟨e, inside, carries_iff.mpr ⟨carried.1, agree e inside _ carried.2.1, carried.2.2⟩⟩

theorem Subscribed.mono {node : RunningNode} (h : Subscribed plan names id node) : Subscribed plan names' id node :=
  subscribed_of h.declared fun input inside => (h.inputs input inside).mono agree

theorem TypedTo.mono (h : TypedTo plan names id input) : TypedTo plan names' id input := by
  unfold TypedTo at h ⊢
  split at h
  next none => exact h
  next s some =>
    obtain ⟨e, inside, carried, kind⟩ := h
    rw [carries_iff] at carried
    exact ⟨e, inside, carries_iff.mpr ⟨carried.1, agree e inside _ carried.2.1, carried.2.2⟩, kind⟩

end

theorem RunsAs.mono {node : RunningNode} (h : RunsAs plan names id node)
    (agree : ∀ e ∈ plan.edges, ∀ n, names e.source.1 = some n → names' e.source.1 = some n) :
    RunsAs plan names' id node :=
  ⟨h.builder, h.configuration, h.subscribed.mono agree, fun input inside => (h.typed input inside).mono agree⟩

theorem WiredTo.typed {port : String} {sub : Option Live.InputSub} {kind : Option PayloadType}
    (h : WiredTo plan names id ⟨port, sub, kind⟩) :
    TypedTo plan names id ⟨port, sub, plan.wireKind names id port sub⟩ := by
  cases sub with
  | none => exact h
  | some s =>
    obtain ⟨e, inside, carried⟩ := h
    cases found : plan.edges.find? (carries names id port s) with
    | none => exact absurd carried (by simpa using List.find?_eq_none.mp found e inside)
    | some wire =>
      exact ⟨wire, List.mem_of_find?_eq_some found, List.find?_some found, by
        simp [wireKind, found]⟩

theorem WiredTo.of_sameWiring {old new : ProcessingGraph} (same : sameWiring old new id = true)
    (h : WiredTo old names id input) : WiredTo new names id input := by
  rw [sameWiring_iff] at same
  unfold WiredTo at h ⊢
  split at h
  next none =>
    intro e inside target
    obtain ⟨e', inside', at_id, sig⟩ := mem_wiringOf.mp ((same (signature e)).mpr
      (mem_wiringOf.mpr ⟨e, inside, by rw [target], rfl⟩))
    refine h e' inside' (Prod.ext at_id ?_)
    have := congrArg Prod.fst sig
    simpa [signature, target] using this
  next s some =>
    obtain ⟨e, inside, carried⟩ := h
    rw [carries_iff] at carried
    obtain ⟨target, source, port, buffer⟩ := carried
    obtain ⟨e', inside', at_id, sig⟩ := mem_wiringOf.mp ((same (signature e)).mp
      (mem_wiringOf.mpr ⟨e, inside, by rw [target], rfl⟩))
    simp only [signature, Prod.mk.injEq] at sig
    refine ⟨e', inside', carries_iff.mpr ⟨Prod.ext at_id ?_, ?_, ?_, ?_⟩⟩
    · rw [sig.1, target]
    · rw [sig.2.1, source]
    · rw [sig.2.2.1, port]
    · rw [sig.2.2.2, buffer]

theorem Subscribed.of_sameWiring {old new : ProcessingGraph} {node : RunningNode} (same : sameWiring old new id = true)
    (h : Subscribed old names id node) : Subscribed new names id node :=
  subscribed_of h.declared fun input inside => (h.inputs input inside).of_sameWiring same

variable {subs : List (Option Live.InputSub)}

variable {ports : List String}

theorem inputSubs_wired (h : plan.inputSubs id names ports = .ok subs) :
    List.Forall₂ (fun port sub => WiredTo plan names id ⟨port, sub, none⟩) ports subs := by
  induction ports generalizing subs with
  | nil =>
    cases h
    exact .nil
  | cons port ports ih =>
    unfold inputSubs at h
    split at h
    next missing =>
      cases rest : plan.inputSubs id names ports with
      | error message => rw [rest] at h; cases h
      | ok tail =>
        rw [rest] at h
        cases h
        refine .cons ?_ (ih rest)
        intro e he target
        exact absurd target (by simpa using List.find?_eq_none.mp missing e he)
    next e found =>
      split at h
      · cases h
      next producer known =>
        cases rest : plan.inputSubs id names ports with
        | error message => rw [rest] at h; cases h
        | ok tail =>
          rw [rest] at h
          cases h
          have target : e.target = (id, port) := by simpa using List.find?_some found
          exact .cons ⟨e, List.mem_of_find?_eq_some found,
            carries_iff.mpr ⟨target, known, rfl, rfl⟩⟩ (ih rest)

theorem inputSubs_source (h : plan.inputSubs id names ports = .ok subs) {s : Live.InputSub}
    (inside : some s ∈ subs) :
    ∃ e ∈ plan.edges, e.target.1 = id ∧ names e.source.1 = some s.fromNode := by
  have wired := inputSubs_wired h
  clear h
  induction wired with
  | nil => cases inside
  | cons here _ ih =>
    rcases List.mem_cons.mp inside with rfl | later
    · obtain ⟨e, member, carried⟩ := here
      rw [carries_iff] at carried
      exact ⟨e, member, by rw [carried.1], carried.2.1⟩
    · exact ih later

theorem inputSubs_ok (known : ∀ e ∈ plan.edges, e.target.1 = id → (names e.source.1).isSome)
    (ports : List String) : ∃ subs, plan.inputSubs id names ports = .ok subs := by
  induction ports with
  | nil => exact ⟨[], rfl⟩
  | cons port ports ih =>
    obtain ⟨tail, rest⟩ := ih
    unfold inputSubs
    rw [rest]
    split
    next missing => exact ⟨_, rfl⟩
    next e found =>
      have target : e.target = (id, port) := by simpa using List.find?_some found
      obtain ⟨n, named⟩ := Option.isSome_iff_exists.mp
        (known e (List.mem_of_find?_eq_some found) (by rw [target]))
      rw [named]
      exact ⟨_, rfl⟩

theorem runsAs_of {node : RunningNode} (builder : node.builder = (plan.compiledNode id).builder)
    (configuration : node.configuration = (plan.compiledNode id).executionState)
    (declared : node.inputs.map RunningInput.port = node.schema)
    (typed : ∀ input ∈ node.inputs, TypedTo plan names id input) : RunsAs plan names id node :=
  ⟨builder, configuration, subscribed_of declared fun input inside => (typed input inside).wiredTo, typed⟩

theorem wiredNode_runsAs {started : Bool} (h : plan.inputSubs id names ports = .ok subs) :
    RunsAs plan names id (plan.wiredNode names id ports subs started) := by
  have wired := inputSubs_wired h
  refine runsAs_of rfl rfl ?_ fun input hinput => ?_
  · show ((ports.zip subs).map _).map RunningInput.port = ports
    rw [List.map_map]
    exact List.map_fst_zip wired.length_eq.le
  · obtain ⟨pair, inside, rfl⟩ := List.mem_map.mp hinput
    exact (List.forall₂_zip wired inside).typed

theorem reconfigured_runsAs {plan : ProcessingGraph} {id : NodeId} {names : NodeId → Option String}
    {node : RunningNode} (h : Subscribed plan names id node) :
    RunsAs plan names id (plan.reconfigured names id node) := by
  refine runsAs_of rfl rfl ?_ fun input hinput => ?_
  · show (node.inputs.map _).map RunningInput.port = node.schema
    rw [List.map_map]
    exact h.declared
  · obtain ⟨before, inside, rfl⟩ := List.mem_map.mp hinput
    exact (h.inputs before inside).typed

theorem missingProducer_none {nodes : String → Option RunningNode}
    (known : ∀ s, some s ∈ subs → (nodes s.fromNode).isSome) : missingProducer nodes subs = none := by
  unfold missingProducer
  rw [List.findSome?_eq_none_iff]
  intro sub hsub
  cases sub with
  | none => rfl
  | some s =>
    have present := Option.isSome_iff_ne_none.mp (known s hsub)
    simp [present]

end LogicConduit
