import LogicConduit.RerouteMirrors

namespace LogicConduit.Document

open Wiring

namespace GraphState

variable {g g' : GraphState} {id : NodeId} {stays : SocketId → Prop} {source target : SocketId}

theorem Cached.removeConnectionAt {index : Nat} {c : Connection} (core : g.wiring.Core)
    (acyclic : g.wiring.NoRerouteCycle) (directed : Directed g.wiring)
    (cached : g.Cached (fun c => stays c.source) (fun _ => False) nowhere)
    (run : g.removeConnectionAt index = some (g', c)) :
    g'.Cached (fun c => stays c.source) (fun _ => False) nowhere := by
  unfold GraphState.removeConnectionAt at run
  obtain ⟨d, at', run⟩ := Option.bind_eq_some_iff.mp run
  obtain ⟨x, passed, made⟩ := Option.map_eq_some_iff.mp run
  cases made
  have inside : c ∈ g.wiring.connections := List.mem_of_getElem? at'
  have place : c.target = ⟨c.target.node, c.target.index, .input⟩ := by
    rw [← (core.linked.target c inside).1]
  rw [place] at passed
  exact (cached.disconnect core acyclic directed (core.linked.present inside)
    (without_eraseIdx core.linked at') passed).congr rfl rfl

theorem Settled.disconnectInput (core : g.wiring.Core) (acyclic : g.wiring.NoRerouteCycle)
    (directed : Directed g.wiring) (settled : g.Settled) {removed : Bool}
    (run : g.disconnectInput target = some (g', removed)) : g'.Settled := by
  unfold GraphState.disconnectInput at run
  dsimp only at run
  split at run
  next fewer =>
    obtain ⟨c, inside, hit⟩ : ∃ c ∈ g.connections, c.target = target := by
      by_contra none
      push Not at none
      refine fewer (congrArg List.length ?_)
      rw [List.filter_eq_self]
      exact fun c inside => decide_eq_true (none c inside)
    obtain ⟨x, passed, made⟩ := Option.map_eq_some_iff.mp run
    cases made
    have direction : target.direction = .input := by
      rw [← hit]
      exact (core.linked.target c inside).1
    have present : g.wiring.Present target.node target.index := by
      rw [← hit]
      exact core.linked.present inside
    have without := @without_filter g target direction
    obtain ⟨n, k, d⟩ := target
    cases direction
    exact (@Cached.disconnect _ _ _ (fun _ => False) _ _ core acyclic directed present without settled
      passed).congr rfl rfl
  next all =>
    cases run
    refine settled.congr rfl ?_
    exact List.filter_sublist.eq_of_length (not_not.mp all)

theorem Cached.removeOutgoing {rounds : Nat} (core : g.wiring.Core) (acyclic : g.wiring.NoRerouteCycle)
    (directed : Directed g.wiring) (cached : g.Cached (fun c => c.source.node = id) (fun _ => False) nowhere)
    (run : removeOutgoing id rounds g = some g') : g'.Settled := by
  induction rounds generalizing g with
  | zero =>
    unfold GraphState.removeOutgoing at run
    split at run
    next none =>
      cases run
      exact cached.mono (fun c inside leaves =>
        of_decide_eq_false (List.findIdx?_eq_none_iff.mp none c inside) leaves) fun _ old => old
    next => cases run
  | succ rounds ih =>
    unfold GraphState.removeOutgoing at run
    split at run
    next none =>
      cases run
      exact cached.mono (fun c inside leaves =>
        of_decide_eq_false (List.findIdx?_eq_none_iff.mp none c inside) leaves) fun _ old => old
    next index position =>
      obtain ⟨bound, -, -⟩ := List.findIdx?_eq_some_iff_getElem.mp position
      have at' : g.connections[index]? = some g.connections[index] := List.getElem?_eq_getElem bound
      obtain ⟨g₁, shift, first, edited⟩ := removeConnectionAt_edited core acyclic at'
      rw [first] at run
      have sub : g.connections.eraseIdx index ++ [] ⊆ g.connections := by
        rw [List.append_nil]
        exact (List.eraseIdx_sublist _ _).subset
      refine ih edited.core (noRerouteCycle_edited edited (noRerouteCycle_subset acyclic sub)) ?_ ?_ run
      · exact @source_of_edited _ _ _ _ (fun s => s.direction = .output) _ edited fun c inside =>
          directed c (sub inside)
      · exact @Cached.removeConnectionAt _ _ (fun s => s.node = id) _ _ core acyclic directed cached first

theorem Settled.cut (settled : g.Settled) (id : NodeId) :
    (g.cut id).Cached (fun c => c.source.node = id) (fun _ => False) nowhere := by
  have nodes : ∀ n, n ≠ id → (g.cut id).node? n = g.node? n := fun n => node?_eraseNode_ne
  have gone : (g.cut id).node? id = none := node?_eraseNode_self
  have inputs : ∀ n k s, (g.cut id).typing.socket? n k = some s → n ≠ id ∧ g.typing.socket? n k = some s := by
    intro n k s found
    by_cases at' : n = id
    · simp [at', Wiring.socket?, typing, gone] at found
    · refine ⟨at', ?_⟩
      rw [← found]
      simp [Wiring.socket?, typing, nodes n at']
  refine ⟨⟨fun c inside current s found => ?_, fun n k s found _ resolved => ?_⟩, ?_⟩
  · have types : (g.cut id).outType c.source = g.outType c.source := by
      unfold outType
      rw [nodes _ current]
    rw [types]
    exact settled.typed.fed c (mem_cut.mp inside).1 not_false s (inputs _ _ _ found).2
  · obtain ⟨other, before⟩ := inputs n k s found
    exact (connected_cut other).mpr (settled.typed.unfed n k s before not_false resolved)
  · intro n node found kind set
    have other : n ≠ id := by
      rintro rfl
      rw [gone] at found
      cases found
    rw [nodes n other] at found
    exact settled.mirrored n node found kind set

theorem Settled.removeNode (core : g.wiring.Core) (acyclic : g.wiring.NoRerouteCycle)
    (directed : Directed g.wiring) (settled : g.Settled) (run : g.removeNode id = some g') : g'.Settled := by
  unfold GraphState.removeNode at run
  split at run
  · cases run
    exact settled
  · exact Cached.removeOutgoing (cut_core core id) (cut_acyclic acyclic id)
      (fun c inside => directed c (mem_cut.mp inside).1) (settled.cut id) run

/-- An input that nothing feeds holds no type, so there is none to clear. -/
theorem Settled.clearUnconnected (settled : g.Settled) (id : NodeId) : (g.clearUnconnected id).Settled := by
  cases found : g.node? id with
  | none =>
    unfold GraphState.clearUnconnected modifyInputs
    rw [found]
    exact settled
  | some node =>
    have same : (node.inputs.mapIdx fun index socket =>
        if socket.resolvedType.isSome && !(g.connectedIndices id).contains index then
          { socket with resolvedType := none }
        else socket) = node.inputs := by
      refine List.ext_getElem? fun k => ?_
      rw [List.getElem?_mapIdx]
      cases there : node.inputs[k]? with
      | none => rfl
      | some s =>
        rw [Option.map_some, if_neg]
        intro cleared
        obtain ⟨resolved, free⟩ := Bool.and_eq_true_iff.mp cleared
        have held : g.typing.socket? id k = some s := (socket?_self (typing_inputs found)).trans there
        obtain ⟨c, inside, leads⟩ := settled.typed.unfed id k s held not_false
          (Option.isSome_iff_ne_none.mp resolved)
        have listed : k ∈ g.connectedIndices id :=
          List.mem_map.mpr ⟨c, List.mem_filter.mpr ⟨inside, by simp [leads]⟩, by rw [leads]⟩
        simp [listed] at free
    unfold GraphState.clearUnconnected modifyInputs
    rw [found]
    dsimp only
    rw [same]
    refine settled.congr ?_ rfl
    funext n
    by_cases at' : n = id
    · rw [at', node?_setNode_self, found]
    · rw [node?_setNode_ne at']

theorem Settled.pruneUnconnectedResolutions (core : g.wiring.Core) (settled : g.Settled) {ids : List NodeId}
    (run : g.pruneUnconnectedResolutions ids = some g') : g'.Settled := by
  refine (foldlM_keeps (P := fun h : GraphState => h.wiring = g.wiring ∧ h.Settled) ?_ ⟨rfl, settled⟩ run).2
  rintro id - h h' ⟨same, settled⟩ step
  rw [collapseUnconnected_core (by rw [same]; exact core)] at step
  cases step
  exact ⟨by rw [wiring_clearUnconnected, same], settled.clearUnconnected id⟩

theorem Settled.addConnection (core : g.wiring.Core) (directed : Directed g.wiring)
    (present : g.wiring.Present target.node target.index) (entry : target.direction = .input)
    (exit : source.direction = .output) (settled : g.Settled)
    (run : g.addConnection source target = some g') : g'.Settled := by
  unfold GraphState.addConnection at run
  obtain ⟨x, passed, made⟩ := Option.map_eq_some_iff.mp run
  cases made
  set wires := (g.connections.filter fun c => c.target ≠ target) ++ [⟨source, target⟩] with isWires
  have inside : (⟨source, target⟩ : Connection) ∈ wires :=
    List.mem_append_right _ (List.mem_singleton_self _)
  have linked : (g.setConnections wires).Cached (fun c => c = ⟨source, target⟩) (fun _ => False) nowhere := by
    refine ⟨settled.typed.connect (fun c inside current => ⟨?_, not_false⟩) fun n k _ => ⟨not_false, ?_⟩,
      settled.mirrored⟩
    · rcases List.mem_append.mp inside with inside | inside
      · exact List.mem_of_mem_filter inside
      · exact absurd (List.mem_singleton.mp inside) current
    · rintro ⟨c, before, leads⟩
      by_cases same : c.target = target
      · exact ⟨_, inside, same.symm.trans leads⟩
      · exact ⟨c, List.mem_append_left _ (List.mem_filter.mpr ⟨before, decide_eq_true same⟩), leads⟩
  have resolved := linked.resolveInput (core.linked.add source target present entry) inside
  have grown := @Cached.growVariadicGroup _ (fun n => n = target.node) (fun _ => False) target
    (resolved.mono (fun c _ old => old.2 (by rw [old.1]))
      fun n old => old.resolve_left fun h => h) rfl
  obtain ⟨shift, edited⟩ := growVariadicGroup_edited core source present entry
  have same := wiring_propagate passed
  refine (grown.settle ?_ ?_ passed).congr rfl rfl
  · rw [same]
    exact edited.core.linked
  · rw [same]
    refine @source_of_edited _ _ _ _ (fun s => s.direction = .output) _ edited fun c inside => ?_
    rcases List.mem_append.mp inside with inside | inside
    · exact directed c (List.mem_of_mem_filter inside)
    · cases List.mem_singleton.mp inside
      exact exit

theorem noRerouteCycle_of_addConnection (core : g.wiring.Core) (acyclic : g.wiring.NoRerouteCycle)
    (present : g.wiring.Present target.node target.index) (entry : target.direction = .input)
    (run : g.addConnection source target = some g') :
    (g.wiring.connect ((g.connections.filter fun c => c.target ≠ target) ++
      [⟨source, target⟩])).NoRerouteCycle := by
  obtain ⟨shift, edited⟩ := growVariadicGroup_edited core source present entry
  obtain ⟨x, passed, -⟩ := Option.map_eq_some_iff.mp run
  have ends : Terminates fun depth => (g.connected source target).propagateWithin depth target.node := by
    unfold GraphState.propagate at passed
    rw [← propagateWithin_join] at passed
    obtain ⟨outcome, ended, -⟩ := Option.bind_eq_some_iff.mp passed
    exact ⟨_, outcome, ended⟩
  have unwinds := (unwinds_iff_no_cycle edited.core.reroutes target.node).mp
    ((propagate_terminates_iff _ _).mp ends)
  set added := g.wiring.connect ((g.connections.filter fun c => c.target ≠ target) ++ [⟨source, target⟩])
  have moved : ∀ a b, added.RerouteEdge a b → (g.connected source target).wiring.RerouteEdge a b := by
    rintro a b ⟨⟨n, reroute⟩, c, inside, leaves, enters⟩
    refine ⟨⟨n, (congrFun edited.frame a).trans reroute⟩, ?_⟩
    have wires : (g.connected source target).wiring.connections = _ := edited.connections
    rw [wires]
    rcases List.mem_append.mp inside with inside | inside
    · exact ⟨c.move shift, List.mem_append_left _ (List.mem_map_of_mem inside), leaves, enters⟩
    · exact ⟨c, List.mem_append_right _ inside, leaves, enters⟩
  -- A way through the new link passes its target, so a cycle is an old one or one that the call runs into.
  have ways : ∀ a b, Relation.TransGen added.RerouteEdge a b →
      Relation.TransGen g.wiring.RerouteEdge a b ∨
        Relation.ReflTransGen (g.connected source target).wiring.RerouteEdge target.node b := by
    intro a b way
    have old : ∀ a b, added.RerouteEdge a b → g.wiring.RerouteEdge a b ∨ b = target.node := by
      rintro a b ⟨reroute, c, inside, leaves, enters⟩
      rcases List.mem_append.mp inside with inside | inside
      · exact .inl ⟨reroute, c, List.mem_of_mem_filter inside, leaves, enters⟩
      · cases List.mem_singleton.mp inside
        exact .inr enters.symm
    induction way with
    | single edge =>
      rcases old _ _ edge with edge | rfl
      · exact .inl (.single edge)
      · exact .inr .refl
    | tail _ edge ih =>
      rcases old _ _ edge with before | rfl
      · exact ih.imp (·.tail before) (·.tail (moved _ _ edge))
      · exact .inr .refl
  intro a cycle
  rcases ways a a cycle with before | behind
  · exact acyclic a before
  · exact unwinds a behind (Relation.TransGen.mono moved a a cycle)

/-- What edits keep. -/
structure Proper (g : GraphState) : Prop where
  core : g.wiring.Core
  acyclic : g.wiring.NoRerouteCycle
  directed : Directed g.wiring
  sourced : Sourced g.wiring
  settled : g.Settled

theorem Proper.of_edited {kept added : List Connection} {shift : NodeId → Nat → Nat}
    (edited : Wiring.Edited g.wiring g'.wiring kept added shift)
    (acyclic : (g.wiring.connect (kept ++ added)).NoRerouteCycle)
    (outputs : ∀ c ∈ kept ++ added, c.source.direction = .output ∧ ∃ kind outputs,
      g.wiring.frame c.source.node = some (kind, outputs) ∧ c.source.index < outputs)
    (settled : g'.Settled) : Proper g' := by
  refine ⟨edited.core, noRerouteCycle_edited edited acyclic, ?_, ?_, settled⟩
  · exact @source_of_edited _ _ _ _ (fun s => s.direction = .output) _ edited fun c inside =>
      (outputs c inside).1
  · unfold Sourced
    rw [edited.frame]
    exact @source_of_edited _ _ _ _ (fun s => ∃ kind outputs, g.wiring.frame s.node = some (kind, outputs) ∧
      s.index < outputs) _ edited fun c inside => (outputs c inside).2

theorem Proper.outputs (proper : Proper g) {cs : List Connection} (sub : cs ⊆ g.connections) :
    ∀ c ∈ cs ++ [], c.source.direction = .output ∧ ∃ kind outputs,
      g.wiring.frame c.source.node = some (kind, outputs) ∧ c.source.index < outputs := by
  intro c inside
  rw [List.append_nil] at inside
  exact ⟨proper.directed c (sub inside), proper.sourced c (sub inside)⟩

theorem Proper.subset (proper : Proper g) {cs : List Connection} (sub : cs ⊆ g.connections) :
    (g.wiring.connect (cs ++ [])).NoRerouteCycle := by
  rw [List.append_nil]
  exact noRerouteCycle_subset proper.acyclic sub

theorem Proper.removeNode (proper : Proper g) (run : g.removeNode id = some g') : Proper g' := by
  have settled := proper.settled.removeNode proper.core proper.acyclic proper.directed run
  cases present : g.node? id with
  | none =>
    unfold GraphState.removeNode at run
    rw [present] at run
    cases run
    exact proper
  | some node =>
    obtain ⟨g'', shift, run', core, frame, -, wires, -⟩ := removeNode_edited proper.core proper.acyclic present
    cases run.symm.trans run'
    have member : ∀ c ∈ g'.wiring.connections, ∃ d ∈ g.connections, d.source.node ≠ id ∧
        d.move shift = c := by
      intro c inside
      rw [connections_wiring, wires] at inside
      obtain ⟨d, kept, rfl⟩ := List.mem_map.mp inside
      obtain ⟨before, off⟩ := List.mem_filter.mp kept
      exact ⟨d, before, (of_decide_eq_true off).2, rfl⟩
    refine ⟨core, ?_, ?_, ?_, settled⟩
    · refine noRerouteCycle_of_edges proper.acyclic ?_
      rintro a b ⟨⟨n, reroute⟩, c, inside, leaves, enters⟩
      obtain ⟨d, before, off, rfl⟩ := member c inside
      have leaves : d.source = ⟨a, 0, .output⟩ := leaves
      rw [leaves] at off
      have reroute : (if a = id then none else g.wiring.frame a) = some (.reroute, n) := by
        rw [← reroute, frame]
      rw [if_neg off] at reroute
      exact ⟨⟨n, reroute⟩, d, before, leaves, enters⟩
    · intro c inside
      obtain ⟨d, before, -, rfl⟩ := member c inside
      exact proper.directed d before
    · intro c inside
      obtain ⟨d, before, off, rfl⟩ := member c inside
      have same : g'.wiring.frame d.source.node = g.wiring.frame d.source.node := by
        rw [frame]
        exact if_neg off
      show ∃ kind outputs, g'.wiring.frame d.source.node = some (kind, outputs) ∧ d.source.index < outputs
      rw [same]
      exact proper.sourced d before

end GraphState

/-- The insertion before a member, apart from which links come and go one by one. -/
def Edit.isInsertion : Edit → Bool
  | insertVariadicConnection _ _ => true
  | _ => false

/-- The documents that edits other than insertions lead to. -/
inductive Reached (start : GraphState) : GraphState → Prop
  | start : Reached start start
  | edit {g g' : GraphState} {e : Edit} : Reached start g → e.isInsertion = false → e.Allowed g →
    e.apply g = some g' → Reached start g'

/-- Nodes as they are made: no input holds a type, and a reroute passes anything from its one input to its one
output. -/
structure Untyped (g : GraphState) : Prop where
  inputs : ∀ id node, g.node? id = some node → ∀ s ∈ node.inputs, s.resolvedType = none
  reroutes : ∀ id node, g.node? id = some node → node.kind = .reroute → ∃ input output,
    node.inputs = [input] ∧ node.outputs = [output] ∧ input.typeName = "Any" ∧ output.resolvedType = none

/-- A reroute shows the type of its input unless anything fits it, and a connected input holds the type of the
output that feeds it where that is neither its own nor anything. -/
structure Mirrors (g : GraphState) : Prop where
  reroutes : ∀ id node, g.node? id = some node → node.kind = .reroute → ∃ input output,
    node.inputs[0]? = some input ∧ node.outputs[0]? = some output ∧
    output.resolvedType = if input.effectiveType ≠ "Any" then some input.effectiveType else none
  inputs : ∀ c ∈ g.connections, ∃ input node output, g.input? c.target = some input ∧
    g.node? c.source.node = some node ∧ node.outputs[c.source.index]? = some output ∧
    input.resolvedType = if output.effectiveType ≠ input.typeName ∧ output.effectiveType ≠ "Any" then
      some output.effectiveType else none

section Mirrors

open GraphState

variable {g g' start : GraphState}

theorem Fresh.proper (fresh : Fresh g) (untyped : Untyped g) : Proper g := by
  have sound := (Reachable.fresh fresh).sound
  have none : g.wiring.connections = [] := fresh.unlinked
  refine ⟨fresh.core, sound.acyclic, ?_, ?_, ⟨?_, ?_⟩, ?_⟩
  · intro c inside
    rw [none] at inside
    cases inside
  · intro c inside
    rw [none] at inside
    cases inside
  · intro c inside
    have inside : c ∈ g.wiring.connections := inside
    rw [none] at inside
    cases inside
  · intro n k s found _ resolved
    obtain ⟨l, here, at'⟩ := Option.bind_eq_some_iff.mp found
    obtain ⟨node, present, rfl⟩ := Option.map_eq_some_iff.mp here
    exact absurd (untyped.inputs n node present s (List.mem_of_getElem? at')) resolved
  · intro id node found kind _ input output first out
    obtain ⟨i, o, inputs, outputs, any, unresolved⟩ := untyped.reroutes id node found kind
    rw [inputs] at first
    rw [outputs] at out
    cases first
    cases out
    have resolved := untyped.inputs id node found input (by rw [inputs]; exact List.mem_singleton_self input)
    simp [unresolved, mirror, Socket.effectiveType, resolved, any]

theorem GraphState.Proper.edit {e : Edit} (proper : Proper g) (plain : e.isInsertion = false)
    (allowed : e.Allowed g) (run : e.apply g = some g') : Proper g' := by
  have core := proper.core
  have acyclic := proper.acyclic
  cases e with
  | addConnection source target =>
    obtain ⟨⟨exit, node, found, bound⟩, inside⟩ := allowed
    have closes := noRerouteCycle_of_addConnection core acyclic inside.present inside.1 run
    obtain ⟨g'', shift, run', edited⟩ := addConnection_edited core inside.present inside.1 closes
    cases run.symm.trans run'
    refine .of_edited edited closes ?_ (proper.settled.addConnection core proper.directed inside.present
      inside.1 exit run)
    intro c member
    rcases List.mem_append.mp member with member | member
    · exact ⟨proper.directed c (List.mem_of_mem_filter member), proper.sourced c (List.mem_of_mem_filter member)⟩
    · cases List.mem_singleton.mp member
      exact ⟨exit, node.kind, node.outputs.length, by simp [wiring, found], bound⟩
  | disconnectInput target =>
    obtain ⟨⟨x, removed⟩, answer, rfl⟩ := Option.map_eq_some_iff.mp run
    obtain ⟨g'', removed', shift, run', edited⟩ := disconnectInput_edited core acyclic target
    cases answer.symm.trans run'
    have sub : (g.connections.filter fun c => c.target ≠ target) ⊆ g.connections :=
      List.filter_sublist.subset
    exact .of_edited edited (proper.subset sub) (proper.outputs sub)
      (proper.settled.disconnectInput core acyclic proper.directed answer)
  | removeConnectionAt index =>
    obtain ⟨⟨x, c⟩, answer, rfl⟩ := Option.map_eq_some_iff.mp run
    have at' : g.connections[index]? = some (g.connections.get ⟨index, allowed⟩) :=
      List.getElem?_eq_getElem allowed
    obtain ⟨g'', shift, run', edited⟩ := removeConnectionAt_edited core acyclic at'
    have settled := @Cached.removeConnectionAt _ _ (fun _ => False) _ _ core acyclic proper.directed
      proper.settled run'
    cases answer.symm.trans run'
    have sub : g.connections.eraseIdx index ⊆ g.connections := (List.eraseIdx_sublist _ _).subset
    exact .of_edited edited (proper.subset sub) (proper.outputs sub) settled
  | insertVariadicConnection => cases plain
  | removeNode id => exact proper.removeNode run
  | pruneUnconnectedResolutions ids =>
    obtain ⟨g'', run', same⟩ := pruneUnconnectedResolutions_wiring core ids
    cases run.symm.trans run'
    have settled := proper.settled.pruneUnconnectedResolutions core run
    exact ⟨by rw [same]; exact core, by rw [same]; exact acyclic, by rw [same]; exact proper.directed,
      by rw [same]; exact proper.sourced, settled⟩

theorem Reached.proper (fresh : Fresh start) (untyped : Untyped start) (reached : Reached start g) :
    Proper g := by
  induction reached with
  | start => exact fresh.proper untyped
  | edit _ plain allowed run proper => exact proper.edit plain allowed run

/-- Types are passed on through any chain of reroutes, whichever of its links came first or went. -/
theorem reroutes_mirror_their_inputs (fresh : Fresh start) (untyped : Untyped start)
    (reached : Reached start g) : Mirrors g := by
  have proper := reached.proper fresh untyped
  constructor
  · intro id node found kind
    obtain ⟨input, output, first, out⟩ := sockets_of_reroutes proper.core.reroutes found kind
    exact ⟨input, output, first, out, proper.settled.mirrored id node found kind not_false input output first out⟩
  · intro c inside
    obtain ⟨-, l, here, bound⟩ := proper.core.linked.target c inside
    obtain ⟨target, present, rfl⟩ := wiring_inputs here
    obtain ⟨kind, outputs, frame, short⟩ := proper.sourced c inside
    obtain ⟨node, found, shape⟩ := Option.map_eq_some_iff.mp frame
    cases shape
    have input := List.getElem?_eq_getElem (by simpa using bound : c.target.index < target.inputs.length)
    have output := List.getElem?_eq_getElem short
    have fed := proper.settled.typed.fed c inside not_false _
      ((socket?_self (typing_inputs present)).trans input)
    refine ⟨_, node, _, ?_, found, output, fed.trans ?_⟩
    · unfold GraphState.input?
      rw [present]
      exact input
    · simp only [outType, found, Option.bind_some, output, Option.map_some, resolution, and_comm]

def plainSocket (typeName : String) : Socket := ⟨"", "", typeName, [], none, 0, none, true⟩

def twoReroutes : GraphState where
  nodes := ((AList.insert 0 ⟨.regular, "", "source", [], [plainSocket "Signal"], false, .null⟩ ∅).insert 1
    ⟨.reroute, "", "", [plainSocket "Any"], [plainSocket "Any"], false, .null⟩).insert 2
    ⟨.reroute, "", "", [plainSocket "Any"], [plainSocket "Any"], false, .null⟩
  connections := []
  semanticRevision := 0

theorem twoReroutes_node {id : NodeId} {node : Node} (present : twoReroutes.node? id = some node) :
    node.inputs = [] ∧ node.kind = .regular ∨
      node.inputs = [plainSocket "Any"] ∧ node.outputs = [plainSocket "Any"] := by
  by_cases third : id = 2
  · subst third
    cases present
    exact .inr ⟨rfl, rfl⟩
  · by_cases second : id = 1
    · subst second
      cases present
      exact .inr ⟨rfl, rfl⟩
    · by_cases first : id = 0
      · subst first
        cases present
        exact .inl ⟨rfl, rfl⟩
      · unfold GraphState.node? twoReroutes at present
        rw [AList.lookup_insert_ne third, AList.lookup_insert_ne second, AList.lookup_insert_ne first] at present
        cases present

theorem twoReroutes_fresh : Fresh twoReroutes := by
  refine ⟨rfl, ?_, ?_⟩
  · intro id node present i s info found variadic
    rcases twoReroutes_node present with ⟨inputs, -⟩ | ⟨inputs, -⟩
    · rw [inputs] at found
      simp at found
    · rw [inputs] at found
      obtain ⟨bound, rfl⟩ := List.getElem?_eq_some_iff.mp found
      simp [plainSocket] at variadic
  · intro id node present kind
    rcases twoReroutes_node present with ⟨-, regular⟩ | ⟨inputs, outputs⟩
    · rw [regular] at kind
      cases kind
    · rw [inputs, outputs]
      exact ⟨List.cons_ne_nil _ _, List.cons_ne_nil _ _⟩

theorem twoReroutes_untyped : Untyped twoReroutes := by
  refine ⟨fun id node present s inside => ?_, fun id node present kind => ?_⟩
  · rcases twoReroutes_node present with ⟨inputs, -⟩ | ⟨inputs, -⟩
    · rw [inputs] at inside
      cases inside
    · rw [inputs] at inside
      cases List.mem_singleton.mp inside
      rfl
  · rcases twoReroutes_node present with ⟨-, regular⟩ | ⟨inputs, outputs⟩
    · rw [regular] at kind
      cases kind
    · exact ⟨_, _, inputs, outputs, rfl, rfl⟩

def feedSecond : Edit := .addConnection ⟨1, 0, .output⟩ ⟨2, 0, .input⟩

def feedFirst : Edit := .addConnection ⟨0, 0, .output⟩ ⟨1, 0, .input⟩

def feedable (g : GraphState) : Bool :=
  (g.node? 0).any (fun node => 0 < node.outputs.length) && (g.node? 1).any (fun node => 0 < node.inputs.length)

theorem feedable_iff {g : GraphState} : feedable g = true ↔ feedFirst.Allowed g := by
  simp [feedable, feedFirst, Edit.Allowed, ExistingOutput, ExistingInput, Option.any_eq_true]

/-- The second reroute is fed by the first before the first is fed. -/
theorem reroutes_mirror_their_inputs_relay : ∃ middle g, feedSecond.apply twoReroutes = some middle ∧
    feedFirst.apply middle = some g ∧ Mirrors g ∧ g.outType ⟨2, 0, .output⟩ = some "Signal" := by
  have hrun : ((feedSecond.apply twoReroutes).bind fun middle => (feedFirst.apply middle).bind fun g =>
      if feedable middle then g.outType ⟨2, 0, .output⟩ else none) = some "Signal" := by decide +kernel
  obtain ⟨middle, first, hrun⟩ := Option.bind_eq_some_iff.mp hrun
  obtain ⟨g, second, hrun⟩ := Option.bind_eq_some_iff.mp hrun
  obtain ⟨hfeedable, htype⟩ := Option.ite_none_right_eq_some.mp hrun
  have allowed : feedSecond.Allowed twoReroutes := ⟨⟨rfl, _, rfl, by decide⟩, rfl, _, rfl, by decide⟩
  exact ⟨middle, g, first, second, reroutes_mirror_their_inputs twoReroutes_fresh twoReroutes_untyped
    (.edit (.edit .start rfl allowed first) rfl (feedable_iff.mp hfeedable) second), htype⟩

end Mirrors

end LogicConduit.Document
