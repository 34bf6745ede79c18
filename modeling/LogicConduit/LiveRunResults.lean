import LogicConduit.LiveRunRecovery

namespace LogicConduit

open ProcessingGraph

section Calls

variable {o : Outcomes} {new : LoweredPlan} {run : LiveRun}

section

variable (mirrors : Mirrors run.compiled.toProcessingGraph run.table)
include mirrors

section

variable (full : run.cachePruned = false)
include full

theorem applyCompiled_cases :
    (∃ message, applyCompiled o new run = (run, .error (.needsFullRestart message)) ∧
      diff run.compiled.toProcessingGraph new.toProcessingGraph = .error message) ∨
    (∃ edits t', diff run.compiled.toProcessingGraph new.toProcessingGraph = .ok edits ∧
      Partway run.table run.compiled new edits t' ∧
      (∀ e ∈ edits, ¬ EditFails o new.toProcessingGraph run.table.names e) ∧
      applyCompiled o new run = (⟨t', new, run.cachePruned⟩, .ok (summarize edits))) ∨
    (∃ edits front edit back mid t' error,
      diff run.compiled.toProcessingGraph new.toProcessingGraph = .ok edits ∧
      edits = front ++ edit :: back ∧ Partway run.table run.compiled new front mid ∧
      (∀ e ∈ front, ¬ EditFails o new.toProcessingGraph run.table.names e) ∧
      EditFails o new.toProcessingGraph run.table.names edit ∧
      applyEdit o new.toProcessingGraph mid edit = (t', some error) ∧
      applyCompiled o new run = ({ run with table := t' }, .error error)) := by
  cases difference : diff run.compiled.toProcessingGraph new.toProcessingGraph with
  | error message =>
    refine .inl ⟨message, ?_, rfl⟩
    simp only [applyCompiled, difference]
  | ok edits =>
    have script := diff_editScript difference
    have start : Partway run.table run.compiled new [] run.table := Partway.start mirrors
    cases edits with
    | nil =>
      refine .inr (.inl ⟨[], run.table, rfl, start, by simp, ?_⟩)
      simp only [applyCompiled, difference]
    | cons first others =>
      rcases applyEdits_cases (o := o) mirrors script (List.nil_append _).symm start (by simp) with
        ⟨t', ran, partway, fine⟩ | ⟨front, edit, back, mid, t', error, split, partway, fine, fails, at_, ran⟩
      · refine .inr (.inl ⟨_, t', rfl, partway, fine, ?_⟩)
        simp only [applyCompiled, difference, full, Bool.false_eq_true, if_false, ran]
      · refine .inr (.inr ⟨_, front, edit, back, mid, t', error, rfl, split, partway, fine, fails, at_, ?_⟩)
        simp only [applyCompiled, difference, full, Bool.false_eq_true, if_false, ran]

theorem applyCompiled_ok {run' : LiveRun} {summary : ApplySummary}
    (ok : applyCompiled o new run = (run', .ok summary)) :
    run'.compiled = new ∧ run'.cachePruned = false ∧
      Mirrors new.toProcessingGraph run'.table ∧
      ∃ edits, diff run.compiled.toProcessingGraph new.toProcessingGraph = .ok edits ∧
        Partway run.table run.compiled new edits run'.table := by
  rcases @applyCompiled_cases o new run mirrors full with
    ⟨message, result, -⟩ | ⟨edits, t', difference, partway, -, result⟩ |
      ⟨_, _, _, _, _, _, _, _, _, _, _, _, _, result⟩
  · cases result.symm.trans ok
  · cases result.symm.trans ok
    exact ⟨rfl, full, partway.mirrors mirrors (diff_editScript difference), edits, difference, partway⟩
  · cases result.symm.trans ok

/-- A failed call under the condition leaves a run that still mirrors the plan it holds. -/
theorem applyCompiled_error (recoverable : Recoverable o new run) {run' : LiveRun}
    {error : ApplyError} (failed : applyCompiled o new run = (run', .error error)) :
    run'.compiled = run.compiled ∧ run'.cachePruned = false ∧
      Mirrors run.compiled.toProcessingGraph run'.table := by
  rcases @applyCompiled_cases o new run mirrors full with
    ⟨message, result, -⟩ | ⟨edits, t', _, _, -, result⟩ |
      ⟨edits, front, edit, back, mid, t', error', difference, split, partway, fine, fails, at_, result⟩
  · cases result.symm.trans failed
    exact ⟨rfl, full, mirrors⟩
  · cases result.symm.trans failed
  · cases result.symm.trans failed
    have script := diff_editScript difference
    obtain ⟨keeps, clean⟩ := recoverable edits difference front edit back split fine fails
    cases applyEdit_clean mirrors script split partway clean at_
    exact ⟨rfl, full, partway.mirrors_old mirrors script (fun _ => EditScript.mem_done split) keeps⟩

end

end

end Calls

/-- The runs that start without reusing a cached lane and go through any calls under the
condition, failing or not. -/
inductive Recovering : LiveRun → Prop
  | start {o : Outcomes} {lookup : List UInt8 → Bool} {plan : LoweredPlan} {run : LiveRun} :
    startLive o lookup plan = .ok run → run.cachePruned = false → Recovering run
  | apply {run : LiveRun} (o : Outcomes) (new : LoweredPlan) :
    Recovering run → Recoverable o new run → Recovering (applyCompiled o new run).1

theorem Recovering.mirrors {run : LiveRun} (h : Recovering run) :
    run.cachePruned = false ∧ Mirrors run.compiled.toProcessingGraph run.table := by
  induction h with
  | start started full =>
    obtain ⟨rfl, partway⟩ := startLive_partway started full
    exact ⟨full, partway.mirrors mirrors_empty (start_editScript _)⟩
  | @apply run o new _ recoverable ih =>
    obtain ⟨full, mirrors⟩ := ih
    rcases result : applyCompiled o new run with ⟨run', outcome⟩
    cases outcome with
    | ok summary =>
      obtain ⟨same, full', mirrors', -⟩ := applyCompiled_ok mirrors full result
      exact ⟨full', same ▸ mirrors'⟩
    | error error =>
      obtain ⟨same, full', mirrors'⟩ := applyCompiled_error mirrors full recoverable result
      exact ⟨full', same ▸ mirrors'⟩

def simpleNode (id : NodeId) (builder : String) (state : Json) (source : Bool) : ProcessingNode where
  id := id
  builder := builder
  hotConfig := fun _ => none
  executionState := state
  timeDomainSource := source
  sink := false
  state := state
  runtimeName := nodeName id "node"
  dataCollector := false
  collectedLaneNames := []
  resolved := []
  captureCacheIdentity := .notCapture
  derivedWordCaches := []

def writersPlan (writers : List NodeId) (fresh : writers.Nodup ∧ 1 ∉ writers ∧ 2 ∉ writers) :
    LoweredPlan where
  nodes := simpleNode 1 "capture_source" .null true :: simpleNode 2 "uart_decoder" .null false ::
    writers.map fun writer => simpleNode writer "file_writer" .null false
  edges := ⟨(1, "ch0"), (2, "rx"), 1000, PortKind.sample⟩ ::
    writers.map fun writer => ⟨(2, "words"), (writer, "in"), 100, PortKind.word⟩
  nodup := by
    have ids : writers.map (ProcessingNode.id ∘ fun writer => simpleNode writer "file_writer" .null false) =
        writers := List.map_id'' (fun _ => rfl) writers
    rw [List.map_cons, List.map_cons, List.map_map, ids]
    simp only [simpleNode, List.nodup_cons, List.mem_cons, not_or]
    exact ⟨⟨by decide, fresh.2.1⟩, fresh.2.2, fresh.1⟩
  closed := by
    simp only [simpleNode, List.mem_cons, List.mem_map]
    rintro e (rfl | ⟨writer, member, rfl⟩)
    · simp
    · simp [member]
  acyclic := Kahn.acyclic_of_rank (fun id => if id = 1 then 0 else if id = 2 then 1 else 2) (by
    intro e inside
    simp only [List.map_cons, List.map_map, List.mem_cons, List.mem_map] at inside
    rcases inside with rfl | ⟨writer, member, rfl⟩
    · decide
    · have notOne : writer ≠ 1 := fun same => fresh.2.1 (same ▸ member)
      have notTwo : writer ≠ 2 := fun same => fresh.2.2 (same ▸ member)
      simp [notOne, notTwo])
  named := by
    intro node inside
    simp only [List.mem_cons, List.mem_map] at inside
    rcases inside with rfl | rfl | ⟨writer, -, rfl⟩ <;> exact ⟨"node", rfl⟩

/-- The inputs of a node with their payload kinds: input port, producer, output port, kind and
capacity. -/
def ProcessingGraph.inputsOf (plan : ProcessingGraph) (id : NodeId) :
    List (String × NodeId × String × PayloadType × Nat) :=
  (plan.incoming id).map fun e => (e.target.2, e.source.1, e.source.2, e.kind.typeId, e.buffer)

/-- A node has the same builder, execution state and set of typed inputs in both plans. -/
structure SameNode (old new : ProcessingGraph) (id : NodeId) : Prop where
  builder : (old.compiledNode id).builder = (new.compiledNode id).builder
  executionState : (old.compiledNode id).executionState = (new.compiledNode id).executionState
  inputs : ∀ input, input ∈ old.inputsOf id ↔ input ∈ new.inputsOf id

/-- A wire into the node that the second plan keeps in its ports and its capacity, but not in its payload. -/
def Retyped (old new : ProcessingGraph) (id : NodeId) : Prop :=
  ∃ e ∈ old.incoming id, signature e ∈ new.wiringOf id ∧
    ∀ e' ∈ new.incoming id, signature e' = signature e → e'.kind.typeId ≠ e.kind.typeId

/-- Where the plans give a node another builder or another payload on a wire they keep, they also change its
execution state, or one of them has a wire into it that the other has not. -/
def ChangesShow (old new : ProcessingGraph) : Prop :=
  ∀ id ∈ old.ids, id ∈ new.ids →
    (old.compiledNode id).builder ≠ (new.compiledNode id).builder ∨ Retyped old new id ∨ Retyped new old id →
    (old.compiledNode id).executionState ≠ (new.compiledNode id).executionState ∨
      (∃ wire ∈ old.wiringOf id, wire ∉ new.wiringOf id) ∨ ∃ wire ∈ new.wiringOf id, wire ∉ old.wiringOf id

theorem mem_inputsOf {plan : ProcessingGraph} {id producer buffer : Nat} {port output : String}
    {kind : PayloadType} : (port, producer, output, kind, buffer) ∈ plan.inputsOf id ↔
      ∃ e ∈ plan.incoming id, signature e = (port, producer, output, buffer) ∧
        e.kind.typeId = kind := by
  simp only [inputsOf, List.mem_map, signature, Prod.mk.injEq]
  constructor
  · rintro ⟨e, inside, a, b, c, d, f⟩
    exact ⟨e, inside, ⟨a, b, c, f⟩, d⟩
  · rintro ⟨e, inside, ⟨a, b, c, f⟩, d⟩
    exact ⟨e, inside, a, b, c, d, f⟩

theorem inputsOf_iff {old new : ProcessingGraph} {id : NodeId} :
    (∀ input, input ∈ old.inputsOf id ↔ input ∈ new.inputsOf id) ↔
      ∀ wire kind, (∃ e ∈ old.incoming id, signature e = wire ∧ e.kind.typeId = kind) ↔
        ∃ e ∈ new.incoming id, signature e = wire ∧ e.kind.typeId = kind := by
  constructor
  · rintro same ⟨port, producer, output, buffer⟩ kind
    rw [← mem_inputsOf, ← mem_inputsOf]
    exact same _
  · rintro same ⟨port, producer, output, kind, buffer⟩
    rw [mem_inputsOf, mem_inputsOf]
    exact same _ _

theorem not_retyped_iff {old new : ProcessingGraph} {id : NodeId}
    (kept : ∀ wire ∈ old.wiringOf id, wire ∈ new.wiringOf id) : ¬ Retyped old new id ↔
      ∀ wire kind, (∃ e ∈ old.incoming id, signature e = wire ∧ e.kind.typeId = kind) →
        ∃ e ∈ new.incoming id, signature e = wire ∧ e.kind.typeId = kind := by
  constructor
  · rintro none wire kind ⟨e, inside, rfl, rfl⟩
    by_contra other
    refine none ⟨e, inside, kept _ (List.mem_map_of_mem inside), fun e' inside' same typed => other ?_⟩
    exact ⟨e', inside', same, typed⟩
  · rintro all ⟨e, inside, -, differs⟩
    obtain ⟨e', inside', same, typed⟩ := all _ _ ⟨e, inside, rfl, rfl⟩
    exact differs e' inside' same typed

theorem sameNode_iff {old new : ProcessingGraph} {id : NodeId} (wiring : sameWiring old new id = true)
    (state : (old.compiledNode id).executionState = (new.compiledNode id).executionState) :
    SameNode old new id ↔ ¬ ((old.compiledNode id).builder ≠ (new.compiledNode id).builder ∨
      Retyped old new id ∨ Retyped new old id) := by
  rw [sameWiring_iff] at wiring
  rw [not_or, not_or, not_not, not_retyped_iff fun wire => (wiring wire).mp,
    not_retyped_iff fun wire => (wiring wire).mpr]
  constructor
  · rintro ⟨builder, -, inputs⟩
    rw [inputsOf_iff] at inputs
    exact ⟨builder, fun wire kind => (inputs wire kind).mp, fun wire kind => (inputs wire kind).mpr⟩
  · rintro ⟨builder, forward, backward⟩
    exact ⟨builder, state, inputsOf_iff.mpr fun wire kind => ⟨forward wire kind, backward wire kind⟩⟩

theorem TypedTo.of_sameInputs {old new : ProcessingGraph} {names : NodeId → Option String}
    {id : NodeId} {input : RunningInput} (wiring : sameWiring old new id = true)
    (same : ∀ wire kind, (∃ e ∈ old.incoming id, signature e = wire ∧ e.kind.typeId = kind) ↔
      ∃ e ∈ new.incoming id, signature e = wire ∧ e.kind.typeId = kind)
    (h : TypedTo old names id input) : TypedTo new names id input := by
  rcases input with ⟨port, sub, kind⟩
  cases sub with
  | none =>
    have wired : WiredTo old names id ⟨port, none, kind⟩ := h
    exact wired.of_sameWiring wiring
  | some s =>
    obtain ⟨e, inside, carried, typed⟩ := h
    rw [carries_iff] at carried
    obtain ⟨target, source, output, buffer⟩ := carried
    obtain ⟨e', inside', sig, kind'⟩ := (same (signature e) e.kind.typeId).mp
      ⟨e, mem_incoming.mpr ⟨inside, by rw [target]⟩, rfl, rfl⟩
    obtain ⟨inside', at_id⟩ := mem_incoming.mp inside'
    simp only [signature, Prod.mk.injEq] at sig
    refine ⟨e', inside', carries_iff.mpr ⟨Prod.ext at_id ?_, ?_, ?_, ?_⟩, ?_⟩
    · rw [sig.1, target]
    · rw [sig.2.1, source]
    · rw [sig.2.2.1, output]
    · rw [sig.2.2.2, buffer]
    · rw [kind']
      exact typed

/-- Every node runs with the builder, configuration and typed subscriptions of the plan. -/
def Faithful (plan : ProcessingGraph) (t : Supervisor) : Prop :=
  ∀ id name node, t.names id = some name → t.nodes name = some node → RunsAs plan t.names id node

/-- The runs that start without reusing a cached lane and go through successful calls whose
plans keep the condition. -/
inductive Edited : LiveRun → Prop
  | start {o : Outcomes} {lookup : List UInt8 → Bool} {plan : LoweredPlan} {run : LiveRun} :
    startLive o lookup plan = .ok run → run.cachePruned = false → Edited run
  | apply {run run' : LiveRun} {o : Outcomes} {new : LoweredPlan} {summary : ApplySummary} :
    Edited run → ChangesShow run.compiled.toProcessingGraph new.toProcessingGraph →
    applyCompiled o new run = (run', .ok summary) → Edited run'

theorem Partway.faithful {t₀ t : Supervisor} {old new : LoweredPlan} {edits : List LiveEdit}
    (mirrors : Mirrors old.toProcessingGraph t₀) (script : EditScript old new edits)
    (h : Partway t₀ old new edits t)
    (kept : ∀ id name node, id ∈ old.ids → id ∈ new.ids → (∀ edit ∈ edits, edit.node ≠ id) →
      t₀.names id = some name → t₀.nodes name = some node →
      RunsAs new.toProcessingGraph t₀.names id node) : Faithful new.toProcessingGraph t := by
  intro id name node named held
  have inNew : id ∈ new.ids := (h.mem_ids mirrors script id).mpr (by simp [named])
  obtain ⟨node', held', -, state⟩ := h.running id name named
  cases Option.some.inj (held'.symm.trans held)
  rcases state with ⟨-, runs⟩ | ⟨untouched, same⟩
  · refine runs.mono fun e he n final => ?_
    rw [h.names_final script (new.closed e he).1]
    exact final
  · have inOld : id ∈ old.ids := by
      by_contra fresh
      exact untouched _ ((script.add id).mpr ⟨inNew, fresh⟩) rfl
    have before := (h.names_kept script (fun _ inside => inside) inOld inNew).symm.trans named
    refine (kept id name node inOld inNew untouched before same).mono fun e he n namedE => ?_
    rw [h.names_kept script (fun _ inside => inside) ((mirrors.mem_ids _).mpr (by simp [namedE]))
      (new.closed e he).1]
    exact namedE

/-- A node that goes without an edit is the same in both plans exactly when no change behind its execution state
and its wires is hidden. -/
theorem unedited_same_iff {old new : LoweredPlan} {edits : List LiveEdit}
    (accepted : diff old.toProcessingGraph new.toProcessingGraph = .ok edits) :
    (∀ id ∈ old.ids, id ∈ new.ids → (∀ edit ∈ edits, edit.node ≠ id) →
        SameNode old.toProcessingGraph new.toProcessingGraph id) ↔
      ChangesShow old.toProcessingGraph new.toProcessingGraph := by
  refine forall₃_congr fun id inOld inNew => ?_
  rw [LoweredPlan.unedited_iff accepted inOld inNew]
  constructor
  · intro same hidden
    by_contra shows
    simp only [not_or, not_not, not_exists, not_and] at shows
    obtain ⟨state, lost, gained⟩ := shows
    have wiring : sameWiring old.toProcessingGraph new.toProcessingGraph id = true :=
      sameWiring_iff.mpr fun wire => ⟨lost wire, gained wire⟩
    exact (sameNode_iff wiring state).mp (same ⟨wiring, state⟩) hidden
  · rintro shows ⟨wiring, state⟩
    refine (sameNode_iff wiring state).mpr fun hidden => ?_
    rw [sameWiring_iff] at wiring
    rcases shows hidden with other | ⟨wire, inside, gone⟩ | ⟨wire, inside, gone⟩
    · exact other state
    · exact gone ((wiring wire).mp inside)
    · exact gone ((wiring wire).mpr inside)

theorem Edited.faithful {run : LiveRun} (h : Edited run) : run.cachePruned = false ∧
    Mirrors run.compiled.toProcessingGraph run.table ∧
    Faithful run.compiled.toProcessingGraph run.table := by
  induction h with
  | start started full =>
    obtain ⟨rfl, partway⟩ := startLive_partway started full
    have script := start_editScript
    refine ⟨full, partway.mirrors mirrors_empty (script _), ?_⟩
    exact partway.faithful mirrors_empty (script _) fun id _ _ inOld => by
      simp [emptyPlan, ProcessingGraph.ids] at inOld
  | @apply run run' o new summary _ follows ok ih =>
    obtain ⟨full, mirrors, faithful⟩ := ih
    obtain ⟨rfl, full', mirrors', edits, difference, partway⟩ := applyCompiled_ok mirrors full ok
    refine ⟨full', mirrors', partway.faithful mirrors (diff_editScript difference) ?_⟩
    intro id name node inOld inNew untouched named held
    have wiring := ((LoweredPlan.unedited_iff difference inOld inNew).mp untouched).1
    have same := (unedited_same_iff difference).mpr follows id inOld inNew untouched
    have runs := faithful id name node named held
    exact ⟨runs.builder.trans same.builder, runs.configuration.trans same.executionState,
      runs.subscribed.of_sameWiring wiring,
      fun input inside => (runs.typed input inside).of_sameInputs wiring (inputsOf_iff.mp same.inputs)⟩

end LogicConduit
