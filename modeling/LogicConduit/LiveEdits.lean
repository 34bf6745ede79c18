import LogicConduit.ProcessingPlan

namespace LogicConduit

inductive LiveEdit where
  | remove (id : NodeId)
  | add (id : NodeId)
  | configure (id : NodeId) (config : Json)
  | restart (id : NodeId)
deriving DecidableEq

def LiveEdit.node : LiveEdit → NodeId
  | remove id => id
  | add id => id
  | configure id _ => id
  | restart id => id

namespace ProcessingGraph

variable {id : NodeId} {edit : Option LiveEdit}

def isSource (plan : ProcessingGraph) (id : NodeId) : Bool := (plan.compiledNode id).timeDomainSource

def checkJoin (plan : ProcessingGraph) (onBlock onSource : String) :
    List ProcessingEdge → Except String Unit
  | [] => .ok ()
  | e :: edges =>
    if e.kind.typeId = .sampleBlock then .error onBlock
    else if plan.isSource e.source.1 then .error onSource
    else plan.checkJoin onBlock onSource edges

def addition (new : ProcessingGraph) (id : NodeId) : Except String (Option LiveEdit) :=
  match new.checkJoin
      "new node consumes block channels; block subscriptions cannot join mid-stream"
      "new connection directly to the source; source destinations are fixed at start"
      (new.incoming id) with
  | .error message => .error message
  | .ok () => .ok (some (.add id))

def stateChanged (old new : ProcessingGraph) (id : NodeId) : Bool :=
  (old.compiledNode id).executionState ≠ (new.compiledNode id).executionState

def change (old new : ProcessingGraph) (id : NodeId) : Except String (Option LiveEdit) :=
  let node := new.compiledNode id
  let wiringChanged := !sameWiring old new id
  if !wiringChanged && !stateChanged old new id then .ok none
  else if new.isSource id then .error "the source node changed"
  else
    match if !wiringChanged && stateChanged old new id then node.hotConfig node.state else none with
    | some config => .ok (some (.configure id config))
    | none =>
      -- the node subscribes again, which block streams and source ports never notice
      match new.checkJoin
          ("'" ++ node.runtimeName ++ "' consumes block channels and cannot restart mid-stream")
          ("'" ++ node.runtimeName ++ "' is fed directly by the source and cannot restart mid-stream")
          (new.incoming id) with
      | .error message => .error message
      | .ok () => .ok (some (.restart id))

def collectEdits (f : NodeId → Except String (Option LiveEdit)) :
    List NodeId → Except String (List LiveEdit)
  | [] => .ok []
  | id :: ids =>
    match f id with
    | .error message => .error message
    | .ok edit =>
      match collectEdits f ids with
      | .error message => .error message
      | .ok edits => .ok (edit.toList ++ edits)

/-- The edits that lead from the running plan to the edited one, or the reason a full restart
is needed: removals from consumers to producers, additions from producers to consumers, then
the changed nodes. -/
def diff (old new : ProcessingGraph) : Except String (List LiveEdit) :=
  let removals := old.topoOrder.reverse.filter fun id => id ∉ new.ids
  if removals.any old.isSource then .error "the source node was removed"
  else
    match collectEdits new.addition (new.topoOrder.filter fun id => id ∉ old.ids) with
    | .error message => .error message
    | .ok additions =>
      match collectEdits (change old new) (new.topoOrder.filter fun id => id ∈ old.ids) with
      | .error message => .error message
      | .ok changes => .ok (removals.map LiveEdit.remove ++ additions ++ changes)

theorem addition_ok {new : ProcessingGraph}
    (h : new.addition id = .ok edit) : edit = some (.add id) := by
  unfold addition at h
  split at h <;> cases h
  rfl

theorem change_ok {old new : ProcessingGraph} (h : change old new id = .ok edit) :
    (edit = none ∧ sameWiring old new id = true ∧ stateChanged old new id = false) ∨
    (∃ config, edit = some (.configure id config) ∧ sameWiring old new id = true ∧
      stateChanged old new id = true) ∨
    (edit = some (.restart id) ∧ (sameWiring old new id = true → stateChanged old new id = true)) := by
  unfold change at h
  dsimp only at h
  cases wiring : sameWiring old new id <;> cases state : stateChanged old new id <;>
    simp [wiring, state] at h
  · split at h
    · cases h
    · split at h <;> cases h
      exact .inr (.inr ⟨rfl, by simp⟩)
  · split at h
    · cases h
    · split at h <;> cases h
      exact .inr (.inr ⟨rfl, by simp⟩)
  · cases h
    exact .inl ⟨rfl, rfl, rfl⟩
  · split at h
    · cases h
    · split at h
      · cases h
        exact .inr (.inl ⟨_, rfl, rfl, rfl⟩)
      · split at h <;> cases h
        exact .inr (.inr ⟨rfl, by simp⟩)

variable {f : NodeId → Except String (Option LiveEdit)} {edits : List LiveEdit}

variable {ids : List NodeId}

theorem collectEdits_ok (h : collectEdits f ids = .ok edits) :
    (∀ id ∈ ids, ∃ edit, f id = .ok edit) ∧
      ∀ e, e ∈ edits ↔ ∃ id ∈ ids, f id = .ok (some e) := by
  induction ids generalizing edits with
  | nil =>
    cases h
    simp
  | cons id ids ih =>
    unfold collectEdits at h
    split at h
    · cases h
    next edit here =>
      split at h
      · cases h
      next rest later =>
        cases h
        obtain ⟨all, mem⟩ := ih later
        refine ⟨?_, ?_⟩
        · intro other hother
          rcases List.mem_cons.mp hother with rfl | inside
          · exact ⟨edit, here⟩
          · exact all other inside
        · intro e
          rw [List.mem_append, mem e]
          simp [here]

theorem collectEdits_map {g : NodeId → LiveEdit}
    (one : ∀ id edit, f id = .ok edit → edit = some (g id)) (h : collectEdits f ids = .ok edits) :
    edits = ids.map g := by
  induction ids generalizing edits with
  | nil =>
    cases h
    rfl
  | cons id ids ih =>
    unfold collectEdits at h
    split at h
    · cases h
    next edit here =>
      split at h
      · cases h
      next rest later =>
        cases h
        rw [one id edit here, ih later]
        rfl

theorem diff_ok {old new : ProcessingGraph} (h : diff old new = .ok edits) :
    ∃ changes, edits = (old.topoOrder.reverse.filter fun id => id ∉ new.ids).map LiveEdit.remove ++
        (new.topoOrder.filter fun id => id ∉ old.ids).map LiveEdit.add ++ changes ∧
      collectEdits (change old new) (new.topoOrder.filter fun id => id ∈ old.ids) = .ok changes := by
  unfold diff at h
  dsimp only at h
  split at h
  · cases h
  split at h
  · cases h
  next additions added =>
    split at h
    · cases h
    next changes changed =>
      cases h
      exact ⟨changes, by rw [collectEdits_map (fun _ _ => addition_ok) added], changed⟩

end ProcessingGraph

namespace LoweredPlan

open ProcessingGraph

variable {old new : LoweredPlan} {edits : List LiveEdit}

section

variable (h : diff old.toProcessingGraph new.toProcessingGraph = .ok edits)
include h

theorem mem_diff
    (edit : LiveEdit) : edit ∈ edits ↔
      (∃ id, edit = .remove id ∧ id ∈ old.ids ∧ id ∉ new.ids) ∨
      (∃ id, edit = .add id ∧ id ∈ new.ids ∧ id ∉ old.ids) ∨
      (∃ id, id ∈ old.ids ∧ id ∈ new.ids ∧
        change old.toProcessingGraph new.toProcessingGraph id = .ok (some edit)) := by
  obtain ⟨changes, rfl, changed⟩ := diff_ok h
  simp only [List.mem_append, List.mem_map, List.mem_filter, List.mem_reverse,
    (collectEdits_ok changed).2 edit, mem_topoOrder, decide_eq_true_eq, or_assoc]
  constructor
  · rintro (⟨id, ⟨a, b⟩, rfl⟩ | ⟨id, ⟨a, b⟩, rfl⟩ | ⟨id, ⟨a, b⟩, c⟩)
    · exact .inl ⟨id, rfl, a, b⟩
    · exact .inr (.inl ⟨id, rfl, a, b⟩)
    · exact .inr (.inr ⟨id, b, a, c⟩)
  · rintro (⟨id, rfl, a, b⟩ | ⟨id, rfl, a, b⟩ | ⟨id, a, b, c⟩)
    · exact .inl ⟨id, ⟨a, b⟩, rfl⟩
    · exact .inr (.inl ⟨id, ⟨a, b⟩, rfl⟩)
    · exact .inr (.inr ⟨id, ⟨b, a⟩, c⟩)

/-- A node of both plans goes without an edit exactly when its execution state and its wiring
signature are unchanged. -/
theorem unedited_iff {id : NodeId} (inOld : id ∈ old.ids) (inNew : id ∈ new.ids) :
    (∀ edit ∈ edits, edit.node ≠ id) ↔
      sameWiring old.toProcessingGraph new.toProcessingGraph id = true ∧
        (old.compiledNode id).executionState = (new.compiledNode id).executionState := by
  obtain ⟨changes, -, changed⟩ := diff_ok h
  obtain ⟨edit, answer⟩ := (collectEdits_ok changed).1 id
    (List.mem_filter.mpr ⟨new.mem_topoOrder.mpr inNew, by simpa using inOld⟩)
  have unchanged_iff : stateChanged old.toProcessingGraph new.toProcessingGraph id = false ↔
      (old.compiledNode id).executionState = (new.compiledNode id).executionState := by
    simp [stateChanged]
  rw [← unchanged_iff]
  constructor
  · intro unedited
    have inside : ∀ e, edit = some e → e ∈ edits := fun e same =>
      (mem_diff h e).mpr (.inr (.inr ⟨id, inOld, inNew, same ▸ answer⟩))
    rcases change_ok answer with ⟨-, wiring, state⟩ | ⟨config, rfl, -⟩ | ⟨rfl, -⟩
    · exact ⟨wiring, state⟩
    · exact absurd rfl (unedited _ (inside _ rfl))
    · exact absurd rfl (unedited _ (inside _ rfl))
  · rintro ⟨wiring, state⟩ e he rfl
    rcases (mem_diff h e).mp he with ⟨i, rfl, -, gone⟩ | ⟨i, rfl, -, fresh⟩ | ⟨i, -, -, other⟩
    · exact gone inNew
    · exact fresh inOld
    · rcases change_ok other with ⟨nothing, -⟩ | ⟨config, same, -, changedState⟩ | ⟨same, changedState⟩
      · cases nothing
      · cases same
        rw [show LiveEdit.node (.configure i config) = i from rfl] at state
        exact absurd (changedState.symm.trans state) (by simp)
      · cases same
        rw [show LiveEdit.node (.restart i) = i from rfl] at state wiring
        exact absurd ((changedState wiring).symm.trans state) (by simp)

end

end LoweredPlan

end LogicConduit
