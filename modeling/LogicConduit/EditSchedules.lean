import LogicConduit.LiveRunResults

namespace LogicConduit

open ProcessingGraph

variable {edit : LiveEdit} {id : NodeId}

abbrev NameTable := NodeId → Option String

def performEdit (new : ProcessingGraph) (names : NameTable) : LiveEdit → NameTable
  | .remove id => Function.update names id none
  | .add id => Function.update names id (some (new.compiledNode id).runtimeName)
  | .configure _ _ | .restart _ => names

def performEdits (new : ProcessingGraph) (names : NameTable) (edits : List LiveEdit) : NameTable :=
  edits.foldl (performEdit new) names

/-- What an edit needs of the name table: the producers of the inputs that it wires, the node that it changes, and
for a removal that no consumer which goes away as well is left. -/
def Executable (old new : ProcessingGraph) (names : NameTable) : LiveEdit → Prop
  | .remove id => (names id).isSome ∧
      ∀ e ∈ old.edges, e.source.1 = id → e.target.1 ∉ new.ids → names e.target.1 = none
  | .add id => names id = none ∧ ∀ e ∈ new.edges, e.target.1 = id → (names e.source.1).isSome
  | .configure id _ => (names id).isSome
  | .restart id => (names id).isSome ∧ ∀ e ∈ new.edges, e.target.1 = id → (names e.source.1).isSome

theorem addNode_names (outcome : ManagerOutcome) (t : Supervisor) (name : String) (node : Bool → RunningNode)
    (subs : List (Option Live.InputSub)) : (addNode outcome t name node subs).1.names = t.names := by
  unfold addNode
  split
  · rfl
  · split
    · rfl
    · split <;> rfl

theorem restartNode_names (outcome : ManagerOutcome) (t : Supervisor) (name : String) (node : Bool → RunningNode)
    (subs : List (Option Live.InputSub)) : (restartNode outcome t name node subs).1.names = t.names := by
  unfold restartNode
  split
  · rfl
  · dsimp only
    split
    · rfl
    · split <;> rfl

section Names

variable (o : Outcomes) (new : ProcessingGraph) (t : Supervisor)

theorem applyEdit_names (edit : LiveEdit) : (applyEdit o new t edit).1.names = performEdit new t.names edit ∨
    (applyEdit o new t edit).1.names = t.names ∧ (applyEdit o new t edit).2 ≠ none := by
  cases edit with
  | remove id =>
    left
    rw [applyEdit]
    split
    · rfl
    · simp only [removeNode]
      split <;> rfl
  | add id =>
    simp only [applyEdit]
    split
    · exact Or.inr ⟨rfl, Option.some_ne_none _⟩
    next ports _ =>
      split
      · exact Or.inr ⟨rfl, Option.some_ne_none _⟩
      next subs _ =>
        have kept := addNode_names (o.manager id) t (new.compiledNode id).runtimeName
          (new.wiredNode t.names id ports subs) subs
        split
        · next t' error failed =>
          rw [failed] at kept
          exact Or.inr ⟨kept, Option.some_ne_none _⟩
        · next t' added =>
          rw [added] at kept
          left
          rw [← kept]
          rfl
  | configure id config =>
    left
    rw [applyEdit]
    split
    · rfl
    · simp only [reconfigure]
      split
      · rfl
      · split <;> rfl
  | restart id =>
    left
    simp only [applyEdit]
    split
    · rfl
    · split
      · rfl
      · split
        · rfl
        · exact restartNode_names _ _ _ _ _

/-- However far the edits get, the names that the run keeps are those of a first part of the schedule. -/
theorem applyEdits_names (edits : List LiveEdit) : ∃ performed rest, edits = performed ++ rest ∧
    (applyEdits o new t edits).1.names = performEdits new t.names performed ∧
    ((applyEdits o new t edits).2 = none → rest = []) := by
  induction edits generalizing t with
  | nil => exact ⟨[], [], rfl, rfl, fun _ => rfl⟩
  | cons edit rest ih =>
    have first := applyEdit_names o new t edit
    rw [applyEdits]
    split
    · next t' error failed =>
      rw [failed] at first
      rcases first with done | ⟨undone, -⟩
      · exact ⟨[edit], rest, rfl, done, fun h => by cases h⟩
      · exact ⟨[], edit :: rest, rfl, undone, fun h => by cases h⟩
    · next t' done =>
      rw [done] at first
      obtain ⟨performed, left, split, names, all⟩ := ih t'
      refine ⟨edit :: performed, left, congrArg (edit :: ·) split, names.trans ?_, all⟩
      rw [first.resolve_right fun h => h.2 rfl]
      rfl

end Names

theorem nodup_edits {rest : List LiveEdit} (nodup : ((edit :: rest).map LiveEdit.node).Nodup) :
    (∀ other ∈ rest, other.node ≠ edit.node) ∧ (rest.map LiveEdit.node).Nodup := by
  rw [List.map_cons, List.nodup_cons] at nodup
  exact ⟨fun other inside same => nodup.1 (List.mem_map.mpr ⟨other, inside, same⟩), nodup.2⟩

theorem performEdits_isSome {new : ProcessingGraph} {names : NameTable} {edits : List LiveEdit}
    (nodup : (edits.map LiveEdit.node).Nodup) : (performEdits new names edits id).isSome ↔
      .add id ∈ edits ∨ (names id).isSome ∧ .remove id ∉ edits := by
  induction edits generalizing names with
  | nil => simp [performEdits]
  | cons edit rest ih =>
    obtain ⟨once, nodup⟩ := nodup_edits nodup
    rw [performEdits, List.foldl_cons, ← performEdits, ih nodup]
    cases edit with
    | remove i =>
      by_cases same : id = i
      · subst same
        simp [performEdit]
      · simp [performEdit, same]
    | add i =>
      by_cases same : id = i
      · subst same
        have kept : .remove id ∉ rest := fun inside => once _ inside rfl
        simp [performEdit, kept]
      · simp [performEdit, same]
    | configure i config => simp [performEdit]
    | restart i => simp [performEdit]

/-- A consumer that goes away is removed before its producer. -/
theorem removes_consumer_first {old new : LoweredPlan} {edits done rest : List LiveEdit}
    (h : diff old.toProcessingGraph new.toProcessingGraph = .ok edits) (split : edits = done ++ .remove id :: rest)
    {e : ProcessingEdge} (inside : e ∈ old.edges) (source : e.source.1 = id) (gone : e.target.1 ∉ new.ids) :
    .remove e.target.1 ∈ done := by
  have script := diff_editScript h
  have nodup : edits.Nodup := List.Nodup.of_map _ script.nodup
  obtain ⟨-, idGone⟩ := (script.remove id).mp (split ▸ List.mem_append_right _ List.mem_cons_self)
  obtain ⟨changes, shape, -⟩ := diff_ok h
  obtain ⟨before, after, order⟩ :=
    List.append_of_mem (old.mem_topoOrder.mpr (old.closed e inside).2)
  obtain ⟨first, second, early⟩ := List.append_of_mem (old.topoOrder_before order inside rfl)
  -- backwards the consumer comes first, then its producer
  have backwards : old.topoOrder.reverse =
      (after.reverse ++ e.target.1 :: second.reverse) ++ id :: first.reverse := by
    rw [order, early, source]
    simp
  rw [backwards, List.filter_append, List.filter_cons_of_pos (by simpa using idGone), List.map_append, List.map_cons,
    List.append_assoc, List.append_assoc, List.cons_append] at shape
  rw [split_unique nodup split shape]
  refine List.mem_map_of_mem (List.mem_filter.mpr ⟨?_, by simpa using gone⟩)
  exact List.mem_append_right _ List.mem_cons_self

/-- The edits that lead from one plan to another can be made in their order: every lookup finds its node, no node
is edited twice, and the table ends with the nodes of the new plan. -/
theorem edit_schedule_executable {old new : LoweredPlan} {edits : List LiveEdit} {names : NameTable}
    (h : diff old.toProcessingGraph new.toProcessingGraph = .ok edits)
    (held : ∀ id, (names id).isSome ↔ id ∈ old.ids) :
    (edits.map LiveEdit.node).Nodup ∧
    (∀ done edit rest, edits = done ++ edit :: rest → Executable old.toProcessingGraph new.toProcessingGraph
      (performEdits new.toProcessingGraph names done) edit) ∧
    ∀ id, (performEdits new.toProcessingGraph names edits id).isSome ↔ id ∈ new.ids := by
  have script := diff_editScript h
  refine ⟨script.nodup, ?_, ?_⟩
  · intro done edit rest split
    have member : edit ∈ edits := split ▸ List.mem_append_right _ List.mem_cons_self
    have within : ∀ other ∈ done, other ∈ edits := fun other inside => split ▸ List.mem_append_left _ inside
    have nodes := script.nodup
    rw [split, List.map_append, List.map_cons, List.nodup_append] at nodes
    have once : ∀ other ∈ done, other.node ≠ edit.node := fun other inside =>
      nodes.2.2 _ (List.mem_map_of_mem inside) _ List.mem_cons_self
    have present : ∀ id, (performEdits new.toProcessingGraph names done id).isSome ↔
        .add id ∈ done ∨ id ∈ old.ids ∧ .remove id ∉ done := fun id => by
      rw [performEdits_isSome nodes.1, held]
    -- a node of both plans stays, and a new producer is added in front of what it feeds
    have stays : ∀ id ∈ old.ids, id ∈ new.ids →
        (performEdits new.toProcessingGraph names done id).isSome := fun id inOld inNew =>
      (present id).mpr (.inr ⟨inOld, fun gone => ((script.remove id).mp (within _ gone)).2 inNew⟩)
    have producers : ∀ id, edit = .add id ∨ edit = .restart id → ∀ e ∈ new.edges, e.target.1 = id →
        (performEdits new.toProcessingGraph names done e.source.1).isSome := by
      intro id kind e inside target
      by_cases inOld : e.source.1 ∈ old.ids
      · exact stays _ inOld (new.closed e inside).1
      · exact (present _).mpr (.inl (script.producers done edit rest id split kind e inside target inOld))
    cases edit with
    | remove id =>
      refine ⟨(present id).mpr (.inr ⟨((script.remove id).mp member).1, fun gone => once _ gone rfl⟩), ?_⟩
      intro e inside source gone
      rw [← Option.not_isSome_iff_eq_none, present]
      rintro (added | ⟨-, kept⟩)
      · exact gone ((script.add _).mp (within _ added)).1
      · exact kept (removes_consumer_first h split inside source gone)
    | add id =>
      refine ⟨?_, producers id (.inl rfl)⟩
      rw [← Option.not_isSome_iff_eq_none, present]
      rintro (added | ⟨inOld, -⟩)
      · exact once _ added rfl
      · exact ((script.add id).mp member).2 inOld
    | configure id config =>
      obtain ⟨inOld, inNew, -⟩ := script.configure id config member
      exact stays id inOld inNew
    | restart id =>
      obtain ⟨inOld, inNew⟩ := script.restart id member
      exact ⟨stays id inOld inNew, producers id (.inr rfl)⟩
  · intro id
    rw [performEdits_isSome script.nodup, held, script.add, script.remove]
    by_cases inOld : id ∈ old.ids <;> by_cases inNew : id ∈ new.ids <;> simp [inOld, inNew]

/-- A writer is replaced by another. -/
theorem edit_schedule_executable_replaced :
    diff (writersPlan [3] (by decide)).toProcessingGraph (writersPlan [4] (by decide)).toProcessingGraph =
        .ok [.remove 3, .add 4] ∧
    ∀ id, (performEdits (writersPlan [4] (by decide)).toProcessingGraph
      (fun id => if id ∈ [1, 2, 3] then some "node" else none) [.remove 3, .add 4] id).isSome ↔
        id ∈ (writersPlan [4] (by decide)).ids := by
  have accepted : diff (writersPlan [3] (by decide)).toProcessingGraph
      (writersPlan [4] (by decide)).toProcessingGraph = .ok [.remove 3, .add 4] := rfl
  refine ⟨accepted, (edit_schedule_executable accepted fun id => ?_).2.2⟩
  have ids : (writersPlan [3] (by decide)).ids = [1, 2, 3] := rfl
  rw [ids]
  split <;> simp_all

end LogicConduit
