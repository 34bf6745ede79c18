import LogicConduit.TriggerProgram

namespace LogicConduit

abbrev LaneConditions := Std.ExtTreeMap CaptureChannelId SimpleTriggerCondition

def TriggerProgramForm.conditions : TriggerProgramForm → Option LaneConditions
  | .freeRun => some ∅
  | .commonDigital conditions => some conditions
  | .advanced => none

def lanePredicate (lane : CaptureChannelId × SimpleTriggerCondition) : TriggerPredicate := .digital lane.1 lane.2

variable {channel : CaptureChannelId} {condition : SimpleTriggerCondition}

variable {predicates : List TriggerPredicate}

theorem collectConditions_shows {seen conditions : LaneConditions}
    (collected : TriggerEditorSchema.collectConditions predicates seen = some conditions)
    (shown : conditions[channel]? = some condition) :
    seen[channel]? = some condition ∨ TriggerPredicate.digital channel condition ∈ predicates := by
  induction predicates generalizing seen with
  | nil => cases collected; exact Or.inl shown
  | cons predicate rest ih =>
    cases predicate with
    | registered predicate operands => simp [TriggerEditorSchema.collectConditions] at collected
    | digital other next =>
      simp only [TriggerEditorSchema.collectConditions] at collected
      split at collected
      · simp at collected
      rcases ih collected with seen | mem
      · rw [Std.ExtTreeMap.getElem?_insert] at seen
        split at seen
        · rename_i same
          cases Std.LawfulEqCmp.eq_of_compare same
          cases seen
          exact Or.inr List.mem_cons_self
        · exact Or.inl seen
      · exact Or.inr (List.mem_cons_of_mem _ mem)

theorem collectConditions_lanes {lanes : List (CaptureChannelId × SimpleTriggerCondition)}
    (distinct : lanes.Pairwise fun a b => ¬compare a.1 b.1 = .eq) {seen : LaneConditions}
    (fresh : ∀ lane ∈ lanes, lane.1 ∉ seen) :
    ∃ conditions, TriggerEditorSchema.collectConditions (lanes.map lanePredicate) seen = some conditions ∧
      ∀ channel condition, conditions[channel]? = some condition ↔
        (channel, condition) ∈ lanes ∨ seen[channel]? = some condition := by
  induction lanes generalizing seen with
  | nil => exact ⟨seen, rfl, by simp⟩
  | cons lane rest ih =>
    obtain ⟨apart, distinct⟩ := List.pairwise_cons.mp distinct
    have unseen : lane.1 ∉ seen := fresh lane List.mem_cons_self
    have later : ∀ other ∈ rest, other.1 ∉ seen.insert lane.1 lane.2 := by
      intro other mem
      rw [Std.ExtTreeMap.mem_insert]
      exact not_or.mpr ⟨apart other mem, fresh other (List.mem_cons_of_mem _ mem)⟩
    obtain ⟨conditions, collected, shows⟩ := ih distinct later
    refine ⟨conditions, ?_, ?_⟩
    · simp only [List.map_cons, lanePredicate, TriggerEditorSchema.collectConditions, if_neg unseen]
      exact collected
    · intro channel condition
      rw [shows, Std.ExtTreeMap.getElem?_insert, List.mem_cons]
      by_cases same : lane.1 = channel
      · subst same
        have none_seen : seen[lane.1]? = none := Std.ExtTreeMap.getElem?_eq_none unseen
        have none_later : (lane.1, condition) ∉ rest := fun mem => apart _ mem Std.ReflCmp.compare_self
        simp [none_seen, none_later, Prod.ext_iff, eq_comm]
      · have differ : ¬compare lane.1 channel = .eq := fun equal => same (Std.LawfulEqCmp.eq_of_compare equal)
        have other : (channel, condition) ≠ lane := fun equal => same (congrArg Prod.fst equal).symm
        simp [differ, other]

theorem collectConditions_toList (conditions : LaneConditions) :
    TriggerEditorSchema.collectConditions (conditions.toList.map lanePredicate) ∅ = some conditions := by
  obtain ⟨collected, found, shows⟩ :=
    collectConditions_lanes (conditions.distinct_keys_toList) (fun lane _ => Std.ExtTreeMap.not_mem_empty)
  rw [found]
  congr 1
  apply Std.ExtTreeMap.ext_getElem?
  intro channel
  apply Option.ext
  intro condition
  rw [shows, Std.ExtTreeMap.mem_toList_iff_getElem?_eq_some]
  simp

namespace TriggerEditorSchema

variable {schema : TriggerEditorSchema} {channels : List CaptureChannelId}

theorem validatePredicates_condition {stagePath : String} {index : Nat} {seen : List CaptureChannelId}
    (valid : schema.validatePredicates channels stagePath index seen predicates = [])
    (mem : TriggerPredicate.digital channel condition ∈ predicates) : condition ≠ .ignore := by
  induction predicates generalizing index seen with
  | nil => exact absurd mem List.not_mem_nil
  | cons predicate rest ih =>
    simp only [validatePredicates, List.append_eq_nil_iff] at valid
    obtain ⟨⟨_, accepted⟩, later⟩ := valid
    rcases List.mem_cons.mp mem with rfl | mem
    · simp only [validatePredicate, List.append_eq_nil_iff] at accepted
      intro ignored
      rw [if_pos (Or.inl ignored)] at accepted
      simp at accepted
    · exact ih later mem

variable {program accepted : TriggerProgram}

section

variable (valid : schema.validateProgram channels program = .ok accepted)
include valid

theorem validateProgram_ok : accepted = program ∧ schema.programDiagnostics channels program = [] := by
  unfold validateProgram at valid
  split at valid
  · rename_i none_found
    cases valid
    exact ⟨rfl, none_found⟩
  · cases valid

theorem validateProgram_stage {stage : TriggerStage} (single : program.stages = [stage]) :
    ∃ stagePath, schema.validatePredicates channels stagePath 0 [] stage.predicates = [] := by
  have none_found := (validateProgram_ok valid).2
  simp only [programDiagnostics, validateStage, single, List.append_eq_nil_iff, List.flatMap_eq_nil_iff] at none_found
  exact ⟨_, (none_found.2 (stage, 0) (by simp)).2⟩

end

variable {conditions : LaneConditions}

theorem stageForm_conditions {stage : TriggerStage} (shown : (stageForm stage).conditions = some conditions) :
    collectConditions stage.predicates ∅ = some conditions := by
  unfold stageForm at shown
  split at shown
  · cases shown
  split at shown
  · rename_i collected
    cases shown
    exact collected
  · cases shown

variable {program : Option TriggerProgram}

theorem programForm_kept {form : TriggerProgramForm} (read : schema.programForm channels program = .ok form)
    (shown : form.conditions = some conditions) (channel : CaptureChannelId) : conditions[channel]? ≠ some .ignore := by
  cases program with
  | none =>
    cases read
    cases shown
    simp
  | some program =>
    simp only [programForm] at read
    split at read
    · cases read
    rename_i accepted valid
    split at read
    · rename_i stage single
      cases read
      obtain ⟨stagePath, passed⟩ := validateProgram_stage valid single
      intro ignored
      rcases collectConditions_shows (stageForm_conditions shown) ignored with seen | mem
      · simp at seen
      · exact validatePredicates_condition passed mem rfl
    · cases read
      cases shown

theorem editableConditions_eq_ok :
    schema.editableConditions channels program = .ok conditions ↔
      ∃ form, schema.programForm channels program = .ok form ∧ form.conditions = some conditions := by
  unfold editableConditions
  split <;> rename_i read <;> simp [read, TriggerProgramForm.conditions]

def laneProgram (schema : TriggerEditorSchema) (conditions : LaneConditions) : Option TriggerProgram :=
  if conditions = ∅ then none
  else some (.new schema.id schema.revision [⟨conditions.toList.map lanePredicate, .and, false, none⟩])

section

variable (kept : ∀ channel : CaptureChannelId, conditions[channel]? ≠ some .ignore)
include kept

theorem simpleProgram_lanes (built : schema.simpleProgram conditions.toList = .ok program) :
    program = schema.laneProgram conditions := by
  have whole : conditions.toList.filter (fun entry => entry.2 ≠ .ignore) = conditions.toList := by
    apply List.filter_eq_self.mpr
    rintro ⟨channel, condition⟩ mem
    rw [Std.ExtTreeMap.mem_toList_iff_getElem?_eq_some] at mem
    simp only [decide_eq_true_eq]
    rintro rfl
    exact kept channel mem
  unfold simpleProgram at built
  split at built
  · cases built
    simp only [whole]
    unfold laneProgram
    simp only [List.map_eq_nil_iff, Std.ExtTreeMap.toList_eq_nil_iff]
    rfl
  · cases built

theorem conditionsProgram_ok (built : schema.conditionsProgram channels conditions = .ok program) :
    program = schema.laneProgram conditions ∧
      ∀ accepted ∈ program, schema.validateProgram channels accepted = .ok accepted := by
  unfold conditionsProgram at built
  split at built
  · cases built
  rename_i found simple
  have lanes := simpleProgram_lanes kept simple
  have filtered : found.filter (fun program => !program.stages.isEmpty) = found := by
    subst lanes
    unfold laneProgram
    split <;> rfl
  rw [filtered] at built
  cases found with
  | none =>
    cases built
    exact ⟨lanes, by simp⟩
  | some found =>
    simp only at built
    split at built
    · cases built
    · rename_i accepted valid
      cases built
      refine ⟨lanes, ?_⟩
      rintro _ ⟨⟩
      exact valid.trans (congrArg _ (validateProgram_ok valid).1)

end

theorem programForm_lanes
    (valid : ∀ accepted ∈ schema.laneProgram conditions, schema.validateProgram channels accepted = .ok accepted) :
    ∃ form, schema.programForm channels (schema.laneProgram conditions) = .ok form ∧
      form.conditions = some conditions := by
  unfold laneProgram at valid ⊢
  split
  · rename_i empty
    exact ⟨.freeRun, rfl, by rw [empty]; rfl⟩
  · rename_i nonempty
    rw [if_neg nonempty] at valid
    refine ⟨.commonDigital conditions, ?_, rfl⟩
    simp only [programForm, valid _ rfl]
    simp [TriggerProgram.new, stageForm, collectConditions_toList]

abbrev LaneEdit := CaptureChannelId × SimpleTriggerCondition

theorem getElem?_editConditions {channel other : CaptureChannelId} :
    (editConditions conditions channel condition)[other]? =
      if channel = other then (if condition = .ignore then none else some condition) else conditions[other]? := by
  unfold editConditions
  by_cases same : channel = other
  · subst same
    split <;> simp
  · have differ : ¬compare channel other = .eq := fun equal => same (Std.LawfulEqCmp.eq_of_compare equal)
    split
    · rw [Std.ExtTreeMap.getElem?_erase, if_neg differ]
    · rw [Std.ExtTreeMap.getElem?_insert, if_neg differ]

theorem editConditions_kept (kept : ∀ channel : CaptureChannelId, conditions[channel]? ≠ some .ignore)
    (edited : CaptureChannelId) (condition : SimpleTriggerCondition) (channel : CaptureChannelId) :
    (editConditions conditions edited condition)[channel]? ≠ some .ignore := by
  rw [getElem?_editConditions]
  split
  · split
    · simp
    · rename_i not_ignored
      simpa using not_ignored
  · exact kept channel

theorem editConditions_comm (conditions : LaneConditions) {a b : LaneEdit} (apart : a.1 ≠ b.1) :
    editConditions (editConditions conditions a.1 a.2) b.1 b.2 =
      editConditions (editConditions conditions b.1 b.2) a.1 a.2 := by
  apply Std.ExtTreeMap.ext_getElem?
  intro channel
  simp only [getElem?_editConditions]
  by_cases first : a.1 = channel
  · have second : b.1 ≠ channel := fun equal => apart (first.trans equal.symm)
    simp only [if_pos first, if_neg second]
  · simp only [if_neg first]

theorem withSimpleCondition_ok {program next : Option TriggerProgram}
    (edited : schema.withSimpleCondition channels program channel condition = .ok next) :
    ∃ conditions, schema.editableConditions channels program = .ok conditions ∧
      next = schema.laneProgram (editConditions conditions channel condition) ∧
      schema.editableConditions channels next = .ok (editConditions conditions channel condition) ∧
      ∀ accepted ∈ next, schema.validateProgram channels accepted = .ok accepted := by
  unfold withSimpleCondition at edited
  split at edited
  · split at edited
    · cases edited
    · rename_i conditions editable
      obtain ⟨form, read, shown⟩ := editableConditions_eq_ok.mp editable
      have kept := editConditions_kept (programForm_kept read shown) channel condition
      obtain ⟨lanes, valid⟩ := conditionsProgram_ok kept edited
      subst lanes
      exact ⟨conditions, editable, rfl, editableConditions_eq_ok.mpr (programForm_lanes valid), valid⟩
  · cases edited

variable (schema channels)

/-- The programs that successful edits lead to, one after another. -/
def withSimpleConditions (program : Option TriggerProgram) (edits : List LaneEdit) :
    Except TriggerProgramEditError (Option TriggerProgram) :=
  edits.foldlM (fun program edit => schema.withSimpleCondition channels program edit.1 edit.2) program

def editLanes (conditions : LaneConditions) (edits : List LaneEdit) : LaneConditions :=
  edits.foldl (fun conditions edit => editConditions conditions edit.1 edit.2) conditions

/-- The program of an editor after an edit, which a failed edit leaves. -/
def attemptEdit (program : Option TriggerProgram) (edit : LaneEdit) : Option TriggerProgram :=
  match schema.withSimpleCondition channels program edit.1 edit.2 with
  | .ok edited => edited
  | .error _ => program

def attemptEdits (program : Option TriggerProgram) (edits : List LaneEdit) : Option TriggerProgram :=
  edits.foldl (schema.attemptEdit channels) program

variable {schema channels}

theorem withSimpleConditions_ok {edits : List LaneEdit} {program last : Option TriggerProgram}
    (editable : schema.editableConditions channels program = .ok conditions)
    (valid : ∀ accepted ∈ program, schema.validateProgram channels accepted = .ok accepted)
    (run : schema.withSimpleConditions channels program edits = .ok last) :
    schema.editableConditions channels last = .ok (editLanes conditions edits) ∧
      ∀ accepted ∈ last, schema.validateProgram channels accepted = .ok accepted := by
  induction edits generalizing program conditions with
  | nil =>
    cases run
    exact ⟨editable, valid⟩
  | cons edit edits ih =>
    simp only [withSimpleConditions, List.foldlM_cons] at run
    cases edited : schema.withSimpleCondition channels program edit.1 edit.2 with
    | error error => rw [edited] at run; cases run
    | ok next =>
      rw [edited] at run
      obtain ⟨before, same, -, after, valid⟩ := withSimpleCondition_ok edited
      cases editable.symm.trans same
      exact ih after valid run

/-- Attempts lead where the successful ones among them lead on their own. -/
theorem attempts_successful (edits : List LaneEdit) (program : Option TriggerProgram) :
    ∃ successful, successful.Sublist edits ∧
      schema.withSimpleConditions channels program successful = .ok (schema.attemptEdits channels program edits) := by
  induction edits generalizing program with
  | nil => exact ⟨[], List.Sublist.slnil, rfl⟩
  | cons edit edits ih =>
    obtain ⟨successful, chosen, run⟩ := ih (schema.attemptEdit channels program edit)
    cases edited : schema.withSimpleCondition channels program edit.1 edit.2 with
    | error error =>
      have unchanged : schema.attemptEdit channels program edit = program := by simp only [attemptEdit, edited]
      rw [unchanged] at run
      exact ⟨successful, chosen.cons edit, by rw [attemptEdits, List.foldl_cons, unchanged]; exact run⟩
    | ok next =>
      have changed : schema.attemptEdit channels program edit = next := by simp only [attemptEdit, edited]
      rw [changed] at run
      refine ⟨edit :: successful, chosen.cons_cons edit, ?_⟩
      rw [attemptEdits, List.foldl_cons, changed, ← attemptEdits, ← run]
      simp only [withSimpleConditions, List.foldlM_cons, edited]
      rfl

theorem attemptEdits_failed {edits later : List LaneEdit} {edit : LaneEdit} {error : TriggerProgramEditError}
    (failed : schema.withSimpleCondition channels (schema.attemptEdits channels program edits) edit.1 edit.2 = .error error) :
    schema.attemptEdits channels program (edits ++ edit :: later) =
      schema.attemptEdits channels program (edits ++ later) := by
  simp only [attemptEdits, List.foldl_append, List.foldl_cons]
  congr 1
  unfold attemptEdits at failed
  simp only [attemptEdit, failed]

theorem withSimpleConditions_comm {program first second : Option TriggerProgram} {a b : LaneEdit} (apart : a.1 ≠ b.1)
    (one : schema.withSimpleConditions channels program [a, b] = .ok first)
    (other : schema.withSimpleConditions channels program [b, a] = .ok second) : first = second := by
  have last : ∀ {a b : LaneEdit} {last : Option TriggerProgram},
      schema.withSimpleConditions channels program [a, b] = .ok last →
        ∃ conditions, schema.editableConditions channels program = .ok conditions ∧
          last = schema.laneProgram (editConditions (editConditions conditions a.1 a.2) b.1 b.2) := by
    intro a b last run
    simp only [withSimpleConditions, List.foldlM_cons, List.foldlM_nil] at run
    cases edited : schema.withSimpleCondition channels program a.1 a.2 with
    | error error => rw [edited] at run; cases run
    | ok next =>
      rw [edited] at run
      simp only [bind, Except.bind, pure, Except.pure] at run
      split at run
      · cases run
      · rename_i final again
        cases run
        obtain ⟨conditions, editable, -, after, -⟩ := withSimpleCondition_ok edited
        obtain ⟨between, same, lanes, -⟩ := withSimpleCondition_ok again
        cases after.symm.trans same
        exact ⟨conditions, editable, lanes⟩
  obtain ⟨conditions, editable, rfl⟩ := last one
  obtain ⟨same, again, rfl⟩ := last other
  cases editable.symm.trans again
  rw [editConditions_comm conditions apart]

theorem withSimpleCondition_advanced (advanced : schema.programForm channels program = .ok .advanced)
    (channel : CaptureChannelId) (condition : SimpleTriggerCondition) :
    schema.withSimpleCondition channels program channel condition =
      .error (if channel ∈ channels then .advancedProgram else .unknownChannel channel) := by
  unfold withSimpleCondition editableConditions
  simp only [advanced]
  split <;> rfl

end TriggerEditorSchema

/-- Lane edits refine a map, for every schema and every enabled channels. -/
theorem lane_edits_refine_map (schema : TriggerEditorSchema) (channels : List CaptureChannelId) :
    (∀ (edits : List TriggerEditorSchema.LaneEdit) (program : Option TriggerProgram),
      schema.withSimpleConditions channels none edits = .ok program →
        (∀ accepted ∈ program, schema.validateProgram channels accepted = .ok accepted) ∧
        ∃ form, schema.programForm channels program = .ok form ∧
          form.conditions = some (TriggerEditorSchema.editLanes ∅ edits)) ∧
    (∀ (edits : List TriggerEditorSchema.LaneEdit) (program : Option TriggerProgram),
      (∃ successful, successful.Sublist edits ∧ schema.withSimpleConditions channels program successful =
        .ok (schema.attemptEdits channels program edits)) ∧
      ∀ (edit : TriggerEditorSchema.LaneEdit) (error : TriggerProgramEditError),
        schema.withSimpleCondition channels (schema.attemptEdits channels program edits) edit.1 edit.2 =
          .error error →
        ∀ later, schema.attemptEdits channels program (edits ++ edit :: later) =
          schema.attemptEdits channels program (edits ++ later)) ∧
    (∀ (program first second : Option TriggerProgram) (a b : TriggerEditorSchema.LaneEdit), a.1 ≠ b.1 →
      schema.withSimpleConditions channels program [a, b] = .ok first →
        schema.withSimpleConditions channels program [b, a] = .ok second → first = second) ∧
    ∀ (program : Option TriggerProgram), schema.programForm channels program = .ok .advanced →
      ∀ (channel : CaptureChannelId) (condition : SimpleTriggerCondition),
        schema.withSimpleCondition channels program channel condition =
          .error (if channel ∈ channels then .advancedProgram else .unknownChannel channel) := by
  refine ⟨?_, ?_, ?_, ?_⟩
  · intro edits program run
    obtain ⟨editable, valid⟩ := TriggerEditorSchema.withSimpleConditions_ok rfl (by simp) run
    exact ⟨valid, TriggerEditorSchema.editableConditions_eq_ok.mp editable⟩
  · exact fun edits program => ⟨TriggerEditorSchema.attempts_successful edits program,
      fun edit error failed later => TriggerEditorSchema.attemptEdits_failed failed⟩
  · exact fun program first second a b => TriggerEditorSchema.withSimpleConditions_comm
  · exact fun program => TriggerEditorSchema.withSimpleCondition_advanced

def levelSchema : TriggerEditorSchema :=
  ⟨⟨"levels", by decide, by decide⟩, 1, 1, 2, [.and], [.low, .high], false, none, [], by decide, by decide, by decide,
    by decide, by decide, by decide, by decide⟩

/-- One lane is set and ignored again. -/
def levelEdits : List TriggerEditorSchema.LaneEdit := [("b", .high), ("a", .low), ("b", .ignore)]

/-- Lane `c` is not enabled. -/
theorem two_lanes_shown :
    (∃ program form, levelSchema.withSimpleConditions ["a", "b"] none levelEdits = .ok (some program) ∧
      levelSchema.programForm ["a", "b"] (some program) = .ok form ∧
      form.conditions = some (TriggerEditorSchema.editLanes ∅ levelEdits)) ∧
    levelSchema.attemptEdits ["a", "b"] none ([("b", .high)] ++ ("c", .high) :: [("a", .low)]) =
      levelSchema.attemptEdits ["a", "b"] none ([("b", .high)] ++ [("a", .low)]) ∧
    ∃ program, levelSchema.withSimpleConditions ["a", "b"] none [("b", .high), ("a", .low)] = .ok (some program) ∧
      levelSchema.withSimpleConditions ["a", "b"] none [("a", .low), ("b", .high)] = .ok (some program) := by
  have edited {edits : List TriggerEditorSchema.LaneEdit}
      (present : ((levelSchema.withSimpleConditions ["a", "b"] none edits).toOption.join).isSome = true) :
      ∃ program, levelSchema.withSimpleConditions ["a", "b"] none edits = .ok (some program) := by
    cases run : levelSchema.withSimpleConditions ["a", "b"] none edits with
    | error error => rw [run] at present; cases present
    | ok program =>
      cases program with
      | none => rw [run] at present; cases present
      | some program => exact ⟨program, rfl⟩
  obtain ⟨shows, attempts, commute, -⟩ := lane_edits_refine_map levelSchema ["a", "b"]
  refine ⟨?_, ?_, ?_⟩
  · obtain ⟨program, run⟩ := @edited levelEdits (by decide +kernel)
    obtain ⟨-, form, read, shown⟩ := shows _ _ run
    exact ⟨program, form, run, read, shown⟩
  · exact (attempts [("b", .high)] none).2 ("c", .high) (.unknownChannel "c") rfl [("a", .low)]
  · obtain ⟨program, run⟩ := @edited [("b", .high), ("a", .low)] (by decide +kernel)
    obtain ⟨other, again⟩ := @edited [("a", .low), ("b", .high)] (by decide +kernel)
    have same := commute none _ _ ("b", .high) ("a", .low) (by decide) run again
    exact ⟨program, run, same ▸ again⟩

end LogicConduit
