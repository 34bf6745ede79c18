import Mathlib.Data.Set.Finite.Basic

namespace LogicConduit.Walks

variable {α : Type*} {targets : α → Option (List α)} {a b : α}

/-- The calls for a list of targets one after the other; they stop at the first that gives up. -/
def walkAll (walk : α → Option Bool) : List α → Option Bool
  | [] => some true
  | a :: rest =>
    match walk a with
    | none => none
    | some false => some false
    | some true => walkAll walk rest

def walk (targets : α → Option (List α)) : Nat → α → Option Bool
  | 0, _ => none
  | depth + 1, a =>
    match targets a with
    | none => some false
    | some next => walkAll (walk targets depth) next

def Edge (targets : α → Option (List α)) (a b : α) : Prop := ∃ next, targets a = some next ∧ b ∈ next

/-- Every node that can be reached can be read, and none lies on a cycle. -/
def Clean (targets : α → Option (List α)) (a : α) : Prop :=
  ∀ b, Relation.ReflTransGen (Edge targets) a b → targets b ≠ none ∧ ¬Relation.TransGen (Edge targets) b b

def Calls (targets : α → Option (List α)) (a b : α) : Prop :=
  ∃ before rest, targets a = some (before ++ b :: rest) ∧ ∀ c ∈ before, Clean targets c

section Depth

variable {next : List α}

theorem walkAll_eq_true {walk : α → Option Bool} :
    walkAll walk next = some true ↔ ∀ b ∈ next, walk b = some true := by
  induction next with
  | nil => simp [walkAll]
  | cons b next ih =>
    rw [walkAll, List.forall_mem_cons]
    cases found : walk b with
    | none => simp
    | some through =>
      cases through with
      | false => simp
      | true => simp [ih]

theorem walkAll_eq_false {walk : α → Option Bool} (h : walkAll walk next = some false) :
    ∃ b ∈ next, walk b = some false := by
  induction next with
  | nil => cases h
  | cons b next ih =>
    rw [walkAll] at h
    split at h
    next => cases h
    next found => exact ⟨b, List.mem_cons_self, found⟩
    next =>
      obtain ⟨c, mem, found⟩ := ih h
      exact ⟨c, List.mem_cons_of_mem _ mem, found⟩

theorem walkAll_reaches {walk : α → Option Bool} {before rest : List α} {answer : Bool}
    (h : walkAll walk (before ++ b :: rest) = some answer) (passed : ∀ c ∈ before, walk c ≠ some false) :
    ∃ answer', walk b = some answer' := by
  induction before with
  | nil =>
    rw [List.nil_append, walkAll] at h
    split at h
    next => cases h
    next came => exact ⟨_, came⟩
    next came => exact ⟨_, came⟩
  | cons c before ih =>
    rw [List.cons_append, walkAll] at h
    split at h
    next => cases h
    next gave => exact absurd gave (passed c List.mem_cons_self)
    next => exact ih h fun d mem => passed d (List.mem_cons_of_mem _ mem)

variable {through : Bool}

theorem walkAll_mono {walk walk' : α → Option Bool} (mono : ∀ b through, walk b = some through → walk' b = some through)
    (h : walkAll walk next = some through) : walkAll walk' next = some through := by
  induction next with
  | nil => exact h
  | cons b next ih =>
    rw [walkAll] at h
    split at h
    next => cases h
    next found =>
      rw [walkAll, mono b false found]
      exact h
    next found =>
      rw [walkAll, mono b true found]
      exact ih h

theorem walk_succ {depth : Nat} (h : walk targets depth a = some through) :
    walk targets (depth + 1) a = some through := by
  induction depth generalizing a through with
  | zero => cases h
  | succ depth ih =>
    rw [walk] at h ⊢
    split at h
    · exact h
    · exact walkAll_mono (fun b through found => ih found) h

theorem walk_mono {depth depth' : Nat} (le : depth ≤ depth') (h : walk targets depth a = some through) :
    walk targets depth' a = some through := by
  induction le with
  | refl => exact h
  | step _ ih => exact walk_succ ih

theorem walk_unique {depth depth' : Nat} {through through' : Bool} (h : walk targets depth a = some through)
    (h' : walk targets depth' a = some through') : through = through' := by
  have deep := walk_mono (Nat.le_max_left depth depth') h
  rw [walk_mono (Nat.le_max_right depth depth') h'] at deep
  exact (Option.some.inj deep).symm

end Depth

section Relations

variable {r : α → α → Prop}

theorem acc_reach (h : Acc (flip r) a) (reach : Relation.ReflTransGen r a b) : Acc (flip r) b := by
  induction reach with
  | refl => exact h
  | tail _ step ih => exact ih.inv step

theorem no_cycle_of_acc (h : Acc (flip r) a) : ¬Relation.TransGen r a a := by
  induction h with
  | intro a _ ih =>
    intro cycle
    obtain ⟨b, step, rest⟩ := Relation.TransGen.head'_iff.mp cycle
    exact ih b step (Relation.TransGen.tail' rest step)

/-- In a finite field no infinite descent starts where no cycle can be reached. -/
theorem acc_of_no_cycle {field : Set α} (finite : field.Finite) (sources : ∀ a b, r a b → a ∈ field)
    (h : ∀ b, Relation.ReflTransGen r a b → ¬Relation.TransGen r b b) : Acc (flip r) a := by
  -- The descent stays in the nodes of the field that can be reached, where what comes later is a strict order.
  let reached : Set α := {b | b ∈ field ∧ Relation.ReflTransGen r a b}
  have few : Finite reached := (finite.subset fun b mem => mem.1).to_subtype
  let later : reached → reached → Prop := fun b c => Relation.TransGen r c.1 b.1
  have transitive : IsTrans reached later := ⟨fun _ _ _ first second => second.trans first⟩
  have irreflexive : Std.Irrefl later := ⟨fun b => h b.1 b.2.2⟩
  have descends : WellFounded later := Finite.wellFounded_of_trans_of_irrefl later
  have inside : ∀ b : reached, Acc (flip r) b.1 := by
    intro b
    induction b using descends.induction with
    | _ b ih =>
      refine ⟨b.1, fun c step => ?_⟩
      by_cases mem : c ∈ field
      · exact ih ⟨c, mem, b.2.2.tail step⟩ (.single step)
      · exact ⟨c, fun d next => absurd (sources c d next) mem⟩
  by_cases mem : a ∈ field
  · exact inside ⟨a, mem, .refl⟩
  · exact ⟨a, fun b step => absurd (sources a b step) mem⟩

theorem acc_iff_no_cycle {field : Set α} (finite : field.Finite) (sources : ∀ a b, r a b → a ∈ field) :
    Acc (flip r) a ↔ ∀ b, Relation.ReflTransGen r a b → ¬Relation.TransGen r b b :=
  ⟨fun h _ reach => no_cycle_of_acc (acc_reach h reach), acc_of_no_cycle finite sources⟩

end Relations

section Termination

theorem Calls.edge (h : Calls targets a b) : Edge targets a b := by
  obtain ⟨before, rest, next, -⟩ := h
  exact ⟨_, next, List.mem_append_right _ List.mem_cons_self⟩

theorem Clean.of_edge (h : Clean targets a) (step : Edge targets a b) : Clean targets b :=
  fun c reach => h c (.head step reach)

theorem clean_of_walk {depth : Nat} (h : walk targets depth a = some true) : Clean targets a := by
  have readable : ∀ {depth : Nat} {a : α}, walk targets depth a = some true →
      targets a ≠ none ∧ ∀ b, Edge targets a b → ∃ depth', walk targets depth' b = some true := by
    intro depth a h
    cases depth with
    | zero => cases h
    | succ depth =>
      rw [walk] at h
      split at h
      · cases h
      next next found =>
        refine ⟨by rw [found]; exact nofun, ?_⟩
        rintro b ⟨next', found', mem⟩
        cases found.symm.trans found'
        exact ⟨depth, walkAll_eq_true.mp h b mem⟩
  have descends : ∀ {depth : Nat} {a : α}, walk targets depth a = some true → Acc (flip (Edge targets)) a := by
    intro depth
    induction depth with
    | zero => exact fun h => nomatch h
    | succ depth ih =>
      intro a h
      refine ⟨a, fun b step => ?_⟩
      obtain ⟨next, found, mem⟩ := step
      rw [walk, found] at h
      exact ih (walkAll_eq_true.mp h b mem)
  intro b reach
  have through : ∃ depth', walk targets depth' b = some true := by
    induction reach with
    | refl => exact ⟨depth, h⟩
    | tail _ step ih =>
      obtain ⟨depth', before⟩ := ih
      exact (readable before).2 _ step
  obtain ⟨depth', found⟩ := through
  exact ⟨(readable found).1, no_cycle_of_acc (descends found)⟩

theorem walkAll_ends {next : List α}
    (each : ∀ before b rest, next = before ++ b :: rest → (∀ c ∈ before, ∃ depth, walk targets depth c = some true) →
      ∃ depth through, walk targets depth b = some through) :
    ∃ depth through, walkAll (walk targets depth) next = some through := by
  induction next with
  | nil => exact ⟨0, true, rfl⟩
  | cons b rest ih =>
    obtain ⟨depth, through, first⟩ := each [] b rest rfl (by simp)
    cases through with
    | false => exact ⟨depth, false, by rw [walkAll, first]⟩
    | true =>
      have others : ∀ before c after, rest = before ++ c :: after →
          (∀ d ∈ before, ∃ depth, walk targets depth d = some true) →
          ∃ depth through, walk targets depth c = some through := by
        rintro before c after rfl came
        refine each (b :: before) c after rfl fun d mem => ?_
        rcases List.mem_cons.mp mem with rfl | mem
        · exact ⟨depth, first⟩
        · exact came d mem
      obtain ⟨depth', through, later⟩ := ih others
      refine ⟨max depth depth', through, ?_⟩
      rw [walkAll, walk_mono (Nat.le_max_left depth depth') first]
      exact walkAll_mono (fun c _ found => walk_mono (Nat.le_max_right depth depth') found) later

/-- A walk comes through if and only if all that it can reach is clean. -/
theorem walk_through_iff {field : Set α} (finite : field.Finite) (sources : ∀ a b, Edge targets a b → a ∈ field) :
    (∃ depth, walk targets depth a = some true) ↔ Clean targets a := by
  refine ⟨fun ⟨_, h⟩ => clean_of_walk h, fun clean => ?_⟩
  have descends : Acc (flip (Edge targets)) a := acc_of_no_cycle finite sources fun b reach => (clean b reach).2
  induction descends with
  | intro a _ ih =>
    cases found : targets a with
    | none => exact absurd found (clean a .refl).1
    | some next =>
      have each : ∀ b ∈ next, ∃ depth, walk targets depth b = some true := fun b mem =>
        ih b ⟨next, found, mem⟩ (clean.of_edge ⟨next, found, mem⟩)
      obtain ⟨depth, through, all⟩ := @walkAll_ends α targets next (by
        rintro before b rest rfl _
        obtain ⟨depth, came⟩ := each b (List.mem_append_right _ List.mem_cons_self)
        exact ⟨depth, true, came⟩)
      refine ⟨depth + 1, ?_⟩
      rw [walk, found]
      dsimp only
      rw [all]
      cases through with
      | true => rfl
      | false =>
        obtain ⟨b, mem, gave⟩ := walkAll_eq_false all
        obtain ⟨depth', came⟩ := each b mem
        cases walk_unique gave came

/-- A walk ends, by coming through or by giving up, if and only if its calls run into no cycle. -/
theorem walk_ends_iff {field : Set α} (finite : field.Finite) (sources : ∀ a b, Edge targets a b → a ∈ field) :
    (∃ depth through, walk targets depth a = some through) ↔
      ∀ b, Relation.ReflTransGen (Calls targets) a b → ¬Relation.TransGen (Calls targets) b b := by
  have through := fun c => @walk_through_iff α targets c field finite sources
  rw [← acc_iff_no_cycle finite fun a b call => sources a b call.edge]
  constructor
  · rintro ⟨depth, answer, h⟩
    induction depth generalizing a answer with
    | zero => cases h
    | succ depth ih =>
      refine ⟨a, fun b call => ?_⟩
      obtain ⟨before, rest, found, clean⟩ := call
      rw [walk, found] at h
      obtain ⟨answer', came⟩ := walkAll_reaches h fun c mem gave => by
        obtain ⟨depth', passed⟩ := (through c).mpr (clean c mem)
        cases walk_unique gave passed
      exact ih answer' came
  · intro descends
    induction descends with
    | intro a _ ih =>
      cases found : targets a with
      | none => exact ⟨1, false, by rw [walk, found]⟩
      | some next =>
        obtain ⟨depth, answer, all⟩ := @walkAll_ends α targets next (by
          rintro before b rest rfl came
          exact ih b ⟨before, rest, found, fun c mem => (through c).mp (came c mem)⟩)
        exact ⟨depth + 1, answer, by rw [walk, found]; exact all⟩

theorem walk_ne_false (readable : ∀ a, targets a ≠ none) (depth : Nat) (a : α) : walk targets depth a ≠ some false := by
  induction depth generalizing a with
  | zero => exact nofun
  | succ depth ih =>
    rw [walk]
    split
    next found => exact absurd found (readable a)
    next =>
      intro gave
      obtain ⟨b, -, found⟩ := walkAll_eq_false gave
      exact ih b found

theorem no_call_cycle_iff_clean {field : Set α} (finite : field.Finite) (sources : ∀ a b, Edge targets a b → a ∈ field)
    (readable : ∀ a, targets a ≠ none) :
    (∀ b, Relation.ReflTransGen (Calls targets) a b → ¬Relation.TransGen (Calls targets) b b) ↔ Clean targets a := by
  rw [← walk_ends_iff finite sources, ← walk_through_iff finite sources]
  constructor
  · rintro ⟨depth, through, ended⟩
    cases through with
    | false => exact absurd ended (walk_ne_false readable depth a)
    | true => exact ⟨depth, ended⟩
  · rintro ⟨depth, ended⟩
    exact ⟨depth, true, ended⟩

end Termination

end LogicConduit.Walks
