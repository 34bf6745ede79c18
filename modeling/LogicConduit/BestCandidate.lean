import Mathlib.Data.Prod.Lex

namespace BestCandidate

variable {α β : Type} [LinearOrder β]

def keepBest (admits : α → Bool) (key : α → β) (best : Option α) (x : α) : Option α :=
  if admits x && best.all (fun b => decide (key x < key b)) then some x else best

def best (admits : α → Bool) (key : α → β) (xs : List α) : Option α := xs.foldl (keepBest admits key) none

def IsBest (admits : α → Bool) (key : α → β) (xs : List α) : Option α → Prop
  | none => ∀ x ∈ xs, admits x = false
  | some b => b ∈ xs ∧ admits b = true ∧ ∀ x ∈ xs, admits x = true → key b ≤ key x

variable {admits : α → Bool} {key : α → β} {x : α} {a b : Option α}

theorem IsBest.keep {xs : List α} {result : Option α} (h : IsBest admits key xs result) (x : α) :
    IsBest admits key (xs ++ [x]) (keepBest admits key result x) := by
  unfold keepBest
  split
  next hbetter =>
    obtain ⟨hadmits, hless⟩ := (Bool.and_eq_true _ _).mp hbetter
    refine ⟨List.mem_append_right _ List.mem_cons_self, hadmits, fun y hy hyadmits => ?_⟩
    rcases List.mem_append.mp hy with hy | hy
    · cases result with
      | none => rw [h y hy] at hyadmits; cases hyadmits
      | some b => exact (of_decide_eq_true hless).le.trans (h.2.2 y hy hyadmits)
    · rw [List.mem_singleton.mp hy]
  next hnot =>
    cases result with
    | none =>
      intro y hy
      rcases List.mem_append.mp hy with hy | hy
      · exact h y hy
      · rw [List.mem_singleton.mp hy]
        simpa using hnot
    | some b =>
      refine ⟨List.mem_append_left _ h.1, h.2.1, fun y hy hyadmits => ?_⟩
      rcases List.mem_append.mp hy with hy | hy
      · exact h.2.2 y hy hyadmits
      · rw [List.mem_singleton.mp hy] at hyadmits ⊢
        rw [hyadmits, Bool.true_and] at hnot
        exact not_lt.mp fun hlt => hnot (decide_eq_true hlt)

theorem IsBest.foldl {xs : List α} {result : Option α} (h : IsBest admits key xs result) (ys : List α) :
    IsBest admits key (xs ++ ys) (ys.foldl (keepBest admits key) result) := by
  induction ys generalizing xs result with
  | nil => simpa using h
  | cons y rest ih =>
    rw [List.append_cons]
    exact ih (h.keep y)

theorem best_isBest (xs : List α) : IsBest admits key xs (best admits key xs) :=
  @IsBest.foldl _ _ _ admits key [] none (fun _ hm => absurd hm List.not_mem_nil) xs

theorem IsBest.unique (hkey : Function.Injective key) {xs : List α} (ha : IsBest admits key xs a)
    (hb : IsBest admits key xs b) : a = b := by
  cases a with
  | none =>
    cases b with
    | none => rfl
    | some y =>
      have hnone := ha y hb.1
      rw [hb.2.1] at hnone
      cases hnone
  | some x =>
    cases b with
    | none =>
      have hnone := hb x ha.1
      rw [ha.2.1] at hnone
      cases hnone
    | some y => exact congrArg some (hkey (le_antisymm (ha.2.2 y hb.1 hb.2.1) (hb.2.2 x ha.1 ha.2.1)))

theorem isBest_iff (hkey : Function.Injective key) {xs : List α} {result : Option α} :
    IsBest admits key xs result ↔ best admits key xs = result :=
  ⟨fun h => (best_isBest xs).unique hkey h, fun h => h ▸ best_isBest xs⟩

/-- A candidate that another list has nothing better for. -/
def Matched (admits : α → Bool) (key : α → β) (ys : List α) (x : α) : Prop :=
  admits x = true → ∃ y ∈ ys, admits y = true ∧ key y ≤ key x

theorem Matched.of_mem {ys : List α} (h : x ∈ ys) : Matched admits key ys x := fun hx => ⟨x, h, hx, le_rfl⟩

theorem best_congr (hkey : Function.Injective key) {xs ys : List α} (hxs : ∀ x ∈ xs, Matched admits key ys x)
    (hys : ∀ y ∈ ys, Matched admits key xs y) : best admits key xs = best admits key ys := by
  have hx := @best_isBest _ _ _ admits key xs
  have hy := @best_isBest _ _ _ admits key ys
  cases hbx : best admits key xs with
  | none =>
    cases hby : best admits key ys with
    | none => rfl
    | some b =>
      rw [hbx] at hx
      rw [hby] at hy
      obtain ⟨x, hmem, hadmits, -⟩ := hys b hy.1 hy.2.1
      rw [hx x hmem] at hadmits
      cases hadmits
  | some a =>
    rw [hbx] at hx
    obtain ⟨y, hmem, hadmits, hle⟩ := hxs a hx.1 hx.2.1
    cases hby : best admits key ys with
    | none =>
      rw [hby] at hy
      rw [hy y hmem] at hadmits
      cases hadmits
    | some b =>
      rw [hby] at hy
      obtain ⟨x, hxmem, hxadmits, hxle⟩ := hys b hy.1 hy.2.1
      have hab := hx.2.2 x hxmem hxadmits
      have hba := hy.2.2 y hmem hadmits
      exact congrArg some (hkey (le_antisymm (hab.trans hxle) (hba.trans hle)))

theorem best_append (xs ys : List α) : best admits key (xs ++ ys) = ys.foldl (keepBest admits key) (best admits key xs) :=
  List.foldl_append

/-- A candidate changes the best one of a list when it is admitted and better than all of them. -/
def Improves (admits : α → Bool) (key : α → β) (xs : List α) (x : α) : Prop :=
  admits x = true ∧ ∀ y ∈ xs, admits y = true → key x < key y

theorem keepBest_of_improves {xs : List α} (h : Improves admits key xs x) :
    keepBest admits key (best admits key xs) x = some x := by
  have hbest := @best_isBest _ _ _ admits key xs
  unfold keepBest
  cases hb : best admits key xs with
  | none => simp [h.1]
  | some b =>
    rw [hb] at hbest
    simp [h.1, h.2 b hbest.1 hbest.2.1]

theorem keepBest_of_not_improves {xs : List α} (h : ¬Improves admits key xs x) :
    keepBest admits key (best admits key xs) x = best admits key xs := by
  have hbest := @best_isBest _ _ _ admits key xs
  unfold keepBest
  refine if_neg fun hbetter => h ?_
  obtain ⟨hadmits, hless⟩ := (Bool.and_eq_true _ _).mp hbetter
  refine ⟨hadmits, fun y hy hyadmits => ?_⟩
  cases hb : best admits key xs with
  | none =>
    rw [hb] at hbest
    rw [hbest y hy] at hyadmits
    cases hyadmits
  | some b =>
    rw [hb] at hbest hless
    exact (of_decide_eq_true hless).trans_le (hbest.2.2 y hy hyadmits)

/-- Two candidates leave the same best one exactly when they are the same or neither changes it. -/
theorem best_snoc_eq_iff {xs : List α} :
    best admits key (xs ++ a.toList) = best admits key (xs ++ b.toList) ↔
      a = b ∨ (∀ x ∈ a, ¬Improves admits key xs x) ∧ ∀ y ∈ b, ¬Improves admits key xs y := by
  have hstep (c : Option α) : best admits key (xs ++ c.toList) =
      (c.elim (best admits key xs) fun x => keepBest admits key (best admits key xs) x) := by
    cases c with
    | none => rw [Option.toList_none, List.append_nil, Option.elim_none]
    | some x => rw [best_append]; rfl
  have hkept {c : Option α} (h : ∀ x ∈ c, ¬Improves admits key xs x) :
      best admits key (xs ++ c.toList) = best admits key xs := by
    rw [hstep]
    cases c with
    | none => rfl
    | some x => exact keepBest_of_not_improves (h x rfl)
  have hchanged {c : Option α} {x : α} (hx : x ∈ c) (h : Improves admits key xs x) :
      best admits key (xs ++ c.toList) = c := by
    rw [hstep]
    cases c with
    | none => cases hx
    | some y =>
      obtain rfl := Option.some.inj hx
      exact keepBest_of_improves h
  have hsame {c : Option α} {x : α} (hx : x ∈ c) (h : Improves admits key xs x) : best admits key xs ≠ c := by
    intro heq
    have hbest := @best_isBest _ _ _ admits key xs
    rw [heq, hx] at hbest
    exact lt_irrefl _ (h.2 x hbest.1 hbest.2.1)
  constructor
  · intro heq
    by_cases ha : ∀ x ∈ a, ¬Improves admits key xs x
    · by_cases hb : ∀ y ∈ b, ¬Improves admits key xs y
      · exact Or.inr ⟨ha, hb⟩
      · push Not at hb
        obtain ⟨y, hy, himproves⟩ := hb
        rw [hkept ha, hchanged hy himproves] at heq
        exact absurd heq (hsame hy himproves)
    · push Not at ha
      obtain ⟨x, hx, himproves⟩ := ha
      by_cases hb : ∀ y ∈ b, ¬Improves admits key xs y
      · rw [hkept hb, hchanged hx himproves] at heq
        exact absurd heq.symm (hsame hx himproves)
      · push Not at hb
        obtain ⟨y, hy, hother⟩ := hb
        rw [hchanged hx himproves, hchanged hy hother] at heq
        exact Or.inl heq
  · rintro (rfl | ⟨ha, hb⟩)
    · rfl
    · rw [hkept ha, hkept hb]

end BestCandidate
