import Mathlib.Data.List.TakeWhile
import Mathlib.Data.List.Basic

namespace PartitionPoint

variable {α : Type}

/-- The number of leading elements that satisfy the test. -/
def partitionPoint (test : α → Bool) (xs : List α) : Nat := (xs.takeWhile test).length

/-- No element that satisfies the test stands behind one that fails it. -/
def Partitioned (test : α → Bool) (xs : List α) : Prop := xs.Pairwise fun a b => test b → test a

variable {test : α → Bool} {xs : List α} {i : Nat} {x : α}

theorem partitionPoint_le_length (test : α → Bool) (xs : List α) : partitionPoint test xs ≤ xs.length :=
  (List.takeWhile_prefix test).length_le

theorem test_of_lt (h : xs[i]? = some x) (hi : i < partitionPoint test xs) : test x = true := by
  obtain ⟨hlt, rfl⟩ := List.getElem?_eq_some_iff.mp h
  have hmem : (xs.takeWhile test)[i] ∈ xs.takeWhile test := List.getElem_mem hi
  have hsame : (xs.takeWhile test)[i] = xs[i] := (List.takeWhile_prefix test).getElem hi
  exact hsame ▸ List.mem_takeWhile_imp hmem

theorem fails_at (h : xs[partitionPoint test xs]? = some x) : test x = false := by
  induction xs with
  | nil => simp at h
  | cons y ys ih =>
    by_cases hy : test y = true
    · rw [partitionPoint, List.takeWhile_cons_of_pos hy, List.length_cons, List.getElem?_cons_succ] at h
      exact ih h
    · rw [partitionPoint, List.takeWhile_cons_of_neg hy, List.length_nil, List.getElem?_cons_zero] at h
      rw [← Option.some.inj h]
      exact Bool.not_eq_true _ ▸ hy

/-- The point found from both sides: everything before it satisfies the test and the element at it,
if there is one, does not. -/
theorem partitionPoint_eq {p : Nat} (hp : p ≤ xs.length)
    (hbefore : ∀ i x, i < p → xs[i]? = some x → test x = true)
    (hat : ∀ x, xs[p]? = some x → test x = false) : partitionPoint test xs = p := by
  have hle := partitionPoint_le_length test xs
  rcases Nat.lt_trichotomy (partitionPoint test xs) p with hlt | heq | hgt
  · have hx := List.getElem?_eq_getElem (show partitionPoint test xs < xs.length by omega)
    have htrue := hbefore _ _ hlt hx
    rw [fails_at hx] at htrue
    exact Bool.noConfusion htrue
  · exact heq
  · have hx := List.getElem?_eq_getElem (show p < xs.length by omega)
    have htrue := test_of_lt hx hgt
    rw [hat _ hx] at htrue
    exact Bool.noConfusion htrue

theorem partitionPoint_slice {a b : Nat} (ha : a ≤ partitionPoint test xs) (hb : partitionPoint test xs ≤ b) (hlen : b ≤ xs.length) :
    a + partitionPoint test ((xs.take b).drop a) = partitionPoint test xs := by
  have hslice : ∀ i x, ((xs.take b).drop a)[i]? = some x → xs[a + i]? = some x := by
    intro i x hx
    rw [List.getElem?_drop, List.getElem?_take] at hx
    split at hx
    · exact hx
    · cases hx
  have hpoint : partitionPoint test ((xs.take b).drop a) = partitionPoint test xs - a := by
    refine partitionPoint_eq ?_ (fun i x hi hx => test_of_lt (hslice i x hx) (by omega)) fun x hx => ?_
    · rw [List.length_drop, List.length_take]
      omega
    · have hat := hslice _ x hx
      rw [show a + (partitionPoint test xs - a) = partitionPoint test xs by omega] at hat
      exact fails_at hat
  omega

namespace Partitioned

section

variable (h : Partitioned test xs)
include h

theorem test_iff (hx : xs[i]? = some x) : test x = true ↔ i < partitionPoint test xs := by
  refine ⟨fun htrue => ?_, test_of_lt hx⟩
  by_contra hge
  obtain ⟨hlt, rfl⟩ := List.getElem?_eq_some_iff.mp hx
  have hp : partitionPoint test xs < xs.length := by omega
  have hfail : test xs[partitionPoint test xs] = false := fails_at (List.getElem?_eq_getElem hp)
  rcases Nat.lt_or_eq_of_le (Nat.le_of_not_lt hge) with hbefore | hsame
  · have := List.pairwise_iff_getElem.mp h _ _ hp hlt hbefore htrue
    rw [this] at hfail
    exact Bool.noConfusion hfail
  · subst hsame
    rw [htrue] at hfail
    exact Bool.noConfusion hfail

theorem sublist {ys : List α} (hs : ys.Sublist xs) : Partitioned test ys :=
  List.Pairwise.sublist hs h

theorem filter_eq : xs.filter test = xs.take (partitionPoint test xs) := by
  induction xs with
  | nil => rfl
  | cons y ys ih =>
    obtain ⟨hhead, htail⟩ := List.pairwise_cons.mp h
    by_cases hy : test y = true
    · rw [List.filter_cons_of_pos hy, ih htail, partitionPoint, partitionPoint, List.takeWhile_cons_of_pos hy,
        List.length_cons, List.take_succ_cons]
    · rw [List.filter_cons_of_neg hy, partitionPoint, List.takeWhile_cons_of_neg hy, List.length_nil, List.take_zero,
        List.filter_eq_nil_iff]
      exact fun z hz htrue => hy (hhead z hz htrue)

theorem filter_not_eq : xs.filter (!test ·) = xs.drop (partitionPoint test xs) := by
  induction xs with
  | nil => rfl
  | cons y ys ih =>
    obtain ⟨hhead, htail⟩ := List.pairwise_cons.mp h
    by_cases hy : test y = true
    · rw [List.filter_cons_of_neg (by simpa using hy), ih htail, partitionPoint, partitionPoint,
        List.takeWhile_cons_of_pos hy, List.length_cons, List.drop_succ_cons]
    · rw [partitionPoint, List.takeWhile_cons_of_neg hy, List.length_nil, List.drop_zero, List.filter_eq_self]
      intro z hz
      rcases List.mem_cons.mp hz with rfl | hz
      · simpa using hy
      · simpa using fun htrue => hy (hhead z hz htrue)

theorem countP_eq : xs.countP test = partitionPoint test xs := by
  rw [List.countP_eq_length_filter, h.filter_eq, List.length_take, min_eq_left (partitionPoint_le_length test xs)]

end

end Partitioned

theorem partitioned_lt {key : α → Nat} (h : xs.Pairwise fun a b => key a ≤ key b) (bound : Nat) :
    Partitioned (fun x => decide (key x < bound)) xs :=
  h.imp fun hle hb => by
    rw [decide_eq_true_eq] at hb ⊢
    omega

theorem partitioned_le {key : α → Nat} (h : xs.Pairwise fun a b => key a ≤ key b) (bound : Nat) :
    Partitioned (fun x => decide (key x ≤ bound)) xs :=
  h.imp fun hle hb => by
    rw [decide_eq_true_eq] at hb ⊢
    omega

end PartitionPoint
