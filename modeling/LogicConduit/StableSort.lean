import Mathlib.Data.List.Sort

namespace LogicConduit

variable {α β γ δ : Type*} [LinearOrder γ]

def sortBy (key : α → γ) (l : List α) : List α :=
  l.insertionSort fun a b => key a ≤ key b

theorem sortBy_perm (key : α → γ) (l : List α) : (sortBy key l).Perm l :=
  List.perm_insertionSort _ l

theorem sortBy_sorted (key : α → γ) (l : List α) :
    (sortBy key l).Pairwise fun a b => key a ≤ key b := by
  have total : Std.Total fun a b : α => key a ≤ key b := ⟨fun a b => le_total (key a) (key b)⟩
  have trans : IsTrans α fun a b => key a ≤ key b := ⟨fun _ _ _ => le_trans⟩
  exact List.pairwise_insertionSort _ l

theorem filter_insertionSort {r : α → α → Prop} [DecidableRel r] {p : α → Bool} {l : List α}
    (h : (l.filter p).Pairwise r) : (l.insertionSort r).filter p = l.filter p := by
  have hsub : ((l.filter p).filter p).Sublist ((l.insertionSort r).filter p) :=
    (List.sublist_insertionSort h List.filter_sublist).filter p
  have hlength := ((List.perm_insertionSort r l).filter p).length_eq
  rw [List.filter_filter] at hsub
  simp only [Bool.and_self] at hsub
  exact (hsub.eq_of_length hlength.symm).symm

/-- Sorting is stable: the elements of each key stay as they stand. -/
theorem filter_sortBy (key : α → γ) (x : γ) (l : List α) :
    (sortBy key l).filter (fun a => key a = x) = l.filter fun a => key a = x := by
  refine filter_insertionSort (List.pairwise_filter.mpr (List.pairwise_of_forall fun a b ha hb => ?_))
  exact ((of_decide_eq_true ha).trans (of_decide_eq_true hb).symm).le

/-- A list of pairs in the order of their first parts is given by its parts for each key. -/
theorem sorted_eq_of_filter {l m : List (γ × δ)} (sl : l.Pairwise fun a b => a.1 ≤ b.1)
    (sm : m.Pairwise fun a b => a.1 ≤ b.1)
    (same : ∀ x, l.filter (fun a => a.1 = x) = m.filter fun a => a.1 = x) : l = m := by
  induction l generalizing m with
  | nil =>
    cases m with
    | nil => rfl
    | cons b m => simpa using same b.1
  | cons a l ih =>
    cases m with
    | nil => simpa using same a.1
    | cons b m =>
      have le : b.1 ≤ a.1 := by
        have inside : a ∈ (b :: m).filter fun c => c.1 = a.1 := by
          rw [← same a.1]
          simp
        rcases List.mem_cons.mp (List.mem_filter.mp inside).1 with rfl | later
        · exact le_rfl
        · exact List.rel_of_pairwise_cons sm later
      have ge : a.1 ≤ b.1 := by
        have inside : b ∈ (a :: l).filter fun c => c.1 = b.1 := by
          rw [same b.1]
          simp
        rcases List.mem_cons.mp (List.mem_filter.mp inside).1 with rfl | later
        · exact le_rfl
        · exact List.rel_of_pairwise_cons sl later
      have keys : a.1 = b.1 := le_antisymm ge le
      have heads := same a.1
      rw [List.filter_cons_of_pos (by simp), List.filter_cons_of_pos (by simp [keys])] at heads
      have equal : a = b := (List.cons.inj heads).1
      subst equal
      congr 1
      refine ih sl.of_cons sm.of_cons fun x => ?_
      have part := same x
      by_cases here : a.1 = x
      · rw [List.filter_cons_of_pos (by simpa using here),
          List.filter_cons_of_pos (by simpa using here)] at part
        exact (List.cons.inj part).2
      · rwa [List.filter_cons_of_neg (by simpa using here),
          List.filter_cons_of_neg (by simpa using here)] at part

theorem filter_map_sortBy (key : α → γ) (value : α → δ) (x : γ) (l : List α) :
    ((sortBy key l).map fun a => (key a, value a)).filter (fun a => a.1 = x) =
      ((l.filter fun a => key a = x).map value).map fun d => (x, d) := by
  rw [List.filter_map, ← filter_sortBy, List.map_map]
  refine List.map_congr_left fun a inside => ?_
  have here : key a = x := by simpa using (List.mem_filter.mp inside).2
  simp [here]

theorem map_sortBy_congr {key : α → γ} {key' : β → γ} {value : α → δ} {value' : β → δ}
    {l : List α} {m : List β}
    (same : ∀ x, (l.filter fun a => key a = x).map value = (m.filter fun b => key' b = x).map value') :
    (sortBy key l).map (fun a => (key a, value a)) =
      (sortBy key' m).map fun b => (key' b, value' b) := by
  refine sorted_eq_of_filter ?_ ?_ fun x => ?_
  · exact List.pairwise_map.mpr (sortBy_sorted key l)
  · exact List.pairwise_map.mpr (sortBy_sorted key' m)
  · rw [filter_map_sortBy, filter_map_sortBy, same x]

end LogicConduit
