import Mathlib.Data.List.Sort
import Mathlib.Data.List.Perm.Subperm

namespace LogicConduit

variable {α γ : Type*} [LinearOrder γ] {key : α → γ} {n : Nat} {xs kept : List α} {x least : α}

/-- The `n` elements of a list with the largest keys, in any order. -/
structure LargestKept (key : α → γ) (n : Nat) (xs kept : List α) : Prop where
  nodup : kept.Nodup
  subset : kept ⊆ xs
  length : kept.length = min n xs.length
  larger : ∀ a ∈ kept, ∀ b ∈ xs, b ∉ kept → key b < key a

namespace LargestKept

theorem nil (key : α → γ) (n : Nat) : LargestKept key n [] [] :=
  ⟨List.nodup_nil, List.Subset.refl [], (Nat.min_zero n).symm, fun _ h => (List.not_mem_nil h).elim⟩

theorem all (key : α → γ) (hnodup : xs.Nodup) (hroom : xs.length ≤ n) : LargestKept key n xs xs :=
  ⟨hnodup, List.Subset.refl xs, (Nat.min_eq_right hroom).symm, fun _ _ _ hb hout => absurd hb hout⟩

section

variable (h : LargestKept key n xs kept)
include h

theorem of_perm {other : List α} (hperm : other.Perm kept) :
    LargestKept key n xs other where
  nodup := hperm.nodup_iff.mpr h.nodup
  subset := fun _ ha => h.subset (hperm.subset ha)
  length := hperm.length_eq.trans h.length
  larger := fun a ha b hb hout => h.larger a (hperm.subset ha) b hb fun hkept => hout (hperm.symm.subset hkept)

theorem covers (hroom : xs.length ≤ n) : xs ⊆ kept := by
  have hsub := List.subperm_of_subset h.nodup h.subset
  have hlength : xs.length ≤ kept.length := by
    rw [h.length]
    omega
  exact (hsub.perm_of_length_le hlength).symm.subset

theorem perm {other : List α} (hother : LargestKept key n xs other) : kept.Perm other := by
  have hlength : other.length = kept.length := hother.length.trans h.length.symm
  have hsub : kept ⊆ other := by
    intro a ha
    by_contra hout
    obtain ⟨b, hb, hnew⟩ : ∃ b ∈ other, b ∉ kept := by
      by_contra hall
      have hback : other ⊆ kept := by
        intro b hb
        by_contra hnew
        exact hall ⟨b, hb, hnew⟩
      have hperm := (List.subperm_of_subset hother.nodup hback).perm_of_length_le hlength.ge
      exact hout (hperm.symm.subset ha)
    exact lt_asymm (h.larger a ha b (hother.subset hb) hnew) (hother.larger b hb a (h.subset ha) hout)
  exact (List.subperm_of_subset h.nodup hsub).perm_of_length_le hlength.le

end

theorem of_sorted {sorted : List α} (hnodup : xs.Nodup) (hinj : ∀ a ∈ xs, ∀ b ∈ xs, key a = key b → a = b)
    (hperm : sorted.Perm xs) (hsorted : sorted.Pairwise fun a b => key b ≤ key a) :
    LargestKept key n xs (sorted.take n) where
  nodup := (hperm.nodup_iff.mpr hnodup).sublist (List.take_sublist n sorted)
  subset := fun _ ha => hperm.subset (List.mem_of_mem_take ha)
  length := by rw [List.length_take, hperm.length_eq]
  larger := by
    intro a ha b hb hout
    rw [← List.take_append_drop n sorted] at hsorted
    have hdropped : b ∈ sorted.drop n := by
      have hmem : b ∈ sorted.take n ++ sorted.drop n := by
        rw [List.take_append_drop]
        exact hperm.symm.subset hb
      exact (List.mem_append.mp hmem).resolve_left hout
    have hle := (List.pairwise_append.mp hsorted).2.2 a ha b hdropped
    refine lt_of_le_of_ne hle fun heq => hout ?_
    rw [hinj b hb a (hperm.subset (List.mem_of_mem_take ha)) heq]
    exact ha

section

variable (h : LargestKept key n xs kept)
include h

theorem push (hnew : x ∉ xs) (hroom : kept.length < n) : LargestKept key n (xs ++ [x]) (x :: kept) := by
  have hlength := h.length
  have hall := h.covers (by omega)
  refine ⟨List.nodup_cons.mpr ⟨fun hx => hnew (h.subset hx), h.nodup⟩, ?_, ?_, ?_⟩
  · intro a ha
    rw [List.mem_append, List.mem_singleton]
    rcases List.mem_cons.mp ha with rfl | ha
    · exact Or.inr rfl
    · exact Or.inl (h.subset ha)
  · rw [List.length_cons, List.length_append, List.length_singleton]
    omega
  · intro a _ b hb hout
    exfalso
    rcases List.mem_append.mp hb with hb | hb
    · exact hout (List.mem_cons_of_mem x (hall hb))
    · rw [List.mem_singleton.mp hb] at hout
      exact hout List.mem_cons_self

theorem replace [DecidableEq α] (hfull : kept.length = n) (hleast : least ∈ kept)
    (hmin : ∀ a ∈ kept, key least ≤ key a) (hinj : ∀ a ∈ xs ++ [x], ∀ b ∈ xs ++ [x], key a = key b → a = b)
    (hnew : x ∉ xs) (hlt : key least < key x) : LargestKept key n (xs ++ [x]) (x :: kept.erase least) := by
  have hlength := h.length
  have hpos : 0 < kept.length := List.length_pos_of_mem hleast
  refine ⟨List.nodup_cons.mpr ⟨fun hx => hnew (h.subset (List.mem_of_mem_erase hx)), h.nodup.erase least⟩, ?_, ?_, ?_⟩
  · intro a ha
    rw [List.mem_append, List.mem_singleton]
    rcases List.mem_cons.mp ha with rfl | ha
    · exact Or.inr rfl
    · exact Or.inl (h.subset (List.mem_of_mem_erase ha))
  · rw [List.length_cons, List.length_erase_of_mem hleast, List.length_append, List.length_singleton]
    omega
  · intro a ha b hb hout
    have hbx : b ∈ xs := by
      refine (List.mem_append.mp hb).resolve_right fun hb => hout ?_
      rw [List.mem_singleton.mp hb]
      exact List.mem_cons_self
    have hbelow : key b ≤ key least := by
      by_cases hbk : b ∈ kept
      · have hsame : b = least := by
          by_contra hne
          exact hout (List.mem_cons_of_mem x ((List.mem_erase_of_ne hne).mpr hbk))
        rw [hsame]
      · exact (h.larger least hleast b hbx hbk).le
    rcases List.mem_cons.mp ha with rfl | ha
    · exact lt_of_le_of_lt hbelow hlt
    · have hak := List.mem_of_mem_erase ha
      refine lt_of_le_of_ne (hbelow.trans (hmin a hak)) fun heq => ?_
      have hsame := hinj b hb a (List.mem_append_left [x] (h.subset hak)) heq
      exact hout (List.mem_cons_of_mem x (hsame ▸ ha))

theorem skip (hfull : kept.length = n)
    (hinj : ∀ a ∈ xs ++ [x], ∀ b ∈ xs ++ [x], key a = key b → a = b) (hle : ∀ a ∈ kept, key x ≤ key a) :
    LargestKept key n (xs ++ [x]) kept := by
  have hlength := h.length
  refine ⟨h.nodup, List.subset_append_of_subset_left [x] h.subset, ?_, ?_⟩
  · rw [List.length_append, List.length_singleton]
    omega
  · intro a ha b hb hout
    rcases List.mem_append.mp hb with hbx | hbx
    · exact h.larger a ha b hbx hout
    · refine lt_of_le_of_ne ?_ fun heq => ?_
      · rw [List.mem_singleton.mp hbx]
        exact hle a ha
      · exact hout (hinj b hb a (List.mem_append_left [x] (h.subset ha)) heq ▸ ha)

end

end LargestKept

end LogicConduit
