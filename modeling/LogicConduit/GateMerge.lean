import LogicConduit.StableSort
import LogicConduit.TransformNodes

namespace LogicConduit

def NoLater (a b : Nat × Sample) : Prop :=
  a.2.startTimeNs < b.2.startTimeNs ∨ a.2.startTimeNs = b.2.startTimeNs ∧ a.1 ≤ b.1

theorem NoLater.time_le {a b : Nat × Sample} (h : NoLater a b) : a.2.startTimeNs ≤ b.2.startTimeNs := by
  rcases h with hlt | ⟨heq, -⟩
  · exact UInt64.le_of_lt hlt
  · exact UInt64.le_of_eq heq

theorem NoLater.trans_time {a b c : Nat × Sample} (h : NoLater a b) (hi : b.1 = c.1)
    (ht : b.2.startTimeNs ≤ c.2.startTimeNs) : NoLater a c := by
  rcases UInt64.lt_or_eq_of_le (UInt64.le_trans h.time_le ht) with hlt | heq
  · exact Or.inl hlt
  · rcases h with hlt | ⟨-, hidx⟩
    · exact Or.inl (UInt64.lt_of_lt_of_le hlt ht)
    · exact Or.inr ⟨heq, hi ▸ hidx⟩

theorem earliest_none {α : Type} {time : α → UInt64} {l : List (Nat × α)} (h : earliest time l = none) : l = [] := by
  cases l with
  | nil => rfl
  | cons item items =>
    rw [earliest] at h
    split at h
    · cases h
    · split at h
      · cases h
      · cases h

theorem earliest_some {l : List (Nat × Sample)} {best : Nat × Sample} (sorted : l.Pairwise (·.1 < ·.1))
    (h : earliest Sample.startTimeNs l = some best) : best ∈ l ∧ ∀ other ∈ l, NoLater best other := by
  induction l generalizing best with
  | nil => cases h
  | cons item items ih =>
    obtain ⟨hfirst, hrest⟩ := List.pairwise_cons.mp sorted
    rw [earliest] at h
    cases hl : earliest Sample.startTimeNs items with
    | none =>
      rw [hl] at h
      cases h
      rw [earliest_none hl]
      exact ⟨List.mem_cons_self, fun other ho => List.mem_singleton.mp ho ▸ Or.inr ⟨rfl, Nat.le_refl _⟩⟩
    | some found =>
      obtain ⟨hmem, hall⟩ := ih hrest hl
      rw [hl] at h
      dsimp only at h
      split at h
      · next hlt =>
        cases h
        refine ⟨List.mem_cons_of_mem _ hmem, fun other ho => ?_⟩
        rcases List.mem_cons.mp ho with rfl | ho
        · exact Or.inl hlt
        · exact hall other ho
      · next hge =>
        cases h
        have hle : item.2.startTimeNs ≤ found.2.startTimeNs := UInt64.not_lt.mp hge
        have hitem : NoLater item found := by
          rcases UInt64.lt_or_eq_of_le hle with hlt | heq
          · exact Or.inl hlt
          · exact Or.inr ⟨heq, (hfirst found hmem).le⟩
        refine ⟨List.mem_cons_self, fun other ho => ?_⟩
        rcases List.mem_cons.mp ho with rfl | ho
        · exact Or.inr ⟨rfl, Nat.le_refl _⟩
        · rcases UInt64.lt_or_eq_of_le (UInt64.le_trans hle (hall other ho).time_le) with hlt | heq
          · exact Or.inl hlt
          · exact Or.inr ⟨heq, (hfirst other ho).le⟩

section Heads

variable {α : Type} {heads : List (Option α)}

theorem pendingHeads_sorted (heads : List (Option α)) : (pendingHeads heads).Pairwise (·.1 < ·.1) := by
  have hidx : heads.zipIdx.Pairwise fun a b => a.2 < b.2 := by
    rw [← List.pairwise_map (f := Prod.snd) (R := (· < ·)), List.zipIdx_map_snd]
    exact List.pairwise_lt_range'
  refine hidx.filterMap _ fun a b hab x hx y hy => ?_
  obtain ⟨_, -, rfl⟩ := Option.map_eq_some_iff.mp hx
  obtain ⟨_, -, rfl⟩ := Option.map_eq_some_iff.mp hy
  exact hab

theorem mem_pendingHeads {i : Nat} {item : α} : (i, item) ∈ pendingHeads heads ↔ heads[i]? = some (some item) := by
  simp only [pendingHeads, List.mem_filterMap, Option.map_eq_some_iff, Prod.mk.injEq, Prod.exists]
  constructor
  · rintro ⟨head, j, hmem, x, rfl, rfl, rfl⟩
    exact (List.mk_mem_zipIdx_iff_getElem?).mp hmem
  · intro h
    exact ⟨some item, i, List.mk_mem_zipIdx_iff_getElem?.mpr h, item, rfl, rfl, rfl⟩

end Heads

/-- The edges in the order in which they are applied, up to a number of them. -/
def mergeHeads : Nat → List (List Sample) → List (Nat × Sample)
  | 0, _ => []
  | count + 1, pending =>
    match earliest Sample.startTimeNs (pendingHeads (pending.map List.head?)) with
    | none => []
    | some edge => edge :: mergeHeads count (pending.modify edge.1 List.tail)

def TimeOrdered (pending : List (List Sample)) : Prop :=
  ∀ l ∈ pending, l.Pairwise fun a b => a.startTimeNs ≤ b.startTimeNs

section Merge

variable {pending : List (List Sample)} {edge : Nat × Sample} {count : Nat} {l : List Sample}

theorem earliest_heads (h : earliest Sample.startTimeNs (pendingHeads (pending.map List.head?)) = some edge) :
    ∃ rest, pending[edge.1]? = some (edge.2 :: rest) ∧
      ∀ (i : Nat) (first : Sample) (later : List Sample), pending[i]? = some (first :: later) → NoLater edge (i, first) := by
  obtain ⟨hmem, hall⟩ := earliest_some (pendingHeads_sorted _) h
  rw [mem_pendingHeads, List.getElem?_map, Option.map_eq_some_iff] at hmem
  obtain ⟨l, hl, hhead⟩ := hmem
  obtain ⟨rest, rfl⟩ := List.head?_eq_some_iff.mp hhead
  refine ⟨rest, hl, fun i first later hi => hall (i, first) ?_⟩
  rw [mem_pendingHeads, List.getElem?_map, hi]
  rfl

theorem earliest_heads_none (h : earliest Sample.startTimeNs (pendingHeads (pending.map List.head?)) = none)
    (hl : l ∈ pending) : l = [] := by
  obtain ⟨i, hi⟩ := List.mem_iff_getElem?.mp hl
  cases l with
  | nil => rfl
  | cons first rest =>
    have hmem : (i, first) ∈ pendingHeads (pending.map List.head?) := by
      rw [mem_pendingHeads, List.getElem?_map, hi]
      rfl
    rw [earliest_none h] at hmem
    cases hmem

theorem TimeOrdered.tail (h : TimeOrdered pending) (i : Nat) : TimeOrdered (pending.modify i List.tail) := by
  intro l hl
  obtain ⟨j, hj⟩ := List.mem_iff_getElem?.mp hl
  rw [List.getElem?_modify] at hj
  obtain ⟨old, hold, heq⟩ := Option.map_eq_some_iff.mp hj
  have hold' := h old (List.mem_of_getElem? hold)
  by_cases hij : i = j
  · rw [if_pos hij] at heq
    exact heq ▸ hold'.sublist (List.tail_sublist old)
  · rw [if_neg hij] at heq
    exact heq ▸ hold'

theorem sum_length_tail {i : Nat} {first : Sample} {rest : List Sample} (h : pending[i]? = some (first :: rest)) :
    ((pending.modify i List.tail).map List.length).sum + 1 = (pending.map List.length).sum := by
  induction pending generalizing i with
  | nil => simp at h
  | cons l pending ih =>
    cases i with
    | zero =>
      cases (List.getElem?_cons_zero ▸ h : some l = some (first :: rest))
      simp [List.modify_zero_cons]
      omega
    | succ i =>
      have := ih (List.getElem?_cons_succ ▸ h)
      simp only [List.modify_succ_cons, List.map_cons, List.sum_cons]
      omega

theorem earliest_noLater (ho : TimeOrdered pending)
    (h : earliest Sample.startTimeNs (pendingHeads (pending.map List.head?)) = some edge) {i : Nat}
    {sample : Sample} (hl : (pending.modify edge.1 List.tail)[i]? = some l) (hs : sample ∈ l) :
    NoLater edge (i, sample) := by
  obtain ⟨rest, -, hfirst⟩ := earliest_heads h
  rw [List.getElem?_modify] at hl
  obtain ⟨old, hold, hcut⟩ := Option.map_eq_some_iff.mp hl
  have hin : sample ∈ old := by
    rw [← hcut] at hs
    split at hs
    · exact List.mem_of_mem_tail hs
    · exact hs
  cases old with
  | nil => cases hin
  | cons first later =>
    have hle : first.startTimeNs ≤ sample.startTimeNs := by
      rcases List.mem_cons.mp hin with heq | hlater
      · exact UInt64.le_of_eq (congrArg _ heq.symm)
      · exact List.rel_of_pairwise_cons (ho _ (List.mem_of_getElem? hold)) hlater
    exact (hfirst i first later hold).trans_time rfl hle

section

variable (hc : (pending.map List.length).sum ≤ count)
include hc

theorem mergeHeads_input (i : Nat) :
    ((mergeHeads count pending).filter fun edge => edge.1 = i).map Prod.snd = pending[i]?.getD [] := by
  induction count generalizing pending with
  | zero =>
    rw [mergeHeads]
    cases hp : pending[i]? with
    | none => rfl
    | some l =>
      have hzero := List.sum_eq_zero_iff_forall_eq_nat.mp (Nat.le_zero.mp hc)
      exact (List.eq_nil_of_length_eq_zero (hzero _ (List.mem_map_of_mem (List.mem_of_getElem? hp)))).symm
  | succ count ih =>
    rw [mergeHeads]
    cases he : earliest Sample.startTimeNs (pendingHeads (pending.map List.head?)) with
    | none =>
      cases hp : pending[i]? with
      | none => rfl
      | some l => exact (earliest_heads_none he (List.mem_of_getElem? hp)).symm
    | some edge =>
      obtain ⟨rest, hrest, -⟩ := earliest_heads he
      have hsum := sum_length_tail hrest
      have hih := @ih (pending.modify edge.1 List.tail) (by omega)
      rw [List.getElem?_modify] at hih
      dsimp only
      by_cases hi : edge.1 = i
      · rw [List.filter_cons_of_pos (by simpa using hi), List.map_cons, hih, ← hi, hrest]
        simp
      · rw [List.filter_cons_of_neg (by simpa using hi), hih]
        simp [hi]

theorem mergeHeads_enough {count' : Nat}
    (hc' : (pending.map List.length).sum ≤ count') : mergeHeads count pending = mergeHeads count' pending := by
  induction count generalizing pending count' with
  | zero =>
    cases count' with
    | zero => rfl
    | succ count' =>
      rw [mergeHeads, mergeHeads]
      cases he : earliest Sample.startTimeNs (pendingHeads (pending.map List.head?)) with
      | none => rfl
      | some edge =>
        obtain ⟨rest, hrest, -⟩ := earliest_heads he
        have hsum := sum_length_tail hrest
        omega
  | succ count ih =>
    rw [mergeHeads]
    cases he : earliest Sample.startTimeNs (pendingHeads (pending.map List.head?)) with
    | none =>
      cases count' with
      | zero => rfl
      | succ count' =>
        rw [mergeHeads, he]
    | some edge =>
      obtain ⟨rest, hrest, -⟩ := earliest_heads he
      have hsum := sum_length_tail hrest
      obtain ⟨fewer, rfl⟩ : ∃ fewer, count' = fewer + 1 := ⟨count' - 1, by omega⟩
      rw [mergeHeads, he]
      exact congrArg (edge :: ·) (ih (by omega) (by omega))

theorem mem_mergeHeads (h : edge ∈ mergeHeads count pending) :
    ∃ l, pending[edge.1]? = some l ∧ edge.2 ∈ l := by
  have hmem : edge.2 ∈ ((mergeHeads count pending).filter fun e => e.1 = edge.1).map Prod.snd :=
    List.mem_map_of_mem (List.mem_filter.mpr ⟨h, by simp⟩)
  rw [mergeHeads_input hc] at hmem
  cases hp : pending[edge.1]? with
  | none =>
    rw [hp] at hmem
    cases hmem
  | some l =>
    rw [hp] at hmem
    exact ⟨l, rfl, hmem⟩

end

theorem mergeHeads_sorted (ho : TimeOrdered pending) (hc : (pending.map List.length).sum ≤ count) :
    (mergeHeads count pending).Pairwise NoLater := by
  induction count generalizing pending with
  | zero => exact List.Pairwise.nil
  | succ count ih =>
    rw [mergeHeads]
    cases he : earliest Sample.startTimeNs (pendingHeads (pending.map List.head?)) with
    | none => exact List.Pairwise.nil
    | some edge =>
      obtain ⟨rest, hrest, -⟩ := earliest_heads he
      have hsum := sum_length_tail hrest
      refine List.pairwise_cons.mpr ⟨fun other hother => ?_, ih (ho.tail edge.1) (by omega)⟩
      obtain ⟨l, hl, hmem⟩ := mem_mergeHeads (by omega) hother
      exact earliest_noLater ho he hl hmem

end Merge

end LogicConduit
