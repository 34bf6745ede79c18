import LogicConduit.ByteBits
import Mathlib.Data.List.Sort

namespace LogicConduit

abbrev BitWord := BitVec 64

def bit (word : BitWord) (index : Nat) : Bool := word.getLsbD index

def rangeMask (lo hi : Nat) : BitWord :=
  let upper := if hi = 64 then BitVec.allOnes 64 else (1#64 <<< hi) - 1
  upper &&& ~~~((1#64 <<< lo) - 1)

def nonzeroTrailingBit (word : BitWord) : Option Nat :=
  if word ≠ 0 then some word.ctz.toNat else none

/-- The bits that `while let Some(i) = nonzero_trailing_bit(word) { word &= word - 1; .. }` meets. -/
def drainBits : Nat → BitWord → List Nat
  | 0, _ => []
  | fuel + 1, word =>
    match nonzeroTrailingBit word with
    | none => []
    | some index => index :: drainBits fuel (word &&& (word - 1))

def wordBits (word : BitWord) : List Nat := drainBits 64 word

@[simp] theorem bit_zero (i : Nat) : bit 0#64 i = false := BitVec.getLsbD_zero

@[simp] theorem bit_and (v w : BitWord) (i : Nat) : bit (v &&& w) i = (bit v i && bit w i) :=
  BitVec.getLsbD_and

@[simp] theorem bit_or (v w : BitWord) (i : Nat) : bit (v ||| w) i = (bit v i || bit w i) :=
  BitVec.getLsbD_or

@[simp] theorem bit_xor (v w : BitWord) (i : Nat) : bit (v ^^^ w) i = (bit v i ^^ bit w i) :=
  BitVec.getLsbD_xor

@[simp] theorem bit_not (w : BitWord) (i : Nat) : bit (~~~w) i = (decide (i < 64) && !bit w i) :=
  BitVec.getLsbD_not

@[simp] theorem bit_shiftLeft (w : BitWord) (n i : Nat) :
    bit (w <<< n) i = (decide (i < 64) && !decide (i < n) && bit w (i - n)) :=
  BitVec.getLsbD_shiftLeft w n

@[simp] theorem bit_allOnes (i : Nat) : bit (BitVec.allOnes 64) i = decide (i < 64) :=
  BitVec.getLsbD_allOnes

theorem bit_of_ge (word : BitWord) {i : Nat} (h : 64 ≤ i) : bit word i = false :=
  BitVec.getLsbD_of_ge word i h

variable {word : BitWord}

theorem eq_zero_iff_bit : word = 0 ↔ ∀ i, bit word i = false := by
  constructor
  · intro h i
    simp [h]
  · intro h
    apply BitVec.eq_of_getLsbD_eq
    intro i _
    exact (h i).trans (bit_zero i).symm

theorem bit_one_shiftLeft {i j : Nat} (hi : i < 64) : bit (1#64 <<< i) j = decide (j = i) := by
  rw [bit_shiftLeft, bit, BitVec.getLsbD_one]
  by_cases h : j = i
  · simp [h, hi]
  · by_cases hlt : j < i
    · simp [hlt, h]
    · have hpos : j - i ≠ 0 := by omega
      simp [hpos, h]

theorem bit_low {hi i : Nat} (h : hi < 64) : bit ((1#64 <<< hi) - 1) i = decide (i < hi) := by
  have hn : ((1#64 <<< hi) - 1).toNat = 2 ^ hi - 1 := by
    have hlt : 2 ^ hi < 2 ^ 64 := Nat.pow_lt_pow_right (by omega) h
    have hpos : 0 < 2 ^ hi := Nat.two_pow_pos hi
    rw [BitVec.toNat_sub, BitVec.toNat_shiftLeft, Nat.shiftLeft_eq, BitVec.toNat_ofNat]
    simp only [BitVec.ofNat_eq_ofNat, BitVec.toNat_ofNat]
    norm_num at hlt ⊢
    omega
  rw [bit, BitVec.getLsbD, hn, Nat.testBit_two_pow_sub_one]

theorem bit_rangeMask {lo hi i : Nat} (hlo : lo < 64) (hhi : hi ≤ 64) :
    bit (rangeMask lo hi) i = (decide (lo ≤ i) && decide (i < hi)) := by
  have hupper : bit (if hi = 64 then BitVec.allOnes 64 else (1#64 <<< hi) - 1) i = decide (i < hi) := by
    by_cases h : hi = 64
    · rw [if_pos h, h, bit_allOnes]
    · rw [if_neg h, bit_low (by omega)]
  rw [rangeMask, bit_and, hupper, bit_not, bit_low hlo]
  by_cases h : i < hi
  · have hi : i < 64 := by omega
    by_cases hl : lo ≤ i
    · simp [h, hi, hl]
    · simp [h, hl, Nat.lt_of_not_le hl]
  · simp [h]

theorem nonzeroTrailingBit_eq_none (h : nonzeroTrailingBit word = none) : ∀ i, bit word i = false := by
  apply eq_zero_iff_bit.mp
  by_contra hne
  rw [nonzeroTrailingBit, if_pos hne] at h
  cases h

theorem nonzeroTrailingBit_eq_some {i : Nat} (h : nonzeroTrailingBit word = some i) :
    i < 64 ∧ bit word i = true ∧ ∀ j, j < i → bit word j = false := by
  rw [nonzeroTrailingBit] at h
  split at h
  next hne =>
    cases h
    have hlt : word.ctz.toNat < 64 := by
      have := BitVec.ctz_lt_iff_ne_zero.mpr hne
      simpa [BitVec.lt_def] using this
    exact ⟨hlt, BitVec.getLsbD_true_ctz_of_ne_zero hne, fun j hj => BitVec.getLsbD_false_of_lt_ctz hj⟩
  next => cases h

theorem testBit_and_pred {n k : Nat} (hk : n.testBit k = true) (hlow : ∀ j, j < k → n.testBit j = false)
    (i : Nat) : (n &&& (n - 1)).testBit i = (n.testBit i && decide (i ≠ k)) := by
  have hmod : n % 2 ^ k = 0 := by
    apply Nat.eq_of_testBit_eq
    intro j
    rw [Nat.testBit_mod_two_pow, Nat.zero_testBit]
    by_cases hj : j < k
    · rw [hlow j hj, Bool.and_false]
    · simp [hj]
  have hodd : n / 2 ^ k % 2 = 1 := by
    rw [Nat.testBit_eq_decide_div_mod_eq] at hk
    exact of_decide_eq_true hk
  obtain ⟨m, hm⟩ : ∃ m, n = 2 ^ k * (2 * m + 1) := by
    refine ⟨n / 2 ^ k / 2, ?_⟩
    have hq : 2 * (n / 2 ^ k / 2) + 1 = n / 2 ^ k := by omega
    rw [hq]
    exact (Nat.mul_div_cancel' (Nat.dvd_of_mod_eq_zero hmod)).symm
  have hpos : 0 < 2 ^ k := Nat.two_pow_pos k
  have hpred : n - 1 = 2 ^ k * (2 * m) + (2 ^ k - 1) := by
    rw [hm, Nat.mul_add, Nat.mul_one]
    omega
  rw [Nat.testBit_and, hpred, Nat.testBit_two_pow_mul_add _ (by omega)]
  by_cases hi : i < k
  · simp [hlow i hi]
  · rw [if_neg hi]
    by_cases he : i = k
    · have h0 : (2 * m).testBit 0 = false := by simp
      simp [he, h0]
    · have hn : n.testBit i = (2 * m + 1).testBit (i - k) := by
        rw [hm, Nat.testBit_two_pow_mul]
        simp [Nat.le_of_not_lt hi]
      obtain ⟨d, hd⟩ : ∃ d, i - k = d + 1 := ⟨i - k - 1, by omega⟩
      rw [hn, hd, Nat.testBit_succ, Nat.testBit_succ]
      have h1 : (2 * m + 1) / 2 = m := by omega
      have h2 : 2 * m / 2 = m := by omega
      simp [h1, h2, he]

theorem bit_and_pred {i : Nat} (h : nonzeroTrailingBit word = some i) (j : Nat) :
    bit (word &&& (word - 1)) j = (bit word j && decide (j ≠ i)) := by
  obtain ⟨-, hset, hlow⟩ := nonzeroTrailingBit_eq_some h
  have hpos : 0 < word.toNat := by
    rw [Nat.pos_iff_ne_zero]
    intro hz
    rw [bit, BitVec.getLsbD, hz, Nat.zero_testBit] at hset
    cases hset
  have hpred : (word - 1).toNat = word.toNat - 1 := by
    have hlt := word.isLt
    rw [BitVec.toNat_sub]
    simp only [BitVec.ofNat_eq_ofNat, BitVec.toNat_ofNat]
    omega
  rw [bit, BitVec.getLsbD, BitVec.toNat_and, hpred]
  exact testBit_and_pred hset hlow j

theorem drainBits_spec (fuel : Nat) (word : BitWord) (h : ∀ j, j + fuel < 64 → bit word j = false) :
    (drainBits fuel word).Pairwise (· < ·) ∧ ∀ i, i ∈ drainBits fuel word ↔ bit word i = true := by
  induction fuel generalizing word with
  | zero =>
    refine ⟨List.Pairwise.nil, fun i => ?_⟩
    have hz : bit word i = false := by
      by_cases hi : i < 64
      · exact h i hi
      · exact bit_of_ge word (by omega)
    simp [drainBits, hz]
  | succ fuel ih =>
    unfold drainBits
    cases hn : nonzeroTrailingBit word with
    | none =>
      refine ⟨List.Pairwise.nil, fun i => ?_⟩
      simp [nonzeroTrailingBit_eq_none hn i]
    | some k =>
      obtain ⟨hk, hset, hlow⟩ := nonzeroTrailingBit_eq_some hn
      have hge : 64 ≤ k + (fuel + 1) := by
        by_contra hlt
        rw [h k (by omega)] at hset
        cases hset
      have hclear := bit_and_pred hn
      have hrest : ∀ j, j + fuel < 64 → bit (word &&& (word - 1)) j = false := by
        intro j hj
        rw [hclear j]
        by_cases he : j = k
        · simp [he]
        · rw [hlow j (by omega), Bool.false_and]
      obtain ⟨hpair, hmem⟩ := ih _ hrest
      refine ⟨List.pairwise_cons.mpr ⟨?_, hpair⟩, fun i => ?_⟩
      · intro j hj
        have hb := (hmem j).mp hj
        rw [hclear j, Bool.and_eq_true, decide_eq_true_eq] at hb
        by_contra hle
        rw [hlow j (by omega)] at hb
        cases hb.1
      · rw [List.mem_cons, hmem i, hclear i, Bool.and_eq_true, decide_eq_true_eq]
        by_cases he : i = k
        · simp [he, hset]
        · simp [he]

theorem wordBits_eq (word : BitWord) : wordBits word = (List.range 64).filter (bit word) := by
  obtain ⟨hpair, hmem⟩ := drainBits_spec 64 word (fun j hj => by omega)
  apply hpair.eq_of_mem_iff (List.pairwise_lt_range.filter _)
  intro i
  rw [List.mem_filter, List.mem_range]
  constructor
  · intro hi
    have hb := (hmem i).mp hi
    refine ⟨?_, hb⟩
    by_contra hge
    rw [bit_of_ge word (by omega)] at hb
    cases hb
  · exact fun hi => (hmem i).mpr hi.2

theorem testBit_ofLeBytes (bytes : Bytes) (i : Nat) : (ofLeBytes bytes).testBit i = bitAt bytes i := by
  induction bytes generalizing i with
  | nil => simp [ofLeBytes, bitAt]
  | cons b bs ih =>
    have hb : b.toNat < 2 ^ 8 := b.toNat_lt
    rw [ofLeBytes, Nat.add_comm, show (256 : Nat) = 2 ^ 8 from rfl, Nat.testBit_two_pow_mul_add _ hb]
    by_cases hi : i < 8
    · have h0 : i / 8 = 0 := by omega
      have hm : i % 8 = i := by omega
      simp [hi, bitAt, h0, hm]
    · obtain ⟨j, rfl⟩ : ∃ j, i = j + 8 := ⟨i - 8, by omega⟩
      have hd : (j + 8) / 8 = j / 8 + 1 := by omega
      have hm : (j + 8) % 8 = j % 8 := by omega
      rw [if_neg hi, Nat.add_sub_cancel, ih j, bitAt, bitAt, hd, hm, List.getD_cons_succ]

abbrev Bitmap := List BitWord

end LogicConduit
