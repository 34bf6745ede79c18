import LogicConduit.ByteBits
import LogicConduit.WordDecode

namespace LogicConduit

theorem writePackedIndex_length (bytes : Bytes) (index bits value : Nat) :
    (writePackedIndex bytes index bits value).length = bytes.length := by
  simp only [writePackedIndex]
  split <;> simp

theorem bitAt_writePackedIndex {bytes : Bytes} {index bits value : Nat} (hb : bits ≤ 8)
    (hv : value < 2 ^ bits) (hl : (index + 1) * bits ≤ 8 * bytes.length) (h0 : 0 < bits) (i : Nat) :
    bitAt (writePackedIndex bytes index bits value) i =
      (bitAt bytes i || (decide (index * bits ≤ i) && value.testBit (i - index * bits))) := by
  rw [Nat.add_mul, Nat.one_mul] at hl
  simp only [writePackedIndex]
  generalize index * bits = offset at hl ⊢
  have hi : i % 8 < 8 := Nat.mod_lt i (by decide)
  have hsplit : i / 8 * 8 + i % 8 = i := Nat.div_add_mod' i 8
  have hoffset : offset / 8 * 8 + offset % 8 = offset := Nat.div_add_mod' offset 8
  have hfirst : offset / 8 < bytes.length := by omega
  have high : ∀ {j : Nat}, bits ≤ j → value.testBit j = false := fun hj => testBit_of_lt hv hj
  -- the bits of the first byte, and those the shift moves into the second
  have hlow : (decide (i / 8 = offset / 8) && (UInt8.ofNat (value <<< (offset % 8))).toNat.testBit (i % 8)) =
      (decide (i / 8 = offset / 8) && (decide (offset ≤ i) && value.testBit (i - offset))) := by
    by_cases he : i / 8 = offset / 8
    · rw [testBit_ofNat_u8 _ hi, Nat.testBit_shiftLeft]
      have hle : (offset % 8 ≤ i % 8) ↔ offset ≤ i := by omega
      have hsub : i % 8 - offset % 8 = i - offset := by omega
      simp [he, hle, hsub]
    · simp [he]
  split
  next hwide =>
    have hsecond : offset / 8 + 1 < (bytes.modify (offset / 8)
        (· ||| UInt8.ofNat (value <<< (offset % 8)))).length := by
      simp only [List.length_modify]
      omega
    rw [bitAt_modify_or hsecond, bitAt_modify_or hfirst, hlow, testBit_ofNat_u8 _ hi,
      Nat.testBit_shiftRight, Nat.testBit_shiftLeft]
    rcases Nat.lt_trichotomy (i / 8) (offset / 8) with hlt | heq | hgt
    · simp [show i / 8 ≠ offset / 8 by omega, show i / 8 ≠ offset / 8 + 1 by omega,
        show ¬offset ≤ i by omega]
    · simp [show i / 8 = offset / 8 by omega]
    · by_cases hn : i / 8 = offset / 8 + 1
      · have hsub : 8 + i % 8 - offset % 8 = i - offset := by omega
        simp [hn, hsub, show offset % 8 ≤ 8 + i % 8 by omega, show offset ≤ i by omega]
      · simp [hn, show i / 8 ≠ offset / 8 by omega, high (show bits ≤ i - offset by omega)]
  next hnarrow =>
    rw [bitAt_modify_or hfirst, hlow]
    by_cases he : i / 8 = offset / 8
    · simp [he]
    · by_cases hle : offset ≤ i
      · simp [he, hle, high (show bits ≤ i - offset by omega)]
      · simp [he, hle]

theorem bitAt_packIndices {bits : Nat} (hb : bits ≤ 8) (h0 : 0 < bits) (values : List Nat)
    (hv : ∀ value ∈ values, value < 2 ^ bits) {start : Nat} {bytes : Bytes}
    (hl : (start + values.length) * bits ≤ 8 * bytes.length)
    (hz : ∀ i, start * bits ≤ i → bitAt bytes i = false) :
    (packIndices bits values start bytes).length = bytes.length ∧
      (∀ i, i < start * bits → bitAt (packIndices bits values start bytes) i = bitAt bytes i) ∧
      (∀ m value j, values[m]? = some value → j < bits →
        bitAt (packIndices bits values start bytes) ((start + m) * bits + j) = value.testBit j) := by
  induction values generalizing start bytes with
  | nil => simp [packIndices]
  | cons value rest ih =>
    simp only [List.length_cons] at hl
    have hvalue := hv value (by simp)
    have hroom : (start + 1) * bits ≤ 8 * bytes.length :=
      (Nat.mul_le_mul_right bits (by omega)).trans hl
    have hwrite := bitAt_writePackedIndex hb hvalue hroom h0
    have hstep : (start + 1) * bits = start * bits + bits := by rw [Nat.add_mul, Nat.one_mul]
    have hlen := writePackedIndex_length bytes start bits value
    obtain ⟨h1, h2, h3⟩ := @ih (fun w hw => hv w (by simp [hw])) (start + 1)
      (writePackedIndex bytes start bits value)
      (by rw [hlen, Nat.add_assoc, Nat.add_comm 1]; exact hl)
      (by
        intro i hi
        rw [hwrite, hz i (by omega), testBit_of_lt hvalue (by omega)]
        simp)
    refine ⟨h1.trans hlen, ?_, ?_⟩
    · intro i hi
      rw [packIndices, h2 i (by omega), hwrite]
      simp [show ¬start * bits ≤ i by omega]
    · intro m w j hm hj
      cases m with
      | zero =>
        have hw : value = w := by simpa using hm
        have hpos : (start + 0) * bits + j = start * bits + j := rfl
        rw [hpos, packIndices, h2 _ (by omega), hwrite, hz _ (by omega), ← hw]
        simp
      | succ m =>
        have hm' : rest[m]? = some w := by simpa using hm
        rw [packIndices, show start + (m + 1) = start + 1 + m by omega]
        exact h3 m w j hm' hj

theorem readPackedIndex_testBit {bytes packed : Bytes} {offset index bits : Nat}
    (h : HasAt bytes offset packed) (hl : (index + 1) * bits ≤ 8 * packed.length) (hb : bits ≤ 8)
    {j : Nat} (hj : j < bits) :
    (readPackedIndex bytes offset index bits).testBit j = bitAt packed (index * bits + j) := by
  rw [Nat.add_mul, Nat.one_mul] at hl
  simp only [readPackedIndex, bitAt]
  generalize index * bits = start at hl ⊢
  have hget : ∀ k, k < packed.length → bytes.getD (offset + k) 0 = packed.getD k 0 := by
    intro k hk
    simp only [List.getD_eq_getElem?_getD, h.getElem? hk]
  rw [Nat.testBit_and, Nat.testBit_shiftRight, Nat.testBit_or, Nat.testBit_shiftLeft,
    hget (start / 8) (by omega), Nat.one_shiftLeft, Nat.testBit_two_pow_sub_one]
  by_cases hlow : start % 8 + j < 8
  · have hdiv : (start + j) / 8 = start / 8 := by omega
    have hmod : (start + j) % 8 = start % 8 + j := by omega
    simp [hj, hdiv, hmod, show ¬8 ≤ start % 8 + j by omega]
  · have hdiv : (start + j) / 8 = start / 8 + 1 := by omega
    have hmod : (start + j) % 8 = start % 8 + j - 8 := by omega
    rw [Nat.add_assoc, hget (start / 8 + 1) (by omega), testBit_u8_of_ge _ (by omega : 8 ≤ start % 8 + j),
      hdiv, hmod]
    simp [hj, show 8 ≤ start % 8 + j by omega]

theorem readPackedIndex_lt (bytes : Bytes) (offset index bits : Nat) :
    readPackedIndex bytes offset index bits < 2 ^ bits := by
  have hpos : 0 < 2 ^ bits := Nat.two_pow_pos bits
  refine lt_of_le_of_lt Nat.and_le_right ?_
  rw [Nat.one_shiftLeft]
  omega

theorem readPackedIndex_packIndices {bytes : Bytes} {offset bits length : Nat} {values : List Nat}
    (hb : bits ≤ 8) (h0 : 0 < bits) (hv : ∀ value ∈ values, value < 2 ^ bits)
    (hl : values.length * bits ≤ 8 * length)
    (h : HasAt bytes offset (packIndices bits values 0 (List.replicate length 0)))
    {m value : Nat} (hm : values[m]? = some value) : readPackedIndex bytes offset m bits = value := by
  obtain ⟨h1, -, h3⟩ := @bitAt_packIndices bits hb h0 values hv 0 (List.replicate length 0)
    (by simpa using hl) (fun i _ => bitAt_replicate_zero length i)
  have hmlt : m < values.length := (List.getElem?_eq_some_iff.mp hm).1
  have hroom : (m + 1) * bits ≤ 8 * (packIndices bits values 0 (List.replicate length 0)).length := by
    rw [h1, List.length_replicate]
    exact (Nat.mul_le_mul_right bits (by omega)).trans hl
  refine eq_of_testBit_below (readPackedIndex_lt bytes offset m bits)
    (hv value (List.mem_of_getElem? hm)) ?_
  intro j hj
  rw [readPackedIndex_testBit h hroom hb hj]
  simpa using h3 m value j hm hj

end LogicConduit
