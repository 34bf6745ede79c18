import LogicConduit.ByteRegion
import Mathlib.Data.Nat.Bitwise

namespace LogicConduit

def bitAt (bytes : Bytes) (i : Nat) : Bool :=
  (bytes.getD (i / 8) 0).toNat.testBit (i % 8)

theorem bitAt_replicate_zero (n i : Nat) : bitAt (List.replicate n 0) i = false := by
  simp [bitAt]

theorem bitAt_append_left {xs : Bytes} (ys : Bytes) {i : Nat} (h : i < 8 * xs.length) :
    bitAt (xs ++ ys) i = bitAt xs i := by
  simp only [bitAt, List.getD_eq_getElem?_getD]
  rw [List.getElem?_append_left (by omega)]

theorem bitAt_append_right (xs ys : Bytes) (i : Nat) : bitAt (xs ++ ys) (8 * xs.length + i) = bitAt ys i := by
  have hplace : (8 * xs.length + i) / 8 - xs.length = i / 8 := by omega
  have hbit : (8 * xs.length + i) % 8 = i % 8 := by omega
  simp only [bitAt, List.getD_eq_getElem?_getD]
  rw [List.getElem?_append_right (by omega), hplace, hbit]

variable {bytes : Bytes}

theorem bitAt_modify_or {k : Nat} (hk : k < bytes.length) (b : UInt8) (i : Nat) :
    bitAt (bytes.modify k (· ||| b)) i =
      (bitAt bytes i || (decide (i / 8 = k) && b.toNat.testBit (i % 8))) := by
  simp only [bitAt, List.getD_eq_getElem?_getD, List.getElem?_modify]
  by_cases h : i / 8 = k
  · have hget : bytes[k]? = some bytes[k] := List.getElem?_eq_getElem hk
    simp [h, hget]
  · simp [h, Ne.symm h]

theorem testBit_ofNat_u8 (n : Nat) {j : Nat} (hj : j < 8) :
    (UInt8.ofNat n).toNat.testBit j = n.testBit j := by
  rw [UInt8.toNat_ofNat', Nat.testBit_mod_two_pow]
  simp [hj]

def setBitAt (bytes : Bytes) (k : Nat) : Bytes :=
  bytes.modify (k / 8) (· ||| UInt8.ofNat (2 ^ (k % 8)))

@[simp] theorem setBitAt_length (bytes : Bytes) (k : Nat) : (setBitAt bytes k).length = bytes.length :=
  List.length_modify ..

theorem bitAt_setBitAt {k : Nat} (hk : k < 8 * bytes.length) (i : Nat) :
    bitAt (setBitAt bytes k) i = (bitAt bytes i || decide (i = k)) := by
  have hbit : (UInt8.ofNat (2 ^ (k % 8))).toNat.testBit (i % 8) = decide (k % 8 = i % 8) := by
    rw [testBit_ofNat_u8 _ (Nat.mod_lt _ (by omega)), Nat.testBit_two_pow]
  have hwhole : (decide (i / 8 = k / 8) && decide (k % 8 = i % 8)) = decide (i = k) := by
    rw [← Bool.decide_and]
    apply decide_eq_decide.mpr
    omega
  rw [setBitAt, bitAt_modify_or (by omega), hbit, hwhole]

def setBitsWhere {ι : Type} (test : ι → Bool) (position : ι → Nat) (indices : List ι) (bytes : Bytes) : Bytes :=
  indices.foldl (fun bytes index => if test index then setBitAt bytes (position index) else bytes) bytes

@[simp] theorem setBitsWhere_length {ι : Type} (test : ι → Bool) (position : ι → Nat) (indices : List ι)
    (bytes : Bytes) : (setBitsWhere test position indices bytes).length = bytes.length := by
  induction indices generalizing bytes with
  | nil => rfl
  | cons index indices ih =>
    rw [setBitsWhere, List.foldl_cons, ← setBitsWhere, ih]
    split
    · rw [setBitAt_length]
    · rfl

theorem bitAt_setBitsWhere {ι : Type} {test : ι → Bool} {position : ι → Nat} {indices : List ι}
    (hroom : ∀ index ∈ indices, position index < 8 * bytes.length) (i : Nat) :
    bitAt (setBitsWhere test position indices bytes) i = true ↔
      bitAt bytes i = true ∨ ∃ index ∈ indices, test index = true ∧ position index = i := by
  induction indices generalizing bytes with
  | nil => simp [setBitsWhere]
  | cons index indices ih =>
    rw [setBitsWhere, List.foldl_cons, ← setBitsWhere]
    by_cases htest : test index = true
    · have hset := bitAt_setBitAt (hroom index List.mem_cons_self) i
      rw [if_pos htest, ih (fun other hother => by
        rw [setBitAt_length]
        exact hroom other (List.mem_cons_of_mem _ hother)), hset]
      simp only [Bool.or_eq_true, decide_eq_true_eq, List.exists_mem_cons_iff, htest, true_and, or_assoc,
        eq_comm (a := i)]
    · rw [if_neg htest, ih fun other hother => hroom other (List.mem_cons_of_mem _ hother)]
      simp [htest]

def setBitRows (test : Nat → Nat → Bool) (stride width rows : Nat) (bytes : Bytes) : Bytes :=
  (List.range rows).foldl
    (fun bytes row => setBitsWhere (test row) (fun column => row * stride + column) (List.range width) bytes) bytes

section Rows

variable (test : Nat → Nat → Bool) {stride width : Nat}

theorem setBitRows_succ (stride width rows : Nat) (bytes : Bytes) :
    setBitRows test stride width (rows + 1) bytes =
      setBitsWhere (test rows) (fun column => rows * stride + column) (List.range width)
        (setBitRows test stride width rows bytes) := by
  simp [setBitRows, List.range_succ]

@[simp] theorem setBitRows_length (stride width rows : Nat) (bytes : Bytes) :
    (setBitRows test stride width rows bytes).length = bytes.length := by
  induction rows with
  | zero => rfl
  | succ rows ih => rw [setBitRows_succ, setBitsWhere_length, ih]

theorem bitAt_setBitRows {rows : Nat} {bytes : Bytes} (hwidth : width ≤ stride)
    (hroom : rows * stride ≤ 8 * bytes.length) (i : Nat) :
    bitAt (setBitRows test stride width rows bytes) i = true ↔ bitAt bytes i = true ∨
      ∃ row < rows, ∃ column < width, test row column = true ∧ row * stride + column = i := by
  induction rows with
  | zero => simp [setBitRows]
  | succ rows ih =>
    rw [Nat.succ_mul] at hroom
    have hinner : ∀ column ∈ List.range width, rows * stride + column <
        8 * (setBitRows test stride width rows bytes).length := by
      intro column hcolumn
      have hlt := List.mem_range.mp hcolumn
      rw [setBitRows_length]
      omega
    rw [setBitRows_succ, bitAt_setBitsWhere hinner, ih (by omega), or_assoc]
    apply or_congr_right
    simp only [Nat.lt_succ_iff_lt_or_eq, List.mem_range, or_and_right, exists_or, exists_eq_left]

theorem bitAt_setBitRows_zero {rows byteCount row column : Nat} (hwidth : width ≤ stride)
    (hroom : rows * stride ≤ 8 * byteCount) (hrow : row < rows) (hcolumn : column < width) :
    bitAt (setBitRows test stride width rows (List.replicate byteCount 0)) (row * stride + column) =
      test row column := by
  have hall := @bitAt_setBitRows test stride width rows (List.replicate byteCount 0) hwidth (by simpa using hroom)
    (row * stride + column)
  rw [bitAt_replicate_zero] at hall
  rw [Bool.eq_iff_iff, hall]
  constructor
  · rintro (hfalse | ⟨other, -, place, hplace, htest, heq⟩)
    · cases hfalse
    · have hquot := congrArg (· / stride) heq
      have hrem := congrArg (· % stride) heq
      have hpos : 0 < stride := by omega
      have hlow : place < stride := by omega
      have hlow' : column < stride := by omega
      simp only [Nat.mul_comm _ stride, Nat.mul_add_div hpos, Nat.mul_add_mod, Nat.div_eq_of_lt hlow,
        Nat.div_eq_of_lt hlow', Nat.mod_eq_of_lt hlow, Nat.mod_eq_of_lt hlow', Nat.add_zero] at hquot hrem
      rwa [hquot, hrem] at htest
  · intro htest
    exact Or.inr ⟨row, hrow, column, hcolumn, htest, rfl⟩

end Rows

theorem testBit_u8_of_ge (b : UInt8) {j : Nat} (hj : 8 ≤ j) : b.toNat.testBit j = false := by
  apply Nat.testBit_lt_two_pow
  calc b.toNat < 2 ^ 8 := b.toNat_lt
    _ ≤ 2 ^ j := Nat.pow_le_pow_right (by decide) hj

theorem testBit_of_lt {n bits j : Nat} (h : n < 2 ^ bits) (hj : bits ≤ j) : n.testBit j = false := by
  apply Nat.testBit_lt_two_pow
  exact h.trans_le (Nat.pow_le_pow_right (by decide) hj)

theorem eq_of_testBit_below {m n bits : Nat} (hm : m < 2 ^ bits) (hn : n < 2 ^ bits)
    (h : ∀ j, j < bits → m.testBit j = n.testBit j) : m = n := by
  apply Nat.eq_of_testBit_eq
  intro j
  by_cases hj : j < bits
  · exact h j hj
  · rw [testBit_of_lt hm (by omega), testBit_of_lt hn (by omega)]

end LogicConduit
