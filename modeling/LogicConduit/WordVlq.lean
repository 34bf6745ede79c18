import LogicConduit.ByteRegion
import LogicConduit.CheckedRuns

namespace LogicConduit

inductive CodecError
  | emptyBlock
  | outOfOrder (index previousTimestampNs timestampNs : Nat)
  | invalidRestartInterval
  | invalidConfiguration (message : String)
  | tooManyWords (count : Nat)
  | truncated
  | vlqOverflow
  | invalidFormat (message : String)
  | checksumMismatch (expected actual : UInt32)
  deriving DecidableEq, Repr

abbrev CodecResult := Except CodecError

namespace Vlq

/-- The loop of `encode_u64`. A `u64` has at most ten groups of seven bits, so the
fuel of `encodeU64` is never used up (`encodeU64Loop_value`). -/
def encodeU64Loop : Nat → Nat → Bytes
  | 0, _ => []
  | fuel + 1, value =>
    let byte := value &&& 0x7f
    let value := value >>> 7
    if value ≠ 0 then UInt8.ofNat (byte ||| 0x80) :: encodeU64Loop fuel value
    else [UInt8.ofNat byte]

/-- Canonical unsigned LEB128. -/
def encodeU64 (value : Nat) : Bytes :=
  encodeU64Loop 10 value

def decodeU64Loop (input : Bytes) : Nat → Nat → Nat → Nat → CodecResult (Nat × Nat)
  | 0, _, _, _ => .error .vlqOverflow
  | fuel + 1, byteIndex, value, cursor =>
    match input[cursor]? with
    | none => .error .truncated
    | some byte =>
      if byteIndex = 9 ∧ 1 < byte.toNat then .error .vlqOverflow
      else
        let value := value ||| ((byte.toNat &&& 0x7f) <<< (byteIndex * 7))
        if byte.toNat &&& 0x80 = 0 then .ok (value, cursor + 1)
        else decodeU64Loop input fuel (byteIndex + 1) value (cursor + 1)

def decodeU64 (input : Bytes) (cursor : Nat) : CodecResult (Nat × Nat) :=
  decodeU64Loop input 10 0 0 cursor

def encodedLen (value : Nat) : Nat :=
  ((if value = 0 then 1 else value.log2 + 1) + 6) / 7

theorem and_7f (n : Nat) : n &&& 0x7f = n % 128 :=
  Nat.and_two_pow_sub_one_eq_mod n 7

theorem shiftRight_7 (n : Nat) : n >>> 7 = n / 128 :=
  Nat.shiftRight_eq_div_pow n 7

theorem or_80 {n : Nat} (h : n < 128) : n ||| 0x80 = n + 128 := by
  have := Nat.two_pow_add_eq_or_of_lt (i := 7) h 1
  rw [Nat.or_comm, show (0x80 : Nat) = 2 ^ 7 * 1 by rfl, ← this]
  omega

theorem encodeU64Loop_succ (fuel value : Nat) :
    encodeU64Loop (fuel + 1) value =
      if value < 128 then [UInt8.ofNat value]
      else UInt8.ofNat (value % 128 + 128) :: encodeU64Loop fuel (value / 128) := by
  simp only [encodeU64Loop, and_7f, shiftRight_7, or_80 (Nat.mod_lt value (by decide : 0 < 128))]
  by_cases h : value < 128
  · simp [h, Nat.div_eq_of_lt h, Nat.mod_eq_of_lt h]
  · have hd : value / 128 ≠ 0 := by omega
    rw [if_pos hd, if_neg h]

theorem encodeU64_ne_nil (value : Nat) : encodeU64 value ≠ [] := by
  rw [encodeU64, encodeU64Loop_succ]
  split <;> simp

theorem encodeU64_length_pos (value : Nat) : 0 < (encodeU64 value).length :=
  List.length_pos_iff.mpr (encodeU64_ne_nil value)

variable {value : Nat}

theorem encodeU64_of_lt (h : value < 128) : encodeU64 value = [UInt8.ofNat value] := by
  rw [encodeU64, encodeU64Loop_succ, if_pos h]

theorem encodedLen_step (h : 128 ≤ value) : encodedLen value = encodedLen (value / 128) + 1 := by
  have hd : value / 128 ≠ 0 := by omega
  have hl : value.log2 = (value / 128).log2 + 7 := by
    rw [show value / 128 = value / 2 / 2 / 2 / 2 / 2 / 2 / 2 by omega]
    have step : ∀ n, 2 ≤ n → n.log2 = (n / 2).log2 + 1 := fun n hn => by
      rw [Nat.log2_def, if_pos hn]
    iterate 7 rw [step _ (by omega)]
  simp only [encodedLen, hd, if_false, show value ≠ 0 by omega, hl]
  omega

theorem encodedLen_of_lt (h : value < 128) : encodedLen value = 1 := by
  unfold encodedLen
  split
  · rfl
  · next hz =>
    have : value.log2 < 7 := (Nat.log2_lt hz).mpr (by omega)
    omega

theorem encodeU64Loop_length (fuel : Nat) (h : value < 128 ^ fuel) :
    (encodeU64Loop fuel value).length = if fuel = 0 then 0 else encodedLen value := by
  induction fuel generalizing value with
  | zero => rfl
  | succ fuel ih =>
    rw [encodeU64Loop_succ]
    split
    · next hlt => simp [encodedLen_of_lt hlt]
    · next hge =>
      have hd : value / 128 < 128 ^ fuel := by
        rw [Nat.div_lt_iff_lt_mul (by decide)]
        rwa [pow_succ] at h
      have hf : fuel ≠ 0 := by
        rintro rfl
        simp at h; omega
      simp [ih hd, hf, encodedLen_step (by omega : 128 ≤ value)]

theorem u64_lt_pow (h : value < 2 ^ 64) : value < 128 ^ 10 :=
  h.trans (by decide)

theorem encodeU64_length (h : value < 2 ^ 64) : (encodeU64 value).length = encodedLen value := by
  simpa [encodeU64] using encodeU64Loop_length 10 (u64_lt_pow h)

theorem encodedLen_pos (value : Nat) : 0 < encodedLen value := by
  unfold encodedLen
  split <;> omega

theorem encodedLen_eq_one_iff : encodedLen value = 1 ↔ value < 128 := by
  constructor
  · intro h
    by_contra hge
    have hs := encodedLen_step (by omega : 128 ≤ value)
    have hp := encodedLen_pos (value / 128)
    omega
  · exact encodedLen_of_lt

theorem and_80_of_lt {n : Nat} (h : n < 128) : n &&& 0x80 = 0 :=
  (by decide : ∀ i : Fin 128, i.val &&& 0x80 = 0) ⟨n, h⟩

theorem and_80_of_ge {n : Nat} (h : n < 128) : (n + 128) &&& 0x80 ≠ 0 :=
  (by decide : ∀ i : Fin 128, (i.val + 128) &&& 0x80 ≠ 0) ⟨n, h⟩

/-- The decoder reads back what the encoder wrote: `value` collects the groups
below bit `7 * byteIndex`, and `n` is what is left to read. -/
theorem decodeU64Loop_encode (input : Bytes) (fuel : Nat) {n value cursor : Nat}
    (hf : fuel ≤ 10) (hn : n < 2 ^ (64 - 7 * (10 - fuel))) (hnf : n < 128 ^ fuel) (hpos : 0 < fuel)
    (hv : value < 2 ^ (7 * (10 - fuel))) (h : HasAt input cursor (encodeU64Loop fuel n)) :
    decodeU64Loop input fuel (10 - fuel) value cursor =
      .ok (value + n * 2 ^ (7 * (10 - fuel)), cursor + (encodeU64Loop fuel n).length) := by
  induction fuel generalizing n value cursor with
  | zero => omega
  | succ fuel ih =>
    rw [encodeU64Loop_succ] at h ⊢
    have hor : ∀ {k : Nat}, k < 128 →
        value ||| (k <<< ((10 - (fuel + 1)) * 7)) = value + k * 2 ^ (7 * (10 - (fuel + 1))) := by
      intro k _
      rw [Nat.shiftLeft_eq, Nat.mul_comm (10 - (fuel + 1)) 7, Nat.or_comm, Nat.mul_comm k,
        ← Nat.two_pow_add_eq_or_of_lt hv k]
      omega
    by_cases hlt : n < 128
    · simp only [hlt, if_true] at h ⊢
      have hb : (UInt8.ofNat n).toNat = n := by rw [UInt8.toNat_ofNat']; omega
      have hnine : ¬(10 - (fuel + 1) = 9 ∧ 1 < n) := by
        rintro ⟨hi, hgt⟩
        have : fuel = 0 := by omega
        subst this
        simp at hn
        omega
      simp only [decodeU64Loop, h.head, hb, hnine, if_false, and_7f, Nat.mod_eq_of_lt hlt,
        and_80_of_lt hlt, if_true, hor hlt, List.length_singleton]
    · simp only [hlt, if_false] at h ⊢
      have hm : n % 128 < 128 := Nat.mod_lt _ (by decide)
      have hb : (UInt8.ofNat (n % 128 + 128)).toNat = n % 128 + 128 := by
        rw [UInt8.toNat_ofNat']; omega
      have hfuel : 0 < fuel := by
        by_contra hz
        have : fuel = 0 := by omega
        subst this
        simp at hnf
        omega
      have hnine : ¬(10 - (fuel + 1) = 9 ∧ 1 < n % 128 + 128) := by
        rintro ⟨hi, _⟩
        omega
      have hmod : (n % 128 + 128) % 128 = n % 128 := by omega
      have hdn : n / 128 < 128 ^ fuel := by
        rw [Nat.div_lt_iff_lt_mul (by decide)]
        rwa [pow_succ] at hnf
      have hexp : 64 - 7 * (10 - (fuel + 1)) = 64 - 7 * (10 - fuel) + 7 := by omega
      have hdb : n / 128 < 2 ^ (64 - 7 * (10 - fuel)) := by
        rw [Nat.div_lt_iff_lt_mul (by decide)]
        rwa [hexp, pow_add] at hn
      have hpow : 2 ^ (7 * (10 - fuel)) = 2 ^ (7 * (10 - (fuel + 1))) * 128 := by
        rw [show 7 * (10 - fuel) = 7 * (10 - (fuel + 1)) + 7 by omega, pow_add]
        rfl
      have hval : value + n % 128 * 2 ^ (7 * (10 - (fuel + 1))) < 2 ^ (7 * (10 - fuel)) := by
        have hle := Nat.mul_le_mul_right (2 ^ (7 * (10 - (fuel + 1)))) (by omega : n % 128 + 1 ≤ 128)
        rw [Nat.add_mul] at hle
        omega
      have hidx : 10 - (fuel + 1) + 1 = 10 - fuel := by omega
      have hrest := ih (by omega) hdb hdn hfuel hval (HasAt.cons.mp h).2
      simp only [decodeU64Loop, h.head, hb, hnine, if_false, and_7f, hmod, and_80_of_ge hm,
        hor hm, hidx, hrest, List.length_cons]
      congr 2
      · rw [hpow]
        conv_rhs => rw [← Nat.mod_add_div n 128]
        ring
      · omega

theorem decodeU64_encode {input : Bytes} {value cursor : Nat} (hv : value < 2 ^ 64)
    (h : HasAt input cursor (encodeU64 value)) :
    decodeU64 input cursor = .ok (value, cursor + (encodeU64 value).length) := by
  have := @decodeU64Loop_encode input 10 value 0 cursor (by decide) (by simpa using hv)
    (u64_lt_pow hv) (by decide) (by decide) h
  simpa [decodeU64, encodeU64] using this

end Vlq

end LogicConduit
