import LogicConduit.BroadcastLedger
import LogicConduit.UartSampling
import Mathlib.Data.List.Nodup
import Mathlib.Data.List.TakeWhile

namespace LogicConduit

/-- What a line carries as one frame. The parity bit is there if the decoder's mode has one. -/
structure UartFrame where
  startNs : UInt64
  value : Nat
  parityBit : Bool

/-- The edges of a line that has a level and takes the given levels at the given times. -/
def levelChanges : Bool → List (Bool × UInt64) → List Sample
  | _, [] => []
  | level, (next, t) :: rest =>
    if next = level then levelChanges level rest else ⟨next, t⟩ :: levelChanges next rest

namespace UartDecoder

variable (decoder : UartDecoder)

def idleLevel : Bool := !decoder.invert

def wireBit (frame : UartFrame) (i : Nat) : Bool :=
  match decoder.bitOrder with
  | .lsbFirst => frame.value.testBit i
  | .msbFirst => frame.value.testBit (decoder.dataBits - 1 - i)

def bitStart (frame : UartFrame) (k : Nat) : UInt64 := frame.startNs + .ofNat (k * decoder.bitTime)

def frameLevels (frame : UartFrame) : List (Bool × UInt64) :=
  (decoder.invert, decoder.bitStart frame 0) ::
    ((List.range decoder.dataBits).map fun i =>
      (decoder.wireBit frame i != decoder.invert, decoder.bitStart frame (1 + i))) ++
    (if decoder.parity = .none then []
      else [(frame.parityBit != decoder.invert, decoder.bitStart frame (1 + decoder.dataBits))]) ++
    [(decoder.idleLevel, decoder.bitStart frame (1 + decoder.dataBits + decoder.parityBits))]

def frameTime : Nat :=
  (2 * (1 + decoder.dataBits + decoder.parityBits) + decoder.stopBits.halves) * decoder.bitTime / 2

def frameOnes (frame : UartFrame) : Nat :=
  (List.range decoder.dataBits).countP (decoder.wireBit frame) + frame.parityBit.toNat

def ParityWrong (frame : UartFrame) : Prop :=
  match decoder.parity with
  | .none => False
  | .odd => decoder.frameOnes frame % 2 = 0
  | .even => decoder.frameOnes frame % 2 = 1
  | .mark => frame.parityBit = false
  | .space => frame.parityBit = true

instance (frame : UartFrame) : Decidable (decoder.ParityWrong frame) := by
  unfold ParityWrong
  cases decoder.parity <;> infer_instance

/-- The calls of `work` until the node stops, with the words and the errors that they sent. -/
def run (outputs : UartOutputs) :
    Nat → UartDecoder → StreamInput Sample → Option (List (ChannelMessage Word) × List (ChannelMessage TimestampEvent))
  | 0, _, _ => none
  | calls + 1, decoder, rx =>
    if decoder.finished then some ([], [])
    else
      let call := decoder.work rx outputs
      match call.result with
      | .ok _ => (run outputs calls call.node call.rx).map fun later => (call.words ++ later.1, call.errors ++ later.2)
      | .error .shutdown => some (call.words, call.errors)
      | .error _ => none

end UartDecoder

section Levels

variable {level : Bool} {levels : List (Bool × UInt64)} {edge terminal : Sample} {t : UInt64}

variable {rest : List Sample}

theorem mem_levelChanges (h : edge ∈ levelChanges level levels) : (edge.value, edge.startTimeNs) ∈ levels := by
  induction levels generalizing level with
  | nil => cases h
  | cons next rest ih =>
    rw [levelChanges] at h
    split at h
    · exact List.mem_cons_of_mem _ (ih h)
    · rcases List.mem_cons.mp h with rfl | h
      · exact List.mem_cons_self
      · exact List.mem_cons_of_mem _ (ih h)

theorem seekEdge_first (hedge : edge.startTimeNs ≤ t) (hne : rest ≠ [])
    (hlater : ∀ later ∈ rest, t < later.startTimeNs) : seekEdge t (edge :: rest) = some (edge.value, edge :: rest) := by
  cases rest with
  | nil => exact absurd rfl hne
  | cons next rest => exact if_pos ⟨hedge, hlater next List.mem_cons_self⟩

theorem seekEdge_next {next : Sample} (hnext : next.startTimeNs ≤ t) :
    seekEdge t (edge :: next :: rest) = seekEdge t (next :: rest) :=
  if_neg fun h => UInt64.not_lt.mpr hnext h.2

/-- A line is looked up on its level, once that has begun and before the next one does. -/
theorem seekEdge_levels (level value : Bool) {begin since : UInt64} (hsince : since ≤ t) (hbegin : begin ≤ t)
    (hlater : ∀ later ∈ levels, t < later.2) (hterminal : t < terminal.startTimeNs) :
    ∃ since' ≤ t, seekEdge t (⟨level, since⟩ :: (levelChanges level ((value, begin) :: levels) ++ [terminal])) =
      some (value, ⟨value, since'⟩ :: (levelChanges value levels ++ [terminal])) := by
  have hbehind : ∀ later ∈ levelChanges value levels ++ [terminal], t < later.startTimeNs := by
    intro later hmem
    rcases List.mem_append.mp hmem with hmem | hmem
    · exact hlater _ (mem_levelChanges hmem)
    · rw [List.mem_singleton.mp hmem]
      exact hterminal
  have hne : levelChanges value levels ++ [terminal] ≠ [] :=
    List.append_ne_nil_of_right_ne_nil _ (List.cons_ne_nil _ _)
  rw [levelChanges]
  split
  · next hsame =>
    subst hsame
    exact ⟨since, hsince, seekEdge_first hsince hne hbehind⟩
  · refine ⟨begin, hbegin, ?_⟩
    rw [List.cons_append, seekEdge_next hbegin]
    exact seekEdge_first hbegin hne hbehind

end Levels

namespace UartDecoder

variable {decoder : UartDecoder} {rx : Inbox Sample} {terminal : Sample}

/-- The channel holds the edges of a line that has had a level since a time. -/
def Tracks (rx : Inbox Sample) (level : Bool) (since : UInt64) (levels : List (Bool × UInt64)) (terminal : Sample) :
    Prop :=
  rx.available = ⟨level, since⟩ :: (levelChanges level levels ++ [terminal])

variable {levels : List (Bool × UInt64)}

variable (decoder) in
theorem sampleLevel_tracks {level value : Bool} {since begin t : UInt64}
    (h : Tracks rx level since ((value, begin) :: levels) terminal) (hsince : since ≤ t) (hbegin : begin ≤ t)
    (hlater : ∀ later ∈ levels, t < later.2) (hterminal : t < terminal.startTimeNs) :
    ∃ rx' since', decoder.sampleLevel rx t = (.ok (decoder.logical value), rx') ∧ since' ≤ t ∧
      Tracks rx' value since' levels terminal := by
  obtain ⟨rx', hlevel, hleft⟩ := decoder.sampleLevel_eq rx t
  obtain ⟨since', hle, hseek⟩ := seekEdge_levels level value hsince hbegin hlater hterminal
  rw [Tracks] at h
  rw [h, hseek] at hlevel hleft
  refine ⟨rx', since', hlevel, hle, ?_⟩
  rcases hleft with hall | ⟨-, hshort⟩
  · exact hall
  · simp at hshort

@[simp] theorem logical_raw (bit : Bool) : decoder.logical (bit != decoder.invert) = bit := by
  cases bit <;> cases hinvert : decoder.invert <;> simp [logical, hinvert]

def valueOf (decoder : UartDecoder) (bit : Nat → Bool) (indices : List Nat) (value : UInt64) : UInt64 :=
  indices.foldl (fun value i => if bit i then value ||| (1 <<< UInt64.ofNat (decoder.bitPosition i)) else value) value

variable (decoder) in
theorem dataLoop_tracks (t0 value : UInt64) (bits : List Bool) {bit : Nat → Bool} {begin : Nat → UInt64}
    {indices : List Nat} {level : Bool} {since : UInt64}
    (h : Tracks rx level since (indices.map (fun i => (bit i != decoder.invert, begin i)) ++ levels) terminal)
    (hsince : ∀ i ∈ indices, since ≤ decoder.sampleTime t0 (1 + i))
    (hbegin : ∀ i ∈ indices, begin i ≤ decoder.sampleTime t0 (1 + i))
    (hnext : indices.Pairwise fun (i j : Nat) => decoder.sampleTime t0 (1 + i) < begin j)
    (hlater : ∀ i ∈ indices, ∀ later ∈ levels, decoder.sampleTime t0 (1 + i) < later.2)
    (hterminal : ∀ i ∈ indices, decoder.sampleTime t0 (1 + i) < terminal.startTimeNs) :
    ∃ rx' level' since', decoder.dataLoop t0 indices value bits rx =
        (.ok (decoder.valueOf bit indices value, bits ++ indices.map bit), rx') ∧
      Tracks rx' level' since' levels terminal ∧
      (since' = since ∨ ∃ i ∈ indices, since' ≤ decoder.sampleTime t0 (1 + i)) := by
  induction indices generalizing rx level since value bits with
  | nil =>
    refine ⟨rx, level, since, ?_, h, .inl rfl⟩
    rw [dataLoop, List.map_nil, List.append_nil]
    rfl
  | cons i rest ih =>
    obtain ⟨hfirst, hrest⟩ := List.pairwise_cons.mp hnext
    have hbehind : ∀ later ∈ rest.map (fun i => (bit i != decoder.invert, begin i)) ++ levels,
        decoder.sampleTime t0 (1 + i) < later.2 := by
      intro later hmem
      rcases List.mem_append.mp hmem with hmem | hmem
      · obtain ⟨j, hj, rfl⟩ := List.mem_map.mp hmem
        exact hfirst j hj
      · exact hlater i List.mem_cons_self later hmem
    obtain ⟨sampled, since', hlevel, hle, htracks⟩ := decoder.sampleLevel_tracks h
      (hsince i List.mem_cons_self) (hbegin i List.mem_cons_self) hbehind (hterminal i List.mem_cons_self)
    have hsince' (j : Nat) (hj : j ∈ rest) : since' ≤ decoder.sampleTime t0 (1 + j) := by
      have hlt := UInt64.lt_of_lt_of_le (hfirst j hj) (hbegin j (List.mem_cons_of_mem i hj))
      exact UInt64.le_trans hle (UInt64.le_of_lt hlt)
    obtain ⟨rx', level', last, hloop, hend, hlast⟩ := ih _ _ htracks hsince'
      (fun j hj => hbegin j (List.mem_cons_of_mem i hj)) hrest (fun j hj => hlater j (List.mem_cons_of_mem i hj))
      (fun j hj => hterminal j (List.mem_cons_of_mem i hj))
    refine ⟨rx', level', last, ?_, hend, ?_⟩
    · rw [dataLoop, hlevel, logical_raw]
      refine hloop.trans ?_
      rw [List.append_assoc]
      rfl
    · rcases hlast with rfl | ⟨j, hj, hle'⟩
      · exact .inr ⟨i, List.mem_cons_self, hle⟩
      · exact .inr ⟨j, List.mem_cons_of_mem i hj, hle'⟩

theorem valueOf_testBit {bit : Nat → Bool} {indices : List Nat} {value : UInt64}
    (hsmall : ∀ i ∈ indices, decoder.bitPosition i < 64) (j : Nat) :
    (decoder.valueOf bit indices value).toNat.testBit j =
      (value.toNat.testBit j || indices.any fun i => bit i && decide (decoder.bitPosition i = j)) := by
  induction indices generalizing value with
  | nil => simp [valueOf]
  | cons i rest ih =>
    have hpos := hsmall i List.mem_cons_self
    rw [valueOf, List.foldl_cons]
    refine (ih fun k hk => hsmall k (List.mem_cons_of_mem i hk)).trans ?_
    rw [List.any_cons, ← Bool.or_assoc]
    congr 1
    cases hbit : bit i with
    | false => simp
    | true =>
      have hone : ((1 : UInt64) <<< UInt64.ofNat (decoder.bitPosition i)).toNat = 2 ^ decoder.bitPosition i := by
        rw [UInt64.toNat_shiftLeft, UInt64.toNat_ofNat_of_lt' (by rw [UInt64.size]; omega), Nat.mod_eq_of_lt hpos]
        rw [UInt64.toNat_one, Nat.shiftLeft_eq, one_mul]
        exact Nat.mod_eq_of_lt (Nat.pow_lt_pow_right (by decide) hpos)
      rw [if_pos rfl, UInt64.toNat_or, hone, Nat.testBit_or, Nat.testBit_two_pow]
      simp

theorem wireBit_eq (frame : UartFrame) (i : Nat) :
    decoder.wireBit frame i = frame.value.testBit (decoder.bitPosition i) := by
  rw [wireBit, bitPosition]
  cases decoder.bitOrder <;> rfl

theorem bitPosition_lt {i : Nat} (h : i < decoder.dataBits) : decoder.bitPosition i < decoder.dataBits := by
  rw [bitPosition]
  cases decoder.bitOrder with
  | msbFirst =>
    dsimp only
    omega
  | lsbFirst => exact h

theorem bitPosition_bitPosition {i : Nat} (h : i < decoder.dataBits) :
    decoder.bitPosition (decoder.bitPosition i) = i := by
  rw [bitPosition, bitPosition]
  cases decoder.bitOrder with
  | msbFirst =>
    dsimp only
    omega
  | lsbFirst => rfl

variable {frame : UartFrame}

section

variable (hvalue : frame.value < 2 ^ decoder.dataBits)
include hvalue

theorem testBit_of_le {j : Nat} (hj : decoder.dataBits ≤ j) : frame.value.testBit j = false :=
  Nat.testBit_lt_two_pow (Nat.lt_of_lt_of_le hvalue (Nat.pow_le_pow_right (by decide) hj))

theorem value_toNat : (UInt64.ofNat frame.value).toNat = frame.value := by
  have hle : 2 ^ decoder.dataBits ≤ 2 ^ 9 := Nat.pow_le_pow_right (by decide) decoder.dataBits_mem.2
  refine UInt64.toNat_ofNat_of_lt' ?_
  rw [UInt64.size]
  omega

theorem valueOf_wire :
    decoder.valueOf (decoder.wireBit frame) (List.range decoder.dataBits) 0 = UInt64.ofNat frame.value := by
  have hbits := decoder.dataBits_mem
  have hsmall : ∀ i ∈ List.range decoder.dataBits, decoder.bitPosition i < 64 := by
    intro i hi
    have := bitPosition_lt (List.mem_range.mp hi)
    omega
  apply UInt64.toNat_inj.mp
  rw [value_toNat hvalue]
  apply Nat.eq_of_testBit_eq
  intro j
  rw [valueOf_testBit hsmall, UInt64.toNat_zero, Nat.zero_testBit, Bool.false_or]
  by_cases hj : j < decoder.dataBits
  · cases hbit : frame.value.testBit j with
    | true =>
      refine List.any_eq_true.mpr ⟨decoder.bitPosition j, List.mem_range.mpr (bitPosition_lt hj), ?_⟩
      rw [wireBit_eq, bitPosition_bitPosition hj, hbit]
      simp
    | false =>
      refine List.any_eq_false.mpr fun i hi hset => ?_
      obtain ⟨hwire, hpos⟩ := Bool.and_eq_true_iff.mp hset
      rw [wireBit_eq, of_decide_eq_true hpos, hbit] at hwire
      cases hwire
  · rw [testBit_of_le hvalue (Nat.le_of_not_lt hj)]
    refine List.any_eq_false.mpr fun i hi hset => hj ?_
    rw [← of_decide_eq_true (Bool.and_eq_true_iff.mp hset).2]
    exact bitPosition_lt (List.mem_range.mp hi)

end

theorem positions_perm : ((List.range decoder.dataBits).map decoder.bitPosition).Perm (List.range decoder.dataBits) := by
  have hnodup : ((List.range decoder.dataBits).map decoder.bitPosition).Nodup := by
    refine List.Nodup.map_on (fun i hi j hj heq => ?_) List.nodup_range
    rw [← bitPosition_bitPosition (List.mem_range.mp hi), heq, bitPosition_bitPosition (List.mem_range.mp hj)]
  refine (List.perm_ext_iff_of_nodup hnodup List.nodup_range).mpr fun j => ⟨fun hj => ?_, fun hj => ?_⟩
  · obtain ⟨i, hi, rfl⟩ := List.mem_map.mp hj
    exact List.mem_range.mpr (bitPosition_lt (List.mem_range.mp hi))
  · exact List.mem_map.mpr ⟨decoder.bitPosition j, List.mem_range.mpr (bitPosition_lt (List.mem_range.mp hj)),
      bitPosition_bitPosition (List.mem_range.mp hj)⟩

theorem countOnes_wire (hvalue : frame.value < 2 ^ decoder.dataBits) :
    countOnes (.ofNat frame.value) = (List.range decoder.dataBits).countP (decoder.wireBit frame) := by
  have hbits := decoder.dataBits_mem
  have hsplit : List.range 64 = List.range decoder.dataBits ++ List.range' decoder.dataBits (64 - decoder.dataBits) := by
    have happend := List.range'_append_1 (s := 0) (m := decoder.dataBits) (n := 64 - decoder.dataBits)
    rw [Nat.zero_add, Nat.add_sub_cancel' (by omega)] at happend
    rw [List.range_eq_range', List.range_eq_range', happend]
  have hrest : (List.range' decoder.dataBits (64 - decoder.dataBits)).countP frame.value.testBit = 0 := by
    refine List.countP_eq_zero.mpr fun j hj => ?_
    rw [testBit_of_le hvalue (List.mem_range'_1.mp hj).1]
    exact Bool.false_ne_true
  have hwire : decoder.wireBit frame = frame.value.testBit ∘ decoder.bitPosition := funext (wireBit_eq frame)
  rw [countOnes, value_toNat hvalue, hsplit, List.countP_append, hrest, Nat.add_zero, hwire, ← List.countP_map]
  exact (positions_perm.countP_eq _).symm

theorem parityOk_eq_false_iff (hvalue : frame.value < 2 ^ decoder.dataBits) :
    decoder.parityOk (.ofNat frame.value) frame.parityBit = false ↔ decoder.ParityWrong frame := by
  have hones : countOnes (.ofNat frame.value) + frame.parityBit.toNat = decoder.frameOnes frame := by
    rw [countOnes_wire hvalue, frameOnes]
  rw [parityOk, hones]
  unfold ParityWrong
  cases decoder.parity with
  | none => simp
  | odd => simp
  | even => simp
  | mark => simp
  | space => simp

/-- A time so many quarters of a bit behind the start of a frame. -/
def At (decoder : UartDecoder) (t0 : UInt64) (quarters : Nat) (t : UInt64) : Prop :=
  t.toNat = t0.toNat + quarters * (decoder.bitTime / 4)

/-- The times of a frame are whole numbers, and none of them is past the largest one. -/
structure Timed (decoder : UartDecoder) (t0 : UInt64) : Prop where
  exact : 4 * decoder.baud.toNat ∣ 1000000000
  fits : t0.toNat + decoder.frameTime < 2 ^ 64

variable {t0 : UInt64}

section Times

theorem quarter_dvd (h : 4 * decoder.baud.toNat ∣ 1000000000) : 4 ∣ decoder.bitTime := by
  obtain ⟨k, hk⟩ := h
  have hpos : 0 < decoder.baud.toNat := UInt64.lt_iff_toNat_lt.mp decoder.baud_pos
  refine ⟨k, ?_⟩
  rw [bitTime, hk, Nat.mul_comm 4, Nat.mul_assoc, Nat.mul_div_cancel_left _ hpos]

theorem Timed.baud_dvd (h : decoder.Timed t0) : decoder.baud.toNat ∣ 1000000000 :=
  Nat.dvd_trans (Nat.dvd_mul_left _ 4) h.exact

theorem Timed.quarter_pos (h : decoder.Timed t0) : 0 < decoder.bitTime / 4 := by
  have hpos := bitTime_pos h.baud_dvd
  have hdvd := quarter_dvd h.exact
  omega

def frameQuarters (decoder : UartDecoder) : Nat :=
  4 * (1 + decoder.dataBits + decoder.parityBits) + 2 * decoder.stopBits.halves

theorem Timed.frameTime_eq (h : decoder.Timed t0) :
    decoder.frameTime = decoder.frameQuarters * (decoder.bitTime / 4) := by
  obtain ⟨quarter, hquarter⟩ := quarter_dvd h.exact
  rw [frameTime, frameQuarters, hquarter, Nat.mul_div_cancel_left _ (by decide : 0 < 4)]
  rw [show (2 * (1 + decoder.dataBits + decoder.parityBits) + decoder.stopBits.halves) * (4 * quarter) =
    (4 * (1 + decoder.dataBits + decoder.parityBits) + 2 * decoder.stopBits.halves) * quarter * 2 by ring]
  exact Nat.mul_div_cancel _ (by decide)

variable {quarters : Nat}

theorem Timed.fits_quarters (h : decoder.Timed t0) (hle : quarters ≤ decoder.frameQuarters) :
    t0.toNat + quarters * (decoder.bitTime / 4) < 2 ^ 64 := by
  have hfits := h.fits
  have hmul := Nat.mul_le_mul_right (decoder.bitTime / 4) hle
  rw [h.frameTime_eq] at hfits
  omega

theorem Timed.at_round (h : decoder.Timed t0) {x : ℚ} (hx : x = quarters / 4) (hle : quarters ≤ decoder.frameQuarters) :
    decoder.At t0 quarters (t0 + roundU64 (x * decoder.bitNs)) := by
  have hbits := decoder.dataBits_mem
  have hparity := decoder.parityBits_le
  have hhalves := decoder.stopBits.halves_le
  have hround := roundU64_bits h.baud_dvd hx (by rw [frameQuarters] at hle; omega)
  obtain ⟨quarter, hquarter⟩ := quarter_dvd h.exact
  have hwhole : (quarters * decoder.bitTime + 2) / 4 = quarters * (decoder.bitTime / 4) := by
    rw [hquarter, Nat.mul_div_cancel_left _ (by decide : 0 < 4), Nat.mul_left_comm]
    omega
  rw [hwhole] at hround
  rw [At, UInt64.toNat_add, hround, Nat.mod_eq_of_lt (h.fits_quarters hle)]

theorem Timed.at_bitStart (h : decoder.Timed frame.startNs) {k : Nat}
    (hk : 4 * k ≤ decoder.frameQuarters) : decoder.At frame.startNs (4 * k) (decoder.bitStart frame k) := by
  have hfits := h.fits_quarters hk
  obtain ⟨quarter, hquarter⟩ := quarter_dvd h.exact
  have hwhole : 4 * k * (decoder.bitTime / 4) = k * decoder.bitTime := by
    rw [hquarter, Nat.mul_div_cancel_left _ (by decide : 0 < 4)]
    ring
  rw [hwhole] at hfits
  rw [At, bitStart, UInt64.toNat_add, UInt64.toNat_ofNat_of_lt' (by rw [UInt64.size]; omega), hwhole,
    Nat.mod_eq_of_lt hfits]

theorem Timed.at_sampleTime (h : decoder.Timed t0) {i : Nat} (hi : 4 * (1 + i) + 2 ≤ decoder.frameQuarters) :
    decoder.At t0 (4 * (1 + i) + 2) (decoder.sampleTime t0 (1 + i)) :=
  h.at_round (by push_cast; ring) hi

theorem Timed.at_stopTime (h : decoder.Timed t0) : decoder.At t0
    (4 * (1 + decoder.dataBits + decoder.parityBits) + min decoder.stopBits.halves 2) (decoder.stopTime t0) := by
  refine h.at_round ?_ ?_
  · rw [UartStopBits.min_bits_eq]
    push_cast
    ring
  · rw [frameQuarters]
    omega

variable {s t : UInt64}

theorem Timed.lt (h : decoder.Timed t0) {a b : Nat} (hs : decoder.At t0 a s) (ht : decoder.At t0 b t) (hlt : a < b) :
    s < t := by
  have hmul := Nat.mul_lt_mul_of_pos_right hlt h.quarter_pos
  rw [UInt64.lt_iff_toNat_lt, hs, ht]
  omega

theorem Timed.le {a b : Nat} (hs : decoder.At t0 a s) (ht : decoder.At t0 b t) (hle : a ≤ b) : s ≤ t := by
  have hmul := Nat.mul_le_mul_right (decoder.bitTime / 4) hle
  rw [UInt64.le_iff_toNat_le, hs, ht]
  omega

theorem Timed.lt_end (h : decoder.Timed t0) (hs : decoder.At t0 quarters s) (hlt : quarters < decoder.frameQuarters)
    (ht : t0.toNat + decoder.frameTime ≤ t.toNat) : s < t := by
  have hmul := Nat.mul_lt_mul_of_pos_right hlt h.quarter_pos
  rw [h.frameTime_eq] at ht
  rw [UInt64.lt_iff_toNat_lt, hs]
  omega

end Times

def tailLevels (decoder : UartDecoder) (frame : UartFrame) : List (Bool × UInt64) :=
  (if decoder.parity = .none then []
    else [(frame.parityBit != decoder.invert, decoder.bitStart frame (1 + decoder.dataBits))]) ++
  [(decoder.idleLevel, decoder.bitStart frame (1 + decoder.dataBits + decoder.parityBits))]

theorem mem_tailLevels {next : Bool × UInt64} (h : next ∈ decoder.tailLevels frame) :
    ∃ k, 1 + decoder.dataBits ≤ k ∧ k ≤ 1 + decoder.dataBits + decoder.parityBits ∧
      next.2 = decoder.bitStart frame k := by
  rw [tailLevels] at h
  rcases List.mem_append.mp h with h | h
  · split at h
    · cases h
    · rw [List.mem_singleton.mp h]
      exact ⟨_, Nat.le_refl _, Nat.le_add_right _ _, rfl⟩
  · rw [List.mem_singleton.mp h]
    exact ⟨_, Nat.le_add_right _ _, Nat.le_refl _, rfl⟩

section Frame

variable {later : List (Bool × UInt64)} {level : Bool} {since : UInt64}
  (h : decoder.Timed frame.startNs) (hstop : decoder.stopBits ≠ .s0)
  (hlater : ∀ next ∈ later, frame.startNs.toNat + decoder.frameTime ≤ next.2.toNat)
  (hterminal : frame.startNs.toNat + decoder.frameTime ≤ terminal.startTimeNs.toNat)

include h hstop hlater hterminal

theorem sampleStop_tracks
    (htracks : Tracks rx level since
      ((decoder.idleLevel, decoder.bitStart frame (1 + decoder.dataBits + decoder.parityBits)) :: later) terminal)
    (hsince : since ≤ decoder.stopTime frame.startNs) :
    ∃ rx' since', decoder.sampleStop frame.startNs rx = (.ok false, rx') ∧
      Tracks rx' decoder.idleLevel since' later terminal := by
  have hhalves : 1 ≤ decoder.stopBits.halves := by
    cases hbits : decoder.stopBits with
    | s0 => exact absurd hbits hstop
    | s0_5 | s1 | s1_5 | s2 => decide
  have htime := h.at_stopTime
  have hlast : 4 * (1 + decoder.dataBits + decoder.parityBits) + min decoder.stopBits.halves 2 <
      decoder.frameQuarters := by
    rw [frameQuarters]
    omega
  have hbegin := h.at_bitStart (k := 1 + decoder.dataBits + decoder.parityBits) (by omega)
  obtain ⟨rx', since', hlevel, -, hend⟩ := decoder.sampleLevel_tracks htracks hsince
    (Timed.le hbegin htime (by omega)) (fun next hmem => h.lt_end htime hlast (hlater next hmem))
    (h.lt_end htime hlast hterminal)
  refine ⟨rx', since', ?_, hend⟩
  have hmark : decoder.logical decoder.idleLevel = true := by
    rw [idleLevel, logical]
    cases decoder.invert <;> rfl
  rw [sampleStop, if_pos ((UartStopBits.bits_pos_iff _).mpr hstop), hlevel, hmark]
  rfl

omit hstop in
theorem sampleParity_tracks (hvalue : frame.value < 2 ^ decoder.dataBits)
    (htracks : Tracks rx level since (decoder.tailLevels frame ++ later) terminal)
    (hsince : since.toNat ≤ frame.startNs.toNat + (4 * decoder.dataBits + 2) * (decoder.bitTime / 4)) :
    ∃ rx' level' since', decoder.sampleParity frame.startNs (.ofNat frame.value) rx =
        (.ok (decoder.checkParity && decide (decoder.ParityWrong frame)), rx') ∧
      Tracks rx' level' since'
        ((decoder.idleLevel, decoder.bitStart frame (1 + decoder.dataBits + decoder.parityBits)) :: later) terminal ∧
      since' ≤ decoder.stopTime frame.startNs := by
  have hbound {quarters : Nat} {t : UInt64} (ht : decoder.At frame.startNs quarters t)
      (hle : 4 * decoder.dataBits + 2 ≤ quarters) : since ≤ t := by
    have hmul := Nat.mul_le_mul_right (decoder.bitTime / 4) hle
    rw [UInt64.le_iff_toNat_le, ht]
    omega
  by_cases hparity : decoder.parity = .none
  · have hnone : decoder.tailLevels frame =
        [(decoder.idleLevel, decoder.bitStart frame (1 + decoder.dataBits + decoder.parityBits))] := by
      rw [tailLevels, if_pos hparity, List.nil_append]
    have hright : decide (decoder.ParityWrong frame) = false := by
      refine decide_eq_false ?_
      rw [ParityWrong, hparity]
      exact id
    rw [hnone] at htracks
    rw [sampleParity, if_pos hparity, hright, Bool.and_false]
    exact ⟨rx, level, since, rfl, htracks, hbound h.at_stopTime (by omega)⟩
  · have hone : decoder.parityBits = 1 := if_neg hparity
    have hwrong : (!decoder.parityOk (.ofNat frame.value) frame.parityBit) = decide (decoder.ParityWrong frame) := by
      rw [Bool.eq_iff_iff, Bool.not_eq_true', decide_eq_true_iff]
      exact parityOk_eq_false_iff hvalue
    have hquarters : 4 * (2 + decoder.dataBits) ≤ decoder.frameQuarters := by
      rw [frameQuarters, hone]
      omega
    have htime := h.at_sampleTime (i := decoder.dataBits) (by omega)
    have hbegin := h.at_bitStart (k := 1 + decoder.dataBits) (by omega)
    have hstopBegin := h.at_bitStart (k := 1 + decoder.dataBits + decoder.parityBits) (by rw [frameQuarters]; omega)
    rw [tailLevels, if_neg hparity, List.append_assoc] at htracks
    have hbehind : ∀ next ∈ (decoder.idleLevel, decoder.bitStart frame (1 + decoder.dataBits + decoder.parityBits)) :: later,
        decoder.sampleTime frame.startNs (1 + decoder.dataBits) < next.2 := by
      intro next hmem
      rcases List.mem_cons.mp hmem with rfl | hmem
      · exact h.lt htime hstopBegin (by omega)
      · exact h.lt_end htime (by omega) (hlater next hmem)
    obtain ⟨rx', since', hlevel, hle, hend⟩ := decoder.sampleLevel_tracks htracks (hbound htime (by omega))
      (Timed.le hbegin htime (by omega)) hbehind (h.lt_end htime (by omega) hterminal)
    refine ⟨rx', _, since', ?_, hend, UInt64.le_trans hle (Timed.le htime h.at_stopTime (by omega))⟩
    rw [sampleParity, if_neg hparity, hlevel, logical_raw, ← hwrong]

/-- A frame is decoded from its start edge on, and the channel then holds the idle line behind it. -/
theorem sampleFrame_tracks (hvalue : frame.value < 2 ^ decoder.dataBits)
    (htracks : Tracks rx decoder.invert frame.startNs ((List.range decoder.dataBits).map (fun i =>
      (decoder.wireBit frame i != decoder.invert, decoder.bitStart frame (1 + i))) ++
        (decoder.tailLevels frame ++ later)) terminal) :
    ∃ rx' since', decoder.sampleFrame frame.startNs rx = (.ok (.ofNat frame.value,
        (List.range decoder.dataBits).map (decoder.wireBit frame),
        decoder.checkParity && decide (decoder.ParityWrong frame)), rx') ∧
      Tracks rx' decoder.idleLevel since' later terminal := by
  have hdata (i : Nat) (hi : i ∈ List.range decoder.dataBits) :
      4 * (1 + i) + 2 ≤ 4 * decoder.dataBits + 2 := by
    have := List.mem_range.mp hi
    omega
  have hquarters : 4 * decoder.dataBits + 4 ≤ decoder.frameQuarters := by
    rw [frameQuarters]
    omega
  have htime (i : Nat) (hi : i ∈ List.range decoder.dataBits) := h.at_sampleTime (i := i) (by have := hdata i hi; omega)
  have hbegin (i : Nat) (hi : i ∈ List.range decoder.dataBits) := h.at_bitStart (k := 1 + i) (by have := hdata i hi; omega)
  have hstart : decoder.At frame.startNs 0 frame.startNs := by
    rw [At, Nat.zero_mul, Nat.add_zero]
  have hbehind : ∀ i ∈ List.range decoder.dataBits, ∀ next ∈ decoder.tailLevels frame ++ later,
      decoder.sampleTime frame.startNs (1 + i) < next.2 := by
    intro i hi next hmem
    have hle := hdata i hi
    rcases List.mem_append.mp hmem with hmem | hmem
    · obtain ⟨k, hk, hk', hnext⟩ := mem_tailLevels hmem
      rw [hnext]
      exact h.lt (htime i hi) (h.at_bitStart (k := k) (by rw [frameQuarters]; omega)) (by omega)
    · exact h.lt_end (htime i hi) (by omega) (hlater next hmem)
  obtain ⟨sampled, level, since, hloop, hrest, hlast⟩ := decoder.dataLoop_tracks frame.startNs 0 [] htracks
    (fun i hi => Timed.le hstart (htime i hi) (Nat.zero_le _))
    (fun i hi => Timed.le (hbegin i hi) (htime i hi) (by omega))
    (List.Pairwise.imp_of_mem (fun {i j} hi hj hlt => h.lt (htime i hi) (hbegin j hj) (by omega)) List.pairwise_lt_range)
    hbehind (fun i hi => h.lt_end (htime i hi) (by have := hdata i hi; omega) hterminal)
  have hsince : since.toNat ≤ frame.startNs.toNat + (4 * decoder.dataBits + 2) * (decoder.bitTime / 4) := by
    rcases hlast with rfl | ⟨i, hi, hle⟩
    · exact Nat.le_add_right _ _
    · have hmul := Nat.mul_le_mul_right (decoder.bitTime / 4) (hdata i hi)
      rw [UInt64.le_iff_toNat_le, htime i hi] at hle
      omega
  obtain ⟨checked, level', since', hparity, hrest, hsince'⟩ :=
    sampleParity_tracks h hlater hterminal hvalue hrest hsince
  obtain ⟨rx', since'', hstops, hend⟩ := sampleStop_tracks h hstop hlater hterminal hrest hsince'
  refine ⟨rx', since'', ?_, hend⟩
  rw [valueOf_wire hvalue, List.nil_append] at hloop
  rw [sampleFrame, hloop]
  dsimp only
  rw [hparity]
  dsimp only
  rw [hstops]
  dsimp only
  rw [Bool.or_false]

end Frame

theorem frameLevels_eq (frame : UartFrame) : decoder.frameLevels frame =
    (decoder.invert, frame.startNs) :: ((List.range decoder.dataBits).map (fun i =>
      (decoder.wireBit frame i != decoder.invert, decoder.bitStart frame (1 + i))) ++ decoder.tailLevels frame) := by
  have hstart : decoder.bitStart frame 0 = frame.startNs := by
    rw [bitStart, Nat.zero_mul]
    exact UInt64.add_zero _
  rw [frameLevels, hstart, List.cons_append, List.cons_append, List.append_assoc]
  rfl

theorem Timed.le_levels (h : decoder.Timed frame.startNs) {next : Bool × UInt64}
    (hmem : next ∈ decoder.frameLevels frame) : frame.startNs.toNat ≤ next.2.toNat := by
  have hat {k : Nat} (hk : 4 * k ≤ decoder.frameQuarters) :
      frame.startNs.toNat ≤ (decoder.bitStart frame k).toNat := by
    rw [h.at_bitStart hk]
    exact Nat.le_add_right _ _
  rw [frameLevels_eq] at hmem
  rcases List.mem_cons.mp hmem with rfl | hmem
  · exact Nat.le_refl _
  · rcases List.mem_append.mp hmem with hmem | hmem
    · obtain ⟨i, hi, rfl⟩ := List.mem_map.mp hmem
      have := List.mem_range.mp hi
      exact hat (by rw [frameQuarters]; omega)
    · obtain ⟨k, -, hk, hnext⟩ := mem_tailLevels hmem
      rw [hnext]
      exact hat (by rw [frameQuarters]; omega)

theorem huntEdges_start {lead rest : List Sample} {start : Sample} (hlead : ∀ edge ∈ lead, edge.value = decoder.idleLevel)
    (hstart : start.value = decoder.invert) (hresume : decoder.resumeAfter ≤ start.startTimeNs) :
    decoder.huntEdges (lead ++ start :: rest) = start :: rest := by
  have hskip : ∀ edge ∈ lead, (!decoder.isStart edge) = true := by
    intro edge hmem
    rw [isStart, hlead edge hmem, idleLevel]
    cases decoder.invert <;> rfl
  have hfound : (!decoder.isStart start) = false := by
    rw [isStart, hstart, beq_self_eq_true, decide_eq_true hresume]
    rfl
  rw [huntEdges, List.dropWhile_append_of_pos hskip, List.dropWhile_cons, hfound]
  rfl

theorem huntEdges_idle {edges : List Sample} (h : ∀ edge ∈ edges, edge.value = decoder.idleLevel) :
    decoder.huntEdges edges = [] := by
  refine List.dropWhile_eq_nil_iff.mpr fun edge hmem => ?_
  rw [isStart, h edge hmem, idleLevel]
  cases decoder.invert <;> rfl

theorem not_ended_of_available {item : Sample} {items : List Sample} (h : rx.available = item :: items) :
    rx.eos = false := by
  cases heos : rx.eos with
  | false => rfl
  | true =>
    rw [available_ended heos] at h
    cases h

theorem Timed.resumeTime_le (h : decoder.Timed t0) (hstop : decoder.stopBits ≠ .s0) {t : UInt64}
    (ht : t0.toNat + decoder.frameTime ≤ t.toNat) : decoder.resumeTime t0 ≤ t := by
  have hhalves : 1 ≤ decoder.stopBits.halves := by
    cases hbits : decoder.stopBits with
    | s0 => exact absurd hbits hstop
    | s0_5 | s1 | s1_5 | s2 => decide
  have hat : decoder.At t0 (decoder.frameQuarters - 1) (decoder.resumeTime t0) := by
    refine h.at_round ?_ (Nat.sub_le _ _)
    have hpos : 1 ≤ decoder.frameQuarters := by
      rw [frameQuarters]
      omega
    rw [Nat.cast_sub hpos, frameLenBits, UartStopBits.bits_eq, frameQuarters]
    push_cast
    ring
  exact UInt64.le_of_lt (h.lt_end hat (by rw [frameQuarters]; omega) ht)

/-- A list of frames that fit on a line up to a time, each behind the end of the one before. -/
structure OnLine (decoder : UartDecoder) (frames : List UartFrame) (endNs : UInt64) : Prop where
  value : ∀ frame ∈ frames, frame.value < 2 ^ decoder.dataBits
  spaced : frames.Pairwise fun first second => first.startNs.toNat + decoder.frameTime ≤ second.startNs.toNat
  ended : ∀ frame ∈ frames, frame.startNs.toNat + decoder.frameTime ≤ endNs.toNat

def lineEdges (decoder : UartDecoder) (frames : List UartFrame) (endNs : UInt64) : List Sample :=
  levelChanges decoder.idleLevel (frames.flatMap decoder.frameLevels) ++ [⟨decoder.idleLevel, endNs⟩]

variable {frames : List UartFrame} {endNs : UInt64} {first : UartFrame} {lead : List Sample}

theorem OnLine.tail (h : decoder.OnLine (first :: frames) endNs) : decoder.OnLine frames endNs :=
  ⟨fun frame hmem => h.value frame (List.mem_cons_of_mem _ hmem), (List.pairwise_cons.mp h.spaced).2,
    fun frame hmem => h.ended frame (List.mem_cons_of_mem _ hmem)⟩

theorem OnLine.timed (h : decoder.OnLine frames endNs) (hexact : 4 * decoder.baud.toNat ∣ 1000000000)
    (hmem : frame ∈ frames) : decoder.Timed frame.startNs :=
  ⟨hexact, Nat.lt_of_le_of_lt (h.ended frame hmem) endNs.toNat_lt⟩

theorem OnLine.behind (h : decoder.OnLine (first :: frames) endNs)
    (hexact : 4 * decoder.baud.toNat ∣ 1000000000) :
    ∀ next ∈ frames.flatMap decoder.frameLevels, first.startNs.toNat + decoder.frameTime ≤ next.2.toNat := by
  intro next hmem
  obtain ⟨frame, hframe, hlevel⟩ := List.mem_flatMap.mp hmem
  have htimed := h.timed hexact (List.mem_cons_of_mem first hframe)
  exact Nat.le_trans ((List.pairwise_cons.mp h.spaced).1 frame hframe) (htimed.le_levels hlevel)

theorem work_frame (outputs : UartOutputs) (hexact : 4 * decoder.baud.toNat ∣ 1000000000)
    (hstop : decoder.stopBits ≠ .s0) (h : decoder.OnLine (frame :: frames) endNs)
    (hresume : decoder.resumeAfter ≤ frame.startNs) (hlead : ∀ edge ∈ lead, edge.value = decoder.idleLevel)
    (hrx : rx.available = lead ++ decoder.lineEdges (frame :: frames) endNs) :
    ∃ rx' since, decoder.work (some rx) outputs = decoder.emit rx' outputs frame.startNs (.ofNat frame.value)
        ((List.range decoder.dataBits).map (decoder.wireBit frame))
        (decoder.checkParity && decide (decoder.ParityWrong frame)) ∧
      rx'.available = ⟨decoder.idleLevel, since⟩ :: decoder.lineEdges frames endNs := by
  have htimed := h.timed hexact List.mem_cons_self
  have hfall : ¬decoder.invert = decoder.idleLevel := by
    rw [idleLevel]
    cases decoder.invert <;> decide
  have hedges : decoder.lineEdges (frame :: frames) endNs = ⟨decoder.invert, frame.startNs⟩ ::
      (levelChanges decoder.invert ((List.range decoder.dataBits).map (fun i =>
        (decoder.wireBit frame i != decoder.invert, decoder.bitStart frame (1 + i))) ++
          (decoder.tailLevels frame ++ frames.flatMap decoder.frameLevels)) ++ [⟨decoder.idleLevel, endNs⟩]) := by
    rw [lineEdges, List.flatMap_cons, frameLevels_eq, List.cons_append, levelChanges, if_neg hfall, List.cons_append,
      List.append_assoc]
  rw [hedges] at hrx
  have hhunt {rest : List Sample} : decoder.huntEdges (lead ++ ⟨decoder.invert, frame.startNs⟩ :: rest) =
      ⟨decoder.invert, frame.startNs⟩ :: rest := huntEdges_start hlead rfl hresume
  obtain ⟨hunted, havailable, hwork⟩ := decoder.work_hunted outputs ((congrArg _ hrx).trans hhunt)
  obtain ⟨rx', since, hframe, hrest⟩ := sampleFrame_tracks htimed hstop (h.behind hexact)
    (h.ended frame List.mem_cons_self) (h.value frame List.mem_cons_self) havailable
  refine ⟨rx', since, ?_, hrest⟩
  rw [hwork, hframe]

theorem run_frames {bits parts : Bool} {calls : Nat} (hexact : 4 * decoder.baud.toNat ∣ 1000000000)
    (hstop : decoder.stopBits ≠ .s0) (h : decoder.OnLine frames endNs) (hfinished : decoder.finished = false)
    (hresume : ∀ frame ∈ frames, decoder.resumeAfter ≤ frame.startNs)
    (hlead : ∀ edge ∈ lead, edge.value = decoder.idleLevel)
    (hrx : rx.available = lead ++ decoder.lineEdges frames endNs) (hcalls : frames.length < calls) :
    ∃ words errors, run ⟨true, true, bits, parts⟩ calls decoder (some rx) = some (words, errors) ∧
      streamItems words = frames.map (fun frame => decoder.frameWord frame.startNs (.ofNat frame.value)) ∧
      streamItems errors = (frames.filter fun frame => decoder.checkParity && decide (decoder.ParityWrong frame)).map
        fun frame => ⟨frame.startNs⟩ := by
  obtain ⟨calls, rfl⟩ := Nat.exists_eq_add_of_le' (Nat.lt_of_le_of_lt (Nat.zero_le _) hcalls)
  induction frames generalizing decoder rx lead calls with
  | nil =>
    have hidle : ∀ edge ∈ rx.available, edge.value = decoder.idleLevel := by
      intro edge hmem
      rw [hrx] at hmem
      rcases List.mem_append.mp hmem with hmem | hmem
      · exact hlead edge hmem
      · rw [List.mem_singleton.mp hmem]
    obtain ⟨rx', hwork⟩ := decoder.work_idle ⟨true, true, bits, parts⟩ (huntEdges_idle hidle)
    refine ⟨[], [], ?_, rfl, rfl⟩
    rw [run, hfinished, hwork]
    rfl
  | cons frame frames ih =>
    obtain ⟨rx', since, hwork, hrest⟩ := work_frame ⟨true, true, bits, parts⟩ hexact hstop h
      (hresume frame List.mem_cons_self) hlead hrx
    have hstarts := (List.pairwise_cons.mp h.spaced).1
    have htimed := h.timed hexact List.mem_cons_self
    obtain ⟨calls, rfl⟩ := Nat.exists_eq_add_of_le' (show 1 ≤ calls by simp only [List.length_cons] at hcalls; omega)
    -- the node differs from the decoder in its counters only, and is not stopped
    obtain ⟨words, errors, hrun, hwords, herrors⟩ := @ih
      (decoder.emit rx' ⟨true, true, bits, parts⟩ frame.startNs (.ofNat frame.value)
        ((List.range decoder.dataBits).map (decoder.wireBit frame))
        (decoder.checkParity && decide (decoder.ParityWrong frame))).node rx' [⟨decoder.idleLevel, since⟩]
      hexact hstop ⟨h.tail.value, h.tail.spaced, h.tail.ended⟩ (not_ended_of_available hrest)
      (fun next hmem => htimed.resumeTime_le hstop (hstarts next hmem))
      (fun edge hmem => by rw [List.mem_singleton.mp hmem]; rfl) hrest calls
      (by simp only [List.length_cons] at hcalls; omega)
    have hcall : run ⟨true, true, bits, parts⟩ (calls + 1 + 1) decoder (some rx) =
        some (.sample (decoder.frameWord frame.startNs (.ofNat frame.value)) :: words,
          (if (decoder.checkParity && decide (decoder.ParityWrong frame)) && true then [.sample ⟨frame.startNs⟩] else []) ++
            errors) := by
      rw [run, hfinished, hwork]
      exact congrArg (Option.map _) hrun
    refine ⟨_, _, hcall, ?_, ?_⟩
    · exact congrArg (List.cons _) hwords
    · rw [Bool.and_true, List.filter_cons]
      split
      · exact congrArg (List.cons _) herrors
      · exact herrors

/-- A decoder as the builder calls make it, before its first call. -/
def Fresh (decoder : UartDecoder) : Prop := decoder.resumeAfter = 0 ∧ decoder.finished = false

end UartDecoder

/-- Decoding the edges of an idle line with frames, up to a sample of its level behind them, gives one word for each
frame, and an error for each whose parity bit is checked and wrong. -/
theorem uart_round_trip {decoder : UartDecoder} (fresh : decoder.Fresh)
    (hexact : 4 * decoder.baud.toNat ∣ 1000000000) (hstop : decoder.stopBits ≠ .s0) {frames : List UartFrame}
    {endNs : UInt64} (onLine : decoder.OnLine frames endNs) {lead : List Sample}
    (hlead : ∀ edge ∈ lead, edge.value = decoder.idleLevel) {messages : List (ChannelMessage Sample)}
    (hitems : streamItems messages = lead ++ decoder.lineEdges frames endNs) (bits parts : Bool) {calls : Nat}
    (hcalls : frames.length < calls) :
    ∃ words errors, UartDecoder.run ⟨true, true, bits, parts⟩ calls decoder (some (.new messages)) =
        some (words, errors) ∧
      streamItems words = frames.map (fun frame => decoder.frameWord frame.startNs (.ofNat frame.value)) ∧
      streamItems errors = (frames.filter fun frame => decoder.checkParity && decide (decoder.ParityWrong frame)).map
        fun frame => ⟨frame.startNs⟩ := by
  refine UartDecoder.run_frames hexact hstop onLine fresh.2 (fun frame _ => ?_) hlead hitems hcalls
  rw [fresh.1]
  exact UInt64.zero_le

/-- A frame with a wrong parity bit and one right behind it. -/
theorem even_frames_decoded :
    let decoder := (UartDecoder.new 1000000 8 (by decide) (by decide)).withParity .even true
    let frames : List UartFrame := [⟨10000, 3, true⟩, ⟨21000, 85, false⟩]
    ∃ words errors, UartDecoder.run ⟨true, true, false, false⟩ 3 decoder
        (some (.new [.batch (⟨true, 0⟩ :: decoder.lineEdges frames 32000)])) = some (words, errors) ∧
      streamItems words = frames.map (fun frame => decoder.frameWord frame.startNs (.ofNat frame.value)) ∧
      streamItems errors = (frames.filter fun frame => true && decide (decoder.ParityWrong frame)).map
        fun frame => ⟨frame.startNs⟩ := by
  intro decoder frames
  have honLine : decoder.OnLine frames 32000 := ⟨by decide, by decide, by decide⟩
  have hlead : ∀ edge ∈ ([⟨true, 0⟩] : List Sample), edge.value = decoder.idleLevel := by decide
  exact uart_round_trip ⟨rfl, rfl⟩ (by decide) (by decide) honLine hlead (List.append_nil _) false false (by decide)

end LogicConduit
