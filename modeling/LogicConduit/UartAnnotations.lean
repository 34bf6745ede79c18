import LogicConduit.UartSampling

namespace LogicConduit

/-- Every edge left lies at or behind a time. -/
def Inbox.From (t0 : UInt64) (rx : Inbox Sample) : Prop := ∀ edge ∈ rx.available, t0 ≤ edge.startTimeNs

namespace UartDecoder

variable {decoder : UartDecoder} {t0 : UInt64} {rx : Inbox Sample}

variable {rx' : Inbox Sample}

section

variable (hfrom : rx.From t0)
include hfrom

variable {wrong : Bool}

theorem sampleLevel_from {t : UInt64} {bit : Bool} (h : decoder.sampleLevel rx t = (.ok bit, rx')) :
    t0 ≤ t ∧ rx'.From t0 := by
  obtain ⟨next, hlevel, hleft⟩ := decoder.sampleLevel_eq rx t
  obtain ⟨hresult, rfl⟩ := Prod.mk.inj (hlevel.symm.trans h)
  cases hseek : seekEdge t rx.available with
  | none =>
    rw [hseek] at hresult
    cases hresult
  | some found =>
    obtain ⟨hsuffix, edge, hmem, hle⟩ := seekEdge_some hseek
    rw [hseek] at hleft
    refine ⟨UInt64.le_trans (hfrom edge hmem) hle, fun left hmem => hfrom left ?_⟩
    rcases hleft with hall | ⟨hnone, -⟩
    · rw [hall] at hmem
      exact hsuffix.subset hmem
    · rw [hnone] at hmem
      cases hmem

theorem dataLoop_from {indices : List Nat} {value value' : UInt64} {bits bits' : List Bool}
    (h : decoder.dataLoop t0 indices value bits rx = (.ok (value', bits'), rx')) :
    rx'.From t0 ∧ bits'.length = bits.length + indices.length ∧ ∀ i ∈ indices, t0 ≤ decoder.sampleTime t0 (1 + i) := by
  induction indices generalizing value bits rx with
  | nil =>
    rw [dataLoop] at h
    cases h
    exact ⟨hfrom, rfl, fun i hi => by cases hi⟩
  | cons i rest ih =>
    rw [dataLoop] at h
    rcases hlevel : decoder.sampleLevel rx (decoder.sampleTime t0 (1 + i)) with ⟨result, next⟩
    rw [hlevel] at h
    cases result with
    | error error => cases h
    | ok bit =>
      obtain ⟨hle, hnext⟩ := sampleLevel_from hfrom hlevel
      obtain ⟨hlast, hlength, hrest⟩ := ih hnext h
      refine ⟨hlast, ?_, fun j hj => ?_⟩
      · rw [hlength, List.length_append, List.length_singleton, List.length_cons]
        omega
      · rcases List.mem_cons.mp hj with rfl | hj
        · exact hle
        · exact hrest j hj

theorem sampleParity_from {value : UInt64}
    (h : decoder.sampleParity t0 value rx = (.ok wrong, rx')) : rx'.From t0 := by
  rw [sampleParity] at h
  split at h
  · cases h
    exact hfrom
  · split at h
    · cases h
    · next hlevel =>
      cases h
      exact (sampleLevel_from hfrom hlevel).2

theorem sampleStop_from (h : decoder.sampleStop t0 rx = (.ok wrong, rx'))
    (hstop : decoder.stopBits ≠ .s0) : t0 ≤ decoder.stopTime t0 := by
  rw [sampleStop, if_pos ((UartStopBits.bits_pos_iff _).mpr hstop)] at h
  split at h
  · cases h
  · next hlevel => exact (sampleLevel_from hfrom hlevel).1

theorem sampleFrame_from {value : UInt64} {bits : List Bool} {frameError : Bool}
    (h : decoder.sampleFrame t0 rx = (.ok (value, bits, frameError), rx')) :
    bits.length = decoder.dataBits ∧ (∀ i < decoder.dataBits, t0 ≤ decoder.sampleTime t0 (1 + i)) ∧
      (decoder.stopBits ≠ .s0 → t0 ≤ decoder.stopTime t0) := by
  rw [sampleFrame] at h
  split at h
  · cases h
  · next hdata =>
    obtain ⟨hfrom, hlength, htimes⟩ := dataLoop_from hfrom hdata
    split at h
    · cases h
    · next hparity =>
      have hfrom := sampleParity_from hfrom hparity
      split at h
      · cases h
      · next hstop =>
        cases h
        rw [List.length_nil, Nat.zero_add, List.length_range] at hlength
        exact ⟨hlength, fun i hi => htimes i (List.mem_range.mpr hi), sampleStop_from hfrom hstop⟩

end

end UartDecoder

def Word.Covers (word : Word) (start length : Nat) : Prop :=
  word.timestampNs.toNat = start ∧ word.durationNs.toNat = length

instance (word : Word) (start length : Nat) : Decidable (word.Covers start length) :=
  inferInstanceAs (Decidable (_ ∧ _))

namespace UartDecoder

variable {decoder : UartDecoder} {t0 value : UInt64} {a b : UInt64}

/-- The annotations of a frame cover the intervals that its samples are taken in: the bits one after the other behind
the start bit, the parts of the frame in order inside its word, and the stop part what lies behind all its bits. -/
structure Annotates (decoder : UartDecoder) (word : Word) (bits frame : List Word) : Prop where
  bitCount : bits.length = decoder.dataBits
  bit : ∀ i < bits.length, ∃ bit ∈ bits[i]?,
    bit.Covers (word.timestampNs.toNat + (1 + i) * decoder.bitTime) decoder.bitTime
  ordered : frame.Pairwise fun a b => a.timestampNs.toNat + a.durationNs.toNat ≤ b.timestampNs.toNat
  inside : ∀ part ∈ frame, word.timestampNs.toNat ≤ part.timestampNs.toNat ∧
    part.timestampNs.toNat + part.durationNs.toNat ≤ word.timestampNs.toNat + word.durationNs.toNat
  stop : decoder.stopBits ≠ .s0 → ∃ stop ∈ frame[2]?,
    stop.Covers (word.timestampNs.toNat + (1 + decoder.dataBits + decoder.parityBits) * decoder.bitTime)
      ((2 * decoder.stopBits.halves * decoder.bitTime + 2) / 4)

theorem toNat_add_of_le (h : a ≤ a + b) : (a + b).toNat = a.toNat + b.toNat := by
  rw [UInt64.le_iff_toNat_le, UInt64.toNat_add] at h
  rw [UInt64.toNat_add]
  have ha := a.toNat_lt
  have hb := b.toNat_lt
  omega

theorem toNat_add_of_lt (h : a.toNat + b.toNat < 2 ^ 64) : (a + b).toNat = a.toNat + b.toNat := by
  rw [UInt64.toNat_add, Nat.mod_eq_of_lt h]

section Exact

variable (hexact : decoder.baud.toNat ∣ 1000000000)

include hexact

theorem bitDuration_toNat : decoder.bitDuration.toNat = decoder.bitTime := by
  have h := roundU64_bits (x := 1) (q := 4) hexact (by norm_num) (by norm_num)
  rw [one_mul] at h
  rw [bitDuration, h]
  omega

theorem sampleTime_fits {i : Nat} (hi : i ≤ 9) (h : t0 ≤ decoder.sampleTime t0 (1 + i)) :
    t0.toNat + (1 + i) * decoder.bitTime < 2 ^ 64 := by
  have hoffset := roundU64_bits (x := 1 + i + 1 / 2) (q := 4 * (1 + i) + 2) hexact
    (by push_cast; ring) (by omega)
  have hsum := toNat_add_of_le h
  have hlt := (decoder.sampleTime t0 (1 + i)).toNat_lt
  rw [sampleTime, hsum, hoffset, Nat.add_mul, Nat.mul_assoc] at hlt
  omega

theorem stopTime_fits (h : t0 ≤ decoder.stopTime t0) :
    t0.toNat + (1 + decoder.dataBits + decoder.parityBits) * decoder.bitTime < 2 ^ 64 := by
  have hbits := decoder.dataBits_mem
  have hparity : decoder.parityBits ≤ 1 := decoder.parityBits_le
  have hoffset := roundU64_bits (x := 1 + (decoder.dataBits + decoder.parityBits : Nat) + min decoder.stopBits.bits 1 / 2)
    (q := 4 * (1 + decoder.dataBits + decoder.parityBits) + min decoder.stopBits.halves 2) hexact
    (by rw [UartStopBits.min_bits_eq]; push_cast; ring) (by omega)
  have hsum := toNat_add_of_le h
  have hlt := (decoder.stopTime t0).toNat_lt
  rw [stopTime, hsum, hoffset, Nat.add_mul, Nat.mul_assoc] at hlt
  omega

theorem frameWord_length : (decoder.frameWord t0 value).durationNs.toNat =
    ((4 * (1 + decoder.dataBits + decoder.parityBits) + 2 * decoder.stopBits.halves) * decoder.bitTime + 2) / 4 := by
  have hbits := decoder.dataBits_mem
  have hparity : decoder.parityBits ≤ 1 := decoder.parityBits_le
  have hhalves := decoder.stopBits.halves_le
  refine roundU64_bits hexact ?_ (by omega)
  rw [frameLenBits, UartStopBits.bits_eq]
  push_cast
  ring

theorem bitAnnotation_covers {index : Nat} (hindex : index ≤ 9) (bit : Bool)
    (h : t0.toNat + (1 + index) * decoder.bitTime < 2 ^ 64) :
    (Word.spanning bit.toUInt64 (t0 + roundU64 ((1 + index) * decoder.bitNs)) decoder.bitDuration).Covers
      (t0.toNat + (1 + index) * decoder.bitTime) decoder.bitTime := by
  have hoffset := roundU64_bits (x := 1 + index) (q := 4 * (1 + index)) hexact (by push_cast; ring) (by omega)
  rw [Nat.mul_assoc, show (4 * ((1 + index) * decoder.bitTime) + 2) / 4 = (1 + index) * decoder.bitTime by omega]
    at hoffset
  refine ⟨?_, bitDuration_toNat hexact⟩
  show (t0 + roundU64 ((1 + index) * decoder.bitNs)).toNat = _
  rw [toNat_add_of_lt (by rw [hoffset]; exact h), hoffset]

theorem startAnnotation_covers : (decoder.startAnnotation t0).Covers t0.toNat decoder.bitTime :=
  ⟨rfl, bitDuration_toNat hexact⟩

theorem dataAnnotation_covers (frameError : Bool) (h : t0.toNat + (1 + 0) * decoder.bitTime < 2 ^ 64) :
    (decoder.dataAnnotation t0 value frameError).Covers (t0.toNat + decoder.bitTime)
      (decoder.bitTime * decoder.dataBits) := by
  have hduration := bitDuration_toNat hexact
  have hbits := decoder.dataBits_mem
  have hsmall := Nat.mul_le_mul decoder.bitTime_le hbits.2
  refine ⟨?_, ?_⟩
  · show (t0 + decoder.bitDuration).toNat = _
    rw [toNat_add_of_lt (by rw [hduration]; omega), hduration]
  · show (decoder.bitDuration * .ofNat decoder.dataBits).toNat = _
    rw [UInt64.toNat_mul, hduration, UInt64.toNat_ofNat_of_lt' (by rw [UInt64.size]; omega), Nat.mod_eq_of_lt (by omega)]

theorem stopAnnotation_covers (h : t0.toNat + (1 + decoder.dataBits) * decoder.bitTime < 2 ^ 64) :
    (decoder.stopAnnotation t0).Covers (t0.toNat + (1 + decoder.dataBits) * decoder.bitTime)
      ((2 * decoder.stopBits.halves * decoder.bitTime + 2) / 4) := by
  have hduration := bitDuration_toNat hexact
  have hbits := decoder.dataBits_mem
  have hhalves := decoder.stopBits.halves_le
  have hsmall := Nat.mul_le_mul decoder.bitTime_le (show decoder.dataBits + 1 ≤ 10 by omega)
  have hcount : (UInt64.ofNat decoder.dataBits + 1).toNat = decoder.dataBits + 1 := by
    have hofNat : (UInt64.ofNat decoder.dataBits).toNat = decoder.dataBits :=
      UInt64.toNat_ofNat_of_lt' (by rw [UInt64.size]; omega)
    rw [toNat_add_of_lt (by rw [hofNat]; show _ + 1 < _; omega), hofNat]
    rfl
  have hoffset : (decoder.bitDuration * (.ofNat decoder.dataBits + 1)).toNat =
      (1 + decoder.dataBits) * decoder.bitTime := by
    rw [UInt64.toNat_mul, hduration, hcount, Nat.mod_eq_of_lt (by omega), Nat.mul_comm, Nat.add_comm]
  refine ⟨?_, roundU64_bits hexact ?_ (by omega)⟩
  · show (t0 + decoder.bitDuration * (.ofNat decoder.dataBits + 1)).toNat = _
    rw [toNat_add_of_lt (by rw [hoffset]; exact h), hoffset]
  · rw [UartStopBits.bits_eq]
    push_cast
    ring

variable {bits : List Bool} (hcount : bits.length = decoder.dataBits)
  (hdata : ∀ i < decoder.dataBits, t0 ≤ decoder.sampleTime t0 (1 + i))
  (hstop : decoder.stopBits ≠ .s0 → t0 ≤ decoder.stopTime t0)

include hcount hdata

theorem bitAnnotations_cover : (decoder.bitAnnotations t0 bits).length = decoder.dataBits ∧
    ∀ i < (decoder.bitAnnotations t0 bits).length, ∃ bit ∈ (decoder.bitAnnotations t0 bits)[i]?,
      bit.Covers (t0.toNat + (1 + i) * decoder.bitTime) decoder.bitTime := by
  have hlength : (decoder.bitAnnotations t0 bits).length = bits.length := by
    rw [bitAnnotations, List.length_map, List.length_zipIdx]
  refine ⟨hlength.trans hcount, fun i hi => ?_⟩
  rw [hlength] at hi
  have hdecoded := hcount ▸ hi
  have hbits := decoder.dataBits_mem
  refine ⟨_, ?_, bitAnnotation_covers hexact (by omega) bits[i] (sampleTime_fits hexact (by omega) (hdata i hdecoded))⟩
  rw [bitAnnotations, List.getElem?_map, List.getElem?_zipIdx, List.getElem?_eq_getElem hi, Nat.zero_add]
  rfl

include hstop

omit hcount in
/-- The parts of the frame follow each other inside its word, whatever bits are behind the data. -/
theorem frameAnnotations_inside (value : UInt64) (frameError : Bool) :
    ((decoder.frameAnnotations t0 value frameError).Pairwise fun a b =>
        a.timestampNs.toNat + a.durationNs.toNat ≤ b.timestampNs.toNat) ∧
      ∀ part ∈ decoder.frameAnnotations t0 value frameError, t0.toNat ≤ part.timestampNs.toNat ∧
        part.timestampNs.toNat + part.durationNs.toNat ≤
          t0.toNat + (decoder.frameWord t0 value).durationNs.toNat := by
  have hbits := decoder.dataBits_mem
  obtain ⟨hs, hs'⟩ : (decoder.startAnnotation t0).Covers _ _ := startAnnotation_covers hexact
  obtain ⟨hd, hd'⟩ : (decoder.dataAnnotation t0 value frameError).Covers _ _ := dataAnnotation_covers hexact frameError
    (sampleTime_fits hexact (by omega) (hdata 0 (by omega)))
  have hlength : (decoder.frameWord t0 value).durationNs.toNat = _ := frameWord_length hexact
  have hword : (4 * (1 + decoder.dataBits + decoder.parityBits) + 2 * decoder.stopBits.halves) * decoder.bitTime =
      4 * (decoder.bitTime + decoder.bitTime * decoder.dataBits) + 4 * (decoder.parityBits * decoder.bitTime) +
        2 * decoder.stopBits.halves * decoder.bitTime := by ring
  rw [hword] at hlength
  rw [frameAnnotations]
  split
  · next hstops =>
    have hsum : (1 + decoder.dataBits) * decoder.bitTime = decoder.bitTime + decoder.bitTime * decoder.dataBits := by ring
    have hsum' : (1 + decoder.dataBits + decoder.parityBits) * decoder.bitTime =
        decoder.bitTime + decoder.bitTime * decoder.dataBits + decoder.parityBits * decoder.bitTime := by ring
    have hfits := stopTime_fits hexact (hstop ((UartStopBits.bits_pos_iff _).mp hstops))
    obtain ⟨hst, hst'⟩ : (decoder.stopAnnotation t0).Covers _ _ := stopAnnotation_covers hexact (by omega)
    rw [hsum] at hst
    refine ⟨?_, ?_⟩
    · simp only [List.cons_append, List.nil_append, List.pairwise_cons, List.mem_cons, List.not_mem_nil, or_false,
        forall_eq_or_imp, forall_eq]
      refine ⟨⟨by omega, by omega⟩, by omega, fun b hb => hb.elim, List.Pairwise.nil⟩
    · simp only [List.cons_append, List.nil_append, List.mem_cons, List.not_mem_nil, or_false, forall_eq_or_imp, forall_eq]
      exact ⟨⟨by omega, by omega⟩, ⟨by omega, by omega⟩, by omega, by omega⟩
  · rw [List.append_nil]
    refine ⟨?_, ?_⟩
    · simp only [List.pairwise_cons, List.mem_cons, List.not_mem_nil, or_false, forall_eq]
      exact ⟨by omega, fun b hb => hb.elim, List.Pairwise.nil⟩
    · simp only [List.mem_cons, List.not_mem_nil, or_false, forall_eq_or_imp, forall_eq]
      exact ⟨⟨by omega, by omega⟩, by omega, by omega⟩

theorem annotates_iff (frameError : Bool) :
    decoder.Annotates (decoder.frameWord t0 value) (decoder.bitAnnotations t0 bits)
        (decoder.frameAnnotations t0 value frameError) ↔ decoder.parity = .none ∨ decoder.stopBits = .s0 := by
  have hframe (hstops : decoder.stopBits ≠ .s0) :
      (decoder.frameAnnotations t0 value frameError)[2]? = some (decoder.stopAnnotation t0) := by
    rw [frameAnnotations, if_pos ((UartStopBits.bits_pos_iff _).mpr hstops)]
    rfl
  have hcovers (hstops : decoder.stopBits ≠ .s0) : (decoder.stopAnnotation t0).Covers
      (t0.toNat + (1 + decoder.dataBits) * decoder.bitTime)
      ((2 * decoder.stopBits.halves * decoder.bitTime + 2) / 4) := by
    have hfits := stopTime_fits hexact (hstop hstops)
    rw [Nat.add_mul (1 + decoder.dataBits)] at hfits
    exact stopAnnotation_covers hexact (by omega)
  constructor
  · intro h
    by_contra hnot
    obtain ⟨hparity, hstops⟩ := not_or.mp hnot
    obtain ⟨stop, hmem, hstart, -⟩ := h.stop hstops
    rw [hframe hstops] at hmem
    cases hmem
    have hone : decoder.parityBits = 1 := if_neg hparity
    have hpos := bitTime_pos hexact
    have hat : (decoder.frameWord t0 value).timestampNs = t0 := rfl
    rw [(hcovers hstops).1, hat, hone, Nat.add_mul (1 + decoder.dataBits)] at hstart
    omega
  · intro h
    obtain ⟨hlength, hbit⟩ := bitAnnotations_cover hexact hcount hdata
    obtain ⟨hordered, hinside⟩ := frameAnnotations_inside hexact hdata hstop value frameError
    refine ⟨hlength, hbit, hordered, hinside, fun hstops => ⟨_, hframe hstops, ?_⟩⟩
    have hnone : decoder.parityBits = 0 := if_pos (h.resolve_right hstops)
    rw [hnone]
    exact hcovers hstops

end Exact

/-- A call that decodes a frame annotates its intervals exactly if no parity bit lies before a stop bit. -/
theorem annotations_follow_intervals_iff (hexact : decoder.baud.toNat ∣ 1000000000) {rx : Inbox Sample}
    (ordered : rx.available.Pairwise fun a b => a.startTimeNs ≤ b.startTimeNs) (error : Bool)
    (decoded : (decoder.work (some rx) ⟨true, error, true, true⟩).result = .ok 1) :
    ∃ word bits frame, (decoder.work (some rx) ⟨true, error, true, true⟩).words = [.sample word] ∧
      (decoder.work (some rx) ⟨true, error, true, true⟩).bits = [.batch bits] ∧
      (decoder.work (some rx) ⟨true, error, true, true⟩).frame = [.batch frame] ∧
      (decoder.Annotates word bits frame ↔ decoder.parity = .none ∨ decoder.stopBits = .s0) := by
  cases hedges : decoder.huntEdges rx.available with
  | nil =>
    obtain ⟨rx', hwork⟩ := decoder.work_idle ⟨true, error, true, true⟩ hedges
    rw [hwork] at decoded
    cases decoded
  | cons edge rest =>
    obtain ⟨hunted, havailable, hwork⟩ := decoder.work_hunted ⟨true, error, true, true⟩ hedges
    have hfrom : hunted.From edge.startTimeNs := by
      have hsorted := ordered.sublist (List.dropWhile_sublist fun edge => !decoder.isStart edge)
      rw [show rx.available.dropWhile (fun edge => !decoder.isStart edge) = edge :: rest from hedges] at hsorted
      intro later hmem
      rw [havailable] at hmem
      rcases List.mem_cons.mp hmem with rfl | hmem
      · exact UInt64.le_refl _
      · exact (List.pairwise_cons.mp hsorted).1 later hmem
    rcases hframe : decoder.sampleFrame edge.startTimeNs hunted with ⟨result, rx'⟩
    rw [hframe] at hwork
    rw [hwork] at decoded ⊢
    cases result with
    | error error => cases decoded
    | ok sampled =>
      obtain ⟨value, bits, frameError⟩ := sampled
      obtain ⟨hcount, hdata, hstop⟩ := sampleFrame_from hfrom hframe
      exact ⟨_, _, _, rfl, rfl, rfl, annotates_iff hexact hcount hdata hstop frameError⟩

/-- The value 0xff with an even parity bit: the line falls for the start bit and for the parity bit. -/
def evenFrame : Inbox Sample :=
  .new [.batch [⟨true, 0⟩, ⟨false, 1000⟩, ⟨true, 2000⟩, ⟨false, 10000⟩, ⟨true, 11000⟩, ⟨true, 20000⟩]]

/-- The stop annotation of the frame covers its parity bit. -/
theorem parity_annotated_as_stop :
    let decoder := (UartDecoder.new 1000000 8 (by decide) (by decide)).withParity .even true
    ∃ word bits frame, (decoder.work (some evenFrame) ⟨true, true, true, true⟩).result = .ok 1 ∧
      (decoder.work (some evenFrame) ⟨true, true, true, true⟩).words = [.sample word] ∧
      (decoder.work (some evenFrame) ⟨true, true, true, true⟩).bits = [.batch bits] ∧
      (decoder.work (some evenFrame) ⟨true, true, true, true⟩).frame = [.batch frame] ∧
      ¬decoder.Annotates word bits frame := by
  intro decoder
  refine ⟨⟨255, none, 1000, 11000⟩, (List.range 8).map fun i => ⟨1, none, 2000 + 1000 * .ofNat i, 1000⟩,
    [⟨.ofNat u64Max, none, 1000, 1000⟩, ⟨255, none, 2000, 8000⟩, ⟨.ofNat (u64Max - 1), none, 10000, 1000⟩],
    by decide +kernel, by decide +kernel, by decide +kernel, by decide +kernel, fun h => ?_⟩
  obtain ⟨stop, hmem, hcovers⟩ := h.stop (by decide)
  cases hmem
  exact absurd hcovers (by decide +kernel)

/-- The same decoder follows the intervals of a frame without a parity bit. -/
theorem plain_frame_annotated :
    let decoder := UartDecoder.new 1000000 8 (by decide) (by decide)
    let rx : Inbox Sample := .new [.batch [⟨true, 0⟩, ⟨false, 1000⟩, ⟨true, 2000⟩, ⟨true, 20000⟩]]
    ∃ word bits frame, (decoder.work (some rx) ⟨true, true, true, true⟩).words = [.sample word] ∧
      (decoder.work (some rx) ⟨true, true, true, true⟩).bits = [.batch bits] ∧
      (decoder.work (some rx) ⟨true, true, true, true⟩).frame = [.batch frame] ∧
      (decoder.Annotates word bits frame ↔ UartParity.none = .none ∨ UartStopBits.s1 = .s0) :=
  annotations_follow_intervals_iff (by decide) (by decide) true (by decide +kernel)

end UartDecoder

end LogicConduit
