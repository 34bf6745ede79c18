import LogicConduit.BitWords
import LogicConduit.CaptureChunks
import LogicConduit.WaveformSegments

namespace LogicConduit

def leafSamples : Nat := 64

structure WaveformRecord where
  startSample : Nat
  endSample : Nat
  first : Bool
  last : Bool
  activity : Bool
  deriving DecidableEq

def divCeil (a b : Nat) : Nat := (a + b - 1) / b

structure ActiveRecord where
  startSample : Nat
  first : Bool
  last : Bool
  activity : Bool
  deriving DecidableEq

namespace ActiveRecord

def new (sample : Nat) (value : Bool) : ActiveRecord := ⟨sample, value, value, false⟩

def push (record : ActiveRecord) (value : Bool) : ActiveRecord :=
  { record with activity := record.activity || value != record.last, last := value }

def finish (record : ActiveRecord) (endSample : Nat) : WaveformRecord :=
  ⟨record.startSample, endSample, record.first, record.last, record.activity⟩

def advance (sample : Nat) (value : Bool) : Option ActiveRecord → ActiveRecord
  | some record => record.push value
  | none => new sample value

/-- The record with the samples from `sample` on, of which the masks tell. -/
def absorb (sample : Nat) (first last activity : Bool) : Option ActiveRecord → ActiveRecord
  | some record =>
    { record with activity := record.activity || (record.last != first || activity), last := last }
  | none => ⟨sample, first, last, activity⟩

end ActiveRecord

/-- `bit_count` bits of the payload, at most 64. -/
def packedBits (chunk : CaptureChunk) (relativeBit bitCount : Nat) : BitWord :=
  if bitCount = 0 then 0
  else
    let absoluteBit := chunk.bitOffset + relativeBit
    let shift := absoluteBit % 8
    let neededBytes := divCeil (shift + bitCount) 8
    let packed := ofLeBytes ((chunk.bytes.drop (absoluteBit / 8)).take neededBytes)
    BitVec.ofNat 64 (packed >>> shift) &&&
      (if bitCount = 64 then BitVec.allOnes 64 else (1#64 <<< bitCount) - 1)

def channelMask (channels : Nat) : BitWord :=
  if channels = 64 then BitVec.allOnes 64 else (1#64 <<< channels) - 1

def markChannels (channels offset : Nat) (differences activity : BitWord) : BitWord :=
  (wordBits differences).foldl (fun activity bit => activity ||| (1#64 <<< ((offset + bit) % channels))) activity

/-- The comparison of every sample with the one before it, 64 bits at a time. -/
def activityLoop (chunk : CaptureChunk) (firstBit comparisonBits : Nat) : Nat → Nat → BitWord → BitWord
  | 0, _, activity => activity
  | fuel + 1, offset, activity =>
    if offset < comparisonBits then
      let channels := chunk.channels.length
      let bits := min (comparisonBits - offset) 64
      let current := packedBits chunk (firstBit + channels + offset) bits
      let previous := packedBits chunk (firstBit + offset) bits
      let activity := markChannels channels offset (current ^^^ previous) activity
      if activity = channelMask channels then activity
      else activityLoop chunk firstBit comparisonBits fuel (offset + bits) activity
    else activity

structure SummaryMasks where
  first : BitWord
  last : BitWord
  activity : BitWord

def summaryMasks (chunk : CaptureChunk) (start sampleCount : Nat) : SummaryMasks :=
  let channels := chunk.channels.length
  let firstBit := start * channels
  let comparisonBits := (sampleCount - 1) * channels
  { first := packedBits chunk firstBit channels
    last := packedBits chunk ((start + sampleCount - 1) * channels) channels
    activity := activityLoop chunk firstBit comparisonBits comparisonBits 0 0 }

structure SummaryBuilder where
  active : List (Option ActiveRecord)
  nextSample : Nat

/-- The records of every channel that are complete at a leaf boundary. -/
def completeLeaves (active : List (Option ActiveRecord)) (endSample : Nat)
    (completed : List (List WaveformRecord)) : List (List WaveformRecord) :=
  List.zipWith (fun records record => records ++ (record.map (·.finish endSample)).toList) completed active

namespace SummaryBuilder

def new (channels : Nat) : SummaryBuilder := ⟨List.replicate channels none, 0⟩

def maskLoop (chunk : CaptureChunk) : Nat → Nat → List (Option ActiveRecord) → List (List WaveformRecord) →
    List (Option ActiveRecord) × List (List WaveformRecord)
  | 0, _, active, completed => (active, completed)
  | fuel + 1, relative, active, completed =>
    if relative < chunk.sampleCount then
      let sample := chunk.startSample + relative
      let sampleCount := min (leafSamples - sample % leafSamples) (chunk.sampleCount - relative)
      let masks := summaryMasks chunk relative sampleCount
      let active := active.mapIdx fun channel record =>
        some (ActiveRecord.absorb sample (bit masks.first channel) (bit masks.last channel)
          (bit masks.activity channel) record)
      let endSample := sample + sampleCount
      if endSample % leafSamples = 0 then
        maskLoop chunk fuel (relative + sampleCount) (active.map fun _ => none)
          (completeLeaves active endSample completed)
      else maskLoop chunk fuel (relative + sampleCount) active completed
    else (active, completed)

/-- The loop of `append_chunk_scalar`: one sample after the other. -/
def scalarLoop (chunk : CaptureChunk) : Nat → Nat → List (Option ActiveRecord) → List (List WaveformRecord) →
    List (Option ActiveRecord) × List (List WaveformRecord)
  | 0, _, active, completed => (active, completed)
  | remaining + 1, relative, active, completed =>
    let sample := chunk.startSample + relative
    let active := active.mapIdx fun channel record =>
      some (ActiveRecord.advance sample ((chunk.packedLevel relative channel).getD false) record)
    let endSample := sample + 1
    if endSample % leafSamples = 0 then
      scalarLoop chunk remaining (relative + 1) (active.map fun _ => none) (completeLeaves active endSample completed)
    else scalarLoop chunk remaining (relative + 1) active completed

def appendChunk (builder : SummaryBuilder) (chunk : CaptureChunk) :
    Except CaptureError (SummaryBuilder × List (List WaveformRecord)) :=
  if chunk.startSample ≠ builder.nextSample ∨ chunk.channels.length ≠ builder.active.length then
    .error (.parseError "growing waveform received a discontinuous capture chunk")
  else
    let completed := builder.active.map fun _ => []
    let (active, completed) :=
      if 64 < builder.active.length then scalarLoop chunk chunk.sampleCount 0 builder.active completed
      else maskLoop chunk chunk.sampleCount 0 builder.active completed
    .ok (⟨active, chunk.endSample⟩, completed)

end SummaryBuilder

section Masks

variable {chunk : CaptureChunk}

def CaptureChunk.payloadBit (chunk : CaptureChunk) (i : Nat) : Bool := bitAt chunk.bytes (chunk.bitOffset + i)

theorem bit_countMask {count i : Nat} (hle : count ≤ 64) :
    bit (if count = 64 then BitVec.allOnes 64 else (1#64 <<< count) - 1) i = decide (i < count) := by
  split
  next h => rw [bit_allOnes, h]
  next h => exact bit_low (by omega)

variable {relativeBit bitCount i : Nat}

theorem bit_packedBits (hle : bitCount ≤ 64) (hi : i < bitCount) :
    bit (packedBits chunk relativeBit bitCount) i = chunk.payloadBit (relativeBit + i) := by
  have hneed : (chunk.bitOffset + relativeBit) % 8 + bitCount ≤
      8 * divCeil ((chunk.bitOffset + relativeBit) % 8 + bitCount) 8 := by
    unfold divCeil
    omega
  have hq : (chunk.bitOffset + relativeBit) / 8 + ((chunk.bitOffset + relativeBit) % 8 + i) / 8 =
      (chunk.bitOffset + (relativeBit + i)) / 8 := by omega
  have hm : ((chunk.bitOffset + relativeBit) % 8 + i) % 8 = (chunk.bitOffset + (relativeBit + i)) % 8 := by omega
  rw [packedBits, if_neg (by omega), bit_and, bit_countMask hle, decide_eq_true hi, Bool.and_true, bit,
    BitVec.getLsbD_ofNat, decide_eq_true (show i < 64 by omega), Bool.true_and, Nat.testBit_shiftRight,
    testBit_ofLeBytes, CaptureChunk.payloadBit, bitAt, bitAt, List.getD_eq_getElem?_getD,
    List.getElem?_take_of_lt (by omega), List.getElem?_drop, hq, hm, ← List.getD_eq_getElem?_getD]

theorem bit_packedBits_of_ge (hle : bitCount ≤ 64) (hi : bitCount ≤ i) :
    bit (packedBits chunk relativeBit bitCount) i = false := by
  unfold packedBits
  split
  · exact bit_zero i
  · rw [bit_and, bit_countMask hle, decide_eq_false (by omega), Bool.and_false]

theorem packedLevel_eq_payloadBit {relativeSample channel : Nat} (hs : relativeSample < chunk.sampleCount)
    (hc : channel < chunk.channels.length) :
    chunk.packedLevel relativeSample channel =
      some (chunk.payloadBit (relativeSample * chunk.channels.length + channel)) := by
  rw [CaptureChunk.packedLevel_eq_some hs hc, CaptureChunk.payloadBit, Nat.add_comm chunk.bitOffset]

theorem bit_markChannels {channels : Nat} (hpos : 0 < channels) (hle : channels ≤ 64) (offset : Nat)
    (differences activity : BitWord) (c : Nat) :
    bit (markChannels channels offset differences activity) c = true ↔
      bit activity c = true ∨ ∃ i, bit differences i = true ∧ (offset + i) % channels = c := by
  have hfold : ∀ (places : List Nat) (activity : BitWord),
      bit (places.foldl (fun activity i => activity ||| (1#64 <<< ((offset + i) % channels))) activity) c = true ↔
        bit activity c = true ∨ ∃ i ∈ places, (offset + i) % channels = c := by
    intro places
    induction places with
    | nil =>
      intro activity
      simp
    | cons place places ih =>
      intro activity
      have hlt := Nat.mod_lt (offset + place) hpos
      rw [List.foldl_cons, ih, bit_or, bit_one_shiftLeft (by omega), Bool.or_eq_true, decide_eq_true_eq,
        List.exists_mem_cons_iff, or_assoc, eq_comm (a := c)]
  rw [markChannels, hfold, wordBits_eq]
  apply or_congr_right
  constructor
  · rintro ⟨i, hmem, hi⟩
    exact ⟨i, (List.mem_filter.mp hmem).2, hi⟩
  · rintro ⟨i, hbit, hi⟩
    have hlt : i < 64 := by
      by_contra hge
      rw [bit_of_ge _ (Nat.le_of_not_lt hge)] at hbit
      cases hbit
    exact ⟨i, List.mem_filter.mpr ⟨List.mem_range.mpr hlt, hbit⟩, hi⟩

/-- The bit at `i` differs from the bit of the same channel one sample later. -/
def CaptureChunk.Changes (chunk : CaptureChunk) (firstBit i : Nat) : Prop :=
  chunk.payloadBit (firstBit + chunk.channels.length + i) ≠ chunk.payloadBit (firstBit + i)

theorem bit_differences {firstBit offset bits i : Nat} (hle : bits ≤ 64) :
    bit (packedBits chunk (firstBit + chunk.channels.length + offset) bits ^^^
      packedBits chunk (firstBit + offset) bits) i = true ↔ i < bits ∧ chunk.Changes firstBit (offset + i) := by
  rw [bit_xor]
  by_cases hi : i < bits
  · rw [bit_packedBits hle hi, bit_packedBits hle hi, Bool.xor_iff_ne, CaptureChunk.Changes,
      Nat.add_assoc _ offset, Nat.add_assoc firstBit offset]
    simp [hi]
  · rw [bit_packedBits_of_ge hle (by omega), bit_packedBits_of_ge hle (by omega)]
    simp [hi]

theorem bit_channelMask {channels c : Nat} (hle : channels ≤ 64) :
    bit (channelMask channels) c = decide (c < channels) :=
  bit_countMask hle

theorem bit_activityLoop {firstBit comparisonBits : Nat} (hle : chunk.channels.length ≤ 64) (fuel : Nat)
    {offset : Nat} {activity : BitWord} (hfuel : comparisonBits ≤ offset + fuel) (ho : offset ≤ comparisonBits)
    (hactivity : ∀ c, bit activity c = true ↔
      ∃ i < offset, chunk.Changes firstBit i ∧ i % chunk.channels.length = c) (c : Nat) :
    bit (activityLoop chunk firstBit comparisonBits fuel offset activity) c = true ↔
      ∃ i < comparisonBits, chunk.Changes firstBit i ∧ i % chunk.channels.length = c := by
  have hpos : 0 < chunk.channels.length := List.length_pos_iff.mpr chunk.channels_ne
  induction fuel generalizing offset activity with
  | zero =>
    obtain rfl : comparisonBits = offset := by omega
    exact hactivity c
  | succ fuel ih =>
    rw [activityLoop]
    by_cases hlt : offset < comparisonBits
    · rw [if_pos hlt]
      simp only
      have hmarks : ∀ c, bit (markChannels chunk.channels.length offset
          (packedBits chunk (firstBit + chunk.channels.length + offset) (min (comparisonBits - offset) 64) ^^^
            packedBits chunk (firstBit + offset) (min (comparisonBits - offset) 64)) activity) c = true ↔
          ∃ i < offset + min (comparisonBits - offset) 64,
            chunk.Changes firstBit i ∧ i % chunk.channels.length = c := by
        intro c
        rw [bit_markChannels hpos hle, hactivity c]
        simp only [bit_differences (Nat.min_le_right _ _)]
        constructor
        · rintro (⟨i, hi, hfound⟩ | ⟨i, ⟨hi, hchange⟩, hc⟩)
          · exact ⟨i, by omega, hfound⟩
          · exact ⟨offset + i, by omega, hchange, hc⟩
        · rintro ⟨i, hi, hchange, hc⟩
          by_cases hio : i < offset
          · exact Or.inl ⟨i, hio, hchange, hc⟩
          · have heq : offset + (i - offset) = i := by omega
            exact Or.inr ⟨i - offset, ⟨by omega, by rwa [heq]⟩, by rwa [heq]⟩
      split
      next hfull =>
        -- all channels are active: the rest of the comparisons has nothing to add
        rw [hmarks c]
        constructor
        · rintro ⟨i, hi, hfound⟩
          exact ⟨i, by omega, hfound⟩
        · rintro ⟨i, -, -, hc⟩
          rw [← hmarks c, hfull, bit_channelMask hle, decide_eq_true_eq, ← hc]
          exact Nat.mod_lt _ hpos
      next => exact ih (by omega) (by omega) hmarks
    · obtain rfl : comparisonBits = offset := by omega
      rw [if_neg hlt]
      exact hactivity c

theorem changes_iff_turns {start sampleCount c : Nat} (hc : c < chunk.channels.length) :
    (∃ i < (sampleCount - 1) * chunk.channels.length,
      chunk.Changes (start * chunk.channels.length) i ∧ i % chunk.channels.length = c) ↔
    ∃ j, start < j ∧ j < start + sampleCount ∧
      chunk.payloadBit (j * chunk.channels.length + c) ≠ chunk.payloadBit ((j - 1) * chunk.channels.length + c) := by
  have hpos : 0 < chunk.channels.length := by omega
  constructor
  · rintro ⟨i, hi, hchange, hmod⟩
    obtain ⟨d, hd, rfl⟩ : ∃ d < sampleCount - 1, i = d * chunk.channels.length + c :=
      ⟨i / chunk.channels.length, (Nat.div_lt_iff_lt_mul hpos).mpr hi, by
        rw [← hmod]
        exact (Nat.div_add_mod' i _).symm⟩
    refine ⟨start + d + 1, by omega, by omega, ?_⟩
    rw [CaptureChunk.Changes,
      show start * chunk.channels.length + chunk.channels.length + (d * chunk.channels.length + c) =
        start * chunk.channels.length + d * chunk.channels.length + chunk.channels.length + c by omega,
      ← Nat.add_assoc (start * chunk.channels.length)] at hchange
    rw [Nat.add_sub_cancel, Nat.add_mul, Nat.add_mul, Nat.one_mul]
    exact hchange
  · rintro ⟨j, hlo, hhi, hne⟩
    obtain ⟨d, rfl⟩ : ∃ d, j = start + d + 1 := ⟨j - start - 1, by omega⟩
    have hle : (d + 1) * chunk.channels.length ≤ (sampleCount - 1) * chunk.channels.length :=
      Nat.mul_le_mul_right _ (by omega)
    rw [Nat.succ_mul] at hle
    refine ⟨d * chunk.channels.length + c, by omega, ?_, ?_⟩
    · rw [Nat.add_sub_cancel, Nat.add_mul, Nat.add_mul, Nat.one_mul] at hne
      rw [CaptureChunk.Changes,
        show start * chunk.channels.length + chunk.channels.length + (d * chunk.channels.length + c) =
          start * chunk.channels.length + d * chunk.channels.length + chunk.channels.length + c by omega,
        ← Nat.add_assoc (start * chunk.channels.length)]
      exact hne
    · rw [Nat.mul_comm, Nat.mul_add_mod, Nat.mod_eq_of_lt hc]

theorem summaryMasks_spec (start sampleCount : Nat) {c : Nat} (hle : chunk.channels.length ≤ 64)
    (hc : c < chunk.channels.length) :
    bit (summaryMasks chunk start sampleCount).first c = chunk.payloadBit (start * chunk.channels.length + c) ∧
    bit (summaryMasks chunk start sampleCount).last c =
      chunk.payloadBit ((start + sampleCount - 1) * chunk.channels.length + c) ∧
    (bit (summaryMasks chunk start sampleCount).activity c = true ↔ ∃ j, start < j ∧ j < start + sampleCount ∧
      chunk.payloadBit (j * chunk.channels.length + c) ≠
        chunk.payloadBit ((j - 1) * chunk.channels.length + c)) := by
  refine ⟨bit_packedBits hle hc, bit_packedBits hle hc, ?_⟩
  rw [← changes_iff_turns hc]
  apply bit_activityLoop hle _ (by omega) (Nat.zero_le _)
  intro c
  simp

end Masks

def CaptureChunk.Carries (level : Nat → Nat → Bool) (chunk : CaptureChunk) : Prop :=
  ∀ s, chunk.startSample ≤ s → s < chunk.endSample → ∀ c < chunk.channels.length,
    chunk.packedLevel (s - chunk.startSample) c = some (level c s)

section Appending

variable {level : Nat → Nat → Bool} {chunk : CaptureChunk} {k : Nat}

theorem CaptureChunk.Carries.payloadBit (h : chunk.Carries level) {j c : Nat} (hj : j < chunk.sampleCount)
    (hc : c < chunk.channels.length) :
    chunk.payloadBit (j * chunk.channels.length + c) = level c (chunk.startSample + j) := by
  have hlevel := h (chunk.startSample + j) (Nat.le_add_right _ _) (Nat.add_lt_add_left hj _) c hc
  rw [Nat.add_sub_cancel_left, packedLevel_eq_payloadBit hj hc] at hlevel
  exact Option.some.inj hlevel

theorem CaptureChunk.Carries.masks (h : chunk.Carries level) {relative count c : Nat}
    (hle : chunk.channels.length ≤ 64) (hc : c < chunk.channels.length) (hpos : 0 < count)
    (hcount : relative + count ≤ chunk.sampleCount) :
    bit (summaryMasks chunk relative count).first c = level c (chunk.startSample + relative) ∧
    bit (summaryMasks chunk relative count).last c = level c (chunk.startSample + relative + count - 1) ∧
    (bit (summaryMasks chunk relative count).activity c = true ↔ ∃ s, chunk.startSample + relative < s ∧
      s < chunk.startSample + relative + count ∧ Turns (level c) s) := by
  obtain ⟨hfirst, hlast, hactivity⟩ := summaryMasks_spec relative count hle hc
  refine ⟨?_, ?_, ?_⟩
  · rw [hfirst, h.payloadBit (by omega) hc]
  · rw [hlast, h.payloadBit (by omega) hc,
      show chunk.startSample + (relative + count - 1) = chunk.startSample + relative + count - 1 by omega]
  · rw [hactivity]
    constructor
    · rintro ⟨j, hlo, hhi, hne⟩
      rw [h.payloadBit (by omega) hc, h.payloadBit (by omega) hc,
        show chunk.startSample + (j - 1) = chunk.startSample + j - 1 by omega] at hne
      exact ⟨chunk.startSample + j, by omega, by omega, hne⟩
    · rintro ⟨s, hlo, hhi, hturn⟩
      refine ⟨s - chunk.startSample, by omega, by omega, ?_⟩
      rw [h.payloadBit (by omega) hc, h.payloadBit (by omega) hc,
        show chunk.startSample + (s - chunk.startSample) = s by omega,
        show chunk.startSample + (s - chunk.startSample - 1) = s - 1 by omega]
      exact hturn

theorem ActiveRecord.absorb_single (sample : Nat) (value : Bool) (record : Option ActiveRecord) :
    ActiveRecord.absorb sample value value false record = ActiveRecord.advance sample value record := by
  cases record with
  | none => rfl
  | some record =>
    have hcomm : (record.last != value) = (value != record.last) := by
      cases record.last <;> cases value <;> rfl
    simp only [absorb, advance, push, Bool.or_false, hcomm]

end Appending

end LogicConduit
