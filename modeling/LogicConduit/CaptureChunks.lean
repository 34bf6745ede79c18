import LogicConduit.ByteBits

namespace LogicConduit

abbrev CaptureSessionId := BitVec 128

abbrev CaptureChannelId := String

inductive CaptureChunkError
  | noChannels
  | noSamples
  | invalidBitOffset (bitOffset : Nat)
  | sampleRangeOverflow
  | payloadSizeOverflow
  | payloadTooShort (requiredBits availableBits : Nat)
  deriving DecidableEq

def CaptureChunkError.display : CaptureChunkError → String
  | .noChannels => "a capture chunk must contain at least one channel"
  | .noSamples => "a capture chunk must contain at least one sample"
  | .invalidBitOffset bitOffset => s!"capture chunk bit offset {bitOffset} is outside 0..8"
  | .sampleRangeOverflow => "capture chunk sample range overflows u64"
  | .payloadSizeOverflow => "capture chunk payload size overflows its representation"
  | .payloadTooShort requiredBits availableBits =>
    s!"capture chunk payload has {availableBits} available bits but requires {requiredBits}"

/-- A validated chunk: `packed_lsb_first` is its only constructor. -/
@[ext]
structure CaptureChunk where
  sessionId : CaptureSessionId
  sequence : Nat
  startSample : Nat
  sampleCount : Nat
  channels : List CaptureChannelId
  bytes : Bytes
  bitOffset : Nat
  channels_ne : channels ≠ []
  samples_pos : 0 < sampleCount
  bitOffset_lt : bitOffset < 8
  endSample_lt : startSample + sampleCount < 2 ^ 64
  bytes_lt : bytes.length < 2 ^ 64
  bits_le : sampleCount * channels.length ≤ 8 * bytes.length - bitOffset
  deriving DecidableEq

variable {chunk : CaptureChunk}

namespace CaptureChunk

/-- The payload is a slice in memory, so its length is a `usize`. -/
def packedLsbFirst (sessionId : CaptureSessionId) (sequence startSample sampleCount : Nat)
    (channels : List CaptureChannelId) (bytes : Bytes) (bitOffset : Nat) :
    Except CaptureChunkError CaptureChunk :=
  if hc : channels = [] then .error .noChannels
  else if hs : sampleCount = 0 then .error .noSamples
  else if hb : 8 ≤ bitOffset then .error (.invalidBitOffset bitOffset)
  else if he : 2 ^ 64 ≤ startSample + sampleCount then .error .sampleRangeOverflow
  else if hl : 2 ^ 64 ≤ bytes.length ∨ 8 * bytes.length < bitOffset then .error .payloadSizeOverflow
  else if hr : 8 * bytes.length - bitOffset < sampleCount * channels.length then
    .error (.payloadTooShort (sampleCount * channels.length) (8 * bytes.length - bitOffset))
  else .ok
    { sessionId, sequence, startSample, sampleCount, channels, bytes, bitOffset
      channels_ne := hc
      samples_pos := Nat.pos_of_ne_zero hs
      bitOffset_lt := Nat.lt_of_not_le hb
      endSample_lt := Nat.lt_of_not_le he
      bytes_lt := Nat.lt_of_not_le fun h => hl (Or.inl h)
      bits_le := Nat.le_of_not_lt hr }

def endSample (chunk : CaptureChunk) : Nat := chunk.startSample + chunk.sampleCount

def encodedByteLen (chunk : CaptureChunk) : Nat := chunk.bytes.length

def packedLevel (chunk : CaptureChunk) (relativeSample channel : Nat) : Option Bool :=
  if chunk.sampleCount ≤ relativeSample ∨ chunk.channels.length ≤ channel then none
  else
    let absoluteBit := relativeSample * chunk.channels.length + channel + chunk.bitOffset
    chunk.bytes[absoluteBit / 8]?.map fun byte => byte.toNat.testBit (absoluteBit % 8)

def repackSample (chunk : CaptureChunk) (skippedSamples sample : Nat) (bytes : Bytes) : Bytes :=
  setBitsWhere (fun channel => chunk.packedLevel (skippedSamples + sample) channel = some true)
    (fun channel => sample * chunk.channels.length + channel) (List.range chunk.channels.length) bytes

def repack (chunk : CaptureChunk) (skippedSamples sampleCount : Nat) (bytes : Bytes) : Bytes :=
  (List.range sampleCount).foldl (fun bytes sample => chunk.repackSample skippedSamples sample bytes) bytes

/-- The part of a chunk from the origin on, with sample numbers that count from the origin. -/
def recordingSlice (chunk : CaptureChunk) (originSample outputSequence : Nat) :
    Except CaptureChunkError (Option CaptureChunk) :=
  if chunk.endSample ≤ originSample then .ok none
  else
    let skippedSamples := originSample - chunk.startSample
    if skippedSamples = 0 then
      if chunk.startSample < originSample then .error .sampleRangeOverflow
      else .ok (some { chunk with
        sequence := outputSequence
        startSample := chunk.startSample - originSample
        endSample_lt := by have h := chunk.endSample_lt; omega })
    else
      let sampleCount := chunk.sampleCount - skippedSamples
      let byteCount := (sampleCount * chunk.channels.length + 7) / 8
      if 2 ^ 64 ≤ byteCount then .error .payloadSizeOverflow
      else (packedLsbFirst chunk.sessionId outputSequence 0 sampleCount chunk.channels
        (chunk.repack skippedSamples sampleCount (List.replicate byteCount 0)) 0).map some

def levels (chunk : CaptureChunk) (relativeSample : Nat) : List (Option Bool) :=
  (List.range chunk.channels.length).map (chunk.packedLevel relativeSample)

def samples (chunk : CaptureChunk) : List (List (Option Bool)) :=
  (List.range chunk.sampleCount).map chunk.levels

@[simp] theorem samples_length (chunk : CaptureChunk) : chunk.samples.length = chunk.sampleCount := by
  simp [samples]

variable {relativeSample channel : Nat}

theorem bit_in_bytes (hs : relativeSample < chunk.sampleCount) (hc : channel < chunk.channels.length) :
    (relativeSample * chunk.channels.length + channel + chunk.bitOffset) / 8 < chunk.bytes.length := by
  have hb := chunk.bits_le
  have hle : (relativeSample + 1) * chunk.channels.length ≤ chunk.sampleCount * chunk.channels.length :=
    Nat.mul_le_mul_right _ hs
  rw [Nat.succ_mul] at hle
  omega

theorem packedLevel_eq_some (hs : relativeSample < chunk.sampleCount) (hc : channel < chunk.channels.length) :
    chunk.packedLevel relativeSample channel = some (bitAt chunk.bytes
      (relativeSample * chunk.channels.length + channel + chunk.bitOffset)) := by
  have hbit := bit_in_bytes hs hc
  rw [packedLevel, if_neg (by omega)]
  simp [bitAt, List.getD_eq_getElem?_getD, List.getElem?_eq_getElem hbit]

section Repack

variable (chunk : CaptureChunk) (skippedSamples : Nat)

theorem repack_eq (sampleCount : Nat) (bytes : Bytes) :
    chunk.repack skippedSamples sampleCount bytes =
      setBitRows (fun sample channel => chunk.packedLevel (skippedSamples + sample) channel = some true)
        chunk.channels.length chunk.channels.length sampleCount bytes :=
  rfl

@[simp] theorem repack_length (sampleCount : Nat) (bytes : Bytes) :
    (chunk.repack skippedSamples sampleCount bytes).length = bytes.length := by
  rw [repack_eq, setBitRows_length]

theorem bitAt_repack_level {sampleCount byteCount sample channel : Nat}
    (hroom : sampleCount * chunk.channels.length ≤ 8 * byteCount) (hs : sample < sampleCount)
    (hc : channel < chunk.channels.length) :
    bitAt (chunk.repack skippedSamples sampleCount (List.replicate byteCount 0))
        (sample * chunk.channels.length + channel) =
      decide (chunk.packedLevel (skippedSamples + sample) channel = some true) := by
  rw [repack_eq, bitAt_setBitRows_zero _ (Nat.le_refl _) hroom hs hc]

end Repack

theorem packedLsbFirst_eq_ok {sessionId : CaptureSessionId} {sequence startSample sampleCount bitOffset : Nat}
    {channels : List CaptureChannelId} {bytes : Bytes} (hc : channels ≠ []) (hs : 0 < sampleCount)
    (hb : bitOffset < 8) (he : startSample + sampleCount < 2 ^ 64) (hl : bytes.length < 2 ^ 64)
    (hr : sampleCount * channels.length ≤ 8 * bytes.length - bitOffset) :
    packedLsbFirst sessionId sequence startSample sampleCount channels bytes bitOffset =
      .ok ⟨sessionId, sequence, startSample, sampleCount, channels, bytes, bitOffset, hc, hs, hb, he, hl, hr⟩ := by
  have hpos : 0 < sampleCount * channels.length := Nat.mul_pos hs (List.length_pos_iff.mpr hc)
  unfold packedLsbFirst
  rw [dif_neg hc, dif_neg (by omega), dif_neg (by omega), dif_neg (by omega), dif_neg (by omega),
    dif_neg (by omega)]

/-- What a slice holds. -/
structure SliceOf (chunk : CaptureChunk) (originSample outputSequence : Nat) (slice : CaptureChunk) : Prop where
  sessionId : slice.sessionId = chunk.sessionId
  channels : slice.channels = chunk.channels
  sequence : slice.sequence = outputSequence
  startSample : slice.startSample = chunk.startSample - originSample
  endSample : slice.endSample = chunk.endSample - originSample
  samples : slice.samples = chunk.samples.drop (originSample - chunk.startSample)

theorem samples_eq_drop {slice chunk : CaptureChunk} {skipped : Nat} (hc : slice.channels = chunk.channels)
    (hn : slice.sampleCount = chunk.sampleCount - skipped)
    (hl : ∀ sample < slice.sampleCount, ∀ channel < chunk.channels.length,
      slice.packedLevel sample channel = chunk.packedLevel (skipped + sample) channel) :
    slice.samples = chunk.samples.drop skipped := by
  apply List.ext_getElem
  · simp [hn]
  · intro sample hsample _
    rw [samples_length] at hsample
    simp only [samples, levels, List.getElem_map, List.getElem_range, List.getElem_drop, hc]
    apply List.map_congr_left
    intro channel hchannel
    exact hl sample hsample channel (List.mem_range.mp hchannel)

theorem repacked_samples {slice chunk : CaptureChunk} {skipped byteCount : Nat}
    (hc : slice.channels = chunk.channels) (hn : slice.sampleCount = chunk.sampleCount - skipped)
    (ho : slice.bitOffset = 0)
    (hb : slice.bytes = chunk.repack skipped slice.sampleCount (List.replicate byteCount 0))
    (hroom : slice.sampleCount * chunk.channels.length ≤ 8 * byteCount) :
    slice.samples = chunk.samples.drop skipped := by
  apply samples_eq_drop hc hn
  intro sample hsample channel hchannel
  have hold : skipped + sample < chunk.sampleCount := by omega
  rw [packedLevel_eq_some hsample (by rwa [hc]), packedLevel_eq_some hold hchannel, ho, hb, hc, Nat.add_zero,
    bitAt_repack_level chunk skipped hroom hsample hchannel, packedLevel_eq_some hold hchannel]
  simp

theorem recordingSlice_spec (chunk : CaptureChunk) (originSample outputSequence : Nat) :
    (chunk.endSample ≤ originSample ∧ chunk.recordingSlice originSample outputSequence = .ok none) ∨
    (originSample < chunk.endSample ∧ ∃ slice, chunk.recordingSlice originSample outputSequence = .ok (some slice) ∧
      SliceOf chunk originSample outputSequence slice) := by
  rw [recordingSlice]
  by_cases hend : chunk.endSample ≤ originSample
  · exact Or.inl ⟨hend, if_pos hend⟩
  · have hlt : originSample < chunk.endSample := Nat.lt_of_not_le hend
    refine Or.inr ⟨hlt, ?_⟩
    rw [if_neg hend]
    by_cases hskip : originSample - chunk.startSample = 0
    · simp only [hskip, if_true]
      rw [if_neg (by omega)]
      refine ⟨_, rfl, rfl, rfl, rfl, rfl, ?_, ?_⟩
      · simp only [endSample] at hlt ⊢
        omega
      · rw [hskip]
        rfl
    · have hcount : 0 < chunk.sampleCount - (originSample - chunk.startSample) := by
        simp only [endSample] at hlt
        omega
      have hbits : (chunk.sampleCount - (originSample - chunk.startSample)) * chunk.channels.length ≤
          chunk.sampleCount * chunk.channels.length := Nat.mul_le_mul_right _ (Nat.sub_le _ _)
      have hbytes := chunk.bytes_lt
      have hle := chunk.bits_le
      have hrange := chunk.endSample_lt
      have hroom : (chunk.sampleCount - (originSample - chunk.startSample)) * chunk.channels.length ≤
          8 * (((chunk.sampleCount - (originSample - chunk.startSample)) * chunk.channels.length + 7) / 8) := by
        omega
      simp only [hskip, if_false]
      rw [if_neg (by omega), packedLsbFirst_eq_ok chunk.channels_ne hcount (by omega) (by omega)
        (by rw [repack_length, List.length_replicate]; omega)
        (by rw [repack_length, List.length_replicate]; omega)]
      refine ⟨_, rfl, rfl, rfl, rfl, ?_, ?_, repacked_samples rfl rfl rfl rfl hroom⟩
      · show 0 = _
        omega
      · simp only [endSample] at hlt ⊢
        omega

end CaptureChunk

/-- `CaptureStoreDescriptor::new` refuses an empty channel table. -/
structure CaptureStoreDescriptor where
  sessionId : CaptureSessionId
  channels : List CaptureChannelId
  channels_ne : channels ≠ []
  deriving DecidableEq

def timeline (chunks : List CaptureChunk) : List (List (Option Bool)) :=
  chunks.flatMap CaptureChunk.samples

@[simp] theorem timeline_nil : timeline [] = [] := rfl

@[simp] theorem timeline_cons (chunk : CaptureChunk) (chunks : List CaptureChunk) :
    timeline (chunk :: chunks) = chunk.samples ++ timeline chunks :=
  List.flatMap_cons

@[simp] theorem timeline_append (xs ys : List CaptureChunk) :
    timeline (xs ++ ys) = timeline xs ++ timeline ys :=
  List.flatMap_append

theorem length_le_timeline (chunks : List CaptureChunk) : chunks.length ≤ (timeline chunks).length := by
  induction chunks with
  | nil => simp
  | cons chunk chunks ih =>
    have hpos := chunk.samples_pos
    simp only [timeline_cons, List.length_append, CaptureChunk.samples_length, List.length_cons]
    omega

structure ContinuesSession (descriptor : CaptureStoreDescriptor) (sequence sample : Nat) (chunk : CaptureChunk) : Prop where
  sessionId : chunk.sessionId = descriptor.sessionId
  channels : chunk.channels = descriptor.channels
  sequence : chunk.sequence = sequence
  startSample : chunk.startSample = sample

/-- Chunks of one session without a gap, from a sequence number and a sample on. -/
def ContiguousFrom (descriptor : CaptureStoreDescriptor) : Nat → Nat → List CaptureChunk → Prop
  | _, _, [] => True
  | sequence, sample, chunk :: rest =>
    ContinuesSession descriptor sequence sample chunk ∧ ContiguousFrom descriptor (sequence + 1) chunk.endSample rest

variable {descriptor : CaptureStoreDescriptor} {sequence sample : Nat} {chunks : List CaptureChunk}

theorem contiguousFrom_append_singleton :
    ContiguousFrom descriptor sequence sample (chunks ++ [chunk]) ↔
      ContiguousFrom descriptor sequence sample chunks ∧
        ContinuesSession descriptor (sequence + chunks.length) (sample + (timeline chunks).length) chunk := by
  induction chunks generalizing sequence sample with
  | nil => simp [ContiguousFrom]
  | cons first chunks ih =>
    simp only [List.cons_append, ContiguousFrom, ih, List.length_cons, timeline_cons, List.length_append,
      CaptureChunk.samples_length, CaptureChunk.endSample]
    rw [and_assoc]
    apply and_congr_right
    intro hfirst
    rw [hfirst.startSample, show sequence + 1 + chunks.length = sequence + (chunks.length + 1) by omega,
      Nat.add_assoc]

theorem ContiguousFrom.of_prefix {chunks whole : List CaptureChunk}
    (h : ContiguousFrom descriptor sequence sample whole) (hp : chunks <+: whole) :
    ContiguousFrom descriptor sequence sample chunks := by
  induction chunks generalizing whole sequence sample with
  | nil => trivial
  | cons chunk chunks ih =>
    obtain ⟨rest, rfl⟩ := hp
    exact ⟨h.1, ih h.2 (List.prefix_append _ _)⟩

theorem ContiguousFrom.getElem {sequence sample i : Nat} (h : ContiguousFrom descriptor sequence sample chunks)
    (hget : chunks[i]? = some chunk) :
    ContinuesSession descriptor (sequence + i) (sample + (timeline (chunks.take i)).length) chunk := by
  obtain ⟨hi, heq⟩ := List.getElem?_eq_some_iff.mp hget
  have hpre := h.of_prefix (List.take_prefix (i + 1) chunks)
  rw [List.take_add_one, hget] at hpre
  have hlast := (contiguousFrom_append_singleton.mp hpre).2
  rwa [List.length_take, Nat.min_eq_left (Nat.le_of_lt hi)] at hlast

theorem ContiguousFrom.mem_range (h : ContiguousFrom descriptor sequence sample chunks) (hmem : chunk ∈ chunks) :
    sample ≤ chunk.startSample ∧ chunk.endSample ≤ sample + (timeline chunks).length := by
  induction chunks generalizing sequence sample with
  | nil => cases hmem
  | cons first chunks ih =>
    obtain ⟨hfirst, hrest⟩ := h
    have hstart := hfirst.startSample
    rw [timeline_cons, List.length_append, CaptureChunk.samples_length]
    rcases List.mem_cons.mp hmem with rfl | hmem
    · simp only [CaptureChunk.endSample]
      omega
    · obtain ⟨hlow, hhigh⟩ := ih hrest hmem
      have hend : first.endSample = first.startSample + first.sampleCount := rfl
      omega

theorem ContiguousFrom.chunk_at {sequence sample position : Nat} (h : ContiguousFrom descriptor sequence sample chunks)
    (hlow : sample ≤ position) (hhigh : position < sample + (timeline chunks).length) :
    ∃ chunk ∈ chunks, chunk.startSample ≤ position ∧ position < chunk.endSample := by
  induction chunks generalizing sequence sample with
  | nil =>
    rw [timeline_nil, List.length_nil] at hhigh
    omega
  | cons first chunks ih =>
    obtain ⟨hfirst, hrest⟩ := h
    have hstart := hfirst.startSample
    have hend : first.endSample = first.startSample + first.sampleCount := rfl
    rw [timeline_cons, List.length_append, CaptureChunk.samples_length] at hhigh
    by_cases hin : position < first.endSample
    · exact ⟨first, List.mem_cons_self, by omega, hin⟩
    · obtain ⟨chunk, hmem, hrange⟩ := ih hrest (by omega) (by omega)
      exact ⟨chunk, List.mem_cons_of_mem _ hmem, hrange⟩

end LogicConduit
