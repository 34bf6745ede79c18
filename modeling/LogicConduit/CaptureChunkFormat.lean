import LogicConduit.Crc32c
import LogicConduit.RecordingCursor

namespace LogicConduit

def chunkMagic : Bytes := [0x44, 0x53, 0x4c, 0x43, 0x48, 0x4b, 0x30, 0x31]

def chunkFormatVersion : Nat := 1

def utf8Bytes (text : String) : Bytes := text.toByteArray.data.toList

def fromUtf8 (bytes : Bytes) : Option String := String.fromUTF8? ⟨bytes.toArray⟩

def channelBytes (channel : CaptureChannelId) : Bytes :=
  leBytes 4 (utf8Bytes channel).length ++ utf8Bytes channel

def encodeChannels : List CaptureChannelId → Except CaptureStoreError Bytes
  | [] => .ok []
  | channel :: rest =>
    if 2 ^ 32 ≤ (utf8Bytes channel).length then .error (.invalidChunk "capture channel identity is too long")
    else (encodeChannels rest).map (channelBytes channel ++ ·)

def chunkHeader (chunk : CaptureChunk) : Bytes :=
  chunkMagic ++ (leBytes 2 chunkFormatVersion ++ ([UInt8.ofNat chunk.bitOffset] ++ ([0] ++
    (leBytes 16 chunk.sessionId.toNat ++ (leBytes 8 chunk.sequence ++ (leBytes 8 chunk.startSample ++
    (leBytes 8 chunk.sampleCount ++ (leBytes 4 chunk.channels.length ++ leBytes 8 chunk.bytes.length))))))))

/-- A vector has less than `2 ^ 63` bytes; a process that asks for more does not come back. -/
def encodeChunk (chunk : CaptureChunk) : Except CaptureStoreError Bytes :=
  match encodeChannels chunk.channels with
  | .error error => .error error
  | .ok channels =>
    if 2 ^ 32 ≤ chunk.channels.length then .error (.invalidChunk "too many capture channels")
    else if 2 ^ 63 ≤ 68 + channels.length + chunk.bytes.length then .error .outOfMemory
    else
      let output := chunkHeader chunk ++ (channels ++ chunk.bytes)
      .ok (output ++ leBytes 4 (Crc32c.checksumParts [output]).toNat)

def corrupt {α : Type} (message : String) : Except CaptureStoreError α := .error (.corrupt message)

/-- `get_u16`, `get_u32`, `get_u64` and `get_u128`. -/
def getLe (bytes : Bytes) (offset width : Nat) : Except CaptureStoreError Nat :=
  match readLe bytes offset width with
  | some value => .ok value
  | none => corrupt "capture chunk is truncated"

def checkedOffset (message : String) (offset length : Nat) : Except CaptureStoreError Nat :=
  if offset + length < 2 ^ 64 then .ok (offset + length) else corrupt message

def readChannels (bytes : Bytes) : Nat → Nat → Except CaptureStoreError (List CaptureChannelId × Nat)
  | 0, offset => .ok ([], offset)
  | count + 1, offset => do
    let nameLen ← getLe bytes offset 4
    let start ← checkedOffset "chunk channel offset overflow" offset 4
    let stop ← checkedOffset "chunk channel offset overflow" start nameLen
    match getRange bytes start stop with
    | none => corrupt "capture chunk channel table is truncated"
    | some name =>
      match fromUtf8 name with
      | none => corrupt "capture channel identity is not UTF-8"
      | some name =>
        let (rest, behind) ← readChannels bytes count stop
        return (name :: rest, behind)

def decodeChunk (descriptor : CaptureStoreDescriptor) (sequence : Nat) (bytes : Bytes) :
    Except CaptureStoreError CaptureChunk := do
  if bytes.length < 68 ∨ bytes.take 8 ≠ chunkMagic then
    corrupt s!"capture chunk {sequence} has an invalid header"
  let storedChecksum ← getLe bytes (bytes.length - 4) 4
  if (Crc32c.checksumParts [bytes.take (bytes.length - 4)]).toNat ≠ storedChecksum then
    corrupt s!"capture chunk {sequence} checksum mismatch"
  let version ← getLe bytes 8 2
  let session ← getLe bytes 12 16
  let stored ← getLe bytes 28 8
  if version ≠ chunkFormatVersion ∨ session ≠ descriptor.sessionId.toNat ∨ stored ≠ sequence then
    corrupt s!"capture chunk {sequence} identity mismatch"
  let bitOffset := (bytes.getD 10 0).toNat
  let startSample ← getLe bytes 36 8
  let sampleCount ← getLe bytes 44 8
  let channelCount ← getLe bytes 52 4
  let payloadLen ← getLe bytes 56 8
  let (channels, offset) ← readChannels bytes channelCount 64
  if channels ≠ descriptor.channels then
    corrupt "capture chunk channel table differs from its manifest"
  let payloadEnd ← checkedOffset "chunk payload offset overflow" offset payloadLen
  if payloadEnd + 4 ≠ bytes.length then
    corrupt "capture chunk payload length is invalid"
  let payload ← (readArtifactRegion bytes offset payloadLen).mapError .repository
  (CaptureChunk.packedLsbFirst descriptor.sessionId sequence startSample sampleCount descriptor.channels payload
    bitOffset).mapError fun error => .corrupt error.display

variable {bytes : Bytes}

theorem HasAt.getLe {offset width n : Nat} (h : HasAt bytes offset (leBytes width n)) (hn : n < 256 ^ width) :
    LogicConduit.getLe bytes offset width = .ok n := by
  rw [LogicConduit.getLe, h.readLe hn]

theorem fromUtf8_utf8Bytes (text : String) : fromUtf8 (utf8Bytes text) = some text := by
  have hbytes : (⟨(utf8Bytes text).toArray⟩ : ByteArray) = text.toByteArray := by
    simp [utf8Bytes]
  rw [fromUtf8, hbytes, String.fromUTF8?, dif_pos text.isValidUTF8]
  rfl

theorem channelBytes_length (channel : CaptureChannelId) :
    (channelBytes channel).length = 4 + (utf8Bytes channel).length := by
  rw [channelBytes, List.length_append, leBytes_length]

variable {channels : List CaptureChannelId} {chunk : CaptureChunk}

theorem encodeChannels_eq_ok (h : encodeChannels channels = .ok bytes) :
    bytes = channels.flatMap channelBytes ∧ ∀ channel ∈ channels, (utf8Bytes channel).length < 2 ^ 32 := by
  induction channels generalizing bytes with
  | nil =>
    cases h
    exact ⟨rfl, fun channel hchannel => by cases hchannel⟩
  | cons channel rest ih =>
    rw [encodeChannels] at h
    split at h
    · cases h
    next hlen =>
      cases htail : encodeChannels rest with
      | error error =>
        rw [htail] at h
        cases h
      | ok tail =>
      rw [htail] at h
      cases h
      obtain ⟨rfl, hrest⟩ := ih htail
      refine ⟨rfl, ?_⟩
      intro other hother
      rcases List.mem_cons.mp hother with rfl | hother
      · omega
      · exact hrest other hother

theorem readChannels_encoded {offset : Nat} (hnames : ∀ channel ∈ channels, (utf8Bytes channel).length < 2 ^ 32)
    (h : HasAt bytes offset (channels.flatMap channelBytes))
    (hroom : offset + (channels.flatMap channelBytes).length < 2 ^ 64) :
    readChannels bytes channels.length offset = .ok (channels, offset + (channels.flatMap channelBytes).length) := by
  induction channels generalizing offset with
  | nil => rfl
  | cons channel rest ih =>
    rw [List.flatMap_cons] at h
    obtain ⟨hchannel, hrest⟩ := HasAt.append.mp h
    obtain ⟨hlen, hname⟩ := HasAt.append.mp hchannel
    rw [List.flatMap_cons, List.length_append, channelBytes_length] at hroom
    rw [channelBytes_length] at hrest
    rw [leBytes_length] at hname
    have hwidth := hlen.getLe (hnames channel List.mem_cons_self)
    have hrange := hname.getRange
    have hnext := ih (fun other hother => hnames other (List.mem_cons_of_mem _ hother)) hrest (by omega)
    rw [← Nat.add_assoc] at hnext
    simp only [List.length_cons, readChannels, hwidth, checkedOffset, bind, Except.bind]
    rw [if_pos (by omega)]
    simp only
    rw [if_pos (by omega)]
    simp only [hrange, fromUtf8_utf8Bytes, hnext, pure, Except.pure, List.flatMap_cons, List.length_append,
      channelBytes_length]
    congr 2
    omega

structure EncodedAs (chunk : CaptureChunk) (bytes : Bytes) : Prop where
  names : ∀ channel ∈ chunk.channels, (utf8Bytes channel).length < 2 ^ 32
  count : chunk.channels.length < 2 ^ 32
  length : bytes.length = 68 + (chunk.channels.flatMap channelBytes).length + chunk.bytes.length
  length_lt : bytes.length < 2 ^ 63
  header : HasAt bytes 0 (chunkHeader chunk)
  channels : HasAt bytes 64 (chunk.channels.flatMap channelBytes)
  payload : HasAt bytes (64 + (chunk.channels.flatMap channelBytes).length) chunk.bytes
  checksum : HasAt bytes (bytes.length - 4)
    (leBytes 4 (Crc32c.checksumParts [bytes.take (bytes.length - 4)]).toNat)

theorem chunkHeader_length (chunk : CaptureChunk) : (chunkHeader chunk).length = 64 := by
  simp [chunkHeader, chunkMagic]

theorem encodeChunk_eq_ok (h : encodeChunk chunk = .ok bytes) : EncodedAs chunk bytes := by
  unfold encodeChunk at h
  split at h
  · cases h
  next table hchannels =>
    obtain ⟨rfl, hnames⟩ := encodeChannels_eq_ok hchannels
    split at h
    · cases h
    next hcount =>
      split at h
      · cases h
      next hroom =>
        have hbytes := (Except.ok.inj h).symm
        generalize houtput : chunkHeader chunk ++ (chunk.channels.flatMap channelBytes ++ chunk.bytes) = output
          at hbytes
        have hlen : output.length = 64 + (chunk.channels.flatMap channelBytes).length + chunk.bytes.length := by
          rw [← houtput, List.length_append, List.length_append, chunkHeader_length]
          omega
        have hlength : bytes.length = output.length + 4 := by
          rw [hbytes, List.length_append, leBytes_length]
        have htake : bytes.take (bytes.length - 4) = output := by
          rw [hlength, Nat.add_sub_cancel, hbytes, List.take_left]
        have hparts : HasAt bytes 0 output := ⟨[], _, by rw [hbytes]; rfl, rfl⟩
        rw [← houtput] at hparts
        obtain ⟨hheader, hrest⟩ := HasAt.append.mp hparts
        obtain ⟨htable, hpayload⟩ := HasAt.append.mp hrest
        rw [chunkHeader_length, Nat.zero_add] at htable hpayload
        refine ⟨hnames, by omega, by omega, by omega, hheader, htable, hpayload, ?_⟩
        rw [htake, hlength, Nat.add_sub_cancel, hbytes]
        exact hasAt_append_right output _

theorem decodeChunk_encoded {descriptor : CaptureStoreDescriptor}
    (h : encodeChunk chunk = .ok bytes) (hsession : chunk.sessionId = descriptor.sessionId)
    (hchannels : chunk.channels = descriptor.channels) (hsequence : chunk.sequence < 2 ^ 64) :
    decodeChunk descriptor chunk.sequence bytes = .ok chunk := by
  have henc := encodeChunk_eq_ok h
  have hlength := henc.length
  have hlt := henc.length_lt
  have hheader := henc.header
  simp only [chunkHeader, HasAt.append, leBytes_length, List.length_singleton,
    show chunkMagic.length = 8 from rfl, Nat.zero_add, Nat.reduceAdd] at hheader
  obtain ⟨hmagic, hversion, hoffset, -, hid, hseq, hstart, hcount, htable, hpayload⟩ := hheader
  have hrange := chunk.endSample_lt
  have htake : bytes.take 8 = chunkMagic := by
    obtain ⟨rest, hrest⟩ := hmagic.drop
    rw [List.drop_zero] at hrest
    rw [hrest]
    exact List.take_left' rfl
  have hbit : (bytes.getD 10 0).toNat = chunk.bitOffset := by
    have hlow := chunk.bitOffset_lt
    rw [List.getD_eq_getElem?_getD, hoffset.head, Option.getD_some, UInt8.toNat_ofNat']
    omega
  have hregion : readArtifactRegion bytes (64 + (chunk.channels.flatMap channelBytes).length) chunk.bytes.length =
      .ok chunk.bytes := henc.payload.readArtifactRegion (by omega)
  have hnames := readChannels_encoded henc.names henc.channels (by omega)
  have hsum := henc.checksum.getLe (UInt32.toNat_lt _)
  have hbuild := @CaptureChunk.packedLsbFirst_eq_ok chunk.sessionId chunk.sequence chunk.startSample chunk.sampleCount
    chunk.bitOffset chunk.channels chunk.bytes chunk.channels_ne chunk.samples_pos chunk.bitOffset_lt
    chunk.endSample_lt chunk.bytes_lt chunk.bits_le
  have hheaderOk : ¬(bytes.length < 68 ∨ bytes.take 8 ≠ chunkMagic) := by
    rw [htake]
    simp only [ne_eq, not_true_eq_false, or_false]
    omega
  simp only [decodeChunk, hheaderOk, hsum, hversion.getLe (show chunkFormatVersion < 256 ^ 2 by decide),
    hid.getLe chunk.sessionId.isLt, hseq.getLe hsequence, hstart.getLe (show chunk.startSample < 256 ^ 8 by omega),
    hcount.getLe (show chunk.sampleCount < 256 ^ 8 by omega), htable.getLe henc.count,
    hpayload.getLe chunk.bytes_lt, hnames, hbit, hsession, ← hchannels, checkedOffset, bind, Except.bind, ne_eq,
    not_true_eq_false, or_self, if_false]
  rw [if_pos (by omega)]
  simp only
  rw [if_neg (by omega)]
  simp only [hregion, Except.mapError]
  rw [← hsession, hbuild]

end LogicConduit
