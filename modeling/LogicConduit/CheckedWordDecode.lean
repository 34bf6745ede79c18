import LogicConduit.WordDecode

namespace LogicConduit

abbrev Decoding (α : Type) := Checked CodecError α

namespace Vlq

def checkedDecodeLoop (input : Bytes) : Nat → Nat → Nat → Nat → Decoding (Nat × Nat)
  | 0, _, _, _ => .failed .vlqOverflow
  | fuel + 1, byteIndex, value, cursor =>
    match input[cursor]? with
    | none => .failed .truncated
    | some byte => do
      let next ← Checked.add cursor 1
      if byteIndex = 9 ∧ 1 < byte.toNat then .failed .vlqOverflow
      else do
        let group ← Checked.shiftLeft 64 (byte.toNat &&& 0x7f) (byteIndex * 7)
        if byte.toNat &&& 0x80 = 0 then .done (value ||| group, next)
        else checkedDecodeLoop input fuel (byteIndex + 1) (value ||| group) next

def checkedDecodeU64 (input : Bytes) (cursor : Nat) : Decoding (Nat × Nat) :=
  checkedDecodeLoop input 10 0 0 cursor

end Vlq

open Vlq

def WordBlockHeader.checkedFromBytes (bytes : Bytes) : Decoding WordBlockHeader :=
  if bytes.length < blockHeaderSize then .failed .truncated
  else do
    let magic ← Checked.slice bytes 0 4
    if magic ≠ blockMagic then .ofExcept (invalid "invalid word-block magic")
    else do
      let size ← Checked.ofExcept (getU16 bytes 4)
      if size.toNat ≠ blockHeaderSize then .ofExcept (invalid "invalid word-block header size")
      else do
        let reserved ← Checked.slice bytes 37 40
        let trailing ← Checked.slice bytes 68 72
        if reserved.any (· ≠ 0) || trailing.any (· ≠ 0) then
          .ofExcept (invalid "non-zero reserved word-block header bytes")
        else do
          let flags ← Checked.ofExcept (getU16 bytes 6)
          let sequence ← Checked.ofExcept (getU64 bytes 8)
          let firstTimestampNs ← Checked.ofExcept (getU64 bytes 16)
          let lastTimestampNs ← Checked.ofExcept (getU64 bytes 24)
          let wordCount ← Checked.ofExcept (getU32 bytes 32)
          let valueBytes ← Checked.index bytes 36
          let recordPayloadLen ← Checked.ofExcept (getU32 bytes 40)
          let restartCount ← Checked.ofExcept (getU32 bytes 44)
          let restartTableOffset ← Checked.ofExcept (getU32 bytes 48)
          let durationCount ← Checked.ofExcept (getU32 bytes 52)
          let durationTableOffset ← Checked.ofExcept (getU32 bytes 56)
          let blockLen ← Checked.ofExcept (getU32 bytes 60)
          let crc32c ← Checked.ofExcept (getU32 bytes blockChecksumOffset)
          return ⟨flags, sequence, firstTimestampNs, lastTimestampNs, wordCount, valueBytes, recordPayloadLen,
            restartCount, restartTableOffset, durationCount, durationTableOffset, blockLen, crc32c⟩

/-- `get_u32(bytes, offset + skip)`, and the same of 64 bits. -/
def checkedRead {α : Type} (read : Bytes → Nat → CodecResult α) (bytes : Bytes) (offset skip width : Nat) :
    Decoding α := do
  let start ← Checked.add offset skip
  let _ ← Checked.add start width
  .ofExcept (read bytes start)

def RestartEntry.checkedReadFrom (bytes : Bytes) (offset : Nat) : Decoding RestartEntry := do
  let timestampNs ← checkedRead getU64 bytes offset 0 8
  let payloadOffset ← checkedRead getU32 bytes offset 8 4
  let recordIndex ← checkedRead getU32 bytes offset 12 4
  return ⟨timestampNs, payloadOffset, recordIndex⟩

def checkedReadPackedIndex (bytes : Bytes) (packedOffset index bits : Nat) : Decoding Nat := do
  let bitOffset ← Checked.mul index bits
  let byteIndex ← Checked.add packedOffset (bitOffset / 8)
  let low ← Checked.index bytes byteIndex
  let next ← Checked.add byteIndex 1
  let bound ← Checked.shiftLeft 16 1 bits
  let mask ← Checked.sub bound 1
  return ((low.toNat ||| (bytes.getD next 0).toNat <<< 8) >>> (bitOffset % 8)) &&& mask

def checkedReadValue (bytes : Bytes) (cursor recordEnd width : Nat) : Decoding (UInt64 × Nat) :=
  if 2 ^ 64 ≤ cursor + width then .failed .truncated
  else
    match getRange bytes cursor (min (cursor + width) recordEnd) with
    | some encoded =>
      if encoded.length = width then do
        let _ ← Checked.slice (List.replicate 8 (0 : UInt8)) 0 width
        return (UInt64.ofNat (ofLeBytes encoded), cursor + width)
      else .failed .truncated
    | none => .failed .truncated

namespace RecordDecoder

variable (bytes : Bytes) (parsed : ParsedWordBlock)

/-- `decode_u64(&bytes[..record_end], &mut cursor)`. -/
def checkedDelta (cursor : Nat) : Decoding (Nat × Nat) := do
  let records ← Checked.slice bytes 0 parsed.recordEnd
  checkedDecodeU64 records cursor

def checkedDeltas : Nat → Nat → Decoding (List Nat × Nat)
  | 0, cursor => .done ([], cursor)
  | count + 1, cursor => do
    let first ← checkedDelta bytes parsed cursor
    let rest ← checkedDeltas count first.2
    return (first.1 :: rest.1, rest.2)

def checkedTimestampPalette (decoder : RecordDecoder) (recordIndex : Nat) :
    Decoding (GroupTimestampDecoder × Nat) :=
  match bytes[decoder.cursor]? with
  | none => .failed .truncated
  | some paletteLen => do
    let cursor ← Checked.add decoder.cursor 1
    if ¬(2 ≤ paletteLen.toNat ∧ paletteLen.toNat ≤ 16) then
      .ofExcept (invalid "invalid timestamp palette length")
    else do
      let _ ← Checked.slice (List.replicate 16 0) 0 paletteLen.toNat
      let palette ← checkedDeltas bytes parsed paletteLen.toNat cursor
      let following ← Checked.add decoder.nextRestartIndex 1
      let groupEnd := (parsed.restarts[following]?.map (·.recordIndex.toNat)).getD parsed.header.wordCount.toNat
      let nextRecord ← Checked.add recordIndex 1
      if groupEnd < nextRecord then .ofExcept (invalid "timestamp restart group is invalid")
      else do
        let deltaCount := groupEnd - nextRecord
        let bits := paletteIndexBits paletteLen.toNat
        let packedBits ← Checked.mul deltaCount bits
        let packedLen := (packedBits + 7) / 8
        if palette.2 + packedLen ≤ parsed.recordEnd then
          .done (.palette palette.1 bits palette.2 deltaCount 0, palette.2 + packedLen)
        else .failed .truncated

def checkedGroupMode (decoder : RecordDecoder) (recordIndex : Nat) (mode : UInt8) :
    Decoding (GroupTimestampDecoder × Nat) :=
  if mode = 0 then .done (.raw, decoder.cursor)
  else if mode = 1 then do
    let delta ← checkedDelta bytes parsed decoder.cursor
    return (.constant delta.1, delta.2)
  else if mode = 2 then decoder.checkedTimestampPalette bytes parsed recordIndex
  else .ofExcept (invalid "invalid grouped timestamp mode")

def checkedPayloadOffset (decoder : RecordDecoder) : Decoding UInt32 := do
  let offset ← Checked.sub decoder.cursor blockHeaderSize
  return UInt32.ofNat offset

def checkedStartGroup (decoder : RecordDecoder) (restart : RestartEntry) (payloadOffset : UInt32)
    (recordIndex : Nat) : Decoding RecordDecoder :=
  if ¬decoder.groupTimestamps.isComplete then
    .ofExcept (invalid "timestamp palette extends beyond its restart group")
  else if restart.payloadOffset ≠ payloadOffset then
    .ofExcept (invalid "restart entry does not match record payload")
  else
    match bytes[decoder.cursor]? with
    | none => .failed .truncated
    | some mode => do
      let cursor ← Checked.add decoder.cursor 1
      let group ← RecordDecoder.checkedGroupMode bytes parsed
        { decoder with timestamp := restart.timestampNs.toNat, cursor } recordIndex mode
      let nextRestartIndex ← Checked.add decoder.nextRestartIndex 1
      return { decoder with
        timestamp := restart.timestampNs.toNat
        groupTimestamps := group.1, cursor := group.2, nextRestartIndex }

def checkedGroupDelta (decoder : RecordDecoder) : Decoding (Nat × RecordDecoder) :=
  match decoder.groupTimestamps with
  | .raw => do
    let delta ← checkedDelta bytes parsed decoder.cursor
    return (delta.1, { decoder with cursor := delta.2 })
  | .constant delta => .done (delta, decoder)
  | .palette deltas bits packedOffset deltaCount nextDelta =>
    if deltaCount ≤ nextDelta then .ofExcept (invalid "timestamp palette is shorter than its group")
    else do
      let paletteIndex ← checkedReadPackedIndex bytes packedOffset nextDelta bits
      let following ← Checked.add nextDelta 1
      match deltas[paletteIndex]? with
      | none => .ofExcept (invalid "timestamp palette index is out of bounds")
      | some delta => .done (delta, { decoder with
          groupTimestamps := .palette deltas bits packedOffset deltaCount following })

def checkedNextGrouped (decoder : RecordDecoder) (payloadOffset : UInt32) (recordIndex : Nat) :
    Decoding RecordDecoder :=
  match decoder.dueRestart parsed recordIndex with
  | some restart => decoder.checkedStartGroup bytes parsed restart payloadOffset recordIndex
  | none => do
    let delta ← decoder.checkedGroupDelta bytes parsed
    .ofExcept (delta.2.advance delta.1)

def checkedMatchRestart (decoder : RecordDecoder) (payloadOffset : UInt32) (recordIndex : Nat) :
    Decoding RecordDecoder :=
  match decoder.dueRestart parsed recordIndex with
  | some restart =>
    if restart.timestampNs.toNat ≠ decoder.timestamp ∨ restart.payloadOffset ≠ payloadOffset then
      .ofExcept (invalid "restart entry does not match record payload")
    else do
      let nextRestartIndex ← Checked.add decoder.nextRestartIndex 1
      return { decoder with nextRestartIndex }
  | none => .done decoder

def checkedNextLegacy (decoder : RecordDecoder) (payloadOffset : UInt32) (recordIndex : Nat) :
    Decoding RecordDecoder := do
  let delta ← checkedDelta bytes parsed decoder.cursor
  let stamped ← Checked.ofExcept (RecordDecoder.legacyTimestamp { decoder with cursor := delta.2 } recordIndex delta.1)
  stamped.checkedMatchRestart parsed payloadOffset recordIndex

def checkedNextTimestamp (decoder : RecordDecoder) (payloadOffset : UInt32) (recordIndex : Nat) :
    Decoding RecordDecoder :=
  if parsed.header.flags &&& blockFlagGroupedTimestamps ≠ 0 then
    decoder.checkedNextGrouped bytes parsed payloadOffset recordIndex
  else decoder.checkedNextLegacy bytes parsed payloadOffset recordIndex

def checkedNext (decoder : RecordDecoder) (recordIndex : Nat) : Decoding (Word × RecordDecoder) := do
  let payloadOffset ← decoder.checkedPayloadOffset
  let decoder ← decoder.checkedNextTimestamp bytes parsed payloadOffset recordIndex
  let value ← checkedReadValue bytes decoder.cursor parsed.recordEnd parsed.valueBytes
  return (Word.new value.1 (UInt64.ofNat decoder.timestamp), { decoder with cursor := value.2 })

def checkedRecords : Nat → Nat → RecordDecoder → Decoding (List Word × RecordDecoder)
  | 0, _, decoder => .done ([], decoder)
  | count + 1, recordIndex, decoder => do
    let first ← decoder.checkedNext bytes parsed recordIndex
    let rest ← checkedRecords count (recordIndex + 1) first.2
    return (first.1 :: rest.1, rest.2)

end RecordDecoder

def checkedReadRestarts (bytes : Bytes) (restartOffset : Nat) : Nat → Nat → Decoding (List RestartEntry)
  | 0, _ => .done []
  | count + 1, index => do
    let skipped ← Checked.mul index restartEntrySize
    let offset ← Checked.add restartOffset skipped
    let restart ← RestartEntry.checkedReadFrom bytes offset
    let rest ← checkedReadRestarts bytes restartOffset count (index + 1)
    return restart :: rest

def checkedParseWordBlock (blockChecksum : Bytes → Nat → UInt32) (bytes : Bytes) : Decoding ParsedWordBlock := do
  let header ← WordBlockHeader.checkedFromBytes bytes
  let blockLen := header.blockLen.toNat
  if blockLen ≠ bytes.length ∨ blockLen < blockHeaderSize then
    .ofExcept (invalid "word-block length does not match its header")
  else if blockChecksum bytes blockChecksumOffset ≠ header.crc32c then
    .failed (.checksumMismatch header.crc32c (blockChecksum bytes blockChecksumOffset))
  else if header.wordCount = 0 then .failed .emptyBlock
  else if header.valueBytes ∉ [1, 2, 4, 8] then .ofExcept (invalid "invalid value width")
  else if header.flags &&& ~~~(blockFlagHasDurations ||| blockFlagHasPayloads |||
      blockFlagGroupedTimestamps) ≠ 0 then
    .ofExcept (invalid "word block contains unsupported flags")
  else do
    let recordEnd ← Checked.add blockHeaderSize header.recordPayloadLen.toNat
    let restartBytes ← Checked.mul header.restartCount.toNat restartEntrySize
    let restartEnd ← Checked.add header.restartTableOffset.toNat restartBytes
    if header.restartTableOffset.toNat ≠ recordEnd ∨ header.durationTableOffset.toNat ≠ restartEnd ∨
        blockLen < header.durationTableOffset.toNat then
      .ofExcept (invalid "word-block table offsets are inconsistent")
    else do
      let restarts ← checkedReadRestarts bytes header.restartTableOffset.toNat header.restartCount.toNat 0
      let _ ← Checked.ofExcept (validateRestartOrder restarts header.wordCount header.recordPayloadLen)
      return {
        header, restarts, recordEnd, blockLen
        durationOffset := header.durationTableOffset.toNat
        valueBytes := header.valueBytes.toNat }

def checkedDurations (bytes : Bytes) (wordCount firstRecordIndex : Nat) :
    Nat → Bool → Nat → Nat → List Word → Decoding (Nat × List Word)
  | 0, _, cursor, _, words => .done (cursor, words)
  | count + 1, first, cursor, previous, words => do
    let indexDelta ← checkedDecodeU64 bytes cursor
    let recordIndex ← Checked.ofExcept (exceptionIndex first previous indexDelta.1
      "duration exception indices are not increasing" "duration index overflow")
    let duration ← checkedDecodeU64 bytes indexDelta.2
    if duration.1 = 0 then .ofExcept (invalid "zero duration stored as an exception")
    else if wordCount ≤ recordIndex then .ofExcept (invalid "duration exception index is out of bounds")
    else
      checkedDurations bytes wordCount firstRecordIndex count false duration.2 recordIndex
        (modifyRecord words firstRecordIndex recordIndex
          (fun word => { word with durationNs := UInt64.ofNat duration.1 }))

def checkedPayloads (bytes : Bytes) (wordCount firstRecordIndex : Nat) :
    Nat → Bool → Nat → Nat → List Word → Decoding (Nat × List Word)
  | 0, _, cursor, _, words => .done (cursor, words)
  | count + 1, first, cursor, previous, words => do
    let indexDelta ← checkedDecodeU64 bytes cursor
    let recordIndex ← Checked.ofExcept (exceptionIndex first previous indexDelta.1
      "word payload indices are not increasing" "word payload index overflow")
    if wordCount ≤ recordIndex then .ofExcept (invalid "word payload index is out of bounds")
    else
      match bytes[indexDelta.2]? with
      | none => .failed .truncated
      | some kind => do
        let lengthCursor ← Checked.add indexDelta.2 1
        let length ← checkedDecodeU64 bytes lengthCursor
        if 2 ^ 64 ≤ length.2 + length.1 then .ofExcept (invalid "word payload length overflow")
        else
          match getRange bytes length.2 (length.2 + length.1) with
          | none => .failed .truncated
          | some value => do
            let payload ← Checked.ofExcept (decodePayload kind value)
            checkedPayloads bytes wordCount firstRecordIndex count false (length.2 + length.1) recordIndex
              (modifyRecord words firstRecordIndex recordIndex
                (fun word => { word with payload := some payload }))

def checkedPayloadTable (bytes : Bytes) (parsed : ParsedWordBlock) (firstRecordIndex cursor : Nat)
    (words : List Word) : Decoding (Nat × List Word) :=
  if parsed.header.flags &&& blockFlagHasPayloads ≠ 0 then do
    let payloadCount ← checkedDecodeU64 bytes cursor
    checkedPayloads bytes parsed.header.wordCount.toNat firstRecordIndex payloadCount.1 true payloadCount.2 0 words
  else .done (cursor, words)

def checkedApplyDurations (bytes : Bytes) (parsed : ParsedWordBlock) (firstRecordIndex : Nat)
    (words : List Word) : Decoding (List Word) := do
  let durations ← checkedDurations bytes parsed.header.wordCount.toNat firstRecordIndex
    parsed.header.durationCount.toNat true parsed.durationOffset 0 words
  let payloads ← checkedPayloadTable bytes parsed firstRecordIndex durations.1 durations.2
  match getRange bytes payloads.1 parsed.blockLen with
  | none => .failed .truncated
  | some padding =>
    if 7 < padding.length ∨ padding.any (· ≠ 0) then .ofExcept (invalid "invalid word-block padding")
    else .done payloads.2

def checkedDecodeWordBlock (blockChecksum : Bytes → Nat → UInt32) (bytes : Bytes) : Decoding DecodedWordBlock := do
  let parsed ← checkedParseWordBlock blockChecksum bytes
  let header := parsed.header
  let restart ← Checked.ofOption .outOfRange parsed.restarts[0]?
  let cursor ← Checked.add blockHeaderSize restart.payloadOffset.toNat
  let records ← RecordDecoder.checkedRecords bytes parsed header.wordCount.toNat 0
    ⟨cursor, restart.timestampNs.toNat, 0, .raw, false⟩
  let decoder := records.2
  if decoder.cursor ≠ parsed.recordEnd ∨ decoder.nextRestartIndex ≠ parsed.restarts.length ∨
      ¬decoder.groupTimestamps.isComplete then
    .ofExcept (invalid "record payload length is inconsistent")
  else if decoder.timestamp ≠ header.lastTimestampNs.toNat then
    .ofExcept (invalid "last timestamp does not match block header")
  else do
    let words ← checkedApplyDurations bytes parsed 0 records.1
    return { header, restarts := parsed.restarts, words }

end LogicConduit
