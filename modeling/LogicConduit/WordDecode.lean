import LogicConduit.WordEncode

namespace LogicConduit

open Vlq

structure DecodedWordBlock where
  header : WordBlockHeader
  restarts : List RestartEntry
  words : List Word
  deriving DecidableEq

structure DecodedWordRange where
  header : WordBlockHeader
  words : List Word
  complete : Bool
  decodedRecords : Nat
  deriving DecidableEq

structure ParsedWordBlock where
  header : WordBlockHeader
  restarts : List RestartEntry
  recordEnd : Nat
  durationOffset : Nat
  blockLen : Nat
  valueBytes : Nat
  deriving DecidableEq

/-- The timestamps of the current restart group; a palette holds the deltas it was decoded with. -/
inductive GroupTimestampDecoder
  | raw
  | constant (delta : Nat)
  | palette (deltas : List Nat) (bits packedOffset deltaCount nextDelta : Nat)
  deriving DecidableEq

def GroupTimestampDecoder.isComplete : GroupTimestampDecoder → Bool
  | .raw => true
  | .constant _ => true
  | .palette _ _ _ deltaCount nextDelta => nextDelta = deltaCount

def readPackedIndex (bytes : Bytes) (packedOffset index bits : Nat) : Nat :=
  let bitOffset := index * bits
  let byteIndex := packedOffset + bitOffset / 8
  let shift := bitOffset % 8
  let low := (bytes.getD byteIndex 0).toNat
  let high := (bytes.getD (byteIndex + 1) 0).toNat
  ((low ||| high <<< 8) >>> shift) &&& (1 <<< bits - 1)

def readValue (bytes : Bytes) (cursor recordEnd width : Nat) : CodecResult (UInt64 × Nat) :=
  match getRange bytes cursor (min (cursor + width) recordEnd) with
  | some encoded =>
    if encoded.length = width then .ok (UInt64.ofNat (ofLeBytes encoded), cursor + width)
    else .error .truncated
  | none => .error .truncated

structure RecordDecoder where
  cursor : Nat
  timestamp : Nat
  nextRestartIndex : Nat
  groupTimestamps : GroupTimestampDecoder
  skipInitialLegacyDelta : Bool
  deriving DecidableEq

namespace RecordDecoder

def new (restartIndex : Nat) (restart : RestartEntry) (skipInitialLegacyDelta : Bool) :
    RecordDecoder where
  cursor := blockHeaderSize + restart.payloadOffset.toNat
  timestamp := restart.timestampNs.toNat
  nextRestartIndex := restartIndex
  groupTimestamps := .raw
  skipInitialLegacyDelta

variable (bytes : Bytes) (parsed : ParsedWordBlock)

def dueRestart (decoder : RecordDecoder) (recordIndex : Nat) : Option RestartEntry :=
  parsed.restarts[decoder.nextRestartIndex]?.filter (·.recordIndex.toNat = recordIndex)

def payloadOffset (decoder : RecordDecoder) : UInt32 :=
  UInt32.ofNat (decoder.cursor - blockHeaderSize)

def decodeDeltas : Nat → Nat → CodecResult (List Nat × Nat)
  | 0, cursor => .ok ([], cursor)
  | count + 1, cursor => do
    let (delta, cursor) ← decodeU64 (bytes.take parsed.recordEnd) cursor
    let (deltas, cursor) ← decodeDeltas count cursor
    return (delta :: deltas, cursor)

/-- Reads the palette of the group at `recordIndex` and skips its packed indices. -/
def decodeTimestampPalette (decoder : RecordDecoder) (recordIndex : Nat) :
    CodecResult (GroupTimestampDecoder × Nat) :=
  match bytes[decoder.cursor]? with
  | none => .error .truncated
  | some paletteLen =>
    if ¬(2 ≤ paletteLen.toNat ∧ paletteLen.toNat ≤ 16) then invalid "invalid timestamp palette length"
    else do
      let (deltas, cursor) ← decodeDeltas bytes parsed paletteLen.toNat (decoder.cursor + 1)
      let groupEnd := (parsed.restarts[decoder.nextRestartIndex + 1]?.map (·.recordIndex.toNat)).getD
        parsed.header.wordCount.toNat
      if groupEnd < recordIndex + 1 then invalid "timestamp restart group is invalid"
      else
        let deltaCount := groupEnd - (recordIndex + 1)
        let bits := paletteIndexBits paletteLen.toNat
        let packedLen := (deltaCount * bits + 7) / 8
        if cursor + packedLen ≤ parsed.recordEnd then
          .ok (.palette deltas bits cursor deltaCount 0, cursor + packedLen)
        else .error .truncated

def decodeGroupMode (decoder : RecordDecoder) (recordIndex : Nat) (mode : UInt8) :
    CodecResult (GroupTimestampDecoder × Nat) :=
  if mode = 0 then .ok (.raw, decoder.cursor)
  else if mode = 1 then do
    let (delta, cursor) ← decodeU64 (bytes.take parsed.recordEnd) decoder.cursor
    return (.constant delta, cursor)
  else if mode = 2 then decoder.decodeTimestampPalette bytes parsed recordIndex
  else invalid "invalid grouped timestamp mode"

def startGroup (decoder : RecordDecoder) (restart : RestartEntry) (recordIndex : Nat) :
    CodecResult RecordDecoder :=
  if ¬decoder.groupTimestamps.isComplete then
    invalid "timestamp palette extends beyond its restart group"
  else if restart.payloadOffset ≠ decoder.payloadOffset then
    invalid "restart entry does not match record payload"
  else
    match bytes[decoder.cursor]? with
    | none => .error .truncated
    | some mode => do
      let decoder := { decoder with
        timestamp := restart.timestampNs.toNat
        cursor := decoder.cursor + 1 }
      let (groupTimestamps, cursor) ← decoder.decodeGroupMode bytes parsed recordIndex mode
      return { decoder with
        groupTimestamps, cursor
        nextRestartIndex := decoder.nextRestartIndex + 1 }

def groupDelta (decoder : RecordDecoder) : CodecResult (Nat × RecordDecoder) :=
  match decoder.groupTimestamps with
  | .raw => do
    let (delta, cursor) ← decodeU64 (bytes.take parsed.recordEnd) decoder.cursor
    return (delta, { decoder with cursor })
  | .constant delta => .ok (delta, decoder)
  | .palette deltas bits packedOffset deltaCount nextDelta =>
    if deltaCount ≤ nextDelta then invalid "timestamp palette is shorter than its group"
    else
      match deltas[readPackedIndex bytes packedOffset nextDelta bits]? with
      | none => invalid "timestamp palette index is out of bounds"
      | some delta => .ok (delta, { decoder with
          groupTimestamps := .palette deltas bits packedOffset deltaCount (nextDelta + 1) })

def advance (decoder : RecordDecoder) (delta : Nat) : CodecResult RecordDecoder :=
  if decoder.timestamp + delta < 2 ^ 64 then
    .ok { decoder with timestamp := decoder.timestamp + delta }
  else invalid "timestamp delta overflow"

def nextGrouped (decoder : RecordDecoder) (recordIndex : Nat) : CodecResult RecordDecoder :=
  match decoder.dueRestart parsed recordIndex with
  | some restart => decoder.startGroup bytes parsed restart recordIndex
  | none => do
    let (delta, decoder) ← decoder.groupDelta bytes parsed
    decoder.advance delta

/-- The timestamp of a general or dense record, whose delta precedes its value. -/
def legacyTimestamp (decoder : RecordDecoder) (recordIndex delta : Nat) : CodecResult RecordDecoder :=
  if recordIndex = 0 ∧ delta ≠ 0 then invalid "first timestamp delta is not zero"
  else if decoder.skipInitialLegacyDelta then .ok { decoder with skipInitialLegacyDelta := false }
  else if recordIndex = 0 then .ok decoder
  else decoder.advance delta

def nextLegacy (decoder : RecordDecoder) (recordIndex : Nat) : CodecResult RecordDecoder := do
  let payloadOffset := decoder.payloadOffset
  let (delta, cursor) ← decodeU64 (bytes.take parsed.recordEnd) decoder.cursor
  let decoder ← RecordDecoder.legacyTimestamp { decoder with cursor } recordIndex delta
  match decoder.dueRestart parsed recordIndex with
  | some restart =>
    if restart.timestampNs.toNat ≠ decoder.timestamp ∨ restart.payloadOffset ≠ payloadOffset then
      invalid "restart entry does not match record payload"
    else .ok { decoder with nextRestartIndex := decoder.nextRestartIndex + 1 }
  | none => .ok decoder

def next (decoder : RecordDecoder) (recordIndex : Nat) : CodecResult (Word × RecordDecoder) := do
  let decoder ←
    if parsed.header.flags &&& blockFlagGroupedTimestamps ≠ 0 then
      decoder.nextGrouped bytes parsed recordIndex
    else decoder.nextLegacy bytes parsed recordIndex
  let (value, cursor) ← readValue bytes decoder.cursor parsed.recordEnd parsed.valueBytes
  return (Word.new value (UInt64.ofNat decoder.timestamp), { decoder with cursor })

def decodeRecords : Nat → Nat → RecordDecoder → CodecResult (List Word × RecordDecoder)
  | 0, _, decoder => .ok ([], decoder)
  | count + 1, recordIndex, decoder => do
    let (word, decoder) ← decoder.next bytes parsed recordIndex
    let (words, decoder) ← decodeRecords count (recordIndex + 1) decoder
    return (word :: words, decoder)

end RecordDecoder

def strictlyOrdered : List RestartEntry → Bool
  | a :: b :: rest =>
    a.recordIndex < b.recordIndex ∧ a.payloadOffset < b.payloadOffset ∧
      a.timestampNs ≤ b.timestampNs ∧ strictlyOrdered (b :: rest)
  | _ => true

def validateRestartOrder (restarts : List RestartEntry) (wordCount payloadLen : UInt32) :
    CodecResult Unit :=
  if ¬restarts.head?.any (fun first => first.recordIndex = 0 ∧ first.payloadOffset = 0) then
    invalid "restart table does not begin at the first record"
  else if ¬strictlyOrdered restarts then invalid "restart entries are not strictly ordered"
  else if restarts.getLast?.any (fun last => wordCount ≤ last.recordIndex ∨ payloadLen ≤ last.payloadOffset)
  then invalid "restart entry is outside the record payload"
  else .ok ()

def readRestarts (bytes : Bytes) : Nat → Nat → CodecResult (List RestartEntry)
  | 0, _ => .ok []
  | count + 1, offset => do
    let restart ← RestartEntry.readFrom bytes offset
    let rest ← readRestarts bytes count (offset + restartEntrySize)
    return restart :: rest

def parseWordBlock (checksum : BlockChecksum) (bytes : Bytes) : CodecResult ParsedWordBlock := do
  let header ← WordBlockHeader.fromBytes bytes
  let blockLen := header.blockLen.toNat
  let recordEnd := blockHeaderSize + header.recordPayloadLen.toNat
  let restartOffset := header.restartTableOffset.toNat
  let restartEnd := restartOffset + header.restartCount.toNat * restartEntrySize
  let durationOffset := header.durationTableOffset.toNat
  if blockLen ≠ bytes.length ∨ blockLen < blockHeaderSize then
    invalid "word-block length does not match its header"
  else if checksum.sum bytes blockChecksumOffset ≠ header.crc32c then
    .error (.checksumMismatch header.crc32c (checksum.sum bytes blockChecksumOffset))
  else if header.wordCount = 0 then .error .emptyBlock
  else if header.valueBytes ∉ [1, 2, 4, 8] then invalid "invalid value width"
  else if header.flags &&& ~~~(blockFlagHasDurations ||| blockFlagHasPayloads |||
      blockFlagGroupedTimestamps) ≠ 0 then
    invalid "word block contains unsupported flags"
  else if restartOffset ≠ recordEnd ∨ durationOffset ≠ restartEnd ∨ blockLen < durationOffset then
    invalid "word-block table offsets are inconsistent"
  else do
    let restarts ← readRestarts bytes header.restartCount.toNat restartOffset
    validateRestartOrder restarts header.wordCount header.recordPayloadLen
    return {
      header, restarts, recordEnd, durationOffset, blockLen
      valueBytes := header.valueBytes.toNat }

/-- The record an exception of a side table names; only the first delta may be zero. -/
def exceptionIndex (first : Bool) (previous indexDelta : Nat) (notIncreasing tooLarge : String) :
    CodecResult Nat :=
  if first then .ok indexDelta
  else if indexDelta = 0 then invalid notIncreasing
  else if previous + indexDelta < 2 ^ 64 then .ok (previous + indexDelta)
  else invalid tooLarge

/-- `words.get_mut(record_index - first_record_index)`, which leaves other records alone. -/
def modifyRecord (words : List Word) (firstRecordIndex recordIndex : Nat) (f : Word → Word) :
    List Word :=
  if firstRecordIndex ≤ recordIndex then words.modify (recordIndex - firstRecordIndex) f else words

def durationsLoop (bytes : Bytes) (wordCount firstRecordIndex : Nat) :
    Nat → Bool → Nat → Nat → List Word → CodecResult (Nat × List Word)
  | 0, _, cursor, _, words => .ok (cursor, words)
  | count + 1, first, cursor, previous, words => do
    let (indexDelta, cursor) ← decodeU64 bytes cursor
    let recordIndex ← exceptionIndex first previous indexDelta
      "duration exception indices are not increasing" "duration index overflow"
    let (durationNs, cursor) ← decodeU64 bytes cursor
    if durationNs = 0 then invalid "zero duration stored as an exception"
    else if wordCount ≤ recordIndex then invalid "duration exception index is out of bounds"
    else
      durationsLoop bytes wordCount firstRecordIndex count false cursor recordIndex
        (modifyRecord words firstRecordIndex recordIndex
          (fun word => { word with durationNs := UInt64.ofNat durationNs }))

def decodePayload (kind : UInt8) (value : Bytes) : CodecResult WordPayload :=
  if kind = 1 then .ok (.bytes value)
  else if kind = 2 then
    match String.fromUTF8? ⟨value.toArray⟩ with
    | some text => .ok (.text text)
    | none => invalid "word text payload is not UTF-8"
  else invalid "unknown word payload kind"

def payloadsLoop (bytes : Bytes) (wordCount firstRecordIndex : Nat) :
    Nat → Bool → Nat → Nat → List Word → CodecResult (Nat × List Word)
  | 0, _, cursor, _, words => .ok (cursor, words)
  | count + 1, first, cursor, previous, words => do
    let (indexDelta, cursor) ← decodeU64 bytes cursor
    let recordIndex ← exceptionIndex first previous indexDelta
      "word payload indices are not increasing" "word payload index overflow"
    if wordCount ≤ recordIndex then invalid "word payload index is out of bounds"
    else
      match bytes[cursor]? with
      | none => .error .truncated
      | some kind =>
        let (length, cursor) ← decodeU64 bytes (cursor + 1)
        if 2 ^ 64 ≤ cursor + length then invalid "word payload length overflow"
        else
          match getRange bytes cursor (cursor + length) with
          | none => .error .truncated
          | some value =>
            let payload ← decodePayload kind value
            payloadsLoop bytes wordCount firstRecordIndex count false (cursor + length) recordIndex
              (modifyRecord words firstRecordIndex recordIndex
                (fun word => { word with payload := some payload }))

def applyDurations (bytes : Bytes) (parsed : ParsedWordBlock) (firstRecordIndex : Nat)
    (words : List Word) : CodecResult (List Word) := do
  let wordCount := parsed.header.wordCount.toNat
  let (cursor, words) ← durationsLoop bytes wordCount firstRecordIndex
    parsed.header.durationCount.toNat true parsed.durationOffset 0 words
  let (cursor, words) ←
    if parsed.header.flags &&& blockFlagHasPayloads ≠ 0 then do
      let (payloadCount, cursor) ← decodeU64 bytes cursor
      payloadsLoop bytes wordCount firstRecordIndex payloadCount true cursor 0 words
    else .ok (cursor, words)
  match getRange bytes cursor parsed.blockLen with
  | none => .error .truncated
  | some padding =>
    if 7 < padding.length ∨ padding.any (· ≠ 0) then invalid "invalid word-block padding"
    else .ok words

def restartAt (parsed : ParsedWordBlock) (restartIndex : Nat) : CodecResult RestartEntry :=
  match parsed.restarts[restartIndex]? with
  | some restart => .ok restart
  | none => invalid "restart table does not begin at the first record"

def decodeWordBlock (checksum : BlockChecksum) (bytes : Bytes) : CodecResult DecodedWordBlock := do
  let parsed ← parseWordBlock checksum bytes
  let header := parsed.header
  let restart ← restartAt parsed 0
  let (words, decoder) ← RecordDecoder.decodeRecords bytes parsed header.wordCount.toNat 0
    (RecordDecoder.new 0 restart false)
  if decoder.cursor ≠ parsed.recordEnd ∨ decoder.nextRestartIndex ≠ parsed.restarts.length ∨
      ¬decoder.groupTimestamps.isComplete then
    invalid "record payload length is inconsistent"
  else if decoder.timestamp ≠ header.lastTimestampNs.toNat then
    invalid "last timestamp does not match block header"
  else do
    let words ← applyDurations bytes parsed 0 words
    return { header, restarts := parsed.restarts, words }

end LogicConduit
