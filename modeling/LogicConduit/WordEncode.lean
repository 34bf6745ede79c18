import LogicConduit.Crc32c
import LogicConduit.WordBlockSizes

namespace LogicConduit

open Vlq

def checkedAdd (a b : Nat) : Option Nat :=
  if a + b < 2 ^ 64 then some (a + b) else none

/-- `slice.chunks(size)` for a positive `size`; no more chunks than elements. -/
def chunksLoop {α : Type} (size : Nat) : Nat → List α → List (List α)
  | 0, _ => []
  | _ + 1, [] => []
  | fuel + 1, x :: xs => (x :: xs).take size :: chunksLoop size fuel ((x :: xs).drop size)

def chunks {α : Type} (size : Nat) (xs : List α) : List (List α) :=
  chunksLoop size xs.length xs

def appendValue (value : UInt64) (width : Nat) : Bytes :=
  (leBytes 8 value.toNat).take width

def toU32 (value : Nat) (what : String) : CodecResult UInt32 :=
  if value ≤ u32Max then .ok (UInt32.ofNat value) else invalid s!"{what} exceeds 4 GiB"

structure EncodedBlockMetadata where
  header : WordBlockHeader
  restarts : List RestartEntry
  deriving DecidableEq

/-- What the record loop has written so far. -/
structure RecordTables where
  records : Bytes
  durations : Bytes
  payloads : Bytes
  restarts : List RestartEntry
  previousTimestamp : Nat
  previousDurationIndex : Nat
  durationCount : Nat
  previousPayloadIndex : Nat
  emittedPayloadCount : Nat

namespace RecordTables

def pushDuration (tables : RecordTables) (index : Nat) (word : Word) : RecordTables :=
  if word.durationNs ≠ 0 then
    let indexDelta :=
      if tables.durationCount = 0 then index else index - tables.previousDurationIndex
    { tables with
      durations := tables.durations ++ encodeU64 indexDelta ++ encodeU64 word.duration
      previousDurationIndex := index
      durationCount := tables.durationCount + 1 }
  else tables

def encodePayload : WordPayload → Bytes
  | .bytes value => 1 :: (encodeU64 value.length ++ value)
  | .text value => 2 :: (encodeU64 value.toByteArray.size ++ value.toByteArray.data.toList)

def pushPayload (tables : RecordTables) (index : Nat) (word : Word) : RecordTables :=
  match word.payload with
  | none => tables
  | some payload =>
    let indexDelta :=
      if tables.emittedPayloadCount = 0 then index else index - tables.previousPayloadIndex
    { tables with
      payloads := tables.payloads ++ encodeU64 indexDelta ++ encodePayload payload
      previousPayloadIndex := index
      emittedPayloadCount := tables.emittedPayloadCount + 1 }

def pushRecord (tables : RecordTables) (valueBytes index : Nat) (word : Word) : RecordTables :=
  let delta := if index = 0 then 0 else word.time - tables.previousTimestamp
  { tables with
    records := tables.records ++ encodeU64 delta ++ appendValue word.value valueBytes
    previousTimestamp := word.time }

def pushRestart (tables : RecordTables) (restartInterval index : Nat) (word : Word) :
    CodecResult RecordTables :=
  if index % restartInterval ≠ 0 then .ok tables
  else if tables.records.length ≤ u32Max then
    .ok { tables with
      restarts := tables.restarts ++
        [⟨word.timestampNs, UInt32.ofNat tables.records.length, UInt32.ofNat index⟩] }
  else invalid "record payload exceeds 4 GiB"

def loop (restartInterval valueBytes : Nat) :
    List Word → Nat → RecordTables → CodecResult RecordTables
  | [], _, tables => .ok tables
  | word :: rest, index, tables => do
    let tables ← tables.pushRestart restartInterval index word
    loop restartInterval valueBytes rest (index + 1)
      (((tables.pushRecord valueBytes index word).pushDuration index word).pushPayload index word)

def denseLoop (restartInterval : Nat) : List Word → Nat → RecordTables → RecordTables
  | [], _, tables => tables
  | word :: rest, index, tables =>
    let restarts :=
      if index % restartInterval = 0 then
        [⟨word.timestampNs, UInt32.ofNat (index * 2), UInt32.ofNat index⟩]
      else []
    let delta := if index = 0 then 0 else word.time - tables.previousTimestamp
    denseLoop restartInterval rest (index + 1) { tables with
      records := tables.records ++ [UInt8.ofNat delta, UInt8.ofNat word.value.toNat]
      restarts := tables.restarts ++ restarts
      previousTimestamp := word.time }

end RecordTables

def paletteIndexBits (paletteLen : Nat) : Nat :=
  if paletteLen ≤ 1 then 0
  else if paletteLen = 2 then 1
  else if paletteLen ≤ 4 then 2
  else if paletteLen ≤ 8 then 3
  else 4

/-- Ors `value` into the bits of entry `index`, which may reach into a second byte. -/
def writePackedIndex (bytes : Bytes) (index bits value : Nat) : Bytes :=
  let bitOffset := index * bits
  let byteIndex := bitOffset / 8
  let shift := bitOffset % 8
  let encoded := value <<< shift
  let bytes := bytes.modify byteIndex (· ||| UInt8.ofNat encoded)
  if 8 < shift + bits then bytes.modify (byteIndex + 1) (· ||| UInt8.ofNat (encoded >>> 8))
  else bytes

def groupDeltas (group : List Word) : List Nat :=
  List.zipWith (fun word next => next.time - word.time) group group.tail

structure DeltaPalette where
  palette : List Nat
  rawTimestampLen : Nat
  paletteAvailable : Bool

def DeltaPalette.push (state : DeltaPalette) (delta : Nat) : DeltaPalette :=
  let state := { state with rawTimestampLen := state.rawTimestampLen + encodedLen delta }
  if delta ∈ state.palette then state
  else if state.palette.length = 16 then { state with paletteAvailable := false }
  else { state with palette := state.palette ++ [delta] }

def deltaPalette (deltas : List Nat) : DeltaPalette :=
  deltas.foldl DeltaPalette.push ⟨[], 0, true⟩

def groupValues (group : List Word) : Bytes :=
  group.map (fun word => UInt8.ofNat word.value.toNat)

def packIndices (bits : Nat) : List Nat → Nat → Bytes → Bytes
  | [], _, bytes => bytes
  | value :: rest, index, bytes =>
    packIndices bits rest (index + 1) (writePackedIndex bytes index bits value)

def rawRecords : List Word → Bytes
  | word :: next :: rest =>
    UInt8.ofNat word.value.toNat :: (encodeU64 (next.time - word.time) ++ rawRecords (next :: rest))
  | [word] => [UInt8.ofNat word.value.toNat]
  | [] => []

/-- The bytes of one restart group: constant, palette or raw timestamps, the shortest first. -/
def encodeGroup (group : List Word) : Bytes :=
  let deltas := groupDeltas group
  let state := deltaPalette deltas
  let palette := state.palette
  let rawLen := 1 + group.length + state.rawTimestampLen
  let paletteBits := paletteIndexBits palette.length
  let packedLen := ((group.length - 1) * paletteBits + 7) / 8
  let paletteFits :=
    state.paletteAvailable ∧ 1 < palette.length ∧
      2 + (palette.map encodedLen).sum + packedLen + group.length < rawLen
  match palette with
  | [delta] => 1 :: (encodeU64 delta ++ groupValues group)
  | _ =>
    if paletteFits then
      2 :: UInt8.ofNat palette.length :: (palette.flatMap encodeU64 ++
        packIndices paletteBits (deltas.map palette.idxOf) 0 (List.replicate packedLen 0) ++
        groupValues group)
    else 0 :: rawRecords group

/-- The loop of `encode_grouped_dense_records` over the restart groups. -/
def groupsLoop (restartInterval : Nat) :
    List (List Word) → Nat → Bytes → List RestartEntry → Option (Bytes × List RestartEntry)
  | [], _, records, restarts => some (records, restarts)
  | group :: rest, groupIndex, records, restarts =>
    if records.length ≤ u32Max then
      let restart : RestartEntry :=
        ⟨(group.head?.map Word.timestampNs).getD 0, UInt32.ofNat records.length,
          UInt32.ofNat (groupIndex * restartInterval)⟩
      groupsLoop restartInterval rest (groupIndex + 1) (records ++ encodeGroup group)
        (restarts ++ [restart])
    else none

def encodeGroupedDenseRecords (words : List Word) (restartInterval timestampBytes : Nat) :
    Option (Bytes × List RestartEntry) :=
  let legacyLen := timestampBytes + words.length
  match groupsLoop restartInterval (chunks restartInterval words) 0 [] [] with
  | some (records, restarts) => if records.length < legacyLen then some (records, restarts) else none
  | none => none

structure BlockParts where
  flags : UInt16
  records : Bytes
  restarts : List RestartEntry
  durations : Bytes
  durationCount : Nat
  payloads : Bytes

def durationCountOf (words : List Word) : Nat := words.countP (fun word => word.durationNs ≠ 0)

def payloadCountOf (words : List Word) : Nat := words.countP (fun word => word.payload.isSome)

def fillTables (words : List Word) (restartInterval valueBytes : Nat) (denseByteWords : Bool)
    (groupedRecords : Option (Bytes × List RestartEntry)) (start : RecordTables) :
    CodecResult RecordTables :=
  match groupedRecords with
  | some (records, restarts) => .ok { start with records, restarts }
  | none =>
    if denseByteWords then .ok (RecordTables.denseLoop restartInterval words 0 start)
    else RecordTables.loop restartInterval valueBytes words 0 start

def encodeParts (words : List Word) (restartInterval valueBytes timestampBytes : Nat)
    (denseByteWords : Bool) : CodecResult BlockParts := do
  let payloadCount := payloadCountOf words
  let payloads := if 0 < payloadCount then encodeU64 payloadCount else []
  let groupedRecords :=
    if denseByteWords then encodeGroupedDenseRecords words restartInterval timestampBytes else none
  let tables ← fillTables words restartInterval valueBytes denseByteWords groupedRecords
    ⟨[], [], payloads, [], (words.head?.map Word.time).getD 0, 0, 0, 0, 0⟩
  return {
    flags := (if 0 < tables.durationCount then blockFlagHasDurations else 0) |||
      (if 0 < payloadCount then blockFlagHasPayloads else 0) |||
      (if groupedRecords.isSome then blockFlagGroupedTimestamps else 0)
    records := tables.records
    restarts := tables.restarts
    durations := tables.durations
    durationCount := tables.durationCount
    payloads := tables.payloads }

def overflow {α : Type} : Option α → CodecResult α
  | some value => .ok value
  | none => invalid "word-block size overflow"

def tableBytes (parts : BlockParts) : Bytes :=
  parts.records ++ parts.restarts.flatMap RestartEntry.appendTo ++ parts.durations ++ parts.payloads

def layoutBlock (checksum : BlockChecksum) (sequence : UInt64) (words : List Word) (valueBytes : Nat)
    (parts : BlockParts) : CodecResult (EncodedBlockMetadata × Bytes) := do
  let restartTableOffset ← overflow (checkedAdd blockHeaderSize parts.records.length)
  let durationTableOffset ←
    overflow (checkedAdd restartTableOffset (parts.restarts.length * restartEntrySize))
  let unpaddedLen ← overflow ((checkedAdd durationTableOffset parts.durations.length).bind
    (checkedAdd · parts.payloads.length))
  let blockLen ← overflow ((checkedAdd unpaddedLen 7).map (fun length => length / 8 * 8))
  let header : WordBlockHeader := {
    flags := parts.flags
    sequence
    firstTimestampNs := (words.head?.map Word.timestampNs).getD 0
    lastTimestampNs := (words.getLast?.map Word.timestampNs).getD 0
    wordCount := UInt32.ofNat words.length
    valueBytes := UInt8.ofNat valueBytes
    recordPayloadLen := ← toU32 parts.records.length "record payload"
    restartCount := ← toU32 parts.restarts.length "restart table"
    restartTableOffset := ← toU32 restartTableOffset "restart table offset"
    durationCount := ← toU32 parts.durationCount "duration table"
    durationTableOffset := ← toU32 durationTableOffset "duration table offset"
    blockLen := ← toU32 blockLen "word block"
    crc32c := 0 }
  let output := List.replicate blockHeaderSize 0 ++ tableBytes parts
  let output := header.writeTo (output ++ List.replicate (blockLen - output.length) 0)
  let header := { header with crc32c := checksum.sum output blockChecksumOffset }
  return (⟨header, parts.restarts⟩, header.writeTo output)

def encodeValidatedWordBlockWithInterval (checksum : BlockChecksum) (sequence : UInt64)
    (words : List Word) (restartInterval valueBytes timestampBytes : Nat) (denseByteWords : Bool) :
    CodecResult (EncodedBlockMetadata × Bytes) := do
  let parts ← encodeParts words restartInterval valueBytes timestampBytes denseByteWords
  layoutBlock checksum sequence words valueBytes parts

namespace WordBlockBuilder

def denseByteWords (builder : WordBlockBuilder) : Bool :=
  builder.durationCount = 0 ∧ builder.payloadCount = 0 ∧ builder.maxValue ≤ 0xff ∧
    builder.timestampBytes = builder.words.length

def encode (checksum : BlockChecksum) (builder : WordBlockBuilder) (sequence : UInt64) :
    CodecResult (EncodedBlockMetadata × Bytes) :=
  encodeValidatedWordBlockWithInterval checksum sequence builder.words builder.config.restartInterval
    (valueWidth builder.maxValue) builder.timestampBytes builder.denseByteWords

end WordBlockBuilder

end LogicConduit
