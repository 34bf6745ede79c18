import LogicConduit.Artifacts
import LogicConduit.WordDecode
import LogicConduit.WordPresence

namespace LogicConduit

def hexDigit (value : Nat) : Char :=
  if value < 10 then Char.ofNat (48 + value) else Char.ofNat (87 + value)

/-- `digits` lower-case hexadecimal digits, most significant first. -/
def hexString : Nat → Nat → List Char
  | 0, _ => []
  | digits + 1, value => hexDigit (value / 16 ^ digits % 16) :: hexString digits value

def CodecError.display : CodecError → String
  | .emptyBlock => "word block is empty"
  | .outOfOrder index previousTimestampNs timestampNs =>
    s!"word timestamp at index {index} moved backwards from {previousTimestampNs} ns to {timestampNs} ns"
  | .invalidRestartInterval => "restart interval must be greater than zero"
  | .invalidConfiguration message => s!"invalid block codec configuration: {message}"
  | .tooManyWords count => s!"word block contains too many records: {count}"
  | .truncated => "truncated derived-word block"
  | .vlqOverflow => "unsigned VLQ exceeds 64 bits"
  | .invalidFormat message => s!"invalid derived-word format: {message}"
  | .checksumMismatch expected actual =>
    let expectedHex := String.ofList (hexString 8 expected.toNat)
    let actualHex := String.ofList (hexString 8 actual.toNat)
    s!"derived-word block checksum mismatch: expected 0x{expectedHex}, got 0x{actualHex}"

inductive StoreStatus
  | live
  | finished
  | cancelled
  | failed (message : String)
  deriving DecidableEq

def StoreStatus.debug : StoreStatus → String
  | .live => "Live"
  | .finished => "Finished"
  | .cancelled => "Cancelled"
  | .failed message => s!"Failed({message.quote})"

inductive StoreError
  | repository (error : RepositoryError)
  | codec (error : CodecError)
  | notLive (status : StoreStatus)
  | directoryMismatch (sequence : Nat)
  | persistent (message : String)
  deriving DecidableEq

def StoreError.display : StoreError → String
  | .repository error => s!"derived-word artifact repository error: {error.display}"
  | .codec error => s!"derived-word store codec error: {error.display}"
  | .notLive status => s!"derived-word store is not live: {status.debug}"
  | .directoryMismatch sequence =>
    s!"committed word-block directory does not match encoded block {sequence}"
  | .persistent message => s!"invalid persistent derived-word cache: {message}"

abbrev StoreResult := Except StoreError

/-- One fully written block published by the live store. -/
structure BlockDirectoryEntry where
  sequence : UInt64
  firstTimestampNs : UInt64
  lastTimestampNs : UInt64
  dataOffset : Nat
  segmentSequence : Nat
  segmentOffset : Nat
  blockLen : UInt32
  wordCount : UInt32
  valueBytes : UInt8
  flags : UInt8
  deriving DecidableEq

def BlockDirectoryEntry.ofHeader (header : WordBlockHeader)
    (dataOffset segmentSequence segmentOffset : Nat) : BlockDirectoryEntry where
  sequence := header.sequence
  firstTimestampNs := header.firstTimestampNs
  lastTimestampNs := header.lastTimestampNs
  dataOffset
  segmentSequence
  segmentOffset
  blockLen := header.blockLen
  wordCount := header.wordCount
  valueBytes := header.valueBytes
  flags := header.flags.toUInt8

structure LiveState where
  directory : List BlockDirectoryEntry
  presence : WordPresenceIndex
  generation : Nat
  committedWordCount : Nat
  committedDataLen : Nat
  committedFirstTimestampNs : Option UInt64
  committedLastTimestampNs : Option UInt64
  hotTail : List Word
  status : StoreStatus

/-- The part of a state that only commits change. -/
structure CommittedState where
  directory : List BlockDirectoryEntry
  presence : WordPresenceIndex
  wordCount : Nat
  dataLen : Nat
  firstTimestampNs : Option UInt64
  lastTimestampNs : Option UInt64

def LiveState.committed (state : LiveState) : CommittedState :=
  ⟨state.directory, state.presence, state.committedWordCount, state.committedDataLen,
    state.committedFirstTimestampNs, state.committedLastTimestampNs⟩

def LiveState.new : LiveState := ⟨[], .new, 0, 0, 0, none, none, [], .live⟩

/-- What the writer and its query handles share. -/
structure Store where
  state : LiveState
  repository : Repository
  storeIdentity : Bytes
  storeId : UInt64
  removeOnDrop : Bool
  persistentCache : Bool
  pendingBlocks : Nat → Option Bytes

def blockNamespacePrefix : String := "derived-word-blocks-v1-"
def segmentNamespacePrefix : String := "derived-word-segments-v1-"

def hexKey (key : Bytes) : String :=
  String.ofList (key.flatMap (fun byte => hexString 2 byte.toNat))

def blockNamespace (identity : Bytes) : String := blockNamespacePrefix ++ hexKey identity

def segmentNamespace (identity : Bytes) : String := segmentNamespacePrefix ++ hexKey identity

def segmentKey (storeIdentity : Bytes) (sequence : Nat) : ArtifactKey :=
  ⟨segmentNamespace storeIdentity, leBytes 8 sequence ++ List.replicate 24 0⟩

theorem segmentKey_inj {identity : Bytes} {a b : Nat} (ha : a < 2 ^ 64) (hb : b < 2 ^ 64)
    (h : segmentKey identity a = segmentKey identity b) : a = b := by
  have hbytes : leBytes 8 a = leBytes 8 b :=
    List.append_cancel_right (ArtifactKey.mk.inj h).2
  rw [← ofLeBytes_leBytes (show a < 256 ^ 8 by omega), hbytes, ofLeBytes_leBytes (by omega)]

namespace Store

def markFailed (store : Store) (message : String) : Store :=
  match store.state.status with
  | .live | .finished =>
    { store with state := { store.state with
        status := .failed message
        hotTail := []
        generation := store.state.generation + 1 } }
  | _ => store

/-- The encoded bytes of a committed block: from the pending blocks while its segment is being
written, from the repository afterwards. -/
def readEntryBytes (store : Store) (entry : BlockDirectoryEntry) : StoreResult Bytes :=
  match store.pendingBlocks entry.sequence.toNat with
  | some bytes => .ok bytes
  | none =>
    match store.repository (segmentKey store.storeIdentity entry.segmentSequence) with
    | none =>
      let segment := entry.segmentSequence
      let block := entry.sequence.toNat
      .error (.persistent s!"segment {segment} for committed word block {block} is missing")
    | some artifact =>
      let stop := entry.segmentOffset + entry.blockLen.toNat
      if 2 ^ 64 ≤ stop ∨ artifact.length < stop then .error (.directoryMismatch entry.sequence.toNat)
      else (readArtifactRegion artifact entry.segmentOffset entry.blockLen.toNat).mapError .repository

end Store

def validateDirectoryHeader (header : WordBlockHeader) (entry : BlockDirectoryEntry) : StoreResult Unit :=
  if header.sequence ≠ entry.sequence ∨ header.firstTimestampNs ≠ entry.firstTimestampNs ∨
      header.lastTimestampNs ≠ entry.lastTimestampNs ∨ header.blockLen ≠ entry.blockLen ∨
      header.wordCount ≠ entry.wordCount ∨ header.valueBytes ≠ entry.valueBytes ∨
      header.flags.toUInt8 ≠ entry.flags then
    .error (.directoryMismatch entry.sequence.toNat)
  else .ok ()

theorem validateDirectoryHeader_ofHeader (header : WordBlockHeader)
    (dataOffset segmentSequence segmentOffset : Nat) :
    validateDirectoryHeader header (.ofHeader header dataOffset segmentSequence segmentOffset) = .ok () := by
  simp [validateDirectoryHeader, BlockDirectoryEntry.ofHeader]

namespace Store

/-- `read_cached_entry` on a cache miss. -/
def readEntry (checksum : BlockChecksum) (store : Store) (entry : BlockDirectoryEntry) :
    StoreResult DecodedWordBlock := do
  let bytes ← store.readEntryBytes entry
  let decoded ← (decodeWordBlock checksum bytes).mapError .codec
  validateDirectoryHeader decoded.header entry
  return decoded

def committedWords (checksum : BlockChecksum) (store : Store) : StoreResult (List Word) := do
  let blocks ← store.state.directory.mapM (store.readEntry checksum)
  return blocks.flatMap DecodedWordBlock.words

end Store

end LogicConduit
