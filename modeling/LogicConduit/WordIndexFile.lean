import LogicConduit.WordStore

namespace LogicConduit

def indexMagic : Bytes := [0x44, 0x57, 0x52, 0x49, 0x44, 0x58, 0x31, 0x00]
def manifestMagic : Bytes := [0x44, 0x57, 0x52, 0x4d, 0x41, 0x4e, 0x31, 0x00]
def formatVersion : Nat := 1
def indexVersion : Nat := 5
def manifestVersion : Nat := 1
def indexHeaderSize : Nat := 104
def indexRecordSize : Nat := 64
def summaryRecordSize : Nat := 40
def manifestSize : Nat := 96
def indexChecksumOffset : Nat := 96
def manifestChecksumOffset : Nat := 88
def indexNamespace : String := "derived-word-index-v1"
def manifestNamespace : String := "derived-word-manifest-v1"

/-- Stable 256-bit identity of a persistent entry. -/
structure CacheKey where
  bytes : Bytes
  length : bytes.length = 32
  deriving DecidableEq

def CacheKey.manifest (key : CacheKey) : ArtifactKey := ⟨manifestNamespace, key.bytes⟩

def CacheKey.index (key : CacheKey) : ArtifactKey := ⟨indexNamespace, key.bytes⟩

structure PersistentIndex where
  directory : List BlockDirectoryEntry
  presence : WordPresenceIndex
  committedWordCount : Nat
  committedDataLen : Nat
  firstTimestampNs : Option UInt64
  lastTimestampNs : Option UInt64
  deriving DecidableEq

structure Manifest where
  cacheKey : Bytes
  dataLen : Nat
  indexLen : Nat
  wordCount : Nat
  createdUnixNs : Nat
  accessedUnixNs : Nat
  deriving DecidableEq

def persistentError {α : Type} (message : String) : StoreResult α := .error (.persistent message)

def metadataU32 (bytes : Bytes) (offset : Nat) : StoreResult Nat :=
  match readLe bytes offset 4 with
  | some value => .ok value
  | none => persistentError "truncated persistent metadata"

def metadataU64 (bytes : Bytes) (offset : Nat) : StoreResult Nat :=
  match readLe bytes offset 8 with
  | some value => .ok value
  | none => persistentError "truncated persistent metadata"

def optionalU64Bytes (value : Option UInt64) : Bytes :=
  leBytes 8 ((value.map UInt64.toNat).getD u64Max)

def metadataOptionalU64 (bytes : Bytes) (offset : Nat) : StoreResult (Option UInt64) := do
  let value ← metadataU64 bytes offset
  return if value = u64Max then none else some (UInt64.ofNat value)

def checkedMul (a b : Nat) : Option Nat := if a * b < 2 ^ 64 then some (a * b) else none

def sizeOr {α : Type} (message : String) : Option α → StoreResult α
  | some value => .ok value
  | none => persistentError message

/-- Words of each block according to the summaries, in the order of their starts. -/
def summaryLoop (blockCount : Nat) : List WordSummaryRecord → List Nat → Option Nat → StoreResult (List Nat)
  | [], wordsPerBlock, _ => .ok wordsPerBlock
  | summary :: rest, wordsPerBlock, previousStart =>
    if summary.wordCount = 0 ∨ summary.endNs < summary.startNs ∨ summary.blockCount ≠ 1 ∨
        blockCount ≤ summary.firstBlock ∨ (previousStart.any (summary.startNs < ·)) = true then
      persistentError "invalid persistent presence summary"
    else
      summaryLoop blockCount rest
        (wordsPerBlock.modify summary.firstBlock (saturatingAdd · summary.wordCount))
        (some summary.startNs)

def validateSummaries (directory : List BlockDirectoryEntry) (summaries : List WordSummaryRecord)
    (expectedWordCount : Nat) : StoreResult Unit := do
  let wordsPerBlock ← summaryLoop directory.length summaries (List.replicate directory.length 0) none
  if (wordsPerBlock.zip directory).any (fun (count, entry) => count ≠ entry.wordCount.toNat) ∨
      wordsPerBlock.foldl saturatingAdd 0 ≠ expectedWordCount then
    persistentError "presence summary word count mismatch"

def BlockDirectoryEntry.indexFields (entry : BlockDirectoryEntry) : List (Nat × Bytes) :=
  [(0, leBytes 8 entry.sequence.toNat), (8, leBytes 8 entry.firstTimestampNs.toNat),
   (16, leBytes 8 entry.lastTimestampNs.toNat), (24, leBytes 8 entry.dataOffset),
   (32, leBytes 4 entry.blockLen.toNat), (36, leBytes 4 entry.wordCount.toNat),
   (40, [entry.valueBytes]), (41, [entry.flags]), (48, leBytes 8 entry.segmentSequence),
   (56, leBytes 8 entry.segmentOffset)]

def BlockDirectoryEntry.indexRecord (entry : BlockDirectoryEntry) : Bytes :=
  putAll (List.replicate indexRecordSize 0) entry.indexFields

def WordSummaryRecord.indexFields (summary : WordSummaryRecord) : List (Nat × Bytes) :=
  [(0, leBytes 8 summary.startNs), (8, leBytes 8 summary.endNs), (16, leBytes 8 summary.wordCount),
   (24, leBytes 8 summary.firstBlock), (32, leBytes 4 summary.blockCount)]

def WordSummaryRecord.indexRecord (summary : WordSummaryRecord) : Bytes :=
  putAll (List.replicate summaryRecordSize 0) summary.indexFields

def indexHeaderFields (cacheKey : Bytes) (blockCount wordCount : Nat)
    (firstTimestampNs lastTimestampNs : Option UInt64) (dataLen summaryCount : Nat) : List (Nat × Bytes) :=
  [(0, indexMagic), (8, leBytes 4 indexVersion), (12, leBytes 4 formatVersion), (16, cacheKey),
   (48, leBytes 8 blockCount), (56, leBytes 8 wordCount), (64, optionalU64Bytes firstTimestampNs),
   (72, optionalU64Bytes lastTimestampNs), (80, leBytes 8 dataLen), (88, leBytes 8 summaryCount)]

def stampChecksum (checksum : BlockChecksum) (bytes : Bytes) (offset : Nat) : Bytes :=
  putRange bytes offset (leBytes 4 (checksum.sum bytes offset).toNat)

def encodeIndex (checksum : BlockChecksum) (cacheKey : Bytes) (directory : List BlockDirectoryEntry)
    (summaries : List WordSummaryRecord) (wordCount dataLen : Nat)
    (firstTimestampNs lastTimestampNs : Option UInt64) : StoreResult Bytes := do
  let directoryBytes ← sizeOr "index size overflow" (checkedMul directory.length indexRecordSize)
  let summaryBytes ← sizeOr "summary index size overflow" (checkedMul summaries.length summaryRecordSize)
  let _indexLen ← sizeOr "index size overflow"
    ((checkedAdd indexHeaderSize directoryBytes).bind (checkedAdd · summaryBytes))
  validateSummaries directory summaries wordCount
  let header := putAll (List.replicate indexHeaderSize 0)
    (indexHeaderFields cacheKey directory.length wordCount firstTimestampNs lastTimestampNs dataLen
      summaries.length)
  let bytes := header ++ directory.flatMap (·.indexRecord) ++ summaries.flatMap (·.indexRecord)
  return stampChecksum checksum bytes indexChecksumOffset

def decodeIndexEntry (bytes : Bytes) (offset : Nat) : StoreResult BlockDirectoryEntry := do
  return {
    sequence := UInt64.ofNat (← metadataU64 bytes offset)
    firstTimestampNs := UInt64.ofNat (← metadataU64 bytes (offset + 8))
    lastTimestampNs := UInt64.ofNat (← metadataU64 bytes (offset + 16))
    dataOffset := ← metadataU64 bytes (offset + 24)
    blockLen := UInt32.ofNat (← metadataU32 bytes (offset + 32))
    wordCount := UInt32.ofNat (← metadataU32 bytes (offset + 36))
    valueBytes := bytes.getD (offset + 40) 0
    flags := bytes.getD (offset + 41) 0
    segmentSequence := ← metadataU64 bytes (offset + 48)
    segmentOffset := ← metadataU64 bytes (offset + 56) }

def decodeIndexSummary (bytes : Bytes) (offset : Nat) : StoreResult WordSummaryRecord := do
  return {
    startNs := ← metadataU64 bytes offset
    endNs := ← metadataU64 bytes (offset + 8)
    wordCount := ← metadataU64 bytes (offset + 16)
    firstBlock := ← metadataU64 bytes (offset + 24)
    blockCount := ← metadataU32 bytes (offset + 32) }

def decodeRecordsAt {α : Type} (decode : Nat → StoreResult α) (size : Nat) : Nat → Nat → StoreResult (List α)
  | 0, _ => .ok []
  | count + 1, offset => do
    let record ← decode offset
    let rest ← decodeRecordsAt decode size count (offset + size)
    return record :: rest

def decodeIndex (checksum : BlockChecksum) (bytes cacheKey : Bytes) : StoreResult PersistentIndex := do
  if bytes.length < indexHeaderSize ∨ bytes.take 8 ≠ indexMagic then
    persistentError "invalid persistent index header"
  if (← metadataU32 bytes 8) ≠ indexVersion ∨ (← metadataU32 bytes 12) ≠ formatVersion then
    persistentError "unsupported persistent index version"
  if (bytes.drop 16).take 32 ≠ cacheKey then
    persistentError "index cache key mismatch"
  let expectedChecksum ← metadataU32 bytes indexChecksumOffset
  if (checksum.sum bytes indexChecksumOffset).toNat ≠ expectedChecksum then
    persistentError "persistent index checksum mismatch"
  let blockCount ← metadataU64 bytes 48
  let summaryCount ← metadataU64 bytes 88
  let directoryBytes ←
    sizeOr "persistent index record size overflow" (checkedMul blockCount indexRecordSize)
  let summaryBytes ←
    sizeOr "persistent summary record size overflow" (checkedMul summaryCount summaryRecordSize)
  let expectedLen ← sizeOr "persistent index size overflow"
    ((checkedAdd indexHeaderSize directoryBytes).bind (checkedAdd · summaryBytes))
  if bytes.length ≠ expectedLen then
    persistentError "persistent index length mismatch"
  let directory ← decodeRecordsAt (decodeIndexEntry bytes) indexRecordSize blockCount indexHeaderSize
  let summaries ← decodeRecordsAt (decodeIndexSummary bytes) summaryRecordSize summaryCount
    (indexHeaderSize + directoryBytes)
  let committedWordCount ← metadataU64 bytes 56
  validateSummaries directory summaries committedWordCount
  return {
    directory
    presence := summaries.foldl WordPresenceIndex.push .new
    committedWordCount
    committedDataLen := ← metadataU64 bytes 80
    firstTimestampNs := ← metadataOptionalU64 bytes 64
    lastTimestampNs := ← metadataOptionalU64 bytes 72 }

/-- The loop of `validate_directory`: index, data offset, segment and offset in the segment of the
next entry. -/
def directoryLoop : List BlockDirectoryEntry → Nat → Nat → Nat → Nat → StoreResult Nat
  | [], _, expectedOffset, _, _ => .ok expectedOffset
  | entry :: rest, index, expectedOffset, expectedSegment, expectedSegmentOffset =>
    if index = 0 ∧ entry.segmentSequence ≠ 0 then persistentError "invalid persistent block directory"
    else
      let opens := entry.segmentSequence = saturatingAdd expectedSegment 1
      let expectedSegment := if opens then entry.segmentSequence else expectedSegment
      let expectedSegmentOffset := if opens then 0 else expectedSegmentOffset
      if entry.sequence.toNat ≠ index ∨ entry.dataOffset ≠ expectedOffset ∨
          entry.segmentSequence ≠ expectedSegment ∨ entry.segmentOffset ≠ expectedSegmentOffset ∨
          entry.wordCount = 0 ∨ entry.lastTimestampNs < entry.firstTimestampNs then
        persistentError "invalid block directory"
      else
        match checkedAdd expectedOffset entry.blockLen.toNat,
          checkedAdd expectedSegmentOffset entry.blockLen.toNat with
        | none, _ => persistentError "block directory offset overflow"
        | some _, none => persistentError "segment directory offset overflow"
        | some offset, some segmentOffset => directoryLoop rest (index + 1) offset expectedSegment segmentOffset

def validateDirectory (directory : List BlockDirectoryEntry) (dataLen : Nat) : StoreResult Unit := do
  let expectedOffset ← directoryLoop directory 0 0 0 0
  if expectedOffset ≠ dataLen then
    persistentError "block directory data length mismatch"

def Manifest.fields (manifest : Manifest) : List (Nat × Bytes) :=
  [(0, manifestMagic), (8, leBytes 4 manifestVersion), (12, leBytes 4 formatVersion),
   (16, manifest.cacheKey), (48, leBytes 8 manifest.dataLen), (56, leBytes 8 manifest.indexLen),
   (64, leBytes 8 manifest.wordCount), (72, leBytes 8 manifest.createdUnixNs),
   (80, leBytes 8 manifest.accessedUnixNs)]

def encodeManifest (checksum : BlockChecksum) (manifest : Manifest) : Bytes :=
  stampChecksum checksum (putAll (List.replicate manifestSize 0) manifest.fields) manifestChecksumOffset

def decodeManifest (checksum : BlockChecksum) (bytes : Bytes) : StoreResult Manifest := do
  if bytes.length ≠ manifestSize ∨ bytes.take 8 ≠ manifestMagic then
    persistentError "invalid persistent manifest"
  if (← metadataU32 bytes 8) ≠ manifestVersion ∨ (← metadataU32 bytes 12) ≠ formatVersion then
    persistentError "unsupported persistent manifest version"
  let expectedChecksum ← metadataU32 bytes manifestChecksumOffset
  if (checksum.sum bytes manifestChecksumOffset).toNat ≠ expectedChecksum then
    persistentError "persistent manifest checksum mismatch"
  return {
    cacheKey := (bytes.drop 16).take 32
    dataLen := ← metadataU64 bytes 48
    indexLen := ← metadataU64 bytes 56
    wordCount := ← metadataU64 bytes 64
    createdUnixNs := ← metadataU64 bytes 72
    accessedUnixNs := ← metadataU64 bytes 80 }

def validatePersistentGeneration (key : CacheKey) (manifest : Manifest) (index : PersistentIndex) :
    StoreResult Unit :=
  if manifest.cacheKey ≠ key.bytes ∨ index.committedWordCount ≠ manifest.wordCount ∨
      index.committedDataLen ≠ manifest.dataLen then
    persistentError "persistent manifest metadata mismatch"
  else validateDirectory index.directory manifest.dataLen

/-- The generation the manifest names, once its index and directory are valid. -/
def readGeneration (checksum : BlockChecksum) (key : CacheKey) (repository : Repository)
    (manifestBytes : Bytes) : StoreResult (Manifest × PersistentIndex) := do
  let manifest ← decodeManifest checksum manifestBytes
  match repository key.index with
  | none =>
    let nameSpace := indexNamespace
    persistentError s!"required artifact in '{nameSpace}' is missing"
  | some indexBytes =>
    let index ← decodeIndex checksum indexBytes key.bytes
    validatePersistentGeneration key manifest index
    return (manifest, index)

/-- Opens a generation and stamps its manifest with the time of the access; `refused` is the
repository's answer to that write. -/
def openValidated (checksum : BlockChecksum) (key : CacheKey) (now : Nat) (refused : Option RepositoryError)
    (repository : Repository) : StoreResult (Option PersistentIndex) × Repository :=
  match repository key.manifest with
  | none => (.ok none, repository)
  | some manifestBytes =>
    match readGeneration checksum key repository manifestBytes with
    | .error e => (.error e, repository)
    | .ok (manifest, index) =>
      match refused with
      | some e => (.error (.repository e), repository)
      | none =>
        (.ok (some index), repository.publish key.manifest
          (encodeManifest checksum { manifest with accessedUnixNs := now }))

def removeCacheArtifacts (key : CacheKey) (repository : Repository) : Repository :=
  repository.remove (fun artifact => artifact = key.manifest ∨ artifact = key.index ∨
    artifact.nameSpace = blockNamespace key.bytes ∨ artifact.nameSpace = segmentNamespace key.bytes)

/-- `persistent::open`: a generation that cannot be opened is removed. -/
def openPersistent (checksum : BlockChecksum) (key : CacheKey) (now : Nat)
    (refused : Option RepositoryError) (repository : Repository) :
    StoreResult (Option PersistentIndex) × Repository :=
  match openValidated checksum key now refused repository with
  | (.ok index, repository) => (.ok index, repository)
  | (.error e, repository) => (.error e, removeCacheArtifacts key repository)

end LogicConduit
