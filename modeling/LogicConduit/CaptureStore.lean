import LogicConduit.CaptureChunkFormat

namespace LogicConduit

def captureManifestNamespace : String := "capture-manifest-v1"

def captureChunkNamespace : String := "capture-chunk-v1"

/-- What is hashed for the identity of an artifact. -/
def captureName (nameSpace : String) (sessionId : CaptureSessionId) (sequence : Option Nat) : Bytes :=
  utf8Bytes nameSpace ++ (leBytes 16 sessionId.toNat ++ (sequence.map (leBytes 8)).getD [])

/-- `blake3`, taken to keep the chunks of a session apart. -/
structure Digest where
  hash : Bytes → Bytes
  length : ∀ bytes, (hash bytes).length = 32
  apart : ∀ sessionId, Set.InjOn hash
    ((fun sequence => captureName captureChunkNamespace sessionId (some sequence)) '' Set.Iio (2 ^ 64))

def captureKey (digest : Digest) (nameSpace : String) (sessionId : CaptureSessionId) (sequence : Option Nat) :
    ArtifactKey :=
  ⟨nameSpace, digest.hash (captureName nameSpace sessionId sequence)⟩

def manifestKey (digest : Digest) (sessionId : CaptureSessionId) : ArtifactKey :=
  captureKey digest captureManifestNamespace sessionId none

def chunkKey (digest : Digest) (sessionId : CaptureSessionId) (sequence : Nat) : ArtifactKey :=
  captureKey digest captureChunkNamespace sessionId (some sequence)

theorem chunkKey_ne_manifestKey (digest : Digest) (sessionId : CaptureSessionId) (sequence : Nat) :
    chunkKey digest sessionId sequence ≠ manifestKey digest sessionId := by
  intro h
  have hspace : captureChunkNamespace = captureManifestNamespace := congrArg ArtifactKey.nameSpace h
  exact absurd hspace (by decide)

theorem chunkKey_ne {digest : Digest} {sessionId : CaptureSessionId} {i j : Nat} (hi : i < 2 ^ 64) (hj : j < 2 ^ 64)
    (hne : i ≠ j) : chunkKey digest sessionId i ≠ chunkKey digest sessionId j := by
  intro h
  have hbytes := digest.apart sessionId (Set.mem_image_of_mem _ hi) (Set.mem_image_of_mem _ hj)
    (congrArg ArtifactKey.identity h)
  have hwords : leBytes 8 i = leBytes 8 j := List.append_cancel_left (List.append_cancel_left hbytes)
  have hvalue := congrArg ofLeBytes hwords
  rw [ofLeBytes_leBytes hi, ofLeBytes_leBytes hj] at hvalue
  exact hne hvalue

structure PersistedManifest where
  formatVersion : Nat
  sessionId : String
  channels : List String
  generation : Nat
  firstSequence : Nat
  committedChunks : Nat
  committedSamples : Nat
  committedDataBytes : Nat
  finalized : Bool
  deriving DecidableEq

def jsonChar (c : Char) : String :=
  if c = '"' then "\\\""
  else if c = '\\' then "\\\\"
  else if c = '\n' then "\\n"
  else if c = '\r' then "\\r"
  else if c = '\t' then "\\t"
  else if c.toNat = 8 then "\\b"
  else if c.toNat = 12 then "\\f"
  else if c.toNat < 32 then
    "\\u00" ++ String.ofList [Nat.digitChar (c.toNat / 16), Nat.digitChar (c.toNat % 16)]
  else String.singleton c

def jsonString (text : String) : String :=
  "\"" ++ String.join (text.toList.map jsonChar) ++ "\""

def jsonStrings (texts : List String) : String :=
  "[" ++ String.intercalate "," (texts.map jsonString) ++ "]"

/-- `serde_json::to_vec`. -/
def PersistedManifest.toJson (manifest : PersistedManifest) : Bytes :=
  utf8Bytes ("\x7b\"format_version\":" ++ toString manifest.formatVersion ++
    ",\"session_id\":" ++ jsonString manifest.sessionId ++
    ",\"channels\":" ++ jsonStrings manifest.channels ++
    ",\"generation\":" ++ toString manifest.generation ++
    ",\"first_sequence\":" ++ toString manifest.firstSequence ++
    ",\"committed_chunks\":" ++ toString manifest.committedChunks ++
    ",\"committed_samples\":" ++ toString manifest.committedSamples ++
    ",\"committed_data_bytes\":" ++ toString manifest.committedDataBytes ++
    ",\"finalized\":" ++ toString manifest.finalized ++ "\x7d")

def sessionText (sessionId : CaptureSessionId) : String :=
  let digits := Nat.toDigits 16 sessionId.toNat
  String.ofList (List.replicate (32 - digits.length) '0' ++ digits)

/-- A write that is carried through: all its bytes, its length, and its publication at once. -/
def publishCaptureBytes (repository : Repository) (key : ArtifactKey) (bytes : Bytes) : Repository :=
  repository.publish key (resizeStaged (writeAt [] 0 bytes) bytes.length)

theorem publishCaptureBytes_eq (repository : Repository) (key : ArtifactKey) (bytes : Bytes) :
    publishCaptureBytes repository key bytes = repository.publish key bytes := by
  rw [publishCaptureBytes, writeAt_zero, resizeStaged_length]

/-- `read_chunk`; the repository may refuse the access. -/
def readChunk (digest : Digest) (repository : Repository) (descriptor : CaptureStoreDescriptor) (sequence : Nat)
    (refusal : Option RepositoryError) : Except CaptureStoreError CaptureChunk :=
  match refusal with
  | some error => .error (.repository error)
  | none =>
    match repository (chunkKey digest descriptor.sessionId sequence) with
    | none => corrupt s!"capture chunk {sequence} is missing"
    | some artifact =>
      match readArtifactRegion artifact 0 artifact.length with
      | .error error => .error (.repository error)
      | .ok bytes => decodeChunk descriptor sequence bytes

structure StoreState where
  manifest : PersistedManifest
  writerOpen : Bool
  writerFailure : Option String

structure CaptureStoreWriter where
  nextSequence : Nat
  nextSample : Nat
  terminal : Bool

/-- Where a call of `append` stands. -/
inductive WriterPhase
  | idle
  -- the chunk has been accepted and encoded
  | publishing (chunk : CaptureChunk) (encoded : Bytes)
  -- its artifact has been published
  | committing (chunk : CaptureChunk)
  -- the call has failed and the failure is not recorded yet
  | failing (chunk : CaptureChunk) (error : CaptureStoreError)

inductive ReaderPhase
  | idle
  -- asleep until the store changes or the timeout is over
  | waiting
  -- a committed chunk is about to be read, the lock is released
  | reading (sequence : Nat)
  deriving DecidableEq

structure CaptureCursor where
  nextSequence : Nat
  phase : ReaderPhase
  returns : List CursorResult

/-- A store with its writer and its cursors, and the result of every append so far. -/
structure CaptureSystem where
  repository : Repository
  state : StoreState
  writer : CaptureStoreWriter
  phase : WriterPhase
  attempts : List (CaptureChunk × Except CaptureStoreError Unit)
  cursors : List CaptureCursor

inductive StoreAction
  | append (chunk : CaptureChunk)
  | publishChunk (refusal : Option RepositoryError)
  | commit (refusal : Option RepositoryError)
  | recordFailure
  | finish
  | openCursor
  | next (cursor : Nat)
  | waitNext (cursor : Nat)
  | wake (cursor : Nat)
  | read (cursor : Nat) (refusal : Option RepositoryError)

/-- What `append_inner` tests before it touches the repository. -/
def CaptureStoreWriter.admit (writer : CaptureStoreWriter) (descriptor : CaptureStoreDescriptor)
    (chunk : CaptureChunk) : Except CaptureStoreError Bytes :=
  if writer.terminal then .error (.writerFailed "capture-store writer is already finished")
  else if chunk.sessionId ≠ descriptor.sessionId ∨ chunk.channels ≠ descriptor.channels ∨
      chunk.sequence ≠ writer.nextSequence ∨ chunk.startSample ≠ writer.nextSample then
    .error (.invalidChunk "chunk does not continue the capture session")
  else encodeChunk chunk

def PersistedManifest.advance (manifest : PersistedManifest) (chunk : CaptureChunk) :
    Except CaptureStoreError PersistedManifest :=
  if 2 ^ 64 ≤ manifest.committedChunks + 1 then .error (.invalidChunk "chunk count overflow")
  else if 2 ^ 64 ≤ manifest.committedDataBytes + chunk.encodedByteLen then
    .error (.invalidChunk "capture length overflow")
  else if 2 ^ 64 ≤ manifest.generation + 1 then .error (.invalidChunk "capture generation overflow")
  else .ok { manifest with
    committedChunks := manifest.committedChunks + 1
    committedSamples := chunk.endSample
    committedDataBytes := manifest.committedDataBytes + chunk.encodedByteLen
    generation := manifest.generation + 1 }

namespace CaptureCursor

def opened (state : StoreState) : CaptureCursor := ⟨state.manifest.firstSequence, .idle, []⟩

def reply (cursor : CaptureCursor) (result : CursorResult) : CaptureCursor :=
  { cursor with phase := .idle, returns := cursor.returns ++ [result] }

/-- The part of `item` under the lock. -/
def look (cursor : CaptureCursor) (state : StoreState) : CaptureCursor :=
  let cursor := { cursor with nextSequence := max cursor.nextSequence state.manifest.firstSequence }
  if cursor.nextSequence < state.manifest.committedChunks then
    { cursor with phase := .reading cursor.nextSequence }
  else if state.writerOpen then cursor.reply (.ok .pending)
  else cursor.reply (.ok .finished)

/-- The part of `item` behind the lock. -/
def take (cursor : CaptureCursor) : Except CaptureStoreError CaptureChunk → CaptureCursor
  | .error error => cursor.reply (.error error)
  | .ok chunk => { cursor with nextSequence := cursor.nextSequence + 1 }.reply (.ok (.chunk chunk))

def resultChunk : CursorResult → Option CaptureChunk
  | .ok (.chunk chunk) => some chunk
  | _ => none

def chunks (cursor : CaptureCursor) : List CaptureChunk := cursor.returns.filterMap resultChunk

end CaptureCursor

namespace CaptureSystem

section

variable (digest : Digest) (descriptor : CaptureStoreDescriptor)

def initialManifest : PersistedManifest :=
  { formatVersion := 1, sessionId := sessionText descriptor.sessionId, channels := descriptor.channels
    generation := 0, firstSequence := 0, committedChunks := 0, committedSamples := 0, committedDataBytes := 0
    finalized := false }

def create (repository : Repository) : Except CaptureStoreError CaptureSystem :=
  if (repository (manifestKey digest descriptor.sessionId)).isSome then
    .error (.invalidConfig s!"capture session {sessionText descriptor.sessionId} already exists")
  else .ok
    { repository := publishCaptureBytes repository (manifestKey digest descriptor.sessionId)
        (initialManifest descriptor).toJson
      state := ⟨initialManifest descriptor, true, none⟩
      writer := ⟨0, 0, false⟩
      phase := .idle
      attempts := []
      cursors := [] }

def beginAppend (system : CaptureSystem) (chunk : CaptureChunk) : CaptureSystem :=
  match system.writer.admit descriptor chunk with
  | .error error => { system with phase := .failing chunk error }
  | .ok encoded => { system with phase := .publishing chunk encoded }

def publishArtifact (system : CaptureSystem) (chunk : CaptureChunk) (encoded : Bytes) :
    Option RepositoryError → CaptureSystem
  | some error => { system with phase := .failing chunk (.repository error) }
  | none =>
    { system with
      repository := publishCaptureBytes system.repository (chunkKey digest chunk.sessionId chunk.sequence) encoded
      phase := .committing chunk }

/-- The manifest is published and the counters move under one lock. -/
def commitChunk (system : CaptureSystem) (chunk : CaptureChunk) (refusal : Option RepositoryError) :
    CaptureSystem :=
  match system.state.manifest.advance chunk, refusal with
  | .error error, _ => { system with phase := .failing chunk error }
  | .ok _, some error => { system with phase := .failing chunk (.repository error) }
  | .ok manifest, none =>
    { system with
      repository := publishCaptureBytes system.repository (manifestKey digest descriptor.sessionId) manifest.toJson
      state := { system.state with manifest := manifest }
      writer := { system.writer with nextSequence := system.writer.nextSequence + 1, nextSample := chunk.endSample }
      phase := .idle
      attempts := system.attempts ++ [(chunk, .ok ())] }

def fail (system : CaptureSystem) (chunk : CaptureChunk) (error : CaptureStoreError) : CaptureSystem :=
  { system with
    state := { system.state with writerFailure := some error.display }
    phase := .idle
    attempts := system.attempts ++ [(chunk, .error error)] }

/-- `finish_inner`, also run when the writer is dropped. -/
def finishWriter (system : CaptureSystem) : CaptureSystem :=
  if system.writer.terminal then system
  else
    { system with
      writer := { system.writer with terminal := true }
      state := { system.state with writerOpen := false } }

def setCursor (system : CaptureSystem) (index : Nat) (cursor : CaptureCursor) : CaptureSystem :=
  { system with cursors := system.cursors.set index cursor }

def cursorStep (system : CaptureSystem) (cursor : CaptureCursor) : StoreAction → Option CaptureCursor
  | .next _ => if cursor.phase = .idle then some (cursor.look system.state) else none
  | .waitNext _ =>
    if cursor.phase = .idle then
      if system.state.manifest.committedChunks ≤ cursor.nextSequence ∧ system.state.writerOpen then
        some { cursor with phase := .waiting }
      else some (cursor.look system.state)
    else none
  | .wake _ => if cursor.phase = .waiting then some (cursor.look system.state) else none
  | .read _ refusal =>
    match cursor.phase with
    | .reading sequence =>
      some (cursor.take (readChunk digest system.repository descriptor sequence refusal))
    | _ => none
  | _ => none

def onCursor (system : CaptureSystem) (index : Nat) (action : StoreAction) : Option CaptureSystem :=
  system.cursors[index]?.bind fun cursor =>
    (cursorStep digest descriptor system cursor action).map (system.setCursor index)

def step (system : CaptureSystem) : StoreAction → Option CaptureSystem
  | .append chunk =>
    match system.phase with
    | .idle => some (system.beginAppend descriptor chunk)
    | _ => none
  | .publishChunk refusal =>
    match system.phase with
    | .publishing chunk encoded => some (system.publishArtifact digest chunk encoded refusal)
    | _ => none
  | .commit refusal =>
    match system.phase with
    | .committing chunk => some (system.commitChunk digest descriptor chunk refusal)
    | _ => none
  | .recordFailure =>
    match system.phase with
    | .failing chunk error => some (system.fail chunk error)
    | _ => none
  | .finish =>
    match system.phase with
    | .idle => some system.finishWriter
    | _ => none
  | .openCursor => some { system with cursors := system.cursors ++ [CaptureCursor.opened system.state] }
  | .next index => system.onCursor digest descriptor index (.next index)
  | .waitNext index => system.onCursor digest descriptor index (.waitNext index)
  | .wake index => system.onCursor digest descriptor index (.wake index)
  | .read index refusal => system.onCursor digest descriptor index (.read index refusal)

def run : CaptureSystem → List StoreAction → Option CaptureSystem
  | system, [] => some system
  | system, action :: actions => (system.step digest descriptor action).bind fun next => run next actions

end

def accepted : CaptureChunk × Except CaptureStoreError Unit → Option CaptureChunk
  | (chunk, .ok _) => some chunk
  | (_, .error _) => none

def committed (system : CaptureSystem) : List CaptureChunk := system.attempts.filterMap accepted

end CaptureSystem

end LogicConduit
