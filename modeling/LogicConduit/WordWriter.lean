import LogicConduit.Programs
import LogicConduit.WordIndexFile

namespace LogicConduit

inductive WorkExecutorError
  | queueFull
  | stopped
  | taskStart (message : String)
  | rejected (message : String)
  deriving DecidableEq

def WorkExecutorError.display : WorkExecutorError → String
  | .queueFull => "processing work executor queue is full"
  | .stopped => "processing work executor stopped"
  | .taskStart message => message
  | .rejected message => message

structure LiveStoreConfig where
  cacheKeyPrefix : Bytes
  block : BlockCodecConfig
  hotTailPublishWords : Nat
  persistence : Option CacheKey
  availableParallelism : Nat

def maxBlockEncodersPerStore : Nat := 4
def targetSegmentBytes : Nat := 8 * 1024 * 1024

def blockEncoderCount (availableWorkers : Nat) : Nat :=
  if availableWorkers ≤ 2 then 1 else min (max ((availableWorkers + 3) / 4) 2) maxBlockEncodersPerStore

structure PreparedBlock where
  builder : WordBlockBuilder
  encoded : Bytes
  result : CodecResult (EncodedBlockMetadata × List WordSummaryRecord)

def prepareEncodedBlock (checksum : BlockChecksum) (sequence : Nat) (builder : WordBlockBuilder) :
    PreparedBlock :=
  let summaries := wordPresenceSummaries sequence builder.words builder.isDurationFree
  match builder.encode checksum (UInt64.ofNat sequence) with
  | .ok (metadata, encoded) => ⟨builder.clear, encoded, .ok (metadata, summaries)⟩
  | .error e => ⟨builder.clear, [], .error e⟩

/-- A block handed to the executor whose completion has not been received. -/
structure EncodeJob where
  sequence : Nat
  builder : WordBlockBuilder

def EncodeJob.complete (checksum : BlockChecksum) (panics : Bool) (job : EncodeJob) :
    Nat × Option PreparedBlock :=
  (job.sequence, if panics then none else some (prepareEncodedBlock checksum job.sequence job.builder))

structure ActiveSegment where
  sequence : Nat
  staged : Bytes
  length : Nat
  blockSequences : List Nat

structure Writer where
  builder : WordBlockBuilder
  jobs : List EncodeJob
  preparedBlocks : List (Nat × PreparedBlock)
  availableBuilders : List WordBlockBuilder
  inFlightBlocks : Nat
  maxOutstandingBlocks : Nat
  nextDispatchSequence : Nat
  nextSequence : Nat
  nextDataOffset : Nat
  lastTimestampNs : Option Nat
  wordsSinceTailPublish : Nat
  hotTailPublishWords : Nat
  terminal : Bool
  persistence : Option CacheKey
  createdUnixNs : Nat
  activeSegment : Option ActiveSegment
  nextSegmentSequence : Nat

def Writer.outstandingBlocks (writer : Writer) : Nat :=
  writer.inFlightBlocks + writer.preparedBlocks.length

/-- Twice the blocks in flight and once the prepared ones: what a receive or a commit brings down. -/
def Writer.backlog (writer : Writer) : Nat := 2 * writer.jobs.length + writer.preparedBlocks.length

/-- What the surroundings of the writer answer at one point of a call. -/
structure Choice where
  /-- Which of the jobs in flight the completion channel yields, if any has completed. -/
  completed : Option Nat
  /-- Whether the encoder of that job panicked. -/
  panics : Bool
  refused : Option RepositoryError
  rejected : Option WorkExecutorError
  /-- Whether the interval between two hot tails has passed. -/
  elapsed : Bool
  now : Nat

/-- The shared store at one instant, with the blocks dispatched and the words appended until then. -/
structure Observation where
  store : Store
  dispatched : List WordBlockBuilder
  appended : List Word

/-- A writer in its surroundings. `dispatched`, `appended` and `history` only record: the blocks
handed to the executor, the words handed to the writer and the store after each write to it. -/
structure Machine where
  writer : Writer
  store : Store
  choices : Nat → Choice
  dispatched : List WordBlockBuilder
  appended : List Word
  history : List Observation

def Machine.observe (machine : Machine) : Observation :=
  ⟨machine.store, machine.dispatched, machine.appended⟩

/-- Why a call stops: with an error, waiting for a completion that never comes, or in a panic. -/
inductive Halt
  | error (error : StoreError)
  | blocked
  | panicked
  deriving DecidableEq

abbrev WriterM := Prog Machine Halt

def raise {α : Type} (error : StoreError) : WriterM α := Prog.fail (.error error)

def ask : WriterM Choice := fun m =>
  (.ok (m.choices 0), { m with choices := fun n => m.choices (n + 1) })

def request : WriterM Unit := do
  match (← ask).refused with
  | some error => raise (.repository error)
  | none => pure ()

def setWriter (f : Writer → Writer) : WriterM Unit :=
  Prog.modify fun m => { m with writer := f m.writer }

def Machine.touch (f : Store → Store) (machine : Machine) : Machine :=
  let machine := { machine with store := f machine.store }
  { machine with history := machine.history ++ [machine.observe] }

/-- One write to what is shared with the readers. -/
def touch (f : Store → Store) : WriterM Unit := Prog.modify (Machine.touch f)

def setState (f : LiveState → LiveState) : WriterM Unit :=
  touch fun store => { store with state := f store.state }

def Store.removePending (sequences : List Nat) (store : Store) : Store :=
  { store with pendingBlocks := fun sequence =>
      if sequence ∈ sequences then none else store.pendingBlocks sequence }

def Store.withSegment (segment : ActiveSegment) (store : Store) : Store :=
  { store with
    repository := store.repository.publish (segmentKey store.storeIdentity segment.sequence)
      (resizeStaged segment.staged segment.length) }

def publishSegment (segment : ActiveSegment) : WriterM Unit := do
  setWriter fun writer => { writer with activeSegment := none }
  request
  request
  touch (Store.withSegment segment)
  touch (Store.removePending segment.blockSequences)

def publishActiveSegment : WriterM Unit := do
  match (← Prog.get).writer.activeSegment with
  | none => pure ()
  | some segment => publishSegment segment

def discardActiveSegment : WriterM Unit := do
  match (← Prog.get).writer.activeSegment with
  | none => pure ()
  | some segment =>
    setWriter fun writer => { writer with activeSegment := none }
    touch (Store.removePending segment.blockSequences)

def Writer.rotates (writer : Writer) (blockLen : Nat) : Bool :=
  writer.activeSegment.any fun segment =>
    0 < segment.length ∧ targetSegmentBytes < saturatingAdd segment.length blockLen

def openSegment : WriterM Unit := do
  request
  setWriter fun writer => { writer with
    activeSegment := some ⟨writer.nextSegmentSequence, [], 0, []⟩
    nextSegmentSequence := saturatingAdd writer.nextSegmentSequence 1 }

def rotateSegment (blockLen : Nat) : WriterM Unit := do
  if (← Prog.get).writer.rotates blockLen then publishActiveSegment

def ensureSegment : WriterM Unit := do
  if (← Prog.get).writer.activeSegment.isNone then openSegment

def prepareActiveSegment (blockLen : Nat) : WriterM Unit := do
  rotateSegment blockLen
  ensureSegment

/-- Writes a block at the end of the active segment; returns the segment and the offset. -/
def stageBlock (sequence : Nat) (encoded : Bytes) : WriterM (Nat × Nat) := fun m =>
  match m.writer.activeSegment with
  | none => (.error .panicked, m)
  | some segment =>
    let segment := { segment with staged := writeAt segment.staged segment.length encoded }
    if 2 ^ 64 ≤ segment.length + encoded.length then
      (.error (.error (.persistent "derived segment length overflow")),
        { m with writer := { m.writer with activeSegment := some segment } })
    else
      (.ok (segment.sequence, segment.length), { m with writer := { m.writer with
        activeSegment := some { segment with
          length := segment.length + encoded.length
          blockSequences := segment.blockSequences ++ [sequence] } } })

def LiveState.commit (state : LiveState) (entry : BlockDirectoryEntry)
    (summaries : List WordSummaryRecord) : LiveState :=
  { state with
    directory := state.directory ++ [entry]
    presence := summaries.foldl WordPresenceIndex.push state.presence
    committedWordCount := state.committedWordCount + entry.wordCount.toNat
    committedDataLen := entry.dataOffset + entry.blockLen.toNat
    committedFirstTimestampNs := some (state.committedFirstTimestampNs.getD entry.firstTimestampNs)
    committedLastTimestampNs := some entry.lastTimestampNs
    hotTail := []
    generation := state.generation + 1 }

def Store.addPending (sequence : Nat) (encoded : Bytes) (store : Store) : Store :=
  { store with pendingBlocks := fun k => if k = sequence then some encoded else store.pendingBlocks k }

/-- Enters a block into the directory; an overflow of the two `u64` counters panics. -/
def commitState (entry : BlockDirectoryEntry) (summaries : List WordSummaryRecord) : WriterM Unit :=
  fun m =>
    if 2 ^ 64 ≤ m.store.state.committedWordCount + entry.wordCount.toNat ∨
        2 ^ 64 ≤ entry.dataOffset + entry.blockLen.toNat then (.error .panicked, m)
    else setState (fun state => state.commit entry summaries) m

/-- Publishes a staged block to the readers and moves on to the next. -/
def commitEntry (entry : BlockDirectoryEntry) (summaries : List WordSummaryRecord)
    (block : PreparedBlock) : WriterM Unit := do
  touch (Store.addPending entry.sequence.toNat block.encoded)
  commitState entry summaries
  setWriter fun writer => { writer with
    nextSequence := writer.nextSequence + 1
    nextDataOffset := writer.nextDataOffset + entry.blockLen.toNat
    availableBuilders := block.builder :: writer.availableBuilders }

def commitEncoded (metadata : EncodedBlockMetadata) (summaries : List WordSummaryRecord)
    (block : PreparedBlock) : WriterM Unit := do
  prepareActiveSegment block.encoded.length
  request
  let (segmentSequence, segmentOffset) ← stageBlock metadata.header.sequence.toNat block.encoded
  let dataOffset := (← Prog.get).writer.nextDataOffset
  commitEntry (.ofHeader metadata.header dataOffset segmentSequence segmentOffset) summaries block

def commitPreparedBlock (block : PreparedBlock) : WriterM Unit :=
  match block.result with
  | .error error => raise (.codec error)
  | .ok (metadata, summaries) => commitEncoded metadata summaries block

def takePrepared : WriterM (Option PreparedBlock) := fun m =>
  match m.writer.preparedBlocks.find? (·.1 = m.writer.nextSequence) with
  | none => (.ok none, m)
  | some (sequence, block) =>
    (.ok (some block), { m with writer := { m.writer with
      preparedBlocks := m.writer.preparedBlocks.filter (·.1 ≠ sequence) } })

def commitLoop : Nat → WriterM Unit
  | 0 => pure ()
  | fuel + 1 => do
    match ← takePrepared with
    | none => pure ()
    | some block =>
      commitPreparedBlock block
      commitLoop fuel

def commitOrderedBlocks : WriterM Unit := do
  commitLoop (← Prog.get).writer.preparedBlocks.length

def acceptCompletedBlock (sequence : Nat) (block : Option PreparedBlock) : WriterM Unit := fun m =>
  if m.writer.inFlightBlocks = 0 then
    (.error (.error (.persistent "received an unexpected block encoder completion")), m)
  else
    let m := { m with writer := { m.writer with inFlightBlocks := m.writer.inFlightBlocks - 1 } }
    match block with
    | none => (.error (.error (.persistent s!"block encoder panicked for sequence {sequence}")), m)
    | some block =>
      let completed := m.writer.preparedBlocks.any (·.1 = sequence)
      let m := { m with writer := { m.writer with
        preparedBlocks := (sequence, block) :: m.writer.preparedBlocks.filter (·.1 ≠ sequence) } }
      if completed then
        (.error (.error (.persistent s!"block encoder completed sequence {sequence} twice")), m)
      else (.ok (), m)

/-- Takes the completion of the job at `position` off the channel. -/
def takeCompletion (checksum : BlockChecksum) (panics : Bool) (position : Nat) :
    WriterM (Option (Nat × Option PreparedBlock)) := fun m =>
  match m.writer.jobs[position]? with
  | none => (.ok none, m)
  | some job =>
    (.ok (some (job.complete checksum panics)),
      { m with writer := { m.writer with jobs := m.writer.jobs.eraseIdx position } })

/-- `try_recv`; the writer keeps a sender, so the channel is never disconnected. -/
def tryRecv (checksum : BlockChecksum) : WriterM (Option (Nat × Option PreparedBlock)) := do
  let choice ← ask
  match choice.completed with
  | none => pure none
  | some position => takeCompletion checksum choice.panics position

/-- `recv` waits for the completion of any job in flight. -/
def recv (checksum : BlockChecksum) : WriterM (Option (Nat × Option PreparedBlock)) := do
  let choice ← ask
  let count := (← Prog.get).writer.jobs.length
  takeCompletion checksum choice.panics (choice.completed.getD 0 % count)

/-- The receive loop of a drain; every round takes one of the jobs in flight. -/
def receiveReady (checksum : BlockChecksum) : Nat → WriterM Unit
  | 0 => pure ()
  | fuel + 1 => do
    match ← tryRecv checksum with
    | none => pure ()
    | some (sequence, block) =>
      acceptCompletedBlock sequence block
      receiveReady checksum fuel

def drainCompletedBlocks (checksum : BlockChecksum) : WriterM Unit := do
  receiveReady checksum (← Prog.get).writer.jobs.length
  commitOrderedBlocks

def receiveCompletedBlock (checksum : BlockChecksum) : WriterM Unit := do
  match ← recv checksum with
  | none => Prog.fail .blocked
  | some (sequence, block) => acceptCompletedBlock sequence block

def receiveAndCommit (checksum : BlockChecksum) : WriterM Unit := do
  receiveCompletedBlock checksum
  commitOrderedBlocks

def flushRound (checksum : BlockChecksum) : WriterM Unit := do
  let writer := (← Prog.get).writer
  if writer.preparedBlocks.any (·.1 = writer.nextSequence) then commitOrderedBlocks
  else receiveAndCommit checksum

def flushDispatchedBlocks (checksum : BlockChecksum) : WriterM Unit := do
  Prog.whileLoop .blocked (fun m => decide (0 < m.writer.outstandingBlocks)) (flushRound checksum)
    ((← Prog.get).writer.backlog + 1)

/-- The backpressure loop: waits until another block may be outstanding. -/
def waitForRoom (checksum : BlockChecksum) : WriterM Unit := do
  Prog.whileLoop .blocked
    (fun m => decide (m.writer.maxOutstandingBlocks ≤ m.writer.outstandingBlocks))
    (receiveAndCommit checksum) ((← Prog.get).writer.backlog + 1)

/-- Hands the builder to the executor, with an empty one in its place. -/
def submitBlock : WriterM Unit := fun m =>
  let builder := m.writer.builder
  let replacement := m.writer.availableBuilders.head?.getD builder.clear
  let choice := m.choices 0
  let m := { m with
    choices := fun n => m.choices (n + 1)
    writer := { m.writer with
      builder := replacement
      availableBuilders := m.writer.availableBuilders.tail } }
  match choice.rejected with
  | some error => (.error (.error (.persistent error.display)), m)
  | none =>
    if 2 ^ 64 ≤ m.writer.nextDispatchSequence + 1 then (.error .panicked, m)
    else
      (.ok (), { m with
        dispatched := m.dispatched ++ [builder]
        writer := { m.writer with
          jobs := m.writer.jobs ++ [⟨m.writer.nextDispatchSequence, builder⟩]
          inFlightBlocks := m.writer.inFlightBlocks + 1
          nextDispatchSequence := m.writer.nextDispatchSequence + 1
          wordsSinceTailPublish := 0 } })

def dispatchCurrentBlock (checksum : BlockChecksum) : WriterM Unit := do
  if (← Prog.get).writer.builder.words = [] then pure ()
  else
    drainCompletedBlocks checksum
    waitForRoom checksum
    submitBlock

/-- Rejects the batch at the first word that precedes an earlier one. -/
def checkOrder : List Word → WriterM Unit
  | [] => pure ()
  | word :: rest => fun m =>
    if m.writer.lastTimestampNs.any (word.time < ·) then
      (.error (.error (.codec (.outOfOrder m.writer.builder.words.length
        (m.writer.lastTimestampNs.getD 0) word.time))), m)
    else checkOrder rest { m with writer := { m.writer with lastTimestampNs := some word.time } }

def extendBuilder (remaining : List Word) : WriterM Nat := fun m =>
  let (accepted, builder) := m.writer.builder.extendOrdered remaining
  (.ok accepted, { m with writer := { m.writer with
    builder
    wordsSinceTailPublish := m.writer.wordsSinceTailPublish + accepted } })

def dispatchIfFull (checksum : BlockChecksum) (remaining : List Word) : WriterM Unit := do
  if remaining ≠ [] ∨ (← Prog.get).writer.builder.isAtWordLimit then dispatchCurrentBlock checksum

def appendWords (checksum : BlockChecksum) : Nat → List Word → WriterM Unit
  | _, [] => pure ()
  | 0, _ :: _ => Prog.fail .blocked
  | fuel + 1, word :: rest => do
    let accepted ← extendBuilder (word :: rest)
    dispatchIfFull checksum ((word :: rest).drop accepted)
    appendWords checksum fuel ((word :: rest).drop accepted)

def appendBatchInner (checksum : BlockChecksum) (words : List Word) : WriterM Unit := do
  drainCompletedBlocks checksum
  checkOrder words
  appendWords checksum (2 * words.length + 2) words
  drainCompletedBlocks checksum

def publishHotTailInner : WriterM Unit := do
  let words := (← Prog.get).writer.builder.words
  setState fun state => { state with hotTail := words, generation := state.generation + 1 }
  setWriter fun writer => { writer with wordsSinceTailPublish := 0 }

def publishAppendedPrefix (checksum : BlockChecksum) : WriterM Unit := do
  drainCompletedBlocks checksum
  let choice ← ask
  let writer := (← Prog.get).writer
  if writer.outstandingBlocks = 0 ∧ writer.builder.words ≠ [] ∧
      (writer.hotTailPublishWords ≤ writer.wordsSinceTailPublish ∨ choice.elapsed) then
    publishHotTailInner

def appendBatchesInner (checksum : BlockChecksum) (batches : List (List Word)) : WriterM Unit := do
  batches.forM (appendBatchInner checksum)
  publishAppendedPrefix checksum

def publishBytes (key : ArtifactKey) (bytes : Bytes) : WriterM Unit := do
  request
  request
  request
  request
  request
  touch fun store => { store with
    repository := store.repository.publish key (resizeStaged (writeAt [] 0 bytes) bytes.length) }

/-- `persistent::publish`. -/
def publishGeneration (checksum : BlockChecksum) (key : CacheKey) : WriterM Unit := do
  let m ← Prog.get
  let state := m.store.state
  match encodeIndex checksum key.bytes state.directory state.presence.leaves state.committedWordCount
      state.committedDataLen state.committedFirstTimestampNs state.committedLastTimestampNs with
  | .error error => raise error
  | .ok indexBytes =>
    publishBytes key.index indexBytes
    let choice ← ask
    publishBytes key.manifest (encodeManifest checksum {
      cacheKey := key.bytes
      dataLen := state.committedDataLen
      indexLen := indexBytes.length
      wordCount := state.committedWordCount
      createdUnixNs := m.writer.createdUnixNs
      accessedUnixNs := choice.now })

def persistStore (checksum : BlockChecksum) : WriterM Unit := do
  match (← Prog.get).writer.persistence with
  | none => pure ()
  | some key =>
    publishGeneration checksum key
    touch fun store => { store with removeOnDrop := false, persistentCache := true }

def finishInner (checksum : BlockChecksum) : WriterM Unit := do
  dispatchCurrentBlock checksum
  flushDispatchedBlocks checksum
  publishActiveSegment
  persistStore checksum
  setState fun state => { state with status := .finished, generation := state.generation + 1 }
  setWriter fun writer => { writer with terminal := true }

def ensureLive : WriterM Unit := fun m =>
  if m.store.state.status = .live then (.ok (), m)
  else (.error (.error (.notLive m.store.state.status)), m)

def failMachine (halt : Halt) (m : Machine) : Machine :=
  match halt with
  | .error error =>
    let m := m.touch (·.markFailed error.display)
    { m with writer := { m.writer with terminal := true } }
  | _ => m

def noteAppended (words : List Word) : WriterM Unit :=
  Prog.modify fun m => { m with appended := m.appended ++ words }

inductive WriterOp
  | append (word : Word)
  | appendBatch (words : List Word)
  | appendBatches (batches : List (List Word))
  | publishHotTail
  | finish
  | cancel
  deriving DecidableEq

def appendBatch (checksum : BlockChecksum) (words : List Word) : WriterM Unit := do
  ensureLive
  noteAppended words
  (do
    appendBatchInner checksum words
    publishAppendedPrefix checksum : WriterM Unit).onError failMachine

def appendBatches (checksum : BlockChecksum) (batches : List (List Word)) : WriterM Unit := do
  ensureLive
  noteAppended batches.flatten
  (appendBatchesInner checksum batches).onError failMachine

def publishHotTail (checksum : BlockChecksum) : WriterM Unit := do
  ensureLive
  flushDispatchedBlocks checksum
  publishHotTailInner

def finish (checksum : BlockChecksum) : WriterM Unit := do
  ensureLive
  (finishInner checksum).onError failMachine

def cancel : WriterM Unit := do
  ensureLive
  setWriter fun writer => { writer with builder := writer.builder.clear, wordsSinceTailPublish := 0 }
  discardActiveSegment
  setState fun state => { state with
    hotTail := []
    status := .cancelled
    generation := state.generation + 1 }
  setWriter fun writer => { writer with terminal := true }

def WriterOp.run (checksum : BlockChecksum) : WriterOp → WriterM Unit
  | .append word => LogicConduit.appendBatch checksum [word]
  | .appendBatch words => LogicConduit.appendBatch checksum words
  | .appendBatches batches => LogicConduit.appendBatches checksum batches
  | .publishHotTail => LogicConduit.publishHotTail checksum
  | .finish => LogicConduit.finish checksum
  | .cancel => LogicConduit.cancel

def ephemeralStoreIdentity (cacheKeyPrefix : Bytes) (storeId : UInt64) : Bytes :=
  cacheKeyPrefix ++ leBytes 8 storeId.toNat ++ leBytes 8 (~~~storeId).toNat

def Writer.new (config : LiveStoreConfig) (builder : WordBlockBuilder) (createdUnixNs : Nat) : Writer where
  builder
  jobs := []
  preparedBlocks := []
  availableBuilders := []
  inFlightBlocks := 0
  maxOutstandingBlocks := blockEncoderCount config.availableParallelism
  nextDispatchSequence := 0
  nextSequence := 0
  nextDataOffset := 0
  lastTimestampNs := none
  wordsSinceTailPublish := 0
  hotTailPublishWords := config.hotTailPublishWords
  terminal := false
  persistence := config.persistence
  createdUnixNs
  activeSegment := none
  nextSegmentSequence := 0

/-- `persistent::invalidate`; `refused` is the repository's answer to it. -/
def invalidate (key : CacheKey) (refused : Option RepositoryError) (repository : Repository) :
    StoreResult Repository :=
  match refused with
  | some error => .error (.repository error)
  | none => .ok (removeCacheArtifacts key repository)

def LiveStoreConfig.check (config : LiveStoreConfig) : StoreResult Unit :=
  if config.hotTailPublishWords = 0 then
    .error (.codec (.invalidConfiguration "hot_tail_publish_words must be greater than zero"))
  else .ok ()

def LiveStoreConfig.cleared (config : LiveStoreConfig) (refused : Option RepositoryError)
    (repository : Repository) : StoreResult Repository :=
  match config.persistence with
  | some key => invalidate key refused repository
  | none => .ok repository

def createWriter (config : LiveStoreConfig) (repository : Repository) (storeId : UInt64) (choice : Choice) :
    StoreResult Machine := do
  config.check
  let repository ← config.cleared choice.refused repository
  let builder ← (WordBlockBuilder.new config.block).mapError .codec
  return {
    writer := Writer.new config builder (if config.persistence.isSome then choice.now else 0)
    store := {
      state := .new
      repository
      storeIdentity := (config.persistence.map CacheKey.bytes).getD
        (ephemeralStoreIdentity config.cacheKeyPrefix storeId)
      storeId
      removeOnDrop := true
      persistentCache := false
      pendingBlocks := fun _ => none }
    choices := fun _ => choice
    dispatched := []
    appended := []
    history := [] }

/-- One call of the writer and what its surroundings answer during it. -/
structure Call where
  op : WriterOp
  choices : Nat → Choice

structure Step where
  call : Call
  before : Machine
  result : Except Halt Unit
  after : Machine

/-- The machine as a call finds it: new answers, and a history of the call alone. -/
def Machine.start (machine : Machine) (choices : Nat → Choice) : Machine :=
  { machine with choices, history := [machine.observe] }

/-- A call that waits for ever or panics is the last. -/
def Halt.returned : Except Halt Unit → Bool
  | .error .blocked => false
  | .error .panicked => false
  | _ => true

def runCalls (checksum : BlockChecksum) : List Call → Machine → List Step
  | [], _ => []
  | call :: rest, machine =>
    let before := machine.start call.choices
    let (result, after) := call.op.run checksum before
    ⟨call, before, result, after⟩ ::
      if Halt.returned result then runCalls checksum rest after else []

end LogicConduit
