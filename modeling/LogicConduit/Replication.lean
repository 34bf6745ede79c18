import LogicConduit.Artifacts

namespace LogicConduit

/-- A key as its constructor lets it through: `ArtifactNamespace::new` refuses an empty namespace. -/
abbrev NamedKey := { key : ArtifactKey // key.nameSpace ≠ "" }

inductive ArtifactReplicationEvent
  | publishedChunk (nameSpace : String) (identity : Bytes) (offset totalLength : Nat) (data : Bytes) (complete : Bool)
  | removed (nameSpace : String) (identity : Bytes)
  deriving DecidableEq

def ArtifactReplicationEvent.payload : ArtifactReplicationEvent → Bytes
  | .publishedChunk _ _ _ _ data _ => data
  | .removed _ _ => []

structure PendingPublication where
  key : ArtifactKey
  reader : Bytes
  length : Nat
  offset : Nat
  deriving DecidableEq

inductive PendingMutation
  | published (publication : PendingPublication)
  | removed (key : ArtifactKey)
  deriving DecidableEq

def saturatingAdd64 (a b : Nat) : Nat := min (a + b) (2 ^ 64 - 1)

/-- `write_at` of the wrapped writer. -/
def stagedWriteAt (staged : Bytes) (offset : Nat) (source : Bytes) : Except RepositoryError Bytes :=
  if 2 ^ 64 ≤ offset + source.length then .error (.rangeOverflow offset source.length)
  else .ok (LogicConduit.writeAt staged offset source)

structure ReplicatingWriteArtifact where
  inner : Bytes
  key : ArtifactKey
  length : Nat

namespace ReplicatingWriteArtifact

def writeAt (writer : ReplicatingWriteArtifact) (offset : Nat) (source : Bytes) :
    Except RepositoryError ReplicatingWriteArtifact :=
  match stagedWriteAt writer.inner offset source with
  | .error error => .error error
  | .ok inner =>
    if 2 ^ 64 ≤ offset + source.length then .error (.rangeOverflow offset source.length)
    else .ok { writer with inner := inner, length := max writer.length (offset + source.length) }

def truncate (writer : ReplicatingWriteArtifact) (len : Nat) : ReplicatingWriteArtifact :=
  { writer with inner := resizeStaged writer.inner len, length := len }

end ReplicatingWriteArtifact

/-- The calls on an unpublished write. -/
inductive WriteOp
  | writeAt (offset : UInt64) (source : Bytes)
  | truncate (len : UInt64)
  | flush

/-- One call. A refused one leaves the writer as it is. -/
def ReplicatingWriteArtifact.perform (writer : ReplicatingWriteArtifact) : WriteOp → ReplicatingWriteArtifact
  | .writeAt offset source =>
    match writer.writeAt offset.toNat source with
    | .ok next => next
    | .error _ => writer
  | .truncate len => writer.truncate len.toNat
  | .flush => writer

structure ReplicatingArtifactRepository where
  inner : Repository
  pending : List PendingMutation

def readArtifactAt (reader : Bytes) (offset count : Nat) : Except RepositoryError Bytes :=
  if reader.length < offset then .error (.outOfBounds offset offset reader.length)
  else .ok ((reader.drop offset).take count)

/-- The loop of `read_exact_at` with what it has copied so far. A round copies at least one byte. -/
def readExactLoop (reader : Bytes) (offset wanted : Nat) : Nat → Bytes → Except RepositoryError Bytes
  | 0, copied => .ok copied
  | rounds + 1, copied =>
    if copied.length < wanted then
      match readArtifactAt reader (offset + copied.length) (wanted - copied.length) with
      | .error error => .error error
      | .ok [] => .error (.corrupt "published artifact ended during replication")
      | .ok (first :: data) => readExactLoop reader offset wanted rounds (copied ++ first :: data)
    else .ok copied

def readExactAt (reader : Bytes) (offset wanted : Nat) : Except RepositoryError Bytes :=
  readExactLoop reader offset wanted wanted []

namespace ReplicatingArtifactRepository

def beginWrite (key : ArtifactKey) : ReplicatingWriteArtifact := ⟨[], key, 0⟩

def publish (repository : ReplicatingArtifactRepository) (writer : ReplicatingWriteArtifact) :
    ReplicatingArtifactRepository × Except RepositoryError Unit :=
  let inner := repository.inner.publish writer.key writer.inner
  match inner writer.key with
  | none =>
    ({ repository with inner := inner }, .error (.corrupt "published artifact is unavailable for replication"))
  | some reader =>
    (⟨inner, repository.pending ++ [.published ⟨writer.key, reader, writer.length, 0⟩]⟩, .ok ())

def remove (repository : ReplicatingArtifactRepository) (key : ArtifactKey) : ReplicatingArtifactRepository :=
  ⟨repository.inner.remove (· = key), repository.pending ++ [.removed key]⟩

def drainLoop (maxPayloadBytes : Nat) : Nat → List ArtifactReplicationEvent → Nat → List PendingMutation →
    List PendingMutation × Except RepositoryError (List ArtifactReplicationEvent)
  | 0, events, _, pending => (pending, .ok events)
  | _ + 1, events, _, [] => ([], .ok events)
  | room + 1, events, payloadBytes, .removed key :: rest =>
    drainLoop maxPayloadBytes room (events ++ [.removed key.nameSpace key.identity]) payloadBytes rest
  | room + 1, events, payloadBytes, .published publication :: rest =>
    let remainingBudget := maxPayloadBytes - payloadBytes
    if remainingBudget = 0 ∧ events ≠ [] then (.published publication :: rest, .ok events)
    else
      -- the budget is a `usize`, so that the conversion of the remaining length does not matter
      let count := min (publication.length - publication.offset) (max remainingBudget 1)
      match readExactAt publication.reader publication.offset count with
      | .error error => (.published publication :: rest, .error error)
      | .ok data =>
        let offset := saturatingAdd64 publication.offset count
        let complete := offset == publication.length
        drainLoop maxPayloadBytes room
          (events ++ [.publishedChunk publication.key.nameSpace publication.key.identity publication.offset
            publication.length data complete])
          (payloadBytes + count)
          (if complete then rest else .published { publication with offset := offset } :: rest)

def drain (repository : ReplicatingArtifactRepository) (maxEvents maxPayloadBytes : Nat) :
    ReplicatingArtifactRepository × Except RepositoryError (List ArtifactReplicationEvent) :=
  if maxEvents = 0 ∨ maxPayloadBytes = 0 then
    (repository, .error (.unsupported "artifact replication limits must be non-zero"))
  else
    let (pending, events) := drainLoop maxPayloadBytes maxEvents [] 0 repository.pending
    ({ repository with pending := pending }, events)

end ReplicatingArtifactRepository

structure PendingReceive where
  writer : Bytes
  nextOffset : Nat
  totalLength : Nat
  deriving DecidableEq

structure ArtifactReplicationReceiver where
  repository : Repository
  pending : List (ArtifactKey × PendingReceive)

def artifactKey (nameSpace : String) (identity : Bytes) : Except RepositoryError ArtifactKey :=
  if nameSpace = "" then .error (.invalidKey "artifact namespaces cannot be empty") else .ok ⟨nameSpace, identity⟩

namespace ArtifactReplicationReceiver

def without (pending : List (ArtifactKey × PendingReceive)) (key : ArtifactKey) :
    List (ArtifactKey × PendingReceive) :=
  pending.filter (·.1 ≠ key)

def insert (pending : List (ArtifactKey × PendingReceive)) (key : ArtifactKey) (receive : PendingReceive) :
    List (ArtifactKey × PendingReceive) :=
  (key, receive) :: without pending key

def applyChunk (receiver : ArtifactReplicationReceiver) (key : ArtifactKey) (offset totalLength : Nat) (data : Bytes)
    (complete : Bool) : ArtifactReplicationReceiver × Except RepositoryError Unit :=
  match receiver.pending.lookup key with
  | none => (receiver, .error (.corrupt "artifact replication chunk has no active publication"))
  | some receive =>
    if receive.nextOffset ≠ offset ∨ receive.totalLength ≠ totalLength then
      (receiver, .error (.corrupt "artifact replication chunks are out of order"))
    else
      match stagedWriteAt receive.writer offset data with
      | .error error => (receiver, .error error)
      | .ok writer =>
        let nextOffset := saturatingAdd64 receive.nextOffset data.length
        let written := { receiver with pending := insert receiver.pending key ⟨writer, nextOffset, totalLength⟩ }
        if complete then
          if nextOffset ≠ receive.totalLength then
            (written, .error (.corrupt "artifact replication completed at the wrong length"))
          else
            (⟨receiver.repository.publish key (resizeStaged writer totalLength), without receiver.pending key⟩, .ok ())
        else (written, .ok ())

def apply (receiver : ArtifactReplicationReceiver) :
    ArtifactReplicationEvent → ArtifactReplicationReceiver × Except RepositoryError Unit
  | .removed nameSpace identity =>
    match artifactKey nameSpace identity with
    | .error error => (receiver, .error error)
    | .ok key => (⟨receiver.repository.remove (· = key), without receiver.pending key⟩, .ok ())
  | .publishedChunk nameSpace identity offset totalLength data complete =>
    match artifactKey nameSpace identity with
    | .error error => (receiver, .error error)
    | .ok key =>
      if offset = 0 then
        ArtifactReplicationReceiver.applyChunk
          { receiver with pending := insert receiver.pending key ⟨[], 0, totalLength⟩ } key offset totalLength data
          complete
      else receiver.applyChunk key offset totalLength data complete

def isIdle (receiver : ArtifactReplicationReceiver) : Bool := receiver.pending.isEmpty

end ArtifactReplicationReceiver

/-- A mutation of the source as a whole. -/
inductive Mutation
  | published (key : ArtifactKey) (bytes : Bytes)
  | removed (key : ArtifactKey)
  deriving DecidableEq

def Mutation.key : Mutation → ArtifactKey
  | .published key _ | .removed key => key

def Repository.mutate (repository : Repository) : Mutation → Repository
  | .published key bytes => repository.publish key bytes
  | .removed key => repository.remove (· = key)

/-- The contents after some mutations. -/
def Repository.replay (repository : Repository) (mutations : List Mutation) : Repository :=
  mutations.foldl Repository.mutate repository

inductive ReplicationStep
  /-- A whole publication: the write is begun, written and published. -/
  | publish (key : NamedKey) (ops : List WriteOp)
  | remove (key : NamedKey)
  | drain (maxEvents maxPayloadBytes : Nat)
  /-- The receiver applies the next event that was drained. -/
  | apply

/-- The source, the drained events that have not been applied yet, and the receiver. The last fields record the
mutations of the source and how many of them have been applied to the end. -/
structure ReplicationRun where
  source : ReplicatingArtifactRepository
  wire : List ArtifactReplicationEvent
  receiver : ArtifactReplicationReceiver
  mutations : List Mutation
  finished : Nat

namespace ReplicationRun

def start (source destination : Repository) : ReplicationRun := ⟨⟨source, []⟩, [], ⟨destination, []⟩, [], 0⟩

def written (key : ArtifactKey) (ops : List WriteOp) : ReplicatingWriteArtifact :=
  ops.foldl ReplicatingWriteArtifact.perform (ReplicatingArtifactRepository.beginWrite key)

def finishes : ArtifactReplicationEvent → Bool
  | .publishedChunk _ _ _ _ _ complete => complete
  | .removed _ _ => true

def step (run : ReplicationRun) : ReplicationStep → ReplicationRun
  | .publish key ops =>
    { run with
      source := (run.source.publish (written key ops)).1
      mutations := run.mutations ++ [.published key (written key ops).inner] }
  | .remove key =>
    { run with source := run.source.remove key, mutations := run.mutations ++ [.removed key] }
  | .drain maxEvents maxPayloadBytes =>
    match run.source.drain maxEvents maxPayloadBytes with
    | (source, .ok events) => { run with source := source, wire := run.wire ++ events }
    | (source, .error _) => { run with source := source }
  | .apply =>
    match run.wire with
    | [] => run
    | event :: rest =>
      { run with
        wire := rest
        receiver := (run.receiver.apply event).1
        finished := if finishes event then run.finished + 1 else run.finished }

def steps (run : ReplicationRun) : List ReplicationStep → ReplicationRun
  | [] => run
  | step :: rest => (run.step step).steps rest

end ReplicationRun

end LogicConduit
