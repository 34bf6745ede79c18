import LogicConduit.ByteCursor
import LogicConduit.CaptureChunkFormat
import LogicConduit.Replication

namespace LogicConduit

inductive GraphWorkerFrame
  | request
  | messageBatch
  | artifactEvent
  deriving DecidableEq

inductive GraphWorkerCodecError
  | encoding (context message : String)
  | decoding (context message : String)
  | invalidGraphStructure (detail : String)
  | invalidHeader (frame : GraphWorkerFrame)
  | unknownKind (frame : GraphWorkerFrame) (kind : UInt8)
  | countOverflow (field : String)
  | lengthOverflow
  | addressOverflow
  | truncated
  | trailingBytes
  | invalidUtf8 (field : String)
  | invalidFlag (field : String) (value : UInt8)
  deriving DecidableEq

inductive GraphWorkerTransportFailure
  | host (message : String)
  | codec (error : GraphWorkerCodecError)
  | invalidCapacity
  | queueFull (limit : Nat)
  | sequenceExhausted
  | unexpectedSequence (sequence : Nat)
  | artifact (error : RepositoryError)
  deriving DecidableEq

inductive GraphWorkerFailure
  | busy
  | compilation (message : String)
  | execution (message : String)
  | node (message : String)
  | artifact (message : String)
  | cache (message : String)
  | transport (failure : GraphWorkerTransportFailure)
  deriving DecidableEq

inductive GraphWorkerMessage
  | started (sequence : Nat)
  | progress (sequence : Nat) (nodes : List (Nat × Nat))
  | artifacts (sequence : Nat) (events : List ArtifactReplicationEvent)
  | finished (sequence : Nat)
  | failed (sequence : Nat) (error : GraphWorkerFailure)
  | cancelled (sequence : Nat)
  deriving DecidableEq

/-- A command, with the graph document and the output subscriptions that it carries. -/
inductive GraphWorkerRequest (Graph Subscriptions : Type)
  | start (sequence : Nat) (graph : Graph) (subscriptions : Subscriptions) (timelineMarkers : List (Nat × Nat))
  | cancel (sequence : Nat)

/-- `serde_json::to_vec` and `serde_json::from_slice`. -/
structure JsonCodec (α : Type) where
  toVec : α → Except String Bytes
  fromSlice : Bytes → Except String α

/-- How a call ends without a value: an index outside a slice, a vector of more bytes than a vector can have, or an
error. -/
inductive Fault
  | panic
  | capacityOverflow
  | error (error : GraphWorkerCodecError)
  deriving DecidableEq

/-- `size_of` of a message, of an artifact event and of a timeline marker. -/
structure ElementSizes where
  message : Nat
  event : Nat
  marker : Nat

namespace GraphWorkerCodec

/-- `b"LGWM\x01"`. -/
def magic : Bytes := [0x4c, 0x47, 0x57, 0x4d, 1]

/-- `b"LGRQ\x01"`. -/
def requestMagic : Bytes := [0x4c, 0x47, 0x52, 0x51, 1]

def jsonMessage : UInt8 := 0
def artifactMessage : UInt8 := 1
def publishedChunk : UInt8 := 0
def removed : UInt8 := 1
def startRequest : UInt8 := 0
def cancelRequest : UInt8 := 1

def encodingError (context message : String) : GraphWorkerCodecError := .encoding context message

def decodingError (context message : String) : GraphWorkerCodecError := .decoding context message

def countOverflow (field : String) : GraphWorkerCodecError := .countOverflow field

def putU32 (value : Nat) : Bytes := leBytes 4 value

def putU64 (value : Nat) : Bytes := leBytes 8 value

def putBytes (value : Bytes) : Bytes := putU64 value.length ++ value

/-- A count through `u32::try_from`. -/
def putCount (field : String) (count : Nat) : Except GraphWorkerCodecError Bytes :=
  if 2 ^ 32 ≤ count then .error (countOverflow field) else .ok (putU32 count)

def putString (value : String) : Except GraphWorkerCodecError Bytes := do
  let length ← putCount "artifact namespace bytes" (utf8Bytes value).length
  pure (length ++ utf8Bytes value)

def encodeEvent : ArtifactReplicationEvent → Except GraphWorkerCodecError Bytes
  | .publishedChunk nameSpace identity offset totalLength data complete => do
    let nameSpace ← putString nameSpace
    pure ([publishedChunk] ++ nameSpace ++ identity ++ putU64 offset ++ putU64 totalLength ++
      [if complete then 1 else 0] ++ putU64 data.length ++ data)
  | .removed nameSpace identity => do
    let nameSpace ← putString nameSpace
    pure ([removed] ++ nameSpace ++ identity)

def encodeMessage (json : JsonCodec GraphWorkerMessage) :
    GraphWorkerMessage → Except GraphWorkerCodecError Bytes
  | .artifacts sequence events => do
    let count ← putCount "artifact events" events.length
    let encoded ← events.mapM encodeEvent
    pure ([artifactMessage] ++ putU64 sequence ++ count ++ encoded.flatten)
  | message => do
    let text ← (json.toVec message).mapError (encodingError "message")
    pure ([jsonMessage] ++ text)

def encodeGraphWorkerMessages (json : JsonCodec GraphWorkerMessage) (messages : List GraphWorkerMessage) :
    Except GraphWorkerCodecError Bytes := do
  let count ← putCount "message batch" messages.length
  let encoded ← messages.mapM (encodeMessage json)
  pure (magic ++ count ++ encoded.flatMap putBytes)

section Requests

variable {Graph Subscriptions : Type}

/-- The graph goes through `encode_worker_graph`. -/
def encodeGraphWorkerRequest (encodeWorkerGraph : Graph → Except GraphWorkerCodecError Bytes)
    (subscriptionsJson : JsonCodec Subscriptions) :
    GraphWorkerRequest Graph Subscriptions → Except GraphWorkerCodecError Bytes
  | .start sequence graph subscriptions timelineMarkers => do
    let graph ← encodeWorkerGraph graph
    let subscriptions ← (subscriptionsJson.toVec subscriptions).mapError (encodingError "output subscriptions")
    let count ← putCount "timeline markers" timelineMarkers.length
    pure (requestMagic ++ [startRequest] ++ putU64 sequence ++ putBytes graph ++ putBytes subscriptions ++ count ++
      timelineMarkers.flatMap fun marker => putU32 marker.1 ++ putU64 marker.2)
  | .cancel sequence => pure (requestMagic ++ [cancelRequest] ++ putU64 sequence)

end Requests

variable (limit : Nat)

abbrev Reader (α : Type) := CursorM Fault α

def Reader.fail {α : Type} (error : GraphWorkerCodecError) : Reader α := throw (.error error)

namespace Reader

def take (length : Nat) : Reader Bytes := CursorM.take limit (.error .addressOverflow) (.error .truncated) length

/-- `self.take(1)?[0]`. -/
def u8 : Reader UInt8 := do
  match ← take limit 1 with
  | value :: _ => pure value
  | [] => throw .panic

/-- `self.take(width)?.try_into().unwrap()`. -/
def array (width : Nat) : Reader Bytes := do
  let value ← take limit width
  if value.length = width then pure value else throw .panic

def u32 : Reader Nat := do
  let value ← array limit 4
  pure (ofLeBytes value)

def u64 : Reader Nat := do
  let value ← array limit 8
  pure (ofLeBytes value)

def length : Reader Nat := do
  let value ← u64 limit
  if limit ≤ value then fail .lengthOverflow else pure value

def string : Reader String := do
  let length ← u32 limit
  let bytes ← take limit length
  match fromUtf8 bytes with
  | some text => pure text
  | none => fail (.invalidUtf8 "artifact namespace")

def bytes : Reader Bytes := do
  let length ← length limit
  take limit length

def remaining : Reader Bytes := fun r =>
  if r.cursor ≤ r.bytes.length then .ok (r.bytes.drop r.cursor, r) else .error .panic

/-- `Vec::with_capacity`, of at most `isize::MAX` bytes. -/
def withCapacity (size capacity : Nat) : Reader Unit :=
  if limit / 2 ≤ capacity * size then throw .capacityOverflow else pure ()

def consumeRemaining : Reader Unit := fun r => .ok ((), { r with cursor := r.bytes.length })

end Reader

def decodeEvent : Reader ArtifactReplicationEvent := do
  let kind ← Reader.u8 limit
  if kind = publishedChunk then
    let nameSpace ← Reader.string limit
    let identity ← Reader.array limit 32
    let offset ← Reader.u64 limit
    let totalLength ← Reader.u64 limit
    let flag ← Reader.u8 limit
    let complete ← if flag = 0 then pure false
      else if flag = 1 then pure true
      else Reader.fail (.invalidFlag "artifact completion" flag)
    let dataLength ← Reader.length limit
    let data ← Reader.take limit dataLength
    pure (.publishedChunk nameSpace identity offset totalLength data complete)
  else if kind = removed then
    let nameSpace ← Reader.string limit
    let identity ← Reader.array limit 32
    pure (.removed nameSpace identity)
  else Reader.fail (.unknownKind .artifactEvent kind)

variable (sizes : ElementSizes)

def readMessage (json : JsonCodec GraphWorkerMessage) : Reader GraphWorkerMessage := do
  let kind ← Reader.u8 limit
  if kind = jsonMessage then
    let text ← Reader.remaining
    match json.fromSlice text with
    | .ok message =>
      Reader.consumeRemaining
      pure message
    | .error message => Reader.fail (decodingError "message JSON" message)
  else if kind = artifactMessage then
    let sequence ← Reader.u64 limit
    let count ← Reader.u32 limit
    Reader.withCapacity limit sizes.event count
    let events ← CursorM.times (decodeEvent limit) count
    pure (.artifacts sequence events)
  else Reader.fail (.unknownKind .messageBatch kind)

def decodeMessage (json : JsonCodec GraphWorkerMessage) (message : Bytes) : Except Fault GraphWorkerMessage :=
  CursorM.whole (readMessage limit sizes json) (.error .trailingBytes) message

/-- A message behind its length. -/
def readFramed (json : JsonCodec GraphWorkerMessage) : Reader GraphWorkerMessage := do
  let message ← Reader.bytes limit
  monadLift (decodeMessage limit sizes json message)

def readHeader (expected : Bytes) (frame : GraphWorkerFrame) : Reader Unit := do
  let header ← Reader.take limit expected.length
  if header = expected then pure () else Reader.fail (.invalidHeader frame)

def readMessages (json : JsonCodec GraphWorkerMessage) : Reader (List GraphWorkerMessage) := do
  readHeader limit magic .messageBatch
  let count ← Reader.u32 limit
  Reader.withCapacity limit sizes.message count
  CursorM.times (readFramed limit sizes json) count

def decodeGraphWorkerMessages (json : JsonCodec GraphWorkerMessage) (bytes : Bytes) :
    Except Fault (List GraphWorkerMessage) :=
  CursorM.whole (readMessages limit sizes json) (.error .trailingBytes) bytes

section Requests

variable {Graph Subscriptions : Type}

def fromSlice {α : Type} (parse : Bytes → Except String α) (context : String) (text : Bytes) : Reader α :=
  match parse text with
  | .ok value => pure value
  | .error message => Reader.fail (decodingError context message)

def readMarker : Reader (Nat × Nat) := do
  let number ← Reader.u32 limit
  let timestampNs ← Reader.u64 limit
  pure (number, timestampNs)

def readRequest (graphFromSlice : Bytes → Except String Graph) (subscriptionsJson : JsonCodec Subscriptions) :
    Reader (GraphWorkerRequest Graph Subscriptions) := do
  readHeader limit requestMagic .request
  let kind ← Reader.u8 limit
  if kind = startRequest then
    let sequence ← Reader.u64 limit
    let graph ← fromSlice graphFromSlice "request graph" (← Reader.bytes limit)
    let subscriptions ← fromSlice subscriptionsJson.fromSlice "request subscriptions" (← Reader.bytes limit)
    let count ← Reader.u32 limit
    Reader.withCapacity limit sizes.marker count
    let timelineMarkers ← CursorM.times (readMarker limit) count
    pure (.start sequence graph subscriptions timelineMarkers)
  else if kind = cancelRequest then
    let sequence ← Reader.u64 limit
    pure (.cancel sequence)
  else Reader.fail (.unknownKind .request kind)

def decodeGraphWorkerRequest (graphFromSlice : Bytes → Except String Graph)
    (subscriptionsJson : JsonCodec Subscriptions) (bytes : Bytes) :
    Except Fault (GraphWorkerRequest Graph Subscriptions) :=
  CursorM.whole (readRequest limit sizes graphFromSlice subscriptionsJson) (.error .trailingBytes) bytes

end Requests

end GraphWorkerCodec

end LogicConduit
