import LogicConduit.OutputFiles
import LogicConduit.CaptureChunkFormat
import LogicConduit.TextFields
import LogicConduit.WordEvents
import LogicConduit.AvailableItems

namespace LogicConduit

/-- A text that holds from its start to the next sample of the stream. -/
structure TextSample where
  value : String
  startTimeNs : UInt64
  deriving DecidableEq

def TextSample.time (sample : TextSample) : Nat := sample.startTimeNs.toNat

def decimalText (n : Nat) : String := String.ofList (decimal n)

/-- What a sink knows of a file when it closes it. -/
structure ClosedFile where
  number : Nat
  path : OutputPath
  bytes : Nat
  startNs : UInt64
  endNs : UInt64
  deriving DecidableEq

/-- Where the sinks differ: what a new file starts with, the bytes of the word in a row of a file, and the index
row of a closed file where an index is kept. -/
structure SinkFormat where
  header : Option String
  encode : Nat → Word → Bytes
  indexRow : Option (ClosedFile → Bytes)

def SinkFormat.headerBytes (format : SinkFormat) : Bytes :=
  match format.header with
  | some header => utf8Bytes header ++ utf8Bytes "\n"
  | none => []

/-- What a sink keeps from call to call. `currentFile` is the file its open handle writes to, `wordsInFile` the
CSV writer's `rows_in_file`; that writer counts neither files nor bytes and keeps no times of a file. -/
structure FileSink where
  encodedBatch : Bytes
  /-- Drained but not yet applicable name changes. -/
  pendingNames : List TextSample
  currentName : Option String
  currentFile : Option OutputPath
  storage : Files
  filesClosed : Nat
  bytesInFile : Nat
  wordsInFile : Nat
  fileStartNs : UInt64
  fileEndNs : UInt64
  lastWordTs : UInt64

/-- A node error, and the sink it leaves. -/
structure SinkFailure where
  message : String
  sink : FileSink

def indexHeader : String :=
  "file_num,filename,bytes,start_time_us,end_time_us,duration_us,start_pos,end_pos\n"

def indexPath (path : OutputPath) : OutputPath :=
  path.parent.getD [.curDir] ++ [.normal "captures.csv"]

def appendIndexRow (row : ClosedFile → Bytes) (closed : ClosedFile) (storage : Files) : Files :=
  let index := indexPath closed.path
  let opened := if (storage index).isSome then storage else (storage.create index).write index (utf8Bytes indexHeader)
  opened.write index (row closed)

namespace FileSink

variable (format : SinkFormat)

def writeIndexEntry (path : OutputPath) (sink : FileSink) : Files :=
  match format.indexRow with
  | some row => appendIndexRow row ⟨sink.filesClosed, path, sink.bytesInFile, sink.fileStartNs, sink.fileEndNs⟩ sink.storage
  | none => sink.storage

def closeCurrent (sink : FileSink) : FileSink :=
  let closed := match sink.currentFile with
    | some _ =>
      let counted := { sink with currentFile := none, filesClosed := sink.filesClosed + 1 }
      { counted with storage := writeIndexEntry format (components (sink.currentName.getD "")) counted }
    | none => sink
  { closed with bytesInFile := 0, wordsInFile := 0 }

def applyNameChange (change : TextSample) (sink : FileSink) : FileSink :=
  { sink.closeCurrent format with currentName := some change.value }

def ensureFileOpen (sink : FileSink) : Except String (OutputPath × FileSink) :=
  match sink.currentFile, sink.currentName with
  | some path, _ => .ok (path, sink)
  | none, none => .error "No filename set"
  | none, some name =>
    let path := components name
    .ok (path, { sink with
      currentFile := some path
      storage := (sink.storage.create path).write path format.headerBytes })

/-- A batch that cannot be written is dropped. -/
def flushEncodedBatch (sink : FileSink) : Except SinkFailure FileSink :=
  if sink.encodedBatch = [] then .ok sink
  else match sink.ensureFileOpen format with
    | .ok (path, opened) => .ok { opened with
        storage := opened.storage.write path sink.encodedBatch
        bytesInFile := opened.bytesInFile + sink.encodedBatch.length
        encodedBatch := [] }
    | .error message => .error ⟨message, { sink with encodedBatch := [] }⟩

/-- The loop over the pending names at the start of `stage_word`. -/
def applyDue (time : Nat) : List TextSample → FileSink → Except SinkFailure FileSink
  | [], sink => .ok sink
  | change :: rest, sink =>
    if change.time ≤ time then
      match sink.flushEncodedBatch format with
      | .ok flushed => applyDue time rest ({ flushed with pendingNames := rest }.applyNameChange format change)
      | .error failure => .error failure
    else .ok sink

def stageWord (word : Word) (sink : FileSink) : Except SinkFailure FileSink :=
  match sink.applyDue format word.time sink.pendingNames with
  | .ok due => .ok { due with
      fileStartNs := if due.wordsInFile = 0 then word.timestampNs else due.fileStartNs
      fileEndNs := word.timestampNs
      lastWordTs := word.timestampNs
      encodedBatch := due.encodedBatch ++ format.encode (due.wordsInFile + 1) word
      wordsInFile := due.wordsInFile + 1 }
  | .error failure => .error failure

def stageWords : List Word → FileSink → Except SinkFailure FileSink
  | [], sink => .ok sink
  | word :: words, sink =>
    match sink.stageWord format word with
    | .ok staged => stageWords words staged
    | .error failure => .error failure

end FileSink

def drainBatchSize : Nat := 65536

inductive SinkError
  | shutdown
  | nodeError (message : String)
  deriving DecidableEq

/-- A sink and the receivers of its inputs. The filename input may be unconnected. -/
structure SinkNode where
  sink : FileSink
  data : Inbox Word
  names : Option (Inbox TextSample)

/-- The loop that pulls every name change up to the end of the batch. Each round but the last takes a name, so
`rounds` may be anything above the number of names left. -/
def pullNames (batchEndNs : Nat) :
    Nat → List TextSample → Inbox TextSample → Except WorkError Unit × List TextSample × Inbox TextSample
  | 0, pending, names => (.ok (), pending, names)
  | rounds + 1, pending, names =>
    match names.peek with
    | (.ok change, peeked) =>
      if change.time ≤ batchEndNs then
        match peeked.recv with
        | (.ok change, next) => pullNames batchEndNs rounds (pending ++ [change]) next
        | (.error error, next) => (.error error, pending, next)
      else (.ok (), pending, peeked)
    | (.error .shutdown, peeked) => (.ok (), pending, peeked)

namespace SinkNode

variable (format : SinkFormat)

/-- The blocking wait for the first name of the stream, which happens only once. -/
def awaitName (node : SinkNode) : Except SinkError Unit × SinkNode :=
  match node.names with
  | none =>
    if node.sink.currentName = none ∧ node.sink.pendingNames = [] then
      (.error (.nodeError "No filename: connect the filename input or set a static one"), node)
    else (.ok (), node)
  | some names =>
    if node.sink.currentName = none ∧ node.sink.pendingNames = [] then
      match names.recv with
      | (.ok initial, next) =>
        (.ok (), { node with sink := { node.sink with pendingNames := [initial] }, names := some next })
      | (.error .shutdown, next) => (.error .shutdown, { node with names := some next })
    else (.ok (), node)

/-- Every name change up to the end of the batch made pending. -/
def establishWatermark (batchEndNs : Nat) (node : SinkNode) : Except WorkError Unit × SinkNode :=
  match node.names with
  | none => (.ok (), node)
  | some names =>
    let (result, pending, next) := pullNames batchEndNs (names.available.length + 1) node.sink.pendingNames names
    (result, { node with sink := { node.sink with pendingNames := pending }, names := some next })

def writeBatch (batch : List Word) (node : SinkNode) : Except SinkError Nat × SinkNode :=
  match (node.sink.stageWords format batch).bind (FileSink.flushEncodedBatch format) with
  | .ok written => (.ok batch.length, { node with sink := written })
  | .error failure => (.error (.nodeError failure.message), { node with sink := failure.sink })

def work (drain : Inbox Word → Except WorkError (List Word) × Inbox Word) (node : SinkNode) :
    Except SinkError Nat × SinkNode :=
  match node.awaitName with
  | (.error error, waiting) => (.error error, waiting)
  | (.ok (), waiting) =>
    match drain waiting.data with
    | (.error .shutdown, data) => (.error .shutdown, { waiting with sink := waiting.sink.closeCurrent format, data })
    | (.ok batch, data) =>
      match { waiting with data }.establishWatermark (batch.getLast?.elim 0 Word.time) with
      | (.error .shutdown, marked) => (.error .shutdown, marked)
      | (.ok (), marked) => marked.writeBatch format batch

/-- Calls of `work`, one after the other up to the first error. -/
def run {σ : Type} (work : σ → SinkNode → Except SinkError Nat × SinkNode) :
    List σ → SinkNode → Option SinkError × SinkNode
  | [], node => (none, node)
  | schedule :: schedules, node =>
    match work schedule node with
    | (.ok _, next) => run work schedules next
    | (.error error, next) => (some error, next)

end SinkNode

inductive WriteWidth
  | u8
  | u16Le
  | u32Le
  deriving DecidableEq

def WriteWidth.appendTo (width : WriteWidth) (value : UInt64) : Bytes :=
  match width with
  | .u8 => leBytes 1 value.toNat
  | .u16Le => leBytes 2 value.toNat
  | .u32Le => leBytes 4 value.toNat

/-- How a time, and the span between two, read in microseconds with six decimals. -/
structure MicrosText where
  stamp : UInt64 → String
  span : UInt64 → UInt64 → String

namespace BinaryFileWriter

def indexRow (micros : MicrosText) (closed : ClosedFile) : Bytes :=
  utf8Bytes (String.intercalate "," [decimalText closed.number, closed.path.fileName, decimalText closed.bytes,
    micros.stamp closed.startNs, micros.stamp closed.endNs, micros.span closed.startNs closed.endNs,
    decimalText closed.startNs.toNat, decimalText closed.endNs.toNat] ++ "\n")

def encode (width : WriteWidth) (word : Word) : Bytes :=
  match word.payload with
  | some (.bytes bytes) => bytes
  | some (.text text) => utf8Bytes text
  | none => width.appendTo word.value

def format (width : WriteWidth) (indexCsv : Bool) (micros : MicrosText) : SinkFormat where
  header := none
  encode _ word := encode width word
  indexRow := if indexCsv then some (indexRow micros) else none

/-- The rest of the batches that are there. `recv_batch` and its sibling hand out no empty batch, so at most
`drainBatchSize` calls are made. -/
def moreBatches (arrived : Nat → Arrivals) : Nat → List Word → Inbox Word → List Word × Inbox Word
  | 0, batch, data => (batch, data)
  | calls + 1, batch, data =>
    if batch.length < drainBatchSize then
      match data.tryRecvBatch (arrived calls) with
      | (.ok more, next) => moreBatches arrived calls (batch ++ more) next
      | (.error _, next) => (batch, next)
    else (batch, data)

def drain (arrived : Nat → Arrivals) (data : Inbox Word) : Except WorkError (List Word) × Inbox Word :=
  match data.recvBatch with
  | (.ok first, next) =>
    let (batch, next) := moreBatches arrived drainBatchSize first next
    (.ok batch, next)
  | (.error error, next) => (.error error, next)

def work (width : WriteWidth) (indexCsv : Bool) (micros : MicrosText) (arrived : Nat → Arrivals) :
    SinkNode → Except SinkError Nat × SinkNode :=
  SinkNode.work (format width indexCsv micros) (drain arrived)

end BinaryFileWriter

inductive CsvValueFormat
  | decimal
  /-- Upper-case digits, padded with zeros to `width`. -/
  | hex (width : Nat)
  deriving DecidableEq

def upperHex (width n : Nat) : String :=
  String.ofList (((Nat.toDigits 16 n).map Char.toUpper).leftpad width '0')

def CsvValueFormat.appendRow (valueFormat : CsvValueFormat) (rowId : Nat) (word : Word) : Bytes :=
  utf8Bytes (decimalText rowId ++ "," ++ decimalText word.time ++ ",") ++
    match word.payload with
    | some (.bytes bytes) => bytes.flatMap (fun byte => utf8Bytes (upperHex 2 byte.toNat)) ++ utf8Bytes "\n"
    | some (.text text) =>
      utf8Bytes "\"" ++ (utf8Bytes text).flatMap (fun byte => if byte = 34 then [34, byte] else [byte]) ++ utf8Bytes "\"\n"
    | none =>
      match valueFormat with
      | .decimal => utf8Bytes (decimalText word.value.toNat ++ "\n")
      | .hex width => utf8Bytes (upperHex width word.value.toNat ++ "\n")

namespace CsvWordWriter

def format (header : Option String) (valueFormat : CsvValueFormat) : SinkFormat where
  header := header
  encode rowId word := valueFormat.appendRow rowId word
  indexRow := none

def drain (arrived : Arrivals) (data : Inbox Word) : Except WorkError (List Word) × Inbox Word :=
  match data.recv with
  | (.ok first, next) =>
    match next.tryRecvMany arrived (drainBatchSize - 1) with
    | (.ok more, last) => (.ok (first :: more), last)
    | (.error _, last) => (.ok [first], last)
  | (.error error, next) => (.error error, next)

def work (header : Option String) (valueFormat : CsvValueFormat) (arrived : Arrivals) :
    SinkNode → Except SinkError Nat × SinkNode :=
  SinkNode.work (format header valueFormat) (drain arrived)

end CsvWordWriter

/-- A sink before its first call, with the static filename if one was set. -/
def FileSink.new (filename : Option String) (storage : Files) : FileSink where
  encodedBatch := []
  pendingNames := []
  currentName := filename
  currentFile := none
  storage := storage
  filesClosed := 0
  bytesInFile := 0
  wordsInFile := 0
  fileStartNs := 0
  fileEndNs := 0
  lastWordTs := 0

end LogicConduit
