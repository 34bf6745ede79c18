import LogicConduit.ChannelReceiver
import LogicConduit.WordEvents

namespace LogicConduit

structure Sample where
  value : Bool
  startTimeNs : UInt64
  deriving DecidableEq

structure TimestampEvent where
  timestampNs : UInt64
  deriving DecidableEq

/-- How a call of `work` ends without a count. -/
inductive NodeError
  | shutdown
  | nodeError (text : String)
  /-- A failed `expect`. -/
  | panicked (text : String)
  deriving DecidableEq

abbrev StreamInput (α : Type) := Option (Inbox α)

/-- One call of `work`: what it returned, the state it left the node and its inputs in, and the envelopes it
sent on its output. -/
structure WorkCall (σ ι α : Type) where
  result : Except NodeError Nat
  node : σ
  inputs : ι
  sent : List (ChannelMessage α)

def saturatingAddU64 (a b : UInt64) : UInt64 := if a + b < a then UInt64.ofNat u64Max else a + b

def saturatingMulU64 (a b : UInt64) : UInt64 :=
  if a.toNat * b.toNat < 2 ^ 64 then a * b else UInt64.ofNat u64Max

def Word.spanning (value timestampNs durationNs : UInt64) : Word := ⟨value, none, timestampNs, durationNs⟩

def Word.endNs (word : Word) : UInt64 := word.timestampNs + word.durationNs

/-- One item from a stream input into a head that is empty: the head, whether the input has ended, and the
input as it is then. -/
def fillHead {α : Type} (missing : String) (head : Option α) (eos : Bool) (input : StreamInput α) :
    Except NodeError (Option α × Bool × StreamInput α) :=
  if head.isNone && !eos then
    match input with
    | none => .error (.nodeError missing)
    | some inbox =>
      match inbox.recv with
      | (.ok item, inbox) => .ok (some item, eos, some inbox)
      | (.error .shutdown, inbox) => .ok (none, true, some inbox)
  else .ok (head, eos, input)

def earliest {α : Type} (time : α → UInt64) : List (Nat × α) → Option (Nat × α)
  | [] => none
  | item :: items =>
    match earliest time items with
    | none => some item
    | some best => if time best.2 < time item.2 then some best else some item

def pendingHeads {α : Type} (heads : List (Option α)) : List (Nat × α) :=
  (heads.zipIdx).filterMap fun head => head.1.map fun item => (head.2, item)

inductive GateOp
  | not
  | and
  | nand
  | or
  | nor
  | xor
  | xnor
  deriving DecidableEq

def GateOp.combine (op : GateOp) (levels : List Bool) : Bool :=
  match op with
  | .not => !(levels.headD false)
  | .and => levels.all id
  | .nand => !levels.all id
  | .or => levels.any id
  | .nor => !levels.any id
  | .xor => levels.count true % 2 == 1
  | .xnor => levels.count true % 2 == 0

/-- A channel that is asked for its transitions instead of streaming them. `timestampStep` are the nanoseconds
of one sample, as the source computes them from the sample rate. -/
structure EdgeQuery where
  timestampStep : UInt64
  totalSamples : UInt64
  valueAt : UInt64 → Except String Bool
  nextEdge : UInt64 → UInt64 → Except String (Option (UInt64 × Bool))

inductive GateInput
  | missing
  | streamed (inbox : Inbox Sample)
  | query (edges : EdgeQuery)

structure LogicGate where
  op : GateOp
  levels : List Bool
  started : Bool
  lastOut : Bool
  lastEmitTs : UInt64
  heads : List (Option Sample)
  eos : List Bool
  queryCursors : List (Option UInt64)
  deriving DecidableEq

namespace LogicGate

def new (op : GateOp) (numInputs : Nat) : LogicGate where
  op := op
  levels := List.replicate numInputs false
  started := false
  lastOut := false
  lastEmitTs := 0
  heads := List.replicate numInputs none
  eos := List.replicate numInputs false
  queryCursors := List.replicate numInputs none

def missingInput (gate : LogicGate) (inputs : List GateInput) : Option Nat :=
  (List.range gate.levels.length).find? fun index => inputs[index]? matches none | some .missing

/-- The pending edge of a query: the level at the start first, then each transition. -/
def queryHead (edges : EdgeQuery) (cursor : Option UInt64) : Except String (Option (UInt64 × Bool)) :=
  match cursor with
  | none => (edges.valueAt 0).map fun value => some (0, value)
  | some position => edges.nextEdge position edges.totalSamples

def fillInput (gate : LogicGate) (inputs : List GateInput) (index : Nat) :
    Except NodeError Unit × LogicGate × List GateInput :=
  if (gate.heads[index]?.join).isSome || gate.eos[index]?.getD false then (.ok (), gate, inputs)
  else
    match inputs[index]? with
    | some (.query edges) =>
      match queryHead edges (gate.queryCursors[index]?.join) with
      | .error text => (.error (.nodeError text), gate, inputs)
      | .ok (some (position, value)) =>
        (.ok (), { gate with
          queryCursors := gate.queryCursors.set index (some position)
          heads := gate.heads.set index
            (some ⟨value, saturatingMulU64 position edges.timestampStep⟩) }, inputs)
      | .ok none => (.ok (), { gate with eos := gate.eos.set index true }, inputs)
    | some (.streamed inbox) =>
      match inbox.recv with
      | (.ok sample, inbox) =>
        (.ok (), { gate with heads := gate.heads.set index (some sample) }, inputs.set index (.streamed inbox))
      | (.error .shutdown, inbox) =>
        (.ok (), { gate with eos := gate.eos.set index true }, inputs.set index (.streamed inbox))
    | _ => (.ok (), gate, inputs)

def fillInputs (gate : LogicGate) (inputs : List GateInput) : List Nat → Except NodeError Unit × LogicGate × List GateInput
  | [] => (.ok (), gate, inputs)
  | index :: rest =>
    match gate.fillInput inputs index with
    | (.ok (), gate, inputs) => gate.fillInputs inputs rest
    | (.error error, gate, inputs) => (.error error, gate, inputs)

def applyEdge (gate : LogicGate) (inputs : List GateInput) (sent : List (ChannelMessage Sample)) :
    WorkCall LogicGate (List GateInput) Sample :=
  match earliest Sample.startTimeNs (pendingHeads gate.heads) with
  | none => ⟨.error .shutdown, gate, inputs, sent⟩
  | some (index, sample) =>
    let gate := { gate with heads := gate.heads.set index none, levels := gate.levels.set index sample.value }
    let out := gate.op.combine gate.levels
    if out == gate.lastOut then ⟨.ok 0, gate, inputs, sent⟩
    else
      let ts := max sample.startTimeNs gate.lastEmitTs
      ⟨.ok 1, { gate with lastOut := out, lastEmitTs := ts }, inputs, sent ++ [.sample ⟨out, ts⟩]⟩

def start (gate : LogicGate) : LogicGate × List (ChannelMessage Sample) :=
  if gate.started then (gate, [])
  else
    let out := gate.op.combine gate.levels
    ({ gate with started := true, lastOut := out }, [.sample ⟨out, 0⟩])

def work (gate : LogicGate) (inputs : List GateInput) (output : Bool) :
    WorkCall LogicGate (List GateInput) Sample :=
  if !output then ⟨.error (.nodeError "Missing gate output"), gate, inputs, []⟩
  else
    let (gate, sent) := gate.start
    match gate.missingInput inputs with
    | some index => ⟨.error (.nodeError ("Missing gate input " ++ toString index)), gate, inputs, sent⟩
    | none =>
      match gate.fillInputs inputs (List.range gate.levels.length) with
      | (.error error, gate, inputs) => ⟨.error error, gate, inputs, sent⟩
      | (.ok (), gate, inputs) => gate.applyEdge inputs sent

end LogicGate

structure CaptureTransition where
  sample : UInt64
  value : Bool
  deriving DecidableEq

/-- `RecordedEdgeQuery::record`: later transitions are given up, and one that does not change the level is
left out. The transitions are kept in order. -/
def recordTransition (transitions : List CaptureTransition) (timestampNs : UInt64) (value : Bool) :
    List CaptureTransition :=
  let kept := transitions.takeWhile (·.sample < timestampNs)
  if kept.getLast?.any (·.value == value) then kept else kept ++ [⟨timestampNs, value⟩]

structure SrLatch where
  initial : Bool
  state : Bool
  started : Bool
  lastEmitTs : UInt64
  setHead : Option TimestampEvent
  resetHead : Option TimestampEvent
  setEos : Bool
  resetEos : Bool
  edgeQuery : List CaptureTransition
  deriving DecidableEq

structure LatchInputs where
  set : StreamInput TimestampEvent
  reset : StreamInput TimestampEvent

namespace SrLatch

def new (initial : Bool) : SrLatch where
  initial := initial
  state := initial
  started := false
  lastEmitTs := 0
  setHead := none
  resetHead := none
  setEos := false
  resetEos := false
  edgeQuery := [⟨0, initial⟩]

def start (latch : SrLatch) : SrLatch × List (ChannelMessage Sample) :=
  if latch.started then (latch, [])
  else ({ latch with started := true, state := latch.initial }, [.sample ⟨latch.initial, 0⟩])

/-- Both inputs are looked up before either is read. -/
def fillHeads (latch : SrLatch) (inputs : LatchInputs) : Except NodeError (SrLatch × LatchInputs) :=
  if inputs.set.isNone || inputs.reset.isNone then .error (.nodeError "Missing set/reset input")
  else do
    let (setHead, setEos, set) ← fillHead "Missing set/reset input" latch.setHead latch.setEos inputs.set
    let (resetHead, resetEos, reset) ← fillHead "Missing set/reset input" latch.resetHead latch.resetEos inputs.reset
    .ok ({ latch with setHead, setEos, resetHead, resetEos }, ⟨set, reset⟩)

def applyEvent (latch : SrLatch) (inputs : LatchInputs) (sent : List (ChannelMessage Sample)) :
    WorkCall SrLatch LatchInputs Sample :=
  match earliest TimestampEvent.timestampNs (pendingHeads [latch.setHead, latch.resetHead]) with
  | none => ⟨.error .shutdown, latch, inputs, sent⟩
  | some (index, event) =>
    let latch := if index = 0 then { latch with setHead := none } else { latch with resetHead := none }
    let newState := index == 0
    if newState == latch.state then ⟨.ok 0, latch, inputs, sent⟩
    else
      let ts := max event.timestampNs latch.lastEmitTs
      ⟨.ok 1, { latch with
        state := newState
        lastEmitTs := ts
        edgeQuery := recordTransition latch.edgeQuery ts newState }, inputs, sent ++ [.sample ⟨newState, ts⟩]⟩

def work (latch : SrLatch) (inputs : LatchInputs) (output : Bool) : WorkCall SrLatch LatchInputs Sample :=
  if !output then ⟨.error (.nodeError "Missing q output"), latch, inputs, []⟩
  else
    let (latch, sent) := latch.start
    match latch.fillHeads inputs with
    | .error error => ⟨.error error, latch, inputs, sent⟩
    | .ok (latch, inputs) => latch.applyEvent inputs sent

end SrLatch

inductive GatePolarity
  | activeHigh
  | activeLow
  deriving DecidableEq

structure EventGate where
  polarity : GatePolarity
  gateLevel : Bool
  eventHead : Option TimestampEvent
  gateHead : Option Sample
  eventEos : Bool
  gateEos : Bool
  deriving DecidableEq

structure EventGateInputs where
  events : StreamInput TimestampEvent
  gate : StreamInput Sample

namespace EventGate

def new (polarity : GatePolarity) : EventGate where
  polarity := polarity
  gateLevel := false
  eventHead := none
  gateHead := none
  eventEos := false
  gateEos := false

def active (gate : EventGate) : Bool :=
  match gate.polarity with
  | .activeHigh => gate.gateLevel
  | .activeLow => !gate.gateLevel

def fillHeads (gate : EventGate) (inputs : EventGateInputs) : Except NodeError Unit × EventGate × EventGateInputs :=
  match fillHead "Missing events input" gate.eventHead gate.eventEos inputs.events with
  | .error error => (.error error, gate, inputs)
  | .ok (eventHead, eventEos, events) =>
    let gate := { gate with eventHead, eventEos }
    let inputs := { inputs with events }
    match fillHead "Missing gate input" gate.gateHead gate.gateEos inputs.gate with
    | .error error => (.error error, gate, inputs)
    | .ok (gateHead, gateEos, gateInput) => (.ok (), { gate with gateHead, gateEos }, { inputs with gate := gateInput })

def gatePrecedesEvent (gate : EventGate) : Bool :=
  gate.gateHead.any fun level => gate.eventHead.all fun event => level.startTimeNs ≤ event.timestampNs

def advance (gate : EventGate) (inputs : EventGateInputs) (output : Bool) :
    WorkCall EventGate EventGateInputs TimestampEvent :=
  if gate.eventHead.isNone && gate.eventEos then ⟨.error .shutdown, gate, inputs, []⟩
  else if gate.gatePrecedesEvent then
    ⟨.ok 0, { gate with gateLevel := gate.gateHead.any (·.value), gateHead := none }, inputs, []⟩
  else
    match gate.eventHead with
    | none => ⟨.error (.panicked "event head was selected"), gate, inputs, []⟩
    | some event =>
      let gate := { gate with eventHead := none }
      if !gate.active then ⟨.ok 0, gate, inputs, []⟩
      else if !output then ⟨.error (.nodeError "Missing events output"), gate, inputs, []⟩
      else ⟨.ok 1, gate, inputs, [.sample event]⟩

def work (gate : EventGate) (inputs : EventGateInputs) (output : Bool) :
    WorkCall EventGate EventGateInputs TimestampEvent :=
  match gate.fillHeads inputs with
  | (.error error, gate, inputs) => ⟨.error error, gate, inputs, []⟩
  | (.ok (), gate, inputs) => gate.advance inputs output

end EventGate

structure EventControl where
  delayNs : UInt64
  holdoffNs : UInt64
  manualRearm : Bool
  armed : Bool
  nextAllowedNs : UInt64
  eventHead : Option TimestampEvent
  rearmHead : Option TimestampEvent
  eventEos : Bool
  rearmEos : Bool
  deriving DecidableEq

structure EventControlInputs where
  events : StreamInput TimestampEvent
  rearm : StreamInput TimestampEvent

namespace EventControl

def new (delayNs holdoffNs : UInt64) (manualRearm : Bool) : EventControl where
  delayNs := delayNs
  holdoffNs := holdoffNs
  manualRearm := manualRearm
  armed := true
  nextAllowedNs := 0
  eventHead := none
  rearmHead := none
  eventEos := false
  rearmEos := false

def fillHeads (control : EventControl) (inputs : EventControlInputs) :
    Except NodeError Unit × EventControl × EventControlInputs :=
  match fillHead "Missing events input" control.eventHead control.eventEos inputs.events with
  | .error error => (.error error, control, inputs)
  | .ok (eventHead, eventEos, events) =>
    let control := { control with eventHead, eventEos }
    let inputs := { inputs with events }
    if control.manualRearm then
      match fillHead "Missing rearm input" control.rearmHead control.rearmEos inputs.rearm with
      | .error error => (.error error, control, inputs)
      | .ok (rearmHead, rearmEos, rearm) => (.ok (), { control with rearmHead, rearmEos }, { inputs with rearm })
    else (.ok (), control, inputs)

def rearmPrecedesEvent (control : EventControl) : Bool :=
  control.manualRearm && control.rearmHead.any fun rearm =>
    control.eventHead.all fun event => rearm.timestampNs ≤ event.timestampNs

def advance (control : EventControl) (inputs : EventControlInputs) (output : Bool) :
    WorkCall EventControl EventControlInputs TimestampEvent :=
  if control.eventHead.isNone && control.eventEos then ⟨.error .shutdown, control, inputs, []⟩
  else if control.rearmPrecedesEvent then ⟨.ok 0, { control with rearmHead := none, armed := true }, inputs, []⟩
  else
    match control.eventHead with
    | none => ⟨.error (.panicked "event head was selected"), control, inputs, []⟩
    | some event =>
      let control := { control with eventHead := none }
      let allowed := decide (control.nextAllowedNs ≤ event.timestampNs) && (!control.manualRearm || control.armed)
      if !allowed then ⟨.ok 0, control, inputs, []⟩
      else
        let control := { control with
          nextAllowedNs := saturatingAddU64 event.timestampNs control.holdoffNs
          armed := if control.manualRearm then false else control.armed }
        if !output then ⟨.error (.nodeError "Missing events output"), control, inputs, []⟩
        else ⟨.ok 1, control, inputs, [.sample ⟨saturatingAddU64 event.timestampNs control.delayNs⟩]⟩

def work (control : EventControl) (inputs : EventControlInputs) (output : Bool) :
    WorkCall EventControl EventControlInputs TimestampEvent :=
  match control.fillHeads inputs with
  | (.error error, control, inputs) => ⟨.error error, control, inputs, []⟩
  | (.ok (), control, inputs) => control.advance inputs output

end EventControl

inductive MatchOp
  | eq
  | ne
  | lt
  | le
  | gt
  | ge
  deriving DecidableEq

/-- `MatchOp::matches`. -/
def MatchOp.accepts (op : MatchOp) (word pattern : UInt64) : Bool :=
  match op with
  | .eq => word == pattern
  | .ne => word != pattern
  | .lt => decide (word < pattern)
  | .le => decide (word ≤ pattern)
  | .gt => decide (pattern < word)
  | .ge => decide (pattern ≤ word)

inductive MatchTimestamp
  | start
  | end
  deriving DecidableEq

inductive PredicateMode
  | compare
  | inclusiveRange
  | set
  deriving DecidableEq

structure MatcherSettings where
  pattern : UInt64
  mask : UInt64
  op : MatchOp
  matchTimestamp : MatchTimestamp
  predicateMode : PredicateMode
  rangeMin : UInt64
  rangeMax : UInt64
  setValues : List UInt64
  matchCount : UInt64
  holdoffNs : UInt64
  deriving DecidableEq

/-- `scheduled` are the configurations that wait for their time, each as the change it makes to the settings:
one that cannot be read is turned away before it is scheduled. -/
structure WordMatcher where
  settings : MatcherSettings
  manualRearm : Bool
  armed : Bool
  nextAllowedNs : UInt64
  eligibleMatches : UInt64
  pulseNs : UInt64
  wordHead : Option Word
  rearmHead : Option TimestampEvent
  wordEos : Bool
  rearmEos : Bool
  matchesSeen : UInt64
  lastPulseEnd : UInt64
  started : Bool
  scheduled : List (UInt64 × (MatcherSettings → MatcherSettings))

structure WordMatcherInputs where
  words : StreamInput Word
  rearm : StreamInput TimestampEvent

/-- Which of the optional outputs are connected. -/
structure WordMatcherOutputs where
  event : Bool
  pulse : Bool
  words : Bool

/-- The envelopes of one call on each output. -/
structure WordMatcherSent where
  event : List (ChannelMessage TimestampEvent)
  pulse : List (ChannelMessage Sample)
  words : List (ChannelMessage Word)
  deriving DecidableEq

structure WordMatcherCall where
  result : Except NodeError Nat
  node : WordMatcher
  inputs : WordMatcherInputs
  sent : WordMatcherSent

namespace WordMatcher

def new (pattern mask : UInt64) : WordMatcher where
  settings := ⟨pattern, mask, .eq, .end, .compare, 0, UInt64.ofNat u64Max, [], 1, 0⟩
  manualRearm := false
  armed := true
  nextAllowedNs := 0
  eligibleMatches := 0
  pulseNs := 1000
  wordHead := none
  rearmHead := none
  wordEos := false
  rearmEos := false
  matchesSeen := 0
  lastPulseEnd := 0
  started := false
  scheduled := []

def applySettings (matcher : WordMatcher) (settings : MatcherSettings) : WordMatcher :=
  { matcher with settings := { settings with matchCount := max settings.matchCount 1 } }

def applyScheduledSettings (matcher : WordMatcher) (timestampNs : UInt64) : WordMatcher :=
  let due := matcher.scheduled.takeWhile (·.1 ≤ timestampNs)
  let waiting := { matcher with scheduled := matcher.scheduled.drop due.length }
  due.foldl (fun matcher change => matcher.applySettings (change.2 matcher.settings)) waiting

def predicateMatches (matcher : WordMatcher) (value : UInt64) : Bool :=
  let settings := matcher.settings
  let value := value &&& settings.mask
  match settings.predicateMode with
  | .compare => settings.op.accepts value (settings.pattern &&& settings.mask)
  | .inclusiveRange =>
    let minimum := settings.rangeMin &&& settings.mask
    let maximum := settings.rangeMax &&& settings.mask
    decide (minimum ≤ maximum) && decide (minimum ≤ value) && decide (value ≤ maximum)
  | .set => settings.setValues.any fun candidate => candidate &&& settings.mask == value

def fillHeads (matcher : WordMatcher) (inputs : WordMatcherInputs) :
    Except NodeError Unit × WordMatcher × WordMatcherInputs :=
  match fillHead "Missing words input" matcher.wordHead matcher.wordEos inputs.words with
  | .error error => (.error error, matcher, inputs)
  | .ok (wordHead, wordEos, words) =>
    let matcher := { matcher with wordHead, wordEos }
    let inputs := { inputs with words }
    if matcher.manualRearm then
      match fillHead "Missing rearm input" matcher.rearmHead matcher.rearmEos inputs.rearm with
      | .error error => (.error error, matcher, inputs)
      | .ok (rearmHead, rearmEos, rearm) => (.ok (), { matcher with rearmHead, rearmEos }, { inputs with rearm })
    else (.ok (), matcher, inputs)

def rearmPrecedesWord (matcher : WordMatcher) : Bool :=
  matcher.manualRearm && matcher.rearmHead.any fun rearm =>
    matcher.wordHead.all fun word => rearm.timestampNs ≤ word.timestampNs

def matchTime (matcher : WordMatcher) (word : Word) : UInt64 :=
  match matcher.settings.matchTimestamp with
  | .start => word.timestampNs
  | .end => word.endNs

def eligible (matcher : WordMatcher) (ts : UInt64) : Bool :=
  !(decide (ts < matcher.nextAllowedNs) || (matcher.manualRearm && !matcher.armed))

def completes (matcher : WordMatcher) : Bool :=
  !decide (saturatingAddU64 matcher.eligibleMatches 1 < matcher.settings.matchCount)

/-- Whether the pulse of a match at `ts` does not overlap the one before. -/
def pulses (matcher : WordMatcher) (ts : UInt64) : Bool := decide (matcher.lastPulseEnd ≤ ts)

def start (matcher : WordMatcher) (outputs : WordMatcherOutputs) : WordMatcher × List (ChannelMessage Sample) :=
  if matcher.started then (matcher, [])
  else ({ matcher with started := true }, if outputs.pulse then [.sample ⟨false, 0⟩] else [])

def fire (matcher : WordMatcher) (inputs : WordMatcherInputs) (outputs : WordMatcherOutputs)
    (initial : List (ChannelMessage Sample)) (word : Word) (ts : UInt64) : WordMatcherCall :=
  let pulse := outputs.pulse && matcher.pulses ts
  let matcher := { matcher with
    eligibleMatches := 0
    nextAllowedNs := saturatingAddU64 ts matcher.settings.holdoffNs
    armed := if matcher.manualRearm then false else matcher.armed
    matchesSeen := matcher.matchesSeen + 1
    lastPulseEnd := if pulse then ts + matcher.pulseNs else matcher.lastPulseEnd }
  ⟨.ok 1, matcher, inputs,
    if outputs.event then [.sample ⟨ts⟩] else [],
    initial ++ if pulse then [.sample ⟨true, ts⟩, .sample ⟨false, ts + matcher.pulseNs⟩] else [],
    if outputs.words then [.sample word] else []⟩

/-- A word taken from its head, with the settings of its time in force. -/
def matchWord (matcher : WordMatcher) (inputs : WordMatcherInputs) (outputs : WordMatcherOutputs)
    (initial : List (ChannelMessage Sample)) (word : Word) : WordMatcherCall :=
  let quiet matcher : WordMatcherCall := ⟨.ok 0, matcher, inputs, [], initial, []⟩
  if matcher.predicateMatches word.value then
    let ts := matcher.matchTime word
    if !matcher.eligible ts then quiet matcher
    else if !matcher.completes then
      quiet { matcher with eligibleMatches := saturatingAddU64 matcher.eligibleMatches 1 }
    else matcher.fire inputs outputs initial word ts
  else quiet matcher

def advance (matcher : WordMatcher) (inputs : WordMatcherInputs) (outputs : WordMatcherOutputs) : WordMatcherCall :=
  if matcher.wordHead.isNone && matcher.wordEos then ⟨.error .shutdown, matcher, inputs, [], [], []⟩
  else if matcher.rearmPrecedesWord then
    ⟨.ok 0, { matcher with rearmHead := none, armed := true, eligibleMatches := 0 }, inputs, [], [], []⟩
  else
    let (matcher, initial) := matcher.start outputs
    match matcher.wordHead with
    | none => ⟨.error (.panicked "word head was selected"), matcher, inputs, [], initial, []⟩
    | some word =>
      let matcher := { matcher with wordHead := none }.applyScheduledSettings word.timestampNs
      matcher.matchWord inputs outputs initial word

def work (matcher : WordMatcher) (inputs : WordMatcherInputs) (outputs : WordMatcherOutputs) : WordMatcherCall :=
  match matcher.fillHeads inputs with
  | (.error error, matcher, inputs) => ⟨.error error, matcher, inputs, [], [], []⟩
  | (.ok (), matcher, inputs) => matcher.advance inputs outputs

end WordMatcher

/-- The values a framed packet is made of. A mapping lists its fields in the order of their names. -/
inductive ProtocolValue
  | null
  | integer (value : Int)
  | bytes (value : Bytes)
  | string (value : String)
  | list (values : List ProtocolValue)
  | mapping (fields : List (String × ProtocolValue))

structure ProtocolPacket where
  startSample : UInt64
  endSample : UInt64
  startTimeNs : UInt64
  endTimeNs : UInt64
  protocolId : String
  value : ProtocolValue

def packetFrameProtocolId : String := "org.logicconduit.packet-frame/v1"

def wordValue (word : Word) : ProtocolValue :=
  let payload := match word.payload with
    | none => []
    | some (.bytes value) => [("payload", ProtocolValue.bytes value)]
    | some (.text value) => [("payload", ProtocolValue.string value)]
  .mapping ([("end_time_ns", .integer word.endNs.toNat)] ++ payload ++
    [("start_time_ns", .integer word.timestampNs.toNat), ("value", .integer word.value.toNat)])

structure PacketFramer where
  fixedWordCount : Option Nat
  delimiter : Option (UInt64 × Bool)
  maximumGapNs : Option UInt64
  maximumWords : Nat
  boundaryEnabled : Bool
  gatePolarity : Option GatePolarity
  gateLevel : Bool
  words : List Word
  wordHead : Option Word
  boundaryHead : Option TimestampEvent
  gateHead : Option Sample
  wordEos : Bool
  boundaryEos : Bool
  gateEos : Bool
  finished : Bool
  deriving DecidableEq

structure PacketFramerInputs where
  words : StreamInput Word
  boundary : StreamInput TimestampEvent
  gate : StreamInput Sample

namespace PacketFramer

def new : PacketFramer where
  fixedWordCount := none
  delimiter := none
  maximumGapNs := none
  maximumWords := 4096
  boundaryEnabled := false
  gatePolarity := none
  gateLevel := false
  words := []
  wordHead := none
  boundaryHead := none
  gateHead := none
  wordEos := false
  boundaryEos := false
  gateEos := false
  finished := false

def gateActive (framer : PacketFramer) : Bool :=
  match framer.gatePolarity with
  | none => true
  | some .activeHigh => framer.gateLevel
  | some .activeLow => !framer.gateLevel

def fillHeads (framer : PacketFramer) (inputs : PacketFramerInputs) :
    Except NodeError Unit × PacketFramer × PacketFramerInputs :=
  match fillHead "Missing words input" framer.wordHead framer.wordEos inputs.words with
  | .error error => (.error error, framer, inputs)
  | .ok (wordHead, wordEos, words) =>
    let framer := { framer with wordHead, wordEos }
    let inputs := { inputs with words }
    let boundary := if framer.boundaryEnabled
      then fillHead "Missing boundary input" framer.boundaryHead framer.boundaryEos inputs.boundary
      else .ok (framer.boundaryHead, framer.boundaryEos, inputs.boundary)
    match boundary with
    | .error error => (.error error, framer, inputs)
    | .ok (boundaryHead, boundaryEos, boundary) =>
      let framer := { framer with boundaryHead, boundaryEos }
      let inputs := { inputs with boundary }
      let gate := if framer.gatePolarity.isSome
        then fillHead "Missing gate input" framer.gateHead framer.gateEos inputs.gate
        else .ok (framer.gateHead, framer.gateEos, inputs.gate)
      match gate with
      | .error error => (.error error, framer, inputs)
      | .ok (gateHead, gateEos, gate) => (.ok (), { framer with gateHead, gateEos }, { inputs with gate })

def closePacket (framer : PacketFramer) : List ProtocolPacket × PacketFramer :=
  let closed := { framer with words := [] }
  match framer.words.head?, framer.words.getLast? with
  | some first, some last =>
    ([⟨0, 0, first.timestampNs, last.endNs, packetFrameProtocolId, .list (framer.words.map wordValue)⟩], closed)
  | _, _ => ([], closed)

/-- Whether the word follows the last one after more than the maximum gap. -/
def gapExceeded (framer : PacketFramer) (word : Word) : Bool :=
  framer.maximumGapNs.any fun maximumGapNs => framer.words.getLast?.any fun previous =>
    decide (maximumGapNs.toNat < word.timestampNs.toNat - previous.endNs.toNat)

def processWord (framer : PacketFramer) (word : Word) : List ProtocolPacket × PacketFramer :=
  if !framer.gateActive then ([], framer)
  else
    let (packets, framer) := if framer.gapExceeded word then framer.closePacket else ([], framer)
    let delimiter := framer.delimiter.any (·.1 == word.value)
    let includeDelimiter := framer.delimiter.any (·.2)
    if delimiter && !includeDelimiter then
      (packets ++ framer.closePacket.1, framer.closePacket.2)
    else
      let framer := { framer with words := framer.words ++ [word] }
      let fixedComplete := framer.fixedWordCount.any (· ≤ framer.words.length)
      if delimiter || fixedComplete || decide (framer.maximumWords ≤ framer.words.length) then
        (packets ++ framer.closePacket.1, framer.closePacket.2)
      else (packets, framer)

inductive FramerEvent
  | gate (level : Sample)
  | boundary
  | word (word : Word)

/-- The earliest pending event: of one time, the gate goes first and the word last. -/
def nextEvent (framer : PacketFramer) : Option FramerEvent :=
  let pending := (framer.gateHead.map fun level => (level.startTimeNs, FramerEvent.gate level)).toList ++
    (framer.boundaryHead.map fun boundary => (boundary.timestampNs, FramerEvent.boundary)).toList ++
    (framer.wordHead.map fun word => (word.timestampNs, FramerEvent.word word)).toList
  (earliest Prod.fst (pending.zipIdx.map Prod.swap)).map fun found => found.2.2

def processNextEvent (framer : PacketFramer) : List ProtocolPacket × PacketFramer :=
  match framer.nextEvent with
  | some (.gate level) =>
    let changed := { framer with gateLevel := level.value, gateHead := none }
    if framer.gateActive && !changed.gateActive then changed.closePacket else ([], changed)
  | some .boundary => { framer with boundaryHead := none }.closePacket
  | some (.word word) => { framer with wordHead := none }.processWord word
  | none => ([], framer)

def allInputsFinished (framer : PacketFramer) : Bool :=
  framer.wordEos && (!framer.boundaryEnabled || framer.boundaryEos) &&
    (framer.gatePolarity.isNone || framer.gateEos) && framer.wordHead.isNone && framer.boundaryHead.isNone &&
    framer.gateHead.isNone

def advance (framer : PacketFramer) (inputs : PacketFramerInputs) :
    WorkCall PacketFramer PacketFramerInputs ProtocolPacket :=
  let (packets, framer) := framer.processNextEvent
  let (packets, framer) := if framer.allInputsFinished
    then (packets ++ framer.closePacket.1, { framer.closePacket.2 with finished := true })
    else (packets, framer)
  let result := if packets.isEmpty && framer.finished then .error .shutdown else .ok packets.length
  ⟨result, framer, inputs, if packets.isEmpty then [] else [.batch packets]⟩

def work (framer : PacketFramer) (inputs : PacketFramerInputs) (output : Bool) :
    WorkCall PacketFramer PacketFramerInputs ProtocolPacket :=
  if framer.finished then ⟨.error .shutdown, framer, inputs, []⟩
  else if !output then ⟨.error (.nodeError "Missing packets output"), framer, inputs, []⟩
  else
    match framer.fillHeads inputs with
    | (.error error, framer, inputs) => ⟨.error error, framer, inputs, []⟩
    | (.ok (), framer, inputs) => framer.advance inputs

end PacketFramer

end LogicConduit
