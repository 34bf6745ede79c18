import LogicConduit.ReceiverStream
import LogicConduit.TransformNodes

namespace LogicConduit

structure SampleBlock where
  data : Bytes
  startPosition : UInt64
  numSamples : Nat
  timestampStep : UInt64

namespace SampleBlock

variable (block : SampleBlock)

/-- The bit of a position, `none` where the data has no byte for it. -/
def getBit (position : UInt64) : Option Bool :=
  let offset := (position - block.startPosition).toNat
  block.data[offset / 8]?.map fun byte => byte.toNat.testBit (offset % 8)

def endPosition : UInt64 := block.startPosition + .ofNat block.numSamples

def positions : List UInt64 :=
  (List.range' block.startPosition.toNat (block.endPosition.toNat - block.startPosition.toNat)).map .ofNat

end SampleBlock

abbrev BusLevels := Bool × Bool

structure SampledBit where
  value : Bool
  position : UInt64

def i2cProtocolId : String := "i2c"

structure I2cDecoder where
  previous : Option BusLevels
  active : Bool
  repeatedStart : Bool
  addressPending : Bool
  isWrite : Option Bool
  bits : List SampledBit
  awaitingAck : Bool
  finished : Bool

structure I2cInputs where
  scl : StreamInput SampleBlock
  sda : StreamInput SampleBlock

structure I2cOutputs where
  words : Bool
  packets : Bool

/-- One call of `work`, with what it sent on each output. -/
structure I2cCall where
  result : Except NodeError Nat
  node : I2cDecoder
  inputs : I2cInputs
  words : List (ChannelMessage Word)
  packets : List (ChannelMessage ProtocolPacket)

/-- What a decoder emits: its next state, with the words and the packets. -/
structure I2cStep where
  node : I2cDecoder
  words : List Word
  packets : List ProtocolPacket

namespace I2cDecoder

def new : I2cDecoder where
  previous := none
  active := false
  repeatedStart := false
  addressPending := true
  isWrite := none
  bits := []
  awaitingAck := false
  finished := false

/-- The blocks of the two inputs, or `none` where SCL has ended. -/
def acquireBlocks (inputs : I2cInputs) : Except NodeError (Option (SampleBlock × SampleBlock)) × I2cInputs :=
  match inputs.scl with
  | none => (.error (.nodeError "I²C decoder input 0 is not a sample block stream"), inputs)
  | some scl =>
    match scl.recv with
    | (.error .shutdown, scl) => (.ok none, { inputs with scl := some scl })
    | (.ok sclBlock, scl) =>
      match inputs.sda with
      | none => (.error (.nodeError "I²C decoder input 1 is not a sample block stream"), { inputs with scl := some scl })
      | some sda =>
        match sda.recv with
        | (.error .shutdown, sda) => (.error (.nodeError "I²C SDA input ended before SCL"), ⟨some scl, some sda⟩)
        | (.ok sdaBlock, sda) =>
          if sclBlock.startPosition ≠ sdaBlock.startPosition ∨ sclBlock.numSamples ≠ sdaBlock.numSamples ∨
              sclBlock.timestampStep ≠ sdaBlock.timestampStep then
            (.error (.nodeError "I²C SCL and SDA sample blocks are not aligned"), ⟨some scl, some sda⟩)
          else if sclBlock.numSamples = 0 then
            (.error (.nodeError "I²C decoder received an empty sample block"), ⟨some scl, some sda⟩)
          else (.ok (some (sclBlock, sdaBlock)), ⟨some scl, some sda⟩)

def packet (command : String) (data : ProtocolValue) (startSample endSample timestampStep : UInt64) : ProtocolPacket where
  startSample := startSample
  endSample := endSample
  startTimeNs := saturatingMulU64 startSample timestampStep
  endTimeNs := saturatingMulU64 endSample timestampStep
  protocolId := i2cProtocolId
  value := .list [.string command, data]

def control (command : String) (position timestampStep : UInt64) : ProtocolPacket :=
  packet command .null position position timestampStep

def bitsValue (bits : List Bool) : UInt8 := bits.foldl (fun value bit => value <<< 1 ||| if bit then 1 else 0) 0

def saturatingSubU64 (a b : UInt64) : UInt64 := if b ≤ a then a - b else 0

def bitSpan (bits : List SampledBit) : UInt64 :=
  match bits.reverse with
  | last :: before :: _ => saturatingSubU64 last.position before.position
  | _ => 1

def bitValue (span : UInt64) (bit : SampledBit) : ProtocolValue :=
  .list [.integer bit.value.toNat, .integer bit.position.toNat, .integer (saturatingAddU64 bit.position span).toNat]

def emitByte (decoder : I2cDecoder) (timestampStep : UInt64) (collected : decoder.bits ≠ []) : I2cStep :=
  let value := bitsValue (decoder.bits.map fun bit => bit.value)
  let start := (decoder.bits.head collected).position
  let span := bitSpan decoder.bits
  let packetEnd := saturatingAddU64 (decoder.bits.getLast collected).position span
  let bits := packet "BITS" (.list (decoder.bits.reverse.map (bitValue span))) start packetEnd timestampStep
  let (decoder, command, decoded) :=
    if decoder.addressPending then
      let read : Bool := value &&& 1 != 0
      ({ decoder with isWrite := some !read, addressPending := false },
        if read then "ADDRESS READ" else "ADDRESS WRITE", value >>> 1)
    else (decoder, if decoder.isWrite.getD true then "DATA WRITE" else "DATA READ", value)
  ⟨{ decoder with awaitingAck := true },
    [.spanning decoded.toUInt64 (saturatingMulU64 start timestampStep)
      (saturatingMulU64 (saturatingSubU64 packetEnd start) timestampStep)],
    [bits, packet command (.integer decoded.toNat) start packetEnd timestampStep]⟩

def risingEdge (decoder : I2cDecoder) (timestampStep position : UInt64) (sdaHigh : Bool) : I2cStep :=
  if decoder.awaitingAck then
    ⟨{ decoder with awaitingAck := false, bits := [] }, [],
      [control (if sdaHigh then "NACK" else "ACK") position timestampStep]⟩
  else
    let next := { decoder with bits := decoder.bits ++ [⟨sdaHigh, position⟩] }
    if next.bits.length = 8 then
      next.emitByte timestampStep (List.append_ne_nil_of_right_ne_nil _ (List.cons_ne_nil _ _))
    else ⟨next, [], []⟩

def sampleAfter (decoder : I2cDecoder) (previous : BusLevels) (timestampStep position : UInt64) (levels : BusLevels) :
    I2cStep :=
  let (previousScl, previousSda) := previous
  let (sclHigh, sdaHigh) := levels
  if previousSda && !sdaHigh && sclHigh then
    ⟨{ decoder with
        active := true
        repeatedStart := true
        addressPending := true
        isWrite := none
        bits := []
        awaitingAck := false }, [],
      [control (if decoder.active || decoder.repeatedStart then "START REPEAT" else "START") position timestampStep]⟩
  else if !previousSda && sdaHigh && sclHigh && decoder.active then
    ⟨{ decoder with active := false, repeatedStart := false, bits := [], awaitingAck := false }, [],
      [control "STOP" position timestampStep]⟩
  else if decoder.active && !previousScl && sclHigh then decoder.risingEdge timestampStep position sdaHigh
  else ⟨decoder, [], []⟩

/-- One round of the loop over the positions. -/
def sample (decoder : I2cDecoder) (timestampStep position : UInt64) (levels : BusLevels) : I2cStep :=
  match decoder.previous with
  | none => ⟨{ decoder with previous := some levels }, [], []⟩
  | some previous =>
    let step := decoder.sampleAfter previous timestampStep position levels
    { step with node := { step.node with previous := some levels } }

def samples (timestampStep : UInt64) : I2cDecoder → List (UInt64 × BusLevels) → I2cStep
  | decoder, [] => ⟨decoder, [], []⟩
  | decoder, (position, levels) :: rest =>
    let step := decoder.sample timestampStep position levels
    let later := samples timestampStep step.node rest
    ⟨later.node, step.words ++ later.words, step.packets ++ later.packets⟩

def blockSamples (scl sda : SampleBlock) : Option (List (UInt64 × BusLevels)) :=
  scl.positions.mapM fun position =>
    (scl.getBit position).bind fun sclHigh => (sda.getBit position).map fun sdaHigh => (position, sclHigh, sdaHigh)

def processBlocks (decoder : I2cDecoder) (blocks : SampleBlock × SampleBlock) : Except NodeError I2cStep :=
  match blockSamples blocks.1 blocks.2 with
  | none => .error (.panicked "index out of bounds")
  | some read => .ok (decoder.samples blocks.1.timestampStep read)

def sendBatch {α : Type} (connected : Bool) (values : List α) : List (ChannelMessage α) :=
  if connected && !values.isEmpty then [.batch values] else []

def work (decoder : I2cDecoder) (inputs : I2cInputs) (outputs : I2cOutputs) : I2cCall :=
  match acquireBlocks inputs with
  | (.error error, inputs) => ⟨.error error, decoder, inputs, [], []⟩
  | (.ok none, inputs) => ⟨.error .shutdown, { decoder with finished := true }, inputs, [], []⟩
  | (.ok (some blocks), inputs) =>
    match decoder.processBlocks blocks with
    | .error error => ⟨.error error, decoder, inputs, [], []⟩
    | .ok step =>
      ⟨.ok blocks.1.numSamples, step.node, inputs, sendBatch outputs.words step.words,
        sendBatch outputs.packets step.packets⟩

/-- The calls of `work` until the node stops, with the words and the packets that they sent. -/
def run (outputs : I2cOutputs) :
    Nat → I2cDecoder → I2cInputs → Option (List (ChannelMessage Word) × List (ChannelMessage ProtocolPacket))
  | 0, _, _ => none
  | calls + 1, decoder, inputs =>
    if decoder.finished then some ([], [])
    else
      let call := decoder.work inputs outputs
      match call.result with
      | .ok _ => (run outputs calls call.node call.inputs).map fun later => (call.words ++ later.1, call.packets ++ later.2)
      | .error .shutdown => some (call.words, call.packets)
      | .error _ => none

end I2cDecoder

end LogicConduit
