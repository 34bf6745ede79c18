import LogicConduit.ReceiverStream
import LogicConduit.TransformNodes
import Mathlib.Data.Rat.Floor

namespace LogicConduit

inductive UartParity
  | none
  | odd
  | even
  /-- The parity bit is always 1. -/
  | mark
  /-- The parity bit is always 0. -/
  | space
  deriving DecidableEq

inductive UartStopBits
  | s0
  | s0_5
  | s1
  | s1_5
  | s2
  deriving DecidableEq

def UartStopBits.bits : UartStopBits → ℚ
  | .s0 => 0
  | .s0_5 => 1 / 2
  | .s1 => 1
  | .s1_5 => 3 / 2
  | .s2 => 2

inductive BitOrder
  | msbFirst
  | lsbFirst
  deriving DecidableEq

/-- `f64::round` of a number that is not negative, `as u64`. -/
def roundU64 (x : ℚ) : UInt64 := UInt64.ofNat (min ⌊x + 1 / 2⌋₊ u64Max)

def countOnes (value : UInt64) : Nat := (List.range 64).countP value.toNat.testBit

structure UartDecoder where
  baud : UInt64
  dataBits : Nat
  parity : UartParity
  checkParity : Bool
  stopBits : UartStopBits
  bitOrder : BitOrder
  invert : Bool
  /-- Start edges before this time belong to the frame before. -/
  resumeAfter : UInt64
  frames : UInt64
  finished : Bool
  baud_pos : 0 < baud
  dataBits_mem : 5 ≤ dataBits ∧ dataBits ≤ 9

structure UartOutputs where
  words : Bool
  error : Bool
  bits : Bool
  frame : Bool

/-- One call of `work`, with what it sent on each output. -/
structure UartCall where
  result : Except NodeError Nat
  node : UartDecoder
  rx : StreamInput Sample
  words : List (ChannelMessage Word)
  errors : List (ChannelMessage TimestampEvent)
  bits : List (ChannelMessage Word)
  frame : List (ChannelMessage Word)

namespace UartDecoder

/-- The assertions on the arguments are the hypotheses. -/
def new (baud : UInt64) (dataBits : Nat) (baud_pos : 0 < baud) (dataBits_mem : 5 ≤ dataBits ∧ dataBits ≤ 9) :
    UartDecoder :=
  ⟨baud, dataBits, .none, false, .s1, .lsbFirst, false, 0, 0, false, baud_pos, dataBits_mem⟩

section Builder

variable (decoder : UartDecoder)

def withParity (parity : UartParity) (check : Bool) : UartDecoder := { decoder with parity, checkParity := check }

def withStopBits (stopBits : UartStopBits) : UartDecoder := { decoder with stopBits }

def withBitOrder (bitOrder : BitOrder) : UartDecoder := { decoder with bitOrder }

def withInvert (invert : Bool) : UartDecoder := { decoder with invert }

end Builder

/-- The loop of `value_at`: the level at a time, `none` behind the end of the channel. Each round takes an edge. -/
def valueAtLoop (timestamp : UInt64) : Nat → Inbox Sample → Except NodeError (Option Bool) × Inbox Sample
  | 0, channel => (.error (.panicked "more rounds than edges"), channel)
  | rounds + 1, channel =>
    match channel.recv with
    | (.error .shutdown, channel) => (.ok none, channel)
    | (.ok current, channel) =>
      match channel.peek with
      | (.ok next, channel) =>
        if current.startTimeNs ≤ timestamp ∧ timestamp < next.startTimeNs then
          (.ok (some current.value), channel.putBack current)
        else valueAtLoop timestamp rounds channel
      | (.error .shutdown, channel) =>
        -- the last edge extends to infinity
        if current.startTimeNs ≤ timestamp then (.ok (some current.value), channel.putBack current)
        else (.ok none, channel)

def valueAt (channel : Inbox Sample) (timestamp : UInt64) : Except NodeError (Option Bool) × Inbox Sample :=
  valueAtLoop timestamp (channel.undelivered.length + 1) channel

section Work

variable (decoder : UartDecoder)

/-- The time of a bit. The source computes with `f64`, which holds all its values exactly when the baud rate divides
a second into whole nanoseconds. -/
def bitNs : ℚ := 1000000000 / decoder.baud.toNat

def logical (raw : Bool) : Bool := raw != decoder.invert

def parityBits : Nat := if decoder.parity = .none then 0 else 1

def sampleTime (t0 : UInt64) (bitIndex : ℚ) : UInt64 := t0 + roundU64 ((bitIndex + 1 / 2) * decoder.bitNs)

def huntLoop : Nat → Inbox Sample → Except NodeError UInt64 × Inbox Sample
  | 0, rx => (.error (.panicked "more rounds than edges"), rx)
  | rounds + 1, rx =>
    match rx.recv with
    | (.error .shutdown, rx) => (.error .shutdown, rx)
    | (.ok edge, rx) =>
      if edge.value = decoder.invert ∧ decoder.resumeAfter ≤ edge.startTimeNs then
        (.ok edge.startTimeNs, rx.putBack edge)
      else huntLoop rounds rx

def sampleLevel (rx : Inbox Sample) (timestamp : UInt64) : Except NodeError Bool × Inbox Sample :=
  match valueAt rx timestamp with
  | (.error error, rx) => (.error error, rx)
  | (.ok none, rx) => (.error .shutdown, rx)
  | (.ok (some raw), rx) => (.ok (decoder.logical raw), rx)

def bitPosition (i : Nat) : Nat :=
  match decoder.bitOrder with
  | .lsbFirst => i
  | .msbFirst => decoder.dataBits - 1 - i

def dataLoop (t0 : UInt64) : List Nat → UInt64 → List Bool → Inbox Sample →
    Except NodeError (UInt64 × List Bool) × Inbox Sample
  | [], value, bits, rx => (.ok (value, bits), rx)
  | i :: rest, value, bits, rx =>
    match decoder.sampleLevel rx (decoder.sampleTime t0 (1 + i)) with
    | (.error error, rx) => (.error error, rx)
    | (.ok bit, rx) =>
      let value := if bit then value ||| (1 <<< UInt64.ofNat (decoder.bitPosition i)) else value
      dataLoop t0 rest value (bits ++ [bit]) rx

def parityOk (value : UInt64) (parityBit : Bool) : Bool :=
  let ones := countOnes value + parityBit.toNat
  match decoder.parity with
  | .odd => decide (ones % 2 ≠ 0)
  | .even => decide (ones % 2 = 0)
  | .mark => parityBit
  | .space => !parityBit
  | .none => true

def sampleParity (t0 value : UInt64) (rx : Inbox Sample) : Except NodeError Bool × Inbox Sample :=
  if decoder.parity = .none then (.ok false, rx)
  else
    match decoder.sampleLevel rx (decoder.sampleTime t0 (1 + decoder.dataBits)) with
    | (.error error, rx) => (.error error, rx)
    | (.ok parityBit, rx) => (.ok (decoder.checkParity && !decoder.parityOk value parityBit), rx)

def stopTime (t0 : UInt64) : UInt64 :=
  let stopStart : ℚ := 1 + (decoder.dataBits + decoder.parityBits : Nat)
  t0 + roundU64 ((stopStart + min decoder.stopBits.bits 1 / 2) * decoder.bitNs)

def sampleStop (t0 : UInt64) (rx : Inbox Sample) : Except NodeError Bool × Inbox Sample :=
  if decoder.stopBits.bits > 0 then
    match decoder.sampleLevel rx (decoder.stopTime t0) with
    | (.error error, rx) => (.error error, rx)
    | (.ok stopBit, rx) => (.ok !stopBit, rx)
  else (.ok false, rx)

/-- The frame that starts at a time: its value and its bits, and whether it has an error. -/
def sampleFrame (t0 : UInt64) (rx : Inbox Sample) : Except NodeError (UInt64 × List Bool × Bool) × Inbox Sample :=
  match decoder.dataLoop t0 (List.range decoder.dataBits) 0 [] rx with
  | (.error error, rx) => (.error error, rx)
  | (.ok (value, bits), rx) =>
    match decoder.sampleParity t0 value rx with
    | (.error error, rx) => (.error error, rx)
    | (.ok parityError, rx) =>
      match decoder.sampleStop t0 rx with
      | (.error error, rx) => (.error error, rx)
      | (.ok stopError, rx) => (.ok (value, bits, parityError || stopError), rx)

def frameLenBits : ℚ := 1 + (decoder.dataBits + decoder.parityBits : Nat) + decoder.stopBits.bits

def bitDuration : UInt64 := roundU64 decoder.bitNs

def bitAnnotations (t0 : UInt64) (bits : List Bool) : List Word :=
  bits.zipIdx.map fun (bit, index) =>
    .spanning bit.toUInt64 (t0 + roundU64 ((1 + index) * decoder.bitNs)) decoder.bitDuration

def frameWord (t0 value : UInt64) : Word := .spanning value t0 (roundU64 (decoder.frameLenBits * decoder.bitNs))

def startAnnotation (t0 : UInt64) : Word := .spanning (.ofNat u64Max) t0 decoder.bitDuration

def dataAnnotation (t0 value : UInt64) (frameError : Bool) : Word :=
  .spanning (if frameError then .ofNat (u64Max - 2) else value) (t0 + decoder.bitDuration)
    (decoder.bitDuration * .ofNat decoder.dataBits)

def stopAnnotation (t0 : UInt64) : Word :=
  .spanning (.ofNat (u64Max - 1)) (t0 + decoder.bitDuration * (.ofNat decoder.dataBits + 1))
    (roundU64 (decoder.stopBits.bits * decoder.bitNs))

def frameAnnotations (t0 value : UInt64) (frameError : Bool) : List Word :=
  [decoder.startAnnotation t0, decoder.dataAnnotation t0 value frameError] ++
    if decoder.stopBits.bits > 0 then [decoder.stopAnnotation t0] else []

/-- The next start edge may come a quarter of a bit early. -/
def resumeTime (t0 : UInt64) : UInt64 := t0 + roundU64 ((decoder.frameLenBits - 1 / 4) * decoder.bitNs)

/-- What is sent for a frame, and the node behind it. -/
def emit (rx : Inbox Sample) (outputs : UartOutputs) (t0 value : UInt64) (bits : List Bool) (frameError : Bool) :
    UartCall :=
  ⟨.ok 1, { decoder with
      frames := decoder.frames + 1
      resumeAfter := decoder.resumeTime t0
      finished := rx.eos }, some rx,
    if outputs.words then [.sample (decoder.frameWord t0 value)] else [],
    if frameError && outputs.error then [.sample ⟨t0⟩] else [],
    if outputs.bits then [.batch (decoder.bitAnnotations t0 bits)] else [],
    if outputs.frame then [.batch (decoder.frameAnnotations t0 value frameError)] else []⟩

def failed (error : NodeError) (rx : StreamInput Sample) : UartCall := ⟨.error error, decoder, rx, [], [], [], []⟩

def work (rx : StreamInput Sample) (outputs : UartOutputs) : UartCall :=
  match rx with
  | none => decoder.failed (.nodeError "Missing rx input") rx
  | some rx =>
    match decoder.huntLoop (rx.undelivered.length + 1) rx with
    | (.error error, rx) => decoder.failed error (some rx)
    | (.ok t0, rx) =>
      match decoder.sampleFrame t0 rx with
      -- the channel is exhausted in the frame
      | (.error error, rx) => { decoder with finished := true }.failed error (some rx)
      | (.ok (value, bits, frameError), rx) => decoder.emit rx outputs t0 value bits frameError

end Work

end UartDecoder

end LogicConduit
