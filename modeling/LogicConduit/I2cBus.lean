import LogicConduit.I2cDecoder

namespace LogicConduit

/-- What a bus says: a condition, an acknowledge or a byte. -/
inductive I2cItem
  | start
  | repeatedStart
  | stop
  | ack
  | nack
  | address (read : Bool) (value : UInt8)
  | data (read : Bool) (value : UInt8)
  deriving DecidableEq

def I2cItem.packetValue : I2cItem → ProtocolValue
  | .start => .list [.string "START", .null]
  | .repeatedStart => .list [.string "START REPEAT", .null]
  | .stop => .list [.string "STOP", .null]
  | .ack => .list [.string "ACK", .null]
  | .nack => .list [.string "NACK", .null]
  | .address read value => .list [.string (if read then "ADDRESS READ" else "ADDRESS WRITE"), .integer value.toNat]
  | .data read value => .list [.string (if read then "DATA READ" else "DATA WRITE"), .integer value.toNat]

def I2cItem.word : I2cItem → Option UInt64
  | .address _ value | .data _ value => some value.toUInt64
  | _ => none

structure I2cBus where
  previous : Option BusLevels
  active : Bool
  repeatedStart : Bool
  addressPending : Bool
  isWrite : Option Bool
  bits : List Bool
  awaitingAck : Bool

namespace I2cBus

variable (bus : I2cBus)

def byte : I2cBus × List I2cItem :=
  let value := I2cDecoder.bitsValue bus.bits
  if bus.addressPending then
    let read : Bool := value &&& 1 != 0
    ({ bus with isWrite := some !read, addressPending := false, awaitingAck := true }, [.address read (value >>> 1)])
  else ({ bus with awaitingAck := true }, [.data (!bus.isWrite.getD true) value])

def clock (sda : Bool) : I2cBus × List I2cItem :=
  if bus.awaitingAck then ({ bus with awaitingAck := false, bits := [] }, [if sda then .nack else .ack])
  else
    let next := { bus with bits := bus.bits ++ [sda] }
    if next.bits.length = 8 then next.byte else (next, [])

def after (previous levels : BusLevels) : I2cBus × List I2cItem :=
  if previous.2 && !levels.2 && levels.1 then
    ({ bus with
        active := true
        repeatedStart := true
        addressPending := true
        isWrite := none
        bits := []
        awaitingAck := false },
      [if bus.active || bus.repeatedStart then .repeatedStart else .start])
  else if !previous.2 && levels.2 && levels.1 && bus.active then
    ({ bus with active := false, repeatedStart := false, bits := [], awaitingAck := false }, [.stop])
  else if bus.active && !previous.1 && levels.1 then bus.clock levels.2
  else (bus, [])

def next (levels : BusLevels) : I2cBus × List I2cItem :=
  match bus.previous with
  | none => ({ bus with previous := some levels }, [])
  | some previous =>
    let (bus, items) := bus.after previous levels
    ({ bus with previous := some levels }, items)

def read : I2cBus → List BusLevels → I2cBus × List I2cItem
  | bus, [] => (bus, [])
  | bus, levels :: rest =>
    let (bus, items) := bus.next levels
    let (bus, later) := read bus rest
    (bus, items ++ later)

end I2cBus

def ProtocolPacket.showsBits (packet : ProtocolPacket) : Bool :=
  match packet.value with
  | .list (.string command :: _) => command = "BITS"
  | _ => false

def packetValues (packets : List ProtocolPacket) : List ProtocolValue :=
  (packets.filter fun packet => !packet.showsBits).map fun packet => packet.value

namespace I2cDecoder

def bus (decoder : I2cDecoder) : I2cBus where
  previous := decoder.previous
  active := decoder.active
  repeatedStart := decoder.repeatedStart
  addressPending := decoder.addressPending
  isWrite := decoder.isWrite
  bits := decoder.bits.map fun bit => bit.value
  awaitingAck := decoder.awaitingAck

end I2cDecoder

structure I2cStep.Says (step : I2cStep) (read : I2cBus × List I2cItem) : Prop where
  bus : step.node.bus = read.1
  words : (step.words.map fun word => word.value) = read.2.filterMap I2cItem.word
  packets : packetValues step.packets = read.2.map I2cItem.packetValue

namespace I2cDecoder

variable (decoder : I2cDecoder) (timestampStep position : UInt64)

theorem emitByte_says (collected : decoder.bits ≠ []) : (decoder.emitByte timestampStep collected).Says decoder.bus.byte := by
  have value : bitsValue (decoder.bits.map fun bit => bit.value) = bitsValue decoder.bus.bits := rfl
  unfold emitByte I2cBus.byte
  cases pending : decoder.addressPending with
  | true =>
    have busPending : decoder.bus.addressPending = true := pending
    simp only [busPending, if_true, value]
    constructor
    · rfl
    · rfl
    · cases bitsValue decoder.bus.bits &&& 1 != 0 <;> rfl
  | false =>
    have busPending : decoder.bus.addressPending = false := pending
    have sameWrite : decoder.bus.isWrite = decoder.isWrite := rfl
    simp only [busPending, Bool.false_eq_true, if_false, value, sameWrite]
    constructor
    · simp only [bus, pending]
    · rfl
    · cases decoder.isWrite.getD true <;> rfl

theorem risingEdge_says (sda : Bool) :
    (decoder.risingEdge timestampStep position sda).Says (decoder.bus.clock sda) := by
  unfold risingEdge I2cBus.clock
  by_cases waiting : decoder.awaitingAck = true
  · have busWaiting : decoder.bus.awaitingAck = true := waiting
    rw [if_pos waiting, if_pos busWaiting]
    cases sda <;> exact ⟨rfl, rfl, rfl⟩
  · have busWaiting : ¬decoder.bus.awaitingAck = true := waiting
    rw [if_neg waiting, if_neg busWaiting]
    have sameBus : bus { decoder with bits := decoder.bits ++ [⟨sda, position⟩] } =
        { decoder.bus with bits := decoder.bus.bits ++ [sda] } := by
      simp [bus]
    have sameLength : (decoder.bus.bits ++ [sda]).length = (decoder.bits ++ [(⟨sda, position⟩ : SampledBit)]).length := by
      simp [bus]
    simp only [sameLength]
    split
    · have emitted := emitByte_says { decoder with bits := decoder.bits ++ [⟨sda, position⟩] } timestampStep
        (List.append_ne_nil_of_right_ne_nil _ (List.cons_ne_nil _ _))
      rw [sameBus] at emitted
      exact emitted
    · exact ⟨sameBus, rfl, rfl⟩

theorem sampleAfter_says (previous levels : BusLevels) :
    (decoder.sampleAfter previous timestampStep position levels).Says (decoder.bus.after previous levels) := by
  unfold sampleAfter I2cBus.after
  have sameActive : decoder.bus.active = decoder.active := rfl
  have sameRepeated : decoder.bus.repeatedStart = decoder.repeatedStart := rfl
  simp only [sameActive, sameRepeated]
  split
  · cases decoder.active || decoder.repeatedStart <;> exact ⟨rfl, rfl, rfl⟩
  · split
    · exact ⟨rfl, rfl, rfl⟩
    · split
      · exact decoder.risingEdge_says timestampStep position levels.2
      · exact ⟨rfl, rfl, rfl⟩

theorem sample_says (levels : BusLevels) :
    (decoder.sample timestampStep position levels).Says (decoder.bus.next levels) := by
  unfold sample I2cBus.next
  cases seen : decoder.previous with
  | none =>
    have busSeen : decoder.bus.previous = none := seen
    simp only [busSeen]
    exact ⟨rfl, rfl, rfl⟩
  | some previous =>
    have busSeen : decoder.bus.previous = some previous := seen
    obtain ⟨busAfter, words, packets⟩ := decoder.sampleAfter_says timestampStep position previous levels
    simp only [busSeen]
    refine ⟨?_, words, packets⟩
    rw [← busAfter]
    rfl

theorem samples_say (read : List (UInt64 × BusLevels)) :
    (decoder.samples timestampStep read).Says (decoder.bus.read (read.map Prod.snd)) := by
  induction read generalizing decoder with
  | nil => exact ⟨rfl, rfl, rfl⟩
  | cons first rest ih =>
    obtain ⟨position, levels⟩ := first
    obtain ⟨busNext, words, packets⟩ := decoder.sample_says timestampStep position levels
    obtain ⟨busLater, laterWords, laterPackets⟩ := ih (decoder.sample timestampStep position levels).node
    rw [busNext] at busLater laterWords laterPackets
    refine ⟨busLater, ?_, ?_⟩
    · simp only [samples, List.map_cons, I2cBus.read, List.map_append, List.filterMap_append, words, laterWords]
    · simp only [samples, List.map_cons, I2cBus.read, List.map_append, ← packets, ← laterPackets, packetValues,
        List.filter_append]

end I2cDecoder

end LogicConduit
