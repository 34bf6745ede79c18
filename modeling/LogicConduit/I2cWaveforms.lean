import LogicConduit.I2cBus

namespace LogicConduit

structure I2cByte where
  value : UInt8
  acknowledged : Bool

/-- The bytes between two conditions. -/
structure I2cMessage where
  address : BitVec 7
  read : Bool
  acknowledged : Bool
  data : List I2cByte

/-- A start condition with its message, repeated ones with theirs, and a stop condition. -/
structure I2cTransaction where
  first : I2cMessage
  repeated : List I2cMessage

def byteBits (value : UInt8) : List Bool := (List.range 8).map fun i => value.toNat.testBit (7 - i)

namespace I2cByte

def levels (byte : I2cByte) : List Bool := byteBits byte.value ++ [!byte.acknowledged]

def ackItem (byte : I2cByte) : I2cItem := if byte.acknowledged then .ack else .nack

end I2cByte

namespace I2cMessage

variable (message : I2cMessage)

def addressByte : I2cByte := ⟨.ofNat (2 * message.address.toNat + message.read.toNat), message.acknowledged⟩

def levels : List Bool := message.addressByte.levels ++ message.data.flatMap I2cByte.levels

def lastByte : I2cByte := message.data.getLastD message.addressByte

def byteItems : List I2cItem :=
  [.address message.read (.ofNat message.address.toNat), message.addressByte.ackItem] ++
    message.data.flatMap fun byte => [.data message.read byte.value, byte.ackItem]

end I2cMessage

def I2cTransaction.items (transaction : I2cTransaction) : List I2cItem :=
  .start :: transaction.first.byteItems ++
    transaction.repeated.flatMap (fun message => .repeatedStart :: message.byteItems) ++ [.stop]

namespace I2cWave

/-- A clock pulse: while SCL is low SDA may change, and it has its level from the last low sample on. -/
inductive Pulse (bit : Bool) : List BusLevels → Prop
  | phases {lows highs : List BusLevels} (low : ∀ levels ∈ lows, levels.1 = false)
    (high : ∀ levels ∈ highs, levels = (true, bit)) : Pulse bit (lows ++ (false, bit) :: (true, bit) :: highs)

inductive Pulses : List Bool → List BusLevels → Prop
  | nil : Pulses [] []
  | cons {bit : Bool} {bits : List Bool} {pulse rest : List BusLevels} (first : Pulse bit pulse)
    (later : Pulses bits rest) : Pulses (bit :: bits) (pulse ++ rest)

inductive Held (levels : BusLevels) : List BusLevels → Prop
  | samples {rest : List BusLevels} (same : ∀ later ∈ rest, later = levels) : Held levels (levels :: rest)

inductive Message (message : I2cMessage) : List BusLevels → Prop
  | sent {start clocks : List BusLevels} (low : Held (true, false) start) (pulses : Pulses message.levels clocks) :
    Message message (start ++ clocks)

/-- The way to a condition that SDA comes to from `level`: the last clock ends on that level, or there is a clock for
it. -/
inductive Setup (last level : Bool) : List BusLevels → Prop
  | within (same : last = level) : Setup last level []
  | clock {pulse : List BusLevels} (high : Pulse level pulse) : Setup last level pulse

/-- Messages, of which the first one follows a start condition, up to the stop condition. -/
inductive Messages : I2cMessage → List I2cMessage → List BusLevels → Prop
  | last {message : I2cMessage} {sent setup stop : List BusLevels} (first : Message message sent)
    (low : Setup (!message.lastByte.acknowledged) false setup) (high : Held (true, true) stop) :
    Messages message [] (sent ++ (setup ++ stop))
  | repeated {message next : I2cMessage} {messages : List I2cMessage} {sent setup rest : List BusLevels}
    (first : Message message sent) (high : Setup (!message.lastByte.acknowledged) true setup)
    (later : Messages next messages rest) : Messages message (next :: messages) (sent ++ (setup ++ rest))

/-- SDA changes only in samples where SCL is low. -/
def Quiet : BusLevels → List BusLevels → Prop
  | _, [] => True
  | previous, levels :: rest => (levels.1 = true → levels.2 = previous.2) ∧ Quiet levels rest

/-- Transactions on a bus that has been sampled before, with a quiet bus between them. -/
inductive Carries : List I2cTransaction → BusLevels → List BusLevels → Prop
  | idle {previous : BusLevels} {gap : List BusLevels} (quiet : Quiet previous gap) : Carries [] previous gap
  | transaction {transaction : I2cTransaction} {transactions : List I2cTransaction} {previous : BusLevels}
    {gap sent rest : List BusLevels} (quiet : Quiet previous gap) (free : gap.getLastD previous = (true, true))
    (messages : Messages transaction.first transaction.repeated sent) (later : Carries transactions (true, true) rest) :
    Carries (transaction :: transactions) previous (gap ++ (sent ++ rest))

inductive Waveform : List I2cTransaction → List BusLevels → Prop
  | empty : Waveform [] []
  | samples {transactions : List I2cTransaction} {first : BusLevels} {rest : List BusLevels}
    (carried : Carries transactions first rest) : Waveform transactions (first :: rest)

end I2cWave

namespace I2cBus

open I2cWave

variable {bus : I2cBus} {previous : BusLevels}

theorem read_append (bus : I2cBus) (first rest : List BusLevels) :
    bus.read (first ++ rest) =
      (((bus.read first).1.read rest).1, (bus.read first).2 ++ ((bus.read first).1.read rest).2) := by
  induction first generalizing bus with
  | nil => rfl
  | cons levels first ih =>
    simp only [List.cons_append, read, ih, List.append_assoc]

theorem read_then {middle last : I2cBus} {first rest : List BusLevels} {items later : List I2cItem}
    (before : bus.read first = (middle, items)) (after : middle.read rest = (last, later)) :
    bus.read (first ++ rest) = (last, items ++ later) := by
  rw [read_append, before, after]

variable {levels : BusLevels}

theorem read_cons_silent {rest : List BusLevels} {next last : I2cBus} {items : List I2cItem}
    (silent : bus.next levels = (next, [])) (later : next.read rest = (last, items)) :
    bus.read (levels :: rest) = (last, items) := by
  simp only [read, silent, later, List.nil_append]

def sampled (bus : I2cBus) (levels : BusLevels) : I2cBus := { bus with previous := some levels }

theorem next_sampled (levels : BusLevels) :
    (bus.sampled previous).next levels =
      (((bus.sampled previous).after previous levels).1.sampled levels,
        ((bus.sampled previous).after previous levels).2) := rfl

theorem next_low (low : levels.1 = false) :
    (bus.sampled previous).next levels = (bus.sampled levels, []) := by
  rw [next_sampled]
  simp [after, low, sampled]

theorem read_lows {lows : List BusLevels} (low : ∀ levels ∈ lows, levels.1 = false) :
    (bus.sampled previous).read lows = (bus.sampled (lows.getLastD previous), []) := by
  induction lows generalizing previous with
  | nil => rfl
  | cons levels lows ih =>
    rw [List.getLastD_cons]
    exact read_cons_silent (next_low (low levels List.mem_cons_self))
      (ih fun later mem => low later (List.mem_cons_of_mem _ mem))

theorem next_same {sda : Bool} : (bus.sampled (true, sda)).next (true, sda) = (bus.sampled (true, sda), []) := by
  rw [next_sampled]
  cases sda <;> simp [after, sampled]

variable {samples : List BusLevels}

theorem read_same {sda : Bool} (same : ∀ levels ∈ samples, levels = (true, sda)) :
    (bus.sampled (true, sda)).read samples = (bus.sampled (true, sda), []) := by
  induction samples with
  | nil => rfl
  | cons levels samples ih =>
    rw [same levels List.mem_cons_self]
    exact read_cons_silent next_same (ih fun later mem => same later (List.mem_cons_of_mem _ mem))

theorem read_quiet (inactive : bus.active = false) {gap : List BusLevels} (quiet : Quiet previous gap) :
    (bus.sampled previous).read gap = (bus.sampled (gap.getLastD previous), []) := by
  induction gap generalizing previous with
  | nil => rfl
  | cons levels gap ih =>
    obtain ⟨unchanged, quiet⟩ := quiet
    have silent : (bus.sampled previous).next levels = (bus.sampled levels, []) := by
      cases high : levels.1 with
      | false => exact next_low high
      | true =>
        rw [next_sampled]
        simp [after, sampled, inactive, unchanged high]
    rw [List.getLastD_cons]
    exact read_cons_silent silent (ih quiet)

theorem clock_sampled (levels : BusLevels) (sda : Bool) :
    (bus.sampled levels).clock sda = ((bus.clock sda).1.sampled levels, (bus.clock sda).2) := by
  unfold clock byte sampled
  simp only
  repeat' split
  all_goals rfl

theorem clock_active (sda : Bool) : (bus.clock sda).1.active = bus.active := by
  unfold clock byte
  simp only
  repeat' split
  all_goals rfl

theorem read_pulse (active : bus.active = true) {bit : Bool} (pulse : Pulse bit samples) :
    (bus.sampled previous).read samples = ((bus.clock bit).1.sampled (true, bit), (bus.clock bit).2) := by
  obtain ⟨low, high⟩ := pulse
  rename_i lows highs
  have rise : (bus.sampled (false, bit)).next (true, bit) =
      ((bus.clock bit).1.sampled (true, bit), (bus.clock bit).2) := by
    rw [next_sampled]
    have rising : (bus.sampled (false, bit)).after (false, bit) (true, bit) = (bus.sampled (false, bit)).clock bit := by
      have activeSampled : (bus.sampled (false, bit)).active = true := active
      cases bit <;> simp [after, activeSampled]
    rw [rising, clock_sampled]
    rfl
  have pulsed : (bus.sampled (lows.getLastD previous)).read ((false, bit) :: (true, bit) :: highs) =
      ((bus.clock bit).1.sampled (true, bit), (bus.clock bit).2) := by
    refine read_cons_silent (next_low rfl) ?_
    rw [read, rise]
    simp only [read_same high, List.append_nil]
  exact read_then (read_lows low) pulsed

def clocks : I2cBus → List Bool → I2cBus × List I2cItem
  | bus, [] => (bus, [])
  | bus, bit :: bits => (((bus.clock bit).1.clocks bits).1, (bus.clock bit).2 ++ ((bus.clock bit).1.clocks bits).2)

theorem clocks_then {middle last : I2cBus} {first rest : List Bool} {items later : List I2cItem}
    (before : bus.clocks first = (middle, items)) (after : middle.clocks rest = (last, later)) :
    bus.clocks (first ++ rest) = (last, items ++ later) := by
  induction first generalizing bus items with
  | nil =>
    cases before
    exact after
  | cons bit first ih =>
    simp only [clocks, Prod.mk.injEq] at before
    obtain ⟨stop, said⟩ := before
    have rest := ih (Prod.ext stop rfl)
    simp only [List.cons_append, clocks, rest, ← said, List.append_assoc]

variable {bits : List Bool} {α : Type} {transactions : List I2cTransaction}

theorem read_pulses (active : bus.active = true) (pulses : Pulses bits samples) :
    (bus.sampled previous).read samples =
      ((bus.clocks bits).1.sampled ((bits.map fun bit => (true, bit)).getLastD previous), (bus.clocks bits).2) := by
  induction pulses generalizing bus previous with
  | nil => rfl
  | cons first later ih =>
    rename_i bit bits pulse rest
    rw [List.map_cons, List.getLastD_cons]
    exact read_then (read_pulse active first) (ih ((clock_active bit).trans active))

theorem bitsValue_byteBits (value : UInt8) : I2cDecoder.bitsValue (byteBits value) = value := by
  have all : ∀ n : Fin 256, I2cDecoder.bitsValue (byteBits (.ofNat n)) = .ofNat n := by decide +kernel
  simpa using all ⟨value.toNat, value.toNat_lt⟩

theorem addressByte_value (message : I2cMessage) :
    (message.addressByte.value &&& 1 != 0) = message.read ∧
      message.addressByte.value >>> 1 = .ofNat message.address.toNat := by
  have all : ∀ (address : Fin 128) (read : Bool),
      ((UInt8.ofNat (2 * address + read.toNat) &&& 1 != 0) = read ∧
        UInt8.ofNat (2 * address + read.toNat) >>> 1 = .ofNat address) := by decide +kernel
  exact all message.address.toFin message.read

theorem clocks_collect (idle : bus.awaitingAck = false) (short : bus.bits.length + bits.length < 8) :
    bus.clocks bits = ({ bus with bits := bus.bits ++ bits }, []) := by
  induction bits generalizing bus with
  | nil => simp [clocks]
  | cons bit bits ih =>
    have collected : bus.clock bit = ({ bus with bits := bus.bits ++ [bit] }, []) := by
      have fewer : ¬(bus.bits ++ [bit]).length = 8 := by
        simp only [List.length_append, List.length_cons, List.length_nil] at short ⊢
        omega
      simp only [clock, idle, Bool.false_eq_true, if_false, if_neg fewer]
    have later : bus.bits.length + 1 + bits.length < 8 := by
      rw [List.length_cons] at short
      omega
    have rest : ({ bus with bits := bus.bits ++ [bit] } : I2cBus).clocks bits =
        ({ bus with bits := bus.bits ++ [bit] ++ bits }, []) := ih idle (by simpa using later)
    simp only [clocks, collected, rest, List.append_assoc, List.singleton_append, List.nil_append]

theorem clocks_byte (idle : bus.awaitingAck = false) (empty : bus.bits = []) (eight : bits.length = 8) :
    bus.clocks bits = { bus with bits := bits }.byte := by
  obtain ⟨first, last, rfl⟩ : ∃ first last, bits = first ++ [last] :=
    ⟨bits.dropLast, bits.getLast (by rintro rfl; cases eight), (List.dropLast_append_getLast _).symm⟩
  have seven : first.length = 7 := by simpa using eight
  have collected : bus.clocks first = ({ bus with bits := first }, []) := by
    rw [clocks_collect idle (by rw [empty, seven]; decide), empty]
    rfl
  have full : { bus with bits := first }.clock last = { bus with bits := first ++ [last] }.byte := by
    simp only [clock, idle, Bool.false_eq_true, if_false, if_pos eight]
  have ended : ({ bus with bits := first } : I2cBus).clocks [last] =
      (({ bus with bits := first ++ [last] } : I2cBus).byte.1, ({ bus with bits := first ++ [last] } : I2cBus).byte.2) := by
    simp only [clocks, full, List.append_nil]
  exact clocks_then collected ended

def begun : I2cBus := ⟨none, true, true, true, none, [], false⟩

def addressed (read : Bool) : I2cBus := ⟨none, true, true, false, some !read, [], false⟩

theorem clocks_addressByte (message : I2cMessage) :
    begun.clocks message.addressByte.levels =
      (addressed message.read,
        [.address message.read (.ofNat message.address.toNat), message.addressByte.ackItem]) := by
  obtain ⟨direction, address⟩ := addressByte_value message
  have value : begun.clocks (byteBits message.addressByte.value) =
      ({ addressed message.read with bits := byteBits message.addressByte.value, awaitingAck := true },
        [.address message.read (.ofNat message.address.toNat)]) := by
    rw [clocks_byte rfl rfl rfl]
    simp only [byte, begun, if_true, bitsValue_byteBits, direction, address]
    rfl
  refine clocks_then value ?_
  cases acknowledged : message.addressByte.acknowledged <;> simp [clocks, clock, I2cByte.ackItem, acknowledged, addressed]

theorem clocks_dataByte (read : Bool) (byte : I2cByte) :
    (addressed read).clocks byte.levels = (addressed read, [.data read byte.value, byte.ackItem]) := by
  have value : (addressed read).clocks (byteBits byte.value) =
      ({ addressed read with bits := byteBits byte.value, awaitingAck := true }, [.data read byte.value]) := by
    rw [clocks_byte rfl rfl rfl]
    simp [I2cBus.byte, addressed, bitsValue_byteBits]
  refine clocks_then value ?_
  cases acknowledged : byte.acknowledged <;> simp [clocks, clock, I2cByte.ackItem, acknowledged, addressed]

theorem clocks_data (read : Bool) (data : List I2cByte) :
    (addressed read).clocks (data.flatMap I2cByte.levels) =
      (addressed read, data.flatMap fun byte => [.data read byte.value, byte.ackItem]) := by
  induction data with
  | nil => rfl
  | cons byte data ih => exact clocks_then (clocks_dataByte read byte) ih

theorem clocks_message (message : I2cMessage) :
    begun.clocks message.levels = (addressed message.read, message.byteItems) :=
  clocks_then (clocks_addressByte message) (clocks_data message.read message.data)

theorem getLastD_append (first rest : List α) (previous : α) :
    (first ++ rest).getLastD previous = rest.getLastD (first.getLastD previous) := by
  induction first generalizing previous with
  | nil => rfl
  | cons level first ih => rw [List.cons_append, List.getLastD_cons, List.getLastD_cons, ih]

theorem byte_levels_last (f : Bool → α) (byte : I2cByte) (previous : α) :
    (byte.levels.map f).getLastD previous = f !byte.acknowledged := by
  rw [I2cByte.levels, List.map_append]
  exact List.getLastD_concat

theorem levels_last (f : Bool → α) (byte : I2cByte) (data : List I2cByte) (previous : α) :
    ((byte.levels ++ data.flatMap I2cByte.levels).map f).getLastD previous = f !(data.getLastD byte).acknowledged := by
  rw [List.map_append, getLastD_append, byte_levels_last]
  induction data generalizing byte with
  | nil => rfl
  | cons next data ih =>
    rw [List.getLastD_cons, List.flatMap_cons, List.map_append, getLastD_append, byte_levels_last]
    exact ih next

theorem read_held (held : Held levels samples) (high : levels.1 = true) {last : I2cBus} {items : List I2cItem}
    (first : bus.next levels = (last.sampled levels, items)) :
    bus.read samples = (last.sampled levels, items) := by
  obtain ⟨same⟩ := held
  rename_i rest
  obtain ⟨scl, sda⟩ := levels
  cases high
  simp only [read, first, read_same same, List.append_nil]

theorem read_message {message : I2cMessage} (sent : Message message samples) :
    (bus.sampled (true, true)).read samples =
      ((addressed message.read).sampled (true, !message.lastByte.acknowledged),
        (if bus.active || bus.repeatedStart then .repeatedStart else .start) :: message.byteItems) := by
  obtain ⟨low, pulses⟩ := sent
  have started : (bus.sampled (true, true)).next (true, false) =
      (begun.sampled (true, false), [if bus.active || bus.repeatedStart then .repeatedStart else .start]) := rfl
  refine read_then (read_held low rfl started) ?_
  rw [read_pulses rfl pulses, clocks_message, I2cMessage.levels, levels_last]
  rfl

theorem read_setup (read : Bool) {last level : Bool} {setup : List BusLevels} (reached : Setup last level setup) :
    ∃ ready : I2cBus, ready.active = true ∧
      ((addressed read).sampled (true, last)).read setup = (ready.sampled (true, level), []) := by
  cases reached with
  | within same =>
    subst same
    exact ⟨addressed read, rfl, rfl⟩
  | clock high => exact ⟨_, rfl, read_pulse rfl high⟩

theorem read_messages {message : I2cMessage} {messages : List I2cMessage} (sent : Messages message messages samples) :
    ∃ free : I2cBus, free.active = false ∧ free.repeatedStart = false ∧
      (bus.sampled (true, true)).read samples =
        (free.sampled (true, true),
          (if bus.active || bus.repeatedStart then .repeatedStart else .start) :: message.byteItems ++
            messages.flatMap (fun message => .repeatedStart :: message.byteItems) ++ [.stop]) := by
  induction sent generalizing bus with
  | @last message samples setup stop first low high =>
    obtain ⟨ready, active, reached⟩ := read_setup message.read low
    have stopped : (ready.sampled (true, false)).next (true, true) =
        (({ ready with active := false, repeatedStart := false, bits := [], awaitingAck := false } : I2cBus).sampled
          (true, true), [.stop]) := by
      rw [next_sampled]
      simp [after, sampled, active]
    refine ⟨{ ready with active := false, repeatedStart := false, bits := [], awaitingAck := false }, rfl, rfl, ?_⟩
    rw [read_then (read_message first) (read_then reached (read_held high rfl stopped))]
    simp
  | @repeated message next messages samples setup rest first high later ih =>
    obtain ⟨ready, active, reached⟩ := read_setup message.read high
    obtain ⟨free, inactive, unrepeated, said⟩ := @ih ready
    refine ⟨free, inactive, unrepeated, ?_⟩
    rw [read_then (read_message first) (read_then reached said)]
    simp [active]

theorem read_carries
    (carried : I2cWave.Carries transactions previous samples) (inactive : bus.active = false)
    (unrepeated : bus.repeatedStart = false) :
    ((bus.sampled previous).read samples).2 = transactions.flatMap I2cTransaction.items := by
  induction carried generalizing bus with
  | idle quiet => rw [read_quiet inactive quiet]; rfl
  | @transaction transaction transactions previous gap sent rest quiet free messages later ih =>
    obtain ⟨ended, endedInactive, endedUnrepeated, said⟩ := read_messages messages
    rw [read_append, read_append, read_quiet inactive quiet, free, said]
    simp only [ih endedInactive endedUnrepeated, inactive, unrepeated]
    rfl

theorem read_waveform (waveform : Waveform transactions samples) :
    (I2cDecoder.new.bus.read samples).2 = transactions.flatMap I2cTransaction.items := by
  cases waveform with
  | empty => rfl
  | samples carried => exact @read_carries I2cDecoder.new.bus _ _ _ carried rfl rfl

end I2cBus

end LogicConduit
