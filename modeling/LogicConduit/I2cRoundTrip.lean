import LogicConduit.AvailableItems
import LogicConduit.BroadcastLedger
import LogicConduit.I2cWaveforms

namespace LogicConduit

/-- A block of SCL and one of SDA that hold the samples of the same positions. -/
structure BlockPair where
  scl : SampleBlock
  sda : SampleBlock
  start : scl.startPosition = sda.startPosition
  samples : scl.numSamples = sda.numSamples
  step : scl.timestampStep = sda.timestampStep
  nonempty : scl.numSamples ≠ 0
  sclData : scl.numSamples ≤ 8 * scl.data.length
  sdaData : sda.numSamples ≤ 8 * sda.data.length
  fits : scl.startPosition.toNat + scl.numSamples < 2 ^ 64

def packedSample (data : Bytes) (i : Nat) : Bool := (data.getD (i / 8) 0).toNat.testBit (i % 8)

namespace BlockPair

variable (pair : BlockPair)

def levels : List BusLevels :=
  (List.range pair.scl.numSamples).map fun i => (packedSample pair.scl.data i, packedSample pair.sda.data i)

end BlockPair

def samplesFrom : Nat → List BusLevels → List (UInt64 × BusLevels)
  | _, [] => []
  | start, levels :: rest => (.ofNat start, levels) :: samplesFrom (start + 1) rest

/-- Blocks that follow each other from a position on, and split a waveform. -/
inductive SplitInto (timestampStep : UInt64) : Nat → List BlockPair → List BusLevels → Prop
  | nil {start : Nat} : SplitInto timestampStep start [] []
  | cons {start : Nat} {pair : BlockPair} {pairs : List BlockPair} {rest : List BusLevels}
    (position : pair.scl.startPosition.toNat = start) (step : pair.scl.timestampStep = timestampStep)
    (later : SplitInto timestampStep (start + pair.scl.numSamples) pairs rest) :
    SplitInto timestampStep start (pair :: pairs) (pair.levels ++ rest)

theorem samplesFrom_append (start : Nat) (first rest : List BusLevels) :
    samplesFrom start (first ++ rest) = samplesFrom start first ++ samplesFrom (start + first.length) rest := by
  induction first generalizing start with
  | nil => rfl
  | cons levels first ih =>
    have behind : start + 1 + first.length = start + (levels :: first).length := by
      rw [List.length_cons]
      omega
    rw [List.cons_append, samplesFrom, ih, behind]
    rfl

theorem samplesFrom_levels (start : Nat) (waveform : List BusLevels) :
    (samplesFrom start waveform).map Prod.snd = waveform := by
  induction waveform generalizing start with
  | nil => rfl
  | cons levels rest ih => rw [samplesFrom, List.map_cons, ih]

theorem samplesFrom_range (start n : Nat) (levels : Nat → BusLevels) :
    samplesFrom start ((List.range n).map levels) = (List.range n).map fun i => (.ofNat (start + i), levels i) := by
  induction n with
  | zero => rfl
  | succ n ih =>
    rw [List.range_succ, List.map_append, samplesFrom_append, ih, List.map_append, List.length_map, List.length_range]
    rfl

namespace SampleBlock

theorem positions_eq {block : SampleBlock} (fits : block.startPosition.toNat + block.numSamples < 2 ^ 64) :
    block.positions = (List.range block.numSamples).map fun i => .ofNat (block.startPosition.toNat + i) := by
  have ended : block.endPosition.toNat = block.startPosition.toNat + block.numSamples := by
    rw [endPosition, UInt64.toNat_add, UInt64.toNat_ofNat', Nat.mod_eq_of_lt (by omega : block.numSamples < 2 ^ 64),
      Nat.mod_eq_of_lt fits]
  rw [positions, ended, Nat.add_sub_cancel_left, List.range'_eq_map_range, List.map_map]
  rfl

theorem getBit_eq {block : SampleBlock} (fits : block.startPosition.toNat + block.numSamples < 2 ^ 64)
    (data : block.numSamples ≤ 8 * block.data.length) {i : Nat} (inside : i < block.numSamples) :
    block.getBit (.ofNat (block.startPosition.toNat + i)) = some (packedSample block.data i) := by
  have offset : (UInt64.ofNat (block.startPosition.toNat + i) - block.startPosition).toNat = i := by
    have position : (UInt64.ofNat (block.startPosition.toNat + i)).toNat = block.startPosition.toNat + i := by
      rw [UInt64.toNat_ofNat', Nat.mod_eq_of_lt (by omega)]
    have behind : block.startPosition ≤ UInt64.ofNat (block.startPosition.toNat + i) := by
      rw [UInt64.le_iff_toNat_le, position]
      exact Nat.le_add_right _ _
    rw [UInt64.toNat_sub_of_le _ _ behind, position, Nat.add_sub_cancel_left]
  have byte : i / 8 < block.data.length := by omega
  simp only [getBit, offset, List.getElem?_eq_getElem byte, Option.map_some, packedSample, List.getD_eq_getElem?_getD,
    Option.getD_some]

end SampleBlock

namespace I2cDecoder

theorem mapM_some {α β : Type} {f : α → Option β} {g : α → β} {l : List α} (h : ∀ a ∈ l, f a = some (g a)) :
    l.mapM f = some (l.map g) := by
  induction l with
  | nil => rfl
  | cons a l ih =>
    rw [List.mapM_cons, h a List.mem_cons_self, ih fun b mem => h b (List.mem_cons_of_mem _ mem)]
    rfl

theorem blockSamples_eq (pair : BlockPair) :
    blockSamples pair.scl pair.sda = some (samplesFrom pair.scl.startPosition.toNat pair.levels) := by
  have sdaFits : pair.sda.startPosition.toNat + pair.sda.numSamples < 2 ^ 64 := by
    rw [← pair.start, ← pair.samples]
    exact pair.fits
  have read : ∀ i ∈ List.range pair.scl.numSamples,
      ((pair.scl.getBit (.ofNat (pair.scl.startPosition.toNat + i))).bind fun sclHigh =>
        (pair.sda.getBit (.ofNat (pair.scl.startPosition.toNat + i))).map fun sdaHigh =>
          (UInt64.ofNat (pair.scl.startPosition.toNat + i), sclHigh, sdaHigh)) =
        some (.ofNat (pair.scl.startPosition.toNat + i), packedSample pair.scl.data i, packedSample pair.sda.data i) := by
    intro i mem
    have inside := List.mem_range.mp mem
    rw [SampleBlock.getBit_eq pair.fits pair.sclData inside]
    rw [pair.start, SampleBlock.getBit_eq sdaFits pair.sdaData (pair.samples ▸ inside)]
    rfl
  rw [blockSamples, SampleBlock.positions_eq pair.fits, List.mapM_map, BlockPair.levels, samplesFrom_range]
  exact mapM_some read

variable {timestampStep : UInt64}

theorem samples_append (decoder : I2cDecoder) (first rest : List (UInt64 × BusLevels)) :
    decoder.samples timestampStep (first ++ rest) =
      ⟨((decoder.samples timestampStep first).node.samples timestampStep rest).node,
        (decoder.samples timestampStep first).words ++
          ((decoder.samples timestampStep first).node.samples timestampStep rest).words,
        (decoder.samples timestampStep first).packets ++
          ((decoder.samples timestampStep first).node.samples timestampStep rest).packets⟩ := by
  induction first generalizing decoder with
  | nil => rfl
  | cons sample first ih => simp only [List.cons_append, samples, ih, List.append_assoc]

theorem sample_finished (decoder : I2cDecoder) (position : UInt64) (levels : BusLevels) :
    (decoder.sample timestampStep position levels).node.finished = decoder.finished := by
  unfold sample sampleAfter risingEdge emitByte
  simp only
  repeat' split
  all_goals rfl

theorem samples_finished (decoder : I2cDecoder) (read : List (UInt64 × BusLevels)) :
    (decoder.samples timestampStep read).node.finished = decoder.finished := by
  induction read generalizing decoder with
  | nil => rfl
  | cons first rest ih => exact (ih _).trans (sample_finished decoder first.1 first.2)

theorem streamItems_sendBatch {α : Type} (connected : Bool) (values : List α) (later : List (ChannelMessage α)) :
    streamItems (sendBatch connected values ++ later) =
      (if connected then values else []) ++ streamItems later := by
  unfold sendBatch
  cases connected with
  | false => rfl
  | true =>
    cases values with
    | nil => rfl
    | cons value values => rfl

theorem run_split (outputs : I2cOutputs) {start : Nat} {pairs : List BlockPair} {waveform : List BusLevels}
    (blocks : SplitInto timestampStep start pairs waveform) (decoder : I2cDecoder) (running : decoder.finished = false)
    {scl sda : Inbox SampleBlock} (sclBlocks : scl.available = pairs.map fun pair => pair.scl)
    (sdaBlocks : sda.available = pairs.map fun pair => pair.sda) :
    ∃ words packets,
      run outputs (pairs.length + 1) decoder ⟨some scl, some sda⟩ = some (words, packets) ∧
        streamItems words =
          (if outputs.words then (decoder.samples timestampStep (samplesFrom start waveform)).words else []) ∧
        streamItems packets =
          (if outputs.packets then (decoder.samples timestampStep (samplesFrom start waveform)).packets else []) := by
  induction blocks generalizing decoder scl sda with
  | nil =>
    obtain ⟨next, ended, -⟩ := recv_ended sclBlocks
    refine ⟨[], [], ?_, ?_, ?_⟩
    · simp only [run, running, work, acquireBlocks, ended]
      rfl
    · split <;> rfl
    · split <;> rfl
  | @cons start pair pairs rest position step later ih =>
    obtain ⟨sclNext, sclRead, sclLater, -⟩ := recv_item sclBlocks
    obtain ⟨sdaNext, sdaRead, sdaLater, -⟩ := recv_item sdaBlocks
    have acquired : acquireBlocks ⟨some scl, some sda⟩ =
        (.ok (some (pair.scl, pair.sda)), ⟨some sclNext, some sdaNext⟩) := by
      have aligned : ¬(pair.scl.startPosition ≠ pair.sda.startPosition ∨ pair.scl.numSamples ≠ pair.sda.numSamples ∨
          pair.scl.timestampStep ≠ pair.sda.timestampStep) := by
        simp [pair.start, pair.samples, pair.step]
      simp only [acquireBlocks, sclRead, sdaRead, if_neg aligned, if_neg pair.nonempty]
    have processed : decoder.processBlocks (pair.scl, pair.sda) =
        .ok (decoder.samples timestampStep (samplesFrom start pair.levels)) := by
      simp only [processBlocks, blockSamples_eq, position, step]
    obtain ⟨words, packets, run, wordItems, packetItems⟩ :=
      ih (decoder.samples timestampStep (samplesFrom start pair.levels)).node
        ((samples_finished decoder _).trans running) sclLater sdaLater
    have length : pair.levels.length = pair.scl.numSamples := by
      rw [BlockPair.levels, List.length_map, List.length_range]
    rw [samplesFrom_append, samples_append, length]
    refine ⟨sendBatch outputs.words (decoder.samples timestampStep (samplesFrom start pair.levels)).words ++ words,
      sendBatch outputs.packets (decoder.samples timestampStep (samplesFrom start pair.levels)).packets ++ packets,
      ?_, ?_, ?_⟩
    · rw [List.length_cons, I2cDecoder.run, running]
      simp only [work, acquired, processed, run, Bool.false_eq_true, if_false, Option.map_some]
    · rw [streamItems_sendBatch, wordItems]
      cases outputs.words <;> rfl
    · rw [streamItems_sendBatch, packetItems]
      cases outputs.packets <;> rfl

end I2cDecoder

/-- The decoder gives back the transactions of a waveform, however it is split into blocks. -/
theorem i2c_round_trip {transactions : List I2cTransaction} {waveform : List BusLevels}
    (carried : I2cWave.Waveform transactions waveform) {timestampStep : UInt64} {start : Nat} {pairs : List BlockPair}
    (blocks : SplitInto timestampStep start pairs waveform) {scl sda : Inbox SampleBlock}
    (sclBlocks : scl.available = pairs.map fun pair => pair.scl)
    (sdaBlocks : sda.available = pairs.map fun pair => pair.sda) :
    ∃ calls words packets,
      I2cDecoder.new.run ⟨true, true⟩ calls ⟨some scl, some sda⟩ = some (words, packets) ∧
        ((streamItems words).map fun word => word.value) =
          (transactions.flatMap I2cTransaction.items).filterMap I2cItem.word ∧
        packetValues (streamItems packets) = (transactions.flatMap I2cTransaction.items).map I2cItem.packetValue ∧
        streamItems words = (I2cDecoder.new.samples timestampStep (samplesFrom start waveform)).words ∧
        streamItems packets = (I2cDecoder.new.samples timestampStep (samplesFrom start waveform)).packets := by
  obtain ⟨words, packets, run, wordItems, packetItems⟩ :=
    I2cDecoder.run_split ⟨true, true⟩ blocks I2cDecoder.new rfl sclBlocks sdaBlocks
  rw [if_pos rfl] at wordItems packetItems
  have said := I2cDecoder.new.samples_say timestampStep (samplesFrom start waveform)
  rw [samplesFrom_levels] at said
  have items := I2cBus.read_waveform carried
  refine ⟨_, words, packets, run, ?_, ?_, wordItems, packetItems⟩
  · rw [wordItems, said.words, items]
  · rw [packetItems, said.packets, items]

theorem pulses_short (bits : List Bool) :
    I2cWave.Pulses bits (bits.flatMap fun bit => [(false, bit), (true, bit)]) := by
  induction bits with
  | nil => exact .nil
  | cons bit bits ih =>
    have first : I2cWave.Pulse bit ([] ++ (false, bit) :: (true, bit) :: []) := .phases nofun nofun
    exact .cons first ih

def writtenByte : I2cTransaction := ⟨⟨0x50, false, true, [⟨0x12, false⟩]⟩, []⟩

/-- The bus is idle for one sample before the transaction. -/
def writtenWave : List BusLevels :=
  (true, true) :: ([] ++ (([(true, false)] ++ writtenByte.first.levels.flatMap fun bit => [(false, bit), (true, bit)]) ++
    ([(false, false), (true, false)] ++ [(true, true)]) ++ []))

def writtenBlocks : List BlockPair :=
  [⟨⟨[171, 170], 8, 16, 100⟩, ⟨[205, 0], 8, 16, 100⟩, rfl, rfl, rfl, by decide, by decide, by decide, by decide⟩,
    ⟨⟨[170, 170, 170, 1], 24, 25, 100⟩, ⟨[0, 12, 51, 1], 24, 25, 100⟩, rfl, rfl, rfl, by decide, by decide, by decide,
      by decide⟩]

theorem written_byte_decoded :
    ∃ calls words packets,
      I2cDecoder.new.run ⟨true, true⟩ calls
          ⟨some ⟨writtenBlocks.map fun pair => .sample pair.scl, false, [], false⟩,
            some ⟨[.batch (writtenBlocks.map fun pair => pair.sda)], false, [], false⟩⟩ = some (words, packets) ∧
        ((streamItems words).map fun word => word.value) = [0x50, 0x12] := by
  have clocks := pulses_short writtenByte.first.levels
  have setup : I2cWave.Pulse false ([] ++ (false, false) :: (true, false) :: []) := .phases nofun nofun
  have messages : I2cWave.Messages writtenByte.first []
      (([(true, false)] ++ writtenByte.first.levels.flatMap fun bit => [(false, bit), (true, bit)]) ++
        ([(false, false), (true, false)] ++ [(true, true)])) :=
    .last (.sent (.samples nofun) clocks) (.clock setup) (.samples nofun)
  have carried : I2cWave.Waveform [writtenByte] writtenWave :=
    .samples (.transaction trivial rfl messages (.idle trivial))
  have blocks : SplitInto 100 8 writtenBlocks writtenWave := .cons rfl rfl (.cons rfl rfl .nil)
  have sclBlocks : (⟨writtenBlocks.map fun pair => .sample pair.scl, false, [], false⟩ : Inbox SampleBlock).available =
      writtenBlocks.map fun pair => pair.scl := rfl
  have sdaBlocks : (⟨[.batch (writtenBlocks.map fun pair => pair.sda)], false, [], false⟩ : Inbox SampleBlock).available =
      writtenBlocks.map fun pair => pair.sda := rfl
  obtain ⟨calls, words, packets, run, values, -⟩ := i2c_round_trip carried blocks sclBlocks sdaBlocks
  exact ⟨calls, words, packets, run, values⟩

end LogicConduit
