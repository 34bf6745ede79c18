import LogicConduit.BitWords
import LogicConduit.CaptureRandomReader
import LogicConduit.CheckedRuns
import LogicConduit.WordEvents

namespace LogicConduit

def samplesPerL1Bit : Nat := 64
def samplesPerL2Bit : Nat := 4096
def samplesPerL3Bit : Nat := 262144
def l1Words : Nat := 4096
def l2Words : Nat := 64

def packedBit (data : Bytes) (index : Nat) : Bool :=
  data[index / 8]?.any (fun byte => byte.toNat.testBit (index % 8))

def u32Limit : Nat := 2 ^ 32 - 1

structure SamplerHeader where
  totalProbes : Nat
  totalSamples : Nat
  samplesPerBlock : Nat
  probeNames : List String
  totalProbes_lt : totalProbes < 2 ^ 64
  totalSamples_lt : totalSamples < 2 ^ 64
  samplesPerBlock_lt : samplesPerBlock < 2 ^ 64

structure RootDirEntry where
  offset : Nat
  len : Nat
  toggle : Bool
  first : Bool
  last : Bool
  l3Toggle : BitWord
  l3Last : BitWord

/-- The level bitmaps of a leaf, each of its fixed size. -/
structure LevelsView where
  l1Toggle : Bitmap
  l1Last : Bitmap
  l2Toggle : Bitmap
  l2Last : Bitmap
  l3Toggle : BitWord
  l1Toggle_length : l1Toggle.length = l1Words
  l1Last_length : l1Last.length = l1Words
  l2Toggle_length : l2Toggle.length = l2Words
  l2Last_length : l2Last.length = l2Words

structure LeafView where
  validSamples : Nat
  first : Bool
  last : Bool
  levels : Option LevelsView

/-- What a sampler reads: its directory, the segments of the index and the packed blocks. The caches hold what has
been read before, so that they do not change an answer. -/
structure IndexSampler where
  header : SamplerHeader
  directory : List (List RootDirEntry)
  loadSegment : Nat → Except CaptureError Bytes
  cachedPackedBlock : Nat → Nat → Except CaptureError Bytes

structure SampledChannel extends CaptureSampledChannel where
  transitions : List LevelTransition

structure SampledWindow where
  startSample : Nat
  endSample : Nat
  sampleStep : Nat
  channels : List SampledChannel

abbrev Query (α : Type) := Checked CaptureError α

def levelWords : Nat := 2 * l1Words + 2 * l2Words + 2

def payloadWords (payload : Bytes) : List BitWord :=
  (List.range (payload.length / 8)).map fun i => BitVec.ofNat 64 (ofLeBytes ((payload.drop (8 * i)).take 8))

def LevelsView.ofWords (words : List BitWord) (h : words.length = levelWords) : LevelsView where
  l1Toggle := words.take l1Words
  l1Last := (words.drop l1Words).take l1Words
  l2Toggle := (words.drop (2 * l1Words)).take l2Words
  l2Last := (words.drop (2 * l1Words + l2Words)).take l2Words
  l3Toggle := words.getD (2 * l1Words + 2 * l2Words) 0
  l1Toggle_length := by rw [List.length_take, h]; rfl
  l1Last_length := by rw [List.length_take, List.length_drop, h]; rfl
  l2Toggle_length := by rw [List.length_take, List.length_drop, h]; rfl
  l2Last_length := by rw [List.length_take, List.length_drop, h]; rfl

theorem length_payloadWords {payload : Bytes} (h : payload.length = levelWords * 8) :
    (payloadWords payload).length = levelWords := by
  rw [payloadWords, List.length_map, List.length_range, h, Nat.mul_div_cancel _ (by decide)]

def leafView (data : Bytes) : Query LeafView :=
  if data.length < 8 then .failed (.parseError "truncated waveform-index leaf")
  else
    let flags := data.getD 4 0
    let payload := data.drop 8
    let leaf (levels : Option LevelsView) : LeafView :=
      ⟨ofLeBytes (data.take 4), flags &&& 1 != 0, flags &&& 2 != 0, levels⟩
    if flags &&& 4 != 0 then
      if h : levelWords * 8 ≤ payload.length then
        .done (leaf (some (.ofWords (payloadWords (payload.take (levelWords * 8)))
          (length_payloadWords (List.length_take_of_le h)))))
      else .failed (.parseError "truncated waveform-index leaf")
    else .done (leaf none)

/-- A word of the packed samples, with zeros behind the end of `data`. -/
def readLeWord (data : Bytes) (wordIndex : Nat) : Query BitWord := do
  let byteStart ← Checked.mul wordIndex 8
  let byteEnd ← Checked.add byteStart 8
  if byteEnd ≤ data.length then return BitVec.ofNat 64 (ofLeBytes ((data.drop byteStart).take 8))
  let available := min (data.length - byteStart) 8
  let bytes ← Checked.slice data byteStart (byteStart + available)
  return BitVec.ofNat 64 (ofLeBytes bytes)

def maskBelow (count : Nat) : Query BitWord :=
  if count = 64 then .done (BitVec.allOnes 64)
  else do
    let one ← Checked.shiftOne count
    return one - 1

def checkedRangeMask (lo hi : Nat) : Query BitWord := do
  let upper ← maskBelow hi
  let lower ← Checked.shiftOne lo
  return upper &&& ~~~(lower - 1)

def bitRangeLoop (words : Bitmap) (firstBit lastBit : Nat) : Nat → Nat → Query Bool
  | 0, _ => .done false
  | remaining + 1, wordIndex =>
    match words[wordIndex]? with
    | none => .done false
    | some word => do
      let word := if wordIndex = firstBit / 64 then word &&& (BitVec.allOnes 64 <<< (firstBit % 64)) else word
      let mask ← maskBelow (if wordIndex = lastBit / 64 then lastBit % 64 + 1 else 64)
      if word &&& mask ≠ 0 then return true
      else bitRangeLoop words firstBit lastBit remaining (wordIndex + 1)

def bitRangeAny (words : Bitmap) (firstBit lastBit : Nat) : Query Bool :=
  if lastBit < firstBit then .done false
  else bitRangeLoop words firstBit lastBit (lastBit / 64 + 1 - firstBit / 64) (firstBit / 64)

/-- The active L2 groups of one L3 group; `some` ends the search. -/
def l2Loop (levels : LevelsView) (start stop l3FirstL2 : Nat) : List Nat → Query (Option (Option Nat))
  | [] => .done none
  | l2Offset :: offsets => do
    let l2 := l3FirstL2 + l2Offset
    let l2FirstL1 := l2 * 64
    let firstL1 := max (start / samplesPerL1Bit) l2FirstL1
    let lastL1 := (stop - 1) / samplesPerL1Bit
    let l1End := min (lastL1 + 1) (l2FirstL1 + 64)
    match levels.l1Toggle[l2]? with
    | none => return some none
    | some word =>
      let lo ← Checked.sub firstL1 l2FirstL1
      let hi ← Checked.sub l1End l2FirstL1
      let mask ← checkedRangeMask lo hi
      match nonzeroTrailingBit (word &&& mask) with
      | some l1Offset => return some (some (l2FirstL1 + l1Offset))
      | none => l2Loop levels start stop l3FirstL2 offsets

def l3Loop (levels : LevelsView) (start stop : Nat) : Nat → Nat → Query (Option Nat)
  | 0, _ => .done none
  | remaining + 1, l3 =>
    if bit levels.l3Toggle l3 then do
      let l3FirstL2 := l3 * 64
      let firstL2 := max (start / samplesPerL2Bit) l3FirstL2
      let lastL2 := (stop - 1) / samplesPerL2Bit
      let l2End := min (lastL2 + 1) (l3FirstL2 + 64)
      match levels.l2Toggle[l3]? with
      | none => return none
      | some word =>
        let lo ← Checked.sub firstL2 l3FirstL2
        let hi ← Checked.sub l2End l3FirstL2
        let mask ← checkedRangeMask lo hi
        match ← l2Loop levels start stop l3FirstL2 (wordBits (word &&& mask)) with
        | some found => return found
        | none => l3Loop levels start stop remaining (l3 + 1)
    else l3Loop levels start stop remaining (l3 + 1)

/-- The first active L1 group of `start..stop`, from the L3 summary down. -/
def nextIndexedL1Group (levels : LevelsView) (start stop : Nat) : Query (Option Nat) :=
  if stop ≤ start then .done none
  else do
    let last ← Checked.sub stop 1
    let firstL3 := start / samplesPerL3Bit
    let lastL3 := min (last / samplesPerL3Bit) 63
    l3Loop levels start stop (lastL3 + 1 - firstL3) firstL3

def saturatingMul (a b : Nat) : Nat := min (a * b) u64Max

def LeafView.nextGroup (leaf : LeafView) (start stop : Nat) : Query (Option Nat) :=
  match leaf.levels with
  | none => .done none
  | some levels => nextIndexedL1Group levels start stop

def exactScanBaseMaxSamples : Nat := 4096

def exactWindowSampleLimit (targetPoints : Nat) : Nat :=
  max exactScanBaseMaxSamples (saturatingMul (max targetPoints 1) samplesPerL1Bit)

namespace IndexSampler

variable (sampler : IndexSampler)

def loadRootSummary (channel block : Nat) : Query RootDirEntry :=
  match sampler.directory[channel]?.bind fun blocks => blocks[block]? with
  | none => .failed (.parseError "block index out of bounds")
  | some entry => .done entry

def loadLeaf (channel block : Nat) : Query LeafView :=
  match sampler.directory[channel]?.bind fun blocks => blocks[block]? with
  | none => .failed (.parseError "block index out of bounds")
  | some entry =>
    let ordinal := channel * (sampler.directory.head?.map List.length).getD 0 + block
    if 2 ^ 64 ≤ ordinal then .failed (.parseError "waveform-index leaf ordinal overflow")
    else do
      let region ← Checked.ofExcept (sampler.loadSegment (ordinal / 64))
      let stop := entry.offset + entry.len
      if 2 ^ 64 ≤ stop then .failed (.parseError "waveform-index leaf range overflow")
      else if region.length < stop then .failed (.parseError "waveform index leaf is truncated")
      else do
        let leaf ← leafView ((region.take stop).drop entry.offset)
        let blockStart ← Checked.mul block sampler.header.samplesPerBlock
        let expectedSamples :=
          min (min (sampler.header.totalSamples - blockStart) sampler.header.samplesPerBlock) u32Limit
        if leaf.validSamples ≠ expectedSamples then .failed (.parseError "invalid waveform-index leaf length")
        else return leaf

def valueAt (channel position : Nat) : Query Bool :=
  if sampler.header.totalProbes ≤ channel then .failed (.invalidProbe channel)
  else if sampler.header.totalSamples ≤ position then .failed (.outOfBounds position)
  else do
    let block ← Checked.div position sampler.header.samplesPerBlock
    let data ← Checked.ofExcept (sampler.cachedPackedBlock channel block)
    let offset ← Checked.rem position sampler.header.samplesPerBlock
    return packedBit data offset

def previousLast (channel block : Nat) : Query (Option Bool) :=
  if block = 0 then .done none
  else do
    let previous ← Checked.sub block 1
    let root ← sampler.loadRootSummary channel previous
    return some root.last

def enteringLevel (channel block wordStart : Nat) (data : Bytes) (word : BitWord) : Query Bool :=
  if 0 < wordStart then .done (packedBit data (wordStart - 1))
  else do
    let previous ← sampler.previousLast channel block
    return previous.getD (bit word 0)

def nextRawTransition (channel block localStart localEnd : Nat) : Query (Option LevelTransition) :=
  if localEnd ≤ localStart then .done none
  else do
    let blockStart ← Checked.mul block sampler.header.samplesPerBlock
    let data ← Checked.ofExcept (sampler.cachedPackedBlock channel block)
    let wordStart := localStart / 64 * 64
    let word ← readLeWord data (localStart / 64)
    let entering ← sampler.enteringLevel channel block wordStart data word
    let lo ← Checked.sub localStart wordStart
    let hi ← Checked.sub localEnd wordStart
    let mask ← checkedRangeMask lo hi
    let toggles := (word ^^^ ((word <<< 1) ||| BitVec.ofNat 64 entering.toNat)) &&& mask
    match nonzeroTrailingBit toggles with
    | none => return none
    | some bitIndex =>
      let sample ← Checked.add blockStart (wordStart + bitIndex)
      return some ⟨sample, bit word bitIndex⟩

def transitionLoop (channel limit : Nat) : Nat → Nat → Query (Option LevelTransition)
  | 0, _ => .aborted .unfinished
  | fuel + 1, search =>
    if limit ≤ search then .done none
    else do
      let block ← Checked.div search sampler.header.samplesPerBlock
      let blockStart ← Checked.mul block sampler.header.samplesPerBlock
      let blockLimit := min (saturatingAdd blockStart sampler.header.samplesPerBlock) limit
      let localLimit ← Checked.sub blockLimit blockStart
      let root ← sampler.loadRootSummary channel block
      if !root.toggle then transitionLoop channel limit fuel blockLimit
      else do
        let localSearch ← Checked.sub search blockStart
        let leaf ← sampler.loadLeaf channel block
        match ← leaf.nextGroup localSearch localLimit with
        | none => transitionLoop channel limit fuel blockLimit
        | some l1Group =>
          let groupStart ← Checked.mul l1Group samplesPerL1Bit
          let scanStart := max localSearch groupStart
          let groupEnd ← Checked.add groupStart samplesPerL1Bit
          let scanEnd := min localLimit groupEnd
          match ← sampler.nextRawTransition channel block scanStart scanEnd with
          | some transition => return some transition
          | none =>
            let next ← Checked.add blockStart scanEnd
            transitionLoop channel limit fuel next

def nextTransition (channel position limit : Nat) : Query (Option LevelTransition) :=
  if sampler.header.totalProbes ≤ channel then .failed (.invalidProbe channel)
  else
    let limit := min limit sampler.header.totalSamples
    if 2 ^ 64 ≤ position + 1 then .done none
    else if limit ≤ position + 1 then .done none
    else sampler.transitionLoop channel limit (limit - position) (position + 1)

/-- The bits of one word of `append_raw_transitions`, up to the room that is left. -/
def appendBits (blockStart wordStart : Nat) (word : BitWord) (maxTransitions : Nat) :
    List Nat → List LevelTransition → Query (List LevelTransition)
  | [], output => .done output
  | bitIndex :: bits, output =>
    if output.length < maxTransitions then do
      let sample ← Checked.add blockStart (wordStart + bitIndex)
      appendBits blockStart wordStart word maxTransitions bits (output ++ [⟨sample, bit word bitIndex⟩])
    else .done output

def appendRawTransitions (data : Bytes) (blockStart localStart localEnd : Nat) (previousBlockLast : Option Bool)
    (maxTransitions : Nat) (output : List LevelTransition) : Query (List LevelTransition) :=
  if localEnd ≤ localStart ∨ maxTransitions ≤ output.length then .done output
  else do
    let wordStart := localStart / 64 * 64
    let word ← readLeWord data (localStart / 64)
    let entering := if 0 < wordStart then packedBit data (wordStart - 1) else previousBlockLast.getD (bit word 0)
    let lo ← Checked.sub localStart wordStart
    let hi ← Checked.sub localEnd wordStart
    let mask ← checkedRangeMask lo hi
    let toggles := (word ^^^ ((word <<< 1) ||| BitVec.ofNat 64 entering.toNat)) &&& mask
    appendBits blockStart wordStart word maxTransitions (wordBits toggles) output

/-- The inner loop of `next_transitions`, over the active groups of one block. -/
def groupLoop (data : Bytes) (levels : LevelsView) (blockStart localLimit : Nat) (previousBlockLast : Option Bool)
    (maxTransitions : Nat) : Nat → Nat → List LevelTransition → Query (Nat × List LevelTransition)
  | 0, _, _ => .aborted .unfinished
  | fuel + 1, localSearch, output =>
    if localLimit ≤ localSearch ∨ maxTransitions ≤ output.length then .done (localSearch, output)
    else do
      match ← nextIndexedL1Group levels localSearch localLimit with
      | none => return (localSearch, output)
      | some l1Group =>
        let groupStart ← Checked.mul l1Group samplesPerL1Bit
        let groupEnd ← Checked.add groupStart samplesPerL1Bit
        let scanEnd := min localLimit groupEnd
        let output ← appendRawTransitions data blockStart (max localSearch groupStart) scanEnd previousBlockLast
          maxTransitions output
        groupLoop data levels blockStart localLimit previousBlockLast maxTransitions fuel scanEnd output

def transitionsLoop (channel limit maxTransitions : Nat) : Nat → Nat → List LevelTransition →
    Query (List LevelTransition)
  | 0, _, _ => .aborted .unfinished
  | fuel + 1, search, output =>
    if limit ≤ search ∨ maxTransitions ≤ output.length then .done output
    else do
      let block ← Checked.div search sampler.header.samplesPerBlock
      let blockStart ← Checked.mul block sampler.header.samplesPerBlock
      let blockLimit := min (saturatingAdd blockStart sampler.header.samplesPerBlock) limit
      let localLimit ← Checked.sub blockLimit blockStart
      let root ← sampler.loadRootSummary channel block
      if !root.toggle then transitionsLoop channel limit maxTransitions fuel blockLimit output
      else do
        let data ← Checked.ofExcept (sampler.cachedPackedBlock channel block)
        let leaf ← sampler.loadLeaf channel block
        match leaf.levels with
        | none => transitionsLoop channel limit maxTransitions fuel blockLimit output
        | some levels =>
          let previousBlockLast ← sampler.previousLast channel block
          let localSearch ← Checked.sub search blockStart
          let (localSearch, output) ← groupLoop data levels blockStart localLimit previousBlockLast maxTransitions
            (localLimit + 1 - localSearch) localSearch output
          let next ← Checked.add blockStart localSearch
          let left ← nextIndexedL1Group levels localSearch localLimit
          transitionsLoop channel limit maxTransitions fuel (if left.isNone then blockLimit else next) output

/-- Up to `max_transitions` transitions after `position` and before `limit`. -/
def nextTransitions (channel position limit maxTransitions : Nat) : Query (List LevelTransition) :=
  if sampler.header.totalProbes ≤ channel then .failed (.invalidProbe channel)
  else if maxTransitions = 0 then .done []
  else
    let limit := min limit sampler.header.totalSamples
    if 2 ^ 64 ≤ position + 1 then .done []
    else if limit ≤ position + 1 then .done []
    else sampler.transitionsLoop channel limit maxTransitions (limit - position) (position + 1) []

def pushToggles (blockStart wordIndex : Nat) (word : BitWord) : List Nat → List LevelTransition →
    Query (List LevelTransition)
  | [], transitions => .done transitions
  | bitIndex :: bits, transitions => do
    let sample ← Checked.add blockStart (wordIndex * 64 + bitIndex)
    pushToggles blockStart wordIndex word bits (transitions ++ [⟨sample, bit word bitIndex⟩])

def wordLoop (data : Bytes) (blockStart loLocal hiLocal : Nat) : Nat → Nat → Bool → List LevelTransition →
    Query (Bool × List LevelTransition)
  | 0, _, current, transitions => .done (current, transitions)
  | remaining + 1, wordIndex, current, transitions => do
    let word ← readLeWord data wordIndex
    let lo := if wordIndex = loLocal / 64 then loLocal % 64 else 0
    let hi ← (if wordIndex = (hiLocal - 1) / 64 then Checked.sub hiLocal (wordIndex * 64) else .done 64)
    let mask ← checkedRangeMask lo hi
    let toggles := (word ^^^ ((word <<< 1) ||| BitVec.ofNat 64 current.toNat)) &&& mask
    let transitions ← pushToggles blockStart wordIndex word (wordBits toggles) transitions
    let last ← Checked.sub hi 1
    wordLoop data blockStart loLocal hiLocal remaining (wordIndex + 1) (bit word last) transitions

def blockLoop (channel startSample endSample : Nat) : Nat → Nat → Bool → List LevelTransition →
    Query (List LevelTransition)
  | 0, _, _, transitions => .done transitions
  | remaining + 1, block, current, transitions => do
    let data ← Checked.ofExcept (sampler.cachedPackedBlock channel block)
    let blockStart ← Checked.mul block sampler.header.samplesPerBlock
    let blockEnd := min (saturatingAdd blockStart sampler.header.samplesPerBlock) endSample
    let second ← Checked.add startSample 1
    let scanStart := max blockStart second
    if blockEnd ≤ scanStart then blockLoop channel startSample endSample remaining (block + 1) current transitions
    else do
      let loLocal ← Checked.sub scanStart blockStart
      let hiLocal ← Checked.sub blockEnd blockStart
      let lastLocal ← Checked.sub hiLocal 1
      let (current, transitions) ← wordLoop data blockStart loLocal hiLocal (lastLocal / 64 + 1 - loLocal / 64)
        (loLocal / 64) current transitions
      blockLoop channel startSample endSample remaining (block + 1) current transitions

def channelName (channel : Nat) : String := (sampler.header.probeNames[channel]?).getD s!"Probe{channel}"

def exactSampledChannel (channel startSample endSample : Nat) : Query SampledChannel :=
  if sampler.header.totalProbes ≤ channel then .failed (.invalidProbe channel)
  else do
    let firstBlock ← Checked.div startSample sampler.header.samplesPerBlock
    let last ← Checked.sub endSample 1
    let lastBlock ← Checked.div last sampler.header.samplesPerBlock
    let data ← Checked.ofExcept (sampler.cachedPackedBlock channel firstBlock)
    let offset ← Checked.rem startSample sampler.header.samplesPerBlock
    let initial := packedBit data offset
    let transitions ← sampler.blockLoop channel startSample endSample (lastBlock + 1 - firstBlock) firstBlock initial []
    return { channel, name := sampler.channelName channel, initial, transitions, waveform := [] }

def bitmapBit (map : Bitmap) (group : Nat) : Query Bool := do
  let word ← Checked.index map (group / 64)
  return bit word (group % 64)

def levelBefore (last : Bitmap) (first : Bool) (group : Nat) : Query Bool :=
  if group = 0 then .done first else bitmapBit last (group - 1)

def groupRangeSummary (toggle last : Bitmap) (first : Bool) (firstGroup lastGroup : Nat) : Query WaveformSummary := do
  let first ← levelBefore last first firstGroup
  let last ← bitmapBit last lastGroup
  let active ← bitRangeAny toggle firstGroup lastGroup
  return ⟨first, active || first != last, last⟩

def blockLocalDisplaySummary (channel block localStart localEnd groupSamples : Nat) : Query WaveformSummary := do
  let blockStart ← Checked.mul block sampler.header.samplesPerBlock
  let validEnd := min (sampler.header.totalSamples - blockStart) sampler.header.samplesPerBlock
  if localStart = 0 ∧ validEnd ≤ localEnd then
    let entry ← sampler.loadRootSummary channel block
    return ⟨entry.first, entry.toggle, entry.last⟩
  else if samplesPerL3Bit ≤ groupSamples then
    let entry ← sampler.loadRootSummary channel block
    if !entry.toggle then return ⟨entry.first, false, entry.last⟩
    else
      let lastLocal ← Checked.sub localEnd 1
      let firstGroup := min (localStart / samplesPerL3Bit) 63
      let lastGroup := min (lastLocal / samplesPerL3Bit) 63
      groupRangeSummary [entry.l3Toggle] [entry.l3Last] entry.first firstGroup lastGroup
  else
    let leaf ← sampler.loadLeaf channel block
    match leaf.levels with
    | none => return ⟨leaf.first, false, leaf.last⟩
    | some levels =>
      let lastLocal ← Checked.sub localEnd 1
      if samplesPerL2Bit ≤ groupSamples then
        groupRangeSummary levels.l2Toggle levels.l2Last leaf.first (min (localStart / samplesPerL2Bit) 4095)
          (min (lastLocal / samplesPerL2Bit) 4095)
      else
        groupRangeSummary levels.l1Toggle levels.l1Last leaf.first (min (localStart / samplesPerL1Bit) 262143)
          (min (lastLocal / samplesPerL1Bit) 262143)

def indexedInitialValue (channel sample groupSamples : Nat) : Query Bool := do
  let block ← Checked.div sample sampler.header.samplesPerBlock
  let offset ← Checked.rem sample sampler.header.samplesPerBlock
  let next ← Checked.add offset 1
  let summary ← sampler.blockLocalDisplaySummary channel block offset next groupSamples
  return summary.first

def displayLoop (channel startSample endSample groupSamples : Nat) : Nat → Nat → Option Bool → Bool → Bool →
    Query (Option Bool × Bool × Bool)
  | 0, _, first, toggle, last => .done (first, toggle, last)
  | remaining + 1, block, first, toggle, last => do
    let blockStart ← Checked.mul block sampler.header.samplesPerBlock
    let localStart := startSample - blockStart
    let localEnd := min (endSample - blockStart) sampler.header.samplesPerBlock
    if localEnd ≤ localStart then
      displayLoop channel startSample endSample groupSamples remaining (block + 1) first toggle last
    else do
      let summary ← sampler.blockLocalDisplaySummary channel block localStart localEnd groupSamples
      let rangeFirst := first.getD summary.first
      displayLoop channel startSample endSample groupSamples remaining (block + 1) (some rangeFirst)
        (toggle || (summary.toggle || summary.first != last || rangeFirst != summary.last)) summary.last

def indexedDisplayRangeSummary (channel startSample endSample groupSamples : Nat) (fallbackFirst : Bool) :
    Query WaveformSummary := do
  let firstBlock ← Checked.div startSample sampler.header.samplesPerBlock
  let lastBlock ← Checked.div (endSample - 1) sampler.header.samplesPerBlock
  let (first, toggle, last) ← sampler.displayLoop channel startSample endSample groupSamples
    (lastBlock + 1 - firstBlock) firstBlock none false fallbackFirst
  return ⟨first.getD fallbackFirst, toggle, last⟩

def checkedPixelStart (grid : WaveformSummaryGrid) (point : Nat) : Query Nat :=
  Checked.add grid.startSample (saturatingMul (grid.gridEndSample - grid.startSample) point / grid.points)

def checkedPixelEnd (grid : WaveformSummaryGrid) (next : Nat) : Query Nat :=
  if next = grid.points then .done grid.gridEndSample else checkedPixelStart grid next

/-- The loop of `sample_waveform_summary_channel`. -/
def pixelLoop (grid : WaveformSummaryGrid) (summarize : Nat → Nat → Bool → Query WaveformSummary) :
    Nat → Nat → PixelState → Query PixelState
  | 0, _, state => .done state
  | remaining + 1, point, state => do
    let visibleStart ← checkedPixelStart grid point
    if grid.availableEndSample ≤ visibleStart then return state
    else do
      let next ← Checked.add point 1
      let gridStop ← checkedPixelEnd grid next
      let visibleEnd := min gridStop grid.availableEndSample
      if visibleEnd ≤ visibleStart ∨ visibleStart < state.previousEnd then
        pixelLoop grid summarize remaining next state
      else do
        let summary ← summarize visibleStart visibleEnd state.previousValue
        pixelLoop grid summarize remaining next
          { previousEnd := visibleEnd
            previousValue := summary.last
            waveform := appendPixelWaveform visibleStart visibleEnd summary state.previousValue state.waveform }

def sampleIndexedChannel (channel startSample endSample targetPoints groupSamples : Nat) : Query SampledChannel :=
  if sampler.header.totalProbes ≤ channel then .failed (.invalidProbe channel)
  else do
    let initial ← sampler.indexedInitialValue channel startSample groupSamples
    let grid : WaveformSummaryGrid := ⟨startSample, endSample, endSample, targetPoints⟩
    let state ← pixelLoop grid
      (fun visibleStart visibleEnd previousValue =>
        sampler.indexedDisplayRangeSummary channel visibleStart visibleEnd groupSamples previousValue)
      grid.points 0 ⟨startSample, initial, []⟩
    return { channel, name := sampler.channelName channel, initial, transitions := [], waveform := state.waveform }

def eachChannel (sample : Nat → Query SampledChannel) : List Nat → Query (List SampledChannel)
  | [] => .done []
  | channel :: channels => do
    let first ← sample channel
    let rest ← eachChannel sample channels
    return first :: rest

def sampledWindow (channels : List Nat) (startSample endSample targetPoints : Nat) : Query SampledWindow := do
  let totalSamples := sampler.header.totalSamples
  let startSample := min startSample (totalSamples - 1)
  let second ← Checked.add startSample 1
  let endSample ← Checked.clamp endSample second totalSamples
  let samples ← Checked.sub endSample startSample
  let targetPoints := max targetPoints 1
  if samples ≤ exactWindowSampleLimit targetPoints then
    let channels ← eachChannel (fun channel => sampler.exactSampledChannel channel startSample endSample) channels
    return ⟨startSample, endSample, 1, channels⟩
  else
    let groupSamples ← Checked.ofOption .expectation (selectWaveformSummaryResolution samples targetPoints
      [samplesPerL1Bit, samplesPerL2Bit, samplesPerL3Bit, sampler.header.samplesPerBlock])
    let channels ← eachChannel (fun channel =>
      sampler.sampleIndexedChannel channel startSample endSample targetPoints groupSamples) channels
    return ⟨startSample, endSample, groupSamples, channels⟩

end IndexSampler

end LogicConduit
