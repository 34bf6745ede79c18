import LogicConduit.WordFormat

namespace LogicConduit

open Vlq

/-- Sizing knobs of the encoded blocks. -/
structure BlockCodecConfig where
  maxWords : Nat
  restartInterval : Nat
  maxPayloadBytes : Nat
  maxInterWordGapNs : Nat
  maxTimestampSpanNs : Nat
  deriving DecidableEq

def BlockCodecConfig.default : BlockCodecConfig where
  maxWords := 131072
  restartInterval := 512
  maxPayloadBytes := 1024 * 1024
  maxInterWordGapNs := 1000000
  maxTimestampSpanNs := u64Max

def u32Max : Nat := 2 ^ 32 - 1

theorem u32_toNat_ofNat {n : Nat} (h : n ≤ u32Max) : (UInt32.ofNat n).toNat = n := by
  rw [UInt32.toNat_ofNat']
  unfold u32Max at h
  omega

/-- The sizes a builder keeps to predict where its block has to close. -/
structure BlockSizes where
  timestampBytes : Nat
  durationBytes : Nat
  durationCount : Nat
  lastDurationIndex : Nat
  payloadEntryBytes : Nat
  payloadCount : Nat
  lastPayloadIndex : Nat
  maxValue : Nat
  deriving DecidableEq

def BlockSizes.zero : BlockSizes := ⟨0, 0, 0, 0, 0, 0, 0, 0⟩

/-- Accumulates one ordered block and predicts the configured block boundaries. -/
structure WordBlockBuilder extends BlockSizes where
  config : BlockCodecConfig
  words : List Word
  deriving DecidableEq

def valueWidth (maxValue : Nat) : Nat :=
  if maxValue ≤ 0xff then 1
  else if maxValue ≤ 0xffff then 2
  else if maxValue ≤ 0xffffffff then 4
  else 8

def payloadLen : WordPayload → Nat
  | .bytes value => value.length
  | .text value => value.toByteArray.size

namespace BlockSizes

def next (sizes : BlockSizes) (index previous : Nat) (word : Word) : BlockSizes :=
  let sizes := { sizes with
    timestampBytes := sizes.timestampBytes + encodedLen (word.time - previous)
    maxValue := max sizes.maxValue word.value.toNat }
  let sizes :=
    if word.durationNs = 0 then sizes
    else
      let indexDelta := if sizes.durationCount = 0 then index else index - sizes.lastDurationIndex
      { sizes with
        durationBytes := sizes.durationBytes + encodedLen indexDelta + encodedLen word.duration
        durationCount := sizes.durationCount + 1
        lastDurationIndex := index }
  match word.payload with
  | none => sizes
  | some payload =>
    let indexDelta := if sizes.payloadCount = 0 then index else index - sizes.lastPayloadIndex
    { sizes with
      payloadEntryBytes := sizes.payloadEntryBytes + encodedLen indexDelta + 1 +
        encodedLen (payloadLen payload) + payloadLen payload
      payloadCount := sizes.payloadCount + 1
      lastPayloadIndex := index }

def first (sizes : BlockSizes) (word : Word) : BlockSizes :=
  let sizes := { sizes with
    timestampBytes := sizes.timestampBytes + encodedLen 0
    maxValue := word.value.toNat }
  let sizes :=
    if word.durationNs = 0 then sizes
    else { sizes with
      durationBytes := sizes.durationBytes + encodedLen 0 + encodedLen word.duration
      durationCount := 1
      lastDurationIndex := 0 }
  match word.payload with
  | none => sizes
  | some payload => { sizes with
      payloadEntryBytes := encodedLen 0 + 1 + encodedLen (payloadLen payload) + payloadLen payload
      payloadCount := 1
      lastPayloadIndex := 0 }

/-- Predicted bytes of a block of `wordCount` words, its header and padding apart. -/
def blockBytes (sizes : BlockSizes) (config : BlockCodecConfig) (wordCount : Nat) : Nat :=
  let recordBytes := sizes.timestampBytes + wordCount * valueWidth sizes.maxValue
  let restartCount := (wordCount + config.restartInterval - 1) / config.restartInterval
  let payloadBytes :=
    if 0 < sizes.payloadCount then encodedLen sizes.payloadCount + sizes.payloadEntryBytes else 0
  recordBytes + restartCount * restartEntrySize + sizes.durationBytes + payloadBytes

end BlockSizes

namespace WordBlockBuilder

def new (config : BlockCodecConfig) : CodecResult WordBlockBuilder :=
  if config.restartInterval = 0 then .error .invalidRestartInterval
  else if config.maxWords = 0 then
    .error (.invalidConfiguration "max_words must be greater than zero")
  else if u32Max < config.maxWords then
    .error (.invalidConfiguration "max_words must fit in u32")
  else if config.maxPayloadBytes = 0 then
    .error (.invalidConfiguration "max_payload_bytes must be greater than zero")
  else .ok { BlockSizes.zero with config, words := [] }

def isAtWordLimit (builder : WordBlockBuilder) : Bool :=
  builder.config.maxWords ≤ builder.words.length

def isDurationFree (builder : WordBlockBuilder) : Bool :=
  builder.durationCount = 0

/-- The boundary on the timeline that closes a block before `word`. -/
def closesBefore (config : BlockCodecConfig) (firstTimestamp previous : Nat) (word : Word) : Bool :=
  config.maxInterWordGapNs < word.time - previous ∨
    config.maxTimestampSpanNs < word.time - firstTimestamp

/-- The sizing loop of `extend_ordered`: how many words fit, and the sizes after them. -/
def extendLoop (config : BlockCodecConfig) (originalLen firstTimestamp : Nat) :
    List Word → Nat → BlockSizes → Option Nat → Nat × BlockSizes
  | [], accepted, sizes, _ => (accepted, sizes)
  | word :: rest, accepted, sizes, some previous =>
    let nextIndex := originalLen + accepted
    if config.maxWords ≤ nextIndex ∨ closesBefore config firstTimestamp previous word then
      (accepted, sizes)
    else
      let next := sizes.next nextIndex previous word
      if config.maxPayloadBytes < next.blockBytes config (nextIndex + 1) then (accepted, sizes)
      else extendLoop config originalLen firstTimestamp rest (accepted + 1) next (some word.time)
  | word :: rest, accepted, sizes, none =>
    extendLoop config originalLen firstTimestamp rest (accepted + 1) (sizes.first word)
      (some word.time)

/-- With no duration table the largest record is a ten-byte delta and an eight-byte value; when
that fits at the word limit, only the timestamps can close the block. -/
def durationFreePayloadFitsAtMaxWords (config : BlockCodecConfig) : Bool :=
  let restartBytes :=
    (config.maxWords + config.restartInterval - 1) / config.restartInterval * restartEntrySize
  config.maxWords * (10 + 8) + restartBytes ≤ config.maxPayloadBytes

def durationFreeLoop (config : BlockCodecConfig) (firstTimestamp : Nat) :
    List Word → Nat → BlockSizes → Option Nat → Nat × BlockSizes
  | [], accepted, sizes, _ => (accepted, sizes)
  | word :: rest, accepted, sizes, some previous =>
    if closesBefore config firstTimestamp previous word then (accepted, sizes)
    else
      let delta := word.time - previous
      let sizes := { sizes with
        timestampBytes := sizes.timestampBytes + (if delta ≤ 0x7f then 1 else encodedLen delta)
        maxValue := max sizes.maxValue word.value.toNat }
      durationFreeLoop config firstTimestamp rest (accepted + 1) sizes (some word.time)
  | word :: rest, accepted, sizes, none =>
    let sizes := { sizes with
      timestampBytes := sizes.timestampBytes + encodedLen 0
      maxValue := max sizes.maxValue word.value.toNat }
    durationFreeLoop config firstTimestamp rest (accepted + 1) sizes (some word.time)

/-- Extends the block with the largest prefix of `words` that fits, and returns its length. -/
def extendOrdered (builder : WordBlockBuilder) (words : List Word) : Nat × WordBlockBuilder :=
  let available := builder.config.maxWords - builder.words.length
  let candidates := words.take available
  let firstTimestamp := ((builder.words ++ words).head?.map Word.time).getD 0
  let previousTimestamp := builder.words.getLast?.map Word.time
  if builder.durationCount = 0 ∧ builder.payloadCount = 0 ∧
      durationFreePayloadFitsAtMaxWords builder.config ∧
      candidates.all (fun word => word.durationNs = 0 ∧ word.isNumeric) then
    let (accepted, sizes) :=
      durationFreeLoop builder.config firstTimestamp candidates 0 builder.toBlockSizes
        previousTimestamp
    (accepted, { sizes with config := builder.config, words := builder.words ++ words.take accepted })
  else
    let (accepted, sizes) :=
      extendLoop builder.config builder.words.length firstTimestamp words 0 builder.toBlockSizes
        previousTimestamp
    (accepted, { sizes with config := builder.config, words := builder.words ++ words.take accepted })

def clear (builder : WordBlockBuilder) : WordBlockBuilder :=
  { BlockSizes.zero with config := builder.config, words := [] }

end WordBlockBuilder

end LogicConduit
