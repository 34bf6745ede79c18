import LogicConduit.SigrokExport
import LogicConduit.StableSort

namespace LogicConduit

/-- The errors of `signal_capture` that an archive or its reader returns. -/
inductive SigrokError
  | parseError (message : String)
  | io (message : String)
  deriving DecidableEq

def parseError {α : Type} (message : String) : Except SigrokError α := .error (.parseError message)

structure CaptureArchive where
  entryNames : List Text
  readEntry : Text → Except SigrokError (Option Bytes)

/-- The zip library returns the entries as they were written, their names in any order. -/
structure CaptureArchive.Holds (archive : CaptureArchive) (entries : List ArchiveEntry) : Prop where
  names : archive.entryNames.Perm (entries.map Prod.fst)
  data : ∀ entry ∈ entries, archive.readEntry entry.1 = .ok (some entry.2)

structure CaptureMetadata (floats : FloatOps) where
  totalProbes : Nat
  samplerate : Text
  samplerateHz : floats.Value
  samplePeriod : floats.Value
  totalSamples : Nat
  totalBlocks : Nat
  samplesPerBlock : Nat
  probeNames : List Text
  triggerSample : Option Nat

structure SigrokCapture (floats : FloatOps) where
  header : CaptureMetadata floats
  samples : Bytes
  unitsize : Nat

/-- An index behind the samples panics. -/
def SigrokCapture.valueAt {floats : FloatOps} (capture : SigrokCapture floats) (channel position : Nat) : Option Bool :=
  capture.samples[position * capture.unitsize + channel / 8]?.map fun byte => byte.toNat.testBit (channel % 8)

def readArchiveText (archive : CaptureArchive) (name : Text) : Except SigrokError Text := do
  match ← archive.readEntry name with
  | none => parseError s!"missing required field: {String.ofList name}"
  | some contents =>
    match fromUtf8 contents with
    | none => parseError s!"capture field is not UTF-8: {String.ofList name}"
    | some text => return text.toList

/-- A line of the metadata: a comment, the head of a section, or a field of the current section. -/
def iniLine (state : TextMap (TextMap Text) × Text) (line : Text) : TextMap (TextMap Text) × Text :=
  if line = [] ∨ line.head? = some '#' then state
  else
    match (stripFront ['['] line).bind (stripSuffix ']') with
    | some name => (state.1, name)
    | none =>
      match splitOnce '=' line with
      | some (key, value) =>
        (state.1.insert state.2 ((state.1[state.2]?.getD ∅).insert (trim key) (trim value)), state.2)
      | none => state

def parseIni (text : Text) : TextMap (TextMap Text) := (((lines text).map trim).foldl iniLine (∅, [])).1

def required (values : TextMap Text) (key : Text) : Except SigrokError Text :=
  match values[key]? with
  | some value => .ok value
  | none => parseError s!"missing required field: device X.{String.ofList key}"

def parseSampleRate (floats : FloatOps) (rate : Text) : Option floats.Value :=
  match splitWhitespace rate with
  | value :: unit :: _ =>
    (floats.parse value).bind fun value =>
      if unit = "GHz".toList then some (floats.mul value floats.billion)
      else if unit = "MHz".toList then some (floats.mul value floats.million)
      else if unit = "KHz".toList ∨ unit = "kHz".toList then some (floats.mul value floats.thousand)
      else if unit = "Hz".toList then some (floats.mul value floats.one)
      else none
  | _ => none

/-- A number of the device section. -/
def parsedField (values : TextMap Text) (key : Text) : Except SigrokError Nat := do
  match parseUnsigned (← required values key) with
  | some value => return value
  | none => parseError s!"invalid device X.{String.ofList key}"

def triggerField (values : TextMap Text) : Except SigrokError (Option Nat) :=
  match values["trigger sample".toList]? with
  | none => .ok none
  | some sample =>
    match parseUnsigned sample with
    | some sample => .ok (some sample)
    | none => parseError "invalid device X.trigger sample"

def entryNumber (capturefile name : Text) : Option Nat := (stripFront (capturefile ++ ['-']) name).bind parseUnsigned

def logicEntries (archive : CaptureArchive) (capturefile : Text) : List Text :=
  sortBy (fun name => (entryNumber capturefile name).getD 0)
    (archive.entryNames.filter fun name => name = capturefile ∨ (entryNumber capturefile name).isSome)

/-- The data of the entries, one after the other. -/
def readSamples (archive : CaptureArchive) : List Text → Except SigrokError Bytes
  | [] => .ok []
  | name :: names => do
    match ← archive.readEntry name with
    | none => parseError s!"missing capture data entry: {String.ofList name}"
    | some logic => return logic ++ (← readSamples archive names)

def checkVersion (archive : CaptureArchive) : Except SigrokError Unit := do
  let version := trim (← readArchiveText archive "version".toList)
  if version = "1".toList ∨ version = "2".toList then return ()
  else parseError s!"unsupported sigrok session version '{String.ofList version}' (expected 1 or 2)"

def isDevice (item : Text × TextMap Text) : Bool :=
  "device ".toList.isPrefixOf item.1 && item.2.contains "capturefile".toList

def deviceSection (archive : CaptureArchive) : Except SigrokError (TextMap Text) := do
  let metadata := parseIni (← readArchiveText archive "metadata".toList)
  match metadata.toList.find? isDevice with
  | some item => return item.2
  | none => parseError "missing required field: device X.capturefile"

/-- The number of probes and the bytes of a sample. A product that overflows wraps. -/
def logicLayout (values : TextMap Text) (minimumChannels : Nat) : Except SigrokError (Nat × Nat) := do
  let totalProbes ← parsedField values "total probes".toList
  let unitsize ← parsedField values "unitsize".toList
  if unitsize = 0 ∨ totalProbes = 0 ∨ unitsize * 8 % 2 ^ 64 < totalProbes then
    parseError s!"invalid sigrok logic layout: {totalProbes} probes in {unitsize}-byte samples"
  else if totalProbes < minimumChannels then
    parseError s!"File has only {totalProbes} channels, need at least {minimumChannels}"
  else return (totalProbes, unitsize)

def sampleRateField (floats : FloatOps) (values : TextMap Text) : Except SigrokError (Text × floats.Value) := do
  let samplerate ← required values "samplerate".toList
  match parseSampleRate floats samplerate with
  | some samplerateHz => return (samplerate, samplerateHz)
  | none => parseError s!"Invalid sample rate: {String.ofList samplerate}"

def logicSamples (archive : CaptureArchive) (capturefile : Text) (unitsize : Nat) : Except SigrokError Bytes := do
  let names := logicEntries archive capturefile
  if names = [] then parseError s!"no {String.ofList capturefile} logic data found"
  else
    let samples ← readSamples archive names
    if samples.length % unitsize ≠ 0 then
      parseError s!"logic data size {samples.length} is not divisible by unitsize {unitsize}"
    else if samples.length / unitsize = 0 then parseError "logic data contains no samples"
    else return samples

def probeName (values : TextMap Text) (probe : Nat) : Text :=
  values["probe".toList ++ decimal (probe + 1)]?.getD ("Probe ".toList ++ decimal probe)

def SigrokCapture.fromArchive (floats : FloatOps) (archive : CaptureArchive) (minimumChannels : Nat) :
    Except SigrokError (SigrokCapture floats) :=
  if minimumChannels < 1 ∨ 32 < minimumChannels then
    parseError s!"num_channels must be 1-32, got {minimumChannels}"
  else do
    checkVersion archive
    let values ← deviceSection archive
    let capturefile ← required values "capturefile".toList
    let (totalProbes, unitsize) ← logicLayout values minimumChannels
    let (samplerate, samplerateHz) ← sampleRateField floats values
    let triggerSample ← triggerField values
    let samples ← logicSamples archive capturefile unitsize
    let totalSamples := samples.length / unitsize
    return {
      header := {
        totalProbes
        samplerate
        samplerateHz
        samplePeriod := floats.div floats.one samplerateHz
        totalSamples
        totalBlocks := 1
        samplesPerBlock := totalSamples
        probeNames := (List.range totalProbes).map (probeName values)
        triggerSample }
      samples
      unitsize }

end LogicConduit
