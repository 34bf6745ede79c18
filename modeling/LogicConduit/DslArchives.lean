import LogicConduit.IndexQueries
import LogicConduit.SigrokRoundTrip

namespace LogicConduit

inductive DslError
  | parseError (message : String)
  | io (message : String)
  | outOfBounds (position : Nat)
  | invalidProbe (channel : Nat)
  | invalidBlock (block : Nat)
  deriving DecidableEq

structure DslArchive where
  entrySize : Text → Except DslError (Option Nat)
  readEntry : Text → Except DslError (Option Bytes)

def splitOnceAt (separator : Text) : Text → Option (Text × Text)
  | [] => none
  | c :: rest =>
    match stripFront separator (c :: rest) with
    | some back => some ([], back)
    | none => (splitOnceAt separator rest).map fun (front, back) => (c :: front, back)

structure DslHeaderFields where
  totalProbes : Option Nat
  samplerate : Option Text
  totalSamples : Option Nat
  totalBlocks : Option Nat
  triggerSample : Option Nat
  -- the name inserted last comes first
  probeNames : List (Nat × Text)

def probeLine (line : Text) : Option (Nat × Text) :=
  if "probe".toList.isPrefixOf line then
    (splitOnceAt " = ".toList line).bind fun (probePart, name) =>
      ((stripFront "probe".toList probePart).bind parseUnsigned).map fun probe => (probe, name)
  else none

/-- A line of the header. A number that cannot be read unsets its field. -/
def headerLine (fields : DslHeaderFields) (line : Text) : DslHeaderFields :=
  if line = [] then fields
  else if let some value := stripFront "total probes = ".toList line then
    { fields with totalProbes := parseUnsigned value }
  else if let some value := stripFront "samplerate = ".toList line then { fields with samplerate := some value }
  else if let some value := stripFront "total samples = ".toList line then
    { fields with totalSamples := parseUnsigned value }
  else if let some value := stripFront "total blocks = ".toList line then
    { fields with totalBlocks := parseUnsigned value }
  else if let some value := stripFront "trigger sample = ".toList line then
    { fields with triggerSample := parseUnsigned value }
  else { fields with probeNames := (probeLine line).toList ++ fields.probeNames }

def requiredField {α : Type} (field : String) : Option α → Except DslError α
  | none => .error (.parseError s!"missing required field: {field}")
  | some value => .ok value

/-- What `parse_header` reads of an archive. -/
structure DslLayout (floats : FloatOps) where
  totalProbes : Nat
  samplerate : Text
  samplerateHz : floats.Value
  totalSamples : Nat
  totalBlocks : Nat
  triggerSample : Option Nat
  probeNames : List (Nat × Text)
  firstBlockSize : Nat

namespace DslArchive

variable (archive : DslArchive) (floats : FloatOps)

def headerFields : Except DslError DslHeaderFields := do
  match ← archive.readEntry "header".toList with
  | none => .error (.parseError "Cannot find header file")
  | some contents =>
    match fromUtf8 contents with
    | none => .error (.parseError "DSL header is not UTF-8")
    | some text => return ((lines text.toList).map trim).foldl headerLine ⟨none, none, none, none, none, []⟩

def layout : Except DslError (DslLayout floats) := do
  let fields ← archive.headerFields
  let totalProbes ← requiredField "total probes" fields.totalProbes
  let samplerate ← requiredField "samplerate" fields.samplerate
  let totalSamples ← requiredField "total samples" fields.totalSamples
  let totalBlocks ← requiredField "total blocks" fields.totalBlocks
  match parseSampleRate floats samplerate with
  | none => .error (.parseError s!"Invalid sample rate: {String.ofList samplerate}")
  | some samplerateHz =>
    match ← archive.entrySize "L-0/0".toList with
    | none => .error (.parseError "Could not read first block")
    | some firstBlockSize =>
      return ⟨totalProbes, samplerate, samplerateHz, totalSamples, totalBlocks, fields.triggerSample,
        fields.probeNames, firstBlockSize⟩

end DslArchive

variable {floats : FloatOps}

/-- `collect` reserves the 24 bytes of every name at once, and panics from `isize::MAX` bytes on. -/
def DslLayout.collectNames (layout : DslLayout floats) : Checked DslError (List Text) :=
  if 24 * layout.totalProbes < 2 ^ 63 then
    .done ((List.range layout.totalProbes).map fun i =>
      (layout.probeNames.lookup i).getD ("Probe".toList ++ decimal i))
  else .aborted .overflow

def parseHeader (archive : DslArchive) (floats : FloatOps) : Checked DslError (CaptureMetadata floats) := do
  let layout ← .ofExcept (archive.layout floats)
  let samplesPerBlock ← Checked.mul layout.firstBlockSize 8
  let probeNames ← layout.collectNames
  return ⟨layout.totalProbes, layout.samplerate, layout.samplerateHz, floats.div floats.one layout.samplerateHz,
    layout.totalSamples, layout.totalBlocks, samplesPerBlock, probeNames, layout.triggerSample⟩

abbrev BlockKey := Nat × Nat

structure BlockCache where
  entries : List (BlockKey × Bytes)
  order : List BlockKey
  maxEntries : Nat

def blockName (key : BlockKey) : Text := "L-".toList ++ decimal key.1 ++ '/' :: decimal key.2

namespace BlockCache

variable (cache : BlockCache)

def touch (key : BlockKey) : BlockCache := { cache with order := cache.order.filter (· ≠ key) ++ [key] }

def remove (key : BlockKey) (order : List BlockKey) : BlockCache :=
  { cache with entries := cache.entries.filter (·.1 ≠ key), order := order }

/-- `trim_cache`, and the loop of `BoundedBlockCache::insert`, which has no end where keys run out. -/
def trim (breaks : Bool) (order : List BlockKey) (cache : BlockCache) : Checked DslError BlockCache :=
  match order with
  | [] => if breaks ∨ cache.entries.length ≤ cache.maxEntries then .done cache else .aborted .unfinished
  | oldest :: order =>
    if cache.entries.length ≤ cache.maxEntries then .done cache else trim breaks order (cache.remove oldest order)

def insert (key : BlockKey) (data : Bytes) : BlockCache :=
  { cache with entries := (key, data) :: cache.entries.filter (·.1 ≠ key) }

/-- `read_entry`, where the block is not in the cache. -/
def readBlock (archive : DslArchive) (key : BlockKey) : Checked DslError Bytes :=
  match archive.readEntry (blockName key) with
  | .error error => .failed error
  | .ok none => .failed (.invalidBlock key.2)
  | .ok (some data) => .done data

def readBlockCached (archive : DslArchive) (key : BlockKey) : Checked DslError (Bytes × BlockCache) :=
  match cache.entries.lookup key with
  | some data => .done (data, if cache.order.getLast? = some key then cache else cache.touch key)
  | none => do
    let data ← readBlock archive key
    let grown := { cache.insert key data with order := cache.order ++ [key] }
    return (data, ← grown.trim true grown.order)

def loadBlock (archive : DslArchive) (key : BlockKey) : Checked DslError (Bytes × BlockCache) :=
  match cache.entries.lookup key with
  | some data => .done (data, cache.touch key)
  | none => do
    let data ← readBlock archive key
    let grown := (cache.insert key data).touch key
    return (data, ← grown.trim false grown.order)

end BlockCache

inductive DslRead
  | bit (channel position : Nat)
  | sample (channel position : Nat)
  | packedBlock (channel block : Nat)

structure DslReaders (floats : FloatOps) where
  header : CaptureMetadata floats
  source : BlockCache
  reader : BlockCache

namespace DslReaders

variable (readers : DslReaders floats) (archive : DslArchive)

/-- What `read_bit` and `read_bit_cached` check of a position: its block, and its place there. -/
def locate (position : Nat) : Checked DslError (Nat × Nat) :=
  if readers.header.totalSamples ≤ position then .failed (.outOfBounds position)
  else do
    let blockNum ← Checked.div position readers.header.samplesPerBlock
    if readers.header.totalBlocks ≤ blockNum then .failed (.outOfBounds position)
    else return (blockNum, ← Checked.rem position readers.header.samplesPerBlock)

def read : DslRead → Checked DslError ((Bool ⊕ Bytes) × DslReaders floats)
  | .bit channel position =>
    if readers.header.totalProbes ≤ channel then .failed (.invalidProbe channel)
    else do
      let (block, sample) ← readers.locate position
      let (data, source) ← readers.source.loadBlock archive (channel, block)
      return (.inl (packedBit data sample), { readers with source })
  | .sample channel position => do
    let (block, sample) ← readers.locate position
    let (data, reader) ← readers.reader.readBlockCached archive (channel, block)
    return (.inl (packedBit data sample), { readers with reader })
  | .packedBlock channel block => do
    let (data, reader) ← readers.reader.readBlockCached archive (channel, block)
    return (.inr data, { readers with reader })

/-- Reads one after the other. One that fails leaves the readers as they are. -/
def readAll (readers : DslReaders floats) : List DslRead → Checked DslError (DslReaders floats)
  | [] => .done readers
  | read :: reads =>
    match readers.read archive read with
    | .done (_, next) => next.readAll reads
    | .failed _ => readers.readAll reads
    | .aborted cause => .aborted cause

def start (archive : DslArchive) (floats : FloatOps) : Checked DslError (DslReaders floats) := do
  let header ← parseHeader archive floats
  let windows ← Checked.mul header.totalProbes 2
  return ⟨header, ⟨[], [], max windows 1⟩, ⟨[], [], 1⟩⟩

def session (archive : DslArchive) (floats : FloatOps) (reads : List DslRead) : Checked DslError (DslReaders floats) := do
  let readers ← start archive floats
  readers.readAll archive reads

end DslReaders

namespace BlockCache

variable {cache : BlockCache} {archive : DslArchive} {key : BlockKey} {order : List BlockKey}

def Ordered (cache : BlockCache) : Prop := ∀ entry ∈ cache.entries, entry.1 ∈ cache.order

theorem Ordered.touch (h : cache.Ordered) (key : BlockKey) : (cache.touch key).Ordered := by
  intro entry hentry
  have hmem := h entry hentry
  by_cases heq : entry.1 = key <;> simp [BlockCache.touch, heq, hmem]

theorem trim_returns (breaks : Bool) (horder : cache.order = order) (h : cache.Ordered) :
    (trim breaks order cache).Returns Ordered := by
  induction order generalizing cache with
  | nil =>
    have hempty : cache.entries = [] := by
      apply List.eq_nil_iff_forall_not_mem.mpr
      intro entry hentry
      exact List.not_mem_nil (horder ▸ h entry hentry)
    rw [trim, if_pos (Or.inr (by rw [hempty]; exact Nat.zero_le _))]
    exact h
  | cons oldest order ih =>
    rw [trim]
    refine Checked.returns_ite (fun _ => h) fun _ => ih rfl ?_
    intro entry hentry
    obtain ⟨hmem, hne⟩ := List.mem_filter.mp hentry
    have hin := h entry hmem
    rw [horder] at hin
    exact (List.mem_cons.mp hin).resolve_left (of_decide_eq_true hne)

theorem readBlock_returns : (readBlock archive key).Returns fun _ => True := by
  unfold readBlock
  split <;> trivial

theorem Ordered.insert (h : cache.Ordered) (data : Bytes) (hkey : key ∈ order)
    (horder : ∀ other ∈ cache.order, other ∈ order) :
    BlockCache.Ordered { cache.insert key data with order := order } := by
  intro entry hentry
  rcases List.mem_cons.mp hentry with rfl | hentry
  · exact hkey
  · exact horder _ (h entry (List.mem_filter.mp hentry).1)

theorem readBlockCached_returns (h : cache.Ordered) :
    (cache.readBlockCached archive key).Returns fun result => result.2.Ordered := by
  unfold readBlockCached
  split
  · show BlockCache.Ordered (if _ then _ else _)
    split
    · exact h
    · exact h.touch key
  · refine readBlock_returns.bind fun data _ => (trim_returns true rfl ?_).bind fun trimmed htrimmed => htrimmed
    exact h.insert data (by simp) fun other hother => by simp [hother]

theorem loadBlock_returns (h : cache.Ordered) :
    (cache.loadBlock archive key).Returns fun result => result.2.Ordered := by
  unfold loadBlock
  split
  · exact h.touch key
  · refine readBlock_returns.bind fun data _ => (trim_returns false rfl ?_).bind fun trimmed htrimmed => htrimmed
    refine h.insert data (by simp [insert]) fun other hother => ?_
    by_cases heq : other = key <;> simp [insert, heq, hother]

end BlockCache

/-- The bytes of all names and the samples of a block can be counted, and a capture with samples has some in its
first block. -/
structure DslLayout.Safe (layout : DslLayout floats) : Prop where
  block : layout.firstBlockSize * 8 < 2 ^ 64
  names : 24 * layout.totalProbes < 2 ^ 63
  samples : layout.firstBlockSize = 0 → layout.totalSamples = 0

namespace DslReaders

variable {readers : DslReaders floats} {archive : DslArchive}

structure Sound (readers : DslReaders floats) : Prop where
  samples : readers.header.samplesPerBlock = 0 → readers.header.totalSamples = 0
  source : readers.source.Ordered
  reader : readers.reader.Ordered

theorem Sound.locate (h : readers.Sound) (position : Nat) : (readers.locate position).Returns fun _ => True := by
  refine Checked.returns_ite (fun _ => trivial) fun hlt => ?_
  have hpos : 0 < readers.header.samplesPerBlock := by
    by_contra hzero
    have htotal := h.samples (by omega)
    omega
  refine (Checked.div_returns hpos).bind fun block _ => Checked.returns_ite (fun _ => trivial) fun _ => ?_
  exact (Checked.rem_returns hpos).bind fun _ _ => trivial

theorem Sound.read (h : readers.Sound) (read : DslRead) :
    (readers.read archive read).Returns fun result => result.2.Sound := by
  cases read with
  | bit channel position =>
    refine Checked.returns_ite (fun _ => trivial) fun _ => (h.locate position).bind fun place _ => ?_
    exact (BlockCache.loadBlock_returns h.source).bind fun loaded hloaded => ⟨h.samples, hloaded, h.reader⟩
  | sample channel position =>
    refine (h.locate position).bind fun place _ => ?_
    exact (BlockCache.readBlockCached_returns h.reader).bind fun loaded hloaded => ⟨h.samples, h.source, hloaded⟩
  | packedBlock channel block =>
    exact (BlockCache.readBlockCached_returns h.reader).bind fun loaded hloaded => ⟨h.samples, h.source, hloaded⟩

theorem Sound.readAll (h : readers.Sound) (reads : List DslRead) : (readAll archive readers reads).Returns Sound := by
  induction reads generalizing readers with
  | nil => exact h
  | cons read reads ih =>
    have hread : (readers.read archive read).Returns fun result => result.2.Sound := h.read read
    rw [DslReaders.readAll]
    split
    next next hdone =>
      rw [hdone] at hread
      exact ih hread
    · exact ih h
    next habort =>
      rw [habort] at hread
      exact hread

theorem start_eq {layout : DslLayout floats} (hlayout : archive.layout floats = .ok layout)
    (hblock : layout.firstBlockSize * 8 < 2 ^ 64) (hnames : 24 * layout.totalProbes < 2 ^ 63) :
    ∃ readers : DslReaders floats, start archive floats = .done readers ∧
      readers.header.totalSamples = layout.totalSamples ∧
      readers.header.samplesPerBlock = layout.firstBlockSize * 8 ∧ readers.source.Ordered ∧ readers.reader.Ordered := by
  simp only [start, parseHeader, hlayout, Checked.ofExcept_ok, Checked.done_bind, Checked.mul_of_lt hblock,
    DslLayout.collectNames, if_pos hnames, Checked.pure_eq,
    Checked.mul_of_lt (show layout.totalProbes * 2 < 2 ^ 64 by omega)]
  exact ⟨_, rfl, rfl, rfl, nofun, nofun⟩

theorem start_returns (h : ∀ layout, archive.layout floats = .ok layout → layout.Safe) :
    (start archive floats).Returns Sound := by
  cases hlayout : archive.layout floats with
  | error error =>
    rw [start, parseHeader, hlayout]
    trivial
  | ok layout =>
    have hsafe := h layout hlayout
    obtain ⟨readers, hstart, htotal, hblock, hsource, hreader⟩ := start_eq hlayout hsafe.block hsafe.names
    rw [hstart]
    exact ⟨fun hzero => htotal.trans (hsafe.samples (by omega)), hsource, hreader⟩

end DslReaders

/-- An empty first block is a divisor of zero, and the sizes of the first block and of all names may overflow. -/
theorem dsl_archive_never_panics_iff (archive : DslArchive) (floats : FloatOps) :
    (∀ reads, (DslReaders.session archive floats reads).Returns fun _ => True) ↔
      ∀ layout, archive.layout floats = .ok layout → layout.Safe := by
  constructor
  · intro hall layout hlayout
    have hblock : layout.firstBlockSize * 8 < 2 ^ 64 := by
      by_contra hlarge
      have hparsed : parseHeader archive floats = .aborted .overflow := by
        simp only [parseHeader, hlayout, Checked.ofExcept_ok, Checked.done_bind, Checked.mul, if_neg hlarge]
        rfl
      have hnone := hall []
      rw [DslReaders.session, DslReaders.start, hparsed] at hnone
      exact hnone
    have hnames : 24 * layout.totalProbes < 2 ^ 63 := by
      by_contra hlarge
      have hparsed : parseHeader archive floats = .aborted .overflow := by
        simp only [parseHeader, hlayout, Checked.ofExcept_ok, Checked.done_bind, Checked.mul_of_lt hblock,
          DslLayout.collectNames, if_neg hlarge]
        rfl
      have hnone := hall []
      rw [DslReaders.session, DslReaders.start, hparsed] at hnone
      exact hnone
    refine ⟨hblock, hnames, fun hempty => ?_⟩
    by_contra hsamples
    obtain ⟨readers, hstart, htotal, hblock, -, -⟩ := DslReaders.start_eq hlayout hblock hnames
    have hfirst := hall [.sample 0 0]
    have hlocate : readers.locate 0 = .aborted .divideByZero := by
      rw [DslReaders.locate, if_neg (by omega), Checked.div, if_pos (by rw [hblock, hempty])]
      rfl
    have hread : readers.read archive (.sample 0 0) = .aborted .divideByZero := by
      rw [DslReaders.read, hlocate]
      rfl
    rw [DslReaders.session, hstart, Checked.done_bind, DslReaders.readAll, hread] at hfirst
    exact hfirst
  · intro hsafe reads
    refine ((DslReaders.start_returns hsafe).bind fun readers hsound => hsound.readAll reads).mono ?_
    exact fun _ _ => trivial

def emptyBlockHeader : String := "total probes = 1\nsamplerate = 1 Hz\ntotal samples = 1\ntotal blocks = 1"

def emptyBlockArchive : DslArchive where
  entrySize _ := .ok (some 0)
  readEntry _ := .ok (some (utf8Bytes emptyBlockHeader))

theorem empty_block_panics :
    DslReaders.session emptyBlockArchive wholeRates [.bit 0 0] = .aborted .divideByZero := by
  have hread : emptyBlockArchive.readEntry = fun _ => .ok (some (utf8Bytes emptyBlockHeader)) := rfl
  have hlayout : emptyBlockArchive.layout wholeRates =
      .ok ⟨1, "1 Hz".toList, (1 : Nat), 1, 1, none, [], 0⟩ := by
    simp only [DslArchive.layout, DslArchive.headerFields, hread, fromUtf8_utf8Bytes, bind, Except.bind]
    rfl
  rw [DslReaders.session, DslReaders.start, parseHeader, hlayout]
  rfl

end LogicConduit
