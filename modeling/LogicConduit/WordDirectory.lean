import LogicConduit.WordRoundTrip
import LogicConduit.WordStore

namespace LogicConduit

namespace BlockDirectoryEntry

def dataEnd (entry : BlockDirectoryEntry) : Nat := entry.dataOffset + entry.blockLen.toNat

def segmentEnd (entry : BlockDirectoryEntry) : Nat := entry.segmentOffset + entry.blockLen.toNat

end BlockDirectoryEntry

def dataEnd (directory : List BlockDirectoryEntry) : Nat :=
  (directory.getLast?.map (·.dataEnd)).getD 0

def segmentEnd (directory : List BlockDirectoryEntry) : Nat :=
  (directory.getLast?.map (·.segmentEnd)).getD 0

def segmentCount (directory : List BlockDirectoryEntry) : Nat :=
  (directory.getLast?.map (·.segmentSequence + 1)).getD 0

section

variable (directory : List BlockDirectoryEntry)
include directory

section

variable (entry : BlockDirectoryEntry)
include entry

@[simp] theorem dataEnd_append :
    dataEnd (directory ++ [entry]) = entry.dataEnd := by simp [dataEnd]

@[simp] theorem segmentEnd_append :
    segmentEnd (directory ++ [entry]) = entry.segmentEnd := by simp [segmentEnd]

@[simp] theorem segmentCount_append :
    segmentCount (directory ++ [entry]) = entry.segmentSequence + 1 := by simp [segmentCount]

end

end

variable {k : Nat}

theorem getElem?_snoc {α : Type} {xs : List α} {x y : α} (h : (xs ++ [x])[k]? = some y) :
    xs[k]? = some y ∨ k = xs.length ∧ y = x := by
  rcases Nat.lt_or_ge k xs.length with hlt | hge
  · rw [List.getElem?_append_left hlt] at h
    exact Or.inl h
  · have hk := (List.getElem?_eq_some_iff.mp h).1
    rw [List.length_append, List.length_singleton] at hk
    obtain rfl : k = xs.length := by omega
    exact Or.inr ⟨rfl, by simpa using h.symm⟩

/-- A block at `offset` of segment `sequence` comes right behind the directory: at the end of its
last segment or at the start of the next one. -/
def Continues (directory : List BlockDirectoryEntry) (sequence offset : Nat) : Prop :=
  sequence = segmentCount directory ∧ offset = 0 ∨
    sequence + 1 = segmentCount directory ∧ offset = segmentEnd directory

inductive Layout : List BlockDirectoryEntry → Prop
  | nil : Layout []
  | snoc {directory : List BlockDirectoryEntry} {entry : BlockDirectoryEntry} (prior : Layout directory)
      (data : entry.dataOffset = dataEnd directory)
      (place : Continues directory entry.segmentSequence entry.segmentOffset) :
      Layout (directory ++ [entry])

namespace Layout

variable {directory : List BlockDirectoryEntry} {entry : BlockDirectoryEntry}

section

variable (h : Layout directory)
include h

theorem segment_lt (hm : entry ∈ directory) : entry.segmentSequence < segmentCount directory := by
  induction h with
  | nil => simp at hm
  | snoc prior data place ih =>
    rw [segmentCount_append]
    rcases List.mem_append.mp hm with hm | hm
    · have := ih hm
      rcases place with ⟨hs, -⟩ | ⟨hs, -⟩ <;> omega
    · rw [List.mem_singleton.mp hm]
      omega

theorem segmentCount_le : segmentCount directory ≤ directory.length := by
  induction h with
  | nil => exact le_rfl
  | snoc prior data place ih =>
    rw [segmentCount_append, List.length_append, List.length_singleton]
    rcases place with ⟨hs, -⟩ | ⟨hs, -⟩ <;> omega

theorem segmentEnd_le : segmentEnd directory ≤ dataEnd directory := by
  induction h with
  | nil => exact le_rfl
  | snoc prior data place ih =>
    rw [segmentEnd_append, dataEnd_append, BlockDirectoryEntry.segmentEnd, BlockDirectoryEntry.dataEnd, data]
    rcases place with ⟨-, ho⟩ | ⟨-, ho⟩ <;> omega

theorem end_le (hm : entry ∈ directory) :
    entry.segmentEnd ≤ entry.dataEnd ∧ entry.dataEnd ≤ dataEnd directory := by
  induction h with
  | nil => simp at hm
  | snoc prior data place ih =>
    rw [dataEnd_append]
    rcases List.mem_append.mp hm with hm | hm
    · obtain ⟨hs, hd⟩ := ih hm
      refine ⟨hs, hd.trans ?_⟩
      rw [BlockDirectoryEntry.dataEnd, data]
      omega
    · rw [List.mem_singleton.mp hm]
      refine ⟨?_, le_rfl⟩
      have := prior.segmentEnd_le
      rw [BlockDirectoryEntry.segmentEnd, BlockDirectoryEntry.dataEnd, data]
      rcases place with ⟨-, ho⟩ | ⟨-, ho⟩ <;> omega

end

def blockBytes (entries : List BlockDirectoryEntry) : Nat := (entries.map (·.blockLen.toNat)).sum

@[simp] theorem blockBytes_append (entries more : List BlockDirectoryEntry) :
    blockBytes (entries ++ more) = blockBytes entries + blockBytes more := by simp [blockBytes]

theorem dataEnd_eq (h : Layout directory) : dataEnd directory = blockBytes directory := by
  induction h with
  | nil => rfl
  | snoc prior data place ih =>
    rw [dataEnd_append, BlockDirectoryEntry.dataEnd, data, ih, blockBytes_append]
    simp [blockBytes]

def inSegment (sequence : Nat) (entries : List BlockDirectoryEntry) : List BlockDirectoryEntry :=
  entries.filter (·.segmentSequence = sequence)

theorem inSegment_next (h : Layout directory) : inSegment (segmentCount directory) directory = [] := by
  rw [inSegment, List.filter_eq_nil_iff]
  intro entry hm
  have := h.segment_lt hm
  simp
  omega

theorem segmentEnd_eq (h : Layout directory) {sequence : Nat} (hs : sequence + 1 = segmentCount directory) :
    segmentEnd directory = blockBytes (inSegment sequence directory) := by
  induction h with
  | nil => simp [segmentCount] at hs
  | @snoc directory entry prior data place ih =>
    rw [segmentCount_append] at hs
    obtain rfl : sequence = entry.segmentSequence := by omega
    rw [segmentEnd_append, BlockDirectoryEntry.segmentEnd, inSegment, List.filter_append, blockBytes_append]
    have hlast : blockBytes ([entry].filter (·.segmentSequence = entry.segmentSequence)) = entry.blockLen.toNat := by
      simp [blockBytes]
    rw [hlast]
    rcases place with ⟨hp, ho⟩ | ⟨hp, ho⟩
    · have hnone := prior.inSegment_next
      rw [inSegment, ← hp] at hnone
      rw [hnone, ho]
      rfl
    · rw [ho, ih hp]
      rfl

/-- Where an entry lies: behind all earlier blocks of the data, and behind all earlier blocks of its
segment. -/
theorem offsets (h : Layout directory) (hk : directory[k]? = some entry) :
    entry.dataOffset = blockBytes (directory.take k) ∧
      entry.segmentOffset = blockBytes (inSegment entry.segmentSequence (directory.take k)) ∧
      ∀ earlier ∈ directory.take k, earlier.segmentSequence ≤ entry.segmentSequence := by
  induction h with
  | nil => simp at hk
  | @snoc directory last prior data place ih =>
    rcases getElem?_snoc hk with hk | ⟨rfl, rfl⟩
    · have hlt := (List.getElem?_eq_some_iff.mp hk).1
      rw [List.take_append_of_le_length hlt.le]
      exact ih hk
    · rw [List.take_left' rfl]
      refine ⟨data.trans prior.dataEnd_eq, ?_, ?_⟩
      · rcases place with ⟨hp, ho⟩ | ⟨hp, ho⟩
        · rw [ho, hp, prior.inSegment_next]
          rfl
        · rw [ho, prior.segmentEnd_eq hp]
      · intro earlier hm
        have := prior.segment_lt hm
        rcases place with ⟨hp, -⟩ | ⟨hp, -⟩ <;> omega

end Layout

/-- A block that may be dispatched. -/
structure Closed (builder : WordBlockBuilder) : Prop where
  sized : builder.Sized
  nonempty : builder.words ≠ []
  ordered : Ordered builder.words

theorem WordBlockBuilder.encode_header {checksum : BlockChecksum} {builder : WordBlockBuilder}
    {sequence : UInt64} {metadata : EncodedBlockMetadata} {bytes : Bytes}
    (h : builder.encode checksum sequence = .ok (metadata, bytes)) :
    metadata.header.sequence = sequence ∧ metadata.header.blockLen.toNat = bytes.length ∧
      0 < bytes.length := by
  obtain ⟨parts, -, hlayout⟩ := except_bind_ok h
  obtain ⟨-, hlaid⟩ := layoutBlock_ok hlayout
  obtain ⟨zeros, -, hseal⟩ := hlaid.padding
  have hlen := hseal.length
  refine ⟨hlaid.sequence, hlaid.blockLen, ?_⟩
  unfold blockHeaderSize at hlen
  omega

/-- The bytes of block `k` are pending, or at the entry's place in its published segment. -/
def Readable (store : Store) (k : Nat) (entry : BlockDirectoryEntry) (bytes : Bytes) : Prop :=
  store.pendingBlocks k = some bytes ∨ store.pendingBlocks k = none ∧
    ∃ artifact, store.repository (segmentKey store.storeIdentity entry.segmentSequence) = some artifact ∧
      HasAt artifact entry.segmentOffset bytes

/-- The entry of block `k`: its header comes from the block's encoding, and the encoded bytes can be
read. -/
structure Placed (checksum : BlockChecksum) (store : Store) (k : Nat) (builder : WordBlockBuilder)
    (entry : BlockDirectoryEntry) (metadata : EncodedBlockMetadata) (bytes : Bytes) : Prop where
  encode : builder.encode checksum (UInt64.ofNat k) = .ok (metadata, bytes)
  header : entry = .ofHeader metadata.header entry.dataOffset entry.segmentSequence entry.segmentOffset
  readable : Readable store k entry bytes

def presenceLeaves (blocks : List WordBlockBuilder) : List WordSummaryRecord :=
  blocks.zipIdx.flatMap fun (builder, k) => wordPresenceSummaries k builder.words builder.isDurationFree

theorem presenceLeaves_append (blocks : List WordBlockBuilder) (builder : WordBlockBuilder) :
    presenceLeaves (blocks ++ [builder]) = presenceLeaves blocks ++
      wordPresenceSummaries blocks.length builder.words builder.isDurationFree := by
  simp [presenceLeaves, List.zipIdx_append]

/-- A store whose directory describes the first of the dispatched blocks, each of them readable. -/
structure Stored (checksum : BlockChecksum) (store : Store) (dispatched : List WordBlockBuilder) : Prop where
  blocks : ∀ builder ∈ dispatched, Closed builder
  ordered : Ordered (dispatched.flatMap (·.words))
  count : dispatched.length < 2 ^ 64
  layout : Layout store.state.directory
  placed : ∀ (k : Nat) (entry : BlockDirectoryEntry), store.state.directory[k]? = some entry →
    ∃ builder metadata bytes, dispatched[k]? = some builder ∧
      Placed checksum store k builder entry metadata bytes
  wordCount : store.state.committedWordCount = (store.state.directory.map (·.wordCount.toNat)).sum
  wordCount_lt : store.state.committedWordCount < 2 ^ 64
  dataLen : store.state.committedDataLen = dataEnd store.state.directory
  dataLen_lt : store.state.committedDataLen < 2 ^ 64
  presence : store.state.presence =
    .ofLeaves (presenceLeaves (dispatched.take store.state.directory.length))
  first : store.state.committedFirstTimestampNs = store.state.directory.head?.map (·.firstTimestampNs)
  last : store.state.committedLastTimestampNs = store.state.directory.getLast?.map (·.lastTimestampNs)

variable {entry : BlockDirectoryEntry}

namespace Stored

variable {checksum : BlockChecksum} {store : Store} {dispatched : List WordBlockBuilder}

section

variable (h : Stored checksum store dispatched)
include h

theorem length_le : store.state.directory.length ≤ dispatched.length := by
  by_contra hlt
  obtain ⟨entry, hk⟩ : ∃ entry, store.state.directory[dispatched.length]? = some entry :=
    ⟨_, List.getElem?_eq_getElem (by omega)⟩
  obtain ⟨builder, -, -, hb, -⟩ := h.placed _ _ hk
  have := (List.getElem?_eq_some_iff.mp hb).1
  omega

theorem index_lt (hk : store.state.directory[k]? = some entry) : k < 2 ^ 64 := by
  have hl := (List.getElem?_eq_some_iff.mp hk).1
  have := h.length_le
  have := h.count
  omega

theorem of_readable {other : Store} (hs : other.state.committed = store.state.committed)
    (hr : ∀ (k : Nat) entry bytes, store.state.directory[k]? = some entry →
      Readable store k entry bytes → Readable other k entry bytes) :
    Stored checksum other dispatched := by
  obtain ⟨hd, hp, hw, hl, hf, ht⟩ := CommittedState.mk.inj hs
  refine ⟨h.blocks, h.ordered, h.count, ?_, ?_, ?_, ?_, ?_, ?_, ?_, ?_, ?_⟩
  · rw [hd]
    exact h.layout
  · intro k entry hk
    rw [hd] at hk
    obtain ⟨builder, metadata, bytes, hb, hplaced⟩ := h.placed k entry hk
    exact ⟨builder, metadata, bytes, hb,
      ⟨hplaced.encode, hplaced.header, hr k entry bytes hk hplaced.readable⟩⟩
  · rw [hd, hw]
    exact h.wordCount
  · rw [hw]
    exact h.wordCount_lt
  · rw [hd, hl]
    exact h.dataLen
  · rw [hl]
    exact h.dataLen_lt
  · rw [hp, hd]
    exact h.presence
  · rw [hd, hf]
    exact h.first
  · rw [hd, ht]
    exact h.last

theorem dispatch {builder : WordBlockBuilder} (hb : Closed builder)
    (ho : Ordered ((dispatched ++ [builder]).flatMap (·.words))) (hc : dispatched.length + 1 < 2 ^ 64) :
    Stored checksum store (dispatched ++ [builder]) := by
  refine ⟨?_, ho, by simpa using hc, h.layout, ?_, h.wordCount, h.wordCount_lt, h.dataLen, h.dataLen_lt,
    ?_, h.first, h.last⟩
  · intro other hm
    rcases List.mem_append.mp hm with hm | hm
    · exact h.blocks other hm
    · rw [List.mem_singleton.mp hm]
      exact hb
  · intro k entry hk
    obtain ⟨other, metadata, bytes, ho, hplaced⟩ := h.placed k entry hk
    refine ⟨other, metadata, bytes, ?_, hplaced⟩
    rw [List.getElem?_append_left (List.getElem?_eq_some_iff.mp ho).1]
    exact ho
  · rw [List.take_append_of_le_length h.length_le]
    exact h.presence

theorem segment_lt (hm : entry ∈ store.state.directory) : entry.segmentSequence < 2 ^ 64 := by
  have := h.layout.segment_lt hm
  have := h.layout.segmentCount_le
  have := h.length_le
  have := h.count
  omega

end

end Stored

namespace Placed

variable {checksum : BlockChecksum} {store : Store} {k : Nat} {builder : WordBlockBuilder}
  {entry : BlockDirectoryEntry} {metadata : EncodedBlockMetadata} {bytes : Bytes}

section

variable (h : Placed checksum store k builder entry metadata bytes)
include h

theorem sequence : entry.sequence = UInt64.ofNat k := by
  rw [h.header]
  exact (WordBlockBuilder.encode_header h.encode).1

theorem blockLen : entry.blockLen.toNat = bytes.length := by
  rw [h.header]
  exact (WordBlockBuilder.encode_header h.encode).2.1

theorem readEntryBytes (hk : k < 2 ^ 64)
    (he : entry.segmentEnd < 2 ^ 64) : store.readEntryBytes entry = .ok bytes := by
  unfold Store.readEntryBytes
  rw [h.sequence, UInt64.toNat_ofNat_of_lt' hk]
  rcases h.readable with hp | ⟨hp, artifact, ha, hat⟩
  · rw [hp]
  · have hlen := hat.length_le
    rw [BlockDirectoryEntry.segmentEnd, h.blockLen] at he
    simp only [hp, ha, h.blockLen]
    rw [if_neg (by omega), hat.readArtifactRegion he]
    rfl

theorem readEntry (hk : k < 2 ^ 64) (he : entry.segmentEnd < 2 ^ 64) (hb : Closed builder) :
    store.readEntry checksum entry = .ok ⟨metadata.header, metadata.restarts, builder.words⟩ := by
  obtain ⟨parsed, hblock⟩ := WordBlockBuilder.encode_blockOf hb.sized hb.nonempty hb.ordered h.encode
  have hvalid : validateDirectoryHeader metadata.header entry = .ok () := by
    rw [h.header]
    exact validateDirectoryHeader_ofHeader _ _ _ _
  simp only [Store.readEntry, h.readEntryBytes hk he, hblock.decodeWordBlock, Except.mapError, hvalid, bind,
    Except.bind, pure, Except.pure]

end

end Placed

namespace Stored

variable {checksum : BlockChecksum} {store : Store} {dispatched : List WordBlockBuilder}

theorem segmentEnd_lt (h : Stored checksum store dispatched) (hm : entry ∈ store.state.directory) :
    entry.segmentEnd < 2 ^ 64 := by
  have hle := h.layout.end_le hm
  have hlen := h.dataLen
  have hlt := h.dataLen_lt
  omega

theorem readEntry (h : Stored checksum store dispatched) (hk : store.state.directory[k]? = some entry) :
    ∃ builder decoded, dispatched[k]? = some builder ∧ store.readEntry checksum entry = .ok decoded ∧
      decoded.words = builder.words := by
  obtain ⟨builder, metadata, bytes, hb, hp⟩ := h.placed k entry hk
  have hclosed := h.blocks builder (List.mem_of_getElem? hb)
  have hread := hp.readEntry (h.index_lt hk) (h.segmentEnd_lt (List.mem_of_getElem? hk)) hclosed
  exact ⟨builder, _, hb, hread, rfl⟩

end Stored

variable {dispatched : List WordBlockBuilder}

theorem mapM_readEntry {read : BlockDirectoryEntry → StoreResult DecodedWordBlock}
    {directory : List BlockDirectoryEntry}
    (h : ∀ (k : Nat) entry, directory[k]? = some entry → ∃ builder decoded, dispatched[k]? = some builder ∧
      read entry = .ok decoded ∧ decoded.words = builder.words) :
    ∃ blocks, directory.mapM read = .ok blocks ∧
      blocks.flatMap DecodedWordBlock.words = (dispatched.take directory.length).flatMap (·.words) := by
  induction directory generalizing dispatched with
  | nil => exact ⟨[], rfl, by simp⟩
  | cons entry rest ih =>
    obtain ⟨builder, decoded, hb, hread, hwords⟩ := h 0 entry rfl
    cases dispatched with
    | nil => simp at hb
    | cons first others =>
      obtain rfl : first = builder := by simpa using hb
      obtain ⟨blocks, hblocks, hflat⟩ := @ih others (fun k entry hk => by simpa using h (k + 1) entry (by simpa using hk))
      refine ⟨decoded :: blocks, ?_, ?_⟩
      · rw [List.mapM_cons, hread, hblocks]
        rfl
      · rw [List.flatMap_cons, List.length_cons, List.take_succ_cons, List.flatMap_cons, hflat, hwords]

theorem Stored.committedWords {checksum : BlockChecksum} {store : Store} (h : Stored checksum store dispatched) :
    store.committedWords checksum =
      .ok ((dispatched.take store.state.directory.length).flatMap (·.words)) := by
  obtain ⟨blocks, hblocks, hflat⟩ := mapM_readEntry (fun k entry hk => h.readEntry hk)
  rw [Store.committedWords, hblocks]
  show Except.ok (blocks.flatMap DecodedWordBlock.words) = _
  rw [hflat]

end LogicConduit
