import LogicConduit.WordIndexRoundTrip
import LogicConduit.WordPresenceRuns
import LogicConduit.WordHistory

namespace LogicConduit

theorem WordBlockBuilder.encode_words {checksum : BlockChecksum} {builder : WordBlockBuilder}
    {sequence : UInt64} {metadata : EncodedBlockMetadata} {bytes : Bytes} (hc : Closed builder)
    (h : builder.encode checksum sequence = .ok (metadata, bytes)) :
    metadata.header.wordCount.toNat = builder.words.length ∧
      (∃ word, builder.words.head? = some word ∧ metadata.header.firstTimestampNs = word.timestampNs) ∧
      ∃ word, builder.words.getLast? = some word ∧ metadata.header.lastTimestampNs = word.timestampNs := by
  obtain ⟨parts, -, hlayout⟩ := except_bind_ok h
  obtain ⟨-, hlaid⟩ := layoutBlock_ok hlayout
  have hlength := hc.sized.fits.length
  have hmax := hc.sized.maxWords_le
  refine ⟨?_, ?_, ?_⟩
  · rw [hlaid.wordCount, UInt32.toNat_ofNat']
    unfold u32Max at hmax
    omega
  · obtain ⟨word, hword⟩ : ∃ word, builder.words.head? = some word :=
      ⟨_, List.head?_eq_some_head hc.nonempty⟩
    refine ⟨word, hword, ?_⟩
    rw [hlaid.first, hword]
    rfl
  · obtain ⟨word, hword⟩ : ∃ word, builder.words.getLast? = some word :=
      ⟨_, List.getLast?_eq_some_getLast hc.nonempty⟩
    refine ⟨word, hword, ?_⟩
    rw [hlaid.last, hword]
    rfl

/-- What `validate_directory` asks of the entry of block `k`, its place apart. -/
structure EntryValid (k : Nat) (entry : BlockDirectoryEntry) : Prop where
  sequence : entry.sequence.toNat = k
  wordCount : entry.wordCount ≠ 0
  ordered : entry.firstTimestampNs ≤ entry.lastTimestampNs

variable {directory : List BlockDirectoryEntry}

theorem segmentEnd_of_count (h : segmentCount directory = 0) : segmentEnd directory = 0 := by
  unfold segmentCount at h
  unfold segmentEnd
  cases hl : directory.getLast? with
  | none => rfl
  | some entry =>
    rw [hl] at h
    cases h

theorem expected_place {sequence offset : Nat} (hc : segmentCount directory < 2 ^ 64)
    (place : Continues directory sequence offset) :
    (if sequence = saturatingAdd (segmentCount directory - 1) 1 then sequence else segmentCount directory - 1) =
        sequence ∧
      (if sequence = saturatingAdd (segmentCount directory - 1) 1 then 0 else segmentEnd directory) = offset := by
  have hnext : saturatingAdd (segmentCount directory - 1) 1 = segmentCount directory - 1 + 1 := by
    unfold saturatingAdd u64Max
    omega
  rw [hnext]
  rcases place with ⟨hs, ho⟩ | ⟨hs, ho⟩
  · by_cases hzero : segmentCount directory = 0
    · rw [if_neg (by omega), if_neg (by omega), segmentEnd_of_count hzero]
      omega
    · rw [if_pos (by omega), if_pos (by omega)]
      omega
  · rw [if_neg (by omega), if_neg (by omega)]
    omega

variable {entry : BlockDirectoryEntry}

theorem directoryLoop_step {directory rest : List BlockDirectoryEntry} (prior : Layout directory)
    (data : entry.dataOffset = dataEnd directory)
    (place : Continues directory entry.segmentSequence entry.segmentOffset) (hv : EntryValid directory.length entry)
    (hn : directory.length < 2 ^ 64) (hd : entry.dataEnd < 2 ^ 64) :
    directoryLoop (entry :: rest) directory.length (dataEnd directory) (segmentCount directory - 1)
        (segmentEnd directory) =
      directoryLoop rest (directory.length + 1) entry.dataEnd entry.segmentSequence entry.segmentEnd := by
  have hcount := prior.segmentCount_le
  have hfirst : ¬(directory.length = 0 ∧ entry.segmentSequence ≠ 0) := by
    rintro ⟨hzero, hne⟩
    rcases place with ⟨hs, -⟩ | ⟨hs, -⟩ <;> omega
  obtain ⟨hsegment, hoffset⟩ := expected_place (by omega) place
  have hend := ((Layout.snoc prior data place).end_le (List.mem_append_right _ List.mem_cons_self)).1
  have hlast : ¬entry.lastTimestampNs < entry.firstTimestampNs := UInt64.not_lt.mpr hv.ordered
  have hdata : checkedAdd (dataEnd directory) entry.blockLen.toNat = some entry.dataEnd := by
    rw [BlockDirectoryEntry.dataEnd, data] at hd ⊢
    exact if_pos hd
  have hplace : checkedAdd entry.segmentOffset entry.blockLen.toNat = some entry.segmentEnd :=
    if_pos (by rw [BlockDirectoryEntry.segmentEnd] at hend; omega)
  simp only [directoryLoop, if_neg hfirst, hsegment, hoffset, hv.sequence, data, hv.wordCount, hlast, ne_eq,
    not_true, or_self, if_false, hdata, hplace]

theorem directoryLoop_layout (h : Layout directory)
    (hv : ∀ (k : Nat) entry, directory[k]? = some entry → EntryValid k entry) (hn : directory.length < 2 ^ 64)
    (hd : dataEnd directory < 2 ^ 64) (rest : List BlockDirectoryEntry) :
    directoryLoop (directory ++ rest) 0 0 0 0 = directoryLoop rest directory.length (dataEnd directory)
      (segmentCount directory - 1) (segmentEnd directory) := by
  induction h generalizing rest with
  | nil => rfl
  | @snoc directory entry prior data place ih =>
    rw [List.length_append, List.length_singleton] at hn
    rw [dataEnd_append] at hd
    have hprior : dataEnd directory < 2 ^ 64 := by
      rw [BlockDirectoryEntry.dataEnd, data] at hd
      omega
    have hearlier : ∀ (k : Nat) other, directory[k]? = some other → EntryValid k other := by
      intro k other hk
      refine hv k other ?_
      rw [List.getElem?_append_left (List.getElem?_eq_some_iff.mp hk).1]
      exact hk
    have hentry := hv directory.length entry List.getElem?_concat_length
    rw [List.append_assoc, List.singleton_append, ih hearlier (by omega) hprior (entry :: rest),
      directoryLoop_step prior data place hentry (by omega) hd, dataEnd_append, segmentCount_append,
      segmentEnd_append, List.length_append, List.length_singleton, Nat.add_sub_cancel]

variable {words : List Word}

section Validated

variable {checksum : BlockChecksum} {store : Store} {dispatched : List WordBlockBuilder}

theorem Stored.entry_words (h : Stored checksum store dispatched) {k : Nat}
    (hk : store.state.directory[k]? = some entry) :
    ∃ builder, dispatched[k]? = some builder ∧ Closed builder ∧ entry.sequence.toNat = k ∧
      entry.wordCount.toNat = builder.words.length ∧
      (∃ word, builder.words.head? = some word ∧ entry.firstTimestampNs = word.timestampNs) ∧
      ∃ word, builder.words.getLast? = some word ∧ entry.lastTimestampNs = word.timestampNs := by
  obtain ⟨builder, metadata, bytes, hb, hp⟩ := h.placed k entry hk
  have hclosed := h.blocks builder (List.mem_of_getElem? hb)
  refine ⟨builder, hb, hclosed, ?_, ?_⟩
  · rw [hp.sequence, UInt64.toNat_ofNat_of_lt' (h.index_lt hk)]
  · rw [hp.header]
    exact WordBlockBuilder.encode_words hclosed hp.encode

theorem Ordered.head_le_last (ho : Ordered words) {first last : Word} (hf : words.head? = some first)
    (hl : words.getLast? = some last) : first.time ≤ last.time := by
  rw [List.head?_eq_getElem?] at hf
  rw [List.getLast?_eq_getElem?] at hl
  exact ho.getElem?_le hf hl (Nat.zero_le _)

theorem Stored.entry_valid (h : Stored checksum store dispatched) {k : Nat}
    (hk : store.state.directory[k]? = some entry) : EntryValid k entry := by
  obtain ⟨builder, -, hclosed, hsequence, hcount, ⟨first, hfirst, hf⟩, last, hlast, hl⟩ := h.entry_words hk
  refine ⟨hsequence, ?_, ?_⟩
  · intro hzero
    rw [hzero] at hcount
    exact hclosed.nonempty (List.length_eq_zero_iff.mp hcount.symm)
  · rw [hf, hl]
    exact UInt64.le_iff_toNat_le.mpr (hclosed.ordered.head_le_last hfirst hlast)

theorem Stored.validateDirectory (h : Stored checksum store dispatched) :
    validateDirectory store.state.directory store.state.committedDataLen = .ok () := by
  have hlength := h.length_le
  have hcount := h.count
  have hloop := directoryLoop_layout h.layout (fun k entry hk => h.entry_valid hk) (by omega)
    (h.dataLen ▸ h.dataLen_lt) []
  rw [List.append_nil] at hloop
  rw [LogicConduit.validateDirectory, hloop, h.dataLen]
  show (if dataEnd store.state.directory ≠ dataEnd store.state.directory then _ else _) = _
  rw [if_neg (by simp)]
  rfl

end Validated

theorem modify_middle {α : Type} (done : List α) (c : α) (later : List α) (f : α → α) :
    (done ++ c :: later).modify done.length f = done ++ f c :: later := by
  induction done with
  | nil => rfl
  | cons first rest ih => simp [ih]

theorem summaryLoop_step {n : Nat} {run : List Word} {record : WordSummaryRecord} {done later : List Nat}
    {count : Nat} {previous : Option Nat} (h : RunOf done.length run record) (hn : done.length < n)
    (hc : count + run.length ≤ u64Max) (hp : ∀ t, previous = some t → t ≤ record.startNs)
    (rest : List WordSummaryRecord) :
    summaryLoop n (record :: rest) (done ++ count :: later) previous =
      summaryLoop n rest (done ++ (count + run.length) :: later) (some record.startNs) := by
  have hprevious : ¬previous.any (record.startNs < ·) = true := by
    cases previous with
    | none => simp
    | some t =>
      have hle := hp t rfl
      simpa using hle
  have hpos := h.count_pos
  have hend := h.start_le
  have hvalid : ¬(record.wordCount = 0 ∨ record.endNs < record.startNs ∨ record.blockCount ≠ 1 ∨
      n ≤ record.firstBlock ∨ previous.any (record.startNs < ·) = true) := by
    rw [h.firstBlock, h.blockCount]
    rintro (hz | hz | hz | hz | hz)
    · omega
    · omega
    · exact hz rfl
    · omega
    · exact hprevious hz
  have hsum : saturatingAdd count record.wordCount = count + run.length := by
    rw [h.count]
    unfold saturatingAdd
    omega
  rw [summaryLoop, if_neg hvalid, h.firstBlock, modify_middle, hsum]

variable {records : List WordSummaryRecord}

theorem summaryLoop_cut {n : Nat} {done later : List Nat} (h : CutInto done.length words records) (hn : done.length < n)
    (ho : Ordered words) (hc : words.length ≤ u64Max) (previous : Option Nat)
    (hp : ∀ t, previous = some t → ∀ word ∈ words, t ≤ word.time) (rest : List WordSummaryRecord) :
    ∃ last, summaryLoop n (records ++ rest) (done ++ 0 :: later) previous =
        summaryLoop n rest (done ++ words.length :: later) last ∧
      ∀ t, last = some t → previous = some t ∨ ∃ word ∈ words, t = word.time := by
  induction h generalizing rest with
  | nil => exact ⟨previous, rfl, fun t ht => Or.inl ht⟩
  | @snoc words run records record prior hrun ih =>
    rw [List.length_append] at hc
    obtain ⟨hordered, -, hbefore⟩ := List.pairwise_append.mp ho
    obtain ⟨last, hloop, hlast⟩ := ih hordered (by omega)
      (fun t ht word hm => hp t ht word (List.mem_append_left _ hm)) (record :: rest)
    obtain ⟨first, hfirst, hstart⟩ := Option.map_eq_some_iff.mp hrun.start
    have hfirst := List.mem_of_head? hfirst
    refine ⟨some record.startNs, ?_, ?_⟩
    · rw [List.append_assoc, List.singleton_append, hloop, List.length_append]
      refine summaryLoop_step hrun hn (by omega) ?_ rest
      intro t ht
      rw [← hstart]
      rcases hlast t ht with hprevious | ⟨word, hm, rfl⟩
      · exact hp t hprevious first (List.mem_append_right _ hfirst)
      · exact hbefore word hm first hfirst
    · intro t ht
      exact Or.inr ⟨first, List.mem_append_right _ hfirst, (Option.some.inj ht).symm.trans hstart.symm⟩

theorem summaryLoop_blocks {n : Nat} (blocks : List WordBlockBuilder) (done : List Nat) (previous : Option Nat)
    (hn : done.length + blocks.length ≤ n) (hb : ∀ builder ∈ blocks, Closed builder)
    (ho : Ordered (blocks.flatMap (·.words)))
    (hp : ∀ t, previous = some t → ∀ word ∈ blocks.flatMap (·.words), t ≤ word.time) :
    summaryLoop n ((blocks.zipIdx done.length).flatMap fun (builder, k) =>
        wordPresenceSummaries k builder.words builder.isDurationFree)
        (done ++ List.replicate blocks.length 0) previous =
      .ok (done ++ blocks.map (·.words.length)) := by
  induction blocks generalizing done previous with
  | nil => simp [summaryLoop]
  | cons builder rest ih =>
    have hclosed := hb builder List.mem_cons_self
    rw [List.flatMap_cons] at ho hp
    obtain ⟨hordered, hrest, hbefore⟩ := List.pairwise_append.mp ho
    have hlength := hclosed.sized.fits.length
    have hmax := hclosed.sized.maxWords_le
    rw [List.length_cons] at hn
    have hcount : builder.words.length ≤ u64Max := by
      unfold u32Max at hmax
      unfold u64Max
      omega
    have hcut := wordPresenceSummaries_cut done.length hclosed.sized hordered
    rw [List.zipIdx_cons, List.flatMap_cons, List.length_cons, List.replicate_succ]
    have hblock : done.length < n := by omega
    obtain ⟨last, hloop, hlast⟩ := summaryLoop_cut hcut hblock hordered hcount previous
      (fun t ht word hm => hp t ht word (List.mem_append_left _ hm)) _
    rw [hloop]
    have hnext := ih (done ++ [builder.words.length]) last (by simp; omega)
      (fun other hm => hb other (List.mem_cons_of_mem _ hm)) hrest ?_
    · simpa using hnext
    · intro t ht word hm
      rcases hlast t ht with hprevious | ⟨earlier, hm', rfl⟩
      · exact hp t hprevious word (List.mem_append_right _ hm)
      · exact hbefore earlier hm' word hm

theorem foldl_saturatingAdd (counts : List Nat) (start : Nat) (h : start + counts.sum ≤ u64Max) :
    counts.foldl saturatingAdd start = start + counts.sum := by
  induction counts generalizing start with
  | nil => rfl
  | cons count rest ih =>
    rw [List.sum_cons] at h
    have hadd : saturatingAdd start count = start + count := by
      unfold saturatingAdd
      omega
    rw [List.foldl_cons, hadd, ih _ (by omega), List.sum_cons]
    omega

section Summaries

variable {checksum : BlockChecksum} {store : Store} {dispatched : List WordBlockBuilder}

section

variable (h : Stored checksum store dispatched)
include h

theorem Stored.wordCounts :
    (dispatched.take store.state.directory.length).map (·.words.length) =
      store.state.directory.map (·.wordCount.toNat) := by
  apply List.ext_getElem?
  intro k
  rw [List.getElem?_map, List.getElem?_map, List.getElem?_take]
  cases hk : store.state.directory[k]? with
  | none => rw [if_neg (Nat.not_lt.mpr (List.getElem?_eq_none_iff.mp hk)), Option.map_none, Option.map_none]
  | some entry =>
    obtain ⟨builder, hb, -, -, hcount, -⟩ := h.entry_words hk
    rw [if_pos (List.getElem?_eq_some_iff.mp hk).1, hb, Option.map_some, Option.map_some, hcount]

theorem Stored.leaves :
    store.state.presence.leaves = presenceLeaves (dispatched.take store.state.directory.length) := by
  rw [h.presence, WordPresenceIndex.leaves_ofLeaves]

theorem Stored.take_length :
    (dispatched.take store.state.directory.length).length = store.state.directory.length := by
  rw [List.length_take, Nat.min_eq_left h.length_le]

theorem Stored.take_ordered :
    Ordered ((dispatched.take store.state.directory.length).flatMap (·.words)) :=
  h.ordered.sublist (take_flatMap_le dispatched _).sublist

theorem Stored.validateSummaries :
    validateSummaries store.state.directory store.state.presence.leaves store.state.committedWordCount = .ok () := by
  have hblocks : ∀ builder ∈ dispatched.take store.state.directory.length, Closed builder :=
    fun builder hm => h.blocks builder (List.mem_of_mem_take hm)
  have hloop : summaryLoop store.state.directory.length store.state.presence.leaves
      (List.replicate store.state.directory.length 0) none = .ok (store.state.directory.map (·.wordCount.toNat)) := by
    have hn : ([] : List Nat).length + (dispatched.take store.state.directory.length).length ≤
        store.state.directory.length := by
      rw [h.take_length, List.length_nil, Nat.zero_add]
    have hall := summaryLoop_blocks (dispatched.take store.state.directory.length) [] none hn hblocks
      h.take_ordered (fun t ht => by cases ht)
    rw [h.wordCounts, h.take_length, List.nil_append, List.nil_append] at hall
    rw [h.leaves]
    exact hall
  have hlt := h.wordCount_lt
  rw [h.wordCount] at hlt
  have hsum : (store.state.directory.map (·.wordCount.toNat)).foldl saturatingAdd 0 =
      store.state.committedWordCount := by
    rw [foldl_saturatingAdd _ _ (by unfold u64Max; omega), h.wordCount, Nat.zero_add]
  have hzip : ∀ pair ∈ (store.state.directory.map (·.wordCount.toNat)).zip store.state.directory,
      pair.1 = pair.2.wordCount.toNat := by
    generalize store.state.directory = directory
    induction directory with
    | nil => intro pair hm; cases hm
    | cons entry rest ih =>
      intro pair hm
      rcases List.mem_cons.mp hm with heq | hm
      · rw [heq]
      · exact ih pair hm
  rw [LogicConduit.validateSummaries, hloop]
  show (if _ then _ else _) = _
  rw [List.any_eq_false.mpr fun pair hm => by simp [hzip pair hm], hsum, if_neg (by simp)]
  rfl

end

theorem CutInto.mem {block : Nat} {record : WordSummaryRecord} (h : CutInto block words records) (hm : record ∈ records) :
    ∃ run, RunOf block run record ∧ run.length ≤ words.length := by
  induction h with
  | nil => cases hm
  | @snoc words run records last prior hrun ih =>
    rw [List.length_append]
    rcases List.mem_append.mp hm with hm | hm
    · obtain ⟨other, hother, hle⟩ := ih hm
      exact ⟨other, hother, by omega⟩
    · rw [List.mem_singleton.mp hm]
      exact ⟨run, hrun, by omega⟩

theorem Stored.entry_fits (h : Stored checksum store dispatched) (hm : entry ∈ store.state.directory) : entry.Fits := by
  have hend := h.layout.end_le hm
  have hlen := h.dataLen
  have hlt := h.dataLen_lt
  unfold BlockDirectoryEntry.segmentEnd BlockDirectoryEntry.dataEnd at hend
  exact ⟨by omega, h.segment_lt hm, by omega⟩

theorem Stored.summary_fits (h : Stored checksum store dispatched) {summary : WordSummaryRecord}
    (hm : summary ∈ store.state.presence.leaves) : summary.Fits := by
  rw [h.leaves] at hm
  obtain ⟨⟨builder, k⟩, hb, hm⟩ := List.mem_flatMap.mp hm
  have hk := List.mem_zipIdx_iff_getElem?.mp hb
  have hmem := List.mem_of_mem_take (List.mem_of_getElem? hk)
  have hclosed := h.blocks builder hmem
  obtain ⟨run, hrun, hle⟩ := (wordPresenceSummaries_cut k hclosed.sized hclosed.ordered).mem hm
  obtain ⟨word, -, hstart⟩ := Option.map_eq_some_iff.mp hrun.start
  have hlength := hclosed.sized.fits.length
  have hmax := hclosed.sized.maxWords_le
  have hlt := (List.getElem?_eq_some_iff.mp hk).1
  have hcount := h.count
  have hblocks := h.length_le
  simp only [h.take_length] at hlt
  refine ⟨?_, hrun.bounded, ?_, ?_, ?_⟩
  · rw [← hstart]
    exact word.time_lt
  · rw [hrun.count]
    unfold u32Max at hmax
    omega
  · rw [hrun.firstBlock]
    omega
  · rw [hrun.blockCount]
    decide

end Summaries

def Store.index (store : Store) : PersistentIndex where
  directory := store.state.directory
  presence := store.state.presence
  committedWordCount := store.state.committedWordCount
  committedDataLen := store.state.committedDataLen
  firstTimestampNs := store.state.committedFirstTimestampNs
  lastTimestampNs := store.state.committedLastTimestampNs

section Reopen

variable {checksum : BlockChecksum} {store : Store} {dispatched : List WordBlockBuilder} {key : CacheKey}

theorem Published.openPersistent (hp : Published checksum key store) (h : Stored checksum store dispatched)
    (hfirst : ∀ time, store.state.committedFirstTimestampNs = some time → time.toNat < u64Max)
    (hlast : ∀ time, store.state.committedLastTimestampNs = some time → time.toNat < u64Max) (now : Nat) :
    (openPersistent checksum key now none store.repository).1 = .ok (some store.index) := by
  obtain ⟨indexBytes, manifest, hindex, hindexAt, hmanifestAt, hkey, hdata, hwords⟩ := hp
  have hencoded : IndexOf checksum key store.index indexBytes := encodeIndex_ok hindex
  have hpresence : store.index.presence = .ofLeaves store.index.presence.leaves := by
    show store.state.presence = .ofLeaves store.state.presence.leaves
    rw [h.leaves]
    exact h.presence
  have hdecode : decodeIndex checksum indexBytes key.bytes = .ok store.index :=
    hencoded.decodeIndex (fun entry hm => h.entry_fits hm) (fun summary hm => h.summary_fits hm) hpresence
      h.wordCount_lt h.dataLen_lt hfirst hlast
  obtain ⟨decoded, hread, hkey', hdata', hwords'⟩ := decodeManifest_encode checksum manifest
    (by rw [hkey, key.length]) (by rw [hdata]; exact h.dataLen_lt) (by rw [hwords]; exact h.wordCount_lt)
  have hvalid : validatePersistentGeneration key decoded store.index = .ok () := by
    have hmatch : ¬(decoded.cacheKey ≠ key.bytes ∨ store.index.committedWordCount ≠ decoded.wordCount ∨
        store.index.committedDataLen ≠ decoded.dataLen) := by
      rw [hkey', hkey, hwords', hwords, hdata', hdata]
      simp [Store.index]
    rw [validatePersistentGeneration, if_neg hmatch, hdata', hdata]
    exact h.validateDirectory
  have hgeneration : readGeneration checksum key store.repository (encodeManifest checksum manifest) =
      .ok (decoded, store.index) := by
    simp only [readGeneration, hread, hindexAt, hdecode, hvalid, bind, Except.bind, pure, Except.pure]
  simp only [LogicConduit.openPersistent, openValidated, hmanifestAt, hgeneration]

theorem Stored.timestamps_lt (h : Stored checksum store dispatched) {limit : Nat}
    (hw : ∀ builder ∈ dispatched, ∀ word ∈ builder.words, word.time < limit) :
    (∀ time, store.state.committedFirstTimestampNs = some time → time.toNat < limit) ∧
      ∀ time, store.state.committedLastTimestampNs = some time → time.toNat < limit := by
  refine ⟨?_, ?_⟩
  · intro time ht
    rw [h.first, List.head?_eq_getElem?] at ht
    obtain ⟨entry, hentry, rfl⟩ := Option.map_eq_some_iff.mp ht
    obtain ⟨builder, hb, -, -, -, ⟨word, hword, hf⟩, -⟩ := h.entry_words hentry
    rw [hf]
    exact hw builder (List.mem_of_getElem? hb) word (List.mem_of_head? hword)
  · intro time ht
    rw [h.last, List.getLast?_eq_getElem?] at ht
    obtain ⟨entry, hentry, rfl⟩ := Option.map_eq_some_iff.mp ht
    obtain ⟨builder, hb, -, -, -, -, word, hword, hl⟩ := h.entry_words hentry
    rw [hl]
    exact hw builder (List.mem_of_getElem? hb) word (List.mem_of_getLast? hword)

theorem createWriter_writer {config : LiveStoreConfig} {repository : Repository} {storeId : UInt64}
    {choice : Choice} {m : Machine} (h : createWriter config repository storeId choice = .ok m) :
    m.writer.persistence = config.persistence ∧ m.writer.lastTimestampNs = none := by
  obtain ⟨_, -, h⟩ := except_bind_ok h
  obtain ⟨cleared, -, h⟩ := except_bind_ok h
  obtain ⟨builder, -, h⟩ := except_bind_ok h
  cases h
  exact ⟨rfl, rfl⟩

/-- At every instant of every run the directory and the summaries of a store that is not cancelled pass
the checks of the index, and a store finished with a key reopens under that key as it was. -/
theorem finished_store_reopens (checksum : BlockChecksum) (config : LiveStoreConfig) (repository : Repository)
    (storeId : UInt64) (choice : Choice) (machine : Machine)
    (h : createWriter config repository storeId choice = .ok machine) (calls : List Call)
    (htimes : ∀ call ∈ calls, ∀ word ∈ call.op.words, word.time < u64Max) (key : CacheKey)
    (hkey : config.persistence = some key) (step : Step) (hstep : step ∈ runCalls checksum calls machine) :
    (step.call.op ≠ .cancel → ∀ o ∈ step.after.history, o.store.state.status ≠ .cancelled →
      validateSummaries o.store.state.directory o.store.state.presence.leaves o.store.state.committedWordCount =
          .ok () ∧
        validateDirectory o.store.state.directory o.store.state.committedDataLen = .ok ()) ∧
    (step.call.op = .finish → step.result = .ok () → ∀ now,
      ∃ index, (openPersistent checksum key now none step.after.store.repository).1 = .ok (some index) ∧
        index.directory = step.after.store.state.directory ∧
        index.presence = step.after.store.state.presence ∧
        index.committedWordCount = step.after.store.state.committedWordCount ∧
        index.committedDataLen = step.after.store.state.committedDataLen ∧
        index.firstTimestampNs = step.after.store.state.committedFirstTimestampNs ∧
        index.lastTimestampNs = step.after.store.state.committedLastTimestampNs) := by
  obtain ⟨hpersistence, hlast⟩ := createWriter_writer h
  have hinvariant : ∀ step ∈ runCalls checksum calls machine, ∃ m, (Resting checksum False m ∧
      m.writer.persistence = some key ∧ ∀ t, m.writer.lastTimestampNs = some t → t < u64Max) ∧
      step.Of checksum m := by
    refine runCalls_invariant (Q := fun step => ∀ word ∈ step.call.op.words, word.time < u64Max) ?_ calls machine
      ⟨(createWriter_resting h).1, hpersistence.trans hkey, ?_⟩ ?_
    · intro m step hm hof hwords hr
      obtain ⟨hrest, hkept, hbound⟩ := hm
      refine ⟨hof.resting hrest False.elim hr, hof.follows.persistence.trans hkept, ?_⟩
      intro t ht
      rcases hof.follows.lastTimestampNs with hsame | ⟨word, hm, hword⟩
      · exact hbound t (hsame.symm.trans ht)
      · rw [Option.some.inj (ht.symm.trans hword)]
        exact hwords word hm
    · intro t ht
      rw [hlast] at ht
      cases ht
    · intro step hm
      exact htimes _ (runCalls_call_mem calls machine step hm)
  obtain ⟨m, ⟨hrest, hkept, hbound⟩, hof⟩ := hinvariant step hstep
  refine ⟨?_, ?_⟩
  · intro hop o ho hstatus
    have hstored := hof.stored_at hrest hop ho hstatus
    exact ⟨hstored.validateSummaries, hstored.validateDirectory⟩
  · intro hop hok now
    have hfinished := hof.finished hrest hop hok
    have hwords : ∀ builder ∈ step.after.dispatched, ∀ word ∈ builder.words, word.time < u64Max := by
      intro builder hb word hm
      obtain ⟨t, ht, hle⟩ := hfinished.recent builder hb word hm
      rcases hof.follows.lastTimestampNs with hsame | ⟨other, hother, -⟩
      · exact hle.trans_lt (hbound t (hsame.symm.trans ht))
      · rw [hop] at hother
        cases hother
    obtain ⟨hfirst, hlast⟩ := hfinished.stored.timestamps_lt hwords
    have hopened := (hfinished.published key hkept).openPersistent hfinished.stored hfirst hlast now
    exact ⟨step.after.store.index, hopened, rfl, rfl, rfl, rfl, rfl, rfl⟩

def zeroKey : CacheKey := ⟨List.replicate 32 0, List.length_replicate⟩

theorem finished_store_reopens_threeBlocks :
    ∃ machine step index, createWriter { twoEncoders with persistence := some zeroKey } Repository.empty 0
        (promptly 0) = .ok machine ∧
      step ∈ runCalls .crc32c [⟨.appendBatch fiveWords, laterFirst⟩, ⟨.finish, laterFirst⟩] machine ∧
      step.call.op = .finish ∧
      (openPersistent .crc32c zeroKey 0 none step.after.store.repository).1 = .ok (some index) ∧
      index.directory.length = 3 ∧ index.committedWordCount = 5 := by
  obtain ⟨machine, hcreate⟩ : ∃ machine, createWriter { twoEncoders with persistence := some zeroKey }
      Repository.empty 0 (promptly 0) = .ok machine := ⟨_, rfl⟩
  have hrun : (createWriter { twoEncoders with persistence := some zeroKey } Repository.empty 0
      (promptly 0)).toOption.any (fun machine =>
        (runCalls .crc32c [⟨.appendBatch fiveWords, laterFirst⟩, ⟨.finish, laterFirst⟩] machine).any fun step =>
          step.call.op = .finish ∧ step.result = .ok () ∧ step.after.store.state.directory.length = 3 ∧
            step.after.store.state.committedWordCount = 5) = true := by
    decide +kernel
  rw [hcreate] at hrun
  obtain ⟨step, hstep, hdone⟩ := List.any_eq_true.mp hrun
  obtain ⟨hop, hok, hblocks, hcount⟩ := of_decide_eq_true hdone
  have hreopens := finished_store_reopens .crc32c _ Repository.empty 0 (promptly 0) machine hcreate _ (by decide)
    zeroKey rfl step hstep
  obtain ⟨index, hopened, hdirectory, -, hwords, -⟩ := hreopens.2 hop hok 0
  exact ⟨machine, step, index, hcreate, hstep, hop, hopened, hdirectory ▸ hblocks, hwords.trans hcount⟩

end Reopen

end LogicConduit
