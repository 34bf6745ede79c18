import Mathlib.Data.List.Destutter
import LogicConduit.BlockCache
import LogicConduit.StoredLeaves
import LogicConduit.WordRangeDecode

namespace LogicConduit

open PartitionPoint

inductive AnnotationQueryError
  | invalidWindow (startNs endNs : Nat)
  | zeroWordLimit
  | store (message : String)
  deriving DecidableEq

abbrev AnnotationQueryResult := Except AnnotationQueryError

def queryStoreError (error : StoreError) : AnnotationQueryError := .store error.display

inductive QueryBlockWords
  | cached (block : DecodedWordBlock)
  | sliced (words : List Word) (complete : Bool)

namespace QueryBlockWords

def words : QueryBlockWords → List Word
  | .cached block => block.words
  | .sliced words _ => words

def complete : QueryBlockWords → Bool
  | .cached _ => true
  | .sliced _ complete => complete

end QueryBlockWords

/-- An entry that a query decodes as a whole, and keeps in the cache, when it is not there yet. -/
def BlockDirectoryEntry.NeedsWhole (entry : BlockDirectoryEntry) (startNs endNs : Nat) : Prop :=
  entry.flags &&& blockFlagHasDurations.toUInt8 ≠ 0 ∨
    startNs ≤ entry.firstTimestampNs.toNat ∧ entry.lastTimestampNs.toNat ≤ endNs

instance (entry : BlockDirectoryEntry) (startNs endNs : Nat) : Decidable (entry.NeedsWhole startNs endNs) := by
  unfold BlockDirectoryEntry.NeedsWhole
  infer_instance

namespace Store

def readCachedEntry (checksum : BlockChecksum) (sizes : DecodedSizes) (store : Store) (entry : BlockDirectoryEntry)
    (cache : DecodedBlockCache) : StoreResult DecodedWordBlock × DecodedBlockCache :=
  match cache.get ⟨store.storeId, entry.sequence⟩ with
  | (some block, cache) => (.ok block, cache)
  | (none, cache) =>
    match store.readEntry checksum entry with
    | .error error => (.error error, cache)
    | .ok decoded => (.ok decoded, cache.insert sizes ⟨store.storeId, decoded.header.sequence⟩ decoded)

def readPartialEntry (checksum : BlockChecksum) (store : Store) (entry : BlockDirectoryEntry)
    (startNs endNs maxContextWords : Nat) : StoreResult QueryBlockWords := do
  let bytes ← store.readEntryBytes entry
  let range ← (decodeWordBlockRange checksum bytes startNs endNs maxContextWords).mapError .codec
  validateDirectoryHeader range.header entry
  return .sliced range.words range.complete

def queryEntryWords (checksum : BlockChecksum) (sizes : DecodedSizes) (store : Store) (entry : BlockDirectoryEntry)
    (startNs endNs maxContextWords : Nat) (cache : DecodedBlockCache) : StoreResult QueryBlockWords × DecodedBlockCache :=
  match cache.get ⟨store.storeId, entry.sequence⟩ with
  | (some block, cache) => (.ok (.cached block), cache)
  | (none, cache) =>
    if entry.NeedsWhole startNs endNs then
      let (result, cache) := store.readCachedEntry checksum sizes entry cache
      (result.map .cached, cache)
    else (store.readPartialEntry checksum entry startNs endNs maxContextWords, cache)

end Store

def sortDedup (indices : List Nat) : List Nat := (indices.insertionSort (· ≤ ·)).destutter (· ≠ ·)

def intersectingBlockIndices (presence : WordPresenceIndex) (startNs endNs : Nat) : List Nat :=
  if endNs < startNs then []
  else
    let first := partitionPoint (fun prefixEndNs => decide (prefixEndNs < startNs)) presence.prefixMaxEndNs
    let stop := partitionPoint (fun record => decide (record.startNs ≤ endNs)) presence.leaves
    let reaching := ((presence.leaves.take stop).drop (min first stop)).filter (startNs ≤ ·.endNs)
    sortDedup (reaching.flatMap fun record =>
      List.range' record.firstBlock (saturatingAdd record.firstBlock record.blockCount - record.firstBlock))

def selectBlockIndices (directory : List BlockDirectoryEntry) (presence : WordPresenceIndex) (startNs endNs : Nat) :
    List Nat :=
  let firstByStart := partitionPoint (fun entry => decide (entry.lastTimestampNs.toNat < startNs)) directory
  let predecessor := if 1 ≤ firstByStart then [firstByStart - 1] else []
  let previousPredecessor := if 2 ≤ firstByStart then [firstByStart - 2] else []
  let afterEnd := partitionPoint (fun entry => decide (entry.firstTimestampNs.toNat ≤ endNs)) directory
  let successor := if afterEnd < directory.length then [afterEnd] else []
  sortDedup (intersectingBlockIndices presence startNs endNs ++ previousPredecessor ++ predecessor ++ successor)

/-- `exact_context`: the generation, the entries chosen for the window and the hot tail. -/
def Store.exactContext (store : Store) (startNs endNs : Nat) : Nat × List BlockDirectoryEntry × List Word :=
  let indices := selectBlockIndices store.state.directory store.state.presence startNs endNs
  -- every index lies in the directory, see `Stored.select_lt`
  (store.state.generation, indices.filterMap (store.state.directory[·]?), store.state.hotTail)

variable {k : Nat}

variable {indices : List Nat}

theorem mem_sortDedup : k ∈ sortDedup indices ↔ k ∈ indices := by
  rw [sortDedup, (List.pairwise_insertionSort (· ≤ ·) indices).destutter_eq_dedup, List.mem_dedup,
    List.mem_insertionSort]

theorem sortDedup_sorted (indices : List Nat) : (sortDedup indices).Pairwise (· < ·) := by
  have hle := List.pairwise_insertionSort (· ≤ ·) indices
  rw [sortDedup, hle.destutter_eq_dedup]
  have hsorted := hle.sublist (List.dedup_sublist _)
  refine (hsorted.and (List.nodup_dedup _)).imp ?_
  rintro a b ⟨hab, hne⟩
  exact lt_of_le_of_ne hab hne

theorem prefixMaxEndNs_length (records : List WordSummaryRecord) :
    (WordPresenceIndex.ofLeaves records).prefixMaxEndNs.length = records.length := by
  induction records using List.reverseRecOn with
  | nil => rfl
  | append_singleton records record ih =>
    rw [← WordPresenceIndex.foldl_push_ofLeaves, List.foldl_cons, List.foldl_nil, WordPresenceIndex.push,
      List.length_append, List.length_append, ih]
    rfl

variable {records : List WordSummaryRecord}

theorem le_prefixMaxEndNs {i : Nat} {record : WordSummaryRecord} {maxEndNs : Nat} (hi : records[i]? = some record)
    (hmax : (WordPresenceIndex.ofLeaves records).prefixMaxEndNs[i]? = some maxEndNs) : record.endNs ≤ maxEndNs := by
  induction records using List.reverseRecOn with
  | nil => cases hi
  | append_singleton records last ih =>
    have hlength := prefixMaxEndNs_length records
    rw [← WordPresenceIndex.foldl_push_ofLeaves, List.foldl_cons, List.foldl_nil, WordPresenceIndex.push] at hmax
    dsimp only at hmax
    rcases getElem?_snoc hi with hi | ⟨rfl, rfl⟩
    · have hlt := (List.getElem?_eq_some_iff.mp hi).1
      rw [List.getElem?_append_left (by omega)] at hmax
      exact ih hi hmax
    · rw [List.getElem?_append_right (by omega), hlength, Nat.sub_self, List.getElem?_cons_zero] at hmax
      rw [← Option.some.inj hmax]
      cases (WordPresenceIndex.ofLeaves records).prefixMaxEndNs.getLast? with
      | none => exact le_rfl
      | some previous => exact le_max_right _ _

/-- The blocks found by the presence index are those with a leaf that meets the window. -/
theorem mem_intersectingBlockIndices {startNs endNs k : Nat} (h : startNs ≤ endNs)
    (ho : records.Pairwise fun a b => a.startNs ≤ b.startNs) :
    k ∈ intersectingBlockIndices (.ofLeaves records) startNs endNs ↔
      ∃ record ∈ records, record.startNs ≤ endNs ∧ startNs ≤ record.endNs ∧ record.firstBlock ≤ k ∧
        k < saturatingAdd record.firstBlock record.blockCount := by
  have hpart := @partitioned_le _ _ WordSummaryRecord.startNs ho endNs
  rw [intersectingBlockIndices, if_neg (Nat.not_lt.mpr h), WordPresenceIndex.leaves_ofLeaves]
  dsimp only
  generalize hfirst : partitionPoint (fun prefixEndNs => decide (prefixEndNs < startNs))
    (WordPresenceIndex.ofLeaves records).prefixMaxEndNs = first
  generalize hstop : partitionPoint (fun record => decide (WordSummaryRecord.startNs record ≤ endNs)) records = stop
  rw [mem_sortDedup, List.mem_flatMap]
  have hrange (record : WordSummaryRecord) :
      k ∈ List.range' record.firstBlock (saturatingAdd record.firstBlock record.blockCount - record.firstBlock) ↔
        record.firstBlock ≤ k ∧ k < saturatingAdd record.firstBlock record.blockCount := by
    rw [List.mem_range'_1]
    omega
  constructor
  · rintro ⟨record, hm, hk⟩
    obtain ⟨hm, hend⟩ := List.mem_filter.mp hm
    have htake := List.mem_of_mem_drop hm
    rw [← hstop, ← hpart.filter_eq] at htake
    obtain ⟨hmem, hstart⟩ := List.mem_filter.mp htake
    exact ⟨record, hmem, of_decide_eq_true hstart, of_decide_eq_true hend, (hrange record).mp hk⟩
  · rintro ⟨record, hm, hstart, hend, hk⟩
    obtain ⟨i, hi⟩ := List.mem_iff_getElem?.mp hm
    have hlt : i < stop := hstop ▸ (hpart.test_iff hi).mp (decide_eq_true hstart)
    have hfound : first ≤ i := by
      by_contra hbefore
      have hlen := (List.getElem?_eq_some_iff.mp hi).1
      rw [← prefixMaxEndNs_length] at hlen
      have hmax := List.getElem?_eq_getElem hlen
      have htest := test_of_lt hmax (show i < partitionPoint _ _ by rw [hfirst]; omega)
      have hle := le_prefixMaxEndNs hi hmax
      rw [decide_eq_true_eq] at htest
      omega
    refine ⟨record, List.mem_filter.mpr ⟨?_, decide_eq_true hend⟩, (hrange record).mpr hk⟩
    refine List.mem_iff_getElem?.mpr ⟨i - min first stop, ?_⟩
    rw [List.getElem?_drop, List.getElem?_take, show min first stop + (i - min first stop) = i by omega, if_pos hlt]
    exact hi

/-- A leaf of the block meets the window. -/
def Covered (presence : WordPresenceIndex) (k startNs endNs : Nat) : Prop :=
  ∃ record ∈ presence.leaves, record.firstBlock = k ∧ record.startNs ≤ endNs ∧ startNs ≤ record.endNs

def blocksBefore (directory : List BlockDirectoryEntry) (startNs : Nat) : Nat :=
  partitionPoint (fun entry => decide (entry.lastTimestampNs.toNat < startNs)) directory

def blocksUpTo (directory : List BlockDirectoryEntry) (endNs : Nat) : Nat :=
  partitionPoint (fun entry => decide (entry.firstTimestampNs.toNat ≤ endNs)) directory

section

variable (directory : List BlockDirectoryEntry)
include directory

theorem blocksBefore_le (startNs : Nat) :
    blocksBefore directory startNs ≤ directory.length := partitionPoint_le_length _ _

theorem blocksUpTo_le (endNs : Nat) :
    blocksUpTo directory endNs ≤ directory.length := partitionPoint_le_length _ _

theorem selectBlockIndices_sorted (presence : WordPresenceIndex)
    (startNs endNs : Nat) : (selectBlockIndices directory presence startNs endNs).Pairwise (· < ·) :=
  sortDedup_sorted _

end

section Stored

variable {checksum : BlockChecksum} {store : Store} {dispatched : List WordBlockBuilder} {startNs endNs : Nat}

theorem Stored.mem_select (h : Stored checksum store dispatched) (hrange : startNs ≤ endNs) (k : Nat) :
    k ∈ selectBlockIndices store.state.directory store.state.presence startNs endNs ↔
      Covered store.state.presence k startNs endNs ∨ k + 2 = blocksBefore store.state.directory startNs ∨
        k + 1 = blocksBefore store.state.directory startNs ∨
        k = blocksUpTo store.state.directory endNs ∧ k < store.state.directory.length := by
  have hleaves := h.leavesValid.ordered
  have hsmall := h.count
  have hlength := h.length_le
  have hcovered : k ∈ intersectingBlockIndices store.state.presence startNs endNs ↔
      Covered store.state.presence k startNs endNs := by
    rw [h.leaves] at hleaves
    rw [h.presence, mem_intersectingBlockIndices hrange hleaves, Covered, ← h.presence, h.leaves]
    refine exists_congr fun record => and_congr_right fun hm => ?_
    obtain ⟨builder, run, -, hlt, hrun, -⟩ := h.leaf_run (h.leaves ▸ hm)
    rw [hrun.blockCount, saturatingAdd_eq (show record.firstBlock + 1 ≤ u64Max by unfold u64Max; omega)]
    omega
  have hprevious : k ∈ (if 2 ≤ blocksBefore store.state.directory startNs then
      [blocksBefore store.state.directory startNs - 2] else []) ↔ k + 2 = blocksBefore store.state.directory startNs := by
    split <;> simp <;> omega
  have hpredecessor : k ∈ (if 1 ≤ blocksBefore store.state.directory startNs then
      [blocksBefore store.state.directory startNs - 1] else []) ↔ k + 1 = blocksBefore store.state.directory startNs := by
    split <;> simp <;> omega
  have hsuccessor : k ∈ (if blocksUpTo store.state.directory endNs < store.state.directory.length then
      [blocksUpTo store.state.directory endNs] else []) ↔
      k = blocksUpTo store.state.directory endNs ∧ k < store.state.directory.length := by
    split <;> simp <;> omega
  unfold selectBlockIndices
  dsimp only
  rw [← blocksBefore, ← blocksUpTo, mem_sortDedup, List.mem_append, List.mem_append, List.mem_append, hcovered, hprevious,
    hpredecessor, hsuccessor, or_assoc, or_assoc]

theorem Stored.select_lt (h : Stored checksum store dispatched) (hrange : startNs ≤ endNs)
    (hk : k ∈ selectBlockIndices store.state.directory store.state.presence startNs endNs) :
    k < store.state.directory.length := by
  have hbefore := blocksBefore_le store.state.directory startNs
  rcases (h.mem_select hrange k).mp hk with ⟨record, hm, rfl, -⟩ | hk | hk | ⟨-, hk⟩
  · obtain ⟨_, _, -, hlt, -⟩ := h.leaf_run hm
    exact hlt
  · omega
  · omega
  · exact hk

variable {entry : BlockDirectoryEntry}

theorem Stored.entry_times (h : Stored checksum store dispatched) (hk : store.state.directory[k]? = some entry) :
    ∃ builder, dispatched[k]? = some builder ∧ Closed builder ∧
      (∃ word, builder.words.head? = some word ∧ entry.firstTimestampNs.toNat = word.time) ∧
      ∃ word, builder.words.getLast? = some word ∧ entry.lastTimestampNs.toNat = word.time := by
  obtain ⟨builder, hb, hclosed, -, -, ⟨first, hfirst, hf⟩, last, hlast, hl⟩ := h.entry_words hk
  exact ⟨builder, hb, hclosed, ⟨first, hfirst, congrArg UInt64.toNat hf⟩, last, hlast, congrArg UInt64.toNat hl⟩

theorem Ordered.blocks {blocks : List WordBlockBuilder} (ho : Ordered (blocks.flatMap (·.words))) {i j : Nat}
    {earlier later : WordBlockBuilder} (hi : blocks[i]? = some earlier) (hj : blocks[j]? = some later) (hij : i < j) :
    ∀ a ∈ earlier.words, ∀ b ∈ later.words, a.time ≤ b.time := by
  obtain ⟨hilt, rfl⟩ := List.getElem?_eq_some_iff.mp hi
  obtain ⟨hjlt, rfl⟩ := List.getElem?_eq_some_iff.mp hj
  exact List.pairwise_iff_getElem.mp (List.pairwise_flatMap.mp ho).2 i j hilt hjlt hij

section

variable (h : Stored checksum store dispatched)
include h

theorem Stored.entries_ordered {i j : Nat} {a b : BlockDirectoryEntry}
    (hi : store.state.directory[i]? = some a) (hj : store.state.directory[j]? = some b) (hij : i < j) :
    a.lastTimestampNs.toNat ≤ b.firstTimestampNs.toNat := by
  obtain ⟨earlier, he, -, -, last, hlast, ha⟩ := h.entry_times hi
  obtain ⟨later, hl, -, ⟨first, hfirst, hb⟩, -⟩ := h.entry_times hj
  rw [ha, hb]
  exact h.ordered.blocks he hl hij last (List.mem_of_getLast? hlast) first (List.mem_of_head? hfirst)

theorem Stored.entry_le (hk : store.state.directory[k]? = some entry) :
    entry.firstTimestampNs.toNat ≤ entry.lastTimestampNs.toNat :=
  UInt64.le_iff_toNat_le.mp (h.entry_valid hk).ordered

theorem Stored.lt_blocksBefore {k : Nat} {entry : BlockDirectoryEntry}
    (hk : store.state.directory[k]? = some entry) :
    k < blocksBefore store.state.directory startNs ↔ entry.lastTimestampNs.toNat < startNs := by
  have hordered : store.state.directory.Pairwise fun a b => a.lastTimestampNs.toNat ≤ b.lastTimestampNs.toNat := by
    refine List.pairwise_iff_getElem.mpr fun i j hi hj hij => ?_
    have hb := List.getElem?_eq_getElem hj
    exact (h.entries_ordered (List.getElem?_eq_getElem hi) hb hij).trans (h.entry_le hb)
  have hpart := @partitioned_lt _ _ (fun entry : BlockDirectoryEntry => entry.lastTimestampNs.toNat) hordered startNs
  exact (hpart.test_iff hk).symm.trans decide_eq_true_iff

theorem Stored.lt_blocksUpTo {k : Nat} {entry : BlockDirectoryEntry}
    (hk : store.state.directory[k]? = some entry) :
    k < blocksUpTo store.state.directory endNs ↔ entry.firstTimestampNs.toNat ≤ endNs := by
  have hordered : store.state.directory.Pairwise fun a b => a.firstTimestampNs.toNat ≤ b.firstTimestampNs.toNat := by
    refine List.pairwise_iff_getElem.mpr fun i j hi hj hij => ?_
    have ha := List.getElem?_eq_getElem hi
    exact (h.entry_le ha).trans (h.entries_ordered ha (List.getElem?_eq_getElem hj) hij)
  have hpart := @partitioned_le _ _ (fun entry : BlockDirectoryEntry => entry.firstTimestampNs.toNat) hordered endNs
  exact (hpart.test_iff hk).symm.trans decide_eq_true_iff

end

theorem hasDurations_flag (d p g : Prop) [Decidable d] [Decidable p] [Decidable g] :
    ((if d then blockFlagHasDurations else 0) ||| (if p then blockFlagHasPayloads else 0) |||
      (if g then blockFlagGroupedTimestamps else 0)).toUInt8 &&& blockFlagHasDurations.toUInt8 ≠ 0 ↔ d := by
  by_cases hd : d <;> by_cases hp : p <;> by_cases hg : g <;> simp only [hd, hp, hg, if_true, if_false] <;>
    decide

theorem Stored.durations_flagged (h : Stored checksum store dispatched) {builder : WordBlockBuilder}
    (hk : store.state.directory[k]? = some entry) (hb : dispatched[k]? = some builder) {word : Word}
    (hm : word ∈ builder.words) (hd : word.durationNs ≠ 0) :
    entry.flags &&& blockFlagHasDurations.toUInt8 ≠ 0 := by
  obtain ⟨other, metadata, bytes, hother, hp⟩ := h.placed k entry hk
  obtain rfl := Option.some.inj (hb.symm.trans hother)
  have hclosed := h.blocks builder (List.mem_of_getElem? hb)
  obtain ⟨parts, hparts, hlayout⟩ := except_bind_ok hp.encode
  have hinput := hclosed.sized.blockInput hclosed.nonempty hclosed.ordered
  have hflags := (layoutBlock_ok hlayout).2.flags
  rw [hp.header]
  show metadata.header.flags.toUInt8 &&& _ ≠ 0
  rcases encodeParts_tables hinput hparts with hl | ⟨hdense, -⟩
  · rw [hflags, hl.flags, hasDurations_flag, hl.durationCount]
    exact List.countP_pos_iff.mpr ⟨word, hm, by simpa using hd⟩
  · exact absurd ((hinput.dense hdense).2.1 word hm).1 hd

/-- What the cache holds of the blocks of a store is what they decode to. -/
def CacheSound (checksum : BlockChecksum) (store : Store) (cache : DecodedBlockCache) : Prop :=
  ∀ entry ∈ store.state.directory, ∀ block, cache.blockAt ⟨store.storeId, entry.sequence⟩ = some block →
    store.readEntry checksum entry = .ok block

theorem cacheSound_new (checksum : BlockChecksum) (store : Store) (budgetBytes : Nat) :
    CacheSound checksum store (.new budgetBytes) := by
  intro entry _ block hcached
  cases hcached

theorem CacheSound.get {cache : DecodedBlockCache} (hcache : CacheSound checksum store cache) (key : BlockCacheKey) :
    CacheSound checksum store (cache.get key).2 := by
  intro entry hentry block hblock
  rw [DecodedBlockCache.get_blockAt] at hblock
  exact hcache entry hentry block hblock

def ReadWhole (cached : Bool) (entry : BlockDirectoryEntry) (startNs endNs : Nat) : Prop :=
  cached = true ∨ entry.NeedsWhole startNs endNs

instance (cached : Bool) (entry : BlockDirectoryEntry) (startNs endNs : Nat) :
    Decidable (ReadWhole cached entry startNs endNs) := by
  unfold ReadWhole
  infer_instance

def sliceOf (interval startNs endNs maxContextWords : Nat) (words : List Word) : List Word :=
  (words.drop (rangeFirst interval startNs words)).take
    (min (rangeStop endNs words - rangeFirst interval startNs words) maxContextWords)

theorem Stored.sequence_inj (h : Stored checksum store dispatched) {i j : Nat} {a b : BlockDirectoryEntry}
    (hi : store.state.directory[i]? = some a) (hj : store.state.directory[j]? = some b)
    (hsame : a.sequence = b.sequence) : a = b := by
  obtain ⟨_, _, _, -, ha⟩ := h.placed i a hi
  obtain ⟨_, _, _, -, hb⟩ := h.placed j b hj
  rw [ha.sequence, hb.sequence, ← UInt64.toNat_inj, UInt64.toNat_ofNat_of_lt' (h.index_lt hi),
    UInt64.toNat_ofNat_of_lt' (h.index_lt hj)] at hsame
  subst hsame
  exact Option.some.inj (hi.symm.trans hj)

section Cache

variable {sizes : DecodedSizes} {cache : DecodedBlockCache}

theorem Stored.readEntry_ok (h : Stored checksum store dispatched) (hk : store.state.directory[k]? = some entry) :
    ∃ builder block, dispatched[k]? = some builder ∧ store.readEntry checksum entry = .ok block ∧
      block.header.sequence = entry.sequence ∧ block.words = builder.words := by
  obtain ⟨builder, metadata, bytes, hb, hp⟩ := h.placed k entry hk
  have hclosed := h.blocks builder (List.mem_of_getElem? hb)
  refine ⟨builder, _, hb, hp.readEntry (h.index_lt hk) (h.segmentEnd_lt (List.mem_of_getElem? hk)) hclosed, ?_, rfl⟩
  rw [hp.header]
  rfl

/-- A query of one block leaves the cache sound. -/
theorem Stored.queryEntry_sound (h : Stored checksum store dispatched) (hcache : CacheSound checksum store cache)
    (hk : store.state.directory[k]? = some entry) (maxContextWords : Nat) :
    CacheSound checksum store
      (store.queryEntryWords checksum sizes entry startNs endNs maxContextWords cache).2 := by
  have hget := hcache.get ⟨store.storeId, entry.sequence⟩
  have hfetched (cache : DecodedBlockCache) (hcache : CacheSound checksum store cache) :
      CacheSound checksum store (store.readCachedEntry checksum sizes entry cache).2 := by
    obtain ⟨builder, block, -, hread, hsequence, -⟩ := h.readEntry_ok hk
    have hget := hcache.get ⟨store.storeId, entry.sequence⟩
    unfold Store.readCachedEntry
    rcases hpair : cache.get ⟨store.storeId, entry.sequence⟩ with ⟨found, next⟩
    rw [hpair] at hget
    cases found with
    | some block => exact hget
    | none =>
      simp only [hread]
      intro other hother found hfound
      rcases DecodedBlockCache.insert_blockAt hfound with ⟨hkey, rfl⟩ | hfound
      · obtain ⟨j, hj⟩ := List.mem_iff_getElem?.mp hother
        have hsame : other.sequence = entry.sequence := (congrArg BlockCacheKey.sequence hkey).trans hsequence
        rw [h.sequence_inj hj hk hsame]
        exact hread
      · exact hget other hother found hfound
  unfold Store.queryEntryWords
  rcases hpair : cache.get ⟨store.storeId, entry.sequence⟩ with ⟨found, next⟩
  rw [hpair] at hget
  cases found with
  | some block => exact hget
  | none =>
    dsimp only
    split
    · exact hfetched next hget
    · exact hget

/-- A query of one block gives its words, or a slice of them where the block is neither cached nor needed
as a whole. -/
theorem Stored.queryEntryWords (h : Stored checksum store dispatched) (hcache : CacheSound checksum store cache)
    (hrange : startNs ≤ endNs) {maxContextWords : Nat} (hmax : 0 < maxContextWords)
    (hk : store.state.directory[k]? = some entry) {cached : Bool}
    (hcached : cached = (cache.blockAt ⟨store.storeId, entry.sequence⟩).isSome) :
    ∃ builder block, dispatched[k]? = some builder ∧
      (store.queryEntryWords checksum sizes entry startNs endNs maxContextWords cache).1 = .ok block ∧
      block.words = if ReadWhole cached entry startNs endNs then builder.words
        else sliceOf builder.config.restartInterval startNs endNs maxContextWords builder.words := by
  have hmem := List.mem_of_getElem? hk
  obtain ⟨builder, decoded, hb, hread, -, hwords⟩ := h.readEntry_ok hk
  have hfound : (cache.get ⟨store.storeId, entry.sequence⟩).1 = cache.blockAt ⟨store.storeId, entry.sequence⟩ :=
    DecodedBlockCache.get_fst
  have hkept : (cache.get ⟨store.storeId, entry.sequence⟩).2.blockAt ⟨store.storeId, entry.sequence⟩ =
      cache.blockAt ⟨store.storeId, entry.sequence⟩ := DecodedBlockCache.get_blockAt
  unfold Store.queryEntryWords
  rcases hpair : cache.get ⟨store.storeId, entry.sequence⟩ with ⟨found, next⟩
  rw [hpair] at hfound hkept
  dsimp only at hfound hkept
  subst hfound
  cases hblock : cache.blockAt ⟨store.storeId, entry.sequence⟩ with
  | some block =>
    obtain rfl := Except.ok.inj ((hcache entry hmem block hblock).symm.trans hread)
    refine ⟨builder, .cached block, hb, rfl, ?_⟩
    have hwhole : ReadWhole cached entry startNs endNs := Or.inl (by rw [hcached, hblock]; rfl)
    rw [if_pos hwhole]
    exact hwords
  | none =>
    have hfalse : cached = false := by rw [hcached, hblock]; rfl
    rw [hblock] at hkept
    by_cases hwhole : entry.NeedsWhole startNs endNs
    · refine ⟨builder, .cached decoded, hb, ?_, ?_⟩
      · have hmiss : (next.get ⟨store.storeId, entry.sequence⟩).1 = none := DecodedBlockCache.get_fst.trans hkept
        simp only [if_pos hwhole, Store.readCachedEntry]
        rcases hagain : next.get ⟨store.storeId, entry.sequence⟩ with ⟨again, last⟩
        rw [hagain] at hmiss
        dsimp only at hmiss
        subst hmiss
        simp only [hread]
        rfl
      · have hread : ReadWhole cached entry startNs endNs := Or.inr hwhole
        rw [if_pos hread]
        exact hwords
    · have hnot : ¬ReadWhole cached entry startNs endNs := by
        rintro (hsome | hother)
        · rw [hfalse] at hsome
          cases hsome
        · exact hwhole hother
      obtain ⟨other, metadata, bytes, hother, hp⟩ := h.placed k entry hk
      obtain rfl := Option.some.inj (hb.symm.trans hother)
      have hclosed := h.blocks builder (List.mem_of_getElem? hb)
      obtain ⟨parsed, hencoded⟩ := WordBlockBuilder.encode_blockOf hclosed.sized hclosed.nonempty hclosed.ordered hp.encode
      have hrestarts := WordBlockBuilder.encode_restarts hclosed.sized hclosed.nonempty hclosed.ordered hp.encode
      obtain ⟨range, hdecode, hheader, hslice, -⟩ := hencoded.decodeRange hrestarts hclosed.sized.restartInterval
        hclosed.ordered hclosed.nonempty hrange hmax
      have hvalid : validateDirectoryHeader range.header entry = .ok () := by
        rw [hheader, hp.header]
        exact validateDirectoryHeader_ofHeader _ _ _ _
      refine ⟨builder, .sliced range.words range.complete, hb, ?_, ?_⟩
      · simp only [if_neg hwhole, Store.readPartialEntry, hp.readEntryBytes (h.index_lt hk) (h.segmentEnd_lt hmem),
          hdecode, Except.mapError, hvalid, bind, Except.bind, pure, Except.pure]
      · rw [if_neg hnot]
        exact hslice

end Cache

end Stored

namespace Store

/-- The words a query reads of block `k`; `cached` says whether the cache holds the block when its turn
comes. -/
def wordsRead (cached : Nat → Bool) (dispatched : List WordBlockBuilder) (store : Store)
    (startNs endNs maxContextWords k : Nat) : List Word :=
  match store.state.directory[k]?, dispatched[k]? with
  | some entry, some builder =>
    if ReadWhole (cached k) entry startNs endNs then builder.words
    else sliceOf builder.config.restartInterval startNs endNs maxContextWords builder.words
  | _, _ => []

/-- The cache as a query over a window leaves it behind one entry, whatever its limit. -/
def cacheAfter (checksum : BlockChecksum) (sizes : DecodedSizes) (store : Store) (startNs endNs : Nat)
    (cache : DecodedBlockCache) (entry : BlockDirectoryEntry) : DecodedBlockCache :=
  match cache.get ⟨store.storeId, entry.sequence⟩ with
  | (some _, cache) => cache
  | (none, cache) =>
    if entry.NeedsWhole startNs endNs then (store.readCachedEntry checksum sizes entry cache).2 else cache

/-- The cache behind the blocks of a list. -/
def cacheOver (checksum : BlockChecksum) (sizes : DecodedSizes) (store : Store) (startNs endNs : Nat)
    (cache : DecodedBlockCache) (indices : List Nat) : DecodedBlockCache :=
  (indices.filterMap (store.state.directory[·]?)).foldl (store.cacheAfter checksum sizes startNs endNs) cache

/-- Whether the cache holds block `k` when a query over a window comes to it: the blocks chosen before it may
have taken its place. -/
def cachedInTurn (checksum : BlockChecksum) (sizes : DecodedSizes) (store : Store) (startNs endNs : Nat)
    (cache : DecodedBlockCache) (k : Nat) : Bool :=
  let chosen := selectBlockIndices store.state.directory store.state.presence startNs endNs
  let turn := store.cacheOver checksum sizes startNs endNs cache (chosen.filter (· < k))
  store.state.directory[k]?.any fun entry => (turn.blockAt ⟨store.storeId, entry.sequence⟩).isSome

end Store

section Read

variable {checksum : BlockChecksum} {store : Store} {dispatched : List WordBlockBuilder} {startNs endNs : Nat}
  {cached : Nat → Bool} {maxContextWords k : Nat} {entry : BlockDirectoryEntry} {builder : WordBlockBuilder}

theorem wordsRead_whole (hk : store.state.directory[k]? = some entry) (hb : dispatched[k]? = some builder)
    (h : ReadWhole (cached k) entry startNs endNs) :
    store.wordsRead cached dispatched startNs endNs maxContextWords k = builder.words := by
  simp only [Store.wordsRead, hk, hb, if_pos h]

theorem wordsRead_slice (hk : store.state.directory[k]? = some entry) (hb : dispatched[k]? = some builder)
    (h : ¬ReadWhole (cached k) entry startNs endNs) :
    store.wordsRead cached dispatched startNs endNs maxContextWords k =
      sliceOf builder.config.restartInterval startNs endNs maxContextWords builder.words := by
  simp only [Store.wordsRead, hk, hb, if_neg h]

theorem sliceOf_sublist (interval startNs endNs maxContextWords : Nat) (words : List Word) :
    (sliceOf interval startNs endNs maxContextWords words).Sublist words :=
  (List.take_sublist _ _).trans (List.drop_sublist _ _)

theorem wordsRead_sublist (hb : dispatched[k]? = some builder) :
    (store.wordsRead cached dispatched startNs endNs maxContextWords k).Sublist builder.words := by
  cases hk : store.state.directory[k]? with
  | none =>
    simp only [Store.wordsRead, hk]
    exact List.nil_sublist _
  | some entry =>
    by_cases h : ReadWhole (cached k) entry startNs endNs
    · rw [wordsRead_whole hk hb h]
    · rw [wordsRead_slice hk hb h]
      exact sliceOf_sublist _ _ _ _ _

section Turn

variable {sizes : DecodedSizes} {cache : DecodedBlockCache}

theorem queryEntryWords_snd : (store.queryEntryWords checksum sizes entry startNs endNs maxContextWords cache).2 =
    store.cacheAfter checksum sizes startNs endNs cache entry := by
  unfold Store.queryEntryWords Store.cacheAfter
  split
  · rfl
  · split <;> rfl

theorem Stored.cacheOver_sound (h : Stored checksum store dispatched) (hcache : CacheSound checksum store cache)
    (indices : List Nat) : CacheSound checksum store (store.cacheOver checksum sizes startNs endNs cache indices) := by
  have hentries : ∀ entry ∈ indices.filterMap (store.state.directory[·]?), ∃ k : Nat, store.state.directory[k]? = some entry := by
    intro entry hm
    obtain ⟨k, -, hk⟩ := List.mem_filterMap.mp hm
    exact ⟨k, hk⟩
  unfold Store.cacheOver
  generalize indices.filterMap (store.state.directory[·]?) = entries at hentries
  induction entries generalizing cache with
  | nil => exact hcache
  | cons entry rest ih =>
    obtain ⟨k, hk⟩ := hentries entry List.mem_cons_self
    have hnext := @Stored.queryEntry_sound _ _ _ _ startNs endNs _ sizes _ h hcache hk 0
    rw [queryEntryWords_snd] at hnext
    exact ih hnext fun other hm => hentries other (List.mem_cons_of_mem _ hm)

variable {earlier rest : List Nat}

theorem cacheOver_concat (hk : store.state.directory[k]? = some entry) :
    store.cacheOver checksum sizes startNs endNs cache (earlier ++ [k]) =
      store.cacheAfter checksum sizes startNs endNs (store.cacheOver checksum sizes startNs endNs cache earlier) entry := by
  rw [Store.cacheOver, List.filterMap_append, List.foldl_append, List.filterMap_cons_some hk, List.filterMap_nil,
    List.foldl_cons, List.foldl_nil, Store.cacheOver]

variable (hchosen : selectBlockIndices store.state.directory store.state.presence startNs endNs = earlier ++ k :: rest)
include hchosen

theorem filter_chosen : (selectBlockIndices store.state.directory store.state.presence startNs endNs).filter (· < k) = earlier := by
  have hsorted := selectBlockIndices_sorted store.state.directory store.state.presence startNs endNs
  rw [hchosen] at hsorted ⊢
  obtain ⟨-, hrest, hcross⟩ := List.pairwise_append.mp hsorted
  have hbefore : ∀ j ∈ earlier, decide (j < k) = true := fun j hj => decide_eq_true (hcross j hj k List.mem_cons_self)
  have hafter : ∀ j ∈ k :: rest, ¬decide (j < k) = true := by
    intro j hj
    rw [decide_eq_true_eq, Nat.not_lt]
    rcases List.mem_cons.mp hj with rfl | hj
    · exact le_rfl
    · exact ((List.pairwise_cons.mp hrest).1 j hj).le
  rw [List.filter_append, List.filter_eq_self.mpr hbefore, List.filter_eq_nil_iff.mpr hafter, List.append_nil]

/-- The turn of a chosen block: the cache is the one the blocks before it leave. -/
theorem Stored.turn (h : Stored checksum store dispatched) (hcache : CacheSound checksum store cache)
    (hrange : startNs ≤ endNs) (hmax : 0 < maxContextWords) (hk : store.state.directory[k]? = some entry) :
    ∃ block, store.queryEntryWords checksum sizes entry startNs endNs maxContextWords
        (store.cacheOver checksum sizes startNs endNs cache earlier) =
          (.ok block, store.cacheOver checksum sizes startNs endNs cache (earlier ++ [k])) ∧
      block.words = store.wordsRead (store.cachedInTurn checksum sizes startNs endNs cache) dispatched startNs endNs
        maxContextWords k := by
  have hsound := @Stored.cacheOver_sound _ _ _ startNs endNs sizes _ h hcache earlier
  have hcached : store.cachedInTurn checksum sizes startNs endNs cache k =
      ((store.cacheOver checksum sizes startNs endNs cache earlier).blockAt ⟨store.storeId, entry.sequence⟩).isSome := by
    rw [Store.cachedInTurn, filter_chosen hchosen, hk]
    rfl
  obtain ⟨builder, block, hb, hok, hwords⟩ :=
    @Stored.queryEntryWords _ _ _ _ _ _ _ sizes _ h hsound hrange _ hmax hk _ hcached
  refine ⟨block, Prod.ext hok (queryEntryWords_snd.trans (cacheOver_concat hk).symm), ?_⟩
  rw [hwords]
  simp only [Store.wordsRead, hk, hb]

end Turn

theorem Stored.read_ordered (h : Stored checksum store dispatched) {read : Nat → List Word}
    (hsorted : indices.Pairwise (· < ·))
    (hread : ∀ k ∈ indices, ∃ builder, dispatched[k]? = some builder ∧ (read k).Sublist builder.words) :
    Ordered (indices.flatMap read) := by
  refine List.pairwise_flatMap.mpr ⟨?_, ?_⟩
  · intro k hk
    obtain ⟨builder, hb, hsub⟩ := hread k hk
    exact (h.blocks builder (List.mem_of_getElem? hb)).ordered.sublist hsub
  · refine hsorted.imp_of_mem fun {i j} hi hj hij => ?_
    obtain ⟨earlier, he, hsub⟩ := hread i hi
    obtain ⟨later, hl, hlaterSub⟩ := hread j hj
    exact fun a ha b hb => h.ordered.blocks he hl hij a (hsub.subset ha) b (hlaterSub.subset hb)

end Read

structure FinishedStore (checksum : BlockChecksum) (store : Store) (dispatched : List WordBlockBuilder) : Prop where
  stored : Stored checksum store dispatched
  status : store.state.status = .finished
  hotTail : store.state.hotTail = []

def Store.finishedWords (store : Store) (dispatched : List WordBlockBuilder) : List Word :=
  (dispatched.take store.state.directory.length).flatMap (·.words)

/-- A finish that succeeds leaves a finished store; where no block was lost it holds all words appended. -/
theorem finish_leaves_finished {checksum : BlockChecksum} {config : LiveStoreConfig} {repository : Repository}
    {storeId : UInt64} {choice : Choice} {machine : Machine}
    (h : createWriter config repository storeId choice = .ok machine) (calls : List Call)
    (hclean : ∀ step ∈ runCalls checksum calls machine, step.Clean checksum) {step : Step}
    (hstep : step ∈ runCalls checksum calls machine) (hop : step.call.op = .finish) (hok : step.result = .ok ()) :
    FinishedStore checksum step.after.store step.after.dispatched ∧
      step.after.store.finishedWords step.after.dispatched = step.after.appended := by
  obtain ⟨m, hrest, hof⟩ := runCalls_resting True h calls (fun _ => hclean) step hstep
  have hfinished := hof.finished hrest hop hok
  obtain ⟨htail, hvisible⟩ := hfinished.complete trivial
  refine ⟨⟨hfinished.stored, hfinished.status, htail⟩, ?_⟩
  rw [← hvisible]
  show _ = (step.after.dispatched.take step.after.store.state.directory.length).flatMap _ ++
    step.after.store.state.hotTail
  rw [htail, List.append_nil]
  rfl

/-- The sizes of a 64-bit target, with vectors as large as asked for. -/
def nativeSizes : DecodedSizes := ⟨128, 48, 16, id, id⟩

def emptyCache : DecodedBlockCache := .new 67108864

/-- The store a finish leaves is finished, with the words appended, and passes the test. -/
def Step.finishes (words : List Word) (test : Machine → Bool) (step : Step) : Bool :=
  step.call.op = .finish && decide (step.result = .ok ()) && step.after.appended = words && test step.after

theorem finishes_of_run {words : List Word} {test : Machine → Bool} {calls : List Call}
    (hrun : (createWriter { oneWordBlocks with block := .default } Repository.empty 0 (promptly 0)).toOption.any
      (fun machine => (runCalls .crc32c calls machine).any (Step.finishes words test)) = true)
    (hcalls : calls.all (·.op ≠ .publishHotTail) = true) :
    ∃ machine step, createWriter { oneWordBlocks with block := .default } Repository.empty 0 (promptly 0) = .ok machine ∧
      step ∈ runCalls .crc32c calls machine ∧ FinishedStore .crc32c step.after.store step.after.dispatched ∧
      step.after.store.finishedWords step.after.dispatched = words ∧ test step.after = true := by
  obtain ⟨machine, hcreate⟩ : ∃ machine, createWriter { oneWordBlocks with block := .default } Repository.empty 0
      (promptly 0) = .ok machine := ⟨_, rfl⟩
  rw [hcreate] at hrun
  obtain ⟨step, hstep, hdone⟩ := List.any_eq_true.mp hrun
  simp only [Step.finishes, Bool.and_eq_true, decide_eq_true_eq] at hdone
  obtain ⟨⟨⟨hop, hok⟩, happended⟩, htest⟩ := hdone
  have hclean : ∀ step ∈ runCalls .crc32c calls machine, step.Clean .crc32c := by
    intro other hm hpublish
    have hnone := List.all_eq_true.mp hcalls _ (runCalls_call_mem calls machine other hm)
    exact absurd hpublish (of_decide_eq_true hnone)
  obtain ⟨hfinished, hwords⟩ := finish_leaves_finished hcreate calls hclean hstep hop hok
  exact ⟨machine, step, hcreate, hstep, hfinished, hwords.trans happended, htest⟩

def wordsOfBlock (dispatched : List WordBlockBuilder) (k : Nat) : List Word :=
  (dispatched[k]?.map (·.words)).getD []

theorem wordsOfBlock_of {dispatched : List WordBlockBuilder} {builder : WordBlockBuilder}
    (h : dispatched[k]? = some builder) : wordsOfBlock dispatched k = builder.words := by
  rw [wordsOfBlock, h]
  rfl

theorem flatMap_take (dispatched : List WordBlockBuilder) (n : Nat) :
    (dispatched.take n).flatMap (·.words) = (List.range n).flatMap (wordsOfBlock dispatched) := by
  induction n with
  | zero => rfl
  | succ n ih =>
    rw [List.take_add_one, List.flatMap_append, ih, List.range_succ, List.flatMap_append, List.flatMap_singleton,
      wordsOfBlock]
    cases dispatched[n]? with
    | none => rfl
    | some builder => simp

/-- The last word of blocks taken in order stands in the last of them that is not empty. -/
theorem getLast?_flatMap {α : Type} {f : Nat → List α} (hsorted : indices.Pairwise (· < ·)) (hk : k ∈ indices)
    (hlater : ∀ j ∈ indices, k < j → f j = []) (hne : f k ≠ []) :
    (indices.flatMap f).getLast? = (f k).getLast? := by
  obtain ⟨earlier, later, rfl⟩ := List.append_of_mem hk
  have hnil : later.flatMap f = [] := by
    refine List.flatMap_eq_nil_iff.mpr fun j hj => ?_
    have hlt := (List.pairwise_cons.mp (List.pairwise_append.mp hsorted).2.1).1 j hj
    exact hlater j (List.mem_append_right _ (List.mem_cons_of_mem _ hj)) hlt
  rw [List.flatMap_append, List.flatMap_cons, hnil, List.append_nil, List.getLast?_append_of_ne_nil _ hne]

theorem getLast?_slice {α : Type} {xs : List α} {start stop : Nat} (h : start < stop) (hs : stop ≤ xs.length) :
    ((xs.take stop).drop start).getLast? = xs[stop - 1]? := by
  rw [List.getLast?_eq_getElem?, List.length_drop, List.length_take, min_eq_left hs, List.getElem?_drop,
    List.getElem?_take_of_lt (by omega), show start + (stop - start - 1) = stop - 1 by omega]

section Slices

variable {words : List Word} {timestampNs : Nat}

theorem Ordered.upTo (ho : Ordered words) (timestampNs : Nat) :
    (∀ word ∈ words.take (words.countP (·.time ≤ timestampNs)), word.time ≤ timestampNs) ∧
      ∀ word ∈ words.drop (words.countP (·.time ≤ timestampNs)), timestampNs < word.time := by
  have hpart := @partitioned_le _ _ Word.time ho timestampNs
  rw [hpart.countP_eq, ← hpart.filter_eq, ← hpart.filter_not_eq]
  exact ⟨fun word hm => by simpa using (List.mem_filter.mp hm).2, fun word hm => by
    simpa using (List.mem_filter.mp hm).2⟩

theorem Ordered.filter_slice (ho : Ordered words) (start stop : Nat) :
    ((words.take stop).drop start).filter (·.time ≤ timestampNs) =
      (words.take (min stop (words.countP (·.time ≤ timestampNs)))).drop start := by
  obtain ⟨hbefore, hafter⟩ := ho.upTo timestampNs
  generalize words.countP (·.time ≤ timestampNs) = count at hbefore hafter
  have hsplit : (words.take stop).drop start = (words.take (min stop count)).drop start ++
      ((words.drop count).take (stop - count)).drop (start - (words.take (min stop count)).length) := by
    rw [← List.drop_append]
    congr 1
    rcases Nat.le_total stop count with hle | hle
    · rw [min_eq_left hle, Nat.sub_eq_zero_of_le hle, List.take_zero, List.append_nil]
    · rw [min_eq_right hle, List.take_drop, Nat.add_sub_cancel' hle]
      conv_lhs => rw [← List.take_append_drop count (words.take stop), List.take_take, min_eq_left hle]
  have hkept : ((words.take (min stop count)).drop start).filter (·.time ≤ timestampNs) =
      (words.take (min stop count)).drop start := by
    refine List.filter_eq_self.mpr fun word hm => decide_eq_true (hbefore word ?_)
    exact (List.take_subset_take_left words (min_le_right stop count)) (List.mem_of_mem_drop hm)
  have hdropped : (((words.drop count).take (stop - count)).drop
      (start - (words.take (min stop count)).length)).filter (·.time ≤ timestampNs) = [] := by
    refine List.filter_eq_nil_iff.mpr fun word hm => ?_
    have hlater := hafter word (List.mem_of_mem_take (List.mem_of_mem_drop hm))
    simpa using hlater
  rw [hsplit, List.filter_append, hkept, hdropped, List.append_nil]

end Slices

end LogicConduit
