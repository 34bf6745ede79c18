import LogicConduit.WordQuery

namespace LogicConduit

def laterWord (latest : Option Word) (word : Word) : Option Word :=
  if latest.all (·.time ≤ word.time) then some word else latest

/-- `filter` and `max_by_key`. -/
def latestAtOrBefore (timestampNs : Nat) (words : List Word) : Option Word :=
  (words.filter (·.time ≤ timestampNs)).foldl laterWord none

namespace Store

def latestLoop (checksum : BlockChecksum) (sizes : DecodedSizes) (store : Store) (timestampNs : Nat) :
    List BlockDirectoryEntry → Option Word → DecodedBlockCache → AnnotationQueryResult (Option Word) × DecodedBlockCache
  | [], latest, cache => (.ok latest, cache)
  | entry :: rest, latest, cache =>
    match store.queryEntryWords checksum sizes entry timestampNs timestampNs 3 cache with
    | (.error error, cache) => (.error (queryStoreError error), cache)
    | (.ok block, cache) =>
      let latest := match latestAtOrBefore timestampNs block.words with
        | some word => laterWord latest word
        | none => latest
      latestLoop checksum sizes store timestampNs rest latest cache

def latestWordAtOrBefore (checksum : BlockChecksum) (sizes : DecodedSizes) (store : Store) (timestampNs : Nat)
    (cache : DecodedBlockCache) : AnnotationQueryResult (Option Word) × DecodedBlockCache :=
  let (_, entries, hotTail) := store.exactContext timestampNs timestampNs
  store.latestLoop checksum sizes timestampNs entries (latestAtOrBefore timestampNs hotTail) cache

end Store

theorem foldl_laterWord {words : List Word} {latest : Option Word} (h : Ordered (latest.toList ++ words)) :
    words.foldl laterWord latest = (latest.toList ++ words).getLast? := by
  induction words generalizing latest with
  | nil => cases latest <;> rfl
  | cons word rest ih =>
    have hlater : laterWord latest word = some word := by
      cases latest with
      | none => rfl
      | some other =>
        have hle : other.time ≤ word.time := (List.pairwise_cons.mp h).1 word List.mem_cons_self
        simp [laterWord, hle]
    have hrest : Ordered ((some word).toList ++ rest) := h.sublist (List.sublist_append_right _ _)
    rw [List.foldl_cons, hlater, ih hrest, Option.toList_some, List.singleton_append,
      List.getLast?_append_of_ne_nil _ (List.cons_ne_nil word rest)]

theorem latestAtOrBefore_eq {words : List Word} (h : Ordered words) (timestampNs : Nat) :
    latestAtOrBefore timestampNs words = (words.filter (·.time ≤ timestampNs)).getLast? :=
  @foldl_laterWord _ none (h.sublist List.filter_sublist)

theorem getLast?_toList_append {α : Type} (xs ys : List α) :
    (xs.getLast?.toList ++ ys).getLast? = (xs ++ ys).getLast? := by
  rw [List.getLast?_append, List.getLast?_append]
  cases xs.getLast? <;> rfl

section Lookup

variable {checksum : BlockChecksum} {store : Store} {dispatched : List WordBlockBuilder}
  {cached : Nat → Bool} {timestampNs : Nat}

def Store.latestRead (cached : Nat → Bool) (dispatched : List WordBlockBuilder) (store : Store)
    (timestampNs k : Nat) : List Word :=
  (store.wordsRead cached dispatched timestampNs timestampNs 3 k).filter (·.time ≤ timestampNs)

/-- The last word of those read. -/
def Store.latestFound (cached : Nat → Bool) (dispatched : List WordBlockBuilder) (store : Store) (timestampNs : Nat) :
    Option Word :=
  ((selectBlockIndices store.state.directory store.state.presence timestampNs timestampNs).flatMap
    (store.latestRead cached dispatched timestampNs)).getLast?

theorem latestLoop_eq (h : Stored checksum store dispatched) {sizes : DecodedSizes} {cache : DecodedBlockCache}
    (hcache : CacheSound checksum store cache) (earlier rest : List Nat)
    (hchosen : selectBlockIndices store.state.directory store.state.presence timestampNs timestampNs = earlier ++ rest)
    (hcached : cached = store.cachedInTurn checksum sizes timestampNs timestampNs cache) {latest : Option Word}
    (ho : Ordered (latest.toList ++ rest.flatMap (store.latestRead cached dispatched timestampNs))) :
    store.latestLoop checksum sizes timestampNs (rest.filterMap (store.state.directory[·]?)) latest
        (store.cacheOver checksum sizes timestampNs timestampNs cache earlier) =
      (.ok (latest.toList ++ rest.flatMap (store.latestRead cached dispatched timestampNs)).getLast?,
        store.cacheOver checksum sizes timestampNs timestampNs cache (earlier ++ rest)) := by
  induction rest generalizing earlier latest with
  | nil =>
    rw [List.append_nil]
    cases latest <;> rfl
  | cons k rest ih =>
    have hlt := h.select_lt (le_refl timestampNs) (hchosen ▸ List.mem_append_right _ List.mem_cons_self)
    have hk := List.getElem?_eq_getElem hlt
    obtain ⟨block, hok, hwords⟩ := @Stored.turn _ _ _ _ _ 3 _ _ sizes _ _ _ hchosen h hcache le_rfl (by decide) hk
    obtain ⟨builder, hb, hclosed, -⟩ := h.entry_times hk
    have hordered : Ordered block.words := hwords ▸ hclosed.ordered.sublist (wordsRead_sublist hb)
    have hread : block.words.filter (·.time ≤ timestampNs) = store.latestRead cached dispatched timestampNs k := by
      rw [hwords, Store.latestRead, hcached]
    rw [List.flatMap_cons, ← List.append_assoc] at ho ⊢
    generalize store.latestRead cached dispatched timestampNs k = found at hread ho
    -- the loop keeps the last of the words found so far
    have hnext : (match latestAtOrBefore timestampNs block.words with
        | some word => laterWord latest word
        | none => latest) = (latest.toList ++ found).getLast? := by
      have hboth : Ordered (latest.toList ++ found) := ho.sublist (List.sublist_append_left _ _)
      rw [latestAtOrBefore_eq hordered, hread]
      cases hlast : found.getLast? with
      | none =>
        rw [List.getLast?_eq_none_iff.mp hlast, List.append_nil]
        cases latest <;> rfl
      | some word =>
        obtain ⟨others, rfl⟩ := List.getLast?_eq_some_iff.mp hlast
        rw [← List.append_assoc, List.getLast?_concat]
        cases latest with
        | none => rfl
        | some other =>
          have hle : other.time ≤ word.time := (List.pairwise_cons.mp hboth).1 word (by simp)
          simp [laterWord, hle]
    have hkept : (((latest.toList ++ found).getLast?.toList) ++
        rest.flatMap (store.latestRead cached dispatched timestampNs)).Sublist
        (latest.toList ++ found ++ rest.flatMap (store.latestRead cached dispatched timestampNs)) := by
      refine List.Sublist.append_right ?_ _
      cases hlast : (latest.toList ++ found).getLast? with
      | none => exact List.nil_sublist _
      | some word => exact List.singleton_sublist.mpr (List.mem_of_getLast? hlast)
    have hrest := ih (earlier ++ [k]) (by rw [hchosen, List.append_assoc, List.singleton_append]) (ho.sublist hkept)
    rw [List.filterMap_cons_some hk, Store.latestLoop, hok]
    dsimp only
    rw [hnext, hrest, getLast?_toList_append, List.append_assoc earlier, List.singleton_append]

end Lookup

section Slices

variable {words : List Word} {timestampNs interval : Nat}

theorem filter_sliceOf (ho : Ordered words) (hne : words ≠ []) :
    (sliceOf interval timestampNs timestampNs 3 words).filter (·.time ≤ timestampNs) =
      (words.take (min (rangeFirst interval timestampNs words + 3) (words.countP (·.time ≤ timestampNs)))).drop
        (rangeFirst interval timestampNs words) := by
  have hlt := @rangeFirst_lt_rangeStop interval timestampNs timestampNs le_rfl words hne
  have hcount : words.countP (·.time ≤ timestampNs) ≤ words.length := List.countP_le_length
  rw [sliceOf, List.take_drop, ho.filter_slice]
  unfold rangeStop at hlt ⊢
  congr 2
  omega

theorem rangeFirst_lt_found (hfound : 0 < words.countP (·.time ≤ timestampNs)) :
    rangeFirst interval timestampNs words < words.countP (·.time ≤ timestampNs) := by
  have hle := countBefore_le_countP (le_refl timestampNs) words
  have hfirst := rangeFirst_eq interval timestampNs words
  split at hfirst <;> omega

theorem getLast?_sliceOf (ho : Ordered words) (hfound : 0 < words.countP (·.time ≤ timestampNs)) :
    ((sliceOf interval timestampNs timestampNs 3 words).filter (·.time ≤ timestampNs)).getLast? =
      words[min (rangeFirst interval timestampNs words + 3) (words.countP (·.time ≤ timestampNs)) - 1]? := by
  have hcount : words.countP (·.time ≤ timestampNs) ≤ words.length := List.countP_le_length
  have hlt := @rangeFirst_lt_found _ _ interval hfound
  rw [filter_sliceOf ho (List.ne_nil_of_length_pos (by omega)), getLast?_slice (by omega) (by omega)]

theorem getLast?_filter (ho : Ordered words) (hfound : 0 < words.countP (·.time ≤ timestampNs)) :
    (words.filter (·.time ≤ timestampNs)).getLast? = words[words.countP (·.time ≤ timestampNs) - 1]? := by
  have hcount : words.countP (·.time ≤ timestampNs) ≤ words.length := List.countP_le_length
  have hslice := @Ordered.filter_slice _ timestampNs ho 0 words.length
  rw [List.take_length, List.drop_zero, min_eq_right hcount] at hslice
  rw [hslice, getLast?_slice hfound hcount]

end Slices

section Lookup

variable {checksum : BlockChecksum} {store : Store} {dispatched : List WordBlockBuilder}
  {cached : Nat → Bool} {timestampNs k : Nat} {entry : BlockDirectoryEntry} {builder : WordBlockBuilder}

section

variable (h : Stored checksum store dispatched)
include h

section

variable (hk : blocksUpTo store.state.directory timestampNs ≤ k)
include hk

theorem later_words
    (hlt : k < store.state.directory.length) : (wordsOfBlock dispatched k).filter (·.time ≤ timestampNs) = [] := by
  have hentry := List.getElem?_eq_getElem hlt
  obtain ⟨builder, hb, hclosed, ⟨first, hfirst, htime⟩, -⟩ := h.entry_times hentry
  have hstart : timestampNs < first.time := by
    rw [← htime, ← Nat.not_le, ← h.lt_blocksUpTo hentry]
    omega
  rw [wordsOfBlock_of hb]
  refine List.filter_eq_nil_iff.mpr fun word hm => ?_
  obtain ⟨i, hi⟩ := List.mem_iff_getElem?.mp hm
  rw [List.head?_eq_getElem?] at hfirst
  have hle := hclosed.ordered.getElem?_le hfirst hi (Nat.zero_le _)
  rw [decide_eq_true_eq]
  omega

theorem latestRead_later : store.latestRead cached dispatched timestampNs k = [] := by
  rcases Nat.lt_or_ge k store.state.directory.length with hlt | hge
  · obtain ⟨builder, hb, -⟩ := h.entry_times (List.getElem?_eq_getElem hlt)
    have hnone := later_words h hk hlt
    rw [wordsOfBlock_of hb] at hnone
    exact List.eq_nil_of_subset_nil (hnone ▸ ((wordsRead_sublist hb).filter _).subset)
  · simp only [Store.latestRead, Store.wordsRead, List.getElem?_eq_none hge, List.filter_nil]

end

theorem found_pos (hk : store.state.directory[k]? = some entry)
    (hb : dispatched[k]? = some builder) (hlt : k < blocksUpTo store.state.directory timestampNs) :
    0 < builder.words.countP (·.time ≤ timestampNs) := by
  obtain ⟨other, hother, -, ⟨first, hfirst, htime⟩, -⟩ := h.entry_times hk
  obtain rfl := Option.some.inj (hb.symm.trans hother)
  have hle := (h.lt_blocksUpTo hk).mp hlt
  rw [htime] at hle
  exact List.countP_pos_iff.mpr ⟨first, List.mem_of_head? hfirst, by simpa using hle⟩

end

theorem latestRead_ne_nil {words : List Word} {i : Nat} (hi : i < words.length) {found : List Word}
    (hlast : found.getLast? = words[i]?) : found ≠ [] := by
  intro hnil
  rw [hnil, List.getElem?_eq_getElem hi] at hlast
  cases hlast

theorem latestRead_last (h : Stored checksum store dispatched) (hk : store.state.directory[k]? = some entry)
    (hb : dispatched[k]? = some builder) (hlt : k < blocksUpTo store.state.directory timestampNs) :
    (ReadWhole (cached k) entry timestampNs timestampNs → (store.latestRead cached dispatched timestampNs k).getLast? =
        builder.words[builder.words.countP (·.time ≤ timestampNs) - 1]?) ∧
      (¬ReadWhole (cached k) entry timestampNs timestampNs → (store.latestRead cached dispatched timestampNs k).getLast? =
        builder.words[min (rangeFirst builder.config.restartInterval timestampNs builder.words + 3)
          (builder.words.countP (·.time ≤ timestampNs)) - 1]?) ∧
      store.latestRead cached dispatched timestampNs k ≠ [] := by
  have ho := (h.blocks builder (List.mem_of_getElem? hb)).ordered
  have hfound := found_pos h hk hb hlt
  have hcount : builder.words.countP (·.time ≤ timestampNs) ≤ builder.words.length := List.countP_le_length
  unfold Store.latestRead
  by_cases hread : ReadWhole (cached k) entry timestampNs timestampNs
  · rw [wordsRead_whole hk hb hread]
    have hlast := getLast?_filter ho hfound
    exact ⟨fun _ => hlast, fun hnot => absurd hread hnot, latestRead_ne_nil (by omega) hlast⟩
  · rw [wordsRead_slice hk hb hread]
    have hlast := @getLast?_sliceOf _ _ builder.config.restartInterval ho hfound
    exact ⟨fun hyes => absurd hyes hread, fun _ => hlast, latestRead_ne_nil (by omega) hlast⟩

theorem latestRead_before (h : Stored checksum store dispatched) (hk : store.state.directory[k]? = some entry)
    (hb : dispatched[k]? = some builder) (hlt : k < blocksBefore store.state.directory timestampNs) :
    (store.latestRead cached dispatched timestampNs k).getLast? = builder.words.getLast? ∧
      store.latestRead cached dispatched timestampNs k ≠ [] ∧
      builder.words.countP (·.time ≤ timestampNs) = builder.words.length := by
  obtain ⟨other, hother, hclosed, -, last, hlast, htime⟩ := h.entry_times hk
  obtain rfl := Option.some.inj (hb.symm.trans hother)
  have hend := (h.lt_blocksBefore hk).mp hlt
  have hstart := (h.entry_le hk).trans hend.le
  have hall : ∀ word ∈ builder.words, word.time < timestampNs := by
    intro word hm
    obtain ⟨i, hi⟩ := List.mem_iff_getElem?.mp hm
    have hi' := (List.getElem?_eq_some_iff.mp hi).1
    have hlast' := hlast
    rw [List.getLast?_eq_getElem?] at hlast'
    have hle := hclosed.ordered.getElem?_le hi hlast' (by omega)
    omega
  have hcount : builder.words.countP (·.time ≤ timestampNs) = builder.words.length :=
    List.countP_eq_length.mpr fun word hm => decide_eq_true (hall word hm).le
  have hbefore : countBefore timestampNs builder.words = builder.words.length :=
    List.countP_eq_length.mpr fun word hm => decide_eq_true (hall word hm)
  obtain ⟨hwhole, hslice, hne⟩ := @latestRead_last _ _ _ cached _ _ _ _ h hk hb ((h.lt_blocksUpTo hk).mpr hstart)
  have hfirst := rangeFirst_eq builder.config.restartInterval timestampNs builder.words
  have hend : builder.words.getLast? = builder.words[builder.words.length - 1]? := List.getLast?_eq_getElem?
  refine ⟨?_, hne, hcount⟩
  rw [hend]
  by_cases hread : ReadWhole (cached k) entry timestampNs timestampNs
  · rw [hwhole hread, hcount]
  · rw [hslice hread, hcount, min_eq_right (by split at hfirst <;> omega)]

end Lookup

/-- A lookup finds the last word at or before the time. Only a block that starts up to the time and ends
at it or behind it can fail: a leaf of the index has to cover the time, with few enough words at it for a
slice where the cache does not hold the block in its turn, or the word before the block is the same. -/
def FindsLatest (cached : Nat → Bool) (dispatched : List WordBlockBuilder) (store : Store) (timestampNs : Nat) : Prop :=
  ∀ (k : Nat) (entry : BlockDirectoryEntry) (builder : WordBlockBuilder),
    k + 1 = blocksUpTo store.state.directory timestampNs → store.state.directory[k]? = some entry →
    dispatched[k]? = some builder → timestampNs ≤ entry.lastTimestampNs.toNat →
    let first := rangeFirst builder.config.restartInterval timestampNs builder.words
    let found := builder.words.countP (·.time ≤ timestampNs)
    (Covered store.state.presence k timestampNs timestampNs → ReadWhole (cached k) entry timestampNs timestampNs ∨
      found ≤ first + 3 ∨ builder.words[first + 2]? = builder.words[found - 1]?) ∧
    (¬Covered store.state.presence k timestampNs timestampNs →
      0 < k ∧ (wordsOfBlock dispatched (k - 1)).getLast? = builder.words[found - 1]?)

section Lookup

variable {checksum : BlockChecksum} {store : Store} {dispatched : List WordBlockBuilder}
  {cached : Nat → Bool} {timestampNs k : Nat} {entry : BlockDirectoryEntry} {builder : WordBlockBuilder}

section

variable (h : FinishedStore checksum store dispatched)
include h

theorem FinishedStore.latestWord_eq {sizes : DecodedSizes} {cache : DecodedBlockCache}
    (hcache : CacheSound checksum store cache) :
    (store.latestWordAtOrBefore checksum sizes timestampNs cache).1 =
      .ok (store.latestFound (store.cachedInTurn checksum sizes timestampNs timestampNs cache) dispatched timestampNs) := by
  have hsorted := selectBlockIndices_sorted store.state.directory store.state.presence timestampNs timestampNs
  have ho : Ordered ((none : Option Word).toList ++
      (selectBlockIndices store.state.directory store.state.presence timestampNs timestampNs).flatMap
        (store.latestRead (store.cachedInTurn checksum sizes timestampNs timestampNs cache) dispatched timestampNs)) := by
    refine h.stored.read_ordered hsorted fun k hk => ?_
    obtain ⟨builder, hb, -⟩ := h.stored.entry_times (List.getElem?_eq_getElem (h.stored.select_lt (le_refl timestampNs) hk))
    exact ⟨builder, hb, List.filter_sublist.trans (wordsRead_sublist hb)⟩
  have hloop := latestLoop_eq h.stored hcache [] _ (List.nil_append _).symm rfl ho
  rw [Store.latestWordAtOrBefore, Store.exactContext]
  dsimp only
  rw [h.hotTail]
  exact congrArg Prod.fst hloop

theorem FinishedStore.expected
    (hk : store.state.directory[k]? = some entry) (hb : dispatched[k]? = some builder)
    (hlast : k + 1 = blocksUpTo store.state.directory timestampNs) :
    ((store.finishedWords dispatched).filter (·.time ≤ timestampNs)).getLast? =
      builder.words[builder.words.countP (·.time ≤ timestampNs) - 1]? := by
  have ho := (h.stored.blocks builder (List.mem_of_getElem? hb)).ordered
  have hfound := found_pos h.stored hk hb (show k < blocksUpTo store.state.directory timestampNs by omega)
  have hcount : builder.words.countP (·.time ≤ timestampNs) ≤ builder.words.length := List.countP_le_length
  have hlt := (List.getElem?_eq_some_iff.mp hk).1
  have hblock := getLast?_filter ho hfound
  rw [Store.finishedWords, flatMap_take, List.filter_flatMap]
  rw [getLast?_flatMap List.pairwise_lt_range (List.mem_range.mpr hlt), wordsOfBlock_of hb, hblock]
  · intro j hj hkj
    exact later_words h.stored (by omega) (List.mem_range.mp hj)
  · rw [wordsOfBlock_of hb]
    exact latestRead_ne_nil (by omega) hblock

theorem FinishedStore.expected_none (hnone : blocksUpTo store.state.directory timestampNs = 0) :
    (store.finishedWords dispatched).filter (·.time ≤ timestampNs) = [] := by
  rw [Store.finishedWords, flatMap_take, List.filter_flatMap, List.flatMap_eq_nil_iff]
  intro k hk
  exact later_words h.stored (by omega) (List.mem_range.mp hk)

/-- A lookup gives what it finds in the last chosen block that starts up to the time. -/
theorem FinishedStore.latestFound_of
    (hk : k ∈ selectBlockIndices store.state.directory store.state.presence timestampNs timestampNs)
    (hlater : ∀ j ∈ selectBlockIndices store.state.directory store.state.presence timestampNs timestampNs,
      k < j → blocksUpTo store.state.directory timestampNs ≤ j)
    (hne : store.latestRead cached dispatched timestampNs k ≠ []) :
    store.latestFound cached dispatched timestampNs = (store.latestRead cached dispatched timestampNs k).getLast? := by
  rw [Store.latestFound, getLast?_flatMap (selectBlockIndices_sorted _ _ _ _) hk _ hne]
  exact fun j hj hkj => latestRead_later h.stored (hlater j hj hkj)

end

theorem blocksBefore_le_blocksUpTo (h : Stored checksum store dispatched) :
    blocksBefore store.state.directory timestampNs ≤ blocksUpTo store.state.directory timestampNs := by
  by_contra hlt
  have hle := blocksBefore_le store.state.directory timestampNs
  have hk := List.getElem?_eq_getElem
    (show blocksUpTo store.state.directory timestampNs < store.state.directory.length by omega)
  have hend := (h.lt_blocksBefore hk).mp (Nat.not_le.mp hlt)
  have hstart := (h.lt_blocksUpTo hk).mpr ((h.entry_le hk).trans hend.le)
  omega

section LastBlock

variable (h : FinishedStore checksum store dispatched) (hk : store.state.directory[k]? = some entry) (hb : dispatched[k]? = some builder)
  (hlast : k + 1 = blocksUpTo store.state.directory timestampNs)
include h hk hb hlast

/-- A block that ends before the time is the predecessor of the window, and read up to its last word. -/
theorem lookup_before (hend : entry.lastTimestampNs.toNat < timestampNs) :
    store.latestFound cached dispatched timestampNs =
      builder.words[builder.words.countP (·.time ≤ timestampNs) - 1]? := by
  have hbefore := (h.stored.lt_blocksBefore hk).mpr hend
  have hmono := @blocksBefore_le_blocksUpTo _ _ _ timestampNs h.stored
  obtain ⟨hends, hne, hall⟩ := @latestRead_before _ _ _ cached _ _ _ _ h.stored hk hb hbefore
  have hchosen := (h.stored.mem_select (le_refl timestampNs) k).mpr (Or.inr (Or.inr (Or.inl (by omega))))
  rw [h.latestFound_of hchosen (fun j _ hj => by omega) hne, hends, hall, List.getLast?_eq_getElem?]

/-- In a block that the index finds, a slice may end before the word. -/
theorem lookup_covered (hcovered : Covered store.state.presence k timestampNs timestampNs) :
    store.latestFound cached dispatched timestampNs =
        builder.words[builder.words.countP (·.time ≤ timestampNs) - 1]? ↔
      ReadWhole (cached k) entry timestampNs timestampNs ∨
        builder.words.countP (·.time ≤ timestampNs) ≤
            rangeFirst builder.config.restartInterval timestampNs builder.words + 3 ∨
        builder.words[rangeFirst builder.config.restartInterval timestampNs builder.words + 2]? =
          builder.words[builder.words.countP (·.time ≤ timestampNs) - 1]? := by
  obtain ⟨hwhole, hslice, hne⟩ := @latestRead_last _ _ _ cached timestampNs _ _ _ h.stored hk hb (by omega)
  have hchosen := (h.stored.mem_select (le_refl timestampNs) k).mpr (Or.inl hcovered)
  rw [h.latestFound_of hchosen (fun j _ hj => by omega) hne]
  by_cases hread : ReadWhole (cached k) entry timestampNs timestampNs
  · exact iff_of_true (hwhole hread) (Or.inl hread)
  · rw [hslice hread, or_iff_right hread]
    rcases Nat.lt_or_ge (rangeFirst builder.config.restartInterval timestampNs builder.words + 3)
      (builder.words.countP (·.time ≤ timestampNs)) with hcut | hall
    · rw [min_eq_left hcut.le, or_iff_right (Nat.not_le.mpr hcut)]
      rfl
    · rw [min_eq_right hall]
      exact iff_of_true rfl (Or.inl hall)

/-- A block that goes on behind the time without a leaf there is not read: the lookup stops at the block
before it. -/
theorem lookup_skipped (hend : timestampNs ≤ entry.lastTimestampNs.toNat)
    (hcovered : ¬Covered store.state.presence k timestampNs timestampNs) :
    store.latestFound cached dispatched timestampNs =
        builder.words[builder.words.countP (·.time ≤ timestampNs) - 1]? ↔
      0 < k ∧ (wordsOfBlock dispatched (k - 1)).getLast? =
        builder.words[builder.words.countP (·.time ≤ timestampNs) - 1]? := by
  have hle := blocksUpTo_le store.state.directory timestampNs
  have hselect := h.stored.mem_select (le_refl timestampNs)
  have hnotBefore : ¬k < blocksBefore store.state.directory timestampNs := by
    rw [h.stored.lt_blocksBefore hk]
    omega
  have hstart : entry.firstTimestampNs.toNat < timestampNs := by
    have hupTo := (h.stored.lt_blocksUpTo hk).mp (show k < blocksUpTo store.state.directory timestampNs by omega)
    obtain ⟨other, hother, -, ⟨first, hfirst, htime⟩, -⟩ := h.stored.entry_times hk
    obtain rfl := Option.some.inj (hb.symm.trans hother)
    rw [htime] at hupTo ⊢
    rcases Nat.lt_or_eq_of_le hupTo with hlt | rfl
    · exact hlt
    · obtain ⟨record, hrecord, hblock, hbegin, hreach⟩ := h.stored.word_covered hb (by omega) (List.mem_of_head? hfirst)
      have hends := saturatingAdd_le first.time first.duration (Nat.le_of_lt_succ first.time_lt)
      exact absurd ⟨record, hrecord, hblock, hbegin, hends.trans hreach⟩ hcovered
  have hskipped : k ∉ selectBlockIndices store.state.directory store.state.presence timestampNs timestampNs := by
    rw [hselect]
    rintro (hyes | hbefore | hbefore | ⟨hsuccessor, -⟩)
    · exact hcovered hyes
    all_goals omega
  rcases Nat.eq_zero_or_pos k with rfl | hk0
  · have hfound := found_pos h.stored hk hb (show 0 < blocksUpTo store.state.directory timestampNs by omega)
    have hcount : builder.words.countP (·.time ≤ timestampNs) ≤ builder.words.length := List.countP_le_length
    have hword := List.getElem?_eq_getElem
      (show builder.words.countP (·.time ≤ timestampNs) - 1 < builder.words.length by omega)
    refine iff_of_false ?_ fun hlt => absurd hlt.1 (lt_irrefl 0)
    rw [Store.latestFound, List.flatMap_eq_nil_iff.mpr, List.getLast?_nil, hword]
    · exact fun hsame => Option.some_ne_none _ hsame.symm
    · intro j hj
      have hne : j ≠ 0 := fun hzero => hskipped (hzero ▸ hj)
      exact latestRead_later h.stored (by omega)
  · obtain ⟨j, rfl⟩ : ∃ j, k = j + 1 := ⟨k - 1, by omega⟩
    have hj := List.getElem?_eq_getElem (show j < store.state.directory.length by omega)
    obtain ⟨previous, hp, -⟩ := h.stored.entry_times hj
    have hordered := h.stored.entries_ordered hj hk (Nat.lt_succ_self j)
    have hjBefore : j < blocksBefore store.state.directory timestampNs :=
      (h.stored.lt_blocksBefore hj).mpr (hordered.trans_lt hstart)
    obtain ⟨hends, hne, -⟩ := @latestRead_before _ _ _ cached _ _ _ _ h.stored hj hp hjBefore
    have hchosen := (hselect j).mpr (Or.inr (Or.inr (Or.inl (by omega))))
    have hlater : ∀ i ∈ selectBlockIndices store.state.directory store.state.presence timestampNs timestampNs,
        j < i → blocksUpTo store.state.directory timestampNs ≤ i := by
      intro i hi hji
      have hother : i ≠ j + 1 := fun hsame => hskipped (hsame ▸ hi)
      omega
    rw [h.latestFound_of hchosen hlater hne, hends, Nat.add_sub_cancel, wordsOfBlock_of hp,
      and_iff_right hk0]

end LastBlock

/-- A lookup gives the last word at or before the time exactly when the block that holds it is read up
to that word. -/
theorem latest_word_is_found (h : FinishedStore checksum store dispatched) {sizes : DecodedSizes}
    {cache : DecodedBlockCache} (hcache : CacheSound checksum store cache) :
    (store.latestWordAtOrBefore checksum sizes timestampNs cache).1 =
        .ok ((store.finishedWords dispatched).filter (·.time ≤ timestampNs)).getLast? ↔
      FindsLatest (store.cachedInTurn checksum sizes timestampNs timestampNs cache) dispatched store timestampNs := by
  rw [h.latestWord_eq hcache, Except.ok.injEq]
  have hle := blocksUpTo_le store.state.directory timestampNs
  rcases Nat.eq_zero_or_pos (blocksUpTo store.state.directory timestampNs) with hnone | hpos
  · refine iff_of_true ?_ fun k _ _ hk => by omega
    rw [Store.latestFound, h.expected_none hnone,
      List.flatMap_eq_nil_iff.mpr fun k _ => latestRead_later h.stored (by omega)]
  · obtain ⟨k, hlast⟩ : ∃ k, k + 1 = blocksUpTo store.state.directory timestampNs :=
      ⟨blocksUpTo store.state.directory timestampNs - 1, by omega⟩
    have hk := List.getElem?_eq_getElem (show k < store.state.directory.length by omega)
    generalize store.state.directory[k] = entry at hk
    obtain ⟨builder, hb, -⟩ := h.stored.entry_times hk
    rw [h.expected hk hb hlast]
    constructor
    · intro hfound j other block hj hother hblock hend
      obtain rfl : j = k := by omega
      obtain rfl := Option.some.inj (hk.symm.trans hother)
      obtain rfl := Option.some.inj (hb.symm.trans hblock)
      exact ⟨fun hcovered => (lookup_covered h hk hb hlast hcovered).mp hfound,
        fun hcovered => (lookup_skipped h hk hb hlast hend hcovered).mp hfound⟩
    · intro hfinds
      rcases Nat.lt_or_ge entry.lastTimestampNs.toNat timestampNs with hend | hend
      · exact lookup_before h hk hb hlast hend
      · obtain ⟨hyes, hno⟩ := hfinds k entry builder hlast hk hb hend
        by_cases hcovered : Covered store.state.presence k timestampNs timestampNs
        · exact (lookup_covered h hk hb hlast hcovered).mpr (hyes hcovered)
        · exact (lookup_skipped h hk hb hlast hend hcovered).mpr (hno hcovered)

end Lookup

/-- Two words close together and a third one half a millisecond later, in one block. -/
def pausedWords : List Word := [.new 1 0, .new 2 10, .new 3 500000]

def pausedCalls : List Call := [⟨.appendBatch pausedWords, promptly⟩, ⟨.finish, promptly⟩]

/-- In the pause the block has no leaf, so the lookup does not read it and finds nothing. -/
theorem latest_word_misses_pause :
    ∃ machine step, createWriter { oneWordBlocks with block := .default } Repository.empty 0 (promptly 0) = .ok machine ∧
      step ∈ runCalls .crc32c pausedCalls machine ∧ FinishedStore .crc32c step.after.store step.after.dispatched ∧
      CacheSound .crc32c step.after.store emptyCache ∧
      step.after.store.finishedWords step.after.dispatched = pausedWords ∧
      (step.after.store.latestWordAtOrBefore .crc32c nativeSizes 1000 emptyCache).1 = .ok none ∧
      ¬(step.after.store.latestWordAtOrBefore .crc32c nativeSizes 1000 emptyCache).1 =
        .ok ((step.after.store.finishedWords step.after.dispatched).filter (·.time ≤ 1000)).getLast? := by
  obtain ⟨machine, step, hcreate, hstep, hfinished, hwords, htest⟩ := @finishes_of_run pausedWords
    (fun machine => decide ((machine.store.latestWordAtOrBefore .crc32c nativeSizes 1000 emptyCache).1 = .ok none))
    pausedCalls (by decide +kernel) (by decide)
  have hnone := of_decide_eq_true htest
  refine ⟨machine, step, hcreate, hstep, hfinished, cacheSound_new _ _ _, hwords, hnone, ?_⟩
  rw [hnone, hwords]
  decide

theorem latest_word_is_found_after :
    ∃ machine step, createWriter { oneWordBlocks with block := .default } Repository.empty 0 (promptly 0) = .ok machine ∧
      step ∈ runCalls .crc32c pausedCalls machine ∧
      (step.after.store.latestWordAtOrBefore .crc32c nativeSizes 600000 emptyCache).1 = .ok (some (.new 3 500000)) := by
  obtain ⟨machine, step, hcreate, hstep, hfinished, hwords, htest⟩ := @finishes_of_run pausedWords
    (fun machine => machine.store.state.directory.all fun entry => decide (entry.lastTimestampNs.toNat < 600000)) pausedCalls
    (by decide +kernel) (by decide)
  have hfound := (@latest_word_is_found _ _ _ 600000 hfinished nativeSizes emptyCache (cacheSound_new _ _ _)).mpr (by
    intro k entry builder _ hk _ hend
    have hlt := of_decide_eq_true (List.all_eq_true.mp htest entry (List.mem_of_getElem? hk))
    omega)
  rw [hwords] at hfound
  exact ⟨machine, step, hcreate, hstep, hfound⟩

end LogicConduit
