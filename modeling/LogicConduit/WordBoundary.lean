import LogicConduit.BestCandidate
import LogicConduit.WordNeighbours

namespace LogicConduit

open BestCandidate

def absDiff (a b : Nat) : Nat := (a - b) + (b - a)

/-- One candidate, against the nearest boundary so far and its distance. -/
def considerBoundary (target maxDistance : Nat) (nearest : Option (Nat × Nat)) (boundary : Nat) : Option (Nat × Nat) :=
  let distance := absDiff boundary target
  if maxDistance < distance then nearest
  else if nearest.all fun (bestBoundary, bestDistance) =>
      decide (distance < bestDistance ∨ distance = bestDistance ∧ boundary < bestBoundary) then
    some (boundary, distance)
  else nearest

def boundariesOf (words : List Word) : List Nat :=
  words.zipIdx.flatMap fun (word, index) => [word.time, wordEndNs words index]

def nearestBoundaryFromOrderedWords (words : List Word) (timestampNs maxDistanceNs : Nat) : Option Nat :=
  ((boundariesOf words).foldl (considerBoundary timestampNs maxDistanceNs) none).map Prod.fst

def sortByTime (words : List Word) : List Word := words.insertionSort (fun a b => a.time ≤ b.time)

namespace Store

def boundaryContext (store : Store) (timestampNs maxDistanceNs : Nat) : List BlockDirectoryEntry × List Word :=
  let indices := selectBlockIndices store.state.directory store.state.presence (timestampNs - maxDistanceNs)
    (saturatingAdd timestampNs maxDistanceNs)
  (indices.filterMap (store.state.directory[·]?), store.state.hotTail)

def contextLoop (checksum : BlockChecksum) (sizes : DecodedSizes) (store : Store) (lower upper : Nat) :
    List BlockDirectoryEntry → DecodedBlockCache → AnnotationQueryResult (List Word) × DecodedBlockCache
  | [], cache => (.ok [], cache)
  | entry :: rest, cache =>
    match store.queryEntryWords checksum sizes entry lower upper (entry.wordCount.toNat + 2) cache with
    | (.error error, cache) => (.error (queryStoreError error), cache)
    | (.ok block, cache) =>
      let (later, cache) := contextLoop checksum sizes store lower upper rest cache
      (later.map (block.words ++ ·), cache)

def nearestBoundary (checksum : BlockChecksum) (sizes : DecodedSizes) (store : Store) (timestampNs maxDistanceNs : Nat)
    (cache : DecodedBlockCache) : AnnotationQueryResult (Option Nat) × DecodedBlockCache :=
  let (entries, hotTail) := store.boundaryContext timestampNs maxDistanceNs
  let (words, cache) := store.contextLoop checksum sizes (timestampNs - maxDistanceNs)
    (saturatingAdd timestampNs maxDistanceNs) entries cache
  let nearest := words.map fun words =>
    let context := (sortByTime (words ++ hotTail)).destutter (· ≠ ·)
    nearestBoundaryFromOrderedWords context timestampNs maxDistanceNs
  (nearest, cache)

end Store

/-- The distance of a boundary, and of two at one distance the earlier first. -/
def boundaryKey (timestampNs boundary : Nat) : Lex (Nat × Nat) := toLex (absDiff boundary timestampNs, boundary)

def inReach (timestampNs maxDistanceNs boundary : Nat) : Bool := absDiff boundary timestampNs ≤ maxDistanceNs

theorem boundaryKey_injective (timestampNs : Nat) : Function.Injective (boundaryKey timestampNs) := by
  intro a b h
  exact (Prod.mk.inj (toLex.injective h)).2

theorem boundaryKey_lt {timestampNs a b : Nat} : boundaryKey timestampNs a < boundaryKey timestampNs b ↔
    absDiff a timestampNs < absDiff b timestampNs ∨ absDiff a timestampNs = absDiff b timestampNs ∧ a < b :=
  Prod.Lex.toLex_lt_toLex

theorem boundaryKey_le {timestampNs a b : Nat} : boundaryKey timestampNs a ≤ boundaryKey timestampNs b ↔
    absDiff a timestampNs < absDiff b timestampNs ∨ absDiff a timestampNs = absDiff b timestampNs ∧ a ≤ b :=
  Prod.Lex.toLex_le_toLex

def nearestOf (timestampNs maxDistanceNs : Nat) (boundaries : List Nat) : Option Nat :=
  best (inReach timestampNs maxDistanceNs) (boundaryKey timestampNs) boundaries

theorem foldl_considerBoundary (timestampNs maxDistanceNs : Nat) (boundaries : List Nat) (nearest : Option Nat) :
    boundaries.foldl (considerBoundary timestampNs maxDistanceNs) (nearest.map fun b => (b, absDiff b timestampNs)) =
      (boundaries.foldl (keepBest (inReach timestampNs maxDistanceNs) (boundaryKey timestampNs)) nearest).map
        fun b => (b, absDiff b timestampNs) := by
  induction boundaries generalizing nearest with
  | nil => rfl
  | cons boundary rest ih =>
    have hstep : considerBoundary timestampNs maxDistanceNs (nearest.map fun b => (b, absDiff b timestampNs)) boundary =
        (keepBest (inReach timestampNs maxDistanceNs) (boundaryKey timestampNs) nearest boundary).map
          fun b => (b, absDiff b timestampNs) := by
      unfold considerBoundary keepBest inReach
      rcases Nat.lt_or_ge maxDistanceNs (absDiff boundary timestampNs) with hfar | hnear
      · simp [hfar, Nat.not_le.mpr hfar]
      · cases nearest with
        | none => simp [hnear]
        | some b =>
          simp only [boundaryKey_lt, hnear, decide_true, Bool.true_and, Nat.not_lt.mpr hnear, if_false, Option.map_some,
            Option.all_some]
          split <;> rfl
    rw [List.foldl_cons, List.foldl_cons, hstep, ih]

theorem nearestBoundaryFromOrderedWords_eq (words : List Word) (timestampNs maxDistanceNs : Nat) :
    nearestBoundaryFromOrderedWords words timestampNs maxDistanceNs =
      nearestOf timestampNs maxDistanceNs (boundariesOf words) := by
  rw [nearestBoundaryFromOrderedWords, ← Option.map_none (fun b => (b, absDiff b timestampNs)), foldl_considerBoundary,
    Option.map_map]
  exact Option.map_id'

/-- The starts of the words and the ends that do not depend on neighbours. -/
def fixedBoundaries (words : List Word) : List Nat :=
  words.flatMap fun word =>
    word.time :: if word.durationNs ≠ 0 then [saturatingAdd word.time word.duration] else []

variable {words : List Word}

variable {boundary : Nat}

theorem mem_boundariesOf : boundary ∈ boundariesOf words ↔
    ∃ (i : Nat) (word : Word), words[i]? = some word ∧ (boundary = word.time ∨ boundary = wordEndNs words i) := by
  simp only [boundariesOf, List.mem_flatMap, List.mem_cons, List.not_mem_nil, or_false, Prod.exists,
    List.mem_zipIdx_iff_getElem?]
  exact exists_comm

theorem mem_fixedBoundaries : boundary ∈ fixedBoundaries words ↔
    ∃ word ∈ words, boundary = word.time ∨ word.durationNs ≠ 0 ∧ boundary = saturatingAdd word.time word.duration := by
  rw [fixedBoundaries, List.mem_flatMap]
  refine exists_congr fun word => and_congr_right fun _ => ?_
  by_cases hd : word.durationNs = 0 <;> simp [hd]

section Nearest

variable {words : List Word} {timestampNs maxDistanceNs : Nat}

theorem matched_of_between {boundary other : Nat} {boundaries : List Nat} (hmem : other ∈ boundaries)
    (h : timestampNs ≤ other ∧ other ≤ boundary ∨ boundary ≤ other ∧ other ≤ timestampNs) :
    Matched (inReach timestampNs maxDistanceNs) (boundaryKey timestampNs) boundaries boundary := by
  intro hreach
  rw [inReach, decide_eq_true_eq] at hreach
  refine ⟨other, hmem, ?_, ?_⟩
  · rw [inReach, decide_eq_true_eq]
    unfold absDiff at hreach ⊢
    omega
  · rw [boundaryKey_le]
    unfold absDiff
    omega

/-- Of all inferred ends only that of the last word before a time can be its nearest boundary: between
the others and the time there is a start. -/
theorem nearestOf_boundariesOf (ho : Ordered words) : nearestOf timestampNs maxDistanceNs (boundariesOf words) =
    nearestOf timestampNs maxDistanceNs (fixedBoundaries words ++ (endBefore timestampNs words).toList) := by
  refine best_congr (boundaryKey_injective timestampNs) ?_ ?_
  · intro boundary hm
    obtain ⟨i, word, hi, hb⟩ := mem_boundariesOf.mp hm
    have hword : word.time ∈ fixedBoundaries words := mem_fixedBoundaries.mpr ⟨word, List.mem_of_getElem? hi, Or.inl rfl⟩
    rcases hb with rfl | rfl
    · exact .of_mem (List.mem_append_left _ hword)
    · rcases wordEndNs_cases ho hi with ⟨hd, hend⟩ | hend | ⟨next, hnext, hstart, hle⟩
      · exact .of_mem (List.mem_append_left _ (mem_fixedBoundaries.mpr
          ⟨word, List.mem_of_getElem? hi, Or.inr ⟨hd, hend⟩⟩))
      · rw [hend]
        exact .of_mem (List.mem_append_left _ hword)
      · have hnextMem : next.time ∈ fixedBoundaries words :=
          mem_fixedBoundaries.mpr ⟨next, List.mem_of_getElem? hnext, Or.inl rfl⟩
        rcases Nat.lt_or_ge word.time timestampNs with hbefore | hafter
        · rcases Nat.lt_or_ge next.time timestampNs with hnextBefore | hnextAfter
          · exact matched_of_between (List.mem_append_left _ hnextMem) (Or.inr ⟨hle, hnextBefore.le⟩)
          · have hlt := (ho.lt_countBefore hi).mpr hbefore
            have hge := (ho.lt_countBefore hnext).not.mpr (Nat.not_lt.mpr hnextAfter)
            have hcount : countBefore timestampNs words = i + 1 := by omega
            refine .of_mem (List.mem_append_right _ ?_)
            rw [endBefore, hcount]
            simp
        · exact matched_of_between (List.mem_append_left _ hword) (Or.inl ⟨hafter, hstart⟩)
  · intro boundary hm
    refine .of_mem (mem_boundariesOf.mpr ?_)
    rcases List.mem_append.mp hm with hm | hm
    · obtain ⟨word, hword, hb⟩ := mem_fixedBoundaries.mp hm
      obtain ⟨i, hi⟩ := List.mem_iff_getElem?.mp hword
      refine ⟨i, word, hi, ?_⟩
      rcases hb with hb | ⟨hd, hb⟩
      · exact Or.inl hb
      · refine Or.inr (hb.trans ?_)
        simp [wordEndNs, hi, hd]
    · rw [endBefore] at hm
      split at hm
      · cases hm
      next hne =>
        rw [Option.toList_some, List.mem_singleton] at hm
        have hlt : countBefore timestampNs words - 1 < words.length := by
          have hle := countBefore_le timestampNs words
          omega
        exact ⟨_, _, List.getElem?_eq_getElem hlt, Or.inr hm⟩

end Nearest

theorem sliceOf_full {interval startNs endNs maxContextWords : Nat} (hmax : words.length ≤ maxContextWords) :
    sliceOf interval startNs endNs maxContextWords words =
      (words.take (rangeStop endNs words)).drop (rangeFirst interval startNs words) := by
  have hstop : rangeStop endNs words ≤ words.length := min_le_right _ _
  rw [sliceOf, min_eq_left (by omega), List.drop_take]

namespace Store

/-- The words the query reads of block `k`; its limit holds the whole block. -/
def contextRead (cached : Nat → Bool) (dispatched : List WordBlockBuilder) (store : Store) (lower upper k : Nat) :
    List Word :=
  store.wordsRead cached dispatched lower upper ((wordsOfBlock dispatched k).length + 2) k

def contextOf (cached : Nat → Bool) (dispatched : List WordBlockBuilder) (store : Store) (lower upper : Nat) :
    List Word :=
  (selectBlockIndices store.state.directory store.state.presence lower upper).flatMap
    (store.contextRead cached dispatched lower upper)

/-- The words read, identical neighbours once. -/
def viewOf (cached : Nat → Bool) (dispatched : List WordBlockBuilder) (store : Store) (lower upper : Nat) :
    List Word :=
  (store.contextOf cached dispatched lower upper).destutter (· ≠ ·)

end Store

section View

variable {checksum : BlockChecksum} {store : Store} {dispatched : List WordBlockBuilder}
  {cached : Nat → Bool} {lower upper : Nat}

theorem contextLoop_eq (h : Stored checksum store dispatched) {sizes : DecodedSizes} {cache : DecodedBlockCache}
    (hcache : CacheSound checksum store cache) (hrange : lower ≤ upper) (earlier rest : List Nat)
    (hchosen : selectBlockIndices store.state.directory store.state.presence lower upper = earlier ++ rest) :
    store.contextLoop checksum sizes lower upper (rest.filterMap (store.state.directory[·]?))
        (store.cacheOver checksum sizes lower upper cache earlier) =
      (.ok (rest.flatMap (store.contextRead (store.cachedInTurn checksum sizes lower upper cache) dispatched lower upper)),
        store.cacheOver checksum sizes lower upper cache (earlier ++ rest)) := by
  induction rest generalizing earlier with
  | nil =>
    rw [List.append_nil]
    rfl
  | cons k rest ih =>
    have hk := List.getElem?_eq_getElem (h.select_lt hrange (hchosen ▸ List.mem_append_right _ List.mem_cons_self))
    obtain ⟨builder, hb, -, -, hcount, -⟩ := h.entry_words hk
    obtain ⟨block, hok, hwords⟩ := @Stored.turn _ _ _ _ _ _ _ _ sizes _ _ _ hchosen h hcache hrange
      (Nat.succ_pos ((wordsOfBlock dispatched k).length + 1)) hk
    have hrest := ih (earlier ++ [k]) (by rw [hchosen, List.append_assoc, List.singleton_append])
    rw [List.filterMap_cons_some hk, Store.contextLoop, hcount, ← wordsOfBlock_of hb, hok]
    dsimp only
    rw [hrest, List.flatMap_cons, hwords, List.append_assoc, List.singleton_append]
    rfl

theorem Stored.context_ordered (h : Stored checksum store dispatched) (hrange : lower ≤ upper) :
    Ordered (store.contextOf cached dispatched lower upper) := by
  refine h.read_ordered (selectBlockIndices_sorted _ _ _ _) fun k hk => ?_
  obtain ⟨builder, hb, -⟩ := h.entry_times (List.getElem?_eq_getElem (h.select_lt hrange hk))
  exact ⟨builder, hb, wordsRead_sublist hb⟩

theorem sortByTime_eq (ho : Ordered words) : sortByTime words = words :=
  List.Pairwise.insertionSort_eq ho

theorem FinishedStore.nearest_eq (h : FinishedStore checksum store dispatched) {sizes : DecodedSizes}
    {cache : DecodedBlockCache} (hcache : CacheSound checksum store cache)
    {timestampNs : Nat} (ht : timestampNs ≤ u64Max) (maxDistanceNs : Nat)
    (hcached : cached = store.cachedInTurn checksum sizes (timestampNs - maxDistanceNs)
      (saturatingAdd timestampNs maxDistanceNs) cache) :
    (store.nearestBoundary checksum sizes timestampNs maxDistanceNs cache).1 =
      .ok (nearestOf timestampNs maxDistanceNs (boundariesOf (store.viewOf cached dispatched
        (timestampNs - maxDistanceNs) (saturatingAdd timestampNs maxDistanceNs)))) := by
  have hrange : timestampNs - maxDistanceNs ≤ saturatingAdd timestampNs maxDistanceNs := by
    have hle := saturatingAdd_le timestampNs maxDistanceNs ht
    omega
  have hloop := @contextLoop_eq _ _ _ _ _ h.stored sizes _ hcache hrange [] _ (List.nil_append _).symm
  have ho := @Stored.context_ordered _ _ _ cached _ _ h.stored hrange
  rw [← hcached, List.nil_append] at hloop
  have hstart : store.cacheOver checksum sizes (timestampNs - maxDistanceNs) (saturatingAdd timestampNs maxDistanceNs)
      cache [] = cache := rfl
  rw [hstart] at hloop
  unfold Store.nearestBoundary Store.boundaryContext
  dsimp only
  rw [hloop]
  simp only [Except.map, h.hotTail, List.append_nil, nearestBoundaryFromOrderedWords_eq]
  rw [← Store.contextOf, sortByTime_eq ho, ← Store.viewOf]

theorem Stored.mem_context (h : Stored checksum store dispatched) (hrange : lower ≤ upper) {word : Word}
    (hm : word ∈ store.finishedWords dispatched)
    (hin : lower ≤ word.time ∧ word.time ≤ upper ∨ word.durationNs ≠ 0 ∧ word.time ≤ upper ∧
      lower ≤ saturatingAdd word.time word.duration) :
    word ∈ store.contextOf cached dispatched lower upper := by
  obtain ⟨builder, hbm, hword⟩ := List.mem_flatMap.mp hm
  obtain ⟨k, hk⟩ := List.mem_iff_getElem?.mp hbm
  have hlt := (List.getElem?_eq_some_iff.mp hk).1
  rw [h.take_length] at hlt
  rw [List.getElem?_take_of_lt hlt] at hk
  have hentry := List.getElem?_eq_getElem hlt
  obtain ⟨record, hrecord, hblock, hstart, hend⟩ := h.word_covered hk hlt hword
  have hsat := saturatingAdd_le word.time word.duration (Nat.le_of_lt_succ word.time_lt)
  have hcovered : Covered store.state.presence k lower upper := by
    refine ⟨record, hrecord, hblock, ?_, ?_⟩ <;> omega
  refine List.mem_flatMap.mpr ⟨k, (h.mem_select hrange k).mpr (Or.inl hcovered), ?_⟩
  unfold Store.contextRead
  by_cases hread : ReadWhole (cached k) store.state.directory[k] lower upper
  · rw [wordsRead_whole hentry hk hread]
    exact hword
  · have hfree : word.durationNs = 0 := by
      by_contra hd
      exact hread (Or.inr (Or.inl (h.durations_flagged hentry hk hword hd)))
    have hinside : lower ≤ word.time ∧ word.time ≤ upper := by
      rcases hin with hin | ⟨hd, -⟩
      · exact hin
      · exact absurd hfree hd
    have ho := (h.blocks builder (List.mem_of_getElem? hk)).ordered
    obtain ⟨i, hi⟩ := List.mem_iff_getElem?.mp hword
    have hbefore := (ho.lt_countBefore hi).not.mpr (Nat.not_lt.mpr hinside.1)
    have hfirst := rangeFirst_eq builder.config.restartInterval lower builder.words
    have hupTo : i < builder.words.countP (·.time ≤ upper) := by
      have hpart := @PartitionPoint.partitioned_le _ _ Word.time ho upper
      rw [hpart.countP_eq]
      exact (hpart.test_iff hi).mp (decide_eq_true hinside.2)
    have hlength := (List.getElem?_eq_some_iff.mp hi).1
    have hstop : i < rangeStop upper builder.words := lt_min (by omega) hlength
    rw [wordsRead_slice hentry hk hread, wordsOfBlock_of hk, sliceOf_full (by omega)]
    refine List.mem_iff_getElem?.mpr ⟨i - rangeFirst builder.config.restartInterval lower builder.words, ?_⟩
    rw [List.getElem?_drop, Nat.add_sub_cancel' (by split at hfirst <;> omega), List.getElem?_take_of_lt hstop]
    exact hi

theorem Stored.context_sublist (h : Stored checksum store dispatched) (hrange : lower ≤ upper) {word : Word}
    (hm : word ∈ store.contextOf cached dispatched lower upper) : word ∈ store.finishedWords dispatched := by
  obtain ⟨k, hk, hword⟩ := List.mem_flatMap.mp hm
  have hlt := h.select_lt hrange hk
  obtain ⟨builder, hb, -⟩ := h.entry_times (List.getElem?_eq_getElem hlt)
  refine List.mem_flatMap.mpr ⟨builder, ?_, (wordsRead_sublist hb).subset hword⟩
  exact List.mem_of_getElem? (show (dispatched.take _)[k]? = some builder by rwa [List.getElem?_take_of_lt hlt])

end View

section Nearest

variable {checksum : BlockChecksum} {store : Store} {dispatched : List WordBlockBuilder}
  {cached : Nat → Bool} {timestampNs : Nat}

theorem fixedBoundary_le (hm : boundary ∈ fixedBoundaries words) : boundary ≤ u64Max := by
  obtain ⟨word, -, rfl | ⟨-, rfl⟩⟩ := mem_fixedBoundaries.mp hm
  · exact Nat.le_of_lt_succ word.time_lt
  · exact min_le_right _ _

theorem nearestOf_view (h : Stored checksum store dispatched) (ht : timestampNs ≤ u64Max) (maxDistanceNs : Nat)
    (ends : List Nat) :
    nearestOf timestampNs maxDistanceNs (fixedBoundaries (store.viewOf cached dispatched (timestampNs - maxDistanceNs)
        (saturatingAdd timestampNs maxDistanceNs)) ++ ends) =
      nearestOf timestampNs maxDistanceNs (fixedBoundaries (store.finishedWords dispatched) ++ ends) := by
  have hrange : timestampNs - maxDistanceNs ≤ saturatingAdd timestampNs maxDistanceNs := by
    have hle := saturatingAdd_le timestampNs maxDistanceNs ht
    omega
  have hview (word : Word) : word ∈ store.viewOf cached dispatched (timestampNs - maxDistanceNs)
      (saturatingAdd timestampNs maxDistanceNs) ↔ word ∈ store.contextOf cached dispatched (timestampNs - maxDistanceNs)
        (saturatingAdd timestampNs maxDistanceNs) := mem_destutter_ne _
  refine best_congr (boundaryKey_injective timestampNs) ?_ ?_
  · intro boundary hm
    refine .of_mem ?_
    rcases List.mem_append.mp hm with hm | hm
    · obtain ⟨word, hword, hb⟩ := mem_fixedBoundaries.mp hm
      exact List.mem_append_left _ (mem_fixedBoundaries.mpr
        ⟨word, h.context_sublist hrange ((hview word).mp hword), hb⟩)
    · exact List.mem_append_right _ hm
  · intro boundary hm hreach
    rcases List.mem_append.mp hm with hm | hm
    · have hle := fixedBoundary_le hm
      obtain ⟨word, hword, hb⟩ := mem_fixedBoundaries.mp hm
      have hsat := saturatingAdd_le word.time word.duration (Nat.le_of_lt_succ word.time_lt)
      have hwindow := of_decide_eq_true hreach
      have hlower : timestampNs - maxDistanceNs ≤ boundary := by
        unfold absDiff at hwindow
        omega
      have hupper : boundary ≤ saturatingAdd timestampNs maxDistanceNs := by
        unfold absDiff at hwindow
        unfold saturatingAdd
        omega
      have hread : word ∈ store.contextOf cached dispatched (timestampNs - maxDistanceNs)
          (saturatingAdd timestampNs maxDistanceNs) := by
        refine h.mem_context hrange hword ?_
        rcases hb with rfl | ⟨hd, rfl⟩
        · exact Or.inl ⟨hlower, hupper⟩
        · exact Or.inr ⟨hd, hsat.trans hupper, hlower⟩
      exact ⟨boundary, List.mem_append_left _ (mem_fixedBoundaries.mpr ⟨word, (hview word).mpr hread, hb⟩), hreach, le_rfl⟩
    · exact ⟨boundary, List.mem_append_right _ hm, hreach, le_rfl⟩

end Nearest

section Context

variable {checksum : BlockChecksum} {store : Store} {dispatched : List WordBlockBuilder}
  {cached : Nat → Bool} {lower upper timestampNs k i : Nat} {builder : WordBlockBuilder} {word : Word}

theorem contextRead_slice {entry : BlockDirectoryEntry}
    (hk : store.state.directory[k]? = some entry) (hb : dispatched[k]? = some builder) :
    (ReadWhole (cached k) entry lower upper → store.contextRead cached dispatched lower upper k = builder.words) ∧
      (¬ReadWhole (cached k) entry lower upper → store.contextRead cached dispatched lower upper k =
        (builder.words.take (rangeStop upper builder.words)).drop
          (rangeFirst builder.config.restartInterval lower builder.words)) := by
  unfold Store.contextRead
  refine ⟨wordsRead_whole hk hb, fun hread => ?_⟩
  rw [wordsRead_slice hk hb hread, wordsOfBlock_of hb, sliceOf_full (by omega)]

section

variable (h : Stored checksum store dispatched)
include h

theorem contextRead_sublist (hk : k < store.state.directory.length) :
    (store.contextRead cached dispatched lower upper k).Sublist (wordsOfBlock dispatched k) := by
  obtain ⟨builder, hb, -, hwords⟩ := h.block hk
  rw [hwords]
  exact wordsRead_sublist hb

theorem contextRead_head? (hk : k < store.state.directory.length)
    (hall : ∀ word ∈ wordsOfBlock dispatched k, lower ≤ word.time) :
    (store.contextRead cached dispatched lower upper k).head? = (wordsOfBlock dispatched k).head? := by
  obtain ⟨builder, hb, hclosed, hwords⟩ := h.block hk
  obtain ⟨hwhole, hslice⟩ := @contextRead_slice _ _ cached lower upper _ _ _ (List.getElem?_eq_getElem hk) hb
  rw [hwords] at hall ⊢
  by_cases hread : ReadWhole (cached k) store.state.directory[k] lower upper
  · rw [hwhole hread]
  · have hcount : countBefore lower builder.words = 0 :=
      List.countP_eq_zero.mpr fun word hm => by simpa using hall word hm
    have hfirst := rangeFirst_eq builder.config.restartInterval lower builder.words
    rw [hcount, if_neg (by omega)] at hfirst
    have hpos := List.length_pos_iff.mpr hclosed.nonempty
    have hstop : rangeStop upper builder.words ≠ 0 := by
      unfold rangeStop
      omega
    rw [hslice hread, hfirst, List.drop_zero, List.head?_take, if_neg hstop]

end

end Context

end LogicConduit
