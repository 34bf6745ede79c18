import LogicConduit.WordBoundary

namespace LogicConduit

open BestCandidate

theorem exists_last {P : Nat → Prop} [DecidablePred P] {n : Nat} (h : ∃ k < n, P k) :
    ∃ k < n, P k ∧ ∀ j, k < j → j < n → ¬P j := by
  obtain ⟨k, hk, hP⟩ := h
  have hle := Nat.findGreatest_le (P := P) (n - 1)
  exact ⟨Nat.findGreatest P (n - 1), by omega, Nat.findGreatest_spec (show k ≤ n - 1 by omega) hP,
    fun j hlt hj => Nat.findGreatest_is_greatest hlt (by omega)⟩

theorem Stored.last_before {checksum : BlockChecksum} {store : Store} {dispatched : List WordBlockBuilder}
    (h : Stored checksum store dispatched) (timestampNs : Nat) :
    (∀ word ∈ store.finishedWords dispatched, timestampNs ≤ word.time) ∨
      ∃ (k i : Nat) (word : Word), LastBefore store dispatched timestampNs k i word := by
  by_cases hsome : ∃ k < store.state.directory.length, 0 < countBefore timestampNs (wordsOfBlock dispatched k)
  · obtain ⟨k, hk, hpos, hlast⟩ := exists_last hsome
    obtain ⟨i, hcount⟩ : ∃ i, countBefore timestampNs (wordsOfBlock dispatched k) = i + 1 :=
      ⟨countBefore timestampNs (wordsOfBlock dispatched k) - 1, by omega⟩
    obtain ⟨word, hi, hbefore⟩ := h.last_word hk hcount
    refine Or.inr ⟨k, i, word, hk, hi, hcount, fun j hlt hj later hm => ?_⟩
    have hnone := List.countP_eq_zero.mp (Nat.eq_zero_of_not_pos (hlast j hlt hj)) later hm
    rwa [decide_eq_true_eq, Nat.not_lt] at hnone
  · refine Or.inl fun word hm => Nat.not_lt.mp fun hlt => hsome ?_
    rw [Store.finishedWords, flatMap_take] at hm
    obtain ⟨k, hk, hm⟩ := List.mem_flatMap.mp hm
    exact ⟨k, List.mem_range.mp hk, List.countP_pos_iff.mpr ⟨word, hm, decide_eq_true hlt⟩⟩

/-- The period that a word before a long gap closes after. -/
def periodNs (previous : Option Word) (word : Word) : Nat :=
  min (((previous.map (word.time - ·.time)).filter (0 < ·)).getD maxAnnotationNs) maxAnnotationNs

/-- Behind either of two words a word ends at one time: it has a duration or no successor, or the periods are
equal, or the gap to the successor exceeds neither of them. -/
def SameEnd (previous shown : Option Word) (word : Word) (next : Option Word) : Prop :=
  word.durationNs ≠ 0 ∨ ∀ later ∈ next, periodNs shown word = periodNs previous word ∨
    later.time - word.time ≤ periodNs shown word ∧ later.time - word.time ≤ periodNs previous word

section SameEnd

variable {previous shown next : Option Word} {word later : Word}

theorem instantaneousWordEndNs_eq : instantaneousWordEndNs (previous.map Word.time) word.time later.time =
    word.time + min (later.time - word.time) (periodNs previous word) := by
  have hword := word.time_lt
  have hlater := later.time_lt
  unfold instantaneousWordEndNs instantaneousWordEndNsWithLimit periodNs
  rw [Option.map_map]
  exact saturatingAdd_eq (by unfold u64Max; omega)

theorem sameEnd_iff : SameEnd previous shown word next ↔ endOf shown word next = endOf previous word next := by
  unfold SameEnd endOf
  by_cases hd : word.durationNs = 0
  · cases next with
    | none => simp [hd]
    | some later =>
      simp only [hd, ne_eq, not_true, if_false, false_or, Option.mem_some_iff, forall_eq', instantaneousWordEndNs_eq]
      omega
  · simp [hd]

end SameEnd

namespace Store

/-- Where a read of block `m` begins: at the start or, unless the block is read as a whole, at a restart. -/
def shownFrom (cached : Nat → Bool) (dispatched : List WordBlockBuilder) (store : Store) (lower upper m : Nat) : Nat :=
  match store.state.directory[m]?, dispatched[m]? with
  | some entry, some builder =>
    if ReadWhole (cached m) entry lower upper then 0 else rangeFirst builder.config.restartInterval lower builder.words
  | _, _ => 0

/-- The words of the chosen blocks before block `k`, each block from where its read begins. -/
def shownBefore (cached : Nat → Bool) (dispatched : List WordBlockBuilder) (store : Store) (lower upper k : Nat) :
    List Word :=
  ((selectBlockIndices store.state.directory store.state.presence lower upper).filter (· < k)).flatMap fun m =>
    (wordsOfBlock dispatched m).drop (store.shownFrom cached dispatched lower upper m)

/-- The last of those words and the ones before word `i` of block `k` that is another word. -/
def previousShown (cached : Nat → Bool) (dispatched : List WordBlockBuilder) (store : Store) (lower upper k i : Nat)
    (word : Word) : Option Word :=
  ((store.shownBefore cached dispatched lower upper k ++
    ((wordsOfBlock dispatched k).take i).drop (store.shownFrom cached dispatched lower upper k)).filter (· ≠ word)).getLast?

/-- The end of the last word of the chosen blocks before block `k`, up to the first word behind it. -/
def standInEnd (cached : Nat → Bool) (dispatched : List WordBlockBuilder) (store : Store) (lower upper k : Nat) :
    Option Nat :=
  let shown := store.shownBefore cached dispatched lower upper k
  shown.getLast?.map fun word => endOf (shown.filter (· ≠ word)).getLast? word (firstBehind dispatched store k)

end Store

section View

variable {checksum : BlockChecksum} {store : Store} {dispatched : List WordBlockBuilder}
  {cached : Nat → Bool} {lower upper timestampNs k i : Nat} {word : Word} {entry : BlockDirectoryEntry}

theorem contextRead_eq (h : Stored checksum store dispatched) (hk : k < store.state.directory.length) :
    ∃ stop, store.contextRead cached dispatched lower upper k =
        ((wordsOfBlock dispatched k).take stop).drop (store.shownFrom cached dispatched lower upper k) ∧
      min ((wordsOfBlock dispatched k).countP (·.time ≤ upper) + 1) (wordsOfBlock dispatched k).length ≤ stop := by
  obtain ⟨builder, hb, -, hwords⟩ := h.block hk
  have hentry := List.getElem?_eq_getElem hk
  obtain ⟨hwhole, hslice⟩ := @contextRead_slice _ _ cached lower upper _ _ _ hentry hb
  rw [hwords]
  by_cases hread : ReadWhole (cached k) store.state.directory[k] lower upper
  · refine ⟨builder.words.length, ?_, min_le_right _ _⟩
    simp only [hwhole hread, Store.shownFrom, hentry, hb, if_pos hread, List.take_length, List.drop_zero]
  · refine ⟨rangeStop upper builder.words, ?_, le_rfl⟩
    simp only [hslice hread, Store.shownFrom, hentry, hb, if_neg hread]

theorem LastBefore.shownFrom_le (hlast : LastBefore store dispatched timestampNs k i word)
    (h : Stored checksum store dispatched) (hlowerTime : lower ≤ timestampNs) :
    store.shownFrom cached dispatched lower upper k ≤ i := by
  obtain ⟨builder, hb, -, hwords⟩ := h.block hlast.lt
  have hcount := hlast.count
  rw [hwords] at hcount
  have hle : countBefore lower builder.words ≤ countBefore timestampNs builder.words :=
    List.countP_mono_left fun other _ hlt => decide_eq_true ((of_decide_eq_true hlt).trans_le hlowerTime)
  have hfirst := rangeFirst_eq builder.config.restartInterval lower builder.words
  simp only [Store.shownFrom, List.getElem?_eq_getElem hlast.lt, hb]
  split
  · exact Nat.zero_le i
  · split at hfirst <;> omega

theorem LastBefore.flatMap_context (hlast : LastBefore store dispatched timestampNs k i word)
    (h : Stored checksum store dispatched) (hupperTime : timestampNs ≤ upper) :
    ((selectBlockIndices store.state.directory store.state.presence lower upper).filter (· < k)).flatMap
        (store.contextRead cached dispatched lower upper) = store.shownBefore cached dispatched lower upper k := by
  refine List.flatMap_congr fun m hm => ?_
  have hmk := of_decide_eq_true (List.mem_filter.mp hm).2
  obtain ⟨stop, hread, hstop⟩ := @contextRead_eq _ _ _ cached lower upper m h (hmk.trans hlast.lt)
  have hall : (wordsOfBlock dispatched m).countP (·.time ≤ upper) = (wordsOfBlock dispatched m).length :=
    List.countP_eq_length.mpr fun other hother =>
      decide_eq_true ((hlast.earlier h hmk other hother).le.trans hupperTime)
  rw [hread, List.take_of_length_le (by omega)]

section Around

variable (hlast : LastBefore store dispatched timestampNs k i word) (h : Stored checksum store dispatched)
  (hlowerTime : lower ≤ timestampNs) (hupperTime : timestampNs ≤ upper)
include hlast h hlowerTime hupperTime

theorem LastBefore.behind {post : List Nat} (hsorted : post.Pairwise (· < ·))
    (hpost : ∀ j, j ∈ post ↔ k < j ∧ j ∈ selectBlockIndices store.state.directory store.state.presence lower upper) :
    (post.flatMap (store.contextRead cached dispatched lower upper)).head? = firstBehind dispatched store k := by
  have hrange := hlowerTime.trans hupperTime
  refine h.head?_behind hsorted (fun j hj => ?_) fun hlt => ?_
  · exact ⟨((hpost j).mp hj).1, h.select_lt hrange ((hpost j).mp hj).2⟩
  · have hall := hlast.later (k + 1) (Nat.lt_succ_self k) hlt
    have hchosen := chosen_after h hrange hlt hlowerTime hupperTime
      ⟨word, List.mem_of_getElem? hlast.word, hlast.lt_time h⟩ hall
    exact ⟨(hpost (k + 1)).mpr ⟨Nat.lt_succ_self k, hchosen⟩,
      contextRead_head? h hlt fun other hm => hlowerTime.trans (hall other hm)⟩

/-- In a chosen block the last word before the time is read, and ends behind the last other word read before
it. -/
theorem LastBefore.view_chosen (hk : store.state.directory[k]? = some entry)
    (hfound : Covered store.state.presence k lower upper ∨ entry.lastTimestampNs.toNat < lower) :
    endBefore timestampNs (store.viewOf cached dispatched lower upper) =
      some (endOf (store.previousShown cached dispatched lower upper k i word) word (wordAfter dispatched store k i)) := by
  have hrange := hlowerTime.trans hupperTime
  have hchosen := (chosen_around h hrange hk hlowerTime hlast.later hfound).1
  obtain ⟨pre, post, hsplit, -, hpostSorted, hpre, hpost⟩ := sorted_split (selectBlockIndices_sorted _ _ _ _) hchosen
  obtain ⟨builder, -, hclosed, hwords⟩ := h.block hlast.lt
  have hlength := (List.getElem?_eq_some_iff.mp hlast.word).1
  have hmono := countBefore_le_countP hupperTime (wordsOfBlock dispatched k)
  have hcount := hlast.count
  obtain ⟨stop, hread, hstop⟩ := @contextRead_eq _ _ _ cached lower upper k h hlast.lt
  have hcut := @cutAt_read timestampNs (wordsOfBlock dispatched k) (store.contextRead cached dispatched lower upper) pre post
    k i _ stop word (hwords ▸ hclosed.ordered) hlast.word hlast.count hread (hlast.shownFrom_le h hlowerTime) (by omega)
    (fun j hj other hm => hlast.earlier h ((hpre j).mp hj).1 other
      ((contextRead_sublist h (h.select_lt hrange ((hpre j).mp hj).2)).subset hm))
    (fun j hj other hm => hlast.later j ((hpost j).mp hj).1 (h.select_lt hrange ((hpost j).mp hj).2) other
      ((contextRead_sublist h (h.select_lt hrange ((hpost j).mp hj).2)).subset hm))
  have hshown := @LastBefore.flatMap_context _ _ _ cached lower upper _ _ _ _ hlast h hupperTime
  rw [filter_chosen hsplit] at hshown
  have hsnoc : ((wordsOfBlock dispatched k).take (i + 1)).drop (store.shownFrom cached dispatched lower upper k) =
      ((wordsOfBlock dispatched k).take i).drop (store.shownFrom cached dispatched lower upper k) ++ [word] := by
    have hfrom := @LastBefore.shownFrom_le _ _ _ cached lower upper _ _ _ _ hlast h hlowerTime
    rw [List.take_add_one, hlast.word, Option.toList_some, List.drop_append_of_le_length]
    rw [List.length_take]
    omega
  have hnext : (if i + 1 < min stop (wordsOfBlock dispatched k).length then (wordsOfBlock dispatched k)[i + 1]?
      else (post.flatMap (store.contextRead cached dispatched lower upper)).head?) = wordAfter dispatched store k i := by
    rw [hlast.behind h hlowerTime hupperTime hpostSorted hpost, wordAfter]
    by_cases hmore : i + 1 < (wordsOfBlock dispatched k).length
    · rw [if_pos (by omega), if_pos hmore]
    · rw [if_neg (by omega), if_neg hmore]
  rw [Store.viewOf, Store.contextOf, hsplit, hcut.words, endBefore_destutter_eq hcut.before_lt hcut.le_after, hcut.last,
    hcut.next, hnext, Option.map_some, hshown, hsnoc, ← List.append_assoc, List.filter_append, Store.previousShown]
  simp

/-- A block that is not chosen is passed over: the last word of the chosen blocks before it stands in. -/
theorem LastBefore.view_skipped (hk : store.state.directory[k]? = some entry)
    (hskipped : ¬(Covered store.state.presence k lower upper ∨ entry.lastTimestampNs.toNat < lower)) :
    endBefore timestampNs (store.viewOf cached dispatched lower upper) =
      store.standInEnd cached dispatched lower upper k := by
  have hrange := hlowerTime.trans hupperTime
  have hsorted := selectBlockIndices_sorted store.state.directory store.state.presence lower upper
  have hnot : k ∉ selectBlockIndices store.state.directory store.state.presence lower upper := by
    rw [h.mem_select hrange]
    obtain ⟨first, hfirst, htime⟩ := h.block_first hk
    obtain ⟨builder, -, hclosed, hwords⟩ := h.block hlast.lt
    have hi := hlast.word
    rw [hwords, List.head?_eq_getElem?] at hfirst
    rw [hwords] at hi
    have hle := hclosed.ordered.getElem?_le hfirst hi (Nat.zero_le i)
    have hbefore := hlast.lt_time h
    have hupTo := (@Stored.lt_blocksUpTo _ _ _ upper h _ _ hk).mpr (by omega)
    have hnotBefore := (@Stored.lt_blocksBefore _ _ _ lower h _ _ hk).not.mpr fun hend => hskipped (Or.inr hend)
    rintro (hcovered | hbefore | hbefore | ⟨hsuccessor, -⟩)
    · exact hskipped (Or.inl hcovered)
    all_goals omega
  have hpart := @PartitionPoint.partitioned_lt _ _ id (hsorted.imp Nat.le_of_lt) k
  obtain ⟨pre, post, hpre, hpost, hsplit⟩ : ∃ pre post,
      (selectBlockIndices store.state.directory store.state.presence lower upper).filter (· < k) = pre ∧
      (selectBlockIndices store.state.directory store.state.presence lower upper).filter (fun j => !decide (j < k)) = post ∧
      selectBlockIndices store.state.directory store.state.presence lower upper = pre ++ post := by
    refine ⟨_, _, rfl, rfl, ?_⟩
    have hfilter := hpart.filter_eq
    have hfilterNot := hpart.filter_not_eq
    simp only [id] at hfilter hfilterNot
    rw [hfilter, hfilterNot, List.take_append_drop]
  have hpostMem : ∀ j, j ∈ post ↔ k < j ∧ j ∈ selectBlockIndices store.state.directory store.state.presence lower upper := by
    intro j
    rw [← hpost, List.mem_filter, Bool.not_eq_true', decide_eq_false_iff_not, and_comm]
    refine and_congr_left fun hj => ?_
    have hne : j ≠ k := fun hsame => hnot (hsame ▸ hj)
    omega
  have hshown := @LastBefore.flatMap_context _ _ _ cached lower upper _ _ _ _ hlast h hupperTime
  rw [hpre] at hshown
  rw [Store.viewOf, Store.contextOf, hsplit, List.flatMap_append, endBefore_destutter_eq,
    hlast.behind h hlowerTime hupperTime (hpost ▸ hsorted.filter _) hpostMem, hshown]
  · rfl
  · intro other hm
    obtain ⟨j, hj, hm⟩ := List.mem_flatMap.mp hm
    have hjk := of_decide_eq_true (List.mem_filter.mp (hpre.symm ▸ hj : j ∈ List.filter _ _)).2
    exact hlast.earlier h hjk other ((contextRead_sublist h (hjk.trans hlast.lt)).subset hm)
  · intro other hm
    obtain ⟨j, hj, hm⟩ := List.mem_flatMap.mp hm
    obtain ⟨hjk, hchosen⟩ := (hpostMem j).mp hj
    exact hlast.later j hjk (h.select_lt hrange hchosen) other
      ((contextRead_sublist h (h.select_lt hrange hchosen)).subset hm)

end Around

end View

/-- Some start or explicit end within the distance is as near, or the boundary itself is too far. -/
def Outdone (dispatched : List WordBlockBuilder) (store : Store) (timestampNs maxDistanceNs boundary : Nat) : Prop :=
  ¬Improves (inReach timestampNs maxDistanceNs) (boundaryKey timestampNs) (fixedBoundaries (store.finishedWords dispatched))
    boundary

/-- The last word before the time keeps its end, or the end it has and the one it gets are both outdone. In a
chosen block it keeps it behind the word that the blocks show before it; where its block is passed over, the
word that stands in for it has to end at the same time. -/
def EndKept (cached : Nat → Bool) (dispatched : List WordBlockBuilder) (store : Store)
    (timestampNs maxDistanceNs : Nat) : Prop :=
  ∀ (k i : Nat) (word : Word) (entry : BlockDirectoryEntry),
    LastBefore store dispatched timestampNs k i word → store.state.directory[k]? = some entry →
    let lower := timestampNs - maxDistanceNs
    let upper := saturatingAdd timestampNs maxDistanceNs
    let previous := wordBefore dispatched k i
    let next := wordAfter dispatched store k i
    let chosen := Covered store.state.presence k lower upper ∨ entry.lastTimestampNs.toNat < lower
    (chosen → let shown := store.previousShown cached dispatched lower upper k i word
      SameEnd previous shown word next ∨ Outdone dispatched store timestampNs maxDistanceNs (endOf shown word next) ∧
        Outdone dispatched store timestampNs maxDistanceNs (endOf previous word next)) ∧
    (¬chosen → store.standInEnd cached dispatched lower upper k = some (endOf previous word next) ∨
      (∀ boundary ∈ store.standInEnd cached dispatched lower upper k,
        Outdone dispatched store timestampNs maxDistanceNs boundary) ∧
        Outdone dispatched store timestampNs maxDistanceNs (endOf previous word next))

section Boundary

variable {checksum : BlockChecksum} {store : Store} {dispatched : List WordBlockBuilder}
  {cached : Nat → Bool} {lower upper timestampNs maxDistanceNs : Nat}

theorem Stored.view_ordered (h : Stored checksum store dispatched) (hrange : lower ≤ upper) :
    Ordered (store.viewOf cached dispatched lower upper) :=
  (h.context_ordered hrange).sublist (List.destutter_sublist _ _)

theorem Stored.endBefore_none (h : Stored checksum store dispatched) (hrange : lower ≤ upper)
    (hnone : ∀ word ∈ store.finishedWords dispatched, timestampNs ≤ word.time) :
    endBefore timestampNs (store.viewOf cached dispatched lower upper) = none ∧
      endBefore timestampNs (store.finishedWords dispatched) = none := by
  have hzero {words : List Word} (hwords : ∀ word ∈ words, word ∈ store.finishedWords dispatched) :
      endBefore timestampNs words = none := by
    rw [endBefore, countBefore, List.countP_eq_zero.mpr fun word hm => by simpa using hnone word (hwords word hm),
      if_pos rfl]
  exact ⟨hzero fun word hm => h.context_sublist hrange ((mem_destutter_ne _).mp hm), hzero fun word hm => hm⟩

/-- What the condition says of the end that the words read give the last word before the time. -/
theorem endKept_iff (h : Stored checksum store dispatched) (ht : timestampNs ≤ u64Max) :
    EndKept cached dispatched store timestampNs maxDistanceNs ↔
      let read := endBefore timestampNs (store.viewOf cached dispatched (timestampNs - maxDistanceNs)
        (saturatingAdd timestampNs maxDistanceNs))
      let actual := endBefore timestampNs (store.finishedWords dispatched)
      read = actual ∨ (∀ boundary ∈ read, Outdone dispatched store timestampNs maxDistanceNs boundary) ∧
        ∀ boundary ∈ actual, Outdone dispatched store timestampNs maxDistanceNs boundary := by
  have hlower : timestampNs - maxDistanceNs ≤ timestampNs := Nat.sub_le _ _
  have hupper := saturatingAdd_le timestampNs maxDistanceNs ht
  have hview {k i : Nat} {word : Word} {entry : BlockDirectoryEntry}
      (hlast : LastBefore store dispatched timestampNs k i word) (hk : store.state.directory[k]? = some entry) :=
    And.intro (@LastBefore.view_chosen _ _ _ cached _ _ _ _ _ _ _ hlast h hlower hupper hk)
      (@LastBefore.view_skipped _ _ _ cached _ _ _ _ _ _ _ hlast h hlower hupper hk)
  dsimp only
  rcases h.last_before timestampNs with hnone | ⟨k, i, word, hlast⟩
  · obtain ⟨hread, hactual⟩ := @Stored.endBefore_none _ _ _ cached _ _ _ h (hlower.trans hupper) hnone
    rw [hread, hactual]
    refine iff_of_true (fun k i word entry hlast _ => ?_) (Or.inl rfl)
    have hactual' := hlast.wordsEnd h
    rw [hactual] at hactual'
    cases hactual'
  · obtain ⟨entry, hentry⟩ : ∃ entry, store.state.directory[k]? = some entry := ⟨_, List.getElem?_eq_getElem hlast.lt⟩
    rw [hlast.wordsEnd h]
    simp only [Option.mem_some_iff, forall_eq']
    constructor
    · intro hkept
      obtain ⟨hchosen, hskipped⟩ := hkept k i word entry hlast hentry
      by_cases hfound : Covered store.state.presence k (timestampNs - maxDistanceNs) (saturatingAdd timestampNs maxDistanceNs) ∨
          entry.lastTimestampNs.toNat < timestampNs - maxDistanceNs
      · rw [(hview hlast hentry).1 hfound, Option.some.injEq, ← sameEnd_iff]
        simp only [Option.mem_some_iff, forall_eq']
        exact hchosen hfound
      · rw [(hview hlast hentry).2 hfound]
        exact hskipped hfound
    · intro hkept k' i' word' other hlast' hk
      have hsame := (hlast.wordsEnd h).symm.trans (hlast'.wordsEnd h)
      rw [Option.some.inj hsame] at hkept
      refine ⟨fun hfound => ?_, fun hfound => ?_⟩
      · rw [(hview hlast' hk).1 hfound, Option.some.injEq, ← sameEnd_iff] at hkept
        simp only [Option.mem_some_iff, forall_eq'] at hkept
        exact hkept
      · rw [(hview hlast' hk).2 hfound] at hkept
        exact hkept

/-- The last word before the time is read with its neighbours: its block is chosen, no restart cuts the word
before it off, and the two are not taken for one. -/
def NeighboursRead (cached : Nat → Bool) (dispatched : List WordBlockBuilder) (store : Store)
    (lower upper timestampNs : Nat) : Prop :=
  ∀ (k i : Nat) (word : Word) (entry : BlockDirectoryEntry) (builder : WordBlockBuilder),
    LastBefore store dispatched timestampNs k i word → store.state.directory[k]? = some entry →
    dispatched[k]? = some builder →
    (Covered store.state.presence k lower upper ∨ entry.lastTimestampNs.toNat < lower) ∧
      (ReadWhole (cached k) entry lower upper ∨ i = 0 ∨ lower ≤ word.time ∨ i % builder.config.restartInterval ≠ 0) ∧
      (word.durationNs = 0 → wordBefore dispatched k i ≠ some word)

theorem getLast?_filter_ne {shown : List Word} {word : Word} (hdiffers : shown.getLast? ≠ some word) :
    (shown.filter (· ≠ word)).getLast? = shown.getLast? := by
  rcases shown.eq_nil_or_concat' with rfl | ⟨others, other, rfl⟩
  · rfl
  · have hne : other ≠ word := fun hsame => hdiffers (hsame ▸ List.getLast?_concat)
    rw [List.filter_append, List.filter_singleton, decide_eq_true hne, List.getLast?_concat]
    exact List.getLast?_concat

section NeighboursRead

variable {k i : Nat} {word : Word} {entry : BlockDirectoryEntry} (hn : NeighboursRead cached dispatched store lower upper timestampNs)
  (h : Stored checksum store dispatched) (hlowerTime : lower ≤ timestampNs) (hupperTime : timestampNs ≤ upper)
  (hlast : LastBefore store dispatched timestampNs k i word) (hk : store.state.directory[k]? = some entry)
include hn h hlowerTime hupperTime hlast hk

theorem NeighboursRead.shown_getLast? : (store.shownBefore cached dispatched lower upper k ++
    ((wordsOfBlock dispatched k).take i).drop (store.shownFrom cached dispatched lower upper k)).getLast? =
      wordBefore dispatched k i := by
  have hrange := hlowerTime.trans hupperTime
  have hlength := (List.getElem?_eq_some_iff.mp hlast.word).1
  unfold wordBefore
  rcases Nat.eq_zero_or_pos i with rfl | hpos
  · rw [if_neg (Nat.lt_irrefl 0), List.take_zero, List.drop_nil, List.append_nil]
    cases k with
    | zero => simp [Store.shownBefore]
    | succ j =>
      have hlt := hlast.lt
      have hbefore := chosen_before h hrange hk hlowerTime hupperTime
        ⟨word, List.mem_of_getElem? hlast.word, hlast.lt_time h⟩ hlast.later
      have hfrom : store.shownFrom cached dispatched lower upper j < (wordsOfBlock dispatched j).length := by
        obtain ⟨builder, hb, hclosed, hwords⟩ := h.block (show j < store.state.directory.length by omega)
        rw [hwords]
        simp only [Store.shownFrom, List.getElem?_eq_getElem (show j < store.state.directory.length by omega), hb]
        split
        · exact List.length_pos_iff.mpr hclosed.nonempty
        · exact rangeFirst_lt hclosed.nonempty
      have hne : (wordsOfBlock dispatched j).drop (store.shownFrom cached dispatched lower upper j) ≠ [] :=
        List.ne_nil_of_length_pos (by rw [List.length_drop]; omega)
      rw [if_neg (Nat.succ_ne_zero j), Nat.add_sub_cancel, Store.shownBefore,
        getLast?_flatMap ((selectBlockIndices_sorted _ _ _ _).filter _)
          (List.mem_filter.mpr ⟨hbefore, decide_eq_true (Nat.lt_succ_self j)⟩) _ hne]
      · rw [List.getLast?_drop, if_neg (by omega)]
      · intro m hm hjm
        have := of_decide_eq_true (List.mem_filter.mp hm).2
        omega
  · obtain ⟨builder, hb, hclosed, hwords⟩ := h.block hlast.lt
    obtain ⟨-, hcut, -⟩ := hn k i word entry builder hlast hk hb
    have hfrom : store.shownFrom cached dispatched lower upper k < i := by
      have hi := hlast.word
      rw [hwords] at hi
      have hbeforeWindow := @Ordered.lt_countBefore _ hclosed.ordered lower _ _ hi
      have hle : countBefore lower builder.words ≤ i + 1 := by
        rw [← hlast.count, hwords]
        exact List.countP_mono_left fun other _ hlt => decide_eq_true ((of_decide_eq_true hlt).trans_le hlowerTime)
      have hfirst := rangeFirst_eq builder.config.restartInterval lower builder.words
      simp only [Store.shownFrom, hk, hb]
      split
      next hread => exact hpos
      next hread =>
        rcases hcut with hcut | hcut | hcut | hcut
        · exact absurd hcut hread
        · omega
        · split at hfirst <;> omega
        · rcases Nat.lt_or_ge i (countBefore lower builder.words) with hin | hout
          · have heq : countBefore lower builder.words - 1 = i := by omega
            rw [if_neg (fun hboth => hcut (heq ▸ hboth.2))] at hfirst
            omega
          · split at hfirst <;> omega
    rw [if_pos hpos, List.getLast?_append_of_ne_nil, getLast?_slice hfrom hlength.le]
    exact List.ne_nil_of_length_pos (by rw [List.length_drop, List.length_take]; omega)

theorem NeighboursRead.previousShown_eq (hd : word.durationNs = 0) :
    store.previousShown cached dispatched lower upper k i word = wordBefore dispatched k i := by
  obtain ⟨builder, hb, -⟩ := h.block hlast.lt
  obtain ⟨-, -, hdiffers⟩ := hn k i word entry builder hlast hk hb
  have hshown := hn.shown_getLast? h hlowerTime hupperTime hlast hk
  rw [Store.previousShown, getLast?_filter_ne (hshown ▸ hdiffers hd), hshown]

end NeighboursRead

/-- With its neighbours read, the last word before the time keeps its end. -/
theorem NeighboursRead.endKept (hn : NeighboursRead cached dispatched store (timestampNs - maxDistanceNs)
      (saturatingAdd timestampNs maxDistanceNs) timestampNs)
    (h : Stored checksum store dispatched) (ht : timestampNs ≤ u64Max) :
    EndKept cached dispatched store timestampNs maxDistanceNs := by
  intro k i word entry hlast hk
  have hlower : timestampNs - maxDistanceNs ≤ timestampNs := Nat.sub_le _ _
  have hupper := saturatingAdd_le timestampNs maxDistanceNs ht
  refine ⟨fun _ => Or.inl ?_, fun hskipped => ?_⟩
  · by_cases hd : word.durationNs = 0
    · refine Or.inr fun later _ => Or.inl ?_
      rw [hn.previousShown_eq h hlower hupper hlast hk hd]
    · exact Or.inl hd
  · obtain ⟨builder, hb, -⟩ := h.block hlast.lt
    exact absurd (hn k i word entry builder hlast hk hb).1 hskipped

def IsNearestBoundary (words : List Word) (timestampNs maxDistanceNs : Nat) (result : Option Nat) : Prop :=
  IsBest (inReach timestampNs maxDistanceNs) (boundaryKey timestampNs) (boundariesOf words) result

/-- A query gives the nearest boundary exactly when it does not mistake the end of the last word before the
time for another one that matters; with the neighbours of that word read it never does. -/
theorem nearest_boundary_is_found (h : FinishedStore checksum store dispatched) {sizes : DecodedSizes}
    {cache : DecodedBlockCache} (hcache : CacheSound checksum store cache) (ht : timestampNs ≤ u64Max) :
    let cached := store.cachedInTurn checksum sizes (timestampNs - maxDistanceNs)
      (saturatingAdd timestampNs maxDistanceNs) cache
    ((∃ result, (store.nearestBoundary checksum sizes timestampNs maxDistanceNs cache).1 = .ok result ∧
        IsNearestBoundary (store.finishedWords dispatched) timestampNs maxDistanceNs result) ↔
      EndKept cached dispatched store timestampNs maxDistanceNs) ∧
    (NeighboursRead cached dispatched store (timestampNs - maxDistanceNs) (saturatingAdd timestampNs maxDistanceNs)
        timestampNs → EndKept cached dispatched store timestampNs maxDistanceNs) := by
  intro cached
  have hsat := saturatingAdd_le timestampNs maxDistanceNs ht
  have hrange : timestampNs - maxDistanceNs ≤ saturatingAdd timestampNs maxDistanceNs := (Nat.sub_le _ _).trans hsat
  have hordered : Ordered (store.finishedWords dispatched) := h.stored.take_ordered
  refine ⟨?_, fun hn => hn.endKept h.stored ht⟩
  rw [endKept_iff h.stored ht]
  rw [h.nearest_eq hcache ht maxDistanceNs rfl, nearestOf_boundariesOf (h.stored.view_ordered hrange),
    nearestOf_view h.stored ht]
  have hresult : (∃ result, Except.ok (nearestOf timestampNs maxDistanceNs
        (fixedBoundaries (store.finishedWords dispatched) ++ (endBefore timestampNs (store.viewOf cached dispatched
          (timestampNs - maxDistanceNs) (saturatingAdd timestampNs maxDistanceNs))).toList)) =
        (.ok result : AnnotationQueryResult (Option Nat)) ∧
        IsNearestBoundary (store.finishedWords dispatched) timestampNs maxDistanceNs result) ↔
      nearestOf timestampNs maxDistanceNs (fixedBoundaries (store.finishedWords dispatched) ++
          (endBefore timestampNs (store.viewOf cached dispatched
            (timestampNs - maxDistanceNs) (saturatingAdd timestampNs maxDistanceNs))).toList) =
        nearestOf timestampNs maxDistanceNs (boundariesOf (store.finishedWords dispatched)) := by
    constructor
    · rintro ⟨result, hsame, hnearest⟩
      obtain rfl := Except.ok.inj hsame
      exact ((isBest_iff (boundaryKey_injective timestampNs)).mp hnearest).symm
    · exact fun hsame => ⟨_, rfl, (isBest_iff (boundaryKey_injective timestampNs)).mpr hsame.symm⟩
  rw [hresult, nearestOf_boundariesOf hordered]
  exact best_snoc_eq_iff

end Boundary

def repeatedWords : List Word := [.new 1 0, .new 2 10, .new 2 10, .new 3 1000]

def repeatedCalls : List Call := [⟨.appendBatch repeatedWords, promptly⟩, ⟨.finish, promptly⟩]

/-- The two words at 10 are taken for one, which then ends at 20, ten after its start. -/
theorem nearest_boundary_invents_end :
    ∃ machine step, createWriter { oneWordBlocks with block := .default } Repository.empty 0 (promptly 0) = .ok machine ∧
      step ∈ runCalls .crc32c repeatedCalls machine ∧ FinishedStore .crc32c step.after.store step.after.dispatched ∧
      CacheSound .crc32c step.after.store emptyCache ∧
      step.after.store.finishedWords step.after.dispatched = repeatedWords ∧
      (step.after.store.nearestBoundary .crc32c nativeSizes 21 12 emptyCache).1 = .ok (some 20) ∧
      ¬∃ result, (step.after.store.nearestBoundary .crc32c nativeSizes 21 12 emptyCache).1 = .ok result ∧
        IsNearestBoundary (step.after.store.finishedWords step.after.dispatched) 21 12 result := by
  obtain ⟨machine, step, hcreate, hstep, hfinished, hwords, htest⟩ := @finishes_of_run repeatedWords
    (fun machine => decide (machine.store.viewOf (machine.store.cachedInTurn .crc32c nativeSizes 9 33 emptyCache)
      machine.dispatched 9 33 = [.new 1 0, .new 2 10, .new 3 1000])) repeatedCalls (by decide +kernel) (by decide)
  have hview := of_decide_eq_true htest
  have hresult : (step.after.store.nearestBoundary .crc32c nativeSizes 21 12 emptyCache).1 = .ok (some 20) := by
    have hsound : CacheSound .crc32c step.after.store emptyCache := cacheSound_new _ _ _
    have ht : 21 ≤ u64Max := by decide
    rw [hfinished.nearest_eq hsound ht 12 rfl]
    show Except.ok (nearestOf 21 12 (boundariesOf (step.after.store.viewOf
      (step.after.store.cachedInTurn .crc32c nativeSizes 9 33 emptyCache) step.after.dispatched 9 33))) = _
    rw [hview]
    decide
  refine ⟨machine, step, hcreate, hstep, hfinished, cacheSound_new _ _ _, hwords, hresult, ?_⟩
  rintro ⟨result, hsame, hnearest⟩
  obtain rfl := Except.ok.inj (hresult.symm.trans hsame)
  rw [hwords] at hnearest
  exact absurd hnearest.1 (by decide)

theorem nearest_boundary_is_found_start :
    ∃ machine step, createWriter { oneWordBlocks with block := .default } Repository.empty 0 (promptly 0) = .ok machine ∧
      step ∈ runCalls .crc32c repeatedCalls machine ∧
      ∃ result, (step.after.store.nearestBoundary .crc32c nativeSizes 9 5 emptyCache).1 = .ok result ∧
        IsNearestBoundary repeatedWords 9 5 result := by
  obtain ⟨machine, step, hcreate, hstep, hfinished, hwords, htest⟩ := @finishes_of_run repeatedWords
    (fun machine => decide (endBefore 9 (machine.store.viewOf
        (machine.store.cachedInTurn .crc32c nativeSizes 4 14 emptyCache) machine.dispatched 4 14) =
      endBefore 9 (machine.store.finishedWords machine.dispatched))) repeatedCalls (by decide +kernel) (by decide)
  have hkept : EndKept (step.after.store.cachedInTurn .crc32c nativeSizes 4 14 emptyCache) step.after.dispatched
      step.after.store 9 5 := (endKept_iff hfinished.stored (by decide)).mpr (Or.inl (of_decide_eq_true htest))
  have hfound := (@nearest_boundary_is_found _ _ _ 9 5 hfinished nativeSizes emptyCache (cacheSound_new _ _ _)
    (by decide)).1.mpr hkept
  rw [hwords] at hfound
  exact ⟨machine, step, hcreate, hstep, hfound⟩

end LogicConduit
