import LogicConduit.WordBlockSizes
import LogicConduit.WordPresence

namespace LogicConduit

structure RunOf (block : Nat) (run : List Word) (record : WordSummaryRecord) : Prop where
  start : run.head?.map Word.time = some record.startNs
  count : record.wordCount = run.length
  firstBlock : record.firstBlock = block
  blockCount : record.blockCount = 1
  covers : ∀ word ∈ run, saturatingAdd word.time word.duration ≤ record.endNs
  bounded : record.endNs < 2 ^ 64

inductive CutInto (block : Nat) : List Word → List WordSummaryRecord → Prop
  | nil : CutInto block [] []
  | snoc {words run : List Word} {records : List WordSummaryRecord} {record : WordSummaryRecord}
      (prior : CutInto block words records) (last : RunOf block run record) :
      CutInto block (words ++ run) (records ++ [record])

theorem saturatingAdd_le (a b : Nat) : a ≤ u64Max → a ≤ saturatingAdd a b := by
  unfold saturatingAdd
  omega

theorem saturatingAdd_lt (a b : Nat) : saturatingAdd a b < 2 ^ 64 := by
  unfold saturatingAdd u64Max
  omega

namespace RunOf

variable {block : Nat} {run : List Word} {record : WordSummaryRecord}

theorem start_le (h : RunOf block run record) : record.startNs ≤ record.endNs := by
  obtain ⟨word, hw, hstart⟩ := Option.map_eq_some_iff.mp h.start
  have hcover := h.covers word (List.mem_of_head? hw)
  have hle := saturatingAdd_le word.time word.duration (Nat.le_of_lt_succ word.time_lt)
  omega

theorem count_pos (h : RunOf block run record) : 0 < record.wordCount := by
  obtain ⟨word, hw, -⟩ := Option.map_eq_some_iff.mp h.start
  rw [h.count]
  exact List.length_pos_iff.mpr (List.ne_nil_of_mem (List.mem_of_head? hw))

end RunOf

section Ends

variable {words : List Word}

theorem durationFreePresenceWordEndNs_lt (words : List Word) (index : Nat) :
    durationFreePresenceWordEndNs words index < 2 ^ 64 := by
  unfold durationFreePresenceWordEndNs
  cases words[index]? with
  | none => exact Nat.two_pow_pos 64
  | some word =>
    cases words[index + 1]? with
    | none => exact saturatingAdd_lt _ _
    | some next => exact saturatingAdd_lt _ _

theorem le_durationFreePresenceWordEndNs {index : Nat} {word : Word} (h : words[index]? = some word) :
    word.time ≤ durationFreePresenceWordEndNs words index := by
  have hle := Nat.le_of_lt_succ word.time_lt
  unfold durationFreePresenceWordEndNs
  rw [h]
  cases words[index + 1]? with
  | none => exact saturatingAdd_le _ _ hle
  | some next => exact saturatingAdd_le _ _ hle

theorem presenceWordEndNs_lt (words : List Word) (index : Nat) : presenceWordEndNs words index < 2 ^ 64 := by
  unfold presenceWordEndNs
  split
  · split
    · exact saturatingAdd_lt _ _
    · exact durationFreePresenceWordEndNs_lt words index
  · exact Nat.two_pow_pos 64

theorem le_presenceWordEndNs {index : Nat} {word : Word} (h : words[index]? = some word) :
    saturatingAdd word.time word.duration ≤ presenceWordEndNs words index := by
  unfold presenceWordEndNs
  rw [h]
  by_cases hd : word.durationNs = 0
  · have hzero : word.duration = 0 := Word.duration_eq_zero.mpr hd
    have hsame : saturatingAdd word.time word.duration = word.time := by
      have := word.time_lt
      unfold saturatingAdd u64Max
      omega
    simp only [hd, ne_eq, not_true, if_false]
    rw [hsame]
    exact le_durationFreePresenceWordEndNs h
  · simp only [ne_eq, hd, not_false_eq_true, if_true]
    exact le_rfl

end Ends

section General

variable {block : Nat} {words : List Word} {records : List WordSummaryRecord} {word : Word} {endNs : Nat}

theorem CutInto.start (h : CutInto block words records)
    (hc : saturatingAdd word.time word.duration ≤ endNs) (hb : endNs < 2 ^ 64) :
    CutInto block (words ++ [word]) (records ++ [⟨word.time, endNs, 1, block, 1⟩]) := by
  refine h.snoc ⟨rfl, rfl, rfl, rfl, ?_, hb⟩
  intro other hm
  rw [List.mem_singleton.mp hm]
  exact hc

theorem CutInto.extend {current : WordSummaryRecord} (h : CutInto block words (records ++ [current]))
    (hw : words.length < u64Max) (hc : saturatingAdd word.time word.duration ≤ endNs) (hb : endNs < 2 ^ 64) :
    CutInto block (words ++ [word]) (records ++ [{ current with
      endNs := max current.endNs endNs
      wordCount := saturatingAdd current.wordCount 1 }]) := by
  generalize hall : records ++ [current] = all at h
  cases h with
  | nil => simp at hall
  | @snoc earlier run others last prior hrun =>
    obtain ⟨rfl, hlast⟩ := List.append_inj' hall rfl
    obtain rfl : current = last := by simpa using hlast
    rw [List.append_assoc]
    refine prior.snoc ⟨?_, ?_, hrun.firstBlock, hrun.blockCount, ?_, max_lt hrun.bounded hb⟩
    · obtain ⟨first, hfirst, hstart⟩ := Option.map_eq_some_iff.mp hrun.start
      rw [List.head?_append, hfirst, Option.some_or, Option.map_some, hstart]
    · rw [List.length_append] at hw ⊢
      show saturatingAdd current.wordCount 1 = _
      rw [hrun.count]
      unfold saturatingAdd
      simp only [List.length_singleton]
      omega
    · intro other hm
      rcases List.mem_append.mp hm with hm | hm
      · exact (hrun.covers other hm).trans (le_max_left _ _)
      · rw [List.mem_singleton.mp hm]
        exact hc.trans (le_max_right _ _)

theorem generalRuns_cut (hlen : words.length ≤ u64Max) (rest : List Word) (wordIndex : Nat)
    (boundaries : List Nat) (summaries : List WordSummaryRecord) (hrest : words.drop wordIndex = rest)
    (h : CutInto block (words.take wordIndex) summaries) :
    CutInto block words (generalRuns block words rest wordIndex boundaries summaries) := by
  induction rest generalizing wordIndex boundaries summaries with
  | nil =>
    rw [generalRuns]
    rw [List.take_of_length_le (List.drop_eq_nil_iff.mp hrest)] at h
    exact h
  | cons word rest ih =>
    have hword : words[wordIndex]? = some word := by
      rw [← List.head?_drop, hrest]
      rfl
    have hlt := (List.getElem?_eq_some_iff.mp hword).1
    have hnext : words.drop (wordIndex + 1) = rest := by
      rw [← List.drop_drop, hrest]
      rfl
    have htake : words.take (wordIndex + 1) = words.take wordIndex ++ [word] := by
      rw [List.take_add_one, hword]
      rfl
    have hcover := le_presenceWordEndNs hword
    have hbound := presenceWordEndNs_lt words wordIndex
    have hstart : CutInto block (words.take (wordIndex + 1))
        (summaries ++ [⟨word.time, presenceWordEndNs words wordIndex, 1, block, 1⟩]) := by
      rw [htake]
      exact h.start hcover hbound
    rw [generalRuns]
    cases hlast : summaries.getLast? with
    | none => exact ih _ _ _ hnext hstart
    | some current =>
      simp only []
      split
      · exact ih _ _ _ hnext hstart
      · obtain ⟨others, rfl⟩ := List.getLast?_eq_some_iff.mp hlast
        refine ih _ _ _ hnext ?_
        rw [htake, List.dropLast_concat]
        refine h.extend ?_ hcover hbound
        rw [List.length_take]
        omega

theorem generalWordPresenceSummaries_cut (hlen : words.length ≤ u64Max) :
    CutInto block words (generalWordPresenceSummaries block words) := by
  unfold generalWordPresenceSummaries
  split
  next hnil =>
    rw [hnil]
    exact .nil
  next => exact generalRuns_cut hlen words 0 _ [] rfl .nil

end General

theorem pushLargestGap_sublist (largest : List PresenceGap) (gap : PresenceGap) :
    (pushLargestGap largest gap).Sublist (gap :: largest) := by
  unfold pushLargestGap
  split
  · exact List.Sublist.refl _
  · cases largest with
    | nil => exact List.nil_sublist _
    | cons first rest =>
      simp only []
      split
      · exact List.erase_sublist.cons_cons gap
      · exact List.sublist_cons_self _ _

/-- Gaps before different words, all between the first word and `limit`. -/
def GapsBelow (limit : Nat) (gaps : List PresenceGap) : Prop :=
  (gaps.map (·.wordIndex)).Nodup ∧ ∀ gap ∈ gaps, 0 < gap.wordIndex ∧ gap.wordIndex < limit

variable {gaps : List PresenceGap}

theorem GapsBelow.mono {limit other : Nat} (h : GapsBelow limit gaps) (hl : limit ≤ other) : GapsBelow other gaps :=
  ⟨h.1, fun gap hm => ⟨(h.2 gap hm).1, (h.2 gap hm).2.trans_le hl⟩⟩

theorem GapsBelow.push {limit : Nat} (h : GapsBelow limit gaps) (hl : 0 < limit) (gapNs runIndex : Nat) :
    GapsBelow (limit + 1) (pushLargestGap gaps ⟨gapNs, runIndex, limit⟩) := by
  have hsub := pushLargestGap_sublist gaps ⟨gapNs, runIndex, limit⟩
  have hall : GapsBelow (limit + 1) (⟨gapNs, runIndex, limit⟩ :: gaps) := by
    refine ⟨?_, ?_⟩
    · rw [List.map_cons, List.nodup_cons]
      refine ⟨?_, h.1⟩
      intro hm
      obtain ⟨gap, hg, heq⟩ := List.mem_map.mp hm
      have hlt := (h.2 gap hg).2
      simp only at heq
      omega
    · intro gap hm
      rcases List.mem_cons.mp hm with rfl | hm
      · exact ⟨hl, Nat.lt_succ_self _⟩
      · exact (h.mono (Nat.le_succ _)).2 gap hm
  exact ⟨hall.1.sublist (hsub.map _), fun gap hm => hall.2 gap (hsub.subset hm)⟩

theorem durationFreeGaps_below (words rest : List Word) (wordIndex runIndex : Nat)
    (largest : List PresenceGap) (hw : 0 < wordIndex) (h : GapsBelow wordIndex largest) :
    GapsBelow (wordIndex + rest.length) (durationFreeGaps words rest wordIndex runIndex largest) := by
  induction rest generalizing wordIndex runIndex largest with
  | nil => exact h
  | cons word rest ih =>
    rw [durationFreeGaps, List.length_cons, ← Nat.add_assoc, Nat.add_right_comm]
    split
    · exact ih _ _ _ (Nat.succ_pos _) (h.mono (Nat.le_succ _))
    · exact ih _ _ _ (Nat.succ_pos _) (h.push hw _ _)

theorem GapsBelow.boundaries {limit : Nat} (h : GapsBelow limit gaps) (hl : 0 < limit) :
    (0 :: ((gaps.map (·.wordIndex)).insertionSort (· ≤ ·) ++ [limit])).Pairwise (· < ·) := by
  have hperm := List.perm_insertionSort (· ≤ ·) (gaps.map (·.wordIndex))
  have hnodup := hperm.nodup_iff.mpr h.1
  have hsorted : ((gaps.map (·.wordIndex)).insertionSort (· ≤ ·)).Pairwise (· < ·) := by
    have hle := List.pairwise_insertionSort (· ≤ ·) (gaps.map (·.wordIndex))
    refine (hle.and hnodup).imp ?_
    intro a b hab
    exact lt_of_le_of_ne hab.1 hab.2
  have hbounds : ∀ index ∈ (gaps.map (·.wordIndex)).insertionSort (· ≤ ·), 0 < index ∧ index < limit := by
    intro index hm
    obtain ⟨gap, hg, rfl⟩ := List.mem_map.mp (hperm.mem_iff.mp hm)
    exact h.2 gap hg
  refine List.pairwise_cons.mpr ⟨?_, List.pairwise_append.mpr ⟨hsorted, List.pairwise_singleton _ _, ?_⟩⟩
  · intro index hm
    rcases List.mem_append.mp hm with hm | hm
    · exact (hbounds index hm).1
    · rw [List.mem_singleton.mp hm]
      exact hl
  · intro index hm last hlast
    rw [List.mem_singleton.mp hlast]
    exact (hbounds index hm).2

theorem CutInto.append {block : Nat} {words more : List Word} {records others : List WordSummaryRecord}
    (h : CutInto block words records) (hm : CutInto block more others) :
    CutInto block (words ++ more) (records ++ others) := by
  induction hm with
  | nil => simpa using h
  | snoc prior last ih =>
    rw [← List.append_assoc, ← List.append_assoc]
    exact ih.snoc last

def span (words : List Word) (start stop : Nat) : List Word := (words.take stop).drop start

variable {words : List Word}

theorem span_append {start middle stop : Nat} (hs : start ≤ middle) (hm : middle ≤ stop) (hl : middle ≤ words.length) :
    span words start middle ++ span words middle stop = span words start stop := by
  have hcut : words.take stop = words.take middle ++ (words.take stop).drop middle := by
    conv_lhs => rw [← List.take_append_drop middle (words.take stop), List.take_take, Nat.min_eq_left hm]
  have hlen : (words.take middle).length = middle := by
    rw [List.length_take]
    omega
  unfold span
  conv_rhs => rw [hcut, List.drop_append_of_le_length (hlen.symm ▸ hs)]

theorem getElem?_span {start stop i : Nat} {word : Word} (h : (span words start stop)[i]? = some word) :
    start + i < stop ∧ words[start + i]? = some word := by
  rw [span, List.getElem?_drop, List.getElem?_take] at h
  split at h
  next hlt => exact ⟨hlt, h⟩
  next => cases h

theorem Ordered.getElem?_le (ho : Ordered words) {i j : Nat} {a b : Word} (ha : words[i]? = some a)
    (hb : words[j]? = some b) (hij : i ≤ j) : a.time ≤ b.time := by
  obtain ⟨hi, rfl⟩ := List.getElem?_eq_some_iff.mp ha
  obtain ⟨hj, rfl⟩ := List.getElem?_eq_some_iff.mp hb
  rcases Nat.lt_or_eq_of_le hij with hlt | rfl
  · exact List.pairwise_iff_getElem.mp ho i j hi hj hlt
  · exact le_rfl

theorem durationFreeRun_of (block : Nat) (ho : Ordered words) (hd : ∀ word ∈ words, word.duration = 0)
    {start stop : Nat} (hs : start < stop) (hl : stop ≤ words.length) :
    RunOf block (span words start stop) {
      startNs := (words[start]?.map Word.time).getD 0
      endNs := durationFreePresenceWordEndNs words (stop - 1)
      wordCount := stop - start
      firstBlock := block
      blockCount := 1 } := by
  have hlength : (span words start stop).length = stop - start := by
    rw [span, List.length_drop, List.length_take, Nat.min_eq_left hl]
  obtain ⟨last, hlast⟩ : ∃ last, words[stop - 1]? = some last := ⟨_, List.getElem?_eq_getElem (by omega)⟩
  obtain ⟨first, hfirst⟩ : ∃ first, words[start]? = some first := ⟨_, List.getElem?_eq_getElem (by omega)⟩
  refine ⟨?_, hlength.symm, rfl, rfl, ?_, durationFreePresenceWordEndNs_lt _ _⟩
  · rw [span, List.head?_drop, List.getElem?_take_of_lt hs, hfirst]
    rfl
  · intro word hm
    obtain ⟨i, hi⟩ := List.mem_iff_getElem?.mp hm
    obtain ⟨hlt, hword⟩ := getElem?_span hi
    have hle := ho.getElem?_le hword hlast (by omega)
    have hend := le_durationFreePresenceWordEndNs hlast
    rw [hd word (List.mem_of_getElem? hword)]
    unfold saturatingAdd
    exact (min_le_left _ _).trans (hle.trans hend)

theorem durationFreeRuns_cut {block : Nat} (ho : Ordered words) (hd : ∀ word ∈ words, word.duration = 0) (start : Nat)
    (ends : List Nat) (stop : Nat) (hstop : stop ≤ words.length) (h : (start :: (ends ++ [stop])).Pairwise (· < ·)) :
    CutInto block (span words start stop) (durationFreeRuns block words start (ends ++ [stop])) := by
  induction ends generalizing start with
  | nil =>
    have hlt : start < stop := (List.pairwise_cons.mp h).1 stop List.mem_cons_self
    exact CutInto.nil.snoc (durationFreeRun_of block ho hd hlt hstop)
  | cons next rest ih =>
    obtain ⟨hstart, hrest⟩ := List.pairwise_cons.mp h
    have hlt : start < next := hstart next List.mem_cons_self
    have hnext : next < stop := (List.pairwise_cons.mp hrest).1 stop (List.mem_append_right _ List.mem_cons_self)
    have hrun := CutInto.nil.snoc (durationFreeRun_of block ho hd hlt (by omega))
    rw [← span_append hlt.le hnext.le (by omega)]
    exact hrun.append (ih next hrest)

theorem durationFreeWordPresenceSummaries_cut {block : Nat} (ho : Ordered words)
    (hd : ∀ word ∈ words, word.duration = 0) :
    CutInto block words (durationFreeWordPresenceSummaries block words) := by
  unfold durationFreeWordPresenceSummaries
  split
  next hnil =>
    rw [hnil]
    exact .nil
  next hne =>
    have hpos : 0 < words.length := List.length_pos_iff.mpr hne
    have hgaps : GapsBelow words.length (durationFreeGaps words words.tail 1 0 []) := by
      have hbelow := durationFreeGaps_below words words.tail 1 0 [] Nat.one_pos ⟨List.nodup_nil, by simp⟩
      rw [List.length_tail, Nat.add_sub_cancel' hpos] at hbelow
      exact hbelow
    have hspan : span words 0 words.length = words := by rw [span, List.take_length, List.drop_zero]
    conv_lhs => rw [← hspan]
    exact durationFreeRuns_cut ho hd 0 _ words.length le_rfl (hgaps.boundaries hpos)

theorem wordPresenceSummaries_cut {builder : WordBlockBuilder} (block : Nat) (hs : builder.Sized)
    (ho : Ordered builder.words) :
    CutInto block builder.words (wordPresenceSummaries block builder.words builder.isDurationFree) := by
  unfold wordPresenceSummaries
  split
  next hfree =>
    refine durationFreeWordPresenceSummaries_cut ho ?_
    intro word hm
    have hcount := hs.fits.of.durationCount
    rw [of_decide_eq_true hfree] at hcount
    have hzero := List.countP_eq_zero.mp hcount.symm word hm
    apply Word.duration_eq_zero.mpr
    simpa using hzero
  next =>
    apply generalWordPresenceSummaries_cut
    have hlength := hs.fits.length
    have hmax := hs.maxWords_le
    unfold u32Max at hmax
    unfold u64Max
    omega

end LogicConduit
