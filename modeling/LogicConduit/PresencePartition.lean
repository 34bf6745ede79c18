import Mathlib.Data.Prod.Lex
import LogicConduit.LargestKept
import LogicConduit.WordPresenceRuns

namespace LogicConduit

def latestEnd (words : List Word) : Nat → Nat
  | 0 => 0
  | count + 1 => max (latestEnd words count) (presenceWordEndNs words count)

/-- The gaps before the first `count` words: a word that starts after the presence of all words before it. -/
def gapsBefore (words : List Word) : Nat → List PresenceGap
  | 0 => []
  | count + 1 =>
    match words[count]? with
    | none => gapsBefore words count
    | some word =>
      if 0 < count ∧ latestEnd words count < word.time then
        gapsBefore words count ++ [⟨word.time - latestEnd words count, (gapsBefore words count).length, count⟩]
      else gapsBefore words count

def inactiveGaps (words : List Word) : List PresenceGap := gapsBefore words words.length

def gapKey (gap : PresenceGap) : Nat ×ₗ Nat := toLex (gap.gapNs, gap.runIndex)

section Gaps

variable {words : List Word}

theorem gapsBefore_runIndex (count : Nat) :
    (gapsBefore words count).map (·.runIndex) = List.range (gapsBefore words count).length := by
  induction count with
  | zero => rfl
  | succ count ih =>
    rw [gapsBefore]
    split
    next => exact ih
    next =>
      split
      next => rw [List.map_append, ih, List.length_append, List.length_singleton, List.range_succ, List.map_singleton]
      next => exact ih

variable {count : Nat}

theorem gapsBefore_mem {gap : PresenceGap} (h : gap ∈ gapsBefore words count) :
    ∃ word, words[gap.wordIndex]? = some word ∧ 0 < gap.wordIndex ∧ gap.wordIndex < count ∧
      latestEnd words gap.wordIndex < word.time ∧ gap.gapNs = word.time - latestEnd words gap.wordIndex := by
  induction count with
  | zero => cases h
  | succ count ih =>
    rw [gapsBefore] at h
    split at h
    next =>
      obtain ⟨word, hword, hpos, hlt, hgap⟩ := ih h
      exact ⟨word, hword, hpos, Nat.lt_succ_of_lt hlt, hgap⟩
    next word hword =>
      split at h
      next hopen =>
        rcases List.mem_append.mp h with h | h
        · obtain ⟨word, hword, hpos, hlt, hgap⟩ := ih h
          exact ⟨word, hword, hpos, Nat.lt_succ_of_lt hlt, hgap⟩
        · rw [List.mem_singleton.mp h]
          exact ⟨word, hword, hopen.1, Nat.lt_succ_self count, hopen.2, rfl⟩
      next =>
        obtain ⟨word, hword, hpos, hlt, hgap⟩ := ih h
        exact ⟨word, hword, hpos, Nat.lt_succ_of_lt hlt, hgap⟩

theorem gapsBefore_inj {a b : PresenceGap} (ha : a ∈ gapsBefore words count) (hb : b ∈ gapsBefore words count)
    (h : gapKey a = gapKey b) : a = b := by
  have hnodup : ((gapsBefore words count).map (·.runIndex)).Nodup := by
    rw [gapsBefore_runIndex]
    exact List.nodup_range
  have hrun : a.runIndex = b.runIndex := congrArg Prod.snd (toLex_inj.mp h)
  exact List.inj_on_of_nodup_map hnodup ha hb hrun

theorem gapsBefore_nodup (count : Nat) : (gapsBefore words count).Nodup := by
  apply List.Nodup.of_map (·.runIndex)
  rw [gapsBefore_runIndex]
  exact List.nodup_range

theorem gapsBefore_succ {word : Word} (h : words[count]? = some word) :
    gapsBefore words (count + 1) =
      if 0 < count ∧ latestEnd words count < word.time then
        gapsBefore words count ++ [⟨word.time - latestEnd words count, (gapsBefore words count).length, count⟩]
      else gapsBefore words count := by
  rw [gapsBefore, h]

theorem of_drop_eq_cons {rest : List Word} {word : Word} (h : words.drop count = word :: rest) :
    words[count]? = some word ∧ words.drop (count + 1) = rest := by
  constructor
  · rw [← List.head?_drop, h, List.head?_cons]
  · rw [← List.tail_drop, h, List.tail_cons]

theorem length_of_drop_eq_nil (h : words.drop count = []) (hle : count ≤ words.length) :
    count = words.length :=
  Nat.le_antisymm hle (List.drop_eq_nil_iff.mp h)

theorem generalGaps_eq (rest : List Word) {count : Nat} (hpos : 0 < count) (hle : count ≤ words.length)
    (hrest : words.drop count = rest) :
    generalGaps words rest count (latestEnd words count) (gapsBefore words count).length (gapsBefore words count) =
      inactiveGaps words := by
  induction rest generalizing count with
  | nil => rw [generalGaps, inactiveGaps, length_of_drop_eq_nil hrest hle]
  | cons word rest ih =>
    obtain ⟨hword, hdrop⟩ := of_drop_eq_cons hrest
    have hlt : count < words.length := (List.getElem?_eq_some_iff.mp hword).1
    have hnext := ih (Nat.succ_pos count) hlt hdrop
    have hend : word.time ≤ presenceWordEndNs words count :=
      (saturatingAdd_le _ _ (Nat.le_of_lt_succ word.time_lt)).trans (le_presenceWordEndNs hword)
    rw [generalGaps]
    by_cases hinside : word.time ≤ latestEnd words count
    · rw [gapsBefore_succ hword, if_neg (by omega), latestEnd] at hnext
      rw [if_pos hinside, hnext]
    · rw [gapsBefore_succ hword, if_pos ⟨hpos, by omega⟩, List.length_append, List.length_singleton, latestEnd,
        max_eq_right (by omega)] at hnext
      rw [if_neg hinside, hnext]

end Gaps

section DurationFree

variable {words : List Word}

theorem presenceWordEndNs_instant (hfree : ∀ word ∈ words, word.durationNs = 0) (index : Nat) :
    presenceWordEndNs words index = durationFreePresenceWordEndNs words index := by
  unfold presenceWordEndNs
  cases hword : words[index]? with
  | none => rw [durationFreePresenceWordEndNs, hword]
  | some word => simp only [hfree word (List.mem_of_getElem? hword), ne_eq, not_true, if_false]

theorem durationFreePresenceWordEndNs_le {index : Nat} {word next : Word} (ho : Ordered words)
    (hword : words[index]? = some word) (hnext : words[index + 1]? = some next) :
    durationFreePresenceWordEndNs words index ≤ next.time := by
  have hle := ho.getElem?_le hword hnext (Nat.le_succ index)
  rw [durationFreePresenceWordEndNs, hword, hnext]
  simp only [instantaneousWordEndNsWithLimit, saturatingAdd]
  omega

theorem latestEnd_instant (ho : Ordered words) (hfree : ∀ word ∈ words, word.durationNs = 0) {index : Nat}
    (hlt : index < words.length) : latestEnd words (index + 1) = durationFreePresenceWordEndNs words index := by
  induction index with
  | zero => rw [latestEnd, latestEnd, presenceWordEndNs_instant hfree, Nat.zero_max]
  | succ index ih =>
    have hword : words[index]? = some words[index] := List.getElem?_eq_getElem _
    have hnext : words[index + 1]? = some words[index + 1] := List.getElem?_eq_getElem _
    have hbefore := durationFreePresenceWordEndNs_le ho hword hnext
    have hafter := le_durationFreePresenceWordEndNs hnext
    rw [latestEnd, ih (by omega), presenceWordEndNs_instant hfree, max_eq_right (by omega)]

end DurationFree

section Heap

theorem PresenceGap.lt_iff {a b : PresenceGap} (hinj : gapKey a = gapKey b → a = b) :
    a.lt b = true ↔ gapKey a < gapKey b := by
  rw [PresenceGap.lt, decide_eq_true_eq, gapKey, gapKey, Prod.Lex.toLex_lt_toLex]
  simp only
  constructor
  · rintro (hgap | ⟨hgap, hrun | ⟨hrun, hword⟩⟩)
    · exact Or.inl hgap
    · exact Or.inr ⟨hgap, hrun⟩
    · have heq := hinj (congrArg toLex (Prod.ext hgap hrun))
      rw [heq] at hword
      exact absurd hword (Nat.lt_irrefl _)
  · rintro (hgap | ⟨hgap, hrun⟩)
    · exact Or.inl hgap
    · exact Or.inr ⟨hgap, Or.inl hrun⟩

theorem PresenceGap.smallest_spec (first : PresenceGap) (gaps : List PresenceGap)
    (hinj : ∀ a ∈ first :: gaps, ∀ b ∈ first :: gaps, gapKey a = gapKey b → a = b) :
    PresenceGap.smallest first gaps ∈ first :: gaps ∧
      ∀ gap ∈ first :: gaps, gapKey (PresenceGap.smallest first gaps) ≤ gapKey gap := by
  induction gaps generalizing first with
  | nil =>
    refine ⟨List.mem_singleton_self first, ?_⟩
    intro gap hgap
    rw [List.mem_singleton.mp hgap]
    exact le_rfl
  | cons gap gaps ih =>
    have hstep : PresenceGap.smallest first (gap :: gaps) =
        PresenceGap.smallest (if gap.lt first then gap else first) gaps := rfl
    have hlt : gap.lt first = true ↔ gapKey gap < gapKey first :=
      PresenceGap.lt_iff (hinj gap (by simp) first (by simp))
    have hmem : (if gap.lt first then gap else first) ∈ first :: gap :: gaps := by
      split
      next => exact List.mem_cons_of_mem first List.mem_cons_self
      next => exact List.mem_cons_self
    have hsub : ∀ a ∈ (if gap.lt first then gap else first) :: gaps, a ∈ first :: gap :: gaps := by
      intro a ha
      rcases List.mem_cons.mp ha with rfl | ha
      · exact hmem
      · exact List.mem_cons_of_mem first (List.mem_cons_of_mem gap ha)
    obtain ⟨hfound, hleast⟩ := ih (if gap.lt first then gap else first)
      fun a ha b hb => hinj a (hsub a ha) b (hsub b hb)
    have hhead := hleast _ List.mem_cons_self
    rw [hstep]
    refine ⟨hsub _ hfound, ?_⟩
    intro a ha
    rcases List.mem_cons.mp ha with rfl | ha
    · refine hhead.trans ?_
      split
      next hless => exact (hlt.mp hless).le
      next => exact le_rfl
    · rcases List.mem_cons.mp ha with rfl | ha
      · refine hhead.trans ?_
        split
        next => exact le_rfl
        next hless => exact not_lt.mp fun h => hless (hlt.mpr h)
      · exact hleast a (List.mem_cons_of_mem _ ha)

theorem pushLargestGap_keeps {gaps largest : List PresenceGap} {gap : PresenceGap}
    (h : LargestKept gapKey keptGapCount gaps largest) (hnew : gap ∉ gaps)
    (hinj : ∀ a ∈ gaps ++ [gap], ∀ b ∈ gaps ++ [gap], gapKey a = gapKey b → a = b) :
    LargestKept gapKey keptGapCount (gaps ++ [gap]) (pushLargestGap largest gap) := by
  unfold pushLargestGap
  split
  next hroom => exact h.push hnew hroom
  next hfull =>
    have hlength : largest.length = keptGapCount := by
      have hle := h.length
      omega
    cases largest with
    | nil => cases hlength
    | cons first rest =>
      have hold : ∀ a ∈ first :: rest, a ∈ gaps ++ [gap] := fun a ha => List.mem_append_left [gap] (h.subset ha)
      obtain ⟨hleast, hmin⟩ := PresenceGap.smallest_spec first rest fun a ha b hb => hinj a (hold a ha) b (hold b hb)
      have hlt : (PresenceGap.smallest first rest).lt gap = true ↔
          gapKey (PresenceGap.smallest first rest) < gapKey gap :=
        PresenceGap.lt_iff (hinj _ (hold _ hleast) gap (List.mem_append_right gaps (List.mem_singleton_self gap)))
      simp only
      split
      next hless => exact h.replace hlength hleast hmin hinj hnew (hlt.mp hless)
      next hless =>
        have hbelow : gapKey gap ≤ gapKey (PresenceGap.smallest first rest) := not_lt.mp fun h => hless (hlt.mpr h)
        exact h.skip hlength hinj fun a ha => hbelow.trans (hmin a ha)

theorem retainLargestGaps_keeps {gaps : List PresenceGap} (hnodup : gaps.Nodup)
    (hinj : ∀ a ∈ gaps, ∀ b ∈ gaps, gapKey a = gapKey b → a = b) :
    LargestKept gapKey keptGapCount gaps (retainLargestGaps gaps) := by
  rw [retainLargestGaps]
  split
  next =>
    apply LargestKept.of_sorted hnodup hinj (List.perm_insertionSort _ gaps)
    have hkey : ∀ a b : PresenceGap, (b.gapNs < a.gapNs ∨ b.gapNs = a.gapNs ∧ b.runIndex ≤ a.runIndex) ↔
        gapKey b ≤ gapKey a := by
      intro a b
      rw [gapKey, gapKey, Prod.Lex.toLex_le_toLex]
    have htotal : Std.Total fun a b : PresenceGap =>
        b.gapNs < a.gapNs ∨ b.gapNs = a.gapNs ∧ b.runIndex ≤ a.runIndex := by
      refine ⟨fun a b => ?_⟩
      rw [hkey, hkey]
      exact le_total _ _
    have htrans : IsTrans PresenceGap fun a b =>
        b.gapNs < a.gapNs ∨ b.gapNs = a.gapNs ∧ b.runIndex ≤ a.runIndex := by
      refine ⟨fun a b c hab hbc => ?_⟩
      rw [hkey] at *
      exact hbc.trans hab
    exact (List.pairwise_insertionSort _ gaps).imp fun {a b} h => (hkey a b).mp h
  next hfew => exact LargestKept.all gapKey hnodup (not_lt.mp hfew)

theorem durationFreeGaps_keeps {words : List Word} (ho : Ordered words)
    (hfree : ∀ word ∈ words, word.durationNs = 0) (rest : List Word) {count : Nat} {largest : List PresenceGap}
    (hpos : 0 < count) (hle : count ≤ words.length) (hrest : words.drop count = rest)
    (h : LargestKept gapKey keptGapCount (gapsBefore words count) largest) :
    LargestKept gapKey keptGapCount (inactiveGaps words)
      (durationFreeGaps words rest count (gapsBefore words count).length largest) := by
  induction rest generalizing count largest with
  | nil =>
    rw [inactiveGaps, ← length_of_drop_eq_nil hrest hle]
    exact h
  | cons word rest ih =>
    obtain ⟨hword, hdrop⟩ := of_drop_eq_cons hrest
    have hlt : count < words.length := (List.getElem?_eq_some_iff.mp hword).1
    have hend : durationFreePresenceWordEndNs words (count - 1) = latestEnd words count := by
      rw [← latestEnd_instant ho hfree (by omega), Nat.sub_add_cancel hpos]
    have hsucc := gapsBefore_succ hword
    rw [durationFreeGaps]
    simp only [hend]
    split
    next hinside =>
      rw [if_neg (by omega)] at hsucc
      have hnext := @ih (count + 1) largest (Nat.succ_pos count) hlt hdrop (hsucc ▸ h)
      rwa [hsucc] at hnext
    next hopen =>
      rw [if_pos ⟨hpos, by omega⟩] at hsucc
      have hnew : ⟨word.time - latestEnd words count, (gapsBefore words count).length, count⟩ ∉
          gapsBefore words count := by
        intro hmem
        obtain ⟨_, -, -, hbelow, -⟩ := gapsBefore_mem hmem
        exact Nat.lt_irrefl count hbelow
      have hpush := pushLargestGap_keeps h hnew fun a ha b hb => by
        rw [← hsucc] at ha hb
        exact gapsBefore_inj ha hb
      rw [← hsucc] at hpush
      have hnext := ih (Nat.succ_pos count) hlt hdrop hpush
      rwa [hsucc, List.length_append, List.length_singleton] at hnext

end Heap

def presenceRuns (block : Nat) (words : List Word) : Nat → List Nat → List WordSummaryRecord
  | _, [] => []
  | start, stop :: rest =>
    { startNs := (words[start]?.map Word.time).getD 0
      endNs := latestEnd words stop
      wordCount := stop - start
      firstBlock := block
      blockCount := 1 } :: presenceRuns block words stop rest

section Runs

variable {block : Nat} {words : List Word}

theorem durationFreeRuns_eq (ho : Ordered words) (hfree : ∀ word ∈ words, word.durationNs = 0) {start : Nat}
    {stops : List Nat} (hstops : (start :: stops).Pairwise (· < ·)) (hle : ∀ stop ∈ stops, stop ≤ words.length) :
    durationFreeRuns block words start stops = presenceRuns block words start stops := by
  induction stops generalizing start with
  | nil => rfl
  | cons stop stops ih =>
    obtain ⟨hfirst, hrest⟩ := List.pairwise_cons.mp hstops
    have hlt := hfirst stop List.mem_cons_self
    have hstop := hle stop List.mem_cons_self
    have hend : durationFreePresenceWordEndNs words (stop - 1) = latestEnd words stop := by
      rw [← latestEnd_instant ho hfree (by omega), Nat.sub_add_cancel (by omega)]
    rw [durationFreeRuns, presenceRuns, hend, ih hrest fun other hother => hle other (List.mem_cons_of_mem stop hother)]

theorem generalRuns_cons (hlen : words.length ≤ u64Max) {rest : List Word} {start count : Nat} {word : Word}
    {boundaries : List Nat} {done : List WordSummaryRecord} (hstart : start < count)
    (hword : words[count]? = some word) :
    generalRuns block words (word :: rest) count boundaries
        (done ++ [⟨(words[start]?.map Word.time).getD 0, latestEnd words count, count - start, block, 1⟩]) =
      if boundaries.head? = some count then
        generalRuns block words rest (count + 1) boundaries.tail
          ((done ++ [⟨(words[start]?.map Word.time).getD 0, latestEnd words count, count - start, block, 1⟩]) ++
            [⟨word.time, presenceWordEndNs words count, 1, block, 1⟩])
      else
        generalRuns block words rest (count + 1) boundaries
          (done ++ [⟨(words[start]?.map Word.time).getD 0, latestEnd words (count + 1), count + 1 - start, block,
            1⟩]) := by
  have hlt : count < words.length := (List.getElem?_eq_some_iff.mp hword).1
  have hcount : saturatingAdd (count - start) 1 = count + 1 - start := by
    rw [saturatingAdd_eq (by omega)]
    omega
  rw [generalRuns, List.getLast?_concat]
  simp only
  split
  next => rfl
  next => rw [List.dropLast_concat, hcount, latestEnd]

theorem generalRuns_eq (hlen : words.length ≤ u64Max) (rest : List Word) {start count : Nat} {boundaries : List Nat}
    {done : List WordSummaryRecord} (hstart : start < count) (hle : count ≤ words.length)
    (hrest : words.drop count = rest) (hsorted : boundaries.Pairwise (· < ·))
    (hgaps : ∀ index ∈ boundaries, count ≤ index ∧ ∃ word, words[index]? = some word ∧
      latestEnd words index < word.time) :
    generalRuns block words rest count boundaries
        (done ++ [⟨(words[start]?.map Word.time).getD 0, latestEnd words count, count - start, block, 1⟩]) =
      done ++ presenceRuns block words start (boundaries ++ [words.length]) := by
  induction rest generalizing start count boundaries done with
  | nil =>
    have hend := length_of_drop_eq_nil hrest hle
    have hnone : boundaries = [] := by
      rw [List.eq_nil_iff_forall_not_mem]
      intro index hindex
      obtain ⟨hge, word, hword, -⟩ := hgaps index hindex
      have hlt := (List.getElem?_eq_some_iff.mp hword).1
      omega
    rw [generalRuns, hnone, List.nil_append, ← hend]
    rfl
  | cons word rest ih =>
    obtain ⟨hword, hdrop⟩ := of_drop_eq_cons hrest
    have hlt : count < words.length := (List.getElem?_eq_some_iff.mp hword).1
    rw [generalRuns_cons hlen hstart hword]
    split
    next hhead =>
      obtain ⟨later, rfl⟩ : ∃ later, boundaries = count :: later := ⟨_, List.eq_cons_of_mem_head? hhead⟩
      obtain ⟨hfirst, hlater⟩ := List.pairwise_cons.mp hsorted
      obtain ⟨-, other, hother, hgap⟩ := hgaps count List.mem_cons_self
      obtain rfl : word = other := Option.some.inj (hword.symm.trans hother)
      have hend : word.time ≤ presenceWordEndNs words count :=
        (saturatingAdd_le _ _ (Nat.le_of_lt_succ word.time_lt)).trans (le_presenceWordEndNs hword)
      have hopened : (⟨word.time, presenceWordEndNs words count, 1, block, 1⟩ : WordSummaryRecord) =
          ⟨(words[count]?.map Word.time).getD 0, latestEnd words (count + 1), count + 1 - count, block, 1⟩ := by
        rw [hword, latestEnd, max_eq_right (by omega), Nat.add_sub_cancel_left]
        rfl
      have hrestgaps : ∀ index ∈ later, count + 1 ≤ index ∧ ∃ word, words[index]? = some word ∧
          latestEnd words index < word.time :=
        fun index hindex => ⟨hfirst index hindex, (hgaps index (List.mem_cons_of_mem count hindex)).2⟩
      rw [hopened, List.tail_cons, ih (Nat.lt_succ_self count) hlt hdrop hlater hrestgaps, List.append_assoc]
      rfl
    next hhead =>
      apply ih (by omega) hlt hdrop hsorted
      intro index hindex
      obtain ⟨hge, hgap⟩ := hgaps index hindex
      refine ⟨Nat.lt_of_le_of_ne hge fun heq => ?_, hgap⟩
      -- the first boundary is the least one
      cases boundaries with
      | nil => cases hindex
      | cons first later =>
        rcases List.mem_cons.mp hindex with rfl | hlater
        · exact hhead (congrArg some heq.symm)
        · have hbefore := (List.pairwise_cons.mp hsorted).1 index hlater
          have hfirst := (hgaps first List.mem_cons_self).1
          omega

end Runs

section Boundaries

variable {words : List Word} {largest : List PresenceGap}

theorem gapsBefore_wordIndex (count : Nat) :
    (gapsBefore words count).Pairwise fun a b => a.wordIndex < b.wordIndex := by
  induction count with
  | zero => exact List.Pairwise.nil
  | succ count ih =>
    rw [gapsBefore]
    split
    next => exact ih
    next =>
      split
      next =>
        refine List.pairwise_append.mpr ⟨ih, List.pairwise_singleton _ _, ?_⟩
        intro a ha b hb
        obtain ⟨_, -, -, hlt, -⟩ := gapsBefore_mem ha
        rw [List.mem_singleton.mp hb]
        exact hlt
      next => exact ih

def keptInOrder (words : List Word) (largest : List PresenceGap) : List PresenceGap :=
  (inactiveGaps words).filter fun gap => gap ∈ largest

section

variable (h : LargestKept gapKey keptGapCount (inactiveGaps words) largest)
include h

theorem keptInOrder_perm : (keptInOrder words largest).Perm largest := by
  have hnodup : (keptInOrder words largest).Nodup := (gapsBefore_nodup words.length).filter _
  apply (List.perm_ext_iff_of_nodup hnodup h.nodup).mpr
  intro gap
  rw [keptInOrder, List.mem_filter, decide_eq_true_eq]
  exact ⟨And.right, fun hgap => ⟨h.subset hgap, hgap⟩⟩

theorem boundaries_eq :
    (largest.map (·.wordIndex)).insertionSort (· ≤ ·) = (keptInOrder words largest).map (·.wordIndex) := by
  have hsorted : ((keptInOrder words largest).map (·.wordIndex)).Pairwise (· ≤ ·) :=
    List.pairwise_map.mpr (((gapsBefore_wordIndex words.length).filter _).imp Nat.le_of_lt)
  have hperm : ((largest.map (·.wordIndex)).insertionSort (· ≤ ·)).Perm
      ((keptInOrder words largest).map (·.wordIndex)) :=
    (List.perm_insertionSort _ _).trans ((keptInOrder_perm h).map _).symm
  exact hperm.eq_of_pairwise' (List.pairwise_insertionSort _ _) hsorted

theorem keptInOrder_eq {other : List PresenceGap}
    (hother : LargestKept gapKey keptGapCount (inactiveGaps words) other) :
    keptInOrder words largest = keptInOrder words other := by
  apply List.filter_congr
  intro gap _
  rw [decide_eq_decide]
  exact (h.perm hother).mem_iff

end

end Boundaries

/-- The records cut the words from `count` on into runs, in order, and each is present as long as its words are. -/
def Partitions (block : Nat) (words : List Word) : Nat → List WordSummaryRecord → Prop
  | count, [] => count = words.length
  | count, record :: rest =>
    0 < record.wordCount ∧ words[count]?.map Word.time = some record.startNs ∧ record.firstBlock = block ∧
      record.blockCount = 1 ∧
      (∀ index word, count ≤ index → index < count + record.wordCount → words[index]? = some word →
        record.startNs ≤ word.time ∧ presenceWordEndNs words index ≤ record.endNs) ∧
      Partitions block words (count + record.wordCount) rest

/-- What the summaries of a block are: a partition of its words at its largest inactive gaps. -/
structure PresenceSummaries (block : Nat) (words : List Word) (records : List WordSummaryRecord) : Prop where
  partition : Partitions block words 0 records
  counts : (records.map (·.wordCount)).sum = words.length
  bounded : records.length ≤ maxPresenceRunsPerBlock
  separated : records.Pairwise fun a b => a.endNs < b.startNs
  gaps : ∃ kept, kept.Sublist (inactiveGaps words) ∧
    LargestKept gapKey (maxPresenceRunsPerBlock - 1) (inactiveGaps words) kept ∧
    List.zipWith (fun a b => b.startNs - a.endNs) records records.tail = kept.map (·.gapNs) ∧
    records.tail.map (fun record => some record.startNs) = kept.map fun gap => words[gap.wordIndex]?.map Word.time

section Summaries

variable {block : Nat} {words : List Word}

theorem presenceWordEndNs_le_latestEnd {index count : Nat} (h : index < count) :
    presenceWordEndNs words index ≤ latestEnd words count := by
  induction count with
  | zero => cases h
  | succ count ih =>
    rw [latestEnd]
    rcases Nat.lt_succ_iff_lt_or_eq.mp h with hlt | rfl
    · exact (ih hlt).trans (le_max_left _ _)
    · exact le_max_right _ _

theorem presenceRun_covers (ho : Ordered words) {start stop : Nat} {first : Word} (hstart : words[start]? = some first)
    (hlt : start < stop) (index : Nat) (word : Word) (hge : start ≤ index) (hinside : index < start + (stop - start))
    (hword : words[index]? = some word) :
    first.time ≤ word.time ∧ presenceWordEndNs words index ≤ latestEnd words stop :=
  ⟨ho.getElem?_le hstart hword hge, presenceWordEndNs_le_latestEnd (by omega)⟩

theorem presenceRuns_spec (ho : Ordered words) {start : Nat} {first : Word} {kept : List PresenceGap}
    (hstart : words[start]? = some first) (hkept : ∀ gap ∈ kept, gap ∈ inactiveGaps words)
    (hsorted : (start :: kept.map (·.wordIndex)).Pairwise (· < ·)) :
    ∃ record rest, presenceRuns block words start (kept.map (·.wordIndex) ++ [words.length]) = record :: rest ∧
      record.startNs = first.time ∧
      Partitions block words start (record :: rest) ∧
      ((record :: rest).map (·.wordCount)).sum = words.length - start ∧
      rest.length = kept.length ∧
      (record :: rest).Pairwise (fun a b => a.endNs < b.startNs) ∧
      (∀ other ∈ rest, first.time ≤ other.startNs) ∧
      List.zipWith (fun a b => b.startNs - a.endNs) (record :: rest) rest = kept.map (·.gapNs) ∧
      rest.map (fun record => some record.startNs) = kept.map fun gap => words[gap.wordIndex]?.map Word.time := by
  have hlength : start < words.length := (List.getElem?_eq_some_iff.mp hstart).1
  have htime : words[start]?.map Word.time = some first.time := by rw [hstart, Option.map_some]
  induction kept generalizing start first with
  | nil =>
    refine ⟨⟨first.time, latestEnd words words.length, words.length - start, block, 1⟩, [], ?_, rfl, ?_, ?_, rfl,
      List.pairwise_singleton _ _, ?_, rfl, rfl⟩
    · rw [List.map_nil, List.nil_append, presenceRuns, htime, Option.getD_some, presenceRuns]
    · exact ⟨Nat.sub_pos_of_lt hlength, htime, rfl, rfl, presenceRun_covers ho hstart hlength,
        Nat.add_sub_cancel' hlength.le⟩
    · rw [List.map_singleton, List.sum_singleton]
    · intro other hother
      cases hother
  | cons gap kept ih =>
    obtain ⟨hfirst, hlater⟩ := List.pairwise_cons.mp hsorted
    obtain ⟨word, hword, -, hgapLt, hopen, hgapNs⟩ := gapsBefore_mem (hkept gap List.mem_cons_self)
    have hlt : start < gap.wordIndex := hfirst gap.wordIndex List.mem_cons_self
    have hwordTime : words[gap.wordIndex]?.map Word.time = some word.time := by rw [hword, Option.map_some]
    obtain ⟨next, rest, hruns, hnext, hparts, hcounts, hrest, hapart, hstarts, hgaps, hwords⟩ :=
      ih hword (fun other hother => hkept other (List.mem_cons_of_mem gap hother)) hlater hgapLt hwordTime
    have hbefore : first.time ≤ word.time := ho.getElem?_le hstart hword hlt.le
    have hlate : ∀ other ∈ next :: rest, word.time ≤ other.startNs := by
      intro other hother
      rcases List.mem_cons.mp hother with rfl | hother
      · exact hnext.ge
      · exact hstarts other hother
    refine ⟨⟨first.time, latestEnd words gap.wordIndex, gap.wordIndex - start, block, 1⟩, next :: rest, ?_, rfl, ?_, ?_,
      ?_, List.pairwise_cons.mpr ⟨?_, hapart⟩, ?_, ?_, ?_⟩
    · rw [List.map_cons, List.cons_append, presenceRuns, htime, Option.getD_some, hruns]
    · refine ⟨Nat.sub_pos_of_lt hlt, htime, rfl, rfl, presenceRun_covers ho hstart hlt, ?_⟩
      rw [Nat.add_sub_cancel' hlt.le]
      exact hparts
    · rw [List.map_cons, List.sum_cons, hcounts]
      show gap.wordIndex - start + (words.length - gap.wordIndex) = words.length - start
      omega
    · rw [List.length_cons, List.length_cons, hrest]
    · intro other hother
      exact hopen.trans_le (hlate other hother)
    · intro other hother
      exact hbefore.trans (hlate other hother)
    · rw [List.zipWith_cons_cons, hgaps, List.map_cons, hgapNs, hnext]
    · rw [List.map_cons, hwords, List.map_cons, hwordTime, hnext]

theorem inactiveGaps_keeps (words : List Word) :
    LargestKept gapKey keptGapCount (inactiveGaps words) (retainLargestGaps (inactiveGaps words)) :=
  retainLargestGaps_keeps (gapsBefore_nodup words.length) fun _ ha _ hb => gapsBefore_inj ha hb

theorem gapsBefore_one (words : List Word) : gapsBefore words 1 = [] := by
  rw [gapsBefore]
  split
  next => rfl
  next => exact if_neg fun h => Nat.lt_irrefl 0 h.1

theorem keptInOrder_stops {largest : List PresenceGap} (hne : words ≠ []) :
    (0 :: (keptInOrder words largest).map (·.wordIndex) ++ [words.length]).Pairwise (· < ·) ∧
      ∀ index ∈ (keptInOrder words largest).map (·.wordIndex), 1 ≤ index ∧
        ∃ word, words[index]? = some word ∧ latestEnd words index < word.time := by
  have hmem : ∀ index ∈ (keptInOrder words largest).map (·.wordIndex), 1 ≤ index ∧ index < words.length ∧
      ∃ word, words[index]? = some word ∧ latestEnd words index < word.time := by
    intro index hindex
    obtain ⟨gap, hgap, rfl⟩ := List.mem_map.mp hindex
    obtain ⟨word, hword, hpos, hlt, hopen, -⟩ := gapsBefore_mem (List.mem_filter.mp hgap).1
    exact ⟨hpos, hlt, word, hword, hopen⟩
  have hsorted : ((keptInOrder words largest).map (·.wordIndex)).Pairwise (· < ·) :=
    List.pairwise_map.mpr ((gapsBefore_wordIndex words.length).filter _)
  refine ⟨?_, fun index hindex => ⟨(hmem index hindex).1, (hmem index hindex).2.2⟩⟩
  refine List.pairwise_append.mpr ⟨List.pairwise_cons.mpr ⟨fun index hindex => (hmem index hindex).1, hsorted⟩,
    List.pairwise_singleton _ _, ?_⟩
  intro index hindex stop hstop
  rw [List.mem_singleton.mp hstop]
  rcases List.mem_cons.mp hindex with rfl | hindex
  · exact List.length_pos_iff.mpr hne
  · exact (hmem index hindex).2.1

theorem generalWordPresenceSummaries_eq (hne : words ≠ []) (hlen : words.length ≤ u64Max) :
    generalWordPresenceSummaries block words = presenceRuns block words 0
      ((keptInOrder words (retainLargestGaps (inactiveGaps words))).map (·.wordIndex) ++ [words.length]) := by
  obtain ⟨first, rest, rfl⟩ := List.exists_cons_of_ne_nil hne
  have hend : latestEnd (first :: rest) 1 = presenceWordEndNs (first :: rest) 0 := by
    rw [latestEnd, latestEnd, Nat.zero_max]
  have hgaps := @generalGaps_eq (first :: rest) rest 1 Nat.one_pos (by simp) rfl
  rw [gapsBefore_one, hend] at hgaps
  obtain ⟨hstops, hopen⟩ := @keptInOrder_stops (first :: rest) (retainLargestGaps (inactiveGaps (first :: rest))) hne
  have hsorted := (List.pairwise_cons.mp (List.pairwise_append.mp hstops).1).2
  rw [generalWordPresenceSummaries, if_neg hne]
  simp only [List.tail_cons]
  rw [List.length_nil] at hgaps
  rw [hgaps, boundaries_eq (inactiveGaps_keeps _)]
  generalize (keptInOrder (first :: rest) _).map (·.wordIndex) = boundaries at hsorted hopen ⊢
  have hhead : boundaries.head? ≠ some 0 := by
    intro hhead
    exact Nat.not_succ_le_zero 0 (hopen 0 (List.mem_of_head? hhead)).1
  have hruns := @generalRuns_eq block (first :: rest) hlen rest 0 1 boundaries [] Nat.one_pos (by simp) rfl hsorted
    hopen
  rw [generalRuns]
  simp only [hhead, List.getLast?_nil, if_false]
  rw [← hend]
  exact hruns

theorem durationFreeWordPresenceSummaries_eq (ho : Ordered words) (hfree : ∀ word ∈ words, word.durationNs = 0)
    (hne : words ≠ []) :
    durationFreeWordPresenceSummaries block words = presenceRuns block words 0
      ((keptInOrder words (retainLargestGaps (inactiveGaps words))).map (·.wordIndex) ++ [words.length]) := by
  obtain ⟨first, rest, rfl⟩ := List.exists_cons_of_ne_nil hne
  have hkeeps := @durationFreeGaps_keeps (first :: rest) ho hfree rest 1 [] Nat.one_pos (by simp) rfl
    (gapsBefore_one (first :: rest) ▸ LargestKept.nil gapKey keptGapCount)
  rw [gapsBefore_one, List.length_nil] at hkeeps
  obtain ⟨hstops, -⟩ := @keptInOrder_stops (first :: rest) (retainLargestGaps (inactiveGaps (first :: rest))) hne
  rw [durationFreeWordPresenceSummaries, if_neg hne]
  simp only [List.tail_cons]
  rw [boundaries_eq hkeeps, keptInOrder_eq hkeeps (inactiveGaps_keeps _)]
  apply durationFreeRuns_eq ho hfree hstops
  intro stop hstop
  rcases List.mem_append.mp hstop with hstop | hstop
  · have hbelow := (List.pairwise_append.mp hstops).2.2 stop (List.mem_cons_of_mem 0 hstop)
    exact (hbelow _ (List.mem_singleton_self _)).le
  · exact (List.mem_singleton.mp hstop).le

theorem presenceSummaries_general (block : Nat) (ho : Ordered words) (hlen : words.length ≤ u64Max) :
    PresenceSummaries block words (generalWordPresenceSummaries block words) := by
  by_cases hne : words = []
  · subst hne
    exact ⟨rfl, rfl, Nat.zero_le _, List.Pairwise.nil, [], List.nil_sublist _, LargestKept.nil gapKey _, rfl, rfl⟩
  · have hkeeps := (inactiveGaps_keeps words).of_perm (keptInOrder_perm (inactiveGaps_keeps words))
    have hsub : (keptInOrder words (retainLargestGaps (inactiveGaps words))).Sublist (inactiveGaps words) :=
      List.filter_sublist
    obtain ⟨hstops, -⟩ := @keptInOrder_stops words (retainLargestGaps (inactiveGaps words)) hne
    have hfirst : words[0]? = some (words.head hne) := by rw [← List.head?_eq_getElem?, List.head?_eq_some_head]
    obtain ⟨record, rest, hruns, -, hparts, hcounts, hrest, hapart, -, hgaps, hwords⟩ :=
      @presenceRuns_spec block words ho 0 (words.head hne) _ hfirst (fun gap hgap => hsub.subset hgap)
        (List.pairwise_append.mp hstops).1
    rw [generalWordPresenceSummaries_eq hne hlen, hruns]
    refine ⟨hparts, hcounts, ?_, hapart, _, hsub, hkeeps, hgaps, hwords⟩
    have hlength := hkeeps.length
    unfold keptGapCount maxPresenceRunsPerBlock at hlength
    rw [List.length_cons, hrest]
    unfold maxPresenceRunsPerBlock
    omega

end Summaries

/-- Without durations both paths give the same records; the records cut the words into at most 256 runs that do not
touch, at the largest of the gaps in which no word is present. -/
theorem presence_summaries_partition (block : Nat) {words : List Word} (ho : Ordered words)
    (hlen : words.length ≤ u64Max) :
    ((∀ word ∈ words, word.durationNs = 0) →
      wordPresenceSummaries block words true = wordPresenceSummaries block words false) ∧
    ∀ durationFree, (durationFree = true → ∀ word ∈ words, word.durationNs = 0) →
      PresenceSummaries block words (wordPresenceSummaries block words durationFree) := by
  have hagree : (∀ word ∈ words, word.durationNs = 0) →
      wordPresenceSummaries block words true = wordPresenceSummaries block words false := by
    intro hfree
    rw [wordPresenceSummaries, wordPresenceSummaries, if_pos rfl, if_neg Bool.false_ne_true]
    by_cases hne : words = []
    · rw [hne]
      rfl
    · rw [durationFreeWordPresenceSummaries_eq ho hfree hne, generalWordPresenceSummaries_eq hne hlen]
  refine ⟨hagree, ?_⟩
  intro durationFree hfree
  have hgeneral := presenceSummaries_general block ho hlen
  cases durationFree with
  | false => exact hgeneral
  | true => exact (hagree (hfree rfl)).symm ▸ hgeneral

theorem presence_summaries_partition_pair :
    wordPresenceSummaries 7 [.new 1 10, .new 2 2000000] true =
        wordPresenceSummaries 7 [.new 1 10, .new 2 2000000] false ∧
      PresenceSummaries 7 [.new 1 10, .new 2 2000000] (wordPresenceSummaries 7 [.new 1 10, .new 2 2000000] true) := by
  have hfree : ∀ word ∈ [Word.new 1 10, Word.new 2 2000000], word.durationNs = 0 := by decide
  obtain ⟨hagree, hall⟩ := @presence_summaries_partition 7 [.new 1 10, .new 2 2000000] (by decide) (by decide)
  exact ⟨hagree hfree, hall true fun _ => hfree⟩

end LogicConduit
