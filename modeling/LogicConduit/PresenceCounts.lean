import LogicConduit.PresenceWindow

namespace LogicConduit

open PartitionPoint ScaledPartition

theorem saturatingAdd_pos {a b : Nat} : 0 < saturatingAdd a b ↔ 0 < a ∨ 0 < b := by
  have : 0 < u64Max := by decide
  unfold saturatingAdd
  omega

section Estimate

variable {record : WordSummaryRecord} {bucketStart bucketEndExclusive : Nat}

theorem share_le {weighted overlap span count : Nat} (hw : weighted = count * overlap) (ho : overlap ≤ span)
    (hs : 0 < span) : (weighted + span - 1) / span ≤ count := by
  have hle : weighted ≤ count * span := hw ▸ Nat.mul_le_mul_left count ho
  refine Nat.le_of_lt_succ ((Nat.div_lt_iff_lt_mul hs).mpr ?_)
  rw [Nat.succ_mul]
  omega

theorem estimatePartial_pos (hs : record.startNs ≤ record.endNs) (hc : 0 < record.wordCount)
    (hm : record.wordCount ≤ u64Max) (hb : bucketStart < bucketEndExclusive) (he : bucketEndExclusive ≤ u64Max) :
    0 < estimatePartial record bucketStart bucketEndExclusive ↔
      record.startNs < bucketEndExclusive ∧ bucketStart ≤ record.endNs := by
  unfold estimatePartial
  dsimp only
  have hend : saturatingAdd record.endNs 1 = min (record.endNs + 1) u64Max := rfl
  generalize saturatingAdd record.endNs 1 = recordEnd at hend ⊢
  split
  next hnone => omega
  next hsome =>
    generalize hweighted : record.wordCount * (min recordEnd bucketEndExclusive - max record.startNs bucketStart) = weighted
    have hpos : 0 < weighted := hweighted ▸ Nat.mul_pos hc (by omega)
    have hle := @share_le _ _ (max (recordEnd - record.startNs) 1) _ hweighted.symm (by omega) (by omega)
    have hshare : 0 < (weighted + max (recordEnd - record.startNs) 1 - 1) / max (recordEnd - record.startNs) 1 :=
      Nat.div_pos (by omega) (by omega)
    generalize (weighted + max (recordEnd - record.startNs) 1 - 1) / max (recordEnd - record.startNs) 1 = share at hle hshare ⊢
    have hmod : share % 2 ^ 64 = share := Nat.mod_eq_of_lt (by unfold u64Max at hm; omega)
    rw [hmod, ite_self]
    constructor
    · exact fun _ => ⟨by omega, by omega⟩
    · exact fun _ => lt_min hshare hc

end Estimate

section Loops

variable {bucketStart bucketEndExclusive : Nat}

/-- The leaves that the first loop of `count_bucket` passes. -/
def reachesOver (bucketStart bucketEndExclusive : Nat) (leaf : WordSummaryRecord) : Bool :=
  leaf.startNs < bucketStart ∨ bucketEndExclusive ≤ leaf.endNs

theorem leadingPartials_fst (leaves : List WordSummaryRecord) (fullStart count : Nat) :
    (leadingPartials bucketStart bucketEndExclusive leaves fullStart count).1 =
      fullStart + partitionPoint (reachesOver bucketStart bucketEndExclusive) leaves := by
  induction leaves generalizing fullStart count with
  | nil => rfl
  | cons leaf rest ih =>
    rw [leadingPartials]
    by_cases h : leaf.startNs < bucketStart ∨ bucketEndExclusive ≤ leaf.endNs
    · rw [if_pos h, ih, partitionPoint, partitionPoint, List.takeWhile_cons_of_pos (by simpa [reachesOver] using h),
        List.length_cons]
      omega
    · rw [if_neg h, partitionPoint, List.takeWhile_cons_of_neg (by simpa [reachesOver] using h), List.length_nil]
      rfl

theorem leadingPartials_pos (leaves : List WordSummaryRecord) (fullStart count : Nat) :
    0 < (leadingPartials bucketStart bucketEndExclusive leaves fullStart count).2 ↔
      0 < count ∨ ∃ leaf ∈ leaves.takeWhile (reachesOver bucketStart bucketEndExclusive),
        0 < estimatePartial leaf bucketStart bucketEndExclusive := by
  induction leaves generalizing fullStart count with
  | nil => simp [leadingPartials]
  | cons leaf rest ih =>
    rw [leadingPartials]
    by_cases h : leaf.startNs < bucketStart ∨ bucketEndExclusive ≤ leaf.endNs
    · rw [if_pos h, ih, saturatingAdd_pos, List.takeWhile_cons_of_pos (by simpa [reachesOver] using h)]
      simp only [List.mem_cons, exists_eq_or_imp, or_assoc]
    · rw [if_neg h, List.takeWhile_cons_of_neg (by simpa [reachesOver] using h)]
      simp

variable {leaves : List WordSummaryRecord}

/-- What the second loop of `count_bucket` leaves and what it adds, when each leaf it passes adds something. -/
theorem trailingPartials_spec {fullStart : Nat} (fullEnd count : Nat) (hle : fullStart ≤ fullEnd)
    (hlen : fullEnd ≤ leaves.length)
    (hpos : ∀ j leaf, fullStart ≤ j → j < fullEnd → leaves[j]? = some leaf → bucketEndExclusive ≤ leaf.endNs →
      0 < estimatePartial leaf bucketStart bucketEndExclusive) :
    let result := trailingPartials leaves bucketStart bucketEndExclusive fullStart fullEnd count
    fullStart ≤ result.1 ∧ result.1 ≤ fullEnd ∧
      (∀ leaf, fullStart < result.1 → leaves[result.1 - 1]? = some leaf → leaf.endNs < bucketEndExclusive) ∧
      (∀ leaf, result.1 < fullEnd → leaves[fullEnd - 1]? = some leaf → bucketEndExclusive ≤ leaf.endNs) ∧
      (0 < result.2 ↔ 0 < count ∨ result.1 < fullEnd) := by
  induction fullEnd generalizing count with
  | zero =>
    obtain rfl : fullStart = 0 := Nat.le_zero.mp hle
    simp [trailingPartials]
  | succ fullEnd ih =>
    have hleaf : leaves[fullEnd]? = some leaves[fullEnd] := List.getElem?_eq_getElem (by omega)
    intro result
    have hresult : result = trailingPartials leaves bucketStart bucketEndExclusive fullStart (fullEnd + 1) count := rfl
    rw [trailingPartials, hleaf] at hresult
    dsimp only at hresult
    by_cases h : fullStart < fullEnd + 1 ∧ bucketEndExclusive ≤ leaves[fullEnd].endNs
    · rw [if_pos h] at hresult
      obtain ⟨hstart, hend, hfull, -, hcount⟩ := ih (saturatingAdd count _) (by omega) (by omega)
        (fun j leaf hj hlt => hpos j leaf hj (by omega))
      rw [← hresult] at hstart hend hfull hcount
      refine ⟨hstart, by omega, hfull, fun leaf _ hlast => ?_, ?_⟩
      · rw [Nat.add_sub_cancel, hleaf] at hlast
        exact Option.some.inj hlast ▸ h.2
      · have hadds := hpos fullEnd _ (by omega) (by omega) hleaf h.2
        rw [hcount, saturatingAdd_pos]
        constructor
        · exact fun _ => Or.inr (by omega)
        · exact fun _ => Or.inl (Or.inr hadds)
    · rw [if_neg h] at hresult
      rw [hresult]
      refine ⟨hle, le_rfl, fun leaf hlt hlast => ?_, fun leaf hlt => absurd hlt (lt_irrefl _), by simp⟩
      rw [Nat.add_sub_cancel, hleaf] at hlast
      rw [← Option.some.inj hlast]
      by_contra hge
      exact h ⟨hlt, by omega⟩

theorem walkBack_le (leaves : List WordSummaryRecord) (k : Nat) : walkBack leaves bucketStart k ≤ k := by
  induction k with
  | zero => exact le_rfl
  | succ k ih =>
    rw [walkBack]
    split
    · exact ih.trans (Nat.le_succ k)
    · exact le_rfl

/-- The walk back finds a leaf that reaches the bucket exactly when one of the last two leaves that
start before the bucket does. -/
theorem walkBack_found {before : Nat} (hlen : before ≤ leaves.length) :
    (∃ j leaf, walkBack leaves bucketStart (before - 1) ≤ j ∧ j < before ∧ leaves[j]? = some leaf ∧
      bucketStart ≤ leaf.endNs) ↔
      ∃ leaf ∈ (leaves.take before).drop (before - 2), bucketStart ≤ leaf.endNs := by
  constructor
  · rintro ⟨j, leaf, hwalk, hlt, hleaf, hreach⟩
    by_cases hlast : before - 2 ≤ j
    · refine ⟨leaf, List.mem_iff_getElem?.mpr ⟨j - (before - 2), ?_⟩, hreach⟩
      rw [List.getElem?_drop, List.getElem?_take, if_pos (by omega), show before - 2 + (j - (before - 2)) = j by omega]
      exact hleaf
    · obtain ⟨k, rfl⟩ : ∃ k, before = k + 2 := ⟨before - 2, by omega⟩
      rw [show k + 2 - 1 = k + 1 by omega, walkBack] at hwalk
      split at hwalk
      next hany =>
        obtain ⟨last, hk, hends⟩ := (Option.any_eq_true _ _).mp hany
        refine ⟨last, List.mem_iff_getElem?.mpr ⟨0, ?_⟩, of_decide_eq_true hends⟩
        rw [List.getElem?_drop, List.getElem?_take, if_pos (by omega)]
        exact hk
      next => omega
  · rintro ⟨leaf, hmem, hreach⟩
    obtain ⟨i, hi⟩ := List.mem_iff_getElem?.mp hmem
    rw [List.getElem?_drop, List.getElem?_take] at hi
    split at hi
    next hlt =>
      refine ⟨before - 2 + i, leaf, ?_, hlt, hi, hreach⟩
      by_cases hlast : before - 2 + i = before - 1
      · rw [hlast]
        exact walkBack_le leaves _
      · obtain ⟨k, rfl⟩ : ∃ k, before = k + 2 := ⟨before - 2, by omega⟩
        obtain rfl : i = 0 := by omega
        rw [Nat.add_sub_cancel, Nat.add_zero] at hi ⊢
        rw [show k + 2 - 1 = k + 1 by omega, walkBack, if_pos (by rw [hi]; simpa using hreach)]
        exact walkBack_le leaves k
    next => cases hi

end Loops

namespace WordPresenceIndex

def wordsBefore (records : List WordSummaryRecord) (k : Nat) : Nat := ((records.take k).map (·.wordCount)).sum

theorem prefixWordCounts_ofLeaves (records : List WordSummaryRecord) :
    (ofLeaves records).prefixWordCounts =
      (List.range (records.length + 1)).map fun k => min (wordsBefore records k) u64Max := by
  induction records using List.reverseRecOn with
  | nil => rfl
  | append_singleton records record ih =>
    have hearlier : ∀ k ∈ List.range (records.length + 1),
        min (wordsBefore (records ++ [record]) k) u64Max = min (wordsBefore records k) u64Max := by
      intro k hk
      have hle : k ≤ records.length := Nat.lt_succ_iff.mp (List.mem_range.mp hk)
      rw [wordsBefore, List.take_append_of_le_length hle, wordsBefore]
    have hlast : saturatingAdd (min (wordsBefore records records.length) u64Max) record.wordCount =
        min (wordsBefore (records ++ [record]) (records.length + 1)) u64Max := by
      have hall : wordsBefore (records ++ [record]) (records.length + 1) =
          wordsBefore records records.length + record.wordCount := by
        rw [wordsBefore, List.take_of_length_le (by simp), wordsBefore, List.take_of_length_le le_rfl]
        simp
      rw [hall, saturatingAdd]
      omega
    rw [← foldl_push_ofLeaves, List.foldl_cons, List.foldl_nil, push, List.length_append, List.length_singleton]
    dsimp only
    rw [ih, List.range_succ (n := records.length + 1), List.map_append, List.map_congr_left hearlier]
    simp only [List.range_succ (n := records.length), List.map_append, List.map_singleton, List.getLast?_append,
      List.getLast?_singleton, Option.some_or, Option.getD_some, hlast]

variable {records : List WordSummaryRecord}

theorem getD_prefixWordCounts {k : Nat} (h : k ≤ records.length) :
    (ofLeaves records).prefixWordCounts.getD k 0 = min (wordsBefore records k) u64Max := by
  rw [prefixWordCounts_ofLeaves, List.getD_eq_getElem?_getD, List.getElem?_map, List.getElem?_range (by omega)]
  rfl

theorem wordsBefore_succ {k : Nat} {record : WordSummaryRecord} (h : records[k]? = some record) :
    wordsBefore records (k + 1) = wordsBefore records k + record.wordCount := by
  rw [wordsBefore, List.take_add_one, h, wordsBefore]
  simp

theorem wordsBefore_mono (records : List WordSummaryRecord) {i j : Nat} (h : i ≤ j) :
    wordsBefore records i ≤ wordsBefore records j := by
  obtain ⟨d, rfl⟩ := Nat.exists_eq_add_of_le h
  rw [wordsBefore, wordsBefore, List.take_add, List.map_append, List.sum_append]
  exact Nat.le_add_right _ _

theorem fullLeaves_pos (h : LeavesValid records) {first stop : Nat} (hle : first ≤ stop) (hlen : stop ≤ records.length) :
    0 < (ofLeaves records).prefixWordCounts.getD stop 0 - (ofLeaves records).prefixWordCounts.getD first 0 ↔
      first < stop ∧ wordsBefore records first < u64Max := by
  rw [getD_prefixWordCounts hlen, getD_prefixWordCounts (by omega)]
  by_cases hsame : first = stop
  · subst hsame
    omega
  · have hfirst : records[first]? = some records[first] := List.getElem?_eq_getElem (by omega)
    have hpos := h.count_pos _ (List.mem_of_getElem? hfirst)
    have hsucc := wordsBefore_succ hfirst
    have hmono := wordsBefore_mono records (show first + 1 ≤ stop by omega)
    omega

section Bucket

variable {records : List WordSummaryRecord} {bucketStart bucketEndExclusive : Nat}

variable {first stop fullStart : Nat}

theorem fullStart_spec (hle : first ≤ stop) (hlen : stop ≤ records.length)
    (hfull : first + partitionPoint (reachesOver bucketStart bucketEndExclusive) ((records.take stop).drop first) = fullStart) :
    first ≤ fullStart ∧ fullStart ≤ stop ∧
      (∀ j leaf, first ≤ j → j < fullStart → records[j]? = some leaf →
        leaf.startNs < bucketStart ∨ bucketEndExclusive ≤ leaf.endNs) ∧
      ∀ leaf, fullStart < stop → records[fullStart]? = some leaf →
        bucketStart ≤ leaf.startNs ∧ leaf.endNs < bucketEndExclusive := by
  have hslice : ∀ j, j < stop → first ≤ j → ((records.take stop).drop first)[j - first]? = records[j]? := by
    intro j hj hf
    rw [List.getElem?_drop, List.getElem?_take, show first + (j - first) = j by omega, if_pos hj]
  have hbound := partitionPoint_le_length (reachesOver bucketStart bucketEndExclusive) ((records.take stop).drop first)
  rw [List.length_drop, List.length_take] at hbound
  refine ⟨by omega, by omega, fun j leaf hf hj hleaf => ?_, fun leaf hlt hleaf => ?_⟩
  · rw [← hslice j (by omega) hf] at hleaf
    have hin : j - first < partitionPoint (reachesOver bucketStart bucketEndExclusive) ((records.take stop).drop first) := by
      omega
    simpa [reachesOver] using test_of_lt hleaf hin
  · rw [← hslice fullStart hlt (by omega), ← hfull, Nat.add_sub_cancel_left] at hleaf
    simpa [reachesOver] using fails_at hleaf

theorem leading_pos
    (hadds : ∀ {j leaf}, records[j]? = some leaf → j < stop →
      (0 < estimatePartial leaf bucketStart bucketEndExclusive ↔ bucketStart ≤ leaf.endNs))
    (hfull : first + partitionPoint (reachesOver bucketStart bucketEndExclusive) ((records.take stop).drop first) = fullStart)
    (hle : fullStart ≤ stop) :
    0 < (leadingPartials bucketStart bucketEndExclusive ((records.take stop).drop first) first 0).2 ↔
      ∃ j leaf, first ≤ j ∧ j < fullStart ∧ records[j]? = some leaf ∧ bucketStart ≤ leaf.endNs := by
  have hmem : ∀ leaf, leaf ∈ ((records.take stop).drop first).takeWhile (reachesOver bucketStart bucketEndExclusive) ↔
      ∃ j, first ≤ j ∧ j < fullStart ∧ records[j]? = some leaf := by
    intro leaf
    rw [List.prefix_iff_eq_take.mp (List.takeWhile_prefix _), List.mem_iff_getElem?]
    unfold partitionPoint at hfull
    constructor
    · rintro ⟨i, hi⟩
      rw [List.getElem?_take, List.getElem?_drop, List.getElem?_take] at hi
      split at hi
      next hlt =>
        rw [if_pos (by omega)] at hi
        exact ⟨first + i, by omega, by omega, hi⟩
      next => cases hi
    · rintro ⟨j, hf, hj, hleaf⟩
      refine ⟨j - first, ?_⟩
      rw [List.getElem?_take, List.getElem?_drop, List.getElem?_take, if_pos (by omega), if_pos (by omega),
        show first + (j - first) = j by omega]
      exact hleaf
  rw [leadingPartials_pos]
  constructor
  · rintro (hzero | ⟨leaf, hleaf, hpos⟩)
    · exact absurd hzero (lt_irrefl 0)
    · obtain ⟨j, hf, hj, hget⟩ := (hmem leaf).mp hleaf
      exact ⟨j, leaf, hf, hj, hget, (hadds hget (by omega)).mp hpos⟩
  · rintro ⟨j, leaf, hf, hj, hget, hreach⟩
    exact Or.inr ⟨leaf, (hmem leaf).mpr ⟨j, hf, hj, hget⟩, (hadds hget (by omega)).mpr hreach⟩

theorem countBucket_pos (h : LeavesValid records) (hlt : first < stop) (hlen : stop ≤ records.length)
    (hadds : ∀ {j leaf}, records[j]? = some leaf → j < stop →
      (0 < estimatePartial leaf bucketStart bucketEndExclusive ↔ bucketStart ≤ leaf.endNs))
    (hfull : first + partitionPoint (reachesOver bucketStart bucketEndExclusive) ((records.take stop).drop first) = fullStart) :
    0 < (ofLeaves records).countBucket first stop bucketStart bucketEndExclusive ↔
      (∃ j leaf, first ≤ j ∧ j < fullStart ∧ records[j]? = some leaf ∧ bucketStart ≤ leaf.endNs) ∨
      fullStart < stop ∧ ((∃ leaf, records[stop - 1]? = some leaf ∧ bucketEndExclusive ≤ leaf.endNs) ∨
        wordsBefore records fullStart < u64Max) := by
  obtain ⟨-, hle, -, hat⟩ := fullStart_spec hlt.le hlen hfull
  have hlead := leading_pos hadds hfull hle
  have hfst := @leadingPartials_fst bucketStart bucketEndExclusive
    ((records.take stop).drop first) first 0
  rw [hfull] at hfst
  unfold countBucket
  rw [if_neg (by omega), leaves_ofLeaves, ← hlead]
  dsimp only
  rw [hfst]
  generalize (leadingPartials bucketStart bucketEndExclusive ((records.take stop).drop first) first 0).2 = count
  -- every leaf behind the first full one starts in the bucket
  have htail : ∀ j leaf, fullStart ≤ j → j < stop → records[j]? = some leaf → bucketEndExclusive ≤ leaf.endNs →
      0 < estimatePartial leaf bucketStart bucketEndExclusive := by
    intro j leaf hj hstop hleaf _
    refine (hadds hleaf hstop).mpr ?_
    have hfirst : records[fullStart]? = some records[fullStart] := List.getElem?_eq_getElem (by omega)
    have hstart := (hat _ (by omega) hfirst).1
    have hend := h.start_le _ (List.mem_of_getElem? hleaf)
    obtain ⟨hin, rfl⟩ := List.getElem?_eq_some_iff.mp hleaf
    rcases Nat.lt_or_eq_of_le hj with hlater | rfl
    · have := List.pairwise_iff_getElem.mp h.ordered _ _ (by omega) hin hlater
      omega
    · omega
  obtain ⟨hstart, hend, hlast, hpast, hcount⟩ := trailingPartials_spec stop count hle hlen htail
  generalize trailingPartials records bucketStart bucketEndExclusive fullStart stop count = result
    at hstart hend hlast hpast hcount ⊢
  rw [saturatingAdd_pos, hcount, fullLeaves_pos h hstart (hend.trans hlen), or_assoc]
  refine or_congr_right ?_
  have hfinal (hpos : 0 < stop) : records[stop - 1]? = some (records.get ⟨stop - 1, by omega⟩) :=
    List.getElem?_eq_getElem _
  constructor
  · rintro (hshort | ⟨hsome, hroom⟩)
    · exact ⟨by omega, Or.inl ⟨_, hfinal (by omega), hpast _ hshort (hfinal (by omega))⟩⟩
    · exact ⟨by omega, Or.inr hroom⟩
  · rintro ⟨hroom, ⟨leaf, hleaf, hover⟩ | htotal⟩
    · left
      by_contra hge
      obtain hsame : result.1 = stop := by omega
      have := hlast leaf (by omega) (by rw [hsame]; exact hleaf)
      omega
    · by_cases hshort : result.1 < stop
      · exact Or.inl hshort
      · exact Or.inr ⟨by omega, htotal⟩

theorem partitionPoint_mono {earlier later : Nat} (h : earlier ≤ later) :
    partitionPoint (WordSummaryRecord.startsBefore earlier) records ≤
      partitionPoint (WordSummaryRecord.startsBefore later) records := by
  by_contra hlt
  have hle := partitionPoint_le_length (WordSummaryRecord.startsBefore earlier) records
  have hleaf := List.getElem?_eq_getElem
    (show partitionPoint (WordSummaryRecord.startsBefore later) records < records.length by omega)
  have hbefore := test_of_lt hleaf (Nat.lt_of_not_le hlt)
  have hafter := fails_at hleaf
  unfold WordSummaryRecord.startsBefore at hbefore hafter
  rw [decide_eq_true_eq] at hbefore
  rw [decide_eq_false_iff_not] at hafter
  omega

theorem bucketWordCount_pos (h : LeavesValid records) (hb : bucketStart < bucketEndExclusive) (he : bucketEndExclusive ≤ u64Max)
    {p q : Nat} (hp : partitionPoint (WordSummaryRecord.startsBefore bucketStart) records = p)
    (hq : partitionPoint (WordSummaryRecord.startsBefore bucketEndExclusive) records = q) :
    0 < (ofLeaves records).bucketWordCount bucketStart bucketEndExclusive ↔
      (∃ leaf ∈ (records.take p).drop (p - 2), bucketStart ≤ leaf.endNs) ∨
      p < q ∧ ((∃ leaf, records[p]? = some leaf ∧ bucketEndExclusive ≤ leaf.endNs) ∨
        (∃ leaf, records[q - 1]? = some leaf ∧ bucketEndExclusive ≤ leaf.endNs) ∨ wordsBefore records p < u64Max) := by
  have hpart := partitioned_startsBefore h.ordered bucketStart
  have hpart' := partitioned_startsBefore h.ordered bucketEndExclusive
  have hplen : p ≤ records.length := hp ▸ partitionPoint_le_length _ _
  have hqlen : q ≤ records.length := hq ▸ partitionPoint_le_length _ _
  have hbefore : ∀ {j leaf}, records[j]? = some leaf → (leaf.startNs < bucketStart ↔ j < p) := fun hleaf => by
    rw [← hp, ← hpart.test_iff hleaf, WordSummaryRecord.startsBefore, decide_eq_true_eq]
  have hstop : ∀ {j leaf}, records[j]? = some leaf → (leaf.startNs < bucketEndExclusive ↔ j < q) := fun hleaf => by
    rw [← hq, ← hpart'.test_iff hleaf, WordSummaryRecord.startsBefore, decide_eq_true_eq]
  have hpq : p ≤ q := hp ▸ hq ▸ partitionPoint_mono hb.le
  have hadds : ∀ {j leaf}, records[j]? = some leaf → j < q →
      (0 < estimatePartial leaf bucketStart bucketEndExclusive ↔ bucketStart ≤ leaf.endNs) := by
    intro j leaf hleaf hj
    have hmem := List.mem_of_getElem? hleaf
    rw [estimatePartial_pos (h.start_le _ hmem) (h.count_pos _ hmem) (h.count_le _ hmem) hb he]
    exact and_iff_right ((hstop hleaf).mpr hj)
  unfold bucketWordCount
  dsimp only
  rw [leaves_ofLeaves, partitionStart_eq h.ordered, partitionStart_eq h.ordered, hp, hq, ← walkBack_found hplen]
  have hwalk := @walkBack_le bucketStart records (p - 1)
  generalize walkBack records bucketStart (p - 1) = first at hwalk ⊢
  rw [min_eq_left (show first ≤ q by omega)]
  by_cases hempty : q ≤ first
  · rw [countBucket, if_pos hempty]
    constructor
    · exact fun hpos => absurd hpos (lt_irrefl 0)
    · rintro (⟨j, leaf, hj, hlt, -⟩ | ⟨hlt, -⟩) <;> omega
  generalize hfull : first + partitionPoint (reachesOver bucketStart bucketEndExclusive)
    ((records.take q).drop first) = fullStart
  rw [countBucket_pos h (by omega) hqlen hadds hfull]
  obtain ⟨hfirst, hle, hover, hat⟩ := fullStart_spec (by omega) hqlen hfull
  -- the leaves that start before the bucket are passed by the first loop
  have hpast : p ≤ fullStart := by
    by_contra hlt
    have hleaf : records[fullStart]? = some records[fullStart] := List.getElem?_eq_getElem (by omega)
    have := (hat _ (by omega) hleaf).1
    have := (hbefore hleaf).mpr (by omega)
    omega
  have hcross : p < fullStart → ∃ leaf, records[p]? = some leaf ∧ bucketEndExclusive ≤ leaf.endNs := by
    intro hlt
    have hleaf : records[p]? = some records[p] := List.getElem?_eq_getElem (by omega)
    refine ⟨_, hleaf, (hover p _ (by omega) hlt hleaf).resolve_left fun hstart => ?_⟩
    exact absurd ((hbefore hleaf).mp hstart) (lt_irrefl p)
  constructor
  · rintro (⟨j, leaf, hj, hlt, hleaf, hreach⟩ | ⟨hlt, hrest⟩)
    · by_cases hjp : j < p
      · exact Or.inl ⟨j, leaf, hj, hjp, hleaf, hreach⟩
      · exact Or.inr ⟨by omega, Or.inl (hcross (by omega))⟩
    · rcases Nat.lt_or_eq_of_le hpast with hcrossed | rfl
      · exact Or.inr ⟨by omega, Or.inl (hcross hcrossed)⟩
      · exact Or.inr ⟨hlt, Or.inr hrest⟩
  · rintro (⟨j, leaf, hj, hlt, hleaf, hreach⟩ | ⟨hlt, hrest⟩)
    · exact Or.inl ⟨j, leaf, hj, by omega, hleaf, hreach⟩
    · rcases Nat.lt_or_eq_of_le hpast with hcrossed | rfl
      · obtain ⟨leaf, hleaf, hend⟩ := hcross hcrossed
        exact Or.inl ⟨p, leaf, hwalk.trans (Nat.sub_le p 1), hcrossed, hleaf, hb.le.trans hend⟩
      · refine Or.inr ⟨hlt, hrest.resolve_left ?_⟩
        rintro ⟨leaf, hleaf, hend⟩
        have := (hat leaf hlt hleaf).2
        omega

def coarseBucket (records : List WordSummaryRecord) (startNs span count i : Nat) : WordPresenceBucket where
  startNs := startNs + boundary span count i
  endNs := startNs + boundary span count (i + 1) - 1
  wordCount := (ofLeaves records).bucketWordCount (startNs + boundary span count i) (startNs + boundary span count (i + 1))

theorem presenceBuckets_eq {startNs endNs span count : Nat} (hn : 0 < count) (hcount : count ≤ span)
    (hspan : startNs + span = endNs + 1) (hend : endNs < u64Max) (left index offset accumulator : Nat)
    (hleft : index + left = count) (hoffset : offset * count + accumulator = span * index) (hacc : accumulator < count) :
    (ofLeaves records).presenceBuckets startNs endNs count (span / count) (span % count) left index offset accumulator =
      (List.range' index left).map (coarseBucket records startNs span count) := by
  induction left generalizing index offset accumulator with
  | zero => rfl
  | succ left ih =>
    have hremainder : span % count < count := Nat.mod_lt _ hn
    have hhere := boundary_eq hoffset hacc
    have hstep := boundary_lt_succ hn hcount index
    have hlast := @boundary_le_span span count _ hn (show index + 1 ≤ count by omega)
    rw [presenceBuckets]
    generalize hnext : (if count - span % count ≤ accumulator then saturatingAdd (saturatingAdd offset (span / count)) 1
      else saturatingAdd offset (span / count)) = next
    generalize hrest : (if count - span % count ≤ accumulator then accumulator - (count - span % count)
      else accumulator + span % count) = rest
    have hnextOffset : next * count + rest = span * (index + 1) ∧ rest < count := by
      obtain ⟨hcarry, hplain⟩ := boundary_step hoffset hacc
      rw [← hnext, ← hrest]
      split
      next hle =>
        have hbound := boundary_eq (hcarry hle) (by omega)
        rw [saturatingAdd_eq (show offset + span / count ≤ u64Max by omega),
          saturatingAdd_eq (show offset + span / count + 1 ≤ u64Max by omega)]
        exact ⟨hcarry hle, by omega⟩
      next hlt =>
        have hbound := boundary_eq (hplain (by omega)) (by omega)
        rw [saturatingAdd_eq (show offset + span / count ≤ u64Max by omega)]
        exact ⟨hplain (by omega), by omega⟩
    have hboundary := boundary_eq hnextOffset.1 hnextOffset.2
    have hstart : saturatingAdd startNs offset = startNs + boundary span count index := by
      rw [hhere]
      exact saturatingAdd_eq (by omega)
    have hstop : max (if index + 1 = count then saturatingAdd endNs 1 else saturatingAdd startNs next)
        (saturatingAdd (startNs + boundary span count index) 1) = startNs + boundary span count (index + 1) := by
      rw [hboundary, saturatingAdd_eq (show startNs + boundary span count (index + 1) ≤ u64Max by omega),
        saturatingAdd_eq (show startNs + boundary span count index + 1 ≤ u64Max by omega),
        saturatingAdd_eq (show endNs + 1 ≤ u64Max by omega)]
      split
      next hfinal =>
        rw [hfinal, boundary_last span hn]
        omega
      next => omega
    rw [hstart, hstop, ih (index + 1) next rest (by omega) hnextOffset.1 hnextOffset.2, List.range'_succ, List.map_cons]
    rfl

theorem presenceWindowAll_eq {startNs endNs targetBuckets : Nat} (h : startNs ≤ endNs) (hend : endNs < u64Max)
    (ht : 0 < targetBuckets) :
    (ofLeaves records).presenceWindowAll startNs endNs targetBuckets =
      (List.range (bucketCount targetBuckets (windowSpan startNs endNs))).map
        (coarseBucket records startNs (windowSpan startNs endNs) (bucketCount targetBuckets (windowSpan startNs endNs))) := by
  have hspan : saturatingAdd (endNs - startNs) 1 = windowSpan startNs endNs := saturatingAdd_eq (by omega)
  have hpos : 0 < windowSpan startNs endNs := Nat.succ_pos _
  unfold presenceWindowAll
  rw [if_neg (by omega), hspan, List.range_eq_range']
  refine presenceBuckets_eq (bucketCount_pos _ _) (bucketCount_le hpos) ?_ hend _ 0 0 0 (Nat.zero_add _) (by simp)
    (bucketCount_pos _ _)
  unfold windowSpan
  omega

end Bucket

end WordPresenceIndex

section Presence

open WordPresenceIndex

variable {records : List WordSummaryRecord} {startNs endNs targetBuckets : Nat}

/-- A bucket of the overview has words exactly when a leaf reaches into it. -/
def NeverMisses (records : List WordSummaryRecord) (startNs endNs targetBuckets : Nat) : Prop :=
  ∀ bucket ∈ (ofLeaves records).presenceWindowAll startNs endNs targetBuckets,
    0 < bucket.wordCount ↔ ∃ leaf ∈ records, leaf.startNs ≤ bucket.endNs ∧ bucket.startNs ≤ leaf.endNs

def leavesBefore (records : List WordSummaryRecord) (bucketStart : Nat) : List WordSummaryRecord :=
  records.filter fun leaf => leaf.startNs < bucketStart

def leavesInside (records : List WordSummaryRecord) (bucketStart bucketEndExclusive : Nat) : List WordSummaryRecord :=
  records.filter fun leaf => bucketStart ≤ leaf.startNs ∧ leaf.startNs < bucketEndExclusive

def LateLeafReaches (records : List WordSummaryRecord) (bucketStart : Nat) : Prop :=
  ∃ leaf ∈ (leavesBefore records bucketStart).drop ((leavesBefore records bucketStart).length - 2),
    bucketStart ≤ leaf.endNs

/-- A bucket in which no leaf starts is reached, if at all, by one of the last two leaves that start
before it. A bucket in which one starts is reached by one of these two, or its first or its last leaf
ends behind it, or the words of the leaves before it do not fill 64 bits. -/
def ActivityFound (records : List WordSummaryRecord) (bucketStart bucketEndExclusive : Nat) : Prop :=
  let before := leavesBefore records bucketStart
  let inside := leavesInside records bucketStart bucketEndExclusive
  (inside = [] → (∃ leaf ∈ before, bucketStart ≤ leaf.endNs) → LateLeafReaches records bucketStart) ∧
  (inside ≠ [] → LateLeafReaches records bucketStart ∨
    (∃ leaf ∈ inside.head?, bucketEndExclusive ≤ leaf.endNs) ∨
    (∃ leaf ∈ inside.getLast?, bucketEndExclusive ≤ leaf.endNs) ∨ (before.map (·.wordCount)).sum < u64Max)

theorem bucketWordCount_correct (h : LeavesValid records) {bucketStart bucketEndExclusive : Nat}
    (hb : bucketStart < bucketEndExclusive) (he : bucketEndExclusive ≤ u64Max) :
    (0 < (ofLeaves records).bucketWordCount bucketStart bucketEndExclusive ↔
      ∃ leaf ∈ records, leaf.startNs ≤ bucketEndExclusive - 1 ∧ bucketStart ≤ leaf.endNs) ↔
      ActivityFound records bucketStart bucketEndExclusive := by
  have hpart := partitioned_startsBefore h.ordered bucketStart
  have hpart' := partitioned_startsBefore h.ordered bucketEndExclusive
  generalize hp : partitionPoint (WordSummaryRecord.startsBefore bucketStart) records = p
  generalize hq : partitionPoint (WordSummaryRecord.startsBefore bucketEndExclusive) records = q
  have hplen : p ≤ records.length := hp ▸ partitionPoint_le_length _ _
  have hqlen : q ≤ records.length := hq ▸ partitionPoint_le_length _ _
  have hbefore : leavesBefore records bucketStart = records.take p := hp ▸ hpart.filter_eq
  have hpq : p ≤ q := hp ▸ hq ▸ partitionPoint_mono hb.le
  have hinside : leavesInside records bucketStart bucketEndExclusive = (records.take q).drop p := by
    have hslice := @partitionPoint_slice _ (WordSummaryRecord.startsBefore bucketStart) records 0 q
      (Nat.zero_le _) (hp ▸ hpq) hqlen
    rw [Nat.zero_add, List.drop_zero, hp] at hslice
    rw [← hslice, ← (hpart.sublist (List.take_sublist q records)).filter_not_eq, ← hq, ← hpart'.filter_eq,
      List.filter_filter, leavesInside]
    refine List.filter_congr fun leaf _ => ?_
    simp only [WordSummaryRecord.startsBefore, ← Nat.not_lt, Bool.decide_and, decide_not]
  have hstarts : ∀ {j leaf}, records[j]? = some leaf → (leaf.startNs ≤ bucketEndExclusive - 1 ↔ j < q) := fun hleaf => by
    rw [← hq, ← hpart'.test_iff hleaf, WordSummaryRecord.startsBefore, decide_eq_true_eq]
    omega
  have hlate : LateLeafReaches records bucketStart ↔
      ∃ leaf ∈ (records.take p).drop (p - 2), bucketStart ≤ leaf.endNs := by
    rw [LateLeafReaches, hbefore, List.length_take, min_eq_left hplen]
  rw [bucketWordCount_pos h hb he hp hq, ← hlate]
  unfold ActivityFound
  dsimp only
  rw [hinside, hbefore]
  rcases Nat.lt_or_eq_of_le hpq with hlt | rfl
  · -- a leaf starts in the bucket
    have hfirst : records[p]? = some records[p] := List.getElem?_eq_getElem (by omega)
    have hpresent : ∃ leaf ∈ records, leaf.startNs ≤ bucketEndExclusive - 1 ∧ bucketStart ≤ leaf.endNs := by
      have hmem := List.mem_of_getElem? hfirst
      refine ⟨_, hmem, (hstarts hfirst).mpr hlt, ?_⟩
      have hend := h.start_le _ hmem
      have hfails : WordSummaryRecord.startsBefore bucketStart records[p] = false := fails_at (by rw [hp]; exact hfirst)
      rw [WordSummaryRecord.startsBefore, decide_eq_false_iff_not] at hfails
      omega
    have hne : (records.take q).drop p ≠ [] := by
      rw [ne_eq, List.drop_eq_nil_iff, List.length_take]
      omega
    have hhead : ((records.take q).drop p).head? = records[p]? := by
      rw [List.head?_drop, List.getElem?_take, if_pos hlt]
    have hlast : ((records.take q).drop p).getLast? = records[q - 1]? := by
      rw [List.getLast?_drop, if_neg (by rw [List.length_take]; omega), List.getLast?_take, if_neg (by omega),
        List.getElem?_eq_getElem (by omega)]
      rfl
    rw [hhead, hlast]
    constructor
    · intro hiff
      exact ⟨fun hnil => absurd hnil hne, fun _ => (hiff.mpr hpresent).imp_right And.right⟩
    · rintro ⟨-, hfound⟩
      exact ⟨fun _ => hpresent, fun _ => (hfound hne).imp_right fun hsome => ⟨hlt, hsome⟩⟩
  · -- only leaves that start before the bucket can reach it
    have hnil : (records.take p).drop p = [] := List.drop_eq_nil_iff.mpr (by rw [List.length_take]; omega)
    have hreach : (∃ leaf ∈ records, leaf.startNs ≤ bucketEndExclusive - 1 ∧ bucketStart ≤ leaf.endNs) ↔
        ∃ leaf ∈ records.take p, bucketStart ≤ leaf.endNs := by
      constructor
      · rintro ⟨leaf, hmem, hstart, hend⟩
        obtain ⟨j, hj⟩ := List.mem_iff_getElem?.mp hmem
        refine ⟨leaf, List.mem_iff_getElem?.mpr ⟨j, ?_⟩, hend⟩
        rw [List.getElem?_take, if_pos ((hstarts hj).mp hstart)]
        exact hj
      · rintro ⟨leaf, hmem, hend⟩
        obtain ⟨j, hj⟩ := List.mem_iff_getElem?.mp hmem
        rw [List.getElem?_take] at hj
        split at hj
        next hjp => exact ⟨leaf, List.mem_of_getElem? hj, (hstarts hj).mpr hjp, hend⟩
        next => cases hj
    rw [hreach, hnil]
    constructor
    · intro hiff
      exact ⟨fun _ hsome => (hiff.mpr hsome).resolve_right fun hbad => lt_irrefl p hbad.1, fun hne => absurd rfl hne⟩
    · rintro ⟨hfound, -⟩
      refine ⟨?_, fun hsome => Or.inl (hfound rfl hsome)⟩
      rintro (hlate' | ⟨hbad, -⟩)
      · obtain ⟨leaf, hmem, hend⟩ := hlate.mp hlate'
        exact ⟨leaf, List.mem_of_mem_drop hmem, hend⟩
      · exact absurd hbad (lt_irrefl p)

/-- The coarse overview misses no activity exactly when every one of its buckets finds its own. -/
theorem presence_window_never_misses (h : LeavesValid records) (hle : startNs ≤ endNs) (hend : endNs < u64Max)
    (ht : 0 < targetBuckets) :
    NeverMisses records startNs endNs targetBuckets ↔
      let span := windowSpan startNs endNs
      let count := bucketCount targetBuckets span
      ∀ i < count, ActivityFound records (startNs + span * i / count) (startNs + span * (i + 1) / count) := by
  have hspan : startNs + windowSpan startNs endNs = endNs + 1 := by
    unfold windowSpan
    omega
  have hpos := bucketCount_pos targetBuckets (windowSpan startNs endNs)
  have hcount := @bucketCount_le targetBuckets _ (show 0 < windowSpan startNs endNs by omega)
  unfold NeverMisses
  rw [presenceWindowAll_eq hle hend ht]
  dsimp only
  generalize windowSpan startNs endNs = span at hspan hpos hcount ⊢
  generalize bucketCount targetBuckets span = count at hpos hcount ⊢
  have hbucket : ∀ i < count, (0 < (coarseBucket records startNs span count i).wordCount ↔
      ∃ leaf ∈ records, leaf.startNs ≤ (coarseBucket records startNs span count i).endNs ∧
        (coarseBucket records startNs span count i).startNs ≤ leaf.endNs) ↔
      ActivityFound records (startNs + span * i / count) (startNs + span * (i + 1) / count) := by
    intro i hi
    have hstep := boundary_lt_succ hpos hcount i
    have hlast := @boundary_le_span span count _ hpos (show i + 1 ≤ count by omega)
    exact @bucketWordCount_correct _ h (startNs + boundary span count i)
      (startNs + boundary span count (i + 1)) (by omega) (by omega)
  constructor
  · intro hall i hi
    exact (hbucket i hi).mp (hall _ (List.mem_map.mpr ⟨i, List.mem_range.mpr hi, rfl⟩))
  · intro hall bucket hmem
    obtain ⟨i, hi, rfl⟩ := List.mem_map.mp hmem
    exact (hbucket i (List.mem_range.mp hi)).mpr (hall i (List.mem_range.mp hi))

theorem presence_window_never_misses_short : NeverMisses [⟨10, 20, 1, 0, 1⟩, ⟨30, 45, 2, 1, 1⟩] 0 49 5 ↔
    ∀ i < 5, ActivityFound [⟨10, 20, 1, 0, 1⟩, ⟨30, 45, 2, 1, 1⟩] (50 * i / 5) (50 * (i + 1) / 5) := by
  have h := @presence_window_never_misses [⟨10, 20, 1, 0, 1⟩, ⟨30, 45, 2, 1, 1⟩] 0 49 5
    ⟨by decide, by decide, by decide, by decide, by decide⟩ (by decide) (by decide) (by decide)
  simpa [windowSpan, bucketCount] using h

/-- A word of ten microseconds and two short ones that start and end while it lasts: the walk back from
the second bucket stops at the short ones. -/
theorem presence_window_misses_long_word :
    ¬NeverMisses [⟨10, 10000, 1, 0, 1⟩, ⟨20, 20, 1, 1, 1⟩, ⟨30, 30, 1, 2, 1⟩] 0 9999 4 := by
  intro h
  have hempty := h ⟨2500, 4999, 0⟩ (by decide)
  exact absurd (hempty.mpr ⟨⟨10, 10000, 1, 0, 1⟩, by decide, by decide, by decide⟩) (by decide)

/-- The search by groups finds the partition point of the leaves, and the buckets of a window partition it at the
exact scaled boundaries. -/
theorem presence_index_partitions (records : List WordSummaryRecord)
    (ordered : records.Pairwise fun a b => a.startNs ≤ b.startNs) :
    (∀ timestampNs, (ofLeaves records).partitionStart timestampNs =
      PartitionPoint.partitionPoint (fun record => record.startNs < timestampNs) records) ∧
    ∀ startNs endNs targetBuckets, startNs ≤ endNs → endNs < u64Max → 0 < targetBuckets →
      let span := endNs - startNs + 1
      let n := min targetBuckets span
      let buckets := (ofLeaves records).presenceWindowAll startNs endNs targetBuckets
      buckets.length = n ∧
      (∀ i bucket, buckets[i]? = some bucket → bucket.startNs = startNs + span * i / n ∧
        bucket.endNs = startNs + span * (i + 1) / n - 1 ∧ bucket.startNs ≤ bucket.endNs) ∧
      (∀ i bucket next, buckets[i]? = some bucket → buckets[i + 1]? = some next → next.startNs = bucket.endNs + 1) ∧
      (∀ bucket ∈ buckets.head?, bucket.startNs = startNs) ∧ ∀ bucket ∈ buckets.getLast?, bucket.endNs = endNs := by
  refine ⟨partitionStart_eq ordered, fun startNs endNs targetBuckets hle hend ht => ?_⟩
  dsimp only
  have hspan : windowSpan startNs endNs = endNs - startNs + 1 := rfl
  have hcount : bucketCount targetBuckets (windowSpan startNs endNs) = min targetBuckets (endNs - startNs + 1) := by
    unfold bucketCount windowSpan
    omega
  rw [presenceWindowAll_eq hle hend ht, hcount, hspan]
  generalize hlast : endNs - startNs + 1 = span
  generalize hn : min targetBuckets span = n
  have hpos : 0 < n := by omega
  have hle : n ≤ span := by omega
  have hstep := fun i => boundary_lt_succ hpos hle i
  have hbucket : ∀ {i bucket}, ((List.range n).map (coarseBucket records startNs span n))[i]? = some bucket →
      i < n ∧ coarseBucket records startNs span n i = bucket := by
    intro i bucket h
    obtain ⟨j, hj, hb⟩ := Option.map_eq_some_iff.mp (List.getElem?_map ▸ h)
    obtain ⟨hi, hj⟩ := List.getElem?_eq_some_iff.mp hj
    rw [List.getElem_range] at hj
    exact ⟨by simpa using hi, hj ▸ hb⟩
  refine ⟨by rw [List.length_map, List.length_range], ?_, ?_, ?_, ?_⟩
  · intro i bucket h
    obtain ⟨-, rfl⟩ := hbucket h
    have hnext := hstep i
    exact ⟨rfl, rfl, show startNs + boundary span n i ≤ startNs + boundary span n (i + 1) - 1 by omega⟩
  · intro i bucket next h hnext
    obtain ⟨-, rfl⟩ := hbucket h
    obtain ⟨-, rfl⟩ := hbucket hnext
    have hgrows := hstep i
    show startNs + boundary span n (i + 1) = startNs + boundary span n (i + 1) - 1 + 1
    omega
  · intro bucket h
    obtain ⟨-, rfl⟩ := hbucket (List.head?_eq_getElem? ▸ h)
    show startNs + span * 0 / n = startNs
    rw [Nat.mul_zero, Nat.zero_div, Nat.add_zero]
  · intro bucket h
    obtain ⟨hi, rfl⟩ := hbucket (List.getLast?_eq_getElem? ▸ h)
    rw [List.length_map, List.length_range]
    show startNs + boundary span n (n - 1 + 1) - 1 = endNs
    rw [Nat.sub_add_cancel hpos, boundary_last span hpos]
    omega

theorem presence_index_partitions_pair :
    (ofLeaves [⟨10, 20, 1, 0, 1⟩, ⟨30, 45, 2, 1, 1⟩]).partitionStart 25 =
      PartitionPoint.partitionPoint (fun record => record.startNs < 25)
        ([⟨10, 20, 1, 0, 1⟩, ⟨30, 45, 2, 1, 1⟩] : List WordSummaryRecord) ∧
    ((ofLeaves [⟨10, 20, 1, 0, 1⟩, ⟨30, 45, 2, 1, 1⟩]).presenceWindowAll 0 49 7).length = 7 :=
  have h := presence_index_partitions [⟨10, 20, 1, 0, 1⟩, ⟨30, 45, 2, 1, 1⟩] (by decide)
  ⟨h.1 25, (h.2 0 49 7 (by decide) (by decide) (by decide)).1⟩

end Presence

end LogicConduit
