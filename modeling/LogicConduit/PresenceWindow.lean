import Mathlib.Data.List.Induction
import LogicConduit.PresenceQuery
import LogicConduit.ScaledPartition

namespace LogicConduit

open PartitionPoint ScaledPartition

/-- Leaves as they are pushed: in the order of their starts, none of them empty. -/
structure LeavesValid (records : List WordSummaryRecord) : Prop where
  ordered : records.Pairwise fun a b => a.startNs ≤ b.startNs
  start_le : ∀ record ∈ records, record.startNs ≤ record.endNs
  end_le : ∀ record ∈ records, record.endNs ≤ u64Max
  count_pos : ∀ record ∈ records, 0 < record.wordCount
  count_le : ∀ record ∈ records, record.wordCount ≤ u64Max

def groupsOf (records : List WordSummaryRecord) : List WordSummaryRecord :=
  (List.range (records.length / fanOut)).map fun g => combine ((records.drop (g * fanOut)).take fanOut)

theorem groupsOf_append (records : List WordSummaryRecord) (record : WordSummaryRecord) :
    groupsOf (records ++ [record]) =
      if (records.length + 1) % fanOut = 0 then
        groupsOf records ++ [combine ((records ++ [record]).drop (records.length + 1 - fanOut))]
      else groupsOf records := by
  have hsame : ∀ g ∈ List.range (records.length / fanOut),
      combine (((records ++ [record]).drop (g * fanOut)).take fanOut) =
        combine ((records.drop (g * fanOut)).take fanOut) := by
    intro g hg
    have hg' := List.mem_range.mp hg
    have hle : (g + 1) * fanOut ≤ records.length :=
      (Nat.mul_le_mul_right fanOut hg').trans (Nat.div_mul_le_self _ _)
    rw [Nat.add_mul, Nat.one_mul] at hle
    rw [List.drop_append_of_le_length (by omega), List.take_append_of_le_length (by rw [List.length_drop]; omega)]
  rw [groupsOf, List.length_append, List.length_singleton]
  by_cases hfull : (records.length + 1) % fanOut = 0
  · have hdiv : (records.length + 1) / fanOut = records.length / fanOut + 1 := by
      unfold fanOut at hfull ⊢
      omega
    have hlast : records.length / fanOut * fanOut = records.length + 1 - fanOut := by
      unfold fanOut at hfull ⊢
      omega
    rw [if_pos hfull, hdiv, List.range_succ, List.map_append, List.map_congr_left hsame, List.map_singleton, hlast,
      groupsOf, List.take_of_length_le]
    rw [List.length_drop, List.length_append, List.length_singleton]
    unfold fanOut at hfull ⊢
    omega
  · have hdiv : (records.length + 1) / fanOut = records.length / fanOut := by
      unfold fanOut at hfull ⊢
      omega
    rw [if_neg hfull, hdiv, List.map_congr_left hsame, groupsOf]

theorem head?_pushLevel (above : List (List WordSummaryRecord)) (record : WordSummaryRecord) :
    (pushLevel above record).head?.getD [] = above.head?.getD [] ++ [record] := by
  cases above with
  | nil => rfl
  | cons level above =>
    rw [pushLevel]
    split <;> rfl

namespace WordPresenceIndex

theorem levels_ofLeaves (records : List WordSummaryRecord) :
    ∃ above, (ofLeaves records).levels = records :: above ∧ above.head?.getD [] = groupsOf records := by
  induction records using List.reverseRecOn with
  | nil => exact ⟨[], rfl, rfl⟩
  | append_singleton records record ih =>
    obtain ⟨above, hlevels, hgroups⟩ := ih
    have hpush : (ofLeaves (records ++ [record])).levels = pushLevel (records :: above) record := by
      rw [← foldl_push_ofLeaves, List.foldl_cons, List.foldl_nil, push, hlevels]
    rw [hpush, pushLevel, groupsOf_append, List.length_append, List.length_singleton]
    split
    · exact ⟨_, rfl, by rw [head?_pushLevel, hgroups]⟩
    · exact ⟨above, rfl, hgroups⟩

theorem getElem?_groupsOf {records : List WordSummaryRecord} {g : Nat} {group : WordSummaryRecord}
    (h : (groupsOf records)[g]? = some group) :
    ∃ leaf, records[g * fanOut]? = some leaf ∧ leaf.startNs = group.startNs := by
  obtain ⟨hlt, rfl⟩ := List.getElem?_eq_some_iff.mp h
  rw [groupsOf, List.length_map, List.length_range] at hlt
  have hle : (g + 1) * fanOut ≤ records.length := (Nat.mul_le_mul_right fanOut hlt).trans (Nat.div_mul_le_self _ _)
  rw [Nat.add_mul, Nat.one_mul] at hle
  have hpos : 0 < fanOut := by decide
  have hin : g * fanOut < records.length := by omega
  refine ⟨records[g * fanOut], List.getElem?_eq_getElem hin, ?_⟩
  simp [groupsOf, combine, List.head?_take, List.head?_drop, hpos.ne', List.getElem?_eq_getElem hin]

section Search

variable {records : List WordSummaryRecord} {timestampNs : Nat}

theorem partitioned_startsBefore (h : records.Pairwise fun a b => a.startNs ≤ b.startNs) (timestampNs : Nat) :
    Partitioned (WordSummaryRecord.startsBefore timestampNs) records := partitioned_lt h timestampNs

/-- The group behind the last one that starts before the time bounds the point from above, that last
one bounds it from below. -/
theorem partitionPoint_between (h : Partitioned (WordSummaryRecord.startsBefore timestampNs) records) {group : Nat}
    (hgroup : partitionPoint (WordSummaryRecord.startsBefore timestampNs) (groupsOf records) = group) :
    (group < (groupsOf records).length →
      partitionPoint (WordSummaryRecord.startsBefore timestampNs) records ≤ group * fanOut) ∧
    (group ≠ 0 → (group - 1) * fanOut < partitionPoint (WordSummaryRecord.startsBefore timestampNs) records) := by
  constructor
  · intro hlt
    obtain ⟨leaf, hleaf, hstart⟩ := getElem?_groupsOf (List.getElem?_eq_getElem hlt)
    by_contra hgt
    have hbefore := test_of_lt hleaf (Nat.lt_of_not_le hgt)
    have hafter : WordSummaryRecord.startsBefore timestampNs (groupsOf records)[group] = false :=
      fails_at (by rw [hgroup]; exact List.getElem?_eq_getElem hlt)
    unfold WordSummaryRecord.startsBefore at hbefore hafter
    rw [hstart, hafter] at hbefore
    exact Bool.noConfusion hbefore
  · intro hzero
    have hle := partitionPoint_le_length (WordSummaryRecord.startsBefore timestampNs) (groupsOf records)
    have hlast := List.getElem?_eq_getElem (show group - 1 < (groupsOf records).length by omega)
    obtain ⟨leaf, hleaf, hstart⟩ := getElem?_groupsOf hlast
    have hbefore : WordSummaryRecord.startsBefore timestampNs _ = true := test_of_lt hlast (by omega)
    refine (h.test_iff hleaf).mp ?_
    unfold WordSummaryRecord.startsBefore at hbefore ⊢
    rw [hstart]
    exact hbefore

theorem partitionStart_eq (h : records.Pairwise fun a b => a.startNs ≤ b.startNs) (timestampNs : Nat) :
    (ofLeaves records).partitionStart timestampNs =
      partitionPoint (WordSummaryRecord.startsBefore timestampNs) records := by
  obtain ⟨above, hlevels, hgroups⟩ := levels_ofLeaves records
  have hsecond : (ofLeaves records).levels[1]? = above.head? := by
    rw [hlevels, List.getElem?_cons_succ, List.head?_eq_getElem?]
  unfold partitionStart
  rw [leaves_ofLeaves, hsecond]
  cases hhead : above.head? with
  | none => rfl
  | some groups =>
    rw [hhead, Option.getD_some] at hgroups
    subst hgroups
    by_cases hempty : (groupsOf records).isEmpty
    · rw [Option.filter_some_neg (by simpa using hempty)]
    · rw [Option.filter_some_pos (by simpa using hempty)]
      dsimp only
      generalize hgroup : partitionPoint (WordSummaryRecord.startsBefore timestampNs) (groupsOf records) = group
      obtain ⟨habove, hbelow⟩ := partitionPoint_between (partitioned_startsBefore h timestampNs) hgroup
      have hle := partitionPoint_le_length (WordSummaryRecord.startsBefore timestampNs) records
      by_cases hzero : group = 0
      · subst hzero
        have hnone := habove (List.length_pos_iff.mpr (by simpa using hempty))
        rw [Nat.zero_mul] at hnone
        rw [if_pos rfl]
        omega
      · rw [if_neg hzero]
        refine partitionPoint_slice (hbelow hzero).le ?_ ?_
        · split
          next hlt => exact habove hlt
          next => exact hle
        · split
          next hlt =>
            obtain ⟨leaf, hleaf, -⟩ := getElem?_groupsOf (List.getElem?_eq_getElem hlt)
            exact (List.getElem?_eq_some_iff.mp hleaf).1.le
          next => exact le_rfl

end Search

end WordPresenceIndex

end LogicConduit
