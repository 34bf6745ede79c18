import LogicConduit.PresenceWindow
import LogicConduit.WordReopen

namespace LogicConduit

variable {record : WordSummaryRecord}

namespace CutInto

variable {block : Nat} {words : List Word} {records : List WordSummaryRecord}

section

variable (h : CutInto block words records)
include h

theorem run_of_mem (hm : record ∈ records) : ∃ run, RunOf block run record ∧ run.Sublist words := by
  induction h with
  | nil => cases hm
  | @snoc words run records last prior hrun ih =>
    rcases List.mem_append.mp hm with hm | hm
    · obtain ⟨other, hother, hsub⟩ := ih hm
      exact ⟨other, hother, hsub.trans (List.sublist_append_left _ _)⟩
    · rw [List.mem_singleton.mp hm]
      exact ⟨run, hrun, List.sublist_append_right _ _⟩

theorem record_of_mem {word : Word} (hm : word ∈ words) :
    ∃ record ∈ records, ∃ run, RunOf block run record ∧ word ∈ run ∧ run.Sublist words := by
  induction h with
  | nil => cases hm
  | @snoc words run records last prior hrun ih =>
    rcases List.mem_append.mp hm with hm | hm
    · obtain ⟨record, hrecord, other, hother, hword, hsub⟩ := ih hm
      exact ⟨record, List.mem_append_left _ hrecord, other, hother, hword, hsub.trans (List.sublist_append_left _ _)⟩
    · exact ⟨last, List.mem_append_right _ List.mem_cons_self, run, hrun, hm, List.sublist_append_right _ _⟩

theorem ordered (ho : Ordered words) : records.Pairwise fun a b => a.startNs ≤ b.startNs := by
  induction h with
  | nil => exact List.Pairwise.nil
  | @snoc words run records last prior hrun ih =>
    obtain ⟨hbefore, -, hcross⟩ := List.pairwise_append.mp ho
    refine List.pairwise_append.mpr ⟨ih hbefore, List.pairwise_singleton _ _, ?_⟩
    intro record hm other hother
    rw [List.mem_singleton.mp hother]
    obtain ⟨first, hfirst, hstart⟩ := Option.map_eq_some_iff.mp hrun.start
    obtain ⟨earlier, hearlier, hsub⟩ := prior.run_of_mem hm
    obtain ⟨word, hword, hrecord⟩ := Option.map_eq_some_iff.mp hearlier.start
    rw [← hstart, ← hrecord]
    exact hcross word (hsub.subset (List.mem_of_head? hword)) first (List.mem_of_head? hfirst)

end

end CutInto

theorem RunOf.start_le_word {block : Nat} {run : List Word} (h : RunOf block run record) (ho : Ordered run)
    {word : Word} (hm : word ∈ run) : record.startNs ≤ word.time := by
  obtain ⟨first, hfirst, hstart⟩ := Option.map_eq_some_iff.mp h.start
  obtain ⟨i, hi⟩ := List.mem_iff_getElem?.mp hm
  rw [List.head?_eq_getElem?] at hfirst
  rw [← hstart]
  exact ho.getElem?_le hfirst hi (Nat.zero_le _)

theorem mem_presenceLeaves {blocks : List WordBlockBuilder} :
    record ∈ presenceLeaves blocks ↔ ∃ (k : Nat) (builder : WordBlockBuilder), blocks[k]? = some builder ∧
      record ∈ wordPresenceSummaries k builder.words builder.isDurationFree := by
  rw [presenceLeaves, List.mem_flatMap]
  constructor
  · rintro ⟨⟨builder, k⟩, hb, hm⟩
    exact ⟨k, builder, List.mem_zipIdx_iff_getElem?.mp hb, hm⟩
  · rintro ⟨k, builder, hb, hm⟩
    exact ⟨(builder, k), List.mem_zipIdx_iff_getElem?.mpr hb, hm⟩

theorem presenceLeaves_ordered (blocks : List WordBlockBuilder) (hb : ∀ builder ∈ blocks, Closed builder)
    (ho : Ordered (blocks.flatMap (·.words))) :
    (presenceLeaves blocks).Pairwise fun a b => a.startNs ≤ b.startNs := by
  induction blocks using List.reverseRecOn with
  | nil => exact List.Pairwise.nil
  | append_singleton blocks builder ih =>
    rw [List.flatMap_append, List.flatMap_singleton] at ho
    obtain ⟨hbefore, hlast, hcross⟩ := List.pairwise_append.mp ho
    have hclosed := hb builder (by simp)
    have hcut := wordPresenceSummaries_cut blocks.length hclosed.sized hlast
    rw [presenceLeaves_append]
    refine List.pairwise_append.mpr ⟨ih (fun other hm => hb other (List.mem_append_left _ hm)) hbefore,
      hcut.ordered hlast, ?_⟩
    intro record hm other hother
    obtain ⟨k, earlier, hk, hrecord⟩ := mem_presenceLeaves.mp hm
    have hmem := List.mem_of_getElem? hk
    have hearlier := hb earlier (List.mem_append_left _ hmem)
    obtain ⟨run, hrun, hsub⟩ := (wordPresenceSummaries_cut k hearlier.sized hearlier.ordered).run_of_mem hrecord
    obtain ⟨later, hlater, hlaterSub⟩ := hcut.run_of_mem hother
    obtain ⟨word, hword, hstart⟩ := Option.map_eq_some_iff.mp hrun.start
    obtain ⟨next, hnext, hnextStart⟩ := Option.map_eq_some_iff.mp hlater.start
    rw [← hstart, ← hnextStart]
    exact hcross word (List.mem_flatMap.mpr ⟨earlier, hmem, hsub.subset (List.mem_of_head? hword)⟩) next
      (hlaterSub.subset (List.mem_of_head? hnext))

section Stored

variable {checksum : BlockChecksum} {store : Store} {dispatched : List WordBlockBuilder}

section

variable (h : Stored checksum store dispatched)
include h

theorem Stored.take_closed :
    ∀ builder ∈ dispatched.take store.state.directory.length, Closed builder :=
  fun builder hm => h.blocks builder (List.mem_of_mem_take hm)

theorem Stored.leavesValid : LeavesValid store.state.presence.leaves := by
  have hrun : ∀ record ∈ store.state.presence.leaves, ∃ (k : Nat) (run : List Word), RunOf k run record ∧
      run.length ≤ u64Max := by
    intro record hm
    rw [h.leaves] at hm
    obtain ⟨k, builder, hk, hm⟩ := mem_presenceLeaves.mp hm
    have hclosed := h.take_closed builder (List.mem_of_getElem? hk)
    obtain ⟨run, hrun, hsub⟩ := (wordPresenceSummaries_cut k hclosed.sized hclosed.ordered).run_of_mem hm
    have hlength := hclosed.sized.fits.length
    have hmax := hclosed.sized.maxWords_le
    have hle := hsub.length_le
    unfold u32Max at hmax
    exact ⟨k, run, hrun, by unfold u64Max; omega⟩
  refine ⟨?_, ?_, ?_, ?_, ?_⟩
  · rw [h.leaves]
    exact presenceLeaves_ordered _ h.take_closed h.take_ordered
  · intro record hm
    obtain ⟨k, run, hof, -⟩ := hrun record hm
    exact hof.start_le
  · intro record hm
    obtain ⟨k, run, hof, -⟩ := hrun record hm
    exact Nat.le_of_lt_succ hof.bounded
  · intro record hm
    obtain ⟨k, run, hof, -⟩ := hrun record hm
    exact hof.count_pos
  · intro record hm
    obtain ⟨k, run, hof, hlen⟩ := hrun record hm
    rw [hof.count]
    exact hlen

theorem Stored.leaf_run (hm : record ∈ store.state.presence.leaves) :
    ∃ (builder : WordBlockBuilder) (run : List Word), dispatched[record.firstBlock]? = some builder ∧
      record.firstBlock < store.state.directory.length ∧ RunOf record.firstBlock run record ∧
      run.Sublist builder.words := by
  rw [h.leaves] at hm
  obtain ⟨k, builder, hk, hm⟩ := mem_presenceLeaves.mp hm
  have hclosed := h.take_closed builder (List.mem_of_getElem? hk)
  obtain ⟨run, hrun, hsub⟩ := (wordPresenceSummaries_cut k hclosed.sized hclosed.ordered).run_of_mem hm
  have hlt := (List.getElem?_eq_some_iff.mp hk).1
  rw [h.take_length] at hlt
  rw [List.getElem?_take_of_lt hlt] at hk
  rw [hrun.firstBlock]
  exact ⟨builder, run, hk, hlt, hrun, hsub⟩

theorem Stored.word_covered {k : Nat} {builder : WordBlockBuilder}
    (hk : dispatched[k]? = some builder) (hlt : k < store.state.directory.length) {word : Word}
    (hm : word ∈ builder.words) :
    ∃ record ∈ store.state.presence.leaves, record.firstBlock = k ∧ record.startNs ≤ word.time ∧
      saturatingAdd word.time word.duration ≤ record.endNs := by
  have hclosed := h.blocks builder (List.mem_of_getElem? hk)
  obtain ⟨record, hrecord, run, hrun, hword, hsub⟩ :=
    (wordPresenceSummaries_cut k hclosed.sized hclosed.ordered).record_of_mem hm
  refine ⟨record, ?_, hrun.firstBlock, hrun.start_le_word (hclosed.ordered.sublist hsub) hword, hrun.covers word hword⟩
  rw [h.leaves]
  exact mem_presenceLeaves.mpr ⟨k, builder, by rwa [List.getElem?_take_of_lt hlt], hrecord⟩

end

end Stored

end LogicConduit
