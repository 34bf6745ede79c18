import LogicConduit.WordDispatch

namespace LogicConduit

open Prog

section Append

variable {checksum : BlockChecksum} {intact : Prop} {intake : Intake} {m : Machine}

variable {builder : WordBlockBuilder}

theorem Intake.Fits.arrive {arriving later rest : List Word} {word : Word} {dispatched : List WordBlockBuilder}
    {lastTimestampNs : Option Nat} (h : Intake.Fits ⟨builder, arriving, later⟩ dispatched lastTimestampNs)
    (hl : ¬lastTimestampNs.any (word.time < ·) = true) :
    Intake.Fits ⟨builder, arriving ++ [word], rest⟩ dispatched (some word.time) := by
  obtain ⟨hsized, hordered, hrecent⟩ := h
  have htaken : Intake.taken ⟨builder, arriving ++ [word], rest⟩ dispatched =
      Intake.taken ⟨builder, arriving, later⟩ dispatched ++ [word] := by simp [Intake.taken]
  have hbefore : ∀ earlier ∈ Intake.taken ⟨builder, arriving, later⟩ dispatched, earlier.time ≤ word.time := by
    intro earlier hm
    obtain ⟨t, ht, hle⟩ := hrecent earlier hm
    rw [ht] at hl
    simp only [Option.any_some, decide_eq_true_eq, Nat.not_lt] at hl
    exact hle.trans hl
  refine ⟨hsized, ?_, ?_⟩
  · rw [htaken]
    exact List.pairwise_append.mpr ⟨hordered, List.pairwise_singleton _ _, fun earlier hm other ho => by
      rw [List.mem_singleton.mp ho]
      exact hbefore earlier hm⟩
  · intro other hm
    rw [htaken] at hm
    rcases List.mem_append.mp hm with hm | hm
    · exact ⟨_, rfl, hbefore other hm⟩
    · rw [List.mem_singleton.mp hm]
      exact ⟨_, rfl, le_rfl⟩

variable {later : List Word} {calm : Prop}

theorem checkOrder_triple (words arriving : List Word) :
    Triple (At checksum intact False 0 ⟨builder, arriving, words ++ later⟩) (checkOrder words)
      (fun _ => At checksum intact False 0 ⟨builder, arriving ++ words, later⟩)
      (Failed checksum intact False) := by
  induction words generalizing arriving with
  | nil =>
    refine triple_pure fun m hm => ?_
    simpa using hm
  | cons word rest ih =>
    intro m hm
    show Outcome _ _ (if _ then _ else _)
    split
    next ho => exact ⟨id, hm.recorded, _, hm.damaged⟩
    next ho =>
      have hfits : Intake.Fits ⟨builder, arriving ++ [word], rest ++ later⟩ m.dispatched (some word.time) :=
        hm.linked.fits.arrive ho
      have hwords : Intake.words ⟨builder, arriving ++ [word], rest ++ later⟩ =
          Intake.words ⟨builder, arriving, word :: rest ++ later⟩ := by simp [Intake.words]
      have hnext : At checksum intact False 0 ⟨builder, arriving ++ [word], rest ++ later⟩
          { m with writer := { m.writer with lastTimestampNs := some word.time } } :=
        hm.setIntake hm.linked.builder hfits hwords List.prefix_rfl
      have hrest := ih (arriving ++ [word]) _ hnext
      rw [List.append_assoc, List.singleton_append] at hrest
      exact hrest

theorem extendBuilder_outcome {arriving later : List Word} (h : At checksum intact False 0 ⟨builder, arriving, later⟩ m) :
    ∃ accepted next, extendBuilder arriving m = (.ok accepted, next) ∧
      (builder.words = [] → arriving ≠ [] → 0 < accepted) ∧
      ∃ filled, At checksum intact False 0 ⟨filled, arriving.drop accepted, later⟩ next := by
  obtain ⟨accepted, filled, hextend⟩ : ∃ accepted filled, m.writer.builder.extendOrdered arriving =
      (accepted, filled) := ⟨_, _, rfl⟩
  have hb : m.writer.builder = builder := h.linked.builder
  rw [hb] at hextend
  obtain ⟨hsized, hwords, -, -, hprogress⟩ := WordBlockBuilder.extendOrdered_spec h.linked.sized hextend
  have hall : filled.words ++ arriving.drop accepted = builder.words ++ arriving := by
    rw [hwords, List.append_assoc, List.take_append_drop]
  have htaken : Intake.taken ⟨filled, arriving.drop accepted, later⟩ m.dispatched =
      Intake.taken ⟨builder, arriving, later⟩ m.dispatched := by
    show _ ++ (filled.words ++ arriving.drop accepted) = _
    rw [hall]
    rfl
  have hfits : Intake.Fits ⟨filled, arriving.drop accepted, later⟩ m.dispatched m.writer.lastTimestampNs :=
    h.linked.fits.sublist hsized (htaken ▸ List.Sublist.refl _)
  have hintake : Intake.words ⟨filled, arriving.drop accepted, later⟩ = Intake.words ⟨builder, arriving, later⟩ := by
    show filled.words ++ arriving.drop accepted ++ later = _
    rw [hall]
    rfl
  refine ⟨accepted, { m with writer := { m.writer with
    builder := filled, wordsSinceTailPublish := m.writer.wordsSinceTailPublish + accepted } }, ?_, hprogress, filled,
    h.setIntake rfl hfits hintake (hwords ▸ List.prefix_append _ _)⟩
  unfold extendBuilder
  rw [hb, hextend]

theorem dispatchIfFull_triple {arriving later : List Word} :
    Triple (At checksum intact False 0 ⟨builder, arriving, later⟩) (dispatchIfFull checksum arriving)
      (fun _ m => ∃ filled, At checksum intact False 0 ⟨filled, arriving, later⟩ m ∧
        (arriving ≠ [] → filled.words = [])) (Failed checksum intact False) := by
  refine triple_get_bind fun m hm => ?_
  split
  next hfull =>
    have hdispatch := dispatchCurrentBlock_triple m hm
    exact hdispatch.mono (fun _ _ ⟨next, hnil, hat⟩ => ⟨next, hat, fun _ => hnil⟩)
  next hfull =>
    rw [not_or, not_not] at hfull
    exact ⟨builder, hm, fun hne => absurd hfull.1 hne⟩

theorem appendWords_triple (fuel : Nat) (arriving : List Word) :
    Triple (fun m => ∃ builder, At checksum intact False 0 ⟨builder, arriving, later⟩ m ∧
        2 * arriving.length + (if builder.words = [] then 0 else 1) < fuel)
      (appendWords checksum fuel arriving)
      (fun _ m => ∃ builder, At checksum intact False 0 ⟨builder, [], later⟩ m)
      (Failed checksum intact False) := by
  induction fuel generalizing arriving with
  | zero =>
    rintro m ⟨builder, -, hlt⟩
    exact absurd hlt (Nat.not_lt_zero _)
  | succ fuel ih =>
    rintro m ⟨builder, hm, hlt⟩
    cases arriving with
    | nil => exact ⟨builder, hm⟩
    | cons word rest =>
      obtain ⟨accepted, next, hextend, hprogress, filled, hat⟩ := extendBuilder_outcome hm
      show Outcome _ _ ((extendBuilder (word :: rest) >>= _) m)
      rw [Prog.bind_of_ok hextend]
      refine Outcome.bind (dispatchIfFull_triple next hat) fun _ => ?_
      refine (ih ((word :: rest).drop accepted)).mono_pre ?_
      rintro m' ⟨last, hlast, hnil⟩
      refine ⟨last, hlast, ?_⟩
      have hlen : ((word :: rest).drop accepted).length = (word :: rest).length - accepted := List.length_drop
      by_cases hdone : (word :: rest).drop accepted = []
      · rw [hdone]
        simp only [List.length_nil, List.length_cons] at hlt ⊢
        split <;> omega
      · have hpos : 0 < ((word :: rest).drop accepted).length := List.length_pos_iff.mpr hdone
        rw [if_pos (hnil hdone)]
        by_cases hempty : builder.words = []
        · have := hprogress hempty (by simp)
          omega
        · rw [if_neg hempty] at hlt
          omega

theorem appendBatchInner_triple (words : List Word) :
    Triple (fun m => ∃ builder, At checksum intact False 0 ⟨builder, [], words ++ later⟩ m)
      (appendBatchInner checksum words)
      (fun _ m => ∃ builder, At checksum intact False 0 ⟨builder, [], later⟩ m)
      (Failed checksum intact False) := by
  rintro m ⟨builder, hm⟩
  have hloop : Triple (At checksum intact False 0 ⟨builder, words, later⟩)
      (appendWords checksum (2 * words.length + 2) words)
      (fun _ m => ∃ builder, At checksum intact False 0 ⟨builder, [], later⟩ m)
      (Failed checksum intact False) := by
    refine (appendWords_triple _ words).mono_pre fun m hm => ⟨builder, hm, ?_⟩
    split <;> omega
  refine Outcome.bind (drainCompletedBlocks_triple m hm) fun _ => ?_
  refine Triple.bind ((checkOrder_triple words []).mono_pre fun _ h => h.1) fun _ => hloop.bind fun _ => ?_
  rintro m' ⟨last, hlast⟩
  exact (drainCompletedBlocks_triple m' hlast).mono fun _ _ h => ⟨last, h.1⟩

theorem SegmentLinked.congr {store other : Store} {next : Nat} {active : Option ActiveSegment}
    (h : SegmentLinked store next active) (hd : other.state.directory = store.state.directory)
    (hp : other.pendingBlocks = store.pendingBlocks) : SegmentLinked other next active := by
  cases active with
  | none =>
    show next = segmentCount other.state.directory
    rw [hd]
    exact h
  | some segment =>
    obtain ⟨hnext, hopen⟩ := h
    refine ⟨hnext, hopen.staged, hopen.small, ?_, ?_, ?_⟩
    · rw [hd]
      exact hopen.place
    · rw [hd]
      exact hopen.entries
    · rw [hd, hp]
      exact hopen.pending

theorem At.all_committed (h : At checksum intact calm 0 intake m) (hi : intact)
    (ho : m.writer.outstandingBlocks = 0) : m.dispatched.length = m.writer.nextSequence := by
  have hcount := h.linked.count
  have hflight := h.linked.inFlight
  have hle := h.stored.length_le
  have hcommitted := h.linked.committed
  by_contra hne
  have hmem := (h.tracked hi).accounted m.writer.nextSequence le_rfl (by omega)
  unfold Writer.outstandingBlocks at ho
  have hjobs : m.writer.jobs = [] := List.length_eq_zero_iff.mp (by omega)
  have hprepared : m.writer.preparedBlocks = [] := List.length_eq_zero_iff.mp (by omega)
  simp [Writer.outstandingSequences, hjobs, hprepared] at hmem

theorem At.front_eq (h : At checksum intact calm 0 intake m) (hi : intact)
    (ho : m.writer.outstandingBlocks = 0) : m.front = intake.builder.words := by
  have hnone : m.dispatched[m.writer.nextSequence]? = none :=
    List.getElem?_eq_none_iff.mpr (h.all_committed hi ho).le
  simp [Machine.front, hnone, h.linked.builder]

theorem publishHotTailInner_triple :
    Triple (fun m => At checksum intact calm 0 intake m ∧ m.writer.outstandingBlocks = 0) publishHotTailInner
      (fun _ => At checksum intact calm 0 intake) (Failed checksum intact calm) := by
  rintro m ⟨hm, ho⟩
  have hstored : Stored checksum { m.store with state := { m.store.state with
      hotTail := m.writer.builder.words, generation := m.store.state.generation + 1 } } m.dispatched :=
    hm.stored.of_readable rfl fun _ _ _ _ hr => hr
  have hbuilder : m.writer.builder.words = intake.builder.words := by rw [hm.linked.builder]
  have hlinked : Linked checksum intake { m.writer with wordsSinceTailPublish := 0 } { m.store with
      state := { m.store.state with
        hotTail := m.writer.builder.words, generation := m.store.state.generation + 1 } } m.dispatched :=
    ⟨hm.linked.count, hm.linked.builder, hm.linked.sized, hm.linked.ordered, hm.linked.recent,
      hm.linked.available, hm.linked.jobs, hm.linked.prepared, hm.linked.inFlight, hm.linked.distinct,
      hm.linked.committed, hm.linked.dataOffset, hm.linked.segment.congr rfl rfl, hm.linked.room⟩
  -- The new tail is all of the builder, of which the old one was the start.
  have hgrow : intact → m.observe.visible <+:
      (m.dispatched.take m.store.state.directory.length).flatMap (·.words) ++ m.writer.builder.words := by
    intro hi
    have htail := (hm.tracked hi).tail
    rw [hm.front_eq hi ho, ← hbuilder] at htail
    exact (List.prefix_append_right_inj _).mpr htail
  have hle : intact → (m.dispatched.take m.store.state.directory.length).flatMap (·.words) ++
      m.writer.builder.words <+: m.appended := by
    intro hi
    have hall := hm.all_committed hi ho
    rw [(hm.tracked hi).appended, hm.linked.committed, ← hall, List.take_length, hbuilder]
    exact (List.prefix_append_right_inj _).mpr intake.builder_le
  refine ⟨hstored, hm.live, hlinked, hm.fresh, hm.recorded.touch hstored (fun hi _ => hle hi) ?_, fun hi => ?_,
    hm.quiet, hm.encodes⟩
  · exact fun hi _ earlier hmem he => ((hm.tracked hi).current earlier hmem he).trans (hgrow hi)
  · have ht := hm.tracked hi
    refine ⟨ht.accounted, ht.appended, ?_, ?_⟩
    · show m.writer.builder.words <+: m.front
      simp only [hm.front_eq hi ho, hbuilder, List.prefix_rfl]
    · intro o hmem hshown
      rcases List.mem_append.mp hmem with hmem | hmem
      · exact (ht.current o hmem hshown).trans (hgrow hi)
      · rw [List.mem_singleton.mp hmem]
        exact List.prefix_rfl

theorem publishAppendedPrefix_triple :
    Triple (At checksum intact False 0 intake) (publishAppendedPrefix checksum)
      (fun _ => At checksum intact False 0 intake) (Failed checksum intact False) := by
  refine drainCompletedBlocks_triple.bind fun _ => ?_
  rintro m ⟨hm, -⟩
  rw [Prog.bind_of_ok (show ask m = (.ok (m.choices 0), m.shift) from rfl),
    Prog.bind_of_ok (show Prog.get m.shift = (.ok m.shift, m.shift) from rfl)]
  show Outcome _ _ ((if _ then publishHotTailInner else pure ()) m.shift)
  split
  next hc => exact publishHotTailInner_triple m.shift ⟨hm.shift, hc.1⟩
  next hc => exact hm.shift

theorem appendBatchesInner_triple (batches : List (List Word)) :
    Triple (fun m => ∃ builder, At checksum intact False 0 ⟨builder, [], batches.flatten⟩ m)
      (appendBatchesInner checksum batches)
      (fun _ m => ∃ builder, At checksum intact False 0 ⟨builder, [], []⟩ m)
      (Failed checksum intact False) := by
  have hbatches : Triple (fun m => ∃ builder, At checksum intact False 0 ⟨builder, [], batches.flatten⟩ m)
      (batches.forM (appendBatchInner checksum))
      (fun _ m => ∃ builder, At checksum intact False 0 ⟨builder, [], []⟩ m)
      (Failed checksum intact False) := by
    induction batches with
    | nil => exact triple_pure fun m hm => hm
    | cons batch rest ih => exact (appendBatchInner_triple batch).bind fun _ => ih
  refine hbatches.bind fun _ => ?_
  rintro m ⟨builder, hm⟩
  exact (publishAppendedPrefix_triple m hm).mono fun _ _ h => ⟨builder, h⟩

theorem At.note (h : At checksum intact False 0 ⟨builder, [], []⟩ m) (words : List Word) :
    At checksum intact False 0 ⟨builder, [], words⟩ { m with appended := m.appended ++ words } := by
  refine ⟨h.stored, h.live, ⟨h.linked.count, h.linked.builder, h.linked.sized, h.linked.ordered, h.linked.recent,
    h.linked.available, h.linked.jobs, h.linked.prepared, h.linked.inFlight, h.linked.distinct,
    h.linked.committed, h.linked.dataOffset, h.linked.segment, h.linked.room⟩, h.fresh, h.recorded,
    fun hi => ?_, False.elim, False.elim⟩
  have ht := h.tracked hi
  refine ⟨ht.accounted, ?_, ht.tail, ht.current⟩
  show m.appended ++ words = _
  rw [ht.appended]
  simp [Intake.words]

end Append

end LogicConduit
