import Mathlib.Data.List.Perm.Basic
import LogicConduit.WordCommit

namespace LogicConduit

open Prog

variable {writer : Writer} {store : Store} {dispatched : List WordBlockBuilder}

section Completions

variable {checksum : BlockChecksum} {intact calm : Prop} {intake : Intake} {m : Machine}

theorem Linked.setQueue (h : Linked checksum intake writer store dispatched) {jobs : List EncodeJob}
    {prepared : List (Nat × PreparedBlock)} {inFlight : Nat} (hj : ∀ job ∈ jobs, job ∈ writer.jobs)
    (hp : ∀ p ∈ prepared, ∃ builder, dispatched[p.1]? = some builder ∧ p.2 = prepareEncodedBlock checksum p.1 builder)
    (hi : inFlight = jobs.length) (hd : (jobs.map (·.sequence) ++ prepared.map (·.1)).Nodup) :
    Linked checksum intake { writer with jobs, preparedBlocks := prepared, inFlightBlocks := inFlight }
      store dispatched :=
  ⟨h.count, h.builder, h.sized, h.ordered, h.recent, h.available, fun job hm => h.jobs job (hj job hm), hp, hi,
    hd, h.committed, h.dataOffset, h.segment, h.room⟩

variable {position : Nat} {job : EncodeJob}

theorem jobs_perm {jobs : List EncodeJob} (hj : jobs[position]? = some job) :
    (jobs.map (·.sequence)).Perm (job.sequence :: (jobs.eraseIdx position).map (·.sequence)) := by
  obtain ⟨hlt, rfl⟩ := List.getElem?_eq_some_iff.mp hj
  exact ((List.getElem_cons_eraseIdx_perm hlt).map (fun job => EncodeJob.sequence job)).symm

theorem accepted_perm (hj : writer.jobs[position]? = some job) :
    ((writer.jobs.eraseIdx position).map (·.sequence) ++
      job.sequence :: writer.preparedBlocks.map (·.1)).Perm writer.outstandingSequences :=
  List.perm_middle.trans ((jobs_perm hj).symm.append_right _)

theorem acceptCompletedBlock_outcome {panics : Bool} (h : At checksum intact calm 0 intake m)
    (hj : m.writer.jobs[position]? = some job) (hp : calm → panics = false) :
    Outcome (fun _ m' => At checksum intact calm 0 intake m' ∧ m'.writer.backlog < m.writer.backlog)
      (Failed checksum intact calm)
      (acceptCompletedBlock (job.complete checksum panics).1 (job.complete checksum panics).2
        { m with writer := { m.writer with jobs := m.writer.jobs.eraseIdx position } }) := by
  have hlt := (List.getElem?_eq_some_iff.mp hj).1
  have herase : (m.writer.jobs.eraseIdx position).length = m.writer.jobs.length - 1 :=
    List.length_eraseIdx_of_lt hlt
  have hflight := h.linked.inFlight
  have hpositive : m.writer.inFlightBlocks ≠ 0 := by omega
  have hless : m.writer.inFlightBlocks - 1 = (m.writer.jobs.eraseIdx position).length := by omega
  have hsub : ∀ other ∈ m.writer.jobs.eraseIdx position, other ∈ m.writer.jobs :=
    fun other hm => List.mem_of_mem_eraseIdx hm
  have hperm := accepted_perm hj
  have hdistinct := hperm.nodup_iff.mpr h.linked.distinct
  unfold acceptCompletedBlock EncodeJob.complete
  rw [if_neg hpositive]
  cases panics with
  | true =>
    have hcalm : ¬calm := fun hc => by cases hp hc
    suffices hat : At checksum False False 0 intake _ from ⟨hcalm, h.recorded, intake, hat⟩
    refine ⟨h.stored, h.live, ?_, ?_, ⟨h.recorded.stored, False.elim⟩, False.elim, False.elim, False.elim⟩
    · refine h.linked.setQueue hsub h.linked.prepared hless ?_
      exact hdistinct.sublist (List.Sublist.append_left (List.sublist_cons_self _ _) _)
    · intro k hk
      refine h.fresh k (hperm.mem_iff.mp ?_)
      rcases List.mem_append.mp hk with hk | hk
      · exact List.mem_append_left _ hk
      · exact List.mem_append_right _ (List.mem_cons_of_mem _ hk)
  | false =>
    have habsent : ∀ p ∈ m.writer.preparedBlocks, p.1 ≠ job.sequence := by
      intro p hm hsame
      have hnodup := (List.nodup_cons.mp (List.nodup_append.mp hdistinct).2.1).1
      exact hnodup (List.mem_map.mpr ⟨p, hm, hsame⟩)
    have hfilter : m.writer.preparedBlocks.filter (·.1 ≠ job.sequence) = m.writer.preparedBlocks :=
      List.filter_eq_self.mpr fun p hm => by simpa using habsent p hm
    have hany : m.writer.preparedBlocks.any (·.1 = job.sequence) = false :=
      List.any_eq_false.mpr fun p hm => by simpa using habsent p hm
    simp only [Bool.false_eq_true, if_false, hany, hfilter]
    refine ⟨⟨h.stored, h.live, ?_, ?_, h.recorded, ?_, h.quiet, h.encodes⟩, ?_⟩
    · refine h.linked.setQueue hsub ?_ hless hdistinct
      intro p hm
      rcases List.mem_cons.mp hm with rfl | hm
      · exact ⟨job.builder, h.linked.jobs job (List.mem_of_getElem? hj), rfl⟩
      · exact h.linked.prepared p hm
    · exact fun k hk => h.fresh k (hperm.mem_iff.mp hk)
    · intro hi
      have ht := h.tracked hi
      exact ⟨fun k hge hlt => hperm.mem_iff.mpr (ht.accounted k hge hlt), ht.appended, ht.tail,
        ht.current⟩
    · simp only [Writer.backlog, List.length_cons, herase]
      omega

theorem takeCompletion_cases (checksum : BlockChecksum) (panics : Bool) (position : Nat) (m : Machine) :
    m.writer.jobs[position]? = none ∧ takeCompletion checksum panics position m = (.ok none, m) ∨
      ∃ job, m.writer.jobs[position]? = some job ∧
        takeCompletion checksum panics position m = (.ok (some (job.complete checksum panics)),
          { m with writer := { m.writer with jobs := m.writer.jobs.eraseIdx position } }) := by
  unfold takeCompletion
  cases hj : m.writer.jobs[position]? with
  | none => exact Or.inl ⟨rfl, rfl⟩
  | some job => exact Or.inr ⟨job, rfl, rfl⟩

theorem tryRecv_cases (checksum : BlockChecksum) (m : Machine) :
    tryRecv checksum m = (.ok none, m.shift) ∨
      ∃ position job, m.writer.jobs[position]? = some job ∧
        tryRecv checksum m = (.ok (some (job.complete checksum (m.choices 0).panics)),
          { m.shift with writer := { m.writer with jobs := m.writer.jobs.eraseIdx position } }) := by
  unfold tryRecv
  rw [Prog.bind_of_ok (show ask m = (.ok (m.choices 0), m.shift) from rfl)]
  cases (m.choices 0).completed with
  | none => exact Or.inl rfl
  | some position =>
    rcases takeCompletion_cases checksum (m.choices 0).panics position m.shift with
      ⟨-, ht⟩ | ⟨job, hj, ht⟩
    · exact Or.inl ht
    · exact Or.inr ⟨position, job, hj, ht⟩

theorem receiveReady_triple (fuel : Nat) :
    Triple (At checksum intact calm 0 intake) (receiveReady checksum fuel)
      (fun _ => At checksum intact calm 0 intake) (Failed checksum intact calm) := by
  induction fuel with
  | zero => exact triple_pure fun m hm => hm
  | succ fuel ih =>
    intro m hm
    show Outcome _ _ ((tryRecv checksum >>= _) m)
    rcases tryRecv_cases checksum m with ht | ⟨position, job, hj, ht⟩
    · rw [Prog.bind_of_ok ht]
      exact hm.shift
    · rw [Prog.bind_of_ok ht]
      have haccept := acceptCompletedBlock_outcome hm.shift hj (fun hcalm => (hm.quiet hcalm 0).1)
      exact Outcome.bind haccept fun _ => ih.mono_pre (fun _ hs => hs.1)

theorem drainCompletedBlocks_triple :
    Triple (At checksum intact calm 0 intake) (drainCompletedBlocks checksum)
      (fun _ m => At checksum intact calm 0 intake m ∧ m.writer.ready = false)
      (Failed checksum intact calm) := by
  refine triple_get_bind fun m hm => Outcome.bind (receiveReady_triple _ m hm) fun _ => ?_
  intro m' hm'
  have hcommit := commitOrderedBlocks_triple m'.writer.backlog False m' ⟨hm', rfl, False.elim⟩
  exact hcommit.mono (fun _ _ h => ⟨h.1, h.2.1⟩)

theorem At.jobs_ne_nil (h : At checksum intact calm 0 intake m) (hi : intact) (hr : m.writer.ready = false)
    (ho : 0 < m.writer.outstandingBlocks) : m.writer.jobs ≠ [] := by
  intro hnil
  have hflight := h.linked.inFlight
  rw [hnil, List.length_nil] at hflight
  unfold Writer.outstandingBlocks at ho
  obtain ⟨p, hp⟩ := List.exists_mem_of_length_pos (l := m.writer.preparedBlocks) (by omega)
  obtain ⟨builder, hb, -⟩ := h.linked.prepared p hp
  have hlt := (List.getElem?_eq_some_iff.mp hb).1
  have hge := h.fresh p.1 (List.mem_append_right _ (List.mem_map.mpr ⟨p, hp, rfl⟩))
  have hcount := h.linked.count
  have hnext := (h.tracked hi).accounted m.writer.nextSequence le_rfl (by omega)
  unfold Writer.outstandingSequences at hnext
  rw [hnil, List.map_nil, List.nil_append] at hnext
  obtain ⟨q, hq, hsame⟩ := List.mem_map.mp hnext
  have := List.any_eq_false.mp hr q hq
  simp [hsame] at this

theorem receiveCompletedBlock_triple (n : Nat) :
    Triple (fun m => At checksum intact calm 0 intake m ∧ m.writer.backlog = n ∧
        (intact → m.writer.jobs ≠ [])) (receiveCompletedBlock checksum)
      (fun _ m => At checksum intact calm 0 intake m ∧ m.writer.backlog < n)
      (Failed checksum intact calm) := by
  rintro m ⟨hm, rfl, hjobs⟩
  have hrecv : recv checksum m = takeCompletion checksum (m.choices 0).panics
      ((m.choices 0).completed.getD 0 % m.writer.jobs.length) m.shift := by
    unfold recv
    rw [Prog.bind_of_ok (show ask m = (.ok (m.choices 0), m.shift) from rfl)]
    rfl
  show Outcome _ _ ((recv checksum >>= _) m)
  rcases takeCompletion_cases checksum (m.choices 0).panics
    ((m.choices 0).completed.getD 0 % m.writer.jobs.length) m.shift with ⟨hj, ht⟩ | ⟨job, hj, ht⟩
  · rw [Prog.bind_of_ok (hrecv.trans ht)]
    refine ⟨fun hi => hjobs hi ?_, hm.recorded⟩
    have hle := List.getElem?_eq_none_iff.mp hj
    by_contra hne
    have hpos := List.length_pos_iff.mpr hne
    have hmod := Nat.mod_lt ((m.choices 0).completed.getD 0) hpos
    exact Nat.not_lt.mpr hle hmod
  · rw [Prog.bind_of_ok (hrecv.trans ht)]
    exact acceptCompletedBlock_outcome hm.shift hj (fun hcalm => (hm.quiet hcalm 0).1)

theorem receiveAndCommit_triple (n : Nat) :
    Triple (fun m => At checksum intact calm 0 intake m ∧ m.writer.backlog = n ∧
        (intact → m.writer.jobs ≠ [])) (receiveAndCommit checksum)
      (fun _ m => (At checksum intact calm 0 intake m ∧ m.writer.ready = false) ∧ m.writer.backlog < n)
      (Failed checksum intact calm) := by
  refine (receiveCompletedBlock_triple n).bind fun _ => ?_
  rintro m ⟨hm, hlt⟩
  have hcommit := commitOrderedBlocks_triple m.writer.backlog False m ⟨hm, rfl, False.elim⟩
  exact hcommit.mono (fun _ _ h => ⟨⟨h.1, h.2.1⟩, by omega⟩)

theorem flushDispatchedBlocks_triple :
    Triple (At checksum intact calm 0 intake) (flushDispatchedBlocks checksum)
      (fun _ m => At checksum intact calm 0 intake m ∧ m.writer.outstandingBlocks = 0)
      (Failed checksum intact calm) := by
  have hround : ∀ n, Triple (fun m => At checksum intact calm 0 intake m ∧
        decide (0 < m.writer.outstandingBlocks) = true ∧ m.writer.backlog = n) (flushRound checksum)
      (fun _ m => At checksum intact calm 0 intake m ∧ m.writer.backlog < n) (Failed checksum intact calm) := by
    intro n
    refine triple_get_bind ?_
    rintro m ⟨hm, ho, hn⟩
    show Outcome _ _ ((if m.writer.ready = true then commitOrderedBlocks else receiveAndCommit checksum) m)
    by_cases hr : m.writer.ready = true
    · rw [if_pos hr]
      have hcommit := commitOrderedBlocks_triple n True m ⟨hm, hn, fun _ => hr⟩
      exact hcommit.mono (fun _ _ h => ⟨h.1, h.2.2.2 trivial⟩)
    · rw [if_neg hr]
      have hnot : m.writer.ready = false := by simpa using hr
      have hreceive := receiveAndCommit_triple n m
        ⟨hm, hn, fun hi => hm.jobs_ne_nil hi hnot (of_decide_eq_true ho)⟩
      exact hreceive.mono (fun _ _ h => ⟨h.1.1, h.2⟩)
  refine triple_get_bind fun m hm => ?_
  refine Outcome.mono (triple_while hround (m.writer.backlog + 1) m ⟨hm, Nat.lt_succ_self _⟩) ?_
  exact fun _ _ h => ⟨h.1, by simpa using h.2⟩

theorem waitForRoom_triple :
    Triple (fun m => At checksum intact calm 0 intake m ∧ m.writer.ready = false) (waitForRoom checksum)
      (fun _ m => At checksum intact calm 0 intake m) (Failed checksum intact calm) := by
  have hround : ∀ n, Triple (fun m => (At checksum intact calm 0 intake m ∧ m.writer.ready = false) ∧
        decide (m.writer.maxOutstandingBlocks ≤ m.writer.outstandingBlocks) = true ∧ m.writer.backlog = n)
      (receiveAndCommit checksum)
      (fun _ m => (At checksum intact calm 0 intake m ∧ m.writer.ready = false) ∧ m.writer.backlog < n)
      (Failed checksum intact calm) := by
    intro n
    refine (receiveAndCommit_triple n).mono_pre ?_
    rintro m ⟨⟨hm, hr⟩, ho, hn⟩
    refine ⟨hm, hn, fun hi => hm.jobs_ne_nil hi hr ?_⟩
    have := hm.linked.room
    have := of_decide_eq_true ho
    omega
  refine triple_get_bind fun m hm => ?_
  exact Outcome.mono (triple_while hround (m.writer.backlog + 1) m ⟨hm, Nat.lt_succ_self _⟩)
    (fun _ _ h => h.1.1)

end Completions

section Dispatch

variable {checksum : BlockChecksum} {intact : Prop} {intake : Intake} {m : Machine}

def Intake.Fits (intake : Intake) (dispatched : List WordBlockBuilder) (lastTimestampNs : Option Nat) : Prop :=
  intake.builder.Sized ∧ Ordered (intake.taken dispatched) ∧
    ∀ word ∈ intake.taken dispatched, ∃ t, lastTimestampNs = some t ∧ word.time ≤ t

theorem Linked.fits (h : Linked checksum intake writer store dispatched) :
    intake.Fits dispatched writer.lastTimestampNs :=
  ⟨h.sized, h.ordered, h.recent⟩

variable {builder : WordBlockBuilder} {lastTimestampNs : Option Nat}

variable {next : Intake} {wordsSinceTailPublish : Nat}

theorem Linked.setIntake (h : Linked checksum intake writer store dispatched) (hn : builder = next.builder)
    (hf : next.Fits dispatched lastTimestampNs) :
    Linked checksum next { writer with builder, lastTimestampNs, wordsSinceTailPublish } store dispatched :=
  ⟨h.count, hn, hf.1, hf.2.1, hf.2.2, h.available, h.jobs, h.prepared, h.inFlight, h.distinct, h.committed,
    h.dataOffset, h.segment, h.room⟩

theorem At.setIntake (h : At checksum intact False 0 intake m) (hnext : builder = next.builder)
    (hf : next.Fits m.dispatched lastTimestampNs) (hw : next.words = intake.words)
    (hb : intake.builder.words <+: next.builder.words) :
    At checksum intact False 0 next { m with writer := { m.writer with
      builder, lastTimestampNs, wordsSinceTailPublish } } := by
  refine ⟨h.stored, h.live, h.linked.setIntake hnext hf, h.fresh, h.recorded, fun hi => ?_, False.elim, False.elim⟩
  have ht := h.tracked hi
  refine ⟨ht.accounted, ht.appended.trans (by rw [hw]), ?_, ht.current⟩
  have htail := ht.tail
  unfold Machine.front at htail ⊢
  cases hn : m.dispatched[m.writer.nextSequence]? with
  | none =>
    rw [hn, h.linked.builder] at htail
    exact htail.trans (hnext ▸ hb)
  | some block =>
    rw [hn] at htail
    exact htail

theorem Linked.closed (h : Linked checksum intake writer store dispatched) (hne : intake.builder.words ≠ []) :
    Closed intake.builder :=
  ⟨h.sized, hne, h.ordered.sublist ((List.sublist_append_left _ _).trans (List.sublist_append_right _ _))⟩

theorem Linked.replacement (h : Linked checksum intake writer store dispatched) :
    (writer.availableBuilders.head?.getD writer.builder.clear).Sized ∧
      (writer.availableBuilders.head?.getD writer.builder.clear).words = [] := by
  have havailable := h.available
  cases ha : writer.availableBuilders with
  | nil =>
    rw [h.builder]
    exact ⟨WordBlockBuilder.clear_sized h.sized, rfl⟩
  | cons first rest =>
    rw [ha] at havailable
    exact havailable first List.mem_cons_self

theorem Intake.Fits.sublist {dispatched others : List WordBlockBuilder} (h : intake.Fits dispatched lastTimestampNs)
    (hs : next.builder.Sized) (ht : (next.taken others).Sublist (intake.taken dispatched)) :
    next.Fits others lastTimestampNs :=
  ⟨hs, h.2.1.sublist ht, fun word hm => h.2.2 word (ht.subset hm)⟩

theorem Intake.taken_dispatch (dispatched : List WordBlockBuilder) (hb : builder.words = []) :
    Intake.taken ⟨builder, intake.arriving, intake.later⟩ (dispatched ++ [intake.builder]) =
      intake.taken dispatched := by
  simp [Intake.taken, hb]

theorem Intake.taken_drop (dispatched : List WordBlockBuilder) (hb : builder.words = []) :
    (Intake.taken ⟨builder, intake.arriving, intake.later⟩ dispatched).Sublist (intake.taken dispatched) := by
  simp [Intake.taken, hb]

/-- A block handed to the executor is accounted for: it is the next job. -/
theorem At.submit (h : At checksum intact False 0 intake m) (hne : intake.builder.words ≠ [])
    (hb : builder.Sized ∧ builder.words = []) {available : List WordBlockBuilder}
    (ha : ∀ other ∈ available, other ∈ m.writer.availableBuilders) (hroom : m.writer.nextDispatchSequence + 1 < 2 ^ 64)
    (choices : Nat → Choice) :
    At checksum intact False 0 ⟨builder, intake.arriving, intake.later⟩ { m with
      choices
      dispatched := m.dispatched ++ [intake.builder]
      writer := { m.writer with
        builder
        availableBuilders := available
        jobs := m.writer.jobs ++ [⟨m.writer.nextDispatchSequence, intake.builder⟩]
        inFlightBlocks := m.writer.inFlightBlocks + 1
        nextDispatchSequence := m.writer.nextDispatchSequence + 1
        wordsSinceTailPublish := 0 } } := by
  have hlinked := h.linked
  have hcount := hlinked.count
  have hfits : Intake.Fits ⟨builder, intake.arriving, intake.later⟩ (m.dispatched ++ [intake.builder])
      m.writer.lastTimestampNs := by
    apply hlinked.fits.sublist hb.1
    rw [Intake.taken_dispatch m.dispatched hb.2]
  have hold : ∀ (i : Nat) block, m.dispatched[i]? = some block →
      (m.dispatched ++ [intake.builder])[i]? = some block := by
    intro i block hi
    rw [List.getElem?_append_left (List.getElem?_eq_some_iff.mp hi).1]
    exact hi
  have hbelow : ∀ i ∈ m.writer.outstandingSequences, i < m.writer.nextDispatchSequence := by
    intro i hi
    rcases List.mem_append.mp hi with hi | hi
    · obtain ⟨job, hj, rfl⟩ := List.mem_map.mp hi
      have := (List.getElem?_eq_some_iff.mp (hlinked.jobs job hj)).1
      omega
    · obtain ⟨p, hp, rfl⟩ := List.mem_map.mp hi
      obtain ⟨block, hblock, -⟩ := hlinked.prepared p hp
      have := (List.getElem?_eq_some_iff.mp hblock).1
      omega
  have hperm : ((m.writer.jobs ++ [(⟨m.writer.nextDispatchSequence, intake.builder⟩ : EncodeJob)]).map
      (·.sequence) ++ m.writer.preparedBlocks.map (·.1)).Perm
        (m.writer.nextDispatchSequence :: m.writer.outstandingSequences) := by
    rw [List.map_append, List.append_assoc]
    exact List.perm_middle
  have hordered : Ordered ((m.dispatched ++ [intake.builder]).flatMap (·.words)) := by
    refine hlinked.ordered.sublist ?_
    rw [← Intake.taken_dispatch m.dispatched hb.2]
    exact List.sublist_append_left _ _
  refine ⟨h.stored.dispatch (hlinked.closed hne) hordered (by omega), h.live, ⟨?_, rfl, hfits.1, hfits.2.1, hfits.2.2,
    fun other hm => hlinked.available other (ha other hm), ?_, ?_, ?_, ?_, hlinked.committed,
    hlinked.dataOffset, hlinked.segment, hlinked.room⟩, ?_, h.recorded, fun hi => ?_, False.elim, False.elim⟩
  · show (m.dispatched ++ [intake.builder]).length = _
    rw [List.length_append, hcount]
    rfl
  · intro job hj
    rcases List.mem_append.mp hj with hj | hj
    · exact hold _ _ (hlinked.jobs job hj)
    · rw [List.mem_singleton.mp hj, ← hcount]
      exact List.getElem?_concat_length
  · intro p hp
    obtain ⟨block, hblock, heq⟩ := hlinked.prepared p hp
    exact ⟨block, hold _ _ hblock, heq⟩
  · show m.writer.inFlightBlocks + 1 = (m.writer.jobs ++ [_]).length
    rw [List.length_append, hlinked.inFlight]
    rfl
  · refine hperm.nodup_iff.mpr (List.nodup_cons.mpr ⟨fun hm => ?_, hlinked.distinct⟩)
    exact absurd (hbelow _ hm) (lt_irrefl _)
  · intro i hi
    rcases List.mem_cons.mp (hperm.mem_iff.mp hi) with rfl | hi
    · have hle := h.stored.length_le
      have hcommitted := hlinked.committed
      show m.writer.nextSequence + 0 ≤ m.writer.nextDispatchSequence
      omega
    · exact h.fresh i hi
  · have ht := h.tracked hi
    refine ⟨?_, ?_, ?_, ?_⟩
    · intro i hge hlt
      refine hperm.mem_iff.mpr ?_
      rcases Nat.lt_succ_iff_lt_or_eq.mp hlt with hlt | rfl
      · exact List.mem_cons_of_mem _ (ht.accounted i hge hlt)
      · exact List.mem_cons_self
    · show m.appended = (m.dispatched ++ [intake.builder]).flatMap _ ++ (builder.words ++ _ ++ _)
      rw [ht.appended, hb.2, List.flatMap_append]
      simp [Intake.words]
    · have htail := ht.tail
      show m.store.state.hotTail <+: ((m.dispatched ++ [intake.builder])[m.writer.nextSequence]?.map _).getD _
      unfold Machine.front at htail
      cases hn : m.dispatched[m.writer.nextSequence]? with
      | some block =>
        rw [hn] at htail
        rw [hold _ _ hn]
        exact htail
      | none =>
        have hle := List.getElem?_eq_none_iff.mp hn
        have hlen := h.stored.length_le
        have hcommitted := hlinked.committed
        have heq : m.writer.nextSequence = m.dispatched.length := by omega
        rw [hn, hlinked.builder] at htail
        rw [heq, List.getElem?_concat_length]
        exact htail
    · intro o hm hshown
      have hcurrent := ht.current o hm hshown
      show o.visible <+: ((m.dispatched ++ [intake.builder]).take m.store.state.directory.length).flatMap _ ++
        m.store.state.hotTail
      rw [List.take_append_of_le_length h.stored.length_le]
      exact hcurrent

theorem submitBlock_triple :
    Triple (fun m => At checksum intact False 0 intake m ∧ intake.builder.words ≠ []) submitBlock
      (fun _ m => ∃ builder, builder.words = [] ∧
        At checksum intact False 0 ⟨builder, intake.arriving, intake.later⟩ m)
      (Failed checksum intact False) := by
  rintro m ⟨hm, hne⟩
  have hreplace := hm.linked.replacement
  have htail : ∀ other ∈ m.writer.availableBuilders.tail, other ∈ m.writer.availableBuilders :=
    fun other hmem => List.mem_of_mem_tail hmem
  unfold submitBlock
  cases hr : (m.choices 0).rejected with
  | some error =>
    simp only [hr]
    suffices hat : At checksum False False 0
        ⟨m.writer.availableBuilders.head?.getD m.writer.builder.clear, intake.arriving, intake.later⟩ _ from
      ⟨False.elim, hm.recorded, _, hat⟩
    have hfits := hm.linked.fits.sublist hreplace.1 (Intake.taken_drop m.dispatched hreplace.2)
    refine ⟨hm.stored, hm.live, ⟨hm.linked.count, rfl, hfits.1, hfits.2.1, hfits.2.2, fun other hmem => ?_,
      hm.linked.jobs, hm.linked.prepared, hm.linked.inFlight, hm.linked.distinct, hm.linked.committed,
      hm.linked.dataOffset, hm.linked.segment, hm.linked.room⟩, hm.fresh, ⟨hm.recorded.stored, False.elim⟩,
      False.elim, False.elim, False.elim⟩
    exact hm.linked.available other (htail other hmem)
  | none =>
    simp only [hr]
    split
    next ho => exact hm.recorded
    next ho =>
      rw [Nat.not_le] at ho
      have hat := hm.submit hne hreplace htail ho (fun n => m.choices (n + 1))
      rw [← hm.linked.builder] at hat
      exact ⟨_, hreplace.2, hat⟩

theorem dispatchCurrentBlock_triple :
    Triple (At checksum intact False 0 intake) (dispatchCurrentBlock checksum)
      (fun _ m => ∃ builder, builder.words = [] ∧
        At checksum intact False 0 ⟨builder, intake.arriving, intake.later⟩ m)
      (Failed checksum intact False) := by
  refine triple_get_bind fun m hm => ?_
  by_cases hne : m.writer.builder.words = []
  · rw [if_pos hne]
    rw [hm.linked.builder] at hne
    exact ⟨intake.builder, hne, hm⟩
  · rw [if_neg hne]
    rw [hm.linked.builder] at hne
    refine Outcome.bind (drainCompletedBlocks_triple m hm) fun _ => waitForRoom_triple.bind fun _ => ?_
    exact submitBlock_triple.mono_pre (fun _ hs => ⟨hs, hne⟩)

end Dispatch

end LogicConduit
