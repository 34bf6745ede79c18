import LogicConduit.WordFinish

namespace LogicConduit

open Prog

/-- What holds between two calls. -/
structure Resting (checksum : BlockChecksum) (intact : Prop) (m : Machine) : Prop where
  stored : m.store.state.status ≠ .cancelled → Stored checksum m.store m.dispatched
  live : m.store.state.status = .live → ∃ builder, At checksum intact False 0 ⟨builder, [], []⟩ m
  finished : intact → m.store.state.status = .finished →
    m.store.state.hotTail = [] ∧ m.observe.visible = m.appended

/-- What a call leaves, with all that readers found during it. -/
structure Left (checksum : BlockChecksum) (intact : Prop) (m : Machine) : Prop where
  resting : Resting checksum intact m
  kept : m.store.state.status ≠ .cancelled
  recorded : Recorded checksum intact m.history
  current : intact → ∀ o ∈ m.history, o.shown → m.observe.shown → o.visible <+: m.observe.visible

/-- No block can be lost in a call to publish the hot tail: none is outstanding, or nothing goes wrong
with those that are. -/
def Machine.Calm (checksum : BlockChecksum) (m : Machine) : Prop :=
  m.writer.outstandingBlocks = 0 ∨ (∀ n, (m.choices n).Quiet) ∧
    ∀ (k : Nat) builder, m.writer.nextSequence ≤ k → m.dispatched[k]? = some builder →
      ∃ result, builder.encode checksum (UInt64.ofNat k) = .ok result

def CallFailed (checksum : BlockChecksum) (intact clean : Prop) : Halt → Machine → Prop
  | .error _, m => Left checksum intact m ∧ (clean → ∃ message, m.store.state.status = .failed message)
  | .blocked, m => ¬intact ∧ Recorded checksum intact m.history
  | .panicked, m => Recorded checksum intact m.history

section Calls

variable {checksum : BlockChecksum} {intact : Prop} {m : Machine}

theorem At.start {builder : WordBlockBuilder} (h : At checksum intact False 0 ⟨builder, [], []⟩ m)
    (choices : Nat → Choice) {calm : Prop} (hquiet : calm → ∀ n, (choices n).Quiet)
    (hencodes : calm → ∀ (k : Nat) block, m.writer.nextSequence ≤ k → m.dispatched[k]? = some block →
      ∃ result, block.encode checksum (UInt64.ofNat k) = .ok result) :
    At checksum intact calm 0 ⟨builder, [], []⟩ (m.start choices) := by
  have hrecorded : Recorded checksum intact [m.observe] := by
    refine ⟨?_, fun hi => ⟨?_, List.pairwise_singleton _ _⟩⟩
    · intro o ho
      rw [List.mem_singleton.mp ho]
      exact h.stored
    · intro o ho _
      rw [List.mem_singleton.mp ho]
      exact visible_le_appended (h.tracked hi) h.linked
  refine ⟨h.stored, h.live, h.linked, h.fresh, hrecorded, fun hi => ?_, hquiet, hencodes⟩
  have ht := h.tracked hi
  refine ⟨ht.accounted, ht.appended, ht.tail, ?_⟩
  intro o ho _
  rw [List.mem_singleton.mp ho]
  exact List.prefix_rfl

theorem At.drop_intake {intake : Intake} (h : At checksum False False 0 intake m) (hn : ¬intact) :
    At checksum intact False 0 ⟨intake.builder, [], []⟩ m := by
  have hl := h.linked
  have hwords : (Intake.taken ⟨intake.builder, [], []⟩ m.dispatched).Sublist (intake.taken m.dispatched) := by
    simp [Intake.taken]
  refine ⟨h.stored, h.live, ⟨hl.count, hl.builder, hl.sized, ?_, ?_, hl.available, hl.jobs, hl.prepared,
    hl.inFlight, hl.distinct, hl.committed, hl.dataOffset, hl.segment, hl.room⟩, h.fresh,
    ⟨h.recorded.stored, fun hi => absurd hi hn⟩, fun hi => absurd hi hn, False.elim, False.elim⟩
  · exact hl.ordered.sublist hwords
  · intro word hm
    exact hl.recent word (hwords.subset hm)

variable {builder : WordBlockBuilder}

theorem At.left {calm : Prop} (h : At checksum intact calm 0 ⟨builder, [], []⟩ m) :
    Left checksum intact m := by
  have hat : At checksum intact False 0 ⟨builder, [], []⟩ m :=
    ⟨h.stored, h.live, h.linked, h.fresh, h.recorded, h.tracked, False.elim, False.elim⟩
  refine ⟨⟨fun _ => h.stored, fun _ => ⟨builder, hat⟩, ?_⟩, by simp [h.live], h.recorded, ?_⟩
  · intro _ hstatus
    rw [h.live] at hstatus
    cases hstatus
  · intro hi o hm hshown _
    exact (h.tracked hi).current o hm hshown

theorem Finished.left {persistence : Option CacheKey} (h : Finished checksum intact persistence m) :
    Left checksum intact m := by
  refine ⟨⟨fun _ => h.stored, ?_, fun hi _ => h.complete hi⟩, by simp [h.status], h.recorded, ?_⟩
  · intro hstatus
    rw [h.status] at hstatus
    cases hstatus
  · intro hi o hm hshown _
    exact h.current hi o hm hshown

variable {clean : Prop}

theorem Halted.failMachine (halt : Halt) (m : Machine) (h : Halted checksum intact halt m) :
    CallFailed checksum intact clean halt (LogicConduit.failMachine halt m) := by
  cases halt with
  | blocked => exact h
  | panicked => exact h
  | error e =>
    obtain ⟨hrecorded, hstored, hlive⟩ := h
    have hmark : m.store.markFailed e.display = { m.store with state := { m.store.state with
        status := .failed e.display, hotTail := [], generation := m.store.state.generation + 1 } } := by
      unfold Store.markFailed
      rw [hlive]
    have hstatus : (m.store.markFailed e.display).state.status = .failed e.display := by rw [hmark]
    have hkept : Stored checksum (m.store.markFailed e.display) m.dispatched := by
      rw [hmark]
      exact hstored.of_readable rfl fun _ _ _ _ hr => hr
    have hhidden : ¬(m.touch (·.markFailed e.display)).observe.shown := by
      intro hshown
      have hshown : (m.store.markFailed e.display).state.status = .live ∨
        (m.store.markFailed e.display).state.status = .finished := hshown
      rw [hstatus] at hshown
      rcases hshown with hs | hs <;> cases hs
    refine ⟨⟨⟨fun _ => hkept, ?_, ?_⟩, ?_, hrecorded.touch hkept ?_ ?_, ?_⟩, fun _ => ⟨_, hstatus⟩⟩
    · intro hs
      exact absurd (hstatus.symm.trans hs) (by simp)
    · intro _ hs
      exact absurd (hstatus.symm.trans hs) (by simp)
    · intro hs
      exact absurd (hstatus.symm.trans hs) (by simp)
    · intro _ hshown
      exact absurd hshown hhidden
    · intro _ hshown
      exact absurd hshown hhidden
    · intro _ o _ _ hshown
      exact absurd hshown hhidden

variable {program : WriterM Unit}

theorem onError_outcome (h : Outcome (fun _ => Left checksum intact) (Halted checksum intact) (program m)) :
    Outcome (fun _ => Left checksum intact) (CallFailed checksum intact clean)
      (program.onError LogicConduit.failMachine m) := by
  have htriple : Triple (fun s => s = m) program (fun _ => Left checksum intact) (Halted checksum intact) := by
    intro s hs
    rw [hs]
    exact h
  exact htriple.onError Halted.failMachine m rfl

theorem ensureLive_bind (hlive : m.store.state.status = .live) :
    (ensureLive >>= fun _ => program) m = program m := by
  apply Prog.bind_of_ok
  unfold ensureLive
  rw [if_pos hlive]

theorem noteAppended_bind (words : List Word) :
    (noteAppended words >>= fun _ => program) m = program { m with appended := m.appended ++ words } :=
  Prog.bind_of_ok rfl

theorem appendBatches_outcome (batches : List (List Word)) (h : At checksum intact False 0 ⟨builder, [], []⟩ m) :
    Outcome (fun _ => Left checksum intact) (CallFailed checksum intact clean)
      (appendBatches checksum batches m) := by
  unfold appendBatches
  rw [ensureLive_bind h.live, noteAppended_bind]
  apply onError_outcome
  refine (appendBatchesInner_triple batches _ ⟨builder, h.note batches.flatten⟩).weaken ?_ Failed.halted
  intro _ m' hleft
  obtain ⟨last, hlast⟩ := hleft
  exact hlast.left

theorem appendBatch_outcome (words : List Word) (h : At checksum intact False 0 ⟨builder, [], []⟩ m) :
    Outcome (fun _ => Left checksum intact) (CallFailed checksum intact clean) (appendBatch checksum words m) := by
  unfold appendBatch
  rw [ensureLive_bind h.live, noteAppended_bind]
  apply onError_outcome
  have hnoted : At checksum intact False 0 ⟨builder, [], words ++ []⟩ { m with appended := m.appended ++ words } := by
    rw [List.append_nil]
    exact h.note words
  refine Outcome.bind ((appendBatchInner_triple words _ ⟨builder, hnoted⟩).weaken (fun _ _ ha => ha)
    Failed.halted) fun _ => ?_
  intro m' hnext
  obtain ⟨last, hlast⟩ := hnext
  exact (publishAppendedPrefix_triple m' hlast).weaken (fun _ _ ha => ha.left) Failed.halted

section

variable (h : At checksum intact False 0 ⟨builder, [], []⟩ m)
include h

theorem publishHotTail_outcome {choices : Nat → Choice}
    (hi : intact → clean) (hc : clean → (m.start choices).Calm checksum) :
    Outcome (fun _ => Left checksum intact) (CallFailed checksum intact clean)
      (publishHotTail checksum (m.start choices)) := by
  unfold publishHotTail
  rw [ensureLive_bind (show (m.start choices).store.state.status = .live from h.live)]
  by_cases hzero : m.writer.outstandingBlocks = 0
  · have hflush : flushDispatchedBlocks checksum (m.start choices) = (.ok (), m.start choices) := by
      unfold flushDispatchedBlocks
      rw [Prog.bind_of_ok (show Prog.get (m.start choices) = (.ok (m.start choices), m.start choices) from rfl)]
      unfold whileLoop
      have hidle : (m.start choices).writer.outstandingBlocks = 0 := hzero
      exact if_neg (by simpa using hidle)
    rw [Prog.bind_of_ok hflush]
    have hat : At checksum intact False 0 ⟨builder, [], []⟩ (m.start choices) :=
      h.start choices False.elim False.elim
    exact At.left (publishHotTailInner_triple (m.start choices) ⟨hat, hzero⟩)
  · -- With a block outstanding a clean call is a calm one.
    have hcalm : clean → (∀ n, (choices n).Quiet) ∧ ∀ (k : Nat) block, m.writer.nextSequence ≤ k →
        m.dispatched[k]? = some block → ∃ result, block.encode checksum (UInt64.ofNat k) = .ok result :=
      fun hclean => (hc hclean).resolve_left hzero
    have hat : At checksum intact clean 0 ⟨builder, [], []⟩ (m.start choices) :=
      h.start choices (fun hclean => (hcalm hclean).1) (fun hclean => (hcalm hclean).2)
    have hcall := (flushDispatchedBlocks_triple.bind fun _ => publishHotTailInner_triple) (m.start choices) hat
    refine hcall.weaken (fun _ _ ha => ha.left) ?_
    intro halt m' hfailed
    cases halt with
    | blocked => exact hfailed
    | panicked => exact hfailed
    | error e =>
      obtain ⟨hnot, hrecorded, intake, hdamaged⟩ := hfailed
      have hlost : ¬intact := fun hintact => hnot (hi hintact)
      exact ⟨(hdamaged.drop_intake hlost).left, fun hclean => absurd hclean hnot⟩

theorem finish_outcome :
    Outcome (fun _ m' => Left checksum intact m' ∧ Finished checksum intact m.writer.persistence m')
      (CallFailed checksum intact clean) (finish checksum m) := by
  unfold finish
  rw [ensureLive_bind h.live]
  have hinner : Triple (fun s => At checksum intact False 0 ⟨builder, [], []⟩ s ∧ Follows [] m s)
      ((finishInner checksum).onError failMachine) (fun _ => Finished checksum intact m.writer.persistence)
      (CallFailed checksum intact clean) :=
    (finishInner_triple [] m).onError Halted.failMachine
  exact (hinner m ⟨h, refl_of (Follows []) m⟩).mono fun _ _ hdone => ⟨hdone.left, hdone⟩

end

theorem WriterOp.run_outcome {choices : Nat → Choice} (op : WriterOp) (hop : op ≠ .cancel)
    (h : Resting checksum intact m) (hlive : m.store.state.status = .live) (hi : intact → clean)
    (hc : clean → op = .publishHotTail → (m.start choices).Calm checksum) :
    Outcome (fun _ => Left checksum intact) (CallFailed checksum intact clean)
      (op.run checksum (m.start choices)) := by
  obtain ⟨builder, hat⟩ := h.live hlive
  have hstart : At checksum intact False 0 ⟨builder, [], []⟩ (m.start choices) :=
    hat.start choices False.elim False.elim
  cases op with
  | append word => exact appendBatch_outcome [word] hstart
  | appendBatch words => exact appendBatch_outcome words hstart
  | appendBatches batches => exact appendBatches_outcome batches hstart
  | publishHotTail => exact publishHotTail_outcome hat hi (fun hclean => hc hclean rfl)
  | finish => exact (finish_outcome hstart).mono fun _ _ hdone => hdone.1
  | cancel => exact absurd rfl hop

theorem WriterOp.run_notLive (op : WriterOp) (hlive : m.store.state.status ≠ .live) :
    op.run checksum m = (.error (.error (.notLive m.store.state.status)), m) := by
  have hrefuse : ∀ program : Unit → WriterM Unit,
      (ensureLive >>= program) m = (.error (.error (.notLive m.store.state.status)), m) := by
    intro program
    apply Prog.bind_of_error
    unfold ensureLive
    rw [if_neg hlive]
  cases op with
  | append word => exact hrefuse _
  | appendBatch words => exact hrefuse _
  | appendBatches batches => exact hrefuse _
  | publishHotTail => exact hrefuse _
  | finish => exact hrefuse _
  | cancel => exact hrefuse _

theorem cancel_triple : Triple (fun m => m.store.state.status = .live) cancel
    (fun _ m => m.store.state.status = .cancelled) (fun _ _ => False) := by
  have hdiscard : Triple (fun _ => True) discardActiveSegment (fun _ _ => True) (fun _ _ => False) := by
    refine triple_get_bind ?_
    intro m _
    cases m.writer.activeSegment with
    | none => exact trivial
    | some segment => exact trivial
  have hset : ∀ f, Triple (fun _ => True) (setWriter f) (fun _ _ => True) (fun _ _ => False) :=
    fun f => triple_modify fun _ _ => trivial
  intro m hlive
  unfold cancel
  rw [ensureLive_bind hlive]
  refine (hset _).bind (fun _ => hdiscard.bind fun _ => ?_) m trivial
  exact fun m' _ => rfl

end Calls

theorem blockEncoderCount_pos (availableWorkers : Nat) : 0 < blockEncoderCount availableWorkers := by
  unfold blockEncoderCount maxBlockEncodersPerStore
  split <;> omega

variable {checksum : BlockChecksum}

theorem createWriter_at {intact : Prop} {config : LiveStoreConfig} {repository : Repository} {storeId : UInt64}
    {choice : Choice} {m : Machine} (h : createWriter config repository storeId choice = .ok m) :
    ∃ builder, At checksum intact False 0 ⟨builder, [], []⟩ m := by
  obtain ⟨-, -, h⟩ := except_bind_ok h
  obtain ⟨cleared, -, h⟩ := except_bind_ok h
  obtain ⟨builder, hnew, h⟩ := except_bind_ok h
  cases h
  have hbuilder : WordBlockBuilder.new config.block = .ok builder := by
    cases hb : WordBlockBuilder.new config.block with
    | error e =>
      rw [hb] at hnew
      cases hnew
    | ok other =>
      rw [hb] at hnew
      cases hnew
      rfl
  obtain ⟨hsized, hwords, -⟩ := WordBlockBuilder.new_sized hbuilder
  refine ⟨builder, ?_, rfl, ?_, ?_, ?_, ?_, False.elim, False.elim⟩
  · refine ⟨?_, List.Pairwise.nil, by simp, .nil, ?_, rfl, by simp [LiveState.new], rfl, by simp [LiveState.new], rfl, rfl, rfl⟩
    · intro other hm
      cases hm
    · intro k entry hk
      cases hk
  · refine ⟨rfl, rfl, hsized, ?_, ?_, ?_, ?_, ?_, rfl, List.nodup_nil, rfl, rfl, rfl,
      blockEncoderCount_pos _⟩
    · simp [Intake.taken, hwords, Ordered]
    · simp [Intake.taken, hwords]
    · intro other hm
      cases hm
    · intro job hm
      cases hm
    · intro prepared hm
      cases hm
  · intro k hk
    cases hk
  · refine ⟨?_, fun _ => ⟨?_, List.Pairwise.nil⟩⟩
    · intro o ho
      cases ho
    · intro o ho
      cases ho
  · intro _
    refine ⟨?_, ?_, List.nil_prefix, ?_⟩
    · intro k _ hk
      exact absurd hk (Nat.not_lt_zero _)
    · simp [Intake.words, hwords]
    · intro o ho
      cases ho

/-- A step of a run that finds the machine `m`. -/
structure Step.Of (checksum : BlockChecksum) (m : Machine) (step : Step) : Prop where
  before : step.before = m.start step.call.choices
  run : step.call.op.run checksum step.before = (step.result, step.after)

/-- A call to publish the hot tail of a live store is made when no block can be lost in it. -/
def Step.Clean (checksum : BlockChecksum) (step : Step) : Prop :=
  step.call.op = .publishHotTail → step.before.store.state.status = .live → step.before.Calm checksum

section Steps

variable {checksum : BlockChecksum} {intact : Prop} {m : Machine} {step : Step}

theorem Step.Of.notLive (hof : step.Of checksum m) (hlive : m.store.state.status ≠ .live) :
    step.result = .error (.error (.notLive m.store.state.status)) ∧ step.after = m.start step.call.choices := by
  have hrun := hof.run
  rw [hof.before, WriterOp.run_notLive step.call.op (m := m.start step.call.choices) hlive] at hrun
  obtain ⟨hresult, hafter⟩ := Prod.mk.inj hrun
  exact ⟨hresult.symm, hafter.symm⟩

theorem Step.Of.outcome (hof : step.Of checksum m) (h : Resting checksum intact m)
    (hlive : m.store.state.status = .live) (hop : step.call.op ≠ .cancel) (hi : intact → step.Clean checksum) :
    Outcome (fun _ => Left checksum intact) (CallFailed checksum intact (step.Clean checksum))
      (step.result, step.after) := by
  rw [← hof.run, hof.before]
  refine step.call.op.run_outcome hop h hlive hi ?_
  intro hclean hpublish
  have hcalm := hclean hpublish
  rw [hof.before] at hcalm
  exact hcalm hlive

section

variable (h : Resting checksum intact m)
include h

theorem Resting.start (choices : Nat → Choice) : Resting checksum intact (m.start choices) := by
  refine ⟨h.stored, ?_, h.finished⟩
  intro hlive
  obtain ⟨builder, hat⟩ := h.live hlive
  exact ⟨builder, hat.start choices False.elim False.elim⟩

theorem Resting.shown_le (hi : intact) (hs : m.observe.shown) : m.observe.visible <+: m.appended := by
  rcases hs with hlive | hfinished
  · obtain ⟨builder, hat⟩ := h.live hlive
    exact visible_le_appended (hat.tracked hi) hat.linked
  · simp only [(h.finished hi hfinished).2, List.prefix_rfl]

theorem Resting.start_left (hc : m.store.state.status ≠ .cancelled)
    (choices : Nat → Choice) : Left checksum intact (m.start choices) := by
  have honly : ∀ o ∈ (m.start choices).history, o = m.observe := fun o ho => List.mem_singleton.mp ho
  refine ⟨h.start choices, hc, ⟨?_, fun hi => ⟨?_, List.pairwise_singleton _ _⟩⟩, ?_⟩
  · intro o ho
    rw [honly o ho]
    exact h.stored hc
  · intro o ho hshown
    rw [honly o ho] at hshown ⊢
    exact h.shown_le hi hshown
  · intro hi o ho _ _
    rw [honly o ho]
    exact List.prefix_rfl

end

section

variable (hof : step.Of checksum m)
include hof

section

variable (h : Resting checksum intact m)
include h

theorem Step.Of.left
    (hc : m.store.state.status ≠ .cancelled) (hop : step.call.op ≠ .cancel) (hi : intact → step.Clean checksum)
    (hr : Halt.returned step.result = true) : Left checksum intact step.after := by
  by_cases hlive : m.store.state.status = .live
  · have hout := hof.outcome h hlive hop hi
    cases hres : step.result with
    | ok a =>
      rw [hres] at hout
      exact hout
    | error halt =>
      rw [hres] at hout hr
      cases halt with
      | error e => exact hout.1
      | blocked => cases hr
      | panicked => cases hr
  · rw [(hof.notLive hlive).2]
    exact h.start_left hc _

theorem Step.Of.recorded
    (hc : m.store.state.status ≠ .cancelled) (hop : step.call.op ≠ .cancel) (hi : intact → step.Clean checksum) :
    Recorded checksum intact step.after.history := by
  cases hr : Halt.returned step.result with
  | true => exact (hof.left h hc hop hi hr).recorded
  | false =>
    by_cases hlive : m.store.state.status = .live
    · have hout := hof.outcome h hlive hop hi
      cases hres : step.result with
      | ok a =>
        rw [hres] at hr
        cases hr
      | error halt =>
        rw [hres] at hout hr
        cases halt with
        | error e => cases hr
        | blocked => exact hout.2
        | panicked => exact hout
    · rw [(hof.notLive hlive).1] at hr
      cases hr

theorem Step.Of.finished (hop : step.call.op = .finish) (hok : step.result = .ok ()) :
    Finished checksum intact m.writer.persistence step.after := by
  by_cases hlive : m.store.state.status = .live
  · obtain ⟨builder, hat⟩ := h.live hlive
    have hstart : At checksum intact False 0 ⟨builder, [], []⟩ (m.start step.call.choices) :=
      hat.start _ False.elim False.elim
    have hout : Outcome _ (CallFailed checksum intact True) (finish checksum (m.start step.call.choices)) :=
      finish_outcome hstart
    have hrun := hof.run
    rw [hof.before, hop, hok] at hrun
    exact (hout.ok hrun).2
  · rw [(hof.notLive hlive).1] at hok
    cases hok

end

theorem Step.Of.cancelled (hop : step.call.op = .cancel) (hlive : m.store.state.status = .live) :
    step.result = .ok () ∧ step.after.store.state.status = .cancelled := by
  have hcancel := cancel_triple (m.start step.call.choices) hlive
  have hrun := hof.run
  rw [hof.before, hop] at hrun
  have hrun : cancel (m.start step.call.choices) = (step.result, step.after) := hrun
  rw [hrun] at hcancel
  cases hres : step.result with
  | ok a =>
    rw [hres] at hcancel
    exact ⟨rfl, hcancel⟩
  | error halt =>
    rw [hres] at hcancel
    exact hcancel.elim

theorem Step.Of.resting (h : Resting checksum intact m)
    (hi : intact → step.Clean checksum) (hr : Halt.returned step.result = true) :
    Resting checksum intact step.after := by
  by_cases hlive : m.store.state.status = .live
  · by_cases hop : step.call.op = .cancel
    · have hstatus := (hof.cancelled hop hlive).2
      refine ⟨fun hne => absurd hstatus hne, ?_, ?_⟩
      · intro hs
        rw [hstatus] at hs
        cases hs
      · intro _ hs
        rw [hstatus] at hs
        cases hs
    · have hne : m.store.state.status ≠ .cancelled := by
        rw [hlive]
        simp
      exact (hof.left h hne hop hi hr).resting
  · rw [(hof.notLive hlive).2]
    exact h.start _

theorem Step.Of.follows : Follows step.call.op.words (m.start step.call.choices) step.after := by
  have hfollows : Follows step.call.op.words step.before (step.call.op.run checksum step.before).2 :=
    step.call.op.run_moves _
  rw [hof.run, hof.before] at hfollows
  exact hfollows

theorem Step.Of.stored_at (h : Resting checksum False m)
    (hop : step.call.op ≠ .cancel) {o : Observation} (ho : o ∈ step.after.history)
    (hs : o.store.state.status ≠ .cancelled) : Stored checksum o.store o.dispatched := by
  by_cases hc : m.store.state.status = .cancelled
  · have hlive : m.store.state.status ≠ .live := by
      rw [hc]
      simp
    rw [(hof.notLive hlive).2] at ho
    rw [List.mem_singleton.mp ho] at hs
    exact absurd hc hs
  · exact (hof.recorded h hc hop False.elim).stored o ho

end

end Steps

theorem runCalls_cons (checksum : BlockChecksum) (call : Call) (rest : List Call) (m : Machine) :
    ∃ step, step.Of checksum m ∧ step.call = call ∧ runCalls checksum (call :: rest) m =
      step :: if Halt.returned step.result then runCalls checksum rest step.after else [] := by
  obtain ⟨result, after, hrun⟩ : ∃ result after, call.op.run checksum (m.start call.choices) = (result, after) :=
    ⟨_, _, rfl⟩
  refine ⟨⟨call, m.start call.choices, result, after⟩, ⟨rfl, hrun⟩, rfl, ?_⟩
  rw [runCalls, hrun]

theorem runCalls_call_mem (calls : List Call) (m : Machine) :
    ∀ step ∈ runCalls checksum calls m, step.call ∈ calls := by
  induction calls generalizing m with
  | nil =>
    intro step hm
    cases hm
  | cons call rest ih =>
    obtain ⟨first, -, hcall, hsteps⟩ := runCalls_cons checksum call rest m
    rw [hsteps]
    intro step hm
    rcases List.mem_cons.mp hm with heq | hm
    · rw [heq, hcall]
      exact List.mem_cons_self
    · split at hm
      · exact List.mem_cons_of_mem _ (ih _ step hm)
      · cases hm

theorem runCalls_invariant {P : Machine → Prop} {Q : Step → Prop}
    (hkeep : ∀ m step, P m → step.Of checksum m → Q step → Halt.returned step.result = true → P step.after)
    (calls : List Call) (m : Machine) (h : P m) (hq : ∀ step ∈ runCalls checksum calls m, Q step) :
    ∀ step ∈ runCalls checksum calls m, ∃ earlier, P earlier ∧ step.Of checksum earlier := by
  induction calls generalizing m with
  | nil =>
    intro step hm
    cases hm
  | cons call rest ih =>
    obtain ⟨first, hof, -, hsteps⟩ := runCalls_cons checksum call rest m
    rw [hsteps] at hq ⊢
    intro step hm
    rcases List.mem_cons.mp hm with heq | hm
    · rw [heq]
      exact ⟨m, h, hof⟩
    · cases hr : Halt.returned first.result with
      | false =>
        rw [hr] at hm
        cases hm
      | true =>
        rw [hr] at hm hq
        have hnext := hkeep m _ h hof (hq _ List.mem_cons_self) hr
        exact ih first.after hnext (fun later hl => hq later (List.mem_cons_of_mem _ hl)) step hm

section Created

variable {checksum : BlockChecksum} {intact : Prop} {config : LiveStoreConfig} {repository : Repository}
  {storeId : UInt64} {choice : Choice} {machine : Machine}

theorem createWriter_resting (h : createWriter config repository storeId choice = .ok machine) :
    Resting checksum intact machine ∧ machine.store.state.status ≠ .cancelled := by
  have hcreated : ∃ builder, At checksum intact False 0 ⟨builder, [], []⟩ machine := createWriter_at h
  obtain ⟨builder, hat⟩ := hcreated
  exact ⟨hat.left.resting, hat.left.kept⟩

theorem runCalls_resting (intact : Prop) (h : createWriter config repository storeId choice = .ok machine) (calls : List Call)
    (hclean : intact → ∀ step ∈ runCalls checksum calls machine, step.Clean checksum) :
    ∀ step ∈ runCalls checksum calls machine, ∃ m, Resting checksum intact m ∧ step.Of checksum m := by
  refine runCalls_invariant (Q := fun step => intact → step.Clean checksum) ?_ calls machine
    (createWriter_resting h).1 ?_
  · intro m step hm hof hc hr
    exact hof.resting hm hc hr
  · intro step hm hi
    exact hclean hi step hm

end Created

end LogicConduit
