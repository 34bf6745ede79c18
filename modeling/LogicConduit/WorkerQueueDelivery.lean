import LogicConduit.WorkerQueueRuns

namespace LogicConduit

open WorkerOperationQueue

/-- A call up to the point where free workers are given work: everything is released, and a worker that is free
now had no request before, unless it was its own that the call ended. -/
structure Prepared (accepted dispatched : List WorkerRequest) (drained : List WorkerMessage) (completed : Option Nat)
    (before after : WorkerOperationQueue) : Prop extends Settles accepted dispatched drained before after where
  frees : ∀ index next, after.workers[index]? = some next → next.failed = false →
    ∃ worker, before.workers[index]? = some worker ∧ (worker.running = next.running ∨ completed = some index)

/-- A call that changes the queue and returns commands. -/
structure Serves (accepted dispatched : List WorkerRequest) (drained : List WorkerMessage) (completed : Option Nat)
    (before : WorkerOperationQueue) (outcome : WorkerOperationQueue × List WorkerHostCommand) : Prop where
  balanced : Balanced accepted (dispatched ++ outcome.2.filterMap WorkerHostCommand.started) drained outcome.1
  released : outcome.1.Released
  grows : before.Grows outcome.1
  assigned : ∀ index request, .run index request ∈ outcome.2 → ∃ worker next,
    before.workers[index]? = some worker ∧ outcome.1.workers[index]? = some next ∧ next.ready = true ∧
    next.failed = false ∧ next.running = some request.sequence ∧
    (worker.running = none ∨ completed = some index)

section Calls

variable {accepted dispatched : List WorkerRequest} {drained : List WorkerMessage} {completed : Option Nat}
  {before queue : WorkerOperationQueue}

theorem Prepared.dispatch (h : Prepared accepted dispatched drained completed before queue) :
    Serves accepted dispatched drained completed before queue.dispatchReadyWorkers := by
  refine ⟨h.balanced.dispatch, dispatch_released h.released, h.grows.trans (dispatch_grows queue), ?_⟩
  intro index request hmem
  obtain ⟨k, next, other, heq, hnext, hfree, hgiven⟩ :=
    (dispatchLoop_assigned queue.workers 0 queue.pending).given _ hmem
  cases heq
  rw [Nat.zero_add] at *
  obtain ⟨worker, hworker, hrunning⟩ := h.frees k next hnext hfree.2.1
  refine ⟨worker, _, hworker, hgiven, hfree.1, hfree.2.1, rfl, ?_⟩
  rcases hrunning with hsame | hcompleted
  · exact Or.inl (hsame.trans hfree.2.2)
  · exact Or.inr hcompleted

theorem Serves.unchanged (h : Balanced accepted dispatched drained queue) (hreleased : queue.Released) :
    Serves accepted dispatched drained completed queue (queue, []) := by
  refine ⟨by simpa using h, hreleased, .of_eq rfl rfl (fun _ hc => hc) rfl, ?_⟩
  intro index request hmem
  simp at hmem

theorem workerReady_serves (h : Balanced accepted dispatched drained queue) (hreleased : queue.Released) (index : Nat) :
    Serves accepted dispatched drained none queue (queue.workerReady index) := by
  have hsame : Prepared accepted dispatched drained none queue queue :=
    ⟨⟨h, hreleased, .of_eq rfl rfl (fun _ hc => hc) rfl⟩, fun _ next hnext _ => ⟨next, hnext, Or.inl rfl⟩⟩
  unfold workerReady
  split
  · next worker hworker =>
    split
    · exact hsame.dispatch
    · next hfailed =>
      apply Prepared.dispatch
      refine ⟨⟨h.setWorker hworker (fun hf => absurd hf hfailed) (Or.inr rfl) fun _ _ hr => Or.inl hr, hreleased,
        .of_eq rfl rfl (fun _ hc => hc) rfl⟩, ?_⟩
      intro k next hnext _
      rw [setWorker, List.getElem?_set] at hnext
      split at hnext
      · next heq =>
        subst heq
        split at hnext
        · cases hnext
          exact ⟨worker, hworker, Or.inl rfl⟩
        · cases hnext
      · exact ⟨next, hnext, Or.inl rfl⟩
  · exact hsame.dispatch

@[simp] theorem failPending_workers (requests : List WorkerRequest) (queue : WorkerOperationQueue) :
    (queue.failPending requests).workers = queue.workers := by
  induction requests generalizing queue with
  | nil => rfl
  | cons request rest ih => exact ih _

@[simp] theorem failActive_workers (queue : WorkerOperationQueue) (running : Option Nat) (error : WorkerFailure) :
    (queue.failActive running error).workers = queue.workers := by
  unfold failActive
  split
  · rfl
  · split
    · rfl
    · exact recordTerminal_workers _ _

@[simp] theorem failPendingIfUnavailable_workers (queue : WorkerOperationQueue) :
    queue.failPendingIfUnavailable.workers = queue.workers := by
  unfold failPendingIfUnavailable
  split
  · rw [releaseOrdered, releaseFrom_workers, failPending_workers]
  · rfl

theorem setWorker_frees {index : Nat} {worker next : WorkerState} (hworker : queue.workers[index]? = some worker)
    (hnext : next.failed = true ∨ completed = some index) :
    ∀ k found, (queue.setWorker index next).workers[k]? = some found → found.failed = false →
      ∃ other, queue.workers[k]? = some other ∧ (other.running = found.running ∨ completed = some k) := by
  intro k found hfound hok
  rw [setWorker, List.getElem?_set] at hfound
  split at hfound
  · next heq =>
    subst heq
    split at hfound
    · cases hfound
      rcases hnext with hfailed | hcompleted
      · exact absurd (hok.symm.trans hfailed) (by simp)
      · exact ⟨worker, hworker, Or.inr hcompleted⟩
    · cases hfound
  · exact ⟨found, hfound, Or.inl rfl⟩

theorem workerFailed_serves (h : Balanced accepted dispatched drained queue) (hreleased : queue.Released) (index : Nat)
    (error : WorkerFailure) : Serves accepted dispatched drained completed queue (queue.workerFailed index error) := by
  unfold workerFailed
  split
  · exact .unchanged h hreleased
  · next worker hworker =>
    have hactive := failActive_settles h hreleased hworker error
    have hpending := failPendingIfUnavailable_settles hactive.balanced hactive.released
    apply Prepared.dispatch
    refine ⟨⟨hpending.balanced, hpending.released, hactive.grows.trans hpending.grows⟩, ?_⟩
    rw [failPendingIfUnavailable_workers, failActive_workers]
    exact setWorker_frees hworker (Or.inl rfl)

theorem resultMessage_terminal (sequence : Nat) (result : Except WorkerFailure Bytes) :
    (resultMessage sequence result).terminalSequence = some sequence := by
  cases result <;> rfl

section

variable (h : Balanced accepted dispatched drained queue)
include h

theorem workerCompleted_serves (hreleased : queue.Released)
    (index : Nat) (reported : Option Nat) (result : Except WorkerFailure Bytes) :
    Serves accepted dispatched drained (some index) queue (queue.workerCompleted index reported result) := by
  unfold workerCompleted
  split
  · exact workerFailed_serves h hreleased index _
  · next worker hworker =>
    split
    · exact workerFailed_serves h hreleased index _
    · next running hrunning =>
      split
      · exact workerFailed_serves h hreleased index _
      · have hlost : worker.failed = true → worker.ready = false := fun hf =>
          (h.lost worker (List.mem_of_getElem? hworker) hf).1
        dsimp only
        split
        · next hrecord =>
          have hsettles := complete_settles h hworker hrunning (resultMessage_terminal running result)
            { worker with running := none } rfl hlost
          apply Prepared.dispatch
          refine ⟨hsettles, ?_⟩
          rw [recordTerminal_workers]
          exact setWorker_frees hworker (Or.inr rfl)
        · next hdone =>
          apply Prepared.dispatch
          refine ⟨⟨?_, hreleased, .of_eq rfl rfl (fun _ hc => hc) rfl⟩, setWorker_frees hworker (Or.inr rfl)⟩
          refine h.setWorker hworker (fun hf => ⟨hlost hf, rfl⟩) (Or.inl rfl) fun sequence hmem hr => ?_
          cases hrunning.symm.trans hr
          simp only [containsSequence, setWorker, Bool.and_eq_true, List.contains_iff_mem, Bool.not_eq_true',
            not_and, Bool.not_eq_false] at hdone
          exact Or.inr (h.withdrawn running (hdone hmem))

theorem cancel_serves (hreleased : queue.Released) (sequence : Nat) :
    Serves accepted dispatched drained none queue ((queue.cancel sequence).1, (queue.cancel sequence).2.2) := by
  unfold WorkerOperationQueue.cancel
  split
  · next hmem =>
    have hsettles := withdraw_settles h (List.contains_iff_mem.mp hmem)
    have hprepared : Prepared accepted dispatched drained none queue (queue.withdraw sequence) := by
      refine ⟨hsettles, fun k next hnext _ => ⟨next, ?_, Or.inl rfl⟩⟩
      rw [WorkerOperationQueue.withdraw, recordTerminal_workers] at hnext
      exact hnext
    have hserves := hprepared.dispatch
    have hcancels : ∀ command ∈ queue.cancelCommands sequence, command.started = none := by
      intro command hcommand
      obtain ⟨found, _, rfl⟩ := List.mem_map.mp hcommand
      rfl
    refine ⟨?_, hserves.released, hserves.grows, ?_⟩
    · have hnone : (queue.cancelCommands sequence).filterMap WorkerHostCommand.started = [] :=
        List.filterMap_eq_nil_iff.mpr hcancels
      simpa [List.filterMap_append, hnone] using hserves.balanced
    · intro index request hrun
      rcases List.mem_append.mp hrun with hcancel | hrun
      · exact absurd (hcancels _ hcancel) (by simp [WorkerHostCommand.started])
      · exact hserves.assigned index request hrun
  · exact .unchanged h hreleased

theorem submit_serves (hreleased : queue.Released)
    {request : WorkerRequest} (hrefusal : queue.refusal request = none) :
    Serves (accepted ++ [request]) dispatched drained none (queue.enqueue request)
      (queue.enqueue request).dispatchReadyWorkers := by
  have hbalanced := h.enqueue hrefusal
  have hfront : (queue.enqueue request).Released := by
    intro sequence hhead
    cases horder : queue.submissionOrder with
    | nil =>
      simp only [enqueue, horder, List.nil_append, List.head?_cons, Option.some.injEq] at hhead
      rw [← hhead]
      exact (hbalanced.waiting request (List.mem_append_right _ List.mem_cons_self)).2.2
    | cons first rest =>
      simp only [enqueue, horder, List.cons_append, List.head?_cons, Option.some.injEq] at hhead
      exact hreleased sequence (by rw [horder, ← hhead]; rfl)
  have hprepared : Prepared (accepted ++ [request]) dispatched drained none (queue.enqueue request)
      (queue.enqueue request) :=
    ⟨⟨hbalanced, hfront, .of_eq rfl rfl (fun _ hc => hc) rfl⟩, fun _ next hnext _ => ⟨next, hnext, Or.inl rfl⟩⟩
  exact hprepared.dispatch

theorem workerProgress_balanced (sequence done : Nat)
    (total : Option Nat) : Balanced accepted dispatched drained (queue.workerProgress sequence done total) := by
  unfold workerProgress
  split
  · next hcond =>
    simp only [Bool.and_eq_true, containsSequence, List.contains_iff_mem] at hcond
    refine ⟨?_, h.increasing, h.last, h.recorded, h.waiting, h.once, h.known, h.withdrawn, h.lost, h.active, h.served,
      h.bounded, ?_⟩
    · have horder := h.order
      have hnone : [WorkerMessage.progress sequence done total].filterMap WorkerMessage.terminalSequence = [] := rfl
      rw [← List.append_assoc, List.filterMap_append, hnone, List.append_nil]
      exact horder
    · simp only
      rw [← List.append_assoc]
      refine List.pairwise_append.mpr ⟨h.quiet, List.pairwise_singleton _ _, ?_⟩
      intro earlier hearlier later hlater other hother
      rw [List.mem_singleton.mp hlater]
      intro hsame
      cases hsame
      exact h.not_outstanding (List.mem_filterMap.mpr ⟨earlier, hearlier, hother⟩) hcond.1
  · exact h

end

end Calls

/-- The state of a queue between two calls. -/
structure QueueRun.Sound (run : QueueRun) : Prop where
  balanced : Balanced run.accepted run.dispatched run.drained run.queue
  released : run.queue.Released

/-- A request that was cancelled or released: there is nothing more to tell about it but its end. -/
def QueueRun.Settled (run : QueueRun) (sequence : Nat) : Prop :=
  sequence ∈ run.accepted.map WorkerRequest.sequence ∧
    (run.queue.cancelled sequence = true ∨ sequence ∉ run.queue.submissionOrder)

/-- What a call adds to a run. -/
structure QueueRun.Extends (run next : QueueRun) : Prop where
  messages : ∃ added, next.messages = run.messages ++ added ∧
    ∀ message ∈ added, ∀ sequence, message.progressSequence = some sequence → ¬run.Settled sequence
  settled : ∀ sequence, run.Settled sequence → next.Settled sequence
  limit : next.queue.maxOutstanding = run.queue.maxOutstanding

/-- What a call does to a run: the run stays sound, and every request that the call starts goes to a ready worker
that has not failed and had no active request, or ended it with this call. -/
structure QueueRun.Steps (run : QueueRun) (completed : Option Nat) (next : QueueRun) : Prop where
  sound : next.Sound
  grown : run.Extends next
  assigned : ∃ issued, next.commands = run.commands ++ issued ∧
    ∀ index request, .run index request ∈ issued → ∃ worker given,
      run.queue.workers[index]? = some worker ∧ next.queue.workers[index]? = some given ∧ given.ready = true ∧
      given.failed = false ∧ given.running = some request.sequence ∧
      (worker.running = none ∨ completed = some index)

section Runs

variable {run : QueueRun}

theorem Serves.steps {completed : Option Nat} {outcome : WorkerOperationQueue × List WorkerHostCommand}
    (hserves : Serves run.accepted run.dispatched run.drained completed run.queue outcome) :
    run.Steps completed (run.issue outcome) := by
  refine ⟨⟨?_, hserves.released⟩, ⟨?_, ?_, hserves.grows.limit⟩, ⟨outcome.2, rfl, hserves.assigned⟩⟩
  · have hdispatched : (run.issue outcome).dispatched =
        run.dispatched ++ outcome.2.filterMap WorkerHostCommand.started := List.filterMap_append
    rw [hdispatched]
    exact hserves.balanced
  · obtain ⟨added, hadded, hterminal⟩ := hserves.grows.delivered
    refine ⟨added, ?_, ?_⟩
    · simp only [QueueRun.messages, QueueRun.issue, hadded, List.append_assoc]
    · intro message hmem sequence hprogress
      rw [hterminal message hmem] at hprogress
      cases hprogress
  · rintro sequence ⟨hacc, hcancelled | hgone⟩
    · exact ⟨hacc, hserves.grows.cancelled sequence hcancelled⟩
    · exact ⟨hacc, Or.inr fun hmem => hgone (hserves.grows.order.subset hmem)⟩

theorem QueueRun.Sound.submit (h : run.Sound) (request : WorkerRequest) :
    run.Steps none (run.call (.submit request)) := by
  cases hrefusal : run.queue.refusal request with
  | some error =>
    have hcall : run.call (.submit request) = run.issue (run.queue, []) := by
      simp only [QueueRun.call, WorkerOperationQueue.submit, hrefusal]
    rw [hcall]
    exact Serves.steps (.unchanged h.balanced h.released)
  | none =>
    have hserves := submit_serves h.balanced h.released hrefusal
    have hcall : run.call (.submit request) =
        { run.issue (run.queue.enqueue request).dispatchReadyWorkers with accepted := run.accepted ++ [request] } := by
      simp only [QueueRun.call, WorkerOperationQueue.submit, hrefusal]
    have hdispatched : (run.call (.submit request)).dispatched =
        run.dispatched ++ (run.queue.enqueue request).dispatchReadyWorkers.2.filterMap WorkerHostCommand.started := by
      rw [hcall]
      exact List.filterMap_append
    refine ⟨⟨?_, ?_⟩, ⟨?_, ?_, ?_⟩, ?_⟩
    · rw [hdispatched, hcall]
      exact hserves.balanced
    · rw [hcall]
      exact hserves.released
    · refine ⟨[], ?_, by simp⟩
      rw [hcall, List.append_nil]
      rfl
    · rintro sequence ⟨hacc, hdone⟩
      rw [hcall]
      refine ⟨by rw [List.map_append]; exact List.mem_append_left _ hacc, ?_⟩
      rcases hdone with hcancelled | hgone
      · exact Or.inl hcancelled
      · right
        intro hmem
        rcases List.mem_append.mp (show sequence ∈ run.queue.submissionOrder ++ [request.sequence] from hmem) with
          hmem | hmem
        · exact hgone hmem
        · -- an accepted sequence is below the new one
          rw [List.mem_singleton.mp hmem] at hacc
          have hnodup := hserves.balanced.distinct
          rw [List.map_append] at hnodup
          exact (List.nodup_append.mp hnodup).2.2 _ hacc _ List.mem_cons_self rfl
    · rw [hcall]
      rfl
    · rw [hcall]
      exact ⟨_, rfl, hserves.assigned⟩

theorem QueueRun.Sound.progress (h : run.Sound) (sequence done : Nat) (total : Option Nat) :
    run.Steps none (run.call (.workerProgress sequence done total)) := by
  have hbalanced := workerProgress_balanced h.balanced sequence done total
  have hsame : (run.queue.workerProgress sequence done total).submissionOrder = run.queue.submissionOrder ∧
      (run.queue.workerProgress sequence done total).terminal = run.queue.terminal ∧
      (run.queue.workerProgress sequence done total).cancelled = run.queue.cancelled ∧
      (run.queue.workerProgress sequence done total).maxOutstanding = run.queue.maxOutstanding := by
    unfold workerProgress
    split
    · exact ⟨rfl, rfl, rfl, rfl⟩
    · exact ⟨rfl, rfl, rfl, rfl⟩
  refine ⟨⟨?_, ?_⟩, ⟨?_, ?_, hsame.2.2.2⟩, ⟨[], rfl, by simp⟩⟩
  · have hdispatched : (run.call (.workerProgress sequence done total)).dispatched = run.dispatched := by
      simp [QueueRun.call, QueueRun.issue, QueueRun.dispatched]
    rw [hdispatched]
    exact hbalanced
  · intro other hhead
    simp only [QueueRun.call, QueueRun.issue, hsame.1] at hhead
    simp only [QueueRun.call, QueueRun.issue, hsame.2.1]
    exact h.released other hhead
  · simp only [QueueRun.messages, QueueRun.call, QueueRun.issue, workerProgress]
    split
    · next hcond =>
      refine ⟨[.progress sequence done total], by simp, ?_⟩
      intro message hmem other hprogress
      rw [List.mem_singleton.mp hmem] at hprogress
      cases hprogress
      rintro ⟨_, hcancelled | hgone⟩
      · simp [hcancelled] at hcond
      · simp [containsSequence, hgone] at hcond
    · exact ⟨[], by simp, by simp⟩
  · rintro other ⟨hacc, hdone⟩
    refine ⟨hacc, ?_⟩
    simp only [QueueRun.call, QueueRun.issue, hsame.1, hsame.2.2.1]
    exact hdone

theorem QueueRun.Sound.drain (h : run.Sound) : run.Steps none (run.call .drainMessages) := by
  have hmessages : (run.call .drainMessages).messages = run.messages := by
    simp [QueueRun.messages, QueueRun.call, drainMessages]
  have hb := h.balanced
  refine ⟨⟨⟨?_, hb.increasing, hb.last, hb.recorded, hb.waiting, hb.once, hb.known, hb.withdrawn, hb.lost, hb.active,
    hb.served, hb.bounded, ?_⟩, h.released⟩, ⟨⟨[], by simp [hmessages], by simp⟩, fun _ hs => hs, rfl⟩,
    ⟨[], by simp [QueueRun.call], by simp⟩⟩
  · have horder := hb.order
    simpa [QueueRun.call, drainMessages] using horder
  · have hquiet := hb.quiet
    simpa only [QueueRun.call, drainMessages, List.append_nil] using hquiet

def QueueCall.completes : QueueCall → Option Nat
  | .workerCompleted index _ _ => some index
  | _ => none

theorem QueueRun.Sound.call (h : run.Sound) (call : QueueCall) : run.Steps call.completes (run.call call) := by
  cases call with
  | submit request => exact h.submit request
  | workerReady index => exact (workerReady_serves h.balanced h.released index).steps
  | workerProgress sequence done total => exact h.progress sequence done total
  | workerCompleted index reported result =>
    exact (workerCompleted_serves h.balanced h.released index reported result).steps
  | workerFailed index error => exact (workerFailed_serves h.balanced h.released index error).steps
  | cancel sequence => exact (cancel_serves h.balanced h.released sequence).steps
  | drainMessages => exact h.drain

theorem QueueRun.Extends.refl (run : QueueRun) : run.Extends run :=
  ⟨⟨[], by simp, by simp⟩, fun _ h => h, rfl⟩

theorem QueueRun.Sound.calls (h : run.Sound) (calls : List QueueCall) :
    (run.calls calls).Sound ∧ run.Extends (run.calls calls) := by
  induction calls generalizing run with
  | nil => exact ⟨h, .refl run⟩
  | cons call rest ih =>
    have hstep := h.call call
    obtain ⟨hsound, hrest⟩ := ih hstep.sound
    obtain ⟨added, hadded, hquiet⟩ := hstep.grown.messages
    obtain ⟨more, hmore, hsilent⟩ := hrest.messages
    refine ⟨hsound, ⟨added ++ more, ?_, ?_⟩, fun s hs => hrest.settled s (hstep.grown.settled s hs),
      hrest.limit.trans hstep.grown.limit⟩
    · rw [QueueRun.calls, hmore, hadded, List.append_assoc]
    · intro message hmem sequence hprogress hsettled
      rcases List.mem_append.mp hmem with hmem | hmem
      · exact hquiet message hmem sequence hprogress hsettled
      · exact hsilent message hmem sequence hprogress (hstep.grown.settled sequence hsettled)

theorem QueueRun.Sound.start {workerCount maxOutstanding : Nat} {operations : List String}
    {queue : WorkerOperationQueue} (h : WorkerOperationQueue.new workerCount maxOutstanding operations = .ok queue) :
    (QueueRun.start queue).Sound ∧ queue.maxOutstanding = maxOutstanding := by
  unfold WorkerOperationQueue.new at h
  split at h
  · cases h
  split at h
  · cases h
  cases h
  refine ⟨⟨⟨rfl, List.Pairwise.nil, ?_, ?_, ?_, List.nodup_nil, ?_, ?_, ?_, ?_, ?_, Nat.zero_le _, List.Pairwise.nil⟩,
    ?_⟩, rfl⟩
  all_goals simp [QueueRun.start, QueueRun.dispatched, WorkerState.default, Released]

variable {sequence : Nat} {worker : WorkerState}

theorem QueueRun.Sound.silent (h : run.Sound) (hdone : sequence ∈ run.messages.filterMap WorkerMessage.terminalSequence)
    (more : List QueueCall) :
    ∃ added, (run.calls more).messages = run.messages ++ added ∧ ∀ message ∈ added,
      message.terminalSequence ≠ some sequence ∧ message.progressSequence ≠ some sequence := by
  obtain ⟨hsound, hgrown⟩ := h.calls more
  obtain ⟨added, hadded, _⟩ := hgrown.messages
  refine ⟨added, hadded, fun message hmem => ⟨?_, ?_⟩⟩
  · intro hagain
    have hnodup := hsound.balanced.distinct
    have horder : (run.calls more).messages.filterMap WorkerMessage.terminalSequence ++
        (run.calls more).queue.submissionOrder = _ := hsound.balanced.order
    rw [← horder, hadded, List.filterMap_append] at hnodup
    have happend := List.nodup_append.mp (List.nodup_append.mp hnodup).1
    exact happend.2.2 sequence hdone sequence (List.mem_filterMap.mpr ⟨message, hmem, hagain⟩) rfl
  · have hquiet : (run.calls more).messages.Pairwise _ := hsound.balanced.quiet
    rw [hadded] at hquiet
    obtain ⟨earlier, hearlier, hterminal⟩ := List.mem_filterMap.mp hdone
    exact (List.pairwise_append.mp hquiet).2.2 earlier hearlier message hmem sequence hterminal

theorem QueueRun.Sound.released_of_active (h : run.Sound) (hworker : worker ∈ run.queue.workers)
    (hrunning : worker.running = some sequence) (hgone : sequence ∉ run.queue.submissionOrder) :
    sequence ∈ run.messages.filterMap WorkerMessage.terminalSequence := by
  obtain ⟨request, hrequest, rfl⟩ := List.mem_map.mp (h.balanced.active worker hworker sequence hrunning)
  have hmem : request.sequence ∈ run.messages.filterMap WorkerMessage.terminalSequence ++
      run.queue.submissionOrder := by
    have horder : run.messages.filterMap WorkerMessage.terminalSequence ++ run.queue.submissionOrder = _ :=
      h.balanced.order
    rw [horder]
    exact List.mem_map.mpr ⟨request, h.balanced.known request hrequest, rfl⟩
  exact (List.mem_append.mp hmem).resolve_right hgone

theorem QueueRun.Sound.cancelled (h : run.Sound) (hmem : sequence ∈ run.queue.submissionOrder) (more : List QueueCall) :
    ∃ added, ((run.call (.cancel sequence)).calls more).messages = run.messages ++ added ∧
      ∀ message ∈ added, message.progressSequence ≠ some sequence := by
  have hcontains : run.queue.containsSequence sequence = true := List.contains_iff_mem.mpr hmem
  have hqueue : (run.call (.cancel sequence)).queue = (run.queue.withdraw sequence).dispatchReadyWorkers.1 := by
    simp only [QueueRun.call, QueueRun.issue, WorkerOperationQueue.cancel, hcontains, if_true]
  -- the call marks the request, and takes the mark away only when it releases it
  have hsettled : (run.call (.cancel sequence)).Settled sequence := by
    refine ⟨?_, ?_⟩
    · show sequence ∈ run.accepted.map WorkerRequest.sequence
      rw [← h.balanced.order]
      exact List.mem_append_right _ hmem
    · rw [hqueue]
      exact withdraw_marks h.balanced hmem
  obtain ⟨first, hfirst, hterminal⟩ := (cancel_serves h.balanced h.released sequence).grows.delivered
  change (run.queue.cancel sequence).1.delivered = _ at hfirst
  obtain ⟨_, hgrown⟩ := (h.call (.cancel sequence)).sound.calls more
  obtain ⟨rest, hrest, hquiet⟩ := hgrown.messages
  refine ⟨first ++ rest, ?_, ?_⟩
  · have hcall : (run.call (.cancel sequence)).messages = run.messages ++ first := by
      simp only [QueueRun.messages, QueueRun.call, QueueRun.issue, hfirst, List.append_assoc]
    rw [hrest, hcall, List.append_assoc]
  · intro message hmessage
    rcases List.mem_append.mp hmessage with hmessage | hmessage
    · rw [hterminal message hmessage]
      simp
    · exact fun hprogress => hquiet message hmessage sequence hprogress hsettled

theorem QueueRun.late_completion {index sequence : Nat}
    (hworker : run.queue.workers[index]? = some worker) (hrunning : worker.running = some sequence)
    (hgone : sequence ∉ run.queue.submissionOrder) {reported : Option Nat}
    (hreported : reported = none ∨ reported = some sequence) (result : Except WorkerFailure Bytes) :
    (run.call (.workerCompleted index reported result)).messages = run.messages := by
  have hmatch : ¬(reported.any (· ≠ sequence)) = true := by
    rcases hreported with rfl | rfl
    · simp
    · simp
  have hcontains : (run.queue.setWorker index { worker with running := none }).containsSequence sequence = false := by
    simpa [containsSequence, setWorker] using hgone
  have hqueue : (run.queue.workerCompleted index reported result).1.delivered = run.queue.delivered := by
    simp only [workerCompleted, hworker, hrunning, if_neg hmatch, hcontains, Bool.false_and]
    rfl
  simp only [QueueRun.messages, QueueRun.call, QueueRun.issue, hqueue]

end Runs

/-- What the clients and the host of a queue can rely on, at any point of a run. -/
structure QueueRun.DeliversInOrder (run : QueueRun) (maxOutstanding : Nat) : Prop where
  /-- The terminal messages are those of the first accepted requests. -/
  inOrder : run.messages.filterMap WorkerMessage.terminalSequence <+: run.accepted.map WorkerRequest.sequence
  distinct : (run.accepted.map WorkerRequest.sequence).Nodup
  startedOnce : (run.dispatched.map WorkerRequest.sequence).Nodup
  started : ∀ request ∈ run.dispatched, request ∈ run.accepted
  /-- A request goes to a ready worker that has not failed and is not active, or whose request ends with the call. -/
  assigned : ∀ call, ∃ issued, (run.call call).commands = run.commands ++ issued ∧
    ∀ index request, .run index request ∈ issued → ∃ worker given,
      run.queue.workers[index]? = some worker ∧ (run.call call).queue.workers[index]? = some given ∧
      given.ready = true ∧ given.failed = false ∧ given.running = some request.sequence ∧
      (worker.running = none ∨ call.completes = some index)
  quiet : run.messages.Pairwise fun earlier later =>
    ∀ sequence, earlier.terminalSequence = some sequence → later.progressSequence ≠ some sequence
  cancelled : ∀ sequence, (run.queue.cancel sequence).2.1 = true → ∀ more, ∃ added,
    ((run.call (.cancel sequence)).calls more).messages = run.messages ++ added ∧
    ∀ message ∈ added, message.progressSequence ≠ some sequence
  /-- An active request that was cancelled and released ends without a message. -/
  late : ∀ index worker sequence, run.queue.workers[index]? = some worker → worker.running = some sequence →
    sequence ∉ run.queue.submissionOrder →
    (∀ reported result, reported = none ∨ reported = some sequence →
      (run.call (.workerCompleted index reported result)).messages = run.messages) ∧
    ∀ more, ∃ added, (run.calls more).messages = run.messages ++ added ∧ ∀ message ∈ added,
      message.terminalSequence ≠ some sequence ∧ message.progressSequence ≠ some sequence
  bounded : run.queue.outstanding ≤ maxOutstanding

/-- Every run of a queue delivers one terminal message for each request, in submission order. -/
theorem worker_queue_delivers_in_order {workerCount maxOutstanding : Nat} {operations : List String}
    {queue : WorkerOperationQueue} (h : WorkerOperationQueue.new workerCount maxOutstanding operations = .ok queue)
    (calls : List QueueCall) : ((QueueRun.start queue).calls calls).DeliversInOrder maxOutstanding := by
  obtain ⟨hstart, hlimit⟩ := QueueRun.Sound.start h
  obtain ⟨hsound, hgrown⟩ := hstart.calls calls
  have hb := hsound.balanced
  refine ⟨⟨_, hb.order⟩, hb.distinct, ?_, hb.known, fun call => (hsound.call call).assigned, hb.quiet, ?_, ?_, ?_⟩
  · have honce := hb.once
    rw [List.map_append] at honce
    exact (List.nodup_append.mp honce).1
  · intro sequence htaken more
    refine hsound.cancelled ?_ more
    unfold WorkerOperationQueue.cancel at htaken
    split at htaken
    · next hcontains => exact List.contains_iff_mem.mp hcontains
    · cases htaken
  · intro index worker sequence hworker hrunning hgone
    have hdone := hsound.released_of_active (List.mem_of_getElem? hworker) hrunning hgone
    exact ⟨fun reported result hreported => QueueRun.late_completion hworker hrunning hgone hreported result, hsound.silent hdone⟩
  · rw [← hlimit, ← show _ = queue.maxOutstanding from hgrown.limit]
    exact hb.bounded

/-- Two workers, the second of which finishes first, and a cancelled request that its worker completes late. -/
theorem worker_queue_delivers_in_order_twoWorkers :
    ∃ queue, WorkerOperationQueue.new 2 4 ["reverse"] = .ok queue ∧
      ((QueueRun.start queue).calls
        [.workerReady 0, .workerReady 1, .submit ⟨10, "reverse", [1]⟩, .submit ⟨11, "reverse", [2]⟩,
          .workerCompleted 1 (some 11) (.ok [2]), .cancel 10, .workerCompleted 0 none (.ok [1])]).DeliversInOrder 4 ∧
      ((QueueRun.start queue).calls
        [.workerReady 0, .workerReady 1, .submit ⟨10, "reverse", [1]⟩, .submit ⟨11, "reverse", [2]⟩,
          .workerCompleted 1 (some 11) (.ok [2]), .cancel 10, .workerCompleted 0 none (.ok [1])]).messages =
        [.failed 10 .cancelled, .complete 11 [2]] := by
  obtain ⟨queue, h⟩ : ∃ queue, WorkerOperationQueue.new 2 4 ["reverse"] = .ok queue := ⟨_, rfl⟩
  refine ⟨queue, h, worker_queue_delivers_in_order h _, ?_⟩
  cases h
  decide

/-- Every outstanding request is active on a worker that has not failed, has its terminal message recorded, or
waits while some worker has not failed. -/
def WorkerOperationQueue.Serviced (queue : WorkerOperationQueue) : Prop :=
  ∀ sequence ∈ queue.submissionOrder,
    (∃ worker ∈ queue.workers, worker.failed = false ∧ worker.running = some sequence) ∨
    (queue.terminal sequence).isSome ∨
    (sequence ∈ queue.pending.map WorkerRequest.sequence ∧ ∃ worker ∈ queue.workers, worker.failed = false)

/-- Requests wait only while some worker has not failed. -/
def WorkerOperationQueue.Staffed (queue : WorkerOperationQueue) : Prop :=
  queue.pending = [] ∨ ∃ worker ∈ queue.workers, worker.failed = false

def QueueCall.Manned (queue : WorkerOperationQueue) : QueueCall → Prop
  | .submit request => queue.refusal request = none → ∃ worker ∈ queue.workers, worker.failed = false
  | _ => True

/-- Every call of a run meets the condition in the state it finds. -/
def QueueRun.Manned (run : QueueRun) : List QueueCall → Prop
  | [] => True
  | call :: rest => call.Manned run.queue ∧ (run.call call).Manned rest

section Staffed

variable {queue : WorkerOperationQueue}

theorem WorkerOperationQueue.Staffed.dispatch (h : queue.Staffed) : queue.dispatchReadyWorkers.1.Staffed := by
  have hassigned := dispatchLoop_assigned queue.workers 0 queue.pending
  rcases h with hempty | ⟨worker, hworker, hok⟩
  · exact Or.inl (List.append_eq_nil_iff.mp (hassigned.taken.symm.trans hempty)).2
  · right
    obtain ⟨k, hk⟩ := List.mem_iff_getElem?.mp hworker
    rcases hassigned.kept k with hsame | ⟨found, request, hfound, hfree, hnext, _⟩
    · exact ⟨worker, List.mem_of_getElem? (hsame.trans hk), hok⟩
    · exact ⟨_, List.mem_of_getElem? hnext, hfree.2.1⟩

theorem WorkerOperationQueue.Staffed.setWorker (h : queue.Staffed) {index : Nat} {worker next : WorkerState}
    (hworker : queue.workers[index]? = some worker) (hnext : next.failed = worker.failed) :
    (queue.setWorker index next).Staffed := by
  rcases h with hempty | ⟨found, hfound, hok⟩
  · exact Or.inl hempty
  · right
    obtain ⟨k, hk⟩ := List.mem_iff_getElem?.mp hfound
    by_cases heq : index = k
    · subst heq
      cases hworker.symm.trans hk
      exact ⟨next, List.mem_set (List.getElem?_eq_some_iff.mp hk).1 next, hnext.trans hok⟩
    · refine ⟨found, List.mem_of_getElem? (i := k) ?_, hok⟩
      rw [WorkerOperationQueue.setWorker, List.getElem?_set_ne heq]
      exact hk

theorem WorkerOperationQueue.Staffed.recordTerminal (h : queue.Staffed) (message : WorkerMessage) :
    (queue.recordTerminal message).Staffed := by
  unfold WorkerOperationQueue.Staffed
  rw [recordTerminal_pending, recordTerminal_workers]
  exact h

theorem failPending_pending (requests : List WorkerRequest) (queue : WorkerOperationQueue) :
    (queue.failPending requests).pending = [] := by
  induction requests generalizing queue with
  | nil => rfl
  | cons request rest ih => exact ih _

theorem failPendingIfUnavailable_staffed (queue : WorkerOperationQueue) : queue.failPendingIfUnavailable.Staffed := by
  unfold failPendingIfUnavailable
  split
  · left
    rw [releaseOrdered, releaseFrom_pending, failPending_pending]
  · next hsome =>
    right
    simpa using hsome

section

variable (h : queue.Staffed)
include h

theorem workerFailed_staffed (index : Nat) (error : WorkerFailure) :
    (queue.workerFailed index error).1.Staffed := by
  unfold workerFailed
  split
  · exact h
  · exact (failPendingIfUnavailable_staffed _).dispatch

theorem workerReady_staffed (index : Nat) : (queue.workerReady index).1.Staffed := by
  unfold workerReady
  split
  · next worker hworker =>
    split
    · exact h.dispatch
    · have hready := h.setWorker hworker (show WorkerState.failed { worker with ready := true } = _ from rfl)
      exact hready.dispatch
  · exact h.dispatch

theorem workerCompleted_staffed (index : Nat) (reported : Option Nat)
    (result : Except WorkerFailure Bytes) : (queue.workerCompleted index reported result).1.Staffed := by
  unfold workerCompleted
  split
  · exact workerFailed_staffed h index _
  · next worker hworker =>
    split
    · exact workerFailed_staffed h index _
    · split
      · exact workerFailed_staffed h index _
      · have hstopped := h.setWorker hworker (show WorkerState.failed { worker with running := none } = _ from rfl)
        dsimp only
        split
        · exact (hstopped.recordTerminal _).dispatch
        · exact hstopped.dispatch

theorem cancel_staffed (sequence : Nat) : (queue.cancel sequence).1.Staffed := by
  unfold WorkerOperationQueue.cancel
  split
  · have hmarked : (markCancelled queue sequence).Staffed := by
      rcases h with hempty | hworker
      · exact Or.inl (by rw [markCancelled, hempty]; rfl)
      · exact Or.inr hworker
    exact (hmarked.recordTerminal _).dispatch
  · exact h

theorem submit_staffed {request : WorkerRequest}
    (hmanned : queue.refusal request = none → ∃ worker ∈ queue.workers, worker.failed = false) :
    (queue.submit request).1.Staffed := by
  unfold WorkerOperationQueue.submit
  split
  · exact h
  · next hrefusal => exact WorkerOperationQueue.Staffed.dispatch (Or.inr (hmanned hrefusal))

end

end Staffed

variable {run : QueueRun}

theorem QueueRun.call_staffed (h : run.queue.Staffed) {call : QueueCall} (hmanned : call.Manned run.queue) :
    (run.call call).queue.Staffed := by
  cases call with
  | submit request =>
    have hnext := submit_staffed h hmanned
    unfold QueueRun.call
    dsimp only
    split
    · next hsubmit =>
      rw [hsubmit] at hnext
      exact hnext
    · next hsubmit =>
      rw [hsubmit] at hnext
      exact hnext
  | workerReady index => exact workerReady_staffed h index
  | workerProgress sequence done total =>
    show (run.queue.workerProgress sequence done total).Staffed
    unfold workerProgress
    split
    · exact h
    · exact h
  | workerCompleted index reported result => exact workerCompleted_staffed h index reported result
  | workerFailed index error => exact workerFailed_staffed h index error
  | cancel sequence => exact cancel_staffed h sequence
  | drainMessages => exact h

theorem QueueRun.calls_staffed (h : run.queue.Staffed) {calls : List QueueCall} (hmanned : run.Manned calls) :
    (run.calls calls).queue.Staffed := by
  induction calls generalizing run with
  | nil => exact h
  | cons call rest ih => exact ih (QueueRun.call_staffed h hmanned.1) hmanned.2

theorem QueueRun.Sound.serviced (h : run.Sound) (hstaffed : run.queue.Staffed) :
    run.queue.Serviced := by
  intro sequence hmem
  rcases h.balanced.served sequence hmem with hterminal | ⟨worker, hworker, hrunning⟩ | hpending
  · exact Or.inr (Or.inl hterminal)
  · left
    refine ⟨worker, hworker, ?_, hrunning⟩
    cases hfailed : worker.failed with
    | false => rfl
    | true =>
      rw [(h.balanced.lost worker hworker hfailed).2] at hrunning
      cases hrunning
  · refine Or.inr (Or.inr ⟨hpending, ?_⟩)
    rcases hstaffed with hempty | hworker
    · simp [hempty] at hpending
    · exact hworker

/-- In a run in which no request is taken in after the last worker failed, every outstanding request is served;
when every worker has failed, each has its terminal message. -/
theorem worker_queue_strands_nothing {workerCount maxOutstanding : Nat} {operations : List String}
    {queue : WorkerOperationQueue} (h : WorkerOperationQueue.new workerCount maxOutstanding operations = .ok queue)
    {calls : List QueueCall} (hmanned : (QueueRun.start queue).Manned calls) :
    ((QueueRun.start queue).calls calls).queue.Serviced ∧
      ((∀ worker ∈ ((QueueRun.start queue).calls calls).queue.workers, worker.failed = true) →
        ∀ sequence ∈ ((QueueRun.start queue).calls calls).queue.submissionOrder,
          (((QueueRun.start queue).calls calls).queue.terminal sequence).isSome) := by
  obtain ⟨hstart, _⟩ := QueueRun.Sound.start h
  have hempty : queue.pending = [] := by
    unfold WorkerOperationQueue.new at h
    split at h
    · cases h
    split at h
    · cases h
    cases h
    rfl
  obtain ⟨hsound, _⟩ := hstart.calls calls
  have hserviced := hsound.serviced (QueueRun.calls_staffed (Or.inl hempty) hmanned)
  refine ⟨hserviced, fun hfailed sequence hmem => ?_⟩
  rcases hserviced sequence hmem with ⟨worker, hworker, hok, _⟩ | hterminal | ⟨_, worker, hworker, hok⟩
  · exact absurd (hok.symm.trans (hfailed worker hworker)) (by simp)
  · exact hterminal
  · exact absurd (hok.symm.trans (hfailed worker hworker)) (by simp)

/-- The loss of the only worker fails the active request and the one that waits. -/
theorem worker_queue_strands_nothing_lostPool :
    ∃ queue, WorkerOperationQueue.new 1 2 ["reverse"] = .ok queue ∧
      (QueueRun.start queue).Manned [.workerReady 0, .submit ⟨1, "reverse", []⟩, .submit ⟨2, "reverse", []⟩,
        .workerFailed 0 .unavailable] ∧
      ((QueueRun.start queue).calls [.workerReady 0, .submit ⟨1, "reverse", []⟩, .submit ⟨2, "reverse", []⟩,
        .workerFailed 0 .unavailable]).queue.Serviced := by
  obtain ⟨queue, h⟩ : ∃ queue, WorkerOperationQueue.new 1 2 ["reverse"] = .ok queue := ⟨_, rfl⟩
  have hmanned : (QueueRun.start queue).Manned [.workerReady 0, .submit ⟨1, "reverse", []⟩,
      .submit ⟨2, "reverse", []⟩, .workerFailed 0 .unavailable] := by
    cases h
    exact ⟨trivial, fun _ => ⟨⟨true, false, none⟩, by decide, rfl⟩, fun _ => ⟨⟨true, false, some 1⟩, by decide, rfl⟩,
      trivial, trivial⟩
  exact ⟨queue, h, hmanned, (worker_queue_strands_nothing h hmanned).1⟩

/-- A request that is submitted after the only worker has failed stays outstanding for good. -/
theorem submit_after_pool_loss_is_stranded :
    ∃ queue, WorkerOperationQueue.new 1 1 ["reverse"] = .ok queue ∧
      (∀ worker ∈ ((QueueRun.start queue).calls
        [.workerFailed 0 .unavailable, .submit ⟨1, "reverse", []⟩]).queue.workers, worker.failed = true) ∧
      ((QueueRun.start queue).calls
        [.workerFailed 0 .unavailable, .submit ⟨1, "reverse", []⟩]).queue.submissionOrder = [1] ∧
      ((QueueRun.start queue).calls
        [.workerFailed 0 .unavailable, .submit ⟨1, "reverse", []⟩]).queue.terminal 1 = none ∧
      ¬((QueueRun.start queue).calls
        [.workerFailed 0 .unavailable, .submit ⟨1, "reverse", []⟩]).queue.Serviced := by
  obtain ⟨queue, h⟩ : ∃ queue, WorkerOperationQueue.new 1 1 ["reverse"] = .ok queue := ⟨_, rfl⟩
  cases h
  refine ⟨_, rfl, by decide, by decide, by decide, fun hserviced => ?_⟩
  rcases hserviced 1 (by decide) with ⟨worker, hworker, hok, _⟩ | hterminal | ⟨_, worker, hworker, hok⟩
  · revert worker
    decide
  · revert hterminal
    decide
  · revert worker
    decide

end LogicConduit
