import LogicConduit.WorkerQueueDelivery

namespace LogicConduit

open WorkerOperationQueue

/-- What a part of a call keeps: the messages delivered before it, and every terminal message recorded before it,
unless that one was delivered. -/
structure WorkerOperationQueue.Keeps (before after : WorkerOperationQueue) : Prop where
  delivered : ∀ message ∈ before.delivered, message ∈ after.delivered
  recorded : ∀ sequence message, before.terminal sequence = some message →
    after.terminal sequence = some message ∨ message ∈ after.delivered

variable {sequence : Nat} {message : WorkerMessage}

namespace WorkerOperationQueue.Keeps

variable {before between after queue : WorkerOperationQueue}

theorem of_eq (delivered : after.delivered = before.delivered) (terminal : after.terminal = before.terminal) :
    before.Keeps after :=
  ⟨fun _ mem => delivered ▸ mem, fun _ _ found => Or.inl (terminal ▸ found)⟩

theorem trans (first : before.Keeps between) (second : between.Keeps after) : before.Keeps after := by
  refine ⟨fun message mem => second.delivered message (first.delivered message mem), ?_⟩
  intro sequence message found
  rcases first.recorded sequence message found with kept | gone
  · exact second.recorded sequence message kept
  · exact Or.inr (second.delivered message gone)

theorem releaseMessage (found : queue.terminal sequence = some message) :
    queue.Keeps (queue.releaseMessage sequence message) := by
  refine ⟨fun other mem => List.mem_append_left _ mem, ?_⟩
  intro other recorded known
  by_cases same : other = sequence
  · subst same
    cases known.symm.trans found
    exact Or.inr (List.mem_append_right _ List.mem_cons_self)
  · exact Or.inl ((if_neg same).trans known)

theorem releaseFrom (submissions : List Nat) (queue : WorkerOperationQueue) :
    queue.Keeps (queue.releaseFrom submissions) := by
  induction submissions generalizing queue with
  | nil => exact of_eq rfl rfl
  | cons sequence rest ih =>
    cases found : queue.terminal sequence with
    | none =>
      simp only [WorkerOperationQueue.releaseFrom, found]
      exact of_eq rfl rfl
    | some message =>
      simp only [WorkerOperationQueue.releaseFrom, found]
      exact (releaseMessage found).trans (ih _)

theorem releaseOrdered (queue : WorkerOperationQueue) : queue.Keeps queue.releaseOrdered :=
  releaseFrom _ queue

theorem insertTerminal (unrecorded : queue.terminal sequence = none) (message : WorkerMessage) :
    queue.Keeps (queue.insertTerminal sequence message) := by
  refine ⟨fun _ mem => mem, ?_⟩
  intro other recorded known
  have distinct : other ≠ sequence := fun same => by
    rw [same, unrecorded] at known
    cases known
  exact Or.inl ((if_neg distinct).trans known)

theorem recordTerminal (queue : WorkerOperationQueue) (message : WorkerMessage) :
    queue.Keeps (queue.recordTerminal message) := by
  unfold WorkerOperationQueue.recordTerminal
  split
  · exact of_eq rfl rfl
  · split
    · next recordable =>
      simp only [Bool.and_eq_true, Option.isNone_iff_eq_none] at recordable
      exact (insertTerminal recordable.2 message).trans (releaseOrdered _)
    · exact releaseOrdered queue

theorem setWorker (index : Nat) (worker : WorkerState) : queue.Keeps (queue.setWorker index worker) :=
  of_eq rfl rfl

theorem dispatch (kept : before.Keeps queue) : before.Keeps queue.dispatchReadyWorkers.1 :=
  kept.trans (of_eq rfl rfl)

theorem failActive (queue : WorkerOperationQueue) (running : Option Nat) (error : WorkerFailure) :
    queue.Keeps (queue.failActive running error) := by
  unfold WorkerOperationQueue.failActive
  split
  · exact of_eq rfl rfl
  · split
    · exact of_eq rfl rfl
    · exact recordTerminal queue _

end WorkerOperationQueue.Keeps

section Calls

variable {accepted dispatched : List WorkerRequest} {drained : List WorkerMessage} {queue : WorkerOperationQueue}

/-- The requests that wait have no terminal message that their failure could replace. -/
theorem failPending_keeps (requests : List WorkerRequest) (queue : WorkerOperationQueue)
    (balanced : Balanced accepted dispatched drained { queue with pending := requests }) :
    queue.Keeps (queue.failPending requests) := by
  induction requests generalizing queue with
  | nil => exact .of_eq rfl rfl
  | cons request rest ih =>
    have unrecorded : queue.terminal request.sequence = none := (balanced.waiting request List.mem_cons_self).2.2
    have first := WorkerOperationQueue.Keeps.insertTerminal unrecorded (.failed request.sequence .unavailable)
    exact first.trans (ih _ balanced.failFirst)

theorem failPendingIfUnavailable_keeps (balanced : Balanced accepted dispatched drained queue) :
    queue.Keeps queue.failPendingIfUnavailable := by
  unfold failPendingIfUnavailable
  split
  · exact (failPending_keeps queue.pending queue balanced).trans (.releaseOrdered _)
  · exact .of_eq rfl rfl

theorem workerFailed_keeps (balanced : Balanced accepted dispatched drained queue) (released : queue.Released)
    (index : Nat) (error : WorkerFailure) : queue.Keeps (queue.workerFailed index error).1 := by
  unfold workerFailed
  split
  · exact .of_eq rfl rfl
  · next worker found =>
    have settles := failActive_settles balanced released found error
    have stopped := (WorkerOperationQueue.Keeps.setWorker index ⟨false, true, none⟩).trans
      (WorkerOperationQueue.Keeps.failActive (queue.setWorker index ⟨false, true, none⟩) worker.running error)
    exact (stopped.trans (failPendingIfUnavailable_keeps settles.balanced)).dispatch

theorem workerReady_keeps (index : Nat) : queue.Keeps (queue.workerReady index).1 := by
  unfold workerReady
  split
  · split
    · exact .of_eq rfl rfl
    · exact .of_eq rfl rfl
  · exact .of_eq rfl rfl

theorem workerCompleted_keeps (balanced : Balanced accepted dispatched drained queue) (released : queue.Released)
    (index : Nat) (reported : Option Nat) (result : Except WorkerFailure Bytes) :
    queue.Keeps (queue.workerCompleted index reported result).1 := by
  unfold workerCompleted
  split
  · exact workerFailed_keeps balanced released index _
  · next worker found =>
    split
    · exact workerFailed_keeps balanced released index _
    · split
      · exact workerFailed_keeps balanced released index _
      · have stopped : queue.Keeps (queue.setWorker index { worker with running := none }) := .setWorker _ _
        dsimp only
        split
        · exact (stopped.trans (.recordTerminal _ _)).dispatch
        · exact stopped.dispatch

theorem withdraw_keeps (sequence : Nat) : queue.Keeps (queue.withdraw sequence) := by
  have marked : queue.Keeps (markCancelled queue sequence) := .of_eq rfl rfl
  exact marked.trans (.recordTerminal _ _)

theorem cancel_keeps (sequence : Nat) : queue.Keeps (queue.cancel sequence).1 := by
  unfold WorkerOperationQueue.cancel
  split
  · exact (withdraw_keeps sequence).dispatch
  · exact .of_eq rfl rfl

theorem withdraw_records (outstanding : sequence ∈ queue.submissionOrder) (unrecorded : queue.terminal sequence = none) :
    (queue.withdraw sequence).terminal sequence = some (.failed sequence .cancelled) ∨
      .failed sequence .cancelled ∈ (queue.withdraw sequence).delivered := by
  have recordable : ((markCancelled queue sequence).containsSequence sequence &&
      ((markCancelled queue sequence).terminal sequence).isNone) = true := by
    simp [markCancelled, containsSequence, outstanding, unrecorded]
  have recorded : ((markCancelled queue sequence).insertTerminal sequence (.failed sequence .cancelled)).terminal
      sequence = some (.failed sequence .cancelled) := if_pos rfl
  have released : queue.withdraw sequence =
      ((markCancelled queue sequence).insertTerminal sequence (.failed sequence .cancelled)).releaseOrdered :=
    if_pos recordable
  rw [released]
  exact (WorkerOperationQueue.Keeps.releaseOrdered _).recorded sequence _ recorded

end Calls

/-- A request has a terminal message: it was delivered, or it waits for the requests submitted earlier. -/
def QueueRun.Ends (run : QueueRun) (sequence : Nat) (message : WorkerMessage) : Prop :=
  run.queue.terminal sequence = some message ∨ message ∈ run.messages

section Runs

variable {run : QueueRun}

theorem QueueRun.Ends.issue {sequence : Nat} {message : WorkerMessage} (ends : run.Ends sequence message)
    {outcome : WorkerOperationQueue × List WorkerHostCommand} (kept : run.queue.Keeps outcome.1) :
    (run.issue outcome).Ends sequence message := by
  rcases ends with recorded | delivered
  · rcases kept.recorded sequence message recorded with still | gone
    · exact Or.inl still
    · exact Or.inr (List.mem_append_right _ gone)
  · right
    rcases List.mem_append.mp delivered with drained | waiting
    · exact List.mem_append_left _ drained
    · exact List.mem_append_right _ (kept.delivered message waiting)

theorem QueueRun.Ends.submit (ends : run.Ends sequence message) (request : WorkerRequest) :
    (run.call (.submit request)).Ends sequence message := by
  cases refusal : run.queue.refusal request with
  | some error =>
    have refused : run.call (.submit request) = run.issue (run.queue, []) := by
      simp only [QueueRun.call, WorkerOperationQueue.submit, refusal]
    rw [refused]
    exact ends.issue (.of_eq rfl rfl)
  | none =>
    have taken : run.call (.submit request) =
        { run.issue (run.queue.enqueue request).dispatchReadyWorkers with accepted := run.accepted ++ [request] } := by
      simp only [QueueRun.call, WorkerOperationQueue.submit, refusal]
    rw [taken]
    exact @QueueRun.Ends.issue run _ _ ends (run.queue.enqueue request).dispatchReadyWorkers (.of_eq rfl rfl)

/-- No call replaces or loses the terminal message of a request. -/
theorem QueueRun.Ends.call (ends : run.Ends sequence message) (sound : run.Sound) (call : QueueCall) :
    (run.call call).Ends sequence message := by
  cases call with
  | submit request => exact ends.submit request
  | workerReady index => exact ends.issue (workerReady_keeps index)
  | workerProgress other done total =>
    refine ends.issue ?_
    unfold workerProgress
    split
    · exact ⟨fun _ mem => List.mem_append_left _ mem, fun _ _ found => Or.inl found⟩
    · exact .of_eq rfl rfl
  | workerCompleted index reported result =>
    exact ends.issue (workerCompleted_keeps sound.balanced sound.released index reported result)
  | workerFailed index error => exact ends.issue (workerFailed_keeps sound.balanced sound.released index error)
  | cancel other => exact ends.issue (cancel_keeps other)
  | drainMessages =>
    rcases ends with recorded | delivered
    · exact Or.inl recorded
    · right
      show message ∈ (run.drained ++ run.queue.delivered) ++ []
      rwa [List.append_nil]

theorem QueueRun.Ends.calls (ends : run.Ends sequence message) (sound : run.Sound) (calls : List QueueCall) :
    (run.calls calls).Ends sequence message := by
  induction calls generalizing run with
  | nil => exact ends
  | cons call rest ih => exact ih (ends.call sound call) (sound.call call).sound

theorem eq_of_nodup_filterMap {α β : Type} {f : α → Option β} {xs : List α} (distinct : (xs.filterMap f).Nodup)
    {x y : α} {b : β} (hx : x ∈ xs) (hy : y ∈ xs) (fx : f x = some b) (fy : f y = some b) : x = y := by
  induction xs with
  | nil => cases hx
  | cons first rest ih =>
    have tail : (rest.filterMap f).Nodup := distinct.sublist ((List.sublist_cons_self _ _).filterMap f)
    have head : ∀ z ∈ rest, f z = some b → f first ≠ some b := by
      intro z mem fz ff
      rw [List.filterMap_cons_some ff] at distinct
      exact (List.nodup_cons.mp distinct).1 (List.mem_filterMap.mpr ⟨z, mem, fz⟩)
    rcases List.mem_cons.mp hx with rfl | laterX
    · rcases List.mem_cons.mp hy with rfl | laterY
      · rfl
      · exact absurd fx (head y laterY fy)
    · rcases List.mem_cons.mp hy with rfl | laterY
      · exact absurd fy (head x laterX fx)
      · exact ih tail laterX laterY

theorem QueueRun.Sound.ends_unique (sound : run.Sound) {one other : WorkerMessage} (ends : run.Ends sequence one)
    (about : one.terminalSequence = some sequence) (ends' : run.Ends sequence other)
    (about' : other.terminalSequence = some sequence) : one = other := by
  have balanced := sound.balanced
  have released : ∀ message ∈ run.messages, message.terminalSequence = some sequence →
      sequence ∉ run.queue.submissionOrder := fun message mem ended =>
    balanced.not_outstanding (List.mem_filterMap.mpr ⟨message, mem, ended⟩)
  rcases ends with recorded | delivered
  · rcases ends' with recorded' | delivered'
    · exact Option.some.inj (recorded.symm.trans recorded')
    · exact absurd (balanced.recorded sequence one recorded).1 (released other delivered' about')
  · rcases ends' with recorded' | delivered'
    · exact absurd (balanced.recorded sequence other recorded').1 (released one delivered about)
    · have distinct := balanced.distinct
      rw [← balanced.order] at distinct
      exact eq_of_nodup_filterMap (List.nodup_append.mp distinct).1 delivered delivered' about about'

theorem QueueRun.Ends.delivered (ends : run.Ends sequence message) (sound : run.Sound)
    (gone : sequence ∉ run.queue.submissionOrder) : message ∈ run.messages := by
  rcases ends with recorded | delivered
  · exact absurd (sound.balanced.recorded sequence message recorded).1 gone
  · exact delivered

theorem QueueRun.Sound.cancel_all (sound : run.Sound) (sequences : List Nat)
    (known : ∀ sequence ∈ sequences, sequence ∈ run.accepted.map WorkerRequest.sequence) :
    (∀ sequence ∈ sequences, (run.calls (sequences.map QueueCall.cancel)).Settled sequence) ∧
      (run.calls (sequences.map QueueCall.cancel)).queue.submissionOrder <:+ run.queue.submissionOrder := by
  induction sequences generalizing run with
  | nil => exact ⟨nofun, List.suffix_rfl⟩
  | cons sequence rest ih =>
    have step := sound.call (.cancel sequence)
    have grows := (cancel_serves sound.balanced sound.released sequence).grows
    have settled : (run.call (.cancel sequence)).Settled sequence := by
      refine ⟨known sequence List.mem_cons_self, ?_⟩
      show ((run.queue.cancel sequence).1.cancelled sequence = true ∨
        sequence ∉ (run.queue.cancel sequence).1.submissionOrder)
      unfold WorkerOperationQueue.cancel
      split
      · next outstanding => exact withdraw_marks sound.balanced (List.contains_iff_mem.mp outstanding)
      · next gone => exact Or.inr fun mem => gone (List.contains_iff_mem.mpr mem)
    obtain ⟨others, suffix⟩ := ih step.sound fun other mem => known other (List.mem_cons_of_mem _ mem)
    refine ⟨?_, suffix.trans grows.order⟩
    intro other mem
    rcases List.mem_cons.mp mem with rfl | mem
    · exact (step.sound.calls (rest.map QueueCall.cancel)).2.settled other settled
    · exact others other mem

theorem QueueRun.Sound.emptied (sound : run.Sound) : ∃ more, (run.calls more).queue.submissionOrder = [] := by
  have known : ∀ sequence ∈ run.queue.submissionOrder, sequence ∈ run.accepted.map WorkerRequest.sequence := by
    intro sequence mem
    rw [← sound.balanced.order]
    exact List.mem_append_right _ mem
  obtain ⟨settled, suffix⟩ := sound.cancel_all run.queue.submissionOrder known
  refine ⟨run.queue.submissionOrder.map QueueCall.cancel, ?_⟩
  have after := (sound.calls (run.queue.submissionOrder.map QueueCall.cancel)).1
  cases order : (run.calls (run.queue.submissionOrder.map QueueCall.cancel)).queue.submissionOrder with
  | nil => rfl
  | cons sequence rest =>
    have front : sequence ∈ (run.calls (run.queue.submissionOrder.map QueueCall.cancel)).queue.submissionOrder := by
      rw [order]
      exact List.mem_cons_self
    have unrecorded := after.released sequence (by rw [order]; rfl)
    rcases (settled sequence (suffix.subset front)).2 with marked | gone
    · have recorded := after.balanced.withdrawn sequence marked
      rw [unrecorded] at recorded
      cases recorded
    · exact absurd front gone

end Runs

/-- However a run goes on, the only terminal message of a request is its cancellation, and it is delivered before
the request stops being outstanding. -/
def QueueRun.EndsCancelled (run : QueueRun) (sequence : Nat) : Prop :=
  ∀ more, (∀ message ∈ (run.calls more).messages, message.terminalSequence = some sequence →
      message = .failed sequence .cancelled) ∧
    (sequence ∉ (run.calls more).queue.submissionOrder → .failed sequence .cancelled ∈ (run.calls more).messages)

/-- A cancellation that was accepted wins over the result of the request if and only if no other terminal message
of it waits for earlier requests. -/
theorem accepted_cancellation_wins_iff {workerCount maxOutstanding : Nat} {operations : List String}
    {queue : WorkerOperationQueue} (h : WorkerOperationQueue.new workerCount maxOutstanding operations = .ok queue)
    (calls : List QueueCall) {sequence : Nat}
    (taken : (((QueueRun.start queue).calls calls).queue.cancel sequence).2.1 = true) :
    (((QueueRun.start queue).calls calls).call (.cancel sequence)).EndsCancelled sequence ↔
      ((QueueRun.start queue).calls calls).queue.terminal sequence = none ∨
      ((QueueRun.start queue).calls calls).queue.terminal sequence = some (.failed sequence .cancelled) := by
  have sound := ((QueueRun.Sound.start h).1.calls calls).1
  generalize (QueueRun.start queue).calls calls = run at *
  have outstanding : sequence ∈ run.queue.submissionOrder := by
    unfold WorkerOperationQueue.cancel at taken
    split at taken
    · next found => exact List.contains_iff_mem.mp found
    · cases taken
  have next := (sound.call (.cancel sequence)).sound
  constructor
  · intro wins
    cases recorded : run.queue.terminal sequence with
    | none => exact Or.inl rfl
    | some message =>
      obtain ⟨more, emptied⟩ := next.emptied
      have ends : run.Ends sequence message := Or.inl recorded
      have gone : sequence ∉ ((run.call (.cancel sequence)).calls more).queue.submissionOrder := by
        rw [emptied]
        exact List.not_mem_nil
      have delivered := ((ends.call sound (.cancel sequence)).calls next more).delivered (next.calls more).1 gone
      have about := (sound.balanced.recorded sequence message recorded).2
      rw [(wins more).1 message delivered about]
      exact Or.inr rfl
  · intro unrecorded
    have ends : (run.call (.cancel sequence)).Ends sequence (.failed sequence .cancelled) := by
      rcases unrecorded with none | cancelled
      · rcases withdraw_records outstanding none with recorded | delivered
        · refine Or.inl (Eq.trans ?_ recorded)
          simp [QueueRun.call, QueueRun.issue, WorkerOperationQueue.cancel, containsSequence, outstanding,
            dispatchReadyWorkers]
        · refine Or.inr (List.mem_append_right _ ?_)
          simpa [QueueRun.call, QueueRun.issue, WorkerOperationQueue.cancel, containsSequence, outstanding,
            dispatchReadyWorkers] using delivered
      · exact QueueRun.Ends.call (Or.inl cancelled) sound (.cancel sequence)
    intro more
    have later := ends.calls next more
    have after := (next.calls more).1
    refine ⟨fun message mem about => after.ends_unique (Or.inr mem) about later rfl, fun gone => ?_⟩
    exact later.delivered after gone

/-- An active request that is cancelled before it finishes. -/
theorem accepted_cancellation_wins_active :
    ∃ queue, WorkerOperationQueue.new 2 4 ["reverse"] = .ok queue ∧
      (((QueueRun.start queue).calls [.workerReady 0, .workerReady 1, .submit ⟨10, "reverse", [1]⟩,
        .submit ⟨11, "reverse", [2]⟩]).call (.cancel 11)).EndsCancelled 11 := by
  obtain ⟨queue, h⟩ : ∃ queue, WorkerOperationQueue.new 2 4 ["reverse"] = .ok queue := ⟨_, rfl⟩
  refine ⟨queue, h, ?_⟩
  refine (accepted_cancellation_wins_iff h _ ?_).mpr (Or.inl ?_)
  · cases h
    decide
  · cases h
    decide

/-- A request that finished behind an earlier one is cancelled, and its result is delivered all the same. -/
theorem cancelled_result_is_delivered :
    ∃ queue, WorkerOperationQueue.new 2 4 ["reverse"] = .ok queue ∧
      (((QueueRun.start queue).calls [.workerReady 0, .workerReady 1, .submit ⟨10, "reverse", [1]⟩,
        .submit ⟨11, "reverse", [2]⟩, .workerCompleted 1 (some 11) (.ok [2])]).queue.cancel 11).2.1 = true ∧
      (((QueueRun.start queue).calls [.workerReady 0, .workerReady 1, .submit ⟨10, "reverse", [1]⟩,
        .submit ⟨11, "reverse", [2]⟩, .workerCompleted 1 (some 11) (.ok [2]), .cancel 11,
        .workerCompleted 0 (some 10) (.ok [1])]).messages = [.complete 10 [1], .complete 11 [2]]) ∧
      ¬(((QueueRun.start queue).calls [.workerReady 0, .workerReady 1, .submit ⟨10, "reverse", [1]⟩,
        .submit ⟨11, "reverse", [2]⟩, .workerCompleted 1 (some 11) (.ok [2])]).call (.cancel 11)).EndsCancelled 11 := by
  obtain ⟨queue, h⟩ : ∃ queue, WorkerOperationQueue.new 2 4 ["reverse"] = .ok queue := ⟨_, rfl⟩
  cases h
  refine ⟨_, rfl, by decide, by decide, fun wins => ?_⟩
  have ended := (wins [.workerCompleted 0 (some 10) (.ok [1])]).1 (.complete 11 [2]) (by decide) rfl
  cases ended

end LogicConduit
