import Mathlib.Data.List.Pairwise
import LogicConduit.WorkerQueue

namespace LogicConduit

open WorkerOperationQueue

def WorkerState.free (worker : WorkerState) : Prop :=
  worker.ready = true ∧ worker.failed = false ∧ worker.running = none

/-- The books of a queue agree with the requests it accepted, the ones it started and the messages that were
drained from it. In the middle of a call the front of the submissions may have its terminal message already. -/
structure Balanced (accepted dispatched : List WorkerRequest) (drained : List WorkerMessage)
    (queue : WorkerOperationQueue) : Prop where
  order : (drained ++ queue.delivered).filterMap WorkerMessage.terminalSequence ++ queue.submissionOrder =
    accepted.map WorkerRequest.sequence
  increasing : (accepted.map WorkerRequest.sequence).Pairwise (· < ·)
  last : ∀ request ∈ accepted, ∃ previous, queue.lastSubmittedSequence = some previous ∧ request.sequence ≤ previous
  recorded : ∀ sequence message, queue.terminal sequence = some message →
    sequence ∈ queue.submissionOrder ∧ message.terminalSequence = some sequence
  waiting : ∀ request ∈ queue.pending, request ∈ accepted ∧ request.sequence ∈ queue.submissionOrder ∧
    queue.terminal request.sequence = none
  once : ((dispatched ++ queue.pending).map WorkerRequest.sequence).Nodup
  known : ∀ request ∈ dispatched, request ∈ accepted
  withdrawn : ∀ sequence, queue.cancelled sequence = true → (queue.terminal sequence).isSome
  lost : ∀ worker ∈ queue.workers, worker.failed = true → worker.ready = false ∧ worker.running = none
  active : ∀ worker ∈ queue.workers, ∀ sequence, worker.running = some sequence →
    sequence ∈ dispatched.map WorkerRequest.sequence
  served : ∀ sequence ∈ queue.submissionOrder, (queue.terminal sequence).isSome ∨
    (∃ worker ∈ queue.workers, worker.running = some sequence) ∨
    sequence ∈ queue.pending.map WorkerRequest.sequence
  bounded : queue.submissionOrder.length ≤ queue.maxOutstanding
  quiet : (drained ++ queue.delivered).Pairwise fun earlier later =>
    ∀ sequence, earlier.terminalSequence = some sequence → later.progressSequence ≠ some sequence

/-- Everything that could be released has been. -/
def WorkerOperationQueue.Released (queue : WorkerOperationQueue) : Prop :=
  ∀ sequence, queue.submissionOrder.head? = some sequence → queue.terminal sequence = none

/-- What a part of a call leaves behind: it only adds terminal messages to the delivered ones, it takes
submissions away from the front only, and a cancelled request stays cancelled until it is released. -/
structure WorkerOperationQueue.Grows (before after : WorkerOperationQueue) : Prop where
  delivered : ∃ added, after.delivered = before.delivered ++ added ∧
    ∀ message ∈ added, message.progressSequence = none
  order : after.submissionOrder <:+ before.submissionOrder
  cancelled : ∀ sequence, before.cancelled sequence = true →
    after.cancelled sequence = true ∨ sequence ∉ after.submissionOrder
  limit : after.maxOutstanding = before.maxOutstanding

theorem WorkerOperationQueue.Grows.trans {first second third : WorkerOperationQueue} (h : first.Grows second)
    (h' : second.Grows third) : first.Grows third := by
  obtain ⟨added, hadded, hterminal⟩ := h.delivered
  obtain ⟨added', hadded', hterminal'⟩ := h'.delivered
  refine ⟨⟨added ++ added', ?_, ?_⟩, h'.order.trans h.order, ?_, h'.limit.trans h.limit⟩
  · rw [hadded', hadded, List.append_assoc]
  · intro message hmem
    rcases List.mem_append.mp hmem with hmem | hmem
    · exact hterminal message hmem
    · exact hterminal' message hmem
  · intro sequence hcancelled
    rcases h.cancelled sequence hcancelled with hkept | hgone
    · exact h'.cancelled sequence hkept
    · exact Or.inr fun hmem => hgone (h'.order.subset hmem)

theorem WorkerOperationQueue.Grows.of_eq {before after : WorkerOperationQueue} (hd : after.delivered = before.delivered)
    (ho : after.submissionOrder = before.submissionOrder)
    (hc : ∀ sequence, before.cancelled sequence = true → after.cancelled sequence = true)
    (hm : after.maxOutstanding = before.maxOutstanding) : before.Grows after :=
  ⟨⟨[], by simp [hd], by simp⟩, ho ▸ List.suffix_rfl, fun sequence h => Or.inl (hc sequence h), hm⟩

theorem WorkerOperationQueue.Grows.after_eq {before between after : WorkerOperationQueue} (h : between.Grows after)
    (hd : between.delivered = before.delivered) (ho : between.submissionOrder = before.submissionOrder)
    (hc : ∀ sequence, before.cancelled sequence = true → between.cancelled sequence = true)
    (hm : between.maxOutstanding = before.maxOutstanding) : before.Grows after :=
  (WorkerOperationQueue.Grows.of_eq hd ho hc hm).trans h

section Balance

variable {accepted dispatched : List WorkerRequest} {drained : List WorkerMessage} {queue : WorkerOperationQueue}

variable {message : WorkerMessage} {sequence : Nat}

theorem WorkerMessage.progress_of_terminal (h : message.terminalSequence = some sequence) :
    message.progressSequence = none := by
  cases message <;> simp_all [WorkerMessage.terminalSequence, WorkerMessage.progressSequence]

section

variable (h : Balanced accepted dispatched drained queue)
include h

theorem Balanced.distinct : (accepted.map WorkerRequest.sequence).Nodup :=
  h.increasing.imp fun hlt => Nat.ne_of_lt hlt

theorem Balanced.not_outstanding
    (hmem : sequence ∈ (drained ++ queue.delivered).filterMap WorkerMessage.terminalSequence) :
    sequence ∉ queue.submissionOrder := by
  have hnodup := h.distinct
  rw [← h.order] at hnodup
  exact fun hout => (List.nodup_append.mp hnodup).2.2 sequence hmem sequence hout rfl

theorem Balanced.order_nodup : queue.submissionOrder.Nodup := by
  have hnodup := h.distinct
  rw [← h.order] at hnodup
  exact (List.nodup_append.mp hnodup).2.1

end

theorem Balanced.release {rest : List Nat}
    (h : Balanced accepted dispatched drained { queue with submissionOrder := sequence :: rest })
    (hterminal : queue.terminal sequence = some message) :
    Balanced accepted dispatched drained
      { queue.releaseMessage sequence message with submissionOrder := rest } := by
  have hmessage : message.terminalSequence = some sequence := (h.recorded sequence message hterminal).2
  have hfront : sequence ∉ rest := (List.nodup_cons.mp h.order_nodup).1
  refine ⟨?_, h.increasing, h.last, ?_, ?_, h.once, h.known, ?_, h.lost, h.active, ?_, ?_, ?_⟩
  · have horder := h.order
    simp only [releaseMessage, List.filterMap_append, List.append_assoc] at horder ⊢
    simpa [hmessage] using horder
  · intro other found hfound
    simp only [releaseMessage] at hfound
    split at hfound
    · cases hfound
    · next hne =>
      obtain ⟨hmem, hseq⟩ := h.recorded other found hfound
      exact ⟨(List.mem_cons.mp hmem).resolve_left hne, hseq⟩
  · intro request hrequest
    obtain ⟨hacc, hmem, hnone⟩ := h.waiting request hrequest
    have hne : request.sequence ≠ sequence := fun heq => by
      rw [heq] at hnone
      exact absurd (hnone.symm.trans hterminal) (by simp)
    refine ⟨hacc, (List.mem_cons.mp hmem).resolve_left hne, ?_⟩
    simp only [releaseMessage]
    rw [if_neg hne]
    exact hnone
  · intro other hcancelled
    simp only [releaseMessage] at hcancelled ⊢
    split at hcancelled
    · cases hcancelled
    · next hne =>
      rw [if_neg hne]
      exact h.withdrawn other hcancelled
  · intro other hmem
    have hne : other ≠ sequence := fun heq => hfront (heq ▸ hmem)
    simp only [releaseMessage]
    rw [if_neg hne]
    exact h.served other (List.mem_cons_of_mem _ hmem)
  · have hbound := h.bounded
    simp only [List.length_cons] at hbound
    exact Nat.le_of_succ_le hbound
  · have hquiet := h.quiet
    simp only [releaseMessage] at hquiet ⊢
    rw [← List.append_assoc]
    refine List.pairwise_append.mpr ⟨hquiet, List.pairwise_singleton _ _, ?_⟩
    intro earlier _ later hlater other _
    rw [List.mem_singleton.mp hlater, WorkerMessage.progress_of_terminal hmessage]
    exact fun hcontra => by cases hcontra

theorem Balanced.release_grows {rest : List Nat}
    (h : Balanced accepted dispatched drained { queue with submissionOrder := sequence :: rest })
    (hterminal : queue.terminal sequence = some message) :
    WorkerOperationQueue.Grows { queue with submissionOrder := sequence :: rest }
      { queue.releaseMessage sequence message with submissionOrder := rest } := by
  refine ⟨⟨[message], rfl, ?_⟩, List.suffix_cons _ _, ?_, rfl⟩
  · intro found hfound
    rw [List.mem_singleton.mp hfound]
    exact WorkerMessage.progress_of_terminal (h.recorded sequence message hterminal).2
  · intro other hcancelled
    by_cases heq : other = sequence
    · exact Or.inr (heq ▸ (List.nodup_cons.mp h.order_nodup).1)
    · left
      simp only [releaseMessage]
      rw [if_neg heq]
      exact hcancelled

/-- A part of a call that ends with everything released. -/
structure Settles (accepted dispatched : List WorkerRequest) (drained : List WorkerMessage)
    (before after : WorkerOperationQueue) : Prop where
  balanced : Balanced accepted dispatched drained after
  released : after.Released
  grows : before.Grows after

theorem releaseFrom_settles (submissions : List Nat) (queue : WorkerOperationQueue)
    (h : Balanced accepted dispatched drained { queue with submissionOrder := submissions }) :
    Settles accepted dispatched drained { queue with submissionOrder := submissions }
      (queue.releaseFrom submissions) := by
  induction submissions generalizing queue with
  | nil => exact ⟨h, (fun _ hhead => nomatch hhead), .of_eq rfl rfl (fun _ hc => hc) rfl⟩
  | cons sequence rest ih =>
    cases hterminal : queue.terminal sequence with
    | none =>
      simp only [releaseFrom, hterminal]
      refine ⟨h, ?_, .of_eq rfl rfl (fun _ hc => hc) rfl⟩
      intro other hhead
      cases hhead
      exact hterminal
    | some message =>
      simp only [releaseFrom, hterminal]
      have hrest := ih (queue.releaseMessage sequence message) (h.release hterminal)
      exact ⟨hrest.balanced, hrest.released, (h.release_grows hterminal).trans hrest.grows⟩

@[simp] theorem releaseFrom_workers (submissions : List Nat) (queue : WorkerOperationQueue) :
    (queue.releaseFrom submissions).workers = queue.workers := by
  induction submissions generalizing queue with
  | nil => rfl
  | cons sequence rest ih =>
    unfold releaseFrom
    split
    · rfl
    · rw [ih]
      rfl

@[simp] theorem releaseFrom_pending (submissions : List Nat) (queue : WorkerOperationQueue) :
    (queue.releaseFrom submissions).pending = queue.pending := by
  induction submissions generalizing queue with
  | nil => rfl
  | cons sequence rest ih =>
    unfold releaseFrom
    split
    · rfl
    · rw [ih]
      rfl

variable {index : Nat}

section

variable (h : Balanced accepted dispatched drained queue)
include h

theorem releaseOrdered_settles : Settles accepted dispatched drained queue queue.releaseOrdered :=
  releaseFrom_settles queue.submissionOrder queue h

theorem Balanced.insert (hmem : sequence ∈ queue.submissionOrder)
    (hmessage : message.terminalSequence = some sequence)
    (hpending : ∀ request ∈ queue.pending, request.sequence ≠ sequence) :
    Balanced accepted dispatched drained (queue.insertTerminal sequence message) := by
  refine ⟨h.order, h.increasing, h.last, ?_, ?_, h.once, h.known, ?_, h.lost, h.active, ?_, h.bounded, h.quiet⟩
  · intro other found hfound
    simp only [insertTerminal] at hfound
    split at hfound
    · next heq =>
      cases hfound
      exact ⟨heq ▸ hmem, heq ▸ hmessage⟩
    · exact h.recorded other found hfound
  · intro request hrequest
    obtain ⟨hacc, hout, hnone⟩ := h.waiting request hrequest
    refine ⟨hacc, hout, ?_⟩
    simp only [insertTerminal]
    rw [if_neg (hpending request hrequest)]
    exact hnone
  · intro other hcancelled
    simp only [insertTerminal]
    split
    · rfl
    · exact h.withdrawn other hcancelled
  · intro other hout
    simp only [insertTerminal]
    split
    · exact Or.inl rfl
    · exact h.served other hout

theorem Balanced.setWorker {worker next : WorkerState} (hworker : queue.workers[index]? = some worker)
    (hlost : next.failed = true → next.ready = false ∧ next.running = none)
    (hactive : next.running = none ∨ next.running = worker.running)
    (hrun : ∀ sequence ∈ queue.submissionOrder, worker.running = some sequence → next.running = some sequence ∨
      (queue.terminal sequence).isSome) :
    Balanced accepted dispatched drained (queue.setWorker index next) := by
  have hlt : index < queue.workers.length := (List.getElem?_eq_some_iff.mp hworker).1
  refine ⟨h.order, h.increasing, h.last, h.recorded, h.waiting, h.once, h.known, h.withdrawn, ?_, ?_, ?_, h.bounded,
    h.quiet⟩
  · intro other hmem hfailed
    rcases List.mem_or_eq_of_mem_set hmem with hmem | rfl
    · exact h.lost other hmem hfailed
    · exact hlost hfailed
  · intro other hmem sequence hrunning
    rcases List.mem_or_eq_of_mem_set hmem with hmem | rfl
    · exact h.active other hmem sequence hrunning
    · rcases hactive with hnone | hsame
      · rw [hnone] at hrunning
        cases hrunning
      · exact h.active worker (List.mem_of_getElem? hworker) sequence (hsame ▸ hrunning)
  · intro sequence hmem
    rcases h.served sequence hmem with hterminal | ⟨other, hother, hrunning⟩ | hpending
    · exact Or.inl hterminal
    · obtain ⟨k, hk⟩ := List.mem_iff_getElem?.mp hother
      by_cases heq : index = k
      · subst heq
        cases hworker.symm.trans hk
        rcases hrun sequence hmem hrunning with hnext | hterminal
        · exact Or.inr (Or.inl ⟨next, List.mem_set hlt next, hnext⟩)
        · exact Or.inl hterminal
      · refine Or.inr (Or.inl ⟨other, List.mem_of_getElem? (i := k) ?_, hrunning⟩)
        rw [WorkerOperationQueue.setWorker, List.getElem?_set_ne heq]
        exact hk
    · exact Or.inr (Or.inr hpending)

theorem Balanced.active_not_pending {worker : WorkerState}
    (hworker : worker ∈ queue.workers) (hrunning : worker.running = some sequence) :
    ∀ request ∈ queue.pending, request.sequence ≠ sequence := by
  intro request hrequest heq
  have hnodup := h.once
  rw [List.map_append] at hnodup
  exact (List.nodup_append.mp hnodup).2.2 sequence (h.active worker hworker sequence hrunning) sequence
    (List.mem_map.mpr ⟨request, hrequest, heq⟩) rfl

end

theorem recordTerminal_settles (hmessage : message.terminalSequence = some sequence)
    (hinsert : sequence ∈ queue.submissionOrder → queue.terminal sequence = none →
      Balanced accepted dispatched drained (queue.insertTerminal sequence message))
    (hkeep : sequence ∉ queue.submissionOrder ∨ (queue.terminal sequence).isSome → Balanced accepted dispatched drained queue) :
    Settles accepted dispatched drained queue (queue.recordTerminal message) := by
  unfold recordTerminal
  rw [hmessage]
  simp only
  split
  · next hcond =>
    simp only [containsSequence, Bool.and_eq_true, List.contains_iff_mem, Option.isNone_iff_eq_none] at hcond
    have hnext := releaseOrdered_settles (hinsert hcond.1 hcond.2)
    exact ⟨hnext.balanced, hnext.released, hnext.grows.after_eq rfl rfl (fun _ hc => hc) rfl⟩
  · next hcond =>
    apply releaseOrdered_settles
    apply hkeep
    by_cases hmem : sequence ∈ queue.submissionOrder
    · right
      cases hterminal : queue.terminal sequence with
      | none => simp [containsSequence, hmem, hterminal] at hcond
      | some found => rfl
    · exact Or.inl hmem

@[simp] theorem recordTerminal_workers (queue : WorkerOperationQueue) (message : WorkerMessage) :
    (queue.recordTerminal message).workers = queue.workers := by
  unfold recordTerminal
  split
  · rfl
  · split
    · exact releaseFrom_workers _ _
    · exact releaseFrom_workers _ _

@[simp] theorem recordTerminal_pending (queue : WorkerOperationQueue) (message : WorkerMessage) :
    (queue.recordTerminal message).pending = queue.pending := by
  unfold recordTerminal
  split
  · rfl
  · split
    · exact releaseFrom_pending _ _
    · exact releaseFrom_pending _ _

variable {request : WorkerRequest}

theorem Balanced.failFirst {rest : List WorkerRequest}
    (h : Balanced accepted dispatched drained { queue with pending := request :: rest }) :
    Balanced accepted dispatched drained
      { queue.insertTerminal request.sequence (.failed request.sequence .unavailable) with pending := rest } := by
  have hnodup := h.once
  rw [List.map_append] at hnodup
  have hfirst := List.nodup_cons.mp (List.nodup_append.mp hnodup).2.1
  have hother : ∀ other ∈ rest, other.sequence ≠ request.sequence := fun other hmem heq =>
    hfirst.1 (List.mem_map.mpr ⟨other, hmem, heq⟩)
  have hout : request.sequence ∈ queue.submissionOrder := (h.waiting request List.mem_cons_self).2.1
  refine ⟨h.order, h.increasing, h.last, ?_, ?_, ?_, h.known, ?_, h.lost, h.active, ?_, h.bounded, h.quiet⟩
  · intro other found hfound
    simp only [insertTerminal] at hfound
    split at hfound
    · next heq =>
      cases hfound
      exact ⟨heq ▸ hout, heq ▸ rfl⟩
    · exact h.recorded other found hfound
  · intro other hmem
    obtain ⟨hacc, hmember, hnone⟩ := h.waiting other (List.mem_cons_of_mem _ hmem)
    refine ⟨hacc, hmember, ?_⟩
    simp only [insertTerminal]
    rw [if_neg (hother other hmem)]
    exact hnone
  · refine hnodup.sublist ?_
    rw [List.map_append]
    exact (List.Sublist.refl _).append (List.sublist_cons_self _ _)
  · intro other hcancelled
    simp only [insertTerminal]
    split
    · rfl
    · exact h.withdrawn other hcancelled
  · intro other hmem
    simp only [insertTerminal]
    by_cases heq : other = request.sequence
    · exact Or.inl (by rw [if_pos heq]; rfl)
    · rw [if_neg heq]
      rcases h.served other hmem with hterminal | hactive | hpending
      · exact Or.inl hterminal
      · exact Or.inr (Or.inl hactive)
      · rcases List.mem_cons.mp hpending with hfound | hpending
        · exact absurd hfound heq
        · exact Or.inr (Or.inr hpending)

theorem failPending_balanced (requests : List WorkerRequest) (queue : WorkerOperationQueue)
    (h : Balanced accepted dispatched drained { queue with pending := requests }) :
    Balanced accepted dispatched drained (queue.failPending requests) := by
  induction requests generalizing queue with
  | nil => exact h
  | cons request rest ih => exact ih _ h.failFirst

/-- What the loop over the workers does: it starts a first part of the requests, each on a free worker. -/
structure Assigned (index : Nat) (workers : List WorkerState) (pending : List WorkerRequest)
    (outcome : List WorkerState × List WorkerRequest × List WorkerHostCommand) : Prop where
  taken : pending = outcome.2.2.filterMap WorkerHostCommand.started ++ outcome.2.1
  kept : ∀ k, outcome.1[k]? = workers[k]? ∨ ∃ worker request, workers[k]? = some worker ∧ worker.free ∧
    outcome.1[k]? = some { worker with running := some request.sequence } ∧ .run (index + k) request ∈ outcome.2.2
  given : ∀ command ∈ outcome.2.2, ∃ k worker request, command = .run (index + k) request ∧
    workers[k]? = some worker ∧ worker.free ∧ outcome.1[k]? = some { worker with running := some request.sequence }

theorem dispatchLoop_assigned (workers : List WorkerState) (index : Nat) (pending : List WorkerRequest) :
    Assigned index workers pending (dispatchLoop index workers pending) := by
  induction workers generalizing index pending with
  | nil => exact ⟨rfl, fun _ => Or.inl rfl, by simp [dispatchLoop]⟩
  | cons worker workers ih =>
    by_cases hbusy : (!worker.ready || worker.failed || worker.running.isSome) = true
    · have hrest := ih (index + 1) pending
      simp only [dispatchLoop, hbusy, if_true]
      refine ⟨hrest.taken, ?_, ?_⟩
      · intro k
        cases k with
        | zero => exact Or.inl rfl
        | succ k =>
          rcases hrest.kept k with hsame | ⟨found, request, hfound, hfree, hnext, hmem⟩
          · exact Or.inl hsame
          · exact Or.inr ⟨found, request, hfound, hfree, hnext, by rwa [show index + (k + 1) = index + 1 + k by omega]⟩
      · intro command hmem
        obtain ⟨k, found, request, rfl, hfound, hfree, hnext⟩ := hrest.given command hmem
        exact ⟨k + 1, found, request, by rw [show index + (k + 1) = index + 1 + k by omega], hfound, hfree, hnext⟩
    · have hfree : worker.free := by
        simp only [Bool.not_eq_true, Bool.or_eq_false_iff, Bool.not_eq_false'] at hbusy
        exact ⟨hbusy.1.1, hbusy.1.2, by simpa using hbusy.2⟩
      simp only [dispatchLoop, hbusy]
      cases pending with
      | nil => exact ⟨rfl, fun _ => Or.inl rfl, by simp⟩
      | cons request rest =>
        have hrest := ih (index + 1) rest
        refine ⟨?_, ?_, ?_⟩
        · simpa [WorkerHostCommand.started] using hrest.taken
        · intro k
          cases k with
          | zero => exact Or.inr ⟨worker, request, rfl, hfree, rfl, by simp⟩
          | succ k =>
            rcases hrest.kept k with hsame | ⟨found, other, hfound, hok, hnext, hmem⟩
            · exact Or.inl hsame
            · refine Or.inr ⟨found, other, hfound, hok, hnext, List.mem_cons_of_mem _ ?_⟩
              rwa [show index + (k + 1) = index + 1 + k by omega]
        · intro command hmem
          rcases List.mem_cons.mp hmem with rfl | hmem
          · exact ⟨0, worker, request, rfl, rfl, hfree, rfl⟩
          · obtain ⟨k, found, other, rfl, hfound, hok, hnext⟩ := hrest.given command hmem
            exact ⟨k + 1, found, other, by rw [show index + (k + 1) = index + 1 + k by omega], hfound, hok, hnext⟩

variable {pending : List WorkerRequest}

variable {outcome : List WorkerState × List WorkerRequest × List WorkerHostCommand}

variable {workers : List WorkerState}

theorem Assigned.worker (h : Assigned index workers pending outcome) {worker : WorkerState}
    (hmem : worker ∈ outcome.1) :
    worker ∈ workers ∨ ∃ found ∈ workers, found.free ∧
      ∃ request ∈ outcome.2.2.filterMap WorkerHostCommand.started,
        worker = { found with running := some request.sequence } := by
  obtain ⟨k, hk⟩ := List.mem_iff_getElem?.mp hmem
  rcases h.kept k with hsame | ⟨found, request, hfound, hfree, hnext, hcommand⟩
  · exact Or.inl (List.mem_of_getElem? (hsame.symm.trans hk))
  · cases hnext.symm.trans hk
    exact Or.inr ⟨found, List.mem_of_getElem? hfound, hfree, request,
      List.mem_filterMap.mpr ⟨_, hcommand, rfl⟩, rfl⟩

theorem Assigned.running (h : Assigned index workers pending outcome)
    {worker : WorkerState} (hmem : worker ∈ workers) (hrunning : worker.running = some sequence) :
    worker ∈ outcome.1 := by
  obtain ⟨k, hk⟩ := List.mem_iff_getElem?.mp hmem
  rcases h.kept k with hsame | ⟨found, request, hfound, hfree, _, _⟩
  · exact List.mem_of_getElem? (hsame.trans hk)
  · cases hk.symm.trans hfound
    rw [hfree.2.2] at hrunning
    cases hrunning

theorem Balanced.dispatch (h : Balanced accepted dispatched drained queue) :
    Balanced accepted (dispatched ++ queue.dispatchReadyWorkers.2.filterMap WorkerHostCommand.started) drained
      queue.dispatchReadyWorkers.1 := by
  have hassigned := dispatchLoop_assigned queue.workers 0 queue.pending
  unfold dispatchReadyWorkers
  generalize dispatchLoop 0 queue.workers queue.pending = outcome at hassigned
  obtain ⟨workers, pending, commands⟩ := outcome
  have htaken : queue.pending = commands.filterMap WorkerHostCommand.started ++ pending := hassigned.taken
  have hstarted : ∀ request ∈ commands.filterMap WorkerHostCommand.started, request ∈ queue.pending := by
    intro request hmem
    rw [htaken]
    exact List.mem_append_left _ hmem
  refine ⟨h.order, h.increasing, h.last, h.recorded, ?_, ?_, ?_, h.withdrawn, ?_, ?_, ?_, h.bounded, h.quiet⟩
  · intro request hmem
    exact h.waiting request (by rw [htaken]; exact List.mem_append_right _ hmem)
  · have honce := h.once
    rw [htaken] at honce
    simpa [List.append_assoc] using honce
  · intro request hmem
    rcases List.mem_append.mp hmem with hmem | hmem
    · exact h.known request hmem
    · exact (h.waiting request (hstarted request hmem)).1
  · intro worker hmem hfailed
    rcases hassigned.worker hmem with hmem | ⟨found, _, hfree, request, _, rfl⟩
    · exact h.lost worker hmem hfailed
    · exact absurd (hfree.2.1.symm.trans hfailed) (by simp)
  · intro worker hmem sequence hrunning
    rw [List.map_append]
    rcases hassigned.worker hmem with hmem | ⟨found, _, _, request, hrequest, rfl⟩
    · exact List.mem_append_left _ (h.active worker hmem sequence hrunning)
    · cases hrunning
      exact List.mem_append_right _ (List.mem_map.mpr ⟨request, hrequest, rfl⟩)
  · intro sequence hmem
    rcases h.served sequence hmem with hterminal | ⟨worker, hworker, hrunning⟩ | hpending
    · exact Or.inl hterminal
    · exact Or.inr (Or.inl ⟨worker, hassigned.running hworker hrunning, hrunning⟩)
    · rw [htaken, List.map_append] at hpending
      rcases List.mem_append.mp hpending with hstart | hpending
      · obtain ⟨request, hrequest, rfl⟩ := List.mem_map.mp hstart
        obtain ⟨command, hcommand, hrun⟩ := List.mem_filterMap.mp hrequest
        obtain ⟨k, found, other, rfl, _, _, hnext⟩ := hassigned.given command hcommand
        cases hrun
        exact Or.inr (Or.inl ⟨_, List.mem_of_getElem? hnext, rfl⟩)
      · exact Or.inr (Or.inr hpending)

theorem dispatch_grows (queue : WorkerOperationQueue) : queue.Grows queue.dispatchReadyWorkers.1 :=
  .of_eq rfl rfl (fun _ hc => hc) rfl

theorem dispatch_released (h : queue.Released) : queue.dispatchReadyWorkers.1.Released := h

theorem Balanced.enqueue (h : Balanced accepted dispatched drained queue) (hrefusal : queue.refusal request = none) :
    Balanced (accepted ++ [request]) dispatched drained (queue.enqueue request) := by
  unfold refusal at hrefusal
  split at hrefusal
  · cases hrefusal
  split at hrefusal
  · cases hrefusal
  next hmonotonic =>
  split at hrefusal
  · cases hrefusal
  next hroom =>
  have hnew : ∀ other ∈ accepted, other.sequence < request.sequence := by
    intro other hmem
    obtain ⟨previous, hprevious, hle⟩ := h.last other hmem
    rw [hprevious] at hmonotonic
    simp only [Option.any_some, decide_eq_true_eq, Nat.not_le] at hmonotonic
    omega
  have hfresh : request.sequence ∉ queue.submissionOrder := by
    intro hmem
    have hold : request.sequence ∈ accepted.map WorkerRequest.sequence := by
      rw [← h.order]
      exact List.mem_append_right _ hmem
    obtain ⟨other, hother, heq⟩ := List.mem_map.mp hold
    exact absurd (hnew other hother) (by omega)
  have hnone : queue.terminal request.sequence = none := by
    cases hterminal : queue.terminal request.sequence with
    | none => rfl
    | some message => exact absurd (h.recorded _ _ hterminal).1 hfresh
  refine ⟨?_, ?_, ?_, ?_, ?_, ?_, ?_, h.withdrawn, h.lost, h.active, ?_, ?_, h.quiet⟩
  · rw [List.map_append, ← h.order]
    simp [WorkerOperationQueue.enqueue]
  · rw [List.map_append]
    refine List.pairwise_append.mpr ⟨h.increasing, List.pairwise_singleton _ _, ?_⟩
    intro sequence hmem other hother
    obtain ⟨found, hfound, rfl⟩ := List.mem_map.mp hmem
    rw [List.mem_singleton.mp hother]
    exact hnew found hfound
  · intro other hmem
    refine ⟨request.sequence, rfl, ?_⟩
    rcases List.mem_append.mp hmem with hmem | hmem
    · exact Nat.le_of_lt (hnew other hmem)
    · rw [List.mem_singleton.mp hmem]
  · intro sequence message hterminal
    obtain ⟨hmem, hmessage⟩ := h.recorded sequence message hterminal
    exact ⟨List.mem_append_left _ hmem, hmessage⟩
  · intro other hmem
    rcases List.mem_append.mp hmem with hmem | hmem
    · obtain ⟨hacc, hout, hwait⟩ := h.waiting other hmem
      exact ⟨List.mem_append_left _ hacc, List.mem_append_left _ hout, hwait⟩
    · rw [List.mem_singleton.mp hmem]
      exact ⟨List.mem_append_right _ List.mem_cons_self, List.mem_append_right _ List.mem_cons_self, hnone⟩
  · show ((dispatched ++ (queue.pending ++ [request])).map WorkerRequest.sequence).Nodup
    rw [← List.append_assoc, List.map_append]
    refine List.nodup_append.mpr ⟨h.once, List.pairwise_singleton _ _, ?_⟩
    intro sequence hmem other hother
    obtain ⟨found, hfound, rfl⟩ := List.mem_map.mp hmem
    have hacc : found ∈ accepted := by
      rcases List.mem_append.mp hfound with hfound | hfound
      · exact h.known found hfound
      · exact (h.waiting found hfound).1
    rw [List.mem_singleton.mp hother]
    exact Nat.ne_of_lt (hnew found hacc)
  · intro other hmem
    exact List.mem_append_left _ (h.known other hmem)
  · intro sequence hmem
    rcases List.mem_append.mp hmem with hmem | hmem
    · rcases h.served sequence hmem with hterminal | hactive | hpending
      · exact Or.inl hterminal
      · exact Or.inr (Or.inl hactive)
      · obtain ⟨other, hother, heq⟩ := List.mem_map.mp hpending
        exact Or.inr (Or.inr (List.mem_map.mpr ⟨other, List.mem_append_left _ hother, heq⟩))
    · exact Or.inr (Or.inr (List.mem_map.mpr ⟨request, List.mem_append_right _ List.mem_cons_self,
        (List.mem_singleton.mp hmem).symm⟩))
  · simp only [WorkerOperationQueue.enqueue, List.length_append, List.length_singleton]
    simp only [outstanding] at hroom
    omega

theorem sequence_ne_of_mem_eraseP (hnodup : (pending.map WorkerRequest.sequence).Nodup)
    (hmem : request ∈ pending.eraseP (·.sequence = sequence)) : request.sequence ≠ sequence := by
  induction pending with
  | nil => simp at hmem
  | cons first rest ih =>
    obtain ⟨hfirst, hrest⟩ := List.nodup_cons.mp hnodup
    by_cases heq : first.sequence = sequence
    · rw [List.eraseP_cons_of_pos (by simpa using heq)] at hmem
      exact fun hsame => hfirst (List.mem_map.mpr ⟨request, hmem, hsame.trans heq.symm⟩)
    · rw [List.eraseP_cons_of_neg (by simpa using heq)] at hmem
      rcases List.mem_cons.mp hmem with rfl | hmem
      · exact heq
      · exact ih hrest hmem

/-- A request is withdrawn: it does not wait any more and has its terminal message. -/
theorem Balanced.withdraw (h : Balanced accepted dispatched drained queue) {terminal : Nat → Option WorkerMessage}
    (hmem : sequence ∈ queue.submissionOrder) (hmessage : message.terminalSequence = some sequence)
    (hterminal : ∀ other, terminal other = if other = sequence then some message else queue.terminal other) :
    Balanced accepted dispatched drained { queue with
      cancelled := fun other => if other = sequence then true else queue.cancelled other
      pending := queue.pending.eraseP (·.sequence = sequence)
      terminal := terminal } := by
  have hpending : (queue.pending.map WorkerRequest.sequence).Nodup := by
    have honce := h.once
    rw [List.map_append] at honce
    exact (List.nodup_append.mp honce).2.1
  refine ⟨h.order, h.increasing, h.last, ?_, ?_, ?_, h.known, ?_, h.lost, h.active, ?_, h.bounded, h.quiet⟩
  · intro other found hfound
    simp only [hterminal] at hfound
    split at hfound
    · next heq =>
      cases hfound
      exact ⟨heq ▸ hmem, heq ▸ hmessage⟩
    · exact h.recorded other found hfound
  · intro request hrequest
    obtain ⟨hacc, hout, hnone⟩ := h.waiting request (List.mem_of_mem_eraseP hrequest)
    refine ⟨hacc, hout, ?_⟩
    simp only [hterminal]
    rw [if_neg (sequence_ne_of_mem_eraseP hpending hrequest)]
    exact hnone
  · exact h.once.sublist (((List.Sublist.refl _).append List.eraseP_sublist).map _)
  · intro other hcancelled
    simp only [hterminal] at hcancelled ⊢
    split
    · rfl
    · next hne =>
      rw [if_neg hne] at hcancelled
      exact h.withdrawn other hcancelled
  · intro other hout
    simp only [hterminal]
    by_cases heq : other = sequence
    · exact Or.inl (by rw [if_pos heq]; rfl)
    · rw [if_neg heq]
      rcases h.served other hout with hrecorded | hactive | hwaits
      · exact Or.inl hrecorded
      · exact Or.inr (Or.inl hactive)
      · obtain ⟨request, hrequest, rfl⟩ := List.mem_map.mp hwaits
        refine Or.inr (Or.inr (List.mem_map.mpr ⟨request, ?_, rfl⟩))
        exact (List.mem_eraseP_of_neg (by simpa using heq)).mpr hrequest

def markCancelled (queue : WorkerOperationQueue) (sequence : Nat) : WorkerOperationQueue :=
  { queue with
    cancelled := fun other => if other = sequence then true else queue.cancelled other
    pending := queue.pending.eraseP (·.sequence = sequence) }

section

variable (h : Balanced accepted dispatched drained queue)
include h

section

variable (hmem : sequence ∈ queue.submissionOrder)
include hmem

theorem withdraw_settles_marked :
    Settles accepted dispatched drained (markCancelled queue sequence) (queue.withdraw sequence) := by
  refine recordTerminal_settles (show WorkerMessage.terminalSequence (.failed sequence .cancelled) = _ from rfl) ?_ ?_
  · intro _ _
    exact h.withdraw hmem rfl fun _ => rfl
  · intro hsome
    obtain ⟨found, hfound⟩ := Option.isSome_iff_exists.mp (hsome.resolve_left fun hout => hout hmem)
    refine h.withdraw hmem (h.recorded sequence found hfound).2 fun other => ?_
    split
    · next heq => exact heq ▸ hfound
    · rfl

theorem withdraw_settles : Settles accepted dispatched drained queue (queue.withdraw sequence) := by
  have hsettles := withdraw_settles_marked h hmem
  refine ⟨hsettles.balanced, hsettles.released, hsettles.grows.after_eq rfl rfl ?_ rfl⟩
  intro other hcancelled
  simp only [markCancelled]
  split
  · rfl
  · exact hcancelled

theorem withdraw_marks :
    (queue.withdraw sequence).cancelled sequence = true ∨ sequence ∉ (queue.withdraw sequence).submissionOrder :=
  (withdraw_settles_marked h hmem).grows.cancelled sequence (if_pos rfl)

end

theorem complete_settles {index sequence : Nat} {worker : WorkerState}
    (hworker : queue.workers[index]? = some worker) (hrunning : worker.running = some sequence)
    (hmessage : message.terminalSequence = some sequence) (next : WorkerState) (hidle : next.running = none)
    (hlost : next.failed = true → next.ready = false) :
    Settles accepted dispatched drained queue ((queue.setWorker index next).recordTerminal message) := by
  have hwaits := h.active_not_pending (List.mem_of_getElem? hworker) hrunning
  have hsettles : Settles accepted dispatched drained (queue.setWorker index next)
      ((queue.setWorker index next).recordTerminal message) := by
    apply recordTerminal_settles hmessage
    · intro hmem _
      refine (h.insert hmem hmessage hwaits).setWorker hworker (fun hf => ⟨hlost hf, hidle⟩) (Or.inl hidle) ?_
      intro other _ hother
      cases hrunning.symm.trans hother
      exact Or.inr (by simp [insertTerminal])
    · intro hkeep
      refine h.setWorker hworker (fun hf => ⟨hlost hf, hidle⟩) (Or.inl hidle) ?_
      intro other hmem hother
      cases hrunning.symm.trans hother
      exact Or.inr (hkeep.resolve_left fun hout => hout hmem)
  exact ⟨hsettles.balanced, hsettles.released, hsettles.grows.after_eq rfl rfl (fun _ hc => hc) rfl⟩

theorem failActive_settles (hreleased : queue.Released) {worker : WorkerState}
    (hworker : queue.workers[index]? = some worker) (error : WorkerFailure) :
    Settles accepted dispatched drained queue
      ((queue.setWorker index ⟨false, true, none⟩).failActive worker.running error) := by
  have hstopped : ∀ (hdone : ∀ sequence ∈ queue.submissionOrder, worker.running = some sequence →
      (queue.terminal sequence).isSome), Settles accepted dispatched drained queue
        (queue.setWorker index ⟨false, true, none⟩) := fun hdone =>
    ⟨h.setWorker hworker (fun _ => ⟨rfl, rfl⟩) (Or.inl rfl) fun sequence hmem hr => Or.inr (hdone sequence hmem hr),
      hreleased, .of_eq rfl rfl (fun _ hc => hc) rfl⟩
  unfold failActive
  split
  · next hnone => exact hstopped fun sequence _ hr => absurd (hnone.symm.trans hr) (by simp)
  · next sequence hrunning =>
    split
    · next hcancelled =>
      refine hstopped fun other _ hr => ?_
      cases hrunning.symm.trans hr
      exact h.withdrawn sequence hcancelled
    · exact complete_settles h hworker hrunning rfl ⟨false, true, none⟩ rfl fun _ => rfl

end

theorem failPending_grows (requests : List WorkerRequest) (queue : WorkerOperationQueue) :
    queue.Grows (queue.failPending requests) := by
  induction requests generalizing queue with
  | nil => exact .of_eq rfl rfl (fun _ hc => hc) rfl
  | cons request rest ih => exact (ih _).after_eq rfl rfl (fun _ hc => hc) rfl

theorem failPendingIfUnavailable_settles (h : Balanced accepted dispatched drained queue) (hreleased : queue.Released) :
    Settles accepted dispatched drained queue queue.failPendingIfUnavailable := by
  unfold failPendingIfUnavailable
  split
  · have hsettles := releaseOrdered_settles (failPending_balanced queue.pending queue h)
    exact ⟨hsettles.balanced, hsettles.released, (failPending_grows _ _).trans hsettles.grows⟩
  · exact ⟨h, hreleased, .of_eq rfl rfl (fun _ hc => hc) rfl⟩

end Balance

end LogicConduit
