import LogicConduit.ByteRegion

namespace LogicConduit

structure WorkerRequest where
  sequence : Nat
  operation : String
  payload : Bytes
  deriving DecidableEq

inductive WorkerFailure
  | operationNotRegistered (operation : String)
  | kernel (message : String)
  | host (message : String)
  | protocol (message : String)
  | cancelled
  | unavailable
  deriving DecidableEq

inductive WorkerMessage
  | run (request : WorkerRequest)
  | cancel (sequence : Nat)
  | progress (sequence completed : Nat) (total : Option Nat)
  | complete (sequence : Nat) (payload : Bytes)
  | failed (sequence : Nat) (error : WorkerFailure)
  deriving DecidableEq

/-- The request that a terminal message ends. The source has no value for the other messages, which never enter
the ordered completion buffer. -/
def WorkerMessage.terminalSequence : WorkerMessage → Option Nat
  | .complete sequence _ | .failed sequence _ => some sequence
  | _ => none

def WorkerMessage.progressSequence : WorkerMessage → Option Nat
  | .progress sequence _ _ => some sequence
  | _ => none

inductive WorkerQueueError
  | emptyPool
  | insufficientCapacity (workerCount maxOutstanding : Nat)
  | operationNotRegistered (operation : String)
  | nonMonotonicSequence (sequence previous : Nat)
  | full
  deriving DecidableEq

structure WorkerState where
  ready : Bool
  failed : Bool
  running : Option Nat
  deriving DecidableEq

def WorkerState.default : WorkerState := ⟨false, false, none⟩

inductive WorkerHostCommand
  | run (workerIndex : Nat) (request : WorkerRequest)
  | cancel (workerIndex sequence : Nat)
  deriving DecidableEq

def WorkerHostCommand.started : WorkerHostCommand → Option WorkerRequest
  | .run _ request => some request
  | .cancel _ _ => none

structure WorkerOperationQueue where
  workers : List WorkerState
  pending : List WorkerRequest
  submissionOrder : List Nat
  terminal : Nat → Option WorkerMessage
  delivered : List WorkerMessage
  cancelled : Nat → Bool
  maxOutstanding : Nat
  lastSubmittedSequence : Option Nat
  operations : List String

namespace WorkerOperationQueue

def new (workerCount maxOutstanding : Nat) (operations : List String) : Except WorkerQueueError WorkerOperationQueue :=
  if workerCount = 0 then .error .emptyPool
  else if maxOutstanding < workerCount then .error (.insufficientCapacity workerCount maxOutstanding)
  else .ok {
    workers := List.replicate workerCount .default
    pending := []
    submissionOrder := []
    terminal := fun _ => none
    delivered := []
    cancelled := fun _ => false
    maxOutstanding := maxOutstanding
    lastSubmittedSequence := none
    operations := operations }

/-- Number of accepted requests whose ordered terminal result is pending. -/
def outstanding (queue : WorkerOperationQueue) : Nat := queue.submissionOrder.length

def containsSequence (queue : WorkerOperationQueue) (sequence : Nat) : Bool :=
  queue.submissionOrder.contains sequence

def releaseMessage (queue : WorkerOperationQueue) (sequence : Nat) (message : WorkerMessage) : WorkerOperationQueue :=
  { queue with
    terminal := fun other => if other = sequence then none else queue.terminal other
    cancelled := fun other => if other = sequence then false else queue.cancelled other
    delivered := queue.delivered ++ [message] }

/-- The loop of `release_ordered` over the submissions from the front on. -/
def releaseFrom (queue : WorkerOperationQueue) : List Nat → WorkerOperationQueue
  | [] => { queue with submissionOrder := [] }
  | sequence :: rest =>
    match queue.terminal sequence with
    | none => { queue with submissionOrder := sequence :: rest }
    | some message => (queue.releaseMessage sequence message).releaseFrom rest

def releaseOrdered (queue : WorkerOperationQueue) : WorkerOperationQueue := queue.releaseFrom queue.submissionOrder

def insertTerminal (queue : WorkerOperationQueue) (sequence : Nat) (message : WorkerMessage) : WorkerOperationQueue :=
  { queue with terminal := fun other => if other = sequence then some message else queue.terminal other }

def recordTerminal (queue : WorkerOperationQueue) (message : WorkerMessage) : WorkerOperationQueue :=
  match message.terminalSequence with
  | none => queue
  | some sequence =>
    if queue.containsSequence sequence && (queue.terminal sequence).isNone then
      (queue.insertTerminal sequence message).releaseOrdered
    else queue.releaseOrdered

/-- The loop of `dispatch_ready_workers` over the workers from an index on: the workers, the requests that still
wait and the commands. -/
def dispatchLoop : Nat → List WorkerState → List WorkerRequest →
    List WorkerState × List WorkerRequest × List WorkerHostCommand
  | _, [], pending => ([], pending, [])
  | index, worker :: workers, pending =>
    if !worker.ready || worker.failed || worker.running.isSome then
      let (others, left, commands) := dispatchLoop (index + 1) workers pending
      (worker :: others, left, commands)
    else
      match pending with
      | [] => (worker :: workers, [], [])
      | request :: rest =>
        let (others, left, commands) := dispatchLoop (index + 1) workers rest
        ({ worker with running := some request.sequence } :: others, left, .run index request :: commands)

def dispatchReadyWorkers (queue : WorkerOperationQueue) : WorkerOperationQueue × List WorkerHostCommand :=
  let (workers, pending, commands) := dispatchLoop 0 queue.workers queue.pending
  ({ queue with workers := workers, pending := pending }, commands)

def failPending (queue : WorkerOperationQueue) : List WorkerRequest → WorkerOperationQueue
  | [] => { queue with pending := [] }
  | request :: rest =>
    (queue.insertTerminal request.sequence (.failed request.sequence .unavailable)).failPending rest

def failPendingIfUnavailable (queue : WorkerOperationQueue) : WorkerOperationQueue :=
  if queue.workers.all WorkerState.failed then (queue.failPending queue.pending).releaseOrdered else queue

/-- Why a request is turned down. -/
def refusal (queue : WorkerOperationQueue) (request : WorkerRequest) : Option WorkerQueueError :=
  if !queue.operations.contains request.operation then some (.operationNotRegistered request.operation)
  else if queue.lastSubmittedSequence.any fun previous => request.sequence ≤ previous then
    some (.nonMonotonicSequence request.sequence (queue.lastSubmittedSequence.getD 0))
  else if queue.maxOutstanding ≤ queue.outstanding then some .full
  else none

def enqueue (queue : WorkerOperationQueue) (request : WorkerRequest) : WorkerOperationQueue :=
  { queue with
    lastSubmittedSequence := some request.sequence
    submissionOrder := queue.submissionOrder ++ [request.sequence]
    pending := queue.pending ++ [request] }

def submit (queue : WorkerOperationQueue) (request : WorkerRequest) :
    WorkerOperationQueue × Except WorkerQueueError (List WorkerHostCommand) :=
  match queue.refusal request with
  | some error => (queue, .error error)
  | none =>
    let (queue, commands) := (queue.enqueue request).dispatchReadyWorkers
    (queue, .ok commands)

def setWorker (queue : WorkerOperationQueue) (index : Nat) (worker : WorkerState) : WorkerOperationQueue :=
  { queue with workers := queue.workers.set index worker }

def workerReady (queue : WorkerOperationQueue) (index : Nat) : WorkerOperationQueue × List WorkerHostCommand :=
  match queue.workers[index]? with
  | some worker =>
    if worker.failed then queue.dispatchReadyWorkers
    else (queue.setWorker index { worker with ready := true }).dispatchReadyWorkers
  | none => queue.dispatchReadyWorkers

def workerProgress (queue : WorkerOperationQueue) (sequence completed : Nat) (total : Option Nat) :
    WorkerOperationQueue :=
  if queue.containsSequence sequence && !queue.cancelled sequence then
    { queue with delivered := queue.delivered ++ [.progress sequence completed total] }
  else queue

def failActive (queue : WorkerOperationQueue) (running : Option Nat) (error : WorkerFailure) : WorkerOperationQueue :=
  match running with
  | none => queue
  | some sequence =>
    if queue.cancelled sequence then queue else queue.recordTerminal (.failed sequence error)

def workerFailed (queue : WorkerOperationQueue) (index : Nat) (error : WorkerFailure) :
    WorkerOperationQueue × List WorkerHostCommand :=
  match queue.workers[index]? with
  | none => (queue, [])
  | some worker =>
    (((queue.setWorker index ⟨false, true, none⟩).failActive worker.running error).failPendingIfUnavailable).dispatchReadyWorkers

def resultMessage (sequence : Nat) (result : Except WorkerFailure Bytes) : WorkerMessage :=
  match result with
  | .ok payload => .complete sequence payload
  | .error error => .failed sequence error

def workerCompleted (queue : WorkerOperationQueue) (index : Nat) (reported : Option Nat)
    (result : Except WorkerFailure Bytes) : WorkerOperationQueue × List WorkerHostCommand :=
  match queue.workers[index]? with
  | none => queue.workerFailed index (.protocol "worker returned a terminal message without an active request")
  | some worker =>
    match worker.running with
    | none => queue.workerFailed index (.protocol "worker returned a terminal message without an active request")
    | some running =>
      if reported.any (· ≠ running) then
        queue.workerFailed index (.protocol
          s!"worker returned sequence {reported.getD 0} while running sequence {running}")
      else
        let queue := queue.setWorker index { worker with running := none }
        if queue.containsSequence running && !queue.cancelled running then
          (queue.recordTerminal (resultMessage running result)).dispatchReadyWorkers
        else queue.dispatchReadyWorkers

def cancelCommands (queue : WorkerOperationQueue) (sequence : Nat) : List WorkerHostCommand :=
  (queue.workers.zipIdx.filter fun worker => worker.1.running == some sequence).map fun worker =>
    .cancel worker.2 sequence

def withdraw (queue : WorkerOperationQueue) (sequence : Nat) : WorkerOperationQueue :=
  WorkerOperationQueue.recordTerminal
    { queue with
      cancelled := fun other => if other = sequence then true else queue.cancelled other
      pending := queue.pending.eraseP (·.sequence = sequence) }
    (.failed sequence .cancelled)

def cancel (queue : WorkerOperationQueue) (sequence : Nat) : WorkerOperationQueue × Bool × List WorkerHostCommand :=
  if queue.containsSequence sequence then
    let (next, commands) := (queue.withdraw sequence).dispatchReadyWorkers
    (next, true, queue.cancelCommands sequence ++ commands)
  else (queue, false, [])

def drainMessages (queue : WorkerOperationQueue) : WorkerOperationQueue × List WorkerMessage :=
  ({ queue with delivered := [] }, queue.delivered)

end WorkerOperationQueue

/-- The calls of a host adapter and of its client. -/
inductive QueueCall
  | submit (request : WorkerRequest)
  | workerReady (index : Nat)
  | workerProgress (sequence completed : Nat) (total : Option Nat)
  | workerCompleted (index : Nat) (reported : Option Nat) (result : Except WorkerFailure Bytes)
  | workerFailed (index : Nat) (error : WorkerFailure)
  | cancel (sequence : Nat)
  | drainMessages

/-- A queue with what came out of it so far: the requests it accepted, the commands it returned and the messages
that were drained. -/
structure QueueRun where
  queue : WorkerOperationQueue
  accepted : List WorkerRequest
  commands : List WorkerHostCommand
  drained : List WorkerMessage

namespace QueueRun

def start (queue : WorkerOperationQueue) : QueueRun := ⟨queue, [], [], []⟩

def messages (run : QueueRun) : List WorkerMessage := run.drained ++ run.queue.delivered

def dispatched (run : QueueRun) : List WorkerRequest := run.commands.filterMap WorkerHostCommand.started

def issue (run : QueueRun) (outcome : WorkerOperationQueue × List WorkerHostCommand) : QueueRun :=
  { run with queue := outcome.1, commands := run.commands ++ outcome.2 }

def call (run : QueueRun) : QueueCall → QueueRun
  | .submit request =>
    match run.queue.submit request with
    | (queue, .ok commands) => { run.issue (queue, commands) with accepted := run.accepted ++ [request] }
    | (queue, .error _) => run.issue (queue, [])
  | .workerReady index => run.issue (run.queue.workerReady index)
  | .workerProgress sequence completed total => run.issue (run.queue.workerProgress sequence completed total, [])
  | .workerCompleted index reported result => run.issue (run.queue.workerCompleted index reported result)
  | .workerFailed index error => run.issue (run.queue.workerFailed index error)
  | .cancel sequence =>
    let (queue, _, commands) := run.queue.cancel sequence
    run.issue (queue, commands)
  | .drainMessages =>
    let (queue, messages) := run.queue.drainMessages
    { run with queue := queue, drained := run.drained ++ messages }

def calls (run : QueueRun) : List QueueCall → QueueRun
  | [] => run
  | call :: rest => (run.call call).calls rest

end QueueRun

end LogicConduit
