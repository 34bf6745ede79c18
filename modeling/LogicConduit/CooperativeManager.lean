import LogicConduit.SharedSenders

namespace LogicConduit

/-- How much streamed input a call needs. -/
inductive StreamReadiness
  | item
  | complete
  deriving DecidableEq

inductive InputScheduling
  | all
  | any
  deriving DecidableEq

/-- A subscription to an output of another node, with the `Block` policy. -/
structure InputSub (ι : Type) where
  fromNode : ι
  fromPort : Nat
  buffer : Nat

/-- The capacity of the channel, of which zero is promoted to one. -/
def InputSub.capacity {ι : Type} (sub : InputSub ι) : Nat := max sub.buffer 1

structure InputSpec (ι : Type) where
  source : Option (InputSub ι)
  readiness : StreamReadiness

/-- An acyclic graph of nodes with at most one connected input each. -/
structure NodeGraph (ι : Type) where
  nodes : List ι
  inputs : ι → List (InputSpec ι)
  scheduling : ι → InputScheduling
  rank : ι → Nat
  single : ∀ node, ((inputs node).filterMap InputSpec.source).length ≤ 1
  ranked : ∀ node, ∀ spec ∈ inputs node, ∀ sub, spec.source = some sub → rank sub.fromNode < rank node
  present : ∀ node ∈ nodes, ∀ spec ∈ inputs node, ∀ sub, spec.source = some sub → sub.fromNode ∈ nodes

def NodeGraph.input {ι : Type} (graph : NodeGraph ι) (node : ι) : Option (InputSub ι) :=
  ((graph.inputs node).filterMap InputSpec.source).head?

/-- One call of a sender: `send`, or `send_batch`, which sends nothing for an empty batch. -/
inductive Sending (α : Type)
  | send (value : α)
  | sendBatch (values : List α)

def Sending.message {α : Type} : Sending α → Option (ChannelMessage α)
  | .send value => some (.sample value)
  | .sendBatch values => if values.isEmpty then none else some (.batch values)

inductive WorkOutcome
  | ok (madeProgress shouldStop : Bool)
  | shutdown
  | failed
  deriving DecidableEq

def WorkOutcome.finishes : WorkOutcome → Bool
  | .ok _ shouldStop => shouldStop
  | .shutdown | .failed => true

def WorkOutcome.madeProgress : WorkOutcome → Bool
  | .ok madeProgress _ => madeProgress
  | .shutdown | .failed => false

structure WorkReply (α σ : Type) where
  next : σ
  sends : Nat → Option (Sending α)
  outcome : WorkOutcome

/-- What the nodes do. A call may receive once from its input, where it gets an item or the end of the stream,
and sends at most once on each output. -/
structure NodeWork (ι α σ : Type) where
  receives : ι → σ → Bool
  react : ι → σ → Option (Option α) → WorkReply α σ

/-- The channel into a node with the receiver's buffer and its end-of-stream flag. The last three fields record
what was sent into it, what the node received and whether it met the end. -/
structure Link (α : Type) where
  queue : List (ChannelMessage α)
  buffer : List α
  eos : Bool
  sent : List α
  received : List α
  ended : Bool
  deriving DecidableEq

namespace Link

variable {α : Type}

def new : Link α := ⟨[], [], false, [], [], false⟩

/-- A blocking receive from the channel. There is no result when it has to wait. -/
def recvQueue (link : Link α) (closed : Bool) : List (ChannelMessage α) → Option (Option α × Link α)
  | [] => if closed then some (none, { link with queue := [], ended := true }) else none
  | .sample item :: queue => some (some item, { link with queue := queue, received := link.received ++ [item] })
  | .batch [] :: queue => link.recvQueue closed queue
  | .batch (first :: items) :: queue =>
    some (some first, { link with queue := queue, buffer := items, received := link.received ++ [first] })
  | .endOfStream :: queue => some (none, { link with queue := queue, eos := true, ended := true })

def recv (link : Link α) (closed : Bool) : Option (Option α × Link α) :=
  if link.eos then some (none, link)
  else match link.buffer with
    | item :: items => some (some item, { link with buffer := items, received := link.received ++ [item] })
    | [] => link.recvQueue closed link.queue

def push (link : Link α) (message : ChannelMessage α) : Link α :=
  { link with queue := link.queue ++ [message], sent := link.sent ++ message.items }

/-- The end mark of `close`, where it fits. -/
def close (link : Link α) (capacity : Nat) : Link α :=
  if link.queue.length < capacity then { link with queue := link.queue ++ [.endOfStream] } else link

end Link

/-- Where the one thread would wait forever. -/
inductive Blocked
  | receive
  | send
  deriving DecidableEq

structure Manager (ι α σ : Type) where
  state : ι → σ
  done : ι → Bool
  links : ι → Link α

namespace Manager

variable {ι α σ : Type} [DecidableEq ι] (graph : NodeGraph ι) (work : NodeWork ι α σ)

def new (state : ι → σ) : Manager ι α σ := ⟨state, fun _ => false, fun _ => .new⟩

/-- `Probe::producer_closed`. A producer closes its outputs when it is done. -/
def producerClosed (m : Manager ι α σ) (spec : InputSpec ι) : Bool :=
  match spec.source with
  | none => true
  | some sub => m.done sub.fromNode

def isReady (m : Manager ι α σ) (node : ι) (spec : InputSpec ι) : Bool :=
  match spec.source, spec.readiness with
  | none, _ => true
  | some sub, .item => !(m.links node).queue.isEmpty || m.done sub.fromNode
  | some sub, .complete => m.done sub.fromNode

def inputsReady (m : Manager ι α σ) (node : ι) : Bool :=
  match graph.scheduling node with
  | .all => (graph.inputs node).all (m.isReady node)
  | .any => (graph.inputs node).all m.producerClosed ||
      (graph.inputs node).any fun spec => m.isReady node spec && !m.producerClosed spec

def fullFrom (m : Manager ι α σ) (node consumer : ι) : Bool :=
  match graph.input consumer with
  | none => false
  | some sub => sub.fromNode = node && sub.capacity ≤ (m.links consumer).queue.length

def wouldBlock (m : Manager ι α σ) (node : ι) : Bool := graph.nodes.any (m.fullFrom graph node)

def callable (m : Manager ι α σ) (node : ι) : Bool :=
  !m.done node && m.inputsReady graph node && !m.wouldBlock graph node

def receive (m : Manager ι α σ) (node : ι) : Option (Option (Option α) × Link α) :=
  if work.receives node (m.state node) then
    match graph.input node with
    | none => some (none, m.links node)
    | some sub => ((m.links node).recv (m.done sub.fromNode)).map fun received => (some received.1, received.2)
  else some (none, m.links node)

def sendingTo (sends : Nat → Option (Sending α)) (node consumer : ι) : Option (ChannelMessage α) :=
  match graph.input consumer with
  | none => none
  | some sub => if sub.fromNode = node then (sends sub.fromPort).bind Sending.message else none

def send (m : Manager ι α σ) (sends : Nat → Option (Sending α)) (node : ι) : Except Blocked (Manager ι α σ) :=
  if graph.nodes.any fun consumer => m.fullFrom graph node consumer && (sendingTo graph sends node consumer).isSome then
    .error .send
  else
    .ok { m with links := fun consumer =>
      match sendingTo graph sends node consumer with
      | none => m.links consumer
      | some message => (m.links consumer).push message }

def finish (m : Manager ι α σ) (node : ι) : Manager ι α σ :=
  { m with
    done := fun other => if other = node then true else m.done other
    links := fun consumer =>
      match graph.input consumer with
      | none => m.links consumer
      | some sub => if sub.fromNode = node then (m.links consumer).close sub.capacity else m.links consumer }

def setNode (m : Manager ι α σ) (node : ι) (state : σ) (link : Link α) : Manager ι α σ :=
  { m with
    state := fun other => if other = node then state else m.state other
    links := fun other => if other = node then link else m.links other }

def call (m : Manager ι α σ) (node : ι) : Except Blocked (Manager ι α σ × WorkOutcome) :=
  match m.receive graph work node with
  | none => .error .receive
  | some (received, link) =>
    let reply := work.react node (m.state node) received
    match (m.setNode node reply.next link).send graph reply.sends node with
    | .error blocked => .error blocked
    | .ok sent => .ok (if reply.outcome.finishes then sent.finish graph node else sent, reply.outcome)

/-- One round of the loop of a pass over the nodes. -/
def visit (m : Manager ι α σ) (node : ι) : Except Blocked (Manager ι α σ) :=
  if m.callable graph node then (m.call graph work node).map Prod.fst else .ok m

def visits (m : Manager ι α σ) : List ι → Except Blocked (Manager ι α σ)
  | [] => .ok m
  | node :: rest =>
    match m.visit graph work node with
    | .error blocked => .error blocked
    | .ok next => next.visits rest

/-- How a pass over the nodes ended. -/
structure PassEnd where
  calls : Nat
  madeProgress : Bool
  expired : Bool

/-- A pass of `pump_until` over the nodes in an order, with `calls` made so far. The deadline is looked at after
each call. -/
def pass (budget : Nat) (expires : Nat → Bool) (m : Manager ι α σ) (made : PassEnd) :
    List ι → Except Blocked (Manager ι α σ × PassEnd)
  | [] => .ok (m, made)
  | node :: rest =>
    if m.callable graph node then
      match m.call graph work node with
      | .error blocked => .error blocked
      | .ok (next, outcome) =>
        let made : PassEnd :=
          ⟨made.calls + 1, made.madeProgress || outcome.madeProgress, expires (made.calls + 1) && made.calls + 1 < budget⟩
        if budget ≤ made.calls || made.expired then .ok (next, made) else next.pass budget expires made rest
    else m.pass budget expires made rest

/-- `pump_until`, over any order of the nodes in each of its passes: a pass that goes on has made a call, so
that there are at most `budget` of them. -/
def pump (budget : Nat) (expires : Nat → Bool) : List (List ι) → Nat → Manager ι α σ → Except Blocked (Manager ι α σ)
  | [], _, m => .ok m
  | order :: orders, calls, m =>
    if budget ≤ calls then .ok m
    else
      match m.pass graph work budget expires ⟨calls, false, false⟩ order with
      | .error blocked => .error blocked
      | .ok (next, passed) =>
        if passed.expired || !passed.madeProgress then .ok next
        else pump budget expires orders passed.calls next

/-- One call of the host: its budget, when its deadline has passed, and the orders of the nodes. -/
structure PumpRequest (ι : Type) where
  budget : Nat
  expires : Nat → Bool
  orders : List (List ι)

def pumps (m : Manager ι α σ) : List (PumpRequest ι) → Except Blocked (Manager ι α σ)
  | [] => .ok m
  | request :: rest =>
    match pump graph work request.budget request.expires request.orders 0 m with
    | .error blocked => .error blocked
    | .ok next => next.pumps rest

end Manager

end LogicConduit
