import LogicConduit.ChannelReceiver

namespace LogicConduit

inductive OverflowPolicy
  | block
  | lossy
  | disconnect
  deriving DecidableEq

/-- An entry of the list. `pending` is the newest value that did not fit, kept for a lossy subscriber only. -/
structure Subscriber (α : Type) where
  id : Nat
  policy : OverflowPolicy
  pending : Option α
  deriving DecidableEq

/-- The bounded channel of a subscription. `received` and `ended` are what its consumer has seen: the items
it took, and whether it met the end of the stream. `alive` until the consumer drops its receiver. -/
structure Channel (α : Type) where
  capacity : Nat
  queue : List (ChannelMessage α)
  received : List α
  ended : Bool
  alive : Bool
  deriving DecidableEq

structure BlockedSend (α : Type) where
  id : Nat
  deadline : Bool
  message : ChannelMessage α
  deriving DecidableEq

/-- Where the producer is. While it is `broadcasting` it holds the lock and has visited a first part of the
list; `serving` are the sends that have to wait, and `retiring` one of them has failed. -/
inductive Producer (α : Type)
  | idle
  | broadcasting (message : ChannelMessage α) (visited todo : List (Subscriber α)) (dead : List Nat)
      (blocked : List (BlockedSend α))
  | serving (blocked : List (BlockedSend α))
  | retiring (id : Nat) (deadline : Bool) (blocked : List (BlockedSend α))
  deriving DecidableEq

def Producer.isIdle {α : Type} : Producer α → Bool
  | .idle => true
  | _ => false

/-- `closing` are the subscribers that a `close` that holds the lock has still to visit; `used` are the
subscription ids given out so far. -/
structure Broadcast (α : Type) where
  sticky : Bool
  last : Option α
  subscribers : List (Subscriber α)
  disconnected : List Nat
  closed : Bool
  used : List Nat
  channels : Nat → Channel α
  producer : Producer α
  closing : Option (List (Subscriber α))

inductive BroadcastStep (α : Type)
  /-- `send` takes the lock. -/
  | send (value : α)
  /-- `send_batch` takes the lock. -/
  | sendBatch (values : List α)
  /-- The loop of `send_message` visits the next subscriber. -/
  | offer
  /-- The loop is over and the lock released. -/
  | release
  /-- The next send that had to wait returns. -/
  | serve
  /-- Its deadline passes. -/
  | expire
  /-- The lock is taken to drop the subscriber of a failed send. -/
  | retire
  /-- A subscription under the next id of the counter that all lists share. -/
  | subscribe (id buffer : Nat) (policy : OverflowPolicy)
  | unsubscribe (id : Nat)
  /-- `close` takes the lock. -/
  | close
  /-- The loop of `close` visits the next subscriber, or ends. -/
  | closeNext
  | takeDisconnected
  /-- A consumer takes the next envelope from its channel, or finds it disconnected. -/
  | receive (id : Nat)
  /-- A consumer drops its receiver. -/
  | hangUp (id : Nat)
  deriving DecidableEq

section Channels

variable {α : Type} {message : ChannelMessage α}

def ChannelMessage.items : ChannelMessage α → List α
  | .sample item => [item]
  | .batch items => items
  | .endOfStream => []

/-- The outcome of `try_send`. -/
inductive Offer (α : Type)
  | sent (channel : Channel α)
  | full
  | disconnected

def Channel.trySend (channel : Channel α) (message : ChannelMessage α) : Offer α :=
  if channel.alive then
    if channel.queue.length < channel.capacity then .sent { channel with queue := channel.queue ++ [message] }
    else .full
  else .disconnected

/-- The channel after a `try_send` whose outcome is not looked at. -/
def Channel.offered (channel : Channel α) (message : ChannelMessage α) : Channel α :=
  match channel.trySend message with
  | .sent channel => channel
  | .full | .disconnected => channel

theorem Channel.offered_cases (channel : Channel α) (message : ChannelMessage α) :
    channel.offered message = { channel with queue := channel.queue ++ [message] } ∨
      channel.offered message = channel := by
  unfold Channel.offered Channel.trySend
  by_cases ha : channel.alive = true
  · by_cases hroom : channel.queue.length < channel.capacity
    · rw [if_pos ha, if_pos hroom]
      exact Or.inl rfl
    · rw [if_pos ha, if_neg hroom]
      exact Or.inr rfl
  · rw [if_neg ha]
    exact Or.inr rfl

theorem Channel.trySend_sent {channel next : Channel α}
    (h : channel.trySend message = .sent next) : next = { channel with queue := channel.queue ++ [message] } := by
  unfold Channel.trySend at h
  split at h
  · split at h
    · cases h
      rfl
    · cases h
  · cases h

theorem Channel.trySend_disconnected {channel : Channel α}
    (h : channel.trySend message = .disconnected) : channel.alive = false := by
  unfold Channel.trySend at h
  split at h
  · split at h
    · cases h
    · cases h
  · exact eq_false_of_ne_true ‹_›

end Channels

namespace Broadcast

variable {α : Type}

def setChannel (broadcast : Broadcast α) (id : Nat) (channel : Channel α) : Broadcast α :=
  { broadcast with channels := fun other => if other = id then channel else broadcast.channels other }

/-- No thread holds the lock of the list. -/
def unlocked (broadcast : Broadcast α) : Bool :=
  match broadcast.producer, broadcast.closing with
  | .broadcasting _ _ _ _ _, _ => false
  | _, some _ => false
  | _, none => true

def waitingFor (id : Nat) (blocked : List (BlockedSend α)) : List (ChannelMessage α) :=
  (blocked.filter (·.id = id)).map BlockedSend.message

/-- The envelopes that the send in progress has still to hand to a subscriber. -/
def carried (broadcast : Broadcast α) (id : Nat) : List (ChannelMessage α) :=
  match broadcast.producer with
  | .idle => []
  | .broadcasting message _ todo _ blocked =>
    (todo.filter (·.id = id)).map (fun _ => message) ++ waitingFor id blocked
  | .serving blocked => waitingFor id blocked
  | .retiring _ _ blocked => waitingFor id blocked

/-- The list as the thread that holds the lock sees it. -/
def members (broadcast : Broadcast α) : List (Subscriber α) :=
  match broadcast.producer with
  | .broadcasting _ visited todo _ _ => visited ++ todo
  | _ => broadcast.subscribers

def memberIds (broadcast : Broadcast α) : List Nat := broadcast.members.map Subscriber.id

def closingIds (broadcast : Broadcast α) : List Nat := (broadcast.closing.getD []).map Subscriber.id

/-- Whether a sender of the channel is left: in the list, in the loop of `close`, or in a send that waits. -/
def connected (broadcast : Broadcast α) (id : Nat) : Bool :=
  broadcast.memberIds.contains id || broadcast.closingIds.contains id || !(broadcast.carried id).isEmpty

def new (sticky : Bool) : Broadcast α where
  sticky := sticky
  last := none
  subscribers := []
  disconnected := []
  closed := false
  used := []
  channels _ := ⟨0, [], [], false, false⟩
  producer := .idle
  closing := none

/-- `send_message` up to its loop. -/
def sendMessage (broadcast : Broadcast α) (message : ChannelMessage α) (stickyLast : Option α) : Broadcast α :=
  { broadcast with
    last := if broadcast.sticky then stickyLast.or broadcast.last else broadcast.last
    producer := .broadcasting message [] broadcast.subscribers [] [] }

/-- The loop of `send_message` at a lossy subscriber with a pending value: it is retried first, and given up
when it still does not fit. -/
def retryPending (broadcast : Broadcast α) (message : ChannelMessage α) (visited : List (Subscriber α))
    (subscriber : Subscriber α) (value : α) (todo : List (Subscriber α)) (dead : List Nat)
    (blocked : List (BlockedSend α)) : Broadcast α :=
  let subscriber := { subscriber with pending := none }
  match (broadcast.channels subscriber.id).trySend (.sample value) with
  | .sent channel =>
    { broadcast.setChannel subscriber.id channel with
      producer := .broadcasting message visited (subscriber :: todo) dead blocked }
  | .full => { broadcast with producer := .broadcasting message visited (subscriber :: todo) dead blocked }
  | .disconnected =>
    { broadcast with producer := .broadcasting message (visited ++ [subscriber]) todo (dead ++ [subscriber.id]) blocked }

/-- The loop of `send_message` at a subscriber with nothing pending. -/
def offerTo (broadcast : Broadcast α) (message : ChannelMessage α) (visited : List (Subscriber α))
    (subscriber : Subscriber α) (todo : List (Subscriber α)) (dead : List Nat) (blocked : List (BlockedSend α)) :
    Broadcast α :=
  let visit (subscriber : Subscriber α) (dead : List Nat) (blocked : List (BlockedSend α)) : Producer α :=
    .broadcasting message (visited ++ [subscriber]) todo dead blocked
  match (broadcast.channels subscriber.id).trySend message with
  | .sent channel => { broadcast.setChannel subscriber.id channel with producer := visit subscriber dead blocked }
  | .full =>
    match subscriber.policy with
    | .block => { broadcast with producer := visit subscriber dead (blocked ++ [⟨subscriber.id, false, message⟩]) }
    | .lossy =>
      { broadcast with producer := visit { subscriber with pending := message.items.getLast? } dead blocked }
    | .disconnect => { broadcast with producer := visit subscriber dead (blocked ++ [⟨subscriber.id, true, message⟩]) }
  | .disconnected => { broadcast with producer := visit subscriber (dead ++ [subscriber.id]) blocked }

/-- The producer with the sends that are left; it returns from `send_message` after the last one. -/
def serveRest (blocked : List (BlockedSend α)) : Producer α :=
  if blocked.isEmpty then .idle else .serving blocked

def subscribe (broadcast : Broadcast α) (id buffer : Nat) (policy : OverflowPolicy) : Broadcast α :=
  let queue := if broadcast.closed then [.endOfStream]
    else if broadcast.sticky then broadcast.last.toList.map .sample else []
  let joined := { broadcast.setChannel id ⟨max buffer 1, queue, [], false, true⟩ with used := id :: broadcast.used }
  if broadcast.closed then joined
  else { joined with subscribers := broadcast.subscribers ++ [⟨id, policy, none⟩] }

/-- The channel after its consumer looked at it, if there is anything to see. -/
def taken (broadcast : Broadcast α) (id : Nat) : Option (Channel α) :=
  let channel := broadcast.channels id
  if channel.alive && !channel.ended then
    match channel.queue with
    | .endOfStream :: queue => some { channel with queue := queue, ended := true }
    | message :: queue => some { channel with queue := queue, received := channel.received ++ message.items }
    | [] => if broadcast.connected id then none else some { channel with ended := true }
  else none

def step (broadcast : Broadcast α) : BroadcastStep α → Option (Broadcast α)
  | .send value =>
    if broadcast.unlocked ∧ broadcast.producer.isIdle then
      some (broadcast.sendMessage (.sample value) (some value))
    else none
  | .sendBatch values =>
    if values.isEmpty then some broadcast
    else if broadcast.unlocked ∧ broadcast.producer.isIdle then
      some (broadcast.sendMessage (.batch values) values.getLast?)
    else none
  | .offer =>
    match broadcast.producer with
    | .broadcasting message visited (subscriber :: todo) dead blocked =>
      match subscriber.pending with
      | some value => some (broadcast.retryPending message visited subscriber value todo dead blocked)
      | none => some (broadcast.offerTo message visited subscriber todo dead blocked)
    | _ => none
  | .release =>
    match broadcast.producer with
    | .broadcasting _ visited [] dead blocked =>
      some { broadcast with
        subscribers := visited.filter (!dead.contains ·.id)
        producer := serveRest blocked }
    | _ => none
  | .serve =>
    match broadcast.producer with
    | .serving (send :: blocked) =>
      match (broadcast.channels send.id).trySend send.message with
      | .sent channel => some { broadcast.setChannel send.id channel with producer := serveRest blocked }
      | .full => none
      | .disconnected => some { broadcast with producer := .retiring send.id send.deadline blocked }
    | _ => none
  | .expire =>
    match broadcast.producer with
    | .serving (send :: blocked) =>
      match send.deadline, (broadcast.channels send.id).trySend send.message with
      | true, .full => some { broadcast with producer := .retiring send.id send.deadline blocked }
      | _, _ => none
    | _ => none
  | .retire =>
    match broadcast.producer with
    | .retiring id deadline blocked =>
      if broadcast.unlocked then
        some { broadcast with
          subscribers := broadcast.subscribers.filter (·.id ≠ id)
          disconnected := if deadline then broadcast.disconnected ++ [id] else broadcast.disconnected
          producer := serveRest blocked }
      else none
    | _ => none
  | .subscribe id buffer policy =>
    if broadcast.unlocked ∧ id ∉ broadcast.used then some (broadcast.subscribe id buffer policy) else none
  | .unsubscribe id =>
    if broadcast.unlocked then some { broadcast with subscribers := broadcast.subscribers.filter (·.id ≠ id) }
    else none
  | .close =>
    if broadcast.unlocked then
      some { broadcast with closed := true, subscribers := [], closing := some broadcast.subscribers }
    else none
  | .closeNext =>
    match broadcast.closing with
    | some (subscriber :: todo) =>
      some { broadcast.setChannel subscriber.id ((broadcast.channels subscriber.id).offered .endOfStream) with
        closing := some todo }
    | some [] => some { broadcast with closing := none }
    | none => none
  | .takeDisconnected => if broadcast.unlocked then some { broadcast with disconnected := [] } else none
  | .receive id => (broadcast.taken id).map (broadcast.setChannel id)
  | .hangUp id => some (broadcast.setChannel id { broadcast.channels id with alive := false })

end Broadcast

end LogicConduit
