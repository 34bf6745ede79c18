import Mathlib.Data.List.Basic

namespace LogicConduit

inductive ChannelMessage (α : Type)
  | sample (item : α)
  | batch (items : List α)
  | endOfStream
  deriving DecidableEq

inductive WorkError
  | shutdown
  deriving DecidableEq

inductive TryRecvError
  | empty
  | disconnected
  deriving DecidableEq

inductive RecvTimeoutError
  | timeout
  | disconnected
  deriving DecidableEq

/-- The state behind every receiver of one input. `incoming` is what the producer has sent and has not been
taken from the channel together with what it will still send; after the last envelope it drops its sender,
which the channel has reported when `gone` is set. -/
structure Inbox (α : Type) where
  incoming : List (ChannelMessage α)
  gone : Bool
  buffer : List α
  eos : Bool
  deriving DecidableEq

/-- Whether the next envelope, or the end of the channel, is there at the `n`th look of a call. -/
abbrev Arrivals := Nat → Bool

/-- The arrivals seen by a call that waits. -/
def awaited : Arrivals := fun _ => true

/-- How a loop over the channel leaves it. -/
inductive Taken (β : Type)
  | got (value : β)
  | pending
  | endOfStream
  | disconnected

section Errors

variable {β : Type}

/-- What a call that waits makes of it: `Shutdown` at either end of the channel. -/
def Taken.work : Taken β → Except WorkError β
  | .got value => .ok value
  | .pending | .endOfStream | .disconnected => .error .shutdown

/-- What a call that does not wait makes of it. -/
def Taken.attempt : Taken β → Except TryRecvError β
  | .got value => .ok value
  | .pending => .error .empty
  | .endOfStream | .disconnected => .error .disconnected

def Taken.timed : Taken β → Except RecvTimeoutError β
  | .got value => .ok value
  | .pending => .error .timeout
  | .endOfStream | .disconnected => .error .disconnected

end Errors

namespace Inbox

variable {α : Type}

/-- The loop over the channel with an empty buffer, until an envelope has an item or the channel none. Of an
envelope with items `unpack` says what is returned and what is kept in the buffer. -/
def takeEnvelope {β : Type} (unpack : α → List α → β × List α) (arrived : Arrivals) (gone : Bool) :
    Nat → List (ChannelMessage α) → Taken β × Inbox α
  | look, [] =>
    if gone ∨ arrived look then (.disconnected, ⟨[], true, [], false⟩) else (.pending, ⟨[], false, [], false⟩)
  | look, message :: rest =>
    if arrived look then
      match message with
      | .sample item => (.got (unpack item []).1, ⟨rest, gone, (unpack item []).2, false⟩)
      | .batch [] => takeEnvelope unpack arrived gone (look + 1) rest
      | .batch (first :: items) => (.got (unpack first items).1, ⟨rest, gone, (unpack first items).2, false⟩)
      | .endOfStream => (.endOfStream, ⟨rest, gone, [], true⟩)
    else (.pending, ⟨message :: rest, gone, [], false⟩)

/-- The start that the receiving calls share: the flag, then the buffer, then the channel. -/
def lookUp {β : Type} (unpack : α → List α → β × List α) (arrived : Arrivals) (inbox : Inbox α) : Taken β × Inbox α :=
  if inbox.eos then (.endOfStream, inbox)
  else match inbox.buffer with
    | first :: items => (.got (unpack first items).1, { inbox with buffer := (unpack first items).2 })
    | [] => takeEnvelope unpack arrived inbox.gone 0 inbox.incoming

/-- The first item; the others of its batch are kept. -/
def receive : Arrivals → Inbox α → Taken α × Inbox α := lookUp fun first items => (first, items)

/-- All of the buffer, or a whole envelope. -/
def receiveBatch : Arrivals → Inbox α → Taken (List α) × Inbox α := lookUp fun first items => (first :: items, [])

/-- The first item, which stays in the buffer. -/
def receiveFront : Arrivals → Inbox α → Taken α × Inbox α := lookUp fun first items => (first, first :: items)

def recv (inbox : Inbox α) : Except WorkError α × Inbox α :=
  ((inbox.receive awaited).1.work, (inbox.receive awaited).2)

def tryRecv (arrived : Arrivals) (inbox : Inbox α) : Except TryRecvError α × Inbox α :=
  ((inbox.receive arrived).1.attempt, (inbox.receive arrived).2)

def recvTimeout (arrived : Arrivals) (inbox : Inbox α) : Except RecvTimeoutError α × Inbox α :=
  ((inbox.receive arrived).1.timed, (inbox.receive arrived).2)

def peek (inbox : Inbox α) : Except WorkError α × Inbox α :=
  ((inbox.receiveFront awaited).1.work, (inbox.receiveFront awaited).2)

def tryRecvBatch (arrived : Arrivals) (inbox : Inbox α) : Except TryRecvError (List α) × Inbox α :=
  ((inbox.receiveBatch arrived).1.attempt, (inbox.receiveBatch arrived).2)

/-- Unlike its siblings `recv_batch` caches a disconnection too. -/
def recvBatch (inbox : Inbox α) : Except WorkError (List α) × Inbox α :=
  let result := inbox.receiveBatch awaited
  (result.1.work, if let .disconnected := result.1 then { result.2 with eos := true } else result.2)

/-- The channel loop of `try_recv_many` once the buffer is used up. `room` is `limit - received`. -/
def drainChannel (arrived : Arrivals) (gone : Bool) :
    Nat → List (ChannelMessage α) → Nat → List α → List α × Inbox α
  | look, [], room, output =>
    if room = 0 then (output, ⟨[], gone, [], false⟩)
    else if gone ∨ arrived look then (output, ⟨[], true, [], true⟩)
    else (output, ⟨[], false, [], false⟩)
  | look, message :: rest, room, output =>
    if room = 0 then (output, ⟨message :: rest, gone, [], false⟩)
    else if arrived look then
      match message with
      | .sample item => drainChannel arrived gone (look + 1) rest (room - 1) (output ++ [item])
      | .batch items =>
        if items.length < room then
          drainChannel arrived gone (look + 1) rest (room - items.length) (output ++ items)
        else (output ++ items.take room, ⟨rest, gone, items.drop room, false⟩)
      | .endOfStream => (output, ⟨rest, gone, [], true⟩)
    else (output, ⟨message :: rest, gone, [], false⟩)

def tryRecvMany (arrived : Arrivals) (limit : Nat) (inbox : Inbox α) : Except TryRecvError (List α) × Inbox α :=
  if limit = 0 then (.ok [], inbox)
  else
    let buffered := inbox.buffer.take limit
    let kept := { inbox with buffer := inbox.buffer.drop limit }
    if inbox.eos then
      if buffered = [] then (.error .disconnected, kept) else (.ok buffered, kept)
    else
      let (output, next) :=
        if kept.buffer = [] then drainChannel arrived inbox.gone 0 inbox.incoming (limit - buffered.length) buffered
        else (buffered, kept)
      if output ≠ [] then (.ok output, next)
      else if next.eos then (.error .disconnected, next) else (.error .empty, next)

def putBack (item : α) (inbox : Inbox α) : Inbox α := { inbox with buffer := item :: inbox.buffer }

end Inbox

inductive ReceiverCall (α : Type)
  | recv
  | peek
  | tryRecv
  | tryRecvMany (limit : Nat)
  | recvBatch
  | tryRecvBatch
  | recvTimeout
  | putBack (item : α)
  deriving DecidableEq

inductive ReceiverAnswer (α : Type)
  | items (items : List α)
  | peeked (item : α)
  /-- `Empty` or a timeout. -/
  | pending
  /-- `Shutdown` or `Disconnected`. -/
  | ended
  | done
  deriving DecidableEq

section Calls

variable {α : Type}

def WorkError.answer : WorkError → ReceiverAnswer α
  | .shutdown => .ended

def TryRecvError.answer : TryRecvError → ReceiverAnswer α
  | .empty => .pending
  | .disconnected => .ended

def RecvTimeoutError.answer : RecvTimeoutError → ReceiverAnswer α
  | .timeout => .pending
  | .disconnected => .ended

def answerOf {ε β : Type} (failed : ε → ReceiverAnswer α) (got : β → ReceiverAnswer α) :
    Except ε β × Inbox α → ReceiverAnswer α × Inbox α
  | (.ok value, next) => (got value, next)
  | (.error error, next) => (failed error, next)

def ReceiverCall.run (call : ReceiverCall α) (arrived : Arrivals) (inbox : Inbox α) : ReceiverAnswer α × Inbox α :=
  match call with
  | .recv => answerOf WorkError.answer (fun item => .items [item]) inbox.recv
  | .peek => answerOf WorkError.answer .peeked inbox.peek
  | .tryRecv => answerOf TryRecvError.answer (fun item => .items [item]) (inbox.tryRecv arrived)
  | .tryRecvMany limit => answerOf TryRecvError.answer .items (inbox.tryRecvMany arrived limit)
  | .recvBatch => answerOf WorkError.answer .items inbox.recvBatch
  | .tryRecvBatch => answerOf TryRecvError.answer .items (inbox.tryRecvBatch arrived)
  | .recvTimeout => answerOf RecvTimeoutError.answer (fun item => .items [item]) (inbox.recvTimeout arrived)
  | .putBack item => (.done, inbox.putBack item)

structure Exchange (α : Type) where
  before : Inbox α
  call : ReceiverCall α
  answer : ReceiverAnswer α
  after : Inbox α

/-- What a sequence of calls, through whichever receivers, meets. -/
def exchanges : List (ReceiverCall α × Arrivals) → Inbox α → List (Exchange α)
  | [], _ => []
  | (call, arrived) :: requests, inbox =>
    let result := call.run arrived inbox
    ⟨inbox, call, result.1, result.2⟩ :: exchanges requests result.2

def Inbox.new (incoming : List (ChannelMessage α)) : Inbox α := ⟨incoming, false, [], false⟩

def streamItems : List (ChannelMessage α) → List α
  | [] => []
  | .sample item :: rest => item :: streamItems rest
  | .batch items :: rest => items ++ streamItems rest
  | .endOfStream :: _ => []

def delivered (log : List (Exchange α)) : List α :=
  log.foldl (fun received exchange =>
    match exchange.call, exchange.answer with
    | .putBack _, _ => received.dropLast
    | _, .items items => received ++ items
    | _, _ => received) []

end Calls

end LogicConduit
