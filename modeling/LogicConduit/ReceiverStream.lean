import LogicConduit.ChannelReceiver

namespace LogicConduit

variable {α : Type}

def Inbox.undelivered (inbox : Inbox α) : List α :=
  inbox.buffer ++ if inbox.eos then [] else streamItems inbox.incoming

/-- A buffered item hides behind the flag once the flag is set. -/
def Inbox.Settled (inbox : Inbox α) : Prop := inbox.eos = true → inbox.buffer = []

def ReceiverCall.Takes : ReceiverCall α → List α → Prop
  | .recv, items | .tryRecv, items | .recvTimeout, items => items.length = 1
  | .recvBatch, items | .tryRecvBatch, items => items ≠ []
  | .tryRecvMany limit, items => items.length ≤ limit ∧ (0 < limit → items ≠ [])
  | .peek, _ | .putBack _, _ => False

def ReceiverCall.waits : ReceiverCall α → Bool
  | .recv | .peek | .recvBatch => true
  | _ => false

/-- How a stream with the items `rest` still to deliver answers a call, and what it has to deliver then. -/
def StreamAnswers (rest : List α) (call : ReceiverCall α) (answer : ReceiverAnswer α) (rest' : List α) : Prop :=
  match answer with
  | .items items => rest = items ++ rest' ∧ call.Takes items
  | .peeked item => call = .peek ∧ rest' = rest ∧ rest.head? = some item
  | .pending => call.waits = false ∧ rest' = rest
  | .ended => rest = [] ∧ rest' = []
  | .done => ∃ item, call = .putBack item ∧ rest' = item :: rest

theorem settled_of_eq {inbox : Inbox α} (h : inbox.eos = false) : inbox.Settled := by
  intro he
  rw [h] at he
  cases he

/-- What a loop over the channel leaves of a stream: an envelope opened, or the stream as it was, or the end
of it reported when nothing is left. -/
def Taken.Of {β : Type} (unpack : α → List α → β × List α) (stream : List α) (result : Taken β × Inbox α) : Prop :=
  match result.1 with
  | .got value => ∃ first items, value = (unpack first items).1 ∧ result.2.buffer = (unpack first items).2 ∧
      result.2.eos = false ∧ stream = first :: items ++ streamItems result.2.incoming
  | .pending => result.2.buffer = [] ∧ result.2.eos = false ∧ stream = streamItems result.2.incoming
  | .endOfStream => result.2.buffer = [] ∧ result.2.eos = true ∧ stream = []
  | .disconnected => result.2.buffer = [] ∧ result.2.eos = false ∧ result.2.incoming = [] ∧ stream = []

theorem takeEnvelope_of {β : Type} (unpack : α → List α → β × List α) (arrived : Arrivals) (gone : Bool) (look : Nat)
    (incoming : List (ChannelMessage α)) :
    Taken.Of unpack (streamItems incoming) (Inbox.takeEnvelope unpack arrived gone look incoming) := by
  induction incoming generalizing look with
  | nil =>
    unfold Inbox.takeEnvelope
    split
    · exact ⟨rfl, rfl, rfl, rfl⟩
    · exact ⟨rfl, rfl, rfl⟩
  | cons message rest ih =>
    unfold Inbox.takeEnvelope
    split
    · cases message with
      | sample item => exact ⟨item, [], rfl, rfl, rfl, rfl⟩
      | batch items =>
        cases items with
        | nil => exact ih (look + 1)
        | cons first items => exact ⟨first, items, rfl, rfl, rfl, rfl⟩
      | endOfStream => exact ⟨rfl, rfl, rfl⟩
    · exact ⟨rfl, rfl, rfl⟩

theorem takeEnvelope_awaited {β : Type} (unpack : α → List α → β × List α) (gone : Bool) (look : Nat)
    (incoming : List (ChannelMessage α)) :
    (Inbox.takeEnvelope unpack awaited gone look incoming).1 ≠ .pending := by
  induction incoming generalizing look with
  | nil =>
    have hlook : awaited look = true := rfl
    unfold Inbox.takeEnvelope
    rw [if_pos (Or.inr hlook)]
    intro h
    cases h
  | cons message rest ih =>
    have hlook : awaited look = true := rfl
    unfold Inbox.takeEnvelope
    rw [if_pos hlook]
    cases message with
    | sample item =>
      intro h
      cases h
    | batch items =>
      cases items with
      | nil => exact ih (look + 1)
      | cons first items =>
        intro h
        cases h
    | endOfStream =>
      intro h
      cases h

section Receive

variable {inbox : Inbox α} {β : Type} {unpack : α → List α → β × List α} {kept : β → List α}

theorem undelivered_open (h : inbox.eos = false) :
    inbox.undelivered = inbox.buffer ++ streamItems inbox.incoming := by
  rw [Inbox.undelivered, h]
  rfl

theorem Inbox.Settled.undelivered_eos (h : inbox.Settled) (he : inbox.eos = true) : inbox.undelivered = [] := by
  rw [Inbox.undelivered, h he, he]
  rfl

theorem lookUp_awaited (inbox : Inbox α) : (inbox.lookUp unpack awaited).1 ≠ .pending := by
  rw [Inbox.lookUp]
  split
  · intro h
    cases h
  · split
    · intro h
      cases h
    · exact takeEnvelope_awaited unpack inbox.gone 0 inbox.incoming

theorem lookUp_endOfStream {arrived : Arrivals} (h : (inbox.lookUp unpack arrived).1 = .endOfStream) :
    (inbox.lookUp unpack arrived).2.eos = true := by
  by_cases he : inbox.eos = true
  · rw [Inbox.lookUp, if_pos he]
    exact he
  · rw [Inbox.lookUp, if_neg he] at h ⊢
    cases hb : inbox.buffer with
    | cons first items =>
      rw [hb] at h
      cases h
    | nil =>
      rw [hb] at h
      have hof := takeEnvelope_of unpack arrived inbox.gone 0 inbox.incoming
      rw [Taken.Of, h] at hof
      exact hof.2.1

/-- What looking up an item does to the stream, of which `kept` are the items returned for good. -/
def Taken.Serves (unpack : α → List α → β × List α) (kept : β → List α) (inbox : Inbox α)
    (result : Taken β × Inbox α) : Prop :=
  result.2.Settled ∧ match result.1 with
    | .got value => inbox.undelivered = kept value ++ result.2.undelivered ∧
        ∃ first items, value = (unpack first items).1 ∧ inbox.undelivered.head? = some first
    | .pending => result.2.undelivered = inbox.undelivered
    | .endOfStream => inbox.undelivered = [] ∧ result.2.undelivered = []
    | .disconnected => result.2.buffer = [] ∧ inbox.undelivered = [] ∧ result.2.undelivered = []

theorem lookUp_serves (kept : β → List α) (arrived : Arrivals) (h : inbox.Settled)
    (hk : ∀ first items, kept (unpack first items).1 ++ (unpack first items).2 = first :: items) :
    Taken.Serves unpack kept inbox (inbox.lookUp unpack arrived) := by
  by_cases he : inbox.eos = true
  · rw [Inbox.lookUp, if_pos he]
    exact ⟨h, h.undelivered_eos he, h.undelivered_eos he⟩
  · have hopen : inbox.eos = false := Bool.not_eq_true _ ▸ he
    rw [Inbox.lookUp, if_neg he]
    cases hb : inbox.buffer with
    | cons first items =>
      have hnext : Inbox.undelivered { inbox with buffer := (unpack first items).2 } =
          (unpack first items).2 ++ streamItems inbox.incoming := undelivered_open hopen
      refine ⟨settled_of_eq hopen, ?_, first, items, rfl, ?_⟩
      · show _ = _ ++ Inbox.undelivered { inbox with buffer := (unpack first items).2 }
        rw [undelivered_open hopen, hb, hnext, ← List.append_assoc, hk]
      · rw [undelivered_open hopen, hb]
        rfl
    | nil =>
      have hof := takeEnvelope_of unpack arrived inbox.gone 0 inbox.incoming
      have hstart : inbox.undelivered = streamItems inbox.incoming := by
        rw [undelivered_open hopen, hb, List.nil_append]
      rw [Taken.Serves, hstart]
      rcases hres : Inbox.takeEnvelope unpack arrived inbox.gone 0 inbox.incoming with ⟨taken, next⟩
      rw [hres] at hof
      cases taken with
      | got value =>
        obtain ⟨first, items, hv, hnext, heos, hs⟩ := hof
        refine ⟨settled_of_eq heos, ?_, first, items, hv, ?_⟩
        · rw [undelivered_open heos, hs, hnext, hv, ← List.append_assoc, hk]
        · rw [hs]
          rfl
      | pending =>
        obtain ⟨hnext, heos, hs⟩ := hof
        refine ⟨settled_of_eq heos, ?_⟩
        rw [hs, undelivered_open heos, hnext, List.nil_append]
      | endOfStream =>
        obtain ⟨hnext, heos, hs⟩ := hof
        have hsettled : next.Settled := fun _ => hnext
        exact ⟨hsettled, hs, hsettled.undelivered_eos heos⟩
      | disconnected =>
        obtain ⟨hnext, heos, hin, hs⟩ := hof
        refine ⟨settled_of_eq heos, hnext, hs, ?_⟩
        rw [undelivered_open heos, hnext, hin]
        rfl

def CallServed (inbox : Inbox α) (call : ReceiverCall α) (result : ReceiverAnswer α × Inbox α) : Prop :=
  result.2.Settled ∧ StreamAnswers inbox.undelivered call result.1 result.2.undelivered

theorem work_served (call : ReceiverCall α) (got : β → ReceiverAnswer α) (result : Taken β × Inbox α)
    (hr : Taken.Serves unpack kept inbox result) (hw : result.1 ≠ .pending)
    (hgot : ∀ value, result.1 = .got value →
      StreamAnswers inbox.undelivered call (got value) result.2.undelivered) :
    CallServed inbox call (answerOf WorkError.answer got (result.1.work, result.2)) := by
  obtain ⟨taken, next⟩ := result
  cases taken with
  | got value => exact ⟨hr.1, hgot value rfl⟩
  | pending => exact absurd rfl hw
  | endOfStream => exact hr
  | disconnected => exact ⟨hr.1, hr.2.2⟩

theorem attempt_served (call : ReceiverCall α) (got : β → ReceiverAnswer α) (result : Taken β × Inbox α)
    (hr : Taken.Serves unpack kept inbox result) (hc : call.waits = false)
    (hgot : ∀ value, result.1 = .got value →
      StreamAnswers inbox.undelivered call (got value) result.2.undelivered) :
    CallServed inbox call (answerOf TryRecvError.answer got (result.1.attempt, result.2)) ∧
      CallServed inbox call (answerOf RecvTimeoutError.answer got (result.1.timed, result.2)) := by
  obtain ⟨taken, next⟩ := result
  cases taken with
  | got value => exact ⟨⟨hr.1, hgot value rfl⟩, ⟨hr.1, hgot value rfl⟩⟩
  | pending => exact ⟨⟨hr.1, hc, hr.2⟩, ⟨hr.1, hc, hr.2⟩⟩
  | endOfStream => exact ⟨hr, hr⟩
  | disconnected => exact ⟨⟨hr.1, hr.2.2⟩, ⟨hr.1, hr.2.2⟩⟩

theorem receive_serves (arrived : Arrivals) (h : inbox.Settled) :
    Taken.Serves (fun first items => (first, items)) (fun item => [item]) inbox (inbox.receive arrived) :=
  lookUp_serves _ arrived h fun _ _ => rfl

theorem receive_answers (call : ReceiverCall α) (arrived : Arrivals) (h : inbox.Settled)
    (hc : ∀ item, call.Takes [item]) (item : α) (hi : (inbox.receive arrived).1 = .got item) :
    StreamAnswers inbox.undelivered call (.items [item]) (inbox.receive arrived).2.undelivered := by
  have hr := (receive_serves arrived h).2
  rw [hi] at hr
  exact ⟨hr.1, hc item⟩

theorem receiveBatch_serves (arrived : Arrivals) (h : inbox.Settled) :
    Taken.Serves (fun first items => (first :: items, [])) (fun items => items) inbox (inbox.receiveBatch arrived) :=
  lookUp_serves _ arrived h fun _ _ => List.append_nil _

theorem receiveBatch_answers (call : ReceiverCall α) (arrived : Arrivals) (h : inbox.Settled)
    (hc : ∀ first items, call.Takes (first :: items)) (items : List α)
    (hi : (inbox.receiveBatch arrived).1 = .got items) :
    StreamAnswers inbox.undelivered call (.items items) (inbox.receiveBatch arrived).2.undelivered := by
  have hr := (receiveBatch_serves arrived h).2
  rw [hi] at hr
  obtain ⟨heq, first, rest, hv, -⟩ := hr
  refine ⟨heq, ?_⟩
  rw [hv]
  exact hc first rest

theorem recvBatch_served (h : inbox.Settled) :
    CallServed inbox .recvBatch (answerOf WorkError.answer .items inbox.recvBatch) := by
  have hr := receiveBatch_serves awaited h
  have ha := receiveBatch_answers .recvBatch awaited h fun first items => List.cons_ne_nil first items
  have hw : (inbox.receiveBatch awaited).1 ≠ .pending := lookUp_awaited inbox
  rw [Inbox.recvBatch]
  rcases hres : inbox.receiveBatch awaited with ⟨taken, next⟩
  rw [hres] at hr ha hw
  cases taken with
  | got items => exact ⟨hr.1, ha items rfl⟩
  | pending => exact absurd rfl hw
  | endOfStream => exact hr
  | disconnected =>
    obtain ⟨-, hb, hnil, -⟩ := hr
    have hsettled : Inbox.Settled { next with eos := true } := fun _ => hb
    exact ⟨hsettled, hnil, hsettled.undelivered_eos rfl⟩

theorem peek_served (h : inbox.Settled) : CallServed inbox .peek (answerOf WorkError.answer .peeked inbox.peek) := by
  have hr : Taken.Serves (fun first items => (first, first :: items)) (fun _ => []) inbox (inbox.receiveFront awaited) :=
    lookUp_serves _ awaited h fun _ _ => rfl
  refine work_served .peek .peeked _ hr (lookUp_awaited inbox) ?_
  intro item hi
  have hgot := hr.2
  rw [hi] at hgot
  obtain ⟨heq, first, rest, hv, hhead⟩ := hgot
  refine ⟨rfl, heq.symm, ?_⟩
  rw [hv]
  exact hhead

theorem drainChannel_of (arrived : Arrivals) (gone : Bool) (look : Nat) (incoming : List (ChannelMessage α))
    (room : Nat) (output : List α) :
    (Inbox.drainChannel arrived gone look incoming room output).2.Settled ∧
      output ++ streamItems incoming = (Inbox.drainChannel arrived gone look incoming room output).1 ++
        (Inbox.drainChannel arrived gone look incoming room output).2.undelivered ∧
      (Inbox.drainChannel arrived gone look incoming room output).1.length ≤ output.length + room := by
  induction incoming generalizing look room output with
  | nil =>
    unfold Inbox.drainChannel
    split
    · exact ⟨settled_of_eq rfl, rfl, Nat.le_add_right _ _⟩
    · split
      · exact ⟨fun _ => rfl, rfl, Nat.le_add_right _ _⟩
      · exact ⟨settled_of_eq rfl, rfl, Nat.le_add_right _ _⟩
  | cons message rest ih =>
    unfold Inbox.drainChannel
    split
    · exact ⟨settled_of_eq rfl, rfl, Nat.le_add_right _ _⟩
    next hroom =>
      split
      next hlook =>
        cases message with
        | sample item =>
          obtain ⟨hs, heq, hle⟩ := ih (look + 1) (room - 1) (output ++ [item])
          refine ⟨hs, ?_, ?_⟩
          · rw [← heq, List.append_assoc]
            rfl
          · rw [List.length_append, List.length_singleton] at hle
            dsimp only
            omega
        | batch items =>
          dsimp only
          split
          next hlt =>
            obtain ⟨hs, heq, hle⟩ := ih (look + 1) (room - items.length) (output ++ items)
            refine ⟨hs, ?_, ?_⟩
            · rw [← heq, List.append_assoc]
              rfl
            · rw [List.length_append] at hle
              omega
          next hge =>
            refine ⟨settled_of_eq rfl, ?_, ?_⟩
            · rw [undelivered_open rfl, List.append_assoc, ← List.append_assoc (items.take room),
                List.take_append_drop]
              rfl
            · rw [List.length_append, List.length_take]
              omega
        | endOfStream => exact ⟨fun _ => rfl, rfl, Nat.le_add_right _ _⟩
      next => exact ⟨settled_of_eq rfl, rfl, Nat.le_add_right _ _⟩

theorem tryRecvMany_served (arrived : Arrivals) (limit : Nat) (h : inbox.Settled) :
    CallServed inbox (.tryRecvMany limit)
      (answerOf TryRecvError.answer .items (inbox.tryRecvMany arrived limit)) := by
  by_cases hz : limit = 0
  · rw [Inbox.tryRecvMany, if_pos hz]
    refine ⟨h, rfl, Nat.zero_le limit, fun hpos => ?_⟩
    omega
  · rw [Inbox.tryRecvMany, if_neg hz]
    dsimp only
    by_cases he : inbox.eos = true
    · have hnil : inbox.buffer.take limit = [] := by rw [h he, List.take_nil]
      have hkept : Inbox.Settled { inbox with buffer := inbox.buffer.drop limit } := by
        intro _
        show inbox.buffer.drop limit = []
        rw [h he, List.drop_nil]
      rw [if_pos he, if_pos hnil]
      exact ⟨hkept, h.undelivered_eos he, hkept.undelivered_eos he⟩
    · have hopen : inbox.eos = false := Bool.not_eq_true _ ▸ he
      rw [if_neg he]
      -- what was buffered comes first, and the channel is looked at only when all of it was taken
      have hof : ∀ result : List α × Inbox α, result = (if inbox.buffer.drop limit = [] then
          Inbox.drainChannel arrived inbox.gone 0 inbox.incoming (limit - (inbox.buffer.take limit).length)
            (inbox.buffer.take limit)
          else (inbox.buffer.take limit, { inbox with buffer := inbox.buffer.drop limit })) →
          result.2.Settled ∧ inbox.undelivered = result.1 ++ result.2.undelivered ∧ result.1.length ≤ limit := by
        intro result hres
        have hlen : (inbox.buffer.take limit).length ≤ limit := List.length_take_le limit inbox.buffer
        split at hres
        next hdrop =>
          have htake : inbox.buffer.take limit = inbox.buffer := by
            rw [List.take_of_length_le (List.drop_eq_nil_iff.mp hdrop)]
          obtain ⟨hs, heq, hle⟩ := drainChannel_of arrived inbox.gone 0 inbox.incoming
            (limit - (inbox.buffer.take limit).length) (inbox.buffer.take limit)
          rw [hres, undelivered_open hopen]
          refine ⟨hs, ?_, by omega⟩
          rw [← heq, htake]
        next =>
          have hnext : Inbox.undelivered { inbox with buffer := inbox.buffer.drop limit } =
              inbox.buffer.drop limit ++ streamItems inbox.incoming := undelivered_open hopen
          rw [hres]
          refine ⟨settled_of_eq hopen, ?_, hlen⟩
          dsimp only
          rw [undelivered_open hopen, hnext, ← List.append_assoc, List.take_append_drop]
      generalize hres : (if inbox.buffer.drop limit = [] then
          Inbox.drainChannel arrived inbox.gone 0 inbox.incoming (limit - (inbox.buffer.take limit).length)
            (inbox.buffer.take limit)
          else (inbox.buffer.take limit, { inbox with buffer := inbox.buffer.drop limit })) = result
      obtain ⟨hs, heq, hle⟩ := hof result hres.symm
      obtain ⟨output, next⟩ := result
      dsimp only
      by_cases hout : output = []
      · rw [if_neg (not_not_intro hout)]
        have heq' : inbox.undelivered = next.undelivered := by
          rw [heq]
          show output ++ next.undelivered = next.undelivered
          rw [hout, List.nil_append]
        by_cases hended : next.eos = true
        · rw [if_pos hended]
          exact ⟨hs, heq'.trans (hs.undelivered_eos hended), hs.undelivered_eos hended⟩
        · rw [if_neg hended]
          exact ⟨hs, rfl, heq'.symm⟩
      · rw [if_pos hout]
        exact ⟨hs, heq, hle, fun _ => hout⟩

/-- One call. An item may be put back as long as the end of the stream has not been cached. -/
theorem run_served (call : ReceiverCall α) (arrived : Arrivals) (h : inbox.Settled)
    (hb : ∀ item, call = .putBack item → inbox.eos = false) : CallServed inbox call (call.run arrived inbox) := by
  cases call with
  | recv =>
    exact work_served .recv _ _ (receive_serves awaited h) (lookUp_awaited inbox)
      (receive_answers .recv awaited h fun _ => rfl)
  | peek => exact peek_served h
  | tryRecv =>
    exact (attempt_served .tryRecv _ _ (receive_serves arrived h) rfl
      (receive_answers .tryRecv arrived h fun _ => rfl)).1
  | tryRecvMany limit => exact tryRecvMany_served arrived limit h
  | recvBatch => exact recvBatch_served h
  | tryRecvBatch =>
    exact (attempt_served .tryRecvBatch _ _ (receiveBatch_serves arrived h) rfl
      (receiveBatch_answers .tryRecvBatch arrived h fun first items => List.cons_ne_nil first items)).1
  | recvTimeout =>
    exact (attempt_served .recvTimeout _ _ (receive_serves arrived h) rfl
      (receive_answers .recvTimeout arrived h fun _ => rfl)).2
  | putBack item =>
    have hopen := hb item rfl
    have hnext : (inbox.putBack item).undelivered = item :: inbox.buffer ++ streamItems inbox.incoming :=
      undelivered_open hopen
    refine ⟨settled_of_eq hopen, item, rfl, ?_⟩
    show (inbox.putBack item).undelivered = item :: inbox.undelivered
    rw [hnext, undelivered_open hopen]
    rfl

end Receive

variable {incoming : List (ChannelMessage α)}

/-- The inbox of a stream that ends with an end-of-stream envelope beside the inbox of the same stream when the
producer just drops its sender. -/
structure Twins (marked dropped : Inbox α) : Prop where
  buffer : marked.buffer = dropped.buffer
  items : ∀ message ∈ dropped.incoming, message ≠ .endOfStream
  ends : (marked.eos = false ∧ dropped.eos = false ∧ marked.gone = false ∧ dropped.gone = false ∧
      marked.incoming = dropped.incoming ++ [.endOfStream]) ∨
    (marked.eos = true ∧ marked.buffer = [] ∧ dropped.incoming = [] ∧ (dropped.eos = true ∨ dropped.gone = true))

/-- Two ways to leave a loop that a caller cannot tell apart. -/
def Taken.Same {β : Type} (first second : Taken β) : Prop :=
  (first = second ∧ first ≠ .disconnected) ∨ (first = .endOfStream ∧ second = .disconnected)

/-- While a loop takes envelopes, only the end mark is in one of the two inboxes and not in the other. -/
theorem Twins.live {buffer : List α} (h : ∀ message ∈ incoming, message ≠ .endOfStream) :
    Twins ⟨incoming ++ [.endOfStream], false, buffer, false⟩ ⟨incoming, false, buffer, false⟩ :=
  ⟨rfl, h, Or.inl ⟨rfl, rfl, rfl, rfl, rfl⟩⟩

theorem takeEnvelope_twins {β : Type} (unpack : α → List α → β × List α) (arrived : Arrivals) (look : Nat)
    (h : ∀ message ∈ incoming, message ≠ .endOfStream) :
    Taken.Same (Inbox.takeEnvelope unpack arrived false look (incoming ++ [.endOfStream])).1
        (Inbox.takeEnvelope unpack arrived false look incoming).1 ∧
      Twins (Inbox.takeEnvelope unpack arrived false look (incoming ++ [.endOfStream])).2
        (Inbox.takeEnvelope unpack arrived false look incoming).2 := by
  induction incoming generalizing look with
  | nil =>
    rw [List.nil_append]
    unfold Inbox.takeEnvelope
    by_cases hlook : arrived look = true
    · rw [if_pos hlook, if_pos (Or.inr hlook)]
      exact ⟨Or.inr ⟨rfl, rfl⟩, rfl, h, Or.inr ⟨rfl, rfl, rfl, Or.inr rfl⟩⟩
    · rw [if_neg hlook, if_neg (not_or.mpr ⟨Bool.false_ne_true, hlook⟩)]
      exact ⟨Or.inl ⟨rfl, nofun⟩, .live h⟩
  | cons message rest ih =>
    have hrest : ∀ m ∈ rest, m ≠ .endOfStream := fun m hm => h m (List.mem_cons_of_mem message hm)
    rw [List.cons_append]
    unfold Inbox.takeEnvelope
    by_cases hlook : arrived look = true
    · rw [if_pos hlook, if_pos hlook]
      cases message with
      | sample item => exact ⟨Or.inl ⟨rfl, nofun⟩, .live hrest⟩
      | batch items =>
        cases items with
        | nil => exact ih (look + 1) hrest
        | cons first items => exact ⟨Or.inl ⟨rfl, nofun⟩, .live hrest⟩
      | endOfStream => exact absurd rfl (h _ List.mem_cons_self)
    · rw [if_neg hlook, if_neg hlook]
      exact ⟨Or.inl ⟨rfl, nofun⟩, .live h⟩

theorem drainChannel_twins (arrived : Arrivals) (look : Nat)
    (h : ∀ message ∈ incoming, message ≠ .endOfStream) (room : Nat) (output : List α) :
    (Inbox.drainChannel arrived false look (incoming ++ [.endOfStream]) room output).1 =
        (Inbox.drainChannel arrived false look incoming room output).1 ∧
      (Inbox.drainChannel arrived false look (incoming ++ [.endOfStream]) room output).2.eos =
        (Inbox.drainChannel arrived false look incoming room output).2.eos ∧
      Twins (Inbox.drainChannel arrived false look (incoming ++ [.endOfStream]) room output).2
        (Inbox.drainChannel arrived false look incoming room output).2 := by
  induction incoming generalizing look room output with
  | nil =>
    rw [List.nil_append]
    unfold Inbox.drainChannel
    by_cases hroom : room = 0
    · rw [if_pos hroom, if_pos hroom]
      exact ⟨rfl, rfl, .live h⟩
    · rw [if_neg hroom, if_neg hroom]
      by_cases hlook : arrived look = true
      · rw [if_pos hlook, if_pos (Or.inr hlook)]
        exact ⟨rfl, rfl, rfl, h, Or.inr ⟨rfl, rfl, rfl, Or.inl rfl⟩⟩
      · rw [if_neg hlook, if_neg (not_or.mpr ⟨Bool.false_ne_true, hlook⟩)]
        exact ⟨rfl, rfl, .live h⟩
  | cons message rest ih =>
    have hrest : ∀ m ∈ rest, m ≠ .endOfStream := fun m hm => h m (List.mem_cons_of_mem message hm)
    rw [List.cons_append]
    unfold Inbox.drainChannel
    by_cases hroom : room = 0
    · rw [if_pos hroom, if_pos hroom]
      exact ⟨rfl, rfl, .live h⟩
    · rw [if_neg hroom, if_neg hroom]
      by_cases hlook : arrived look = true
      · rw [if_pos hlook, if_pos hlook]
        cases message with
        | sample item => exact ih (look + 1) hrest (room - 1) (output ++ [item])
        | batch items =>
          dsimp only
          by_cases hlt : items.length < room
          · rw [if_pos hlt, if_pos hlt]
            exact ih (look + 1) hrest (room - items.length) (output ++ items)
          · rw [if_neg hlt, if_neg hlt]
            exact ⟨rfl, rfl, .live hrest⟩
        | endOfStream => exact absurd rfl (h _ List.mem_cons_self)
      · rw [if_neg hlook, if_neg hlook]
        exact ⟨rfl, rfl, .live h⟩

section Twins

variable {marked dropped : Inbox α}

theorem Twins.withBuffer (h : Twins marked dropped) (he : marked.eos = false) (buffer : List α) :
    Twins { marked with buffer } { dropped with buffer } := by
  refine ⟨rfl, h.items, ?_⟩
  rcases h.ends with hopen | hended
  · exact Or.inl hopen
  · rw [hended.1] at he
    cases he

theorem Twins.lookUp {β : Type} (h : Twins marked dropped) (unpack : α → List α → β × List α) (arrived : Arrivals) :
    Taken.Same (marked.lookUp unpack arrived).1 (dropped.lookUp unpack arrived).1 ∧
      Twins (marked.lookUp unpack arrived).2 (dropped.lookUp unpack arrived).2 := by
  rw [Inbox.lookUp, Inbox.lookUp]
  rcases h.ends with ⟨hopen, hopen', hgone, hgone', hin⟩ | ⟨hended, hnil, hin, hseen⟩
  · have hm : ¬marked.eos = true := by simp [hopen]
    have hd : ¬dropped.eos = true := by simp [hopen']
    rw [if_neg hm, if_neg hd, ← h.buffer]
    cases hb : marked.buffer with
    | cons item buffer => exact ⟨Or.inl ⟨rfl, nofun⟩, h.withBuffer hopen _⟩
    | nil =>
      rw [hgone, hgone', hin]
      exact takeEnvelope_twins unpack arrived 0 h.items
  · rw [if_pos hended]
    have hnil' : dropped.buffer = [] := h.buffer.symm.trans hnil
    by_cases hd : dropped.eos = true
    · rw [if_pos hd]
      exact ⟨Or.inl ⟨rfl, nofun⟩, h⟩
    · have hgone : dropped.gone = true := hseen.resolve_left hd
      rw [if_neg hd, hnil', hin, hgone, Inbox.takeEnvelope, if_pos (Or.inl rfl)]
      refine ⟨Or.inr ⟨rfl, rfl⟩, hnil, ?_, Or.inr ⟨hended, hnil, rfl, Or.inr rfl⟩⟩
      intro message hm
      cases hm

theorem Taken.Same.work {β : Type} {first second : Taken β} (h : first.Same second) : first.work = second.work := by
  rcases h with ⟨rfl, -⟩ | ⟨rfl, rfl⟩
  · rfl
  · rfl

theorem Taken.Same.attempt {β : Type} {first second : Taken β} (h : first.Same second) :
    first.attempt = second.attempt := by
  rcases h with ⟨rfl, -⟩ | ⟨rfl, rfl⟩
  · rfl
  · rfl

theorem Taken.Same.timed {β : Type} {first second : Taken β} (h : first.Same second) :
    first.timed = second.timed := by
  rcases h with ⟨rfl, -⟩ | ⟨rfl, rfl⟩
  · rfl
  · rfl

theorem answers_twins {ε β : Type} (failed : ε → ReceiverAnswer α) (got : β → ReceiverAnswer α)
    {first second : Except ε β} (hr : first = second) (ht : Twins marked dropped) :
    (answerOf failed got (first, marked)).1 = (answerOf failed got (second, dropped)).1 ∧
      Twins (answerOf failed got (first, marked)).2 (answerOf failed got (second, dropped)).2 := by
  subst hr
  cases first with
  | ok value => exact ⟨rfl, ht⟩
  | error error => exact ⟨rfl, ht⟩

theorem Twins.recvBatch (h : Twins marked dropped) :
    marked.recvBatch.1 = dropped.recvBatch.1 ∧ Twins marked.recvBatch.2 dropped.recvBatch.2 := by
  obtain ⟨hsame, ht⟩ := h.lookUp (fun first items => (first :: items, ([] : List α))) awaited
  refine ⟨hsame.work, ?_⟩
  have heos := @lookUp_endOfStream α marked (List α) (fun first items => (first :: items, [])) awaited
  rw [Inbox.recvBatch, Inbox.recvBatch, Inbox.receiveBatch]
  rcases hm : marked.lookUp (fun first items => (first :: items, [])) awaited with ⟨taken, next⟩
  rcases hd : dropped.lookUp (fun first items => (first :: items, [])) awaited with ⟨taken', next'⟩
  rw [hm, hd] at hsame ht
  rw [hm] at heos
  rcases hsame with ⟨heq, hne⟩ | ⟨hend, hdis⟩
  · dsimp only at heq hne
    subst heq
    cases taken with
    | disconnected => exact absurd rfl hne
    | got items => exact ht
    | pending => exact ht
    | endOfStream => exact ht
  · dsimp only at hend hdis
    subst hend hdis
    have hcached : next.eos = true := heos rfl
    refine ⟨ht.buffer, ht.items, ?_⟩
    rcases ht.ends with hopen | hended
    · have hfalse : next.eos = false := hopen.1
      rw [hcached] at hfalse
      cases hfalse
    · exact Or.inr ⟨hended.1, hended.2.1, hended.2.2.1, Or.inl rfl⟩

theorem Twins.tryRecvMany (h : Twins marked dropped) (arrived : Arrivals) (limit : Nat) :
    (marked.tryRecvMany arrived limit).1 = (dropped.tryRecvMany arrived limit).1 ∧
      Twins (marked.tryRecvMany arrived limit).2 (dropped.tryRecvMany arrived limit).2 := by
  rw [Inbox.tryRecvMany, Inbox.tryRecvMany]
  by_cases hz : limit = 0
  · rw [if_pos hz, if_pos hz]
    exact ⟨rfl, h⟩
  rw [if_neg hz, if_neg hz]
  dsimp only
  rcases h.ends with ⟨hopen, hopen', hgone, hgone', hin⟩ | ⟨hended, hnil, hin, hseen⟩
  · have hm : ¬marked.eos = true := by simp [hopen]
    have hd : ¬dropped.eos = true := by simp [hopen']
    rw [if_neg hm, if_neg hd, ← h.buffer]
    by_cases hdrop : marked.buffer.drop limit = []
    · obtain ⟨hout, heos, ht⟩ := drainChannel_twins arrived 0 h.items
        (limit - (marked.buffer.take limit).length) (marked.buffer.take limit)
      rw [if_pos hdrop, if_pos hdrop, hgone, hgone', hin]
      rw [hout, heos]
      split
      · exact ⟨rfl, ht⟩
      · split
        · exact ⟨rfl, ht⟩
        · exact ⟨rfl, ht⟩
    · rw [if_neg hdrop, if_neg hdrop]
      dsimp only
      rw [hopen, hopen']
      have ht := h.withBuffer hopen (marked.buffer.drop limit)
      rw [hopen, hopen'] at ht
      split
      · exact ⟨rfl, ht⟩
      · exact ⟨rfl, ht⟩
  · have hnil' : dropped.buffer = [] := h.buffer.symm.trans hnil
    rw [if_pos hended, hnil, hnil', List.take_nil, List.drop_nil, if_pos rfl, if_pos rfl]
    by_cases hd : dropped.eos = true
    · rw [if_pos hd]
      exact ⟨rfl, rfl, h.items, Or.inr ⟨hended, rfl, hin, Or.inl hd⟩⟩
    · have hgone : dropped.gone = true := hseen.resolve_left hd
      have hroom : ¬limit - ([] : List α).length = 0 := hz
      rw [if_neg hd, if_pos rfl, hin, hgone, Inbox.drainChannel, if_neg hroom, if_pos (Or.inl rfl)]
      refine ⟨rfl, rfl, ?_, Or.inr ⟨hended, rfl, rfl, Or.inl rfl⟩⟩
      intro message hm
      cases hm

/-- Both sides answer every call alike, as long as nothing is put back behind a cached end. -/
theorem Twins.run (h : Twins marked dropped) (call : ReceiverCall α) (arrived : Arrivals)
    (hb : ∀ item, call = .putBack item → marked.eos = false) :
    (call.run arrived marked).1 = (call.run arrived dropped).1 ∧
      Twins (call.run arrived marked).2 (call.run arrived dropped).2 := by
  cases call with
  | recv =>
    obtain ⟨hsame, ht⟩ := h.lookUp (fun first items => (first, items)) awaited
    exact answers_twins _ _ hsame.work ht
  | peek =>
    obtain ⟨hsame, ht⟩ := h.lookUp (fun first items => (first, first :: items)) awaited
    exact answers_twins _ _ hsame.work ht
  | tryRecv =>
    obtain ⟨hsame, ht⟩ := h.lookUp (fun first items => (first, items)) arrived
    exact answers_twins _ _ hsame.attempt ht
  | tryRecvMany limit =>
    obtain ⟨hsame, ht⟩ := h.tryRecvMany arrived limit
    exact answers_twins _ _ hsame ht
  | recvBatch =>
    obtain ⟨hsame, ht⟩ := h.recvBatch
    exact answers_twins _ _ hsame ht
  | tryRecvBatch =>
    obtain ⟨hsame, ht⟩ := h.lookUp (fun first items => (first :: items, ([] : List α))) arrived
    exact answers_twins _ _ hsame.attempt ht
  | recvTimeout =>
    obtain ⟨hsame, ht⟩ := h.lookUp (fun first items => (first, items)) arrived
    exact answers_twins _ _ hsame.timed ht
  | putBack item =>
    refine ⟨rfl, ?_⟩
    have ht := h.withBuffer (hb item rfl) (item :: marked.buffer)
    rw [ReceiverCall.run, ReceiverCall.run, Inbox.putBack, Inbox.putBack, ← h.buffer]
    exact ht

end Twins

variable {exchange : Exchange α} {items : List α}

def PutsBackLast (log : List (Exchange α)) : Prop :=
  ∀ pre exchange post, log = pre ++ exchange :: post → ∀ item, exchange.call = .putBack item →
    (delivered pre).getLast? = some item

/-- Nothing is put back once the end-of-stream flag is set. -/
def PutsBackOpen (log : List (Exchange α)) : Prop :=
  ∀ exchange ∈ log, ∀ item, exchange.call = .putBack item → exchange.before.eos = false

/-- One exchange of a run over a stream of `items`, after the exchanges `pre`. -/
structure Accounted (items : List α) (pre : List (Exchange α)) (exchange : Exchange α) : Prop where
  answers : StreamAnswers exchange.before.undelivered exchange.call exchange.answer exchange.after.undelivered
  before : delivered pre ++ exchange.before.undelivered = items
  after : delivered (pre ++ [exchange]) ++ exchange.after.undelivered = items
  ended : exchange.answer = .ended → delivered pre = items

def ReceiverAnswer.got : ReceiverAnswer α → List α
  | .items received => received
  | _ => []

theorem delivered_putBack (log : List (Exchange α)) {item : α}
    (h : exchange.call = .putBack item) : delivered (log ++ [exchange]) = (delivered log).dropLast := by
  obtain ⟨before, call, answer, after⟩ := exchange
  cases h
  rw [delivered, List.foldl_append]
  rfl

theorem delivered_got (log : List (Exchange α)) (h : ∀ item, exchange.call ≠ .putBack item) :
    delivered (log ++ [exchange]) = delivered log ++ exchange.answer.got := by
  obtain ⟨before, call, answer, after⟩ := exchange
  rw [delivered, List.foldl_append]
  cases call with
  | putBack item => exact absurd rfl (h item)
  | _ =>
    cases answer with
    | items items => rfl
    | _ => exact (List.append_nil _).symm

/-- One exchange moves the items it returns from what is left to what was received. -/
theorem delivered_step {log : List (Exchange α)}
    (ha : StreamAnswers exchange.before.undelivered exchange.call exchange.answer exchange.after.undelivered)
    (hd : ∀ item, exchange.call = .putBack item → exchange.answer = .done)
    (hb : delivered log ++ exchange.before.undelivered = items)
    (hl : ∀ item, exchange.call = .putBack item → (delivered log).getLast? = some item) :
    delivered (log ++ [exchange]) ++ exchange.after.undelivered = items := by
  by_cases hput : ∃ item, exchange.call = .putBack item
  · obtain ⟨item, hcall⟩ := hput
    rw [hd item hcall] at ha
    obtain ⟨same, hsame, heq⟩ := ha
    rw [hcall] at hsame
    cases hsame
    rw [delivered_putBack log hcall, heq, ← hb, List.append_cons, List.dropLast_append_getLast? item (hl item hcall)]
  · have hnot : ∀ item, exchange.call ≠ .putBack item := fun item hcall => hput ⟨item, hcall⟩
    rw [delivered_got log hnot, ← hb, List.append_assoc]
    congr 1
    cases hanswer : exchange.answer with
    | items got =>
      rw [hanswer] at ha
      exact ha.1.symm
    | peeked item =>
      rw [hanswer] at ha
      exact ha.2.1
    | pending =>
      rw [hanswer] at ha
      exact ha.2
    | ended =>
      rw [hanswer] at ha
      exact ha.2.trans ha.1.symm
    | done =>
      rw [hanswer] at ha
      obtain ⟨item, hcall, -⟩ := ha
      exact absurd hcall (hnot item)

theorem exchanges_accounted (requests : List (ReceiverCall α × Arrivals)) (inbox : Inbox α)
    (prior : List (Exchange α)) (hs : inbox.Settled) (hstart : delivered prior ++ inbox.undelivered = items)
    (hopen : PutsBackOpen (exchanges requests inbox))
    (hlast : ∀ pre exchange post, exchanges requests inbox = pre ++ exchange :: post → ∀ item,
      exchange.call = .putBack item → (delivered (prior ++ pre)).getLast? = some item)
    {pre post : List (Exchange α)}
    (h : exchanges requests inbox = pre ++ exchange :: post) : Accounted items (prior ++ pre) exchange := by
  induction requests generalizing inbox prior pre with
  | nil => simp [exchanges] at h
  | cons request requests ih =>
    obtain ⟨call, arrived⟩ := request
    rw [exchanges] at hopen hlast h
    have hserved := run_served call arrived hs (hopen _ List.mem_cons_self)
    have hdone : ∀ item, call = .putBack item → (call.run arrived inbox).1 = .done := by
      intro item hc
      rw [hc]
      rfl
    have hnext : delivered (prior ++ [⟨inbox, call, (call.run arrived inbox).1, (call.run arrived inbox).2⟩]) ++
        (call.run arrived inbox).2.undelivered = items :=
      delivered_step hserved.2 hdone hstart (fun item hc => by simpa using hlast [] _ _ rfl item hc)
    cases pre with
    | nil =>
      rw [List.nil_append, List.cons.injEq] at h
      obtain ⟨rfl, -⟩ := h
      rw [List.append_nil]
      refine ⟨hserved.2, hstart, hnext, ?_⟩
      intro hended
      have hempty := hserved.2
      have hanswer : (call.run arrived inbox).1 = .ended := hended
      rw [hanswer] at hempty
      rw [← hstart, hempty.1, List.append_nil]
    | cons first pre =>
      rw [List.cons_append, List.cons.injEq] at h
      obtain ⟨rfl, h⟩ := h
      rw [List.append_cons]
      refine ih _ _ hserved.1 hnext (fun e he => hopen e (List.mem_cons_of_mem _ he)) ?_ h
      intro pre' e post' heq item hc
      rw [List.append_assoc]
      exact hlast (_ :: pre') e post' (by rw [heq]; rfl) item hc

theorem exchanges_twins (requests : List (ReceiverCall α × Arrivals)) {marked dropped : Inbox α}
    (h : Twins marked dropped) (hopen : PutsBackOpen (exchanges requests marked)) :
    (exchanges requests marked).map Exchange.answer = (exchanges requests dropped).map Exchange.answer := by
  induction requests generalizing marked dropped with
  | nil => rfl
  | cons request requests ih =>
    obtain ⟨call, arrived⟩ := request
    rw [exchanges] at hopen
    have hstep := h.run call arrived (hopen _ List.mem_cons_self)
    have hrest := ih hstep.2 (fun e he => hopen e (List.mem_cons_of_mem _ he))
    rw [exchanges, exchanges, List.map_cons, List.map_cons, hrest]
    congr 1
    apply hstep.1

/-- A run over one input, through whichever receivers, with an item put back only as the one received last
and only while the end of the stream is not cached: every call is answered from the items of the stream not
yet delivered, those delivered and those not are always the stream, the end is reported only after all of it,
and it makes no difference whether the producer marks the end or drops its sender. -/
theorem receiver_delivers_stream (sent : List (ChannelMessage α)) (requests : List (ReceiverCall α × Arrivals)) :
    (PutsBackLast (exchanges requests (.new sent)) → PutsBackOpen (exchanges requests (.new sent)) →
      ∀ pre exchange post, exchanges requests (.new sent) = pre ++ exchange :: post →
        Accounted (streamItems sent) pre exchange) ∧
    (.endOfStream ∉ sent → PutsBackOpen (exchanges requests (.new (sent ++ [.endOfStream]))) →
      (exchanges requests (.new (sent ++ [.endOfStream]))).map Exchange.answer =
        (exchanges requests (.new sent)).map Exchange.answer) := by
  constructor
  · intro hlast hopen pre exchange post h
    have hstart : delivered [] ++ (Inbox.new sent).undelivered = streamItems sent := rfl
    exact exchanges_accounted requests (.new sent) [] (settled_of_eq rfl) hstart hopen hlast h
  · intro hsent hopen
    apply exchanges_twins requests _ hopen
    refine ⟨rfl, ?_, Or.inl ⟨rfl, rfl, rfl, rfl, rfl⟩⟩
    intro message hm heq
    rw [heq] at hm
    exact hsent hm

def lookAhead : List (ReceiverCall Nat × Arrivals) :=
  [(.recv, awaited), (.peek, awaited), (.putBack 7, awaited), (.recv, awaited)]

theorem lookAhead_putsBackLast {rest : List (ChannelMessage Nat)}
    (hrest : rest = [.endOfStream] ∨ rest = [.sample 8, .endOfStream]) :
    PutsBackLast (exchanges lookAhead (.new (.sample 7 :: rest))) := by
  intro pre exchange post h item hc
  rw [lookAhead, exchanges, exchanges, exchanges, exchanges, exchanges] at h
  rcases pre with _ | ⟨e0, _ | ⟨e1, _ | ⟨e2, _ | ⟨e3, pre⟩⟩⟩⟩
  · cases h
    cases hc
  · cases h
    cases hc
  · cases h
    cases hc
    rcases hrest with rfl | rfl
    · rfl
    · rfl
  · cases h
    cases hc
  · rw [List.cons_append, List.cons_append, List.cons_append, List.cons_append] at h
    simp at h

theorem lookAhead_putsBackOpen :
    PutsBackOpen (exchanges lookAhead (.new [.sample 7, .sample 8, .endOfStream])) := by
  intro exchange hm item hc
  rw [lookAhead, exchanges, exchanges, exchanges, exchanges, exchanges] at hm
  simp only [List.mem_cons, List.not_mem_nil, or_false] at hm
  rcases hm with rfl | rfl | rfl | rfl
  · cases hc
  · cases hc
  · rfl
  · cases hc

theorem receiver_delivers_stream_lookAhead :
    (∀ pre exchange post, exchanges lookAhead (.new [.sample 7, .sample 8, .endOfStream]) = pre ++ exchange :: post →
      Accounted [7, 8] pre exchange) ∧
    (exchanges lookAhead (.new [.sample 7, .sample 8, .endOfStream])).map Exchange.answer =
      [.items [7], .peeked 8, .done, .items [7]] ∧
    (exchanges lookAhead (.new [.sample 7, .sample 8])).map Exchange.answer =
      [.items [7], .peeked 8, .done, .items [7]] := by
  refine ⟨?_, rfl, ?_⟩
  · exact (receiver_delivers_stream [.sample 7, .sample 8, .endOfStream] lookAhead).1
      (lookAhead_putsBackLast (Or.inr rfl)) lookAhead_putsBackOpen
  · have hsame := (receiver_delivers_stream [.sample 7, .sample 8] lookAhead).2 (by decide) lookAhead_putsBackOpen
    rw [← hsame]
    rfl

/-- A look past the last item caches the end, and the item put back then is never returned; after a dropped
sender it is. -/
theorem put_back_behind_end_is_lost :
    PutsBackLast (exchanges lookAhead (.new [.sample 7, .endOfStream])) ∧
    (exchanges lookAhead (.new [.sample 7, .endOfStream])).map Exchange.answer =
      [.items [7], .ended, .done, .ended] ∧
    (exchanges lookAhead (.new [.sample 7])).map Exchange.answer = [.items [7], .ended, .done, .items [7]] ∧
    ¬∀ pre exchange post, exchanges lookAhead (.new [.sample 7, .endOfStream]) = pre ++ exchange :: post →
      exchange.answer = .ended → delivered pre = streamItems [.sample 7, .endOfStream] := by
  refine ⟨lookAhead_putsBackLast (Or.inl rfl), rfl, rfl, ?_⟩
  intro h
  rw [lookAhead, exchanges, exchanges, exchanges, exchanges, exchanges] at h
  have hlast := h [_, _, _] _ [] rfl rfl
  cases hlast

end LogicConduit
