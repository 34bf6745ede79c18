import LogicConduit.ReceiverStream

namespace LogicConduit

/-- What a receiver can still get. An item put back behind the cached end of the stream is out of reach. -/
def Inbox.available {α : Type} (inbox : Inbox α) : List α := if inbox.eos then [] else inbox.undelivered

variable {α : Type} {inbox : Inbox α} {item : α} {next : Inbox α} {items : List α}

theorem available_open (h : inbox.eos = false) : inbox.available = inbox.undelivered := by
  rw [Inbox.available, h]
  rfl

theorem available_ended (h : inbox.eos = true) : inbox.available = [] := by
  rw [Inbox.available, h]
  rfl

theorem available_settled (h : inbox.Settled) : inbox.available = inbox.undelivered := by
  cases heos : inbox.eos with
  | false => exact available_open heos
  | true => rw [available_ended heos, h.undelivered_eos heos]

theorem available_length_le (inbox : Inbox α) : inbox.available.length ≤ inbox.undelivered.length := by
  cases heos : inbox.eos with
  | false => exact Nat.le_of_eq (congrArg List.length (available_open heos))
  | true =>
    rw [available_ended heos]
    exact Nat.zero_le _

theorem recv_ended (h : inbox.available = []) : ∃ next, inbox.recv = (.error .shutdown, next) ∧ next.available = [] := by
  cases heos : inbox.eos with
  | true =>
    refine ⟨inbox, ?_, h⟩
    rw [Inbox.recv, Inbox.receive, Inbox.lookUp, if_pos heos]
    rfl
  | false =>
    have hserved := run_served .recv awaited (settled_of_eq heos) (fun item hcall => by cases hcall)
    rw [ReceiverCall.run] at hserved
    rcases hrecv : inbox.recv with ⟨result, next⟩
    rw [hrecv] at hserved
    cases result with
    | ok item =>
      obtain ⟨-, hall, -⟩ := hserved
      rw [← available_open heos, h] at hall
      cases hall
    | error error =>
      cases error
      exact ⟨next, rfl, (available_settled hserved.1).trans hserved.2.2⟩

theorem lookUp_got {β : Type} {unpack : α → List α → β × List α} {value : β}
    (h : (inbox.lookUp unpack awaited).1 = .got value) : (inbox.lookUp unpack awaited).2.eos = false := by
  by_cases heos : inbox.eos = true
  · rw [Inbox.lookUp, if_pos heos] at h
    cases h
  · rw [Inbox.lookUp, if_neg heos] at h ⊢
    cases hbuffer : inbox.buffer with
    | cons first items => exact Bool.eq_false_iff.mpr heos
    | nil =>
      rw [hbuffer] at h
      have hof := takeEnvelope_of unpack awaited inbox.gone 0 inbox.incoming
      rw [Taken.Of, h] at hof
      obtain ⟨_, _, _, _, hopen, _⟩ := hof
      exact hopen

theorem recv_ok_open (h : inbox.recv = (.ok item, next)) : next.eos = false := by
  obtain ⟨hresult, rfl⟩ := Prod.mk.inj h
  cases htaken : (inbox.receive awaited).1 with
  | got value => exact lookUp_got htaken
  | pending | endOfStream | disconnected =>
    rw [htaken] at hresult
    cases hresult

theorem peek_ok_open (h : inbox.peek = (.ok item, next)) : next.eos = false := by
  obtain ⟨hresult, rfl⟩ := Prod.mk.inj h
  cases htaken : (inbox.receiveFront awaited).1 with
  | got value => exact lookUp_got htaken
  | pending | endOfStream | disconnected =>
    rw [htaken] at hresult
    cases hresult

theorem recv_item (h : inbox.available = item :: items) :
    ∃ next, inbox.recv = (.ok item, next) ∧ next.available = items ∧ next.eos = false := by
  cases heos : inbox.eos with
  | true =>
    rw [available_ended heos] at h
    cases h
  | false =>
    have hserved := run_served .recv awaited (settled_of_eq heos) (fun item hcall => by cases hcall)
    rw [ReceiverCall.run] at hserved
    rcases hrecv : inbox.recv with ⟨result, next⟩
    rw [hrecv] at hserved
    rw [available_open heos] at h
    cases result with
    | ok received =>
      obtain ⟨hnext, hall, -⟩ := hserved
      rw [h] at hall
      obtain ⟨rfl, hitems⟩ := List.cons.inj hall
      exact ⟨next, rfl, (available_settled hnext).trans hitems.symm, recv_ok_open hrecv⟩
    | error error =>
      cases error
      have hempty : inbox.undelivered = [] := hserved.2.1
      rw [h] at hempty
      cases hempty

theorem peek_ended (h : inbox.available = []) : ∃ next, inbox.peek = (.error .shutdown, next) ∧ next.available = [] := by
  cases heos : inbox.eos with
  | true =>
    refine ⟨inbox, ?_, h⟩
    rw [Inbox.peek, Inbox.receiveFront, Inbox.lookUp, if_pos heos]
    rfl
  | false =>
    have hserved := peek_served (settled_of_eq heos)
    rcases hpeek : inbox.peek with ⟨result, next⟩
    rw [hpeek] at hserved
    cases result with
    | ok item =>
      obtain ⟨-, -, -, hhead⟩ := hserved
      rw [← available_open heos, h] at hhead
      cases hhead
    | error error =>
      cases error
      exact ⟨next, rfl, (available_settled hserved.1).trans hserved.2.2⟩

theorem peek_item (h : inbox.available = item :: items) :
    ∃ next, inbox.peek = (.ok item, next) ∧ next.available = item :: items ∧ next.eos = false := by
  cases heos : inbox.eos with
  | true =>
    rw [available_ended heos] at h
    cases h
  | false =>
    have hserved := peek_served (settled_of_eq heos)
    rcases hpeek : inbox.peek with ⟨result, next⟩
    rw [hpeek] at hserved
    rw [available_open heos] at h
    cases result with
    | ok peeked =>
      obtain ⟨hnext, -, hsame, hhead⟩ := hserved
      rw [h] at hhead
      cases hhead
      exact ⟨next, rfl, (available_settled hnext).trans (hsame.trans h), peek_ok_open hpeek⟩
    | error error =>
      cases error
      have hempty : inbox.undelivered = [] := hserved.2.1
      rw [h] at hempty
      cases hempty

theorem putBack_available (item : α) (h : inbox.eos = false) :
    (inbox.putBack item).available = item :: inbox.available := by
  have hopen : (inbox.putBack item).eos = false := h
  rw [available_open hopen, available_open h, undelivered_open hopen, undelivered_open h]
  rfl

end LogicConduit
