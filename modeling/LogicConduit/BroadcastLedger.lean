import LogicConduit.SharedSenders

namespace LogicConduit

/-- How a subscription stands. One that `close` ended may lose what the send in progress carried to it. -/
inductive Membership (α : Type)
  | member
  | unsubscribed
  | closed (carried : List α)

/-- What a subscriber is owed: the values whose send took the lock while it was a member, behind the one it
was primed with. -/
structure Subscription (α : Type) where
  policy : OverflowPolicy
  stream : List α
  membership : Membership α

variable {α : Type}

namespace Subscription

def isMember (subscription : Subscription α) : Bool := subscription.membership matches .member

def owe (items : List α) (subscription : Subscription α) : Subscription α :=
  if subscription.isMember then { subscription with stream := subscription.stream ++ items } else subscription

def leave (membership : Membership α) (subscription : Subscription α) : Subscription α :=
  if subscription.isMember then { subscription with membership := membership } else subscription

def MayMiss (subscription : Subscription α) (cut : List α) : Prop :=
  cut = [] ∨ subscription.membership = .closed cut

end Subscription

/-- `last` is the last value sent. -/
structure Ledger (α : Type) where
  last : Option α
  closed : Bool
  entries : Nat → Option (Subscription α)

namespace Ledger

def empty : Ledger α := ⟨none, false, fun _ => none⟩

def broadcast (ledger : Ledger α) (items : List α) : Ledger α :=
  { ledger with
    last := items.getLast?.or ledger.last
    entries := fun id => (ledger.entries id).map (Subscription.owe items) }

/-- The ledger after a step from `before`, which says what a send still carries when the list is closed. -/
def record (sticky : Bool) (before : Broadcast α) (ledger : Ledger α) : BroadcastStep α → Ledger α
  | .send value => ledger.broadcast [value]
  | .sendBatch values => ledger.broadcast values
  | .subscribe id _ policy =>
    let subscription : Subscription α := if ledger.closed then ⟨policy, [], .closed []⟩
      else ⟨policy, if sticky then ledger.last.toList else [], .member⟩
    { ledger with entries := fun other => if other = id then some subscription else ledger.entries other }
  | .unsubscribe id =>
    { ledger with entries := fun other =>
        if other = id then (ledger.entries other).map (Subscription.leave .unsubscribed) else ledger.entries other }
  | .close =>
    { ledger with
      closed := true
      entries := fun id =>
        (ledger.entries id).map (Subscription.leave (.closed (streamItems (before.carried id)))) }
  | _ => ledger

end Ledger

/-- A run of the threads with its ledger. -/
def playBroadcast (sticky : Bool) : List (BroadcastStep α) → Broadcast α × Ledger α → Option (Broadcast α × Ledger α)
  | [], state => some state
  | step :: steps, state =>
    (state.1.step step).bind fun next => playBroadcast sticky steps (next, state.2.record sticky state.1 step)

/-- What a broadcast has done for a subscriber that is owed `subscription`. -/
structure Delivers (broadcast : Broadcast α) (id : Nat) (subscription : Subscription α) : Prop where
  /-- It gets the values in order and each once. -/
  ordered : (broadcast.channels id).received <+: subscription.stream
  /-- What it has not got is queued or carried to it, or cut off by `close`. -/
  kept : (broadcast.channels id).alive = true → (broadcast.channels id).ended = false →
    ∃ cut, (broadcast.channels id).received ++
        streamItems ((broadcast.channels id).queue ++ broadcast.carried id) ++ cut = subscription.stream ∧
      subscription.MayMiss cut
  /-- It meets the end only after it left, with all its values or up to the cut. -/
  ended : (broadcast.channels id).ended = true → subscription.isMember = false ∧
    ∃ cut, (broadcast.channels id).received ++ cut = subscription.stream ∧ subscription.MayMiss cut
  /-- It waits only while it is a member, or for a send or a `close` in progress. -/
  waits : (broadcast.channels id).alive = true → (broadcast.channels id).ended = false → broadcast.taken id = none →
    (broadcast.channels id).queue = [] ∧
      (subscription.isMember = true ∨ broadcast.carried id ≠ [] ∨ id ∈ broadcast.closingIds)

/-- What a broadcast holds of one subscription. -/
structure Lane (α : Type) where
  channel : Channel α
  listed : Bool
  closing : Bool
  carried : List (ChannelMessage α)

namespace Lane

/-- The steps of one subscription that blocks its producer. -/
inductive Step : Lane α → Subscription α → Lane α → Subscription α → Prop
  | stay (lane : Lane α) (sub : Subscription α) : Step lane sub lane sub
  | send (lane : Lane α) (sub : Subscription α) (message : ChannelMessage α) (hm : message ≠ .endOfStream)
      (hc : lane.carried = []) :
      Step lane sub { lane with carried := if lane.listed then [message] else [] } (sub.owe message.items)
  | push (lane : Lane α) (sub : Subscription α) (message : ChannelMessage α) (rest : List (ChannelMessage α))
      (hc : lane.carried = message :: rest) :
      Step lane sub { lane with
        channel := { lane.channel with queue := lane.channel.queue ++ [message] }, carried := rest } sub
  | drop (lane : Lane α) (sub : Subscription α) (message : ChannelMessage α) (rest : List (ChannelMessage α))
      (hc : lane.carried = message :: rest) (ha : lane.channel.alive = false) :
      Step lane sub { lane with carried := rest } sub
  | unlist (lane : Lane α) (sub : Subscription α) (ha : lane.channel.alive = false) :
      Step lane sub { lane with listed := false } sub
  | unsubscribe (lane : Lane α) (sub : Subscription α) :
      Step lane sub { lane with listed := false } (sub.leave .unsubscribed)
  | close (lane : Lane α) (sub : Subscription α) (hc : lane.closing = false) :
      Step lane sub { lane with listed := false, closing := lane.listed }
        (sub.leave (.closed (streamItems lane.carried)))
  | closeNext (lane : Lane α) (sub : Subscription α) (hc : lane.closing = true) :
      Step lane sub { lane with channel := lane.channel.offered .endOfStream, closing := false } sub
  | take (lane : Lane α) (sub : Subscription α) (message : ChannelMessage α) (queue : List (ChannelMessage α))
      (hm : message ≠ .endOfStream) (hq : lane.channel.queue = message :: queue)
      (ha : lane.channel.alive = true) (he : lane.channel.ended = false) :
      Step lane sub { lane with
        channel := { lane.channel with queue := queue, received := lane.channel.received ++ message.items } } sub
  | takeEnd (lane : Lane α) (sub : Subscription α) (queue : List (ChannelMessage α))
      (hq : lane.channel.queue = .endOfStream :: queue)
      (ha : lane.channel.alive = true) (he : lane.channel.ended = false) :
      Step lane sub { lane with channel := { lane.channel with queue := queue, ended := true } } sub
  | disconnected (lane : Lane α) (sub : Subscription α) (hq : lane.channel.queue = [])
      (ha : lane.channel.alive = true) (he : lane.channel.ended = false)
      (hl : lane.listed = false) (hn : lane.closing = false) (hc : lane.carried = []) :
      Step lane sub { lane with channel := { lane.channel with ended := true } } sub
  | hangUp (lane : Lane α) (sub : Subscription α) :
      Step lane sub { lane with channel := { lane.channel with alive := false } } sub

/-- What holds of every lane. A lane counts as settled with its subscription by what it received, what is
queued before any end mark and what is carried. -/
structure Settles (lane : Lane α) (sub : Subscription α) : Prop where
  ordered : lane.channel.received <+: sub.stream
  listed : lane.listed = true → sub.isMember = true
  member : lane.channel.alive = true → sub.isMember = true → lane.listed = true
  closing : lane.closing = true → ∃ items, sub.membership = .closed items
  carried : ∀ message ∈ lane.carried, message ≠ .endOfStream
  single : lane.carried.length ≤ 1
  marked : .endOfStream ∈ lane.channel.queue → lane.listed = false ∧ lane.closing = false
  whole : lane.channel.alive = true → lane.channel.ended = false → .endOfStream ∉ lane.channel.queue →
    lane.channel.received ++ streamItems (lane.channel.queue ++ lane.carried) = sub.stream
  cut : lane.channel.alive = true → lane.channel.ended = false → .endOfStream ∈ lane.channel.queue →
    ∃ cut, lane.channel.received ++ streamItems lane.channel.queue ++ cut = sub.stream ∧ sub.MayMiss cut
  ended : lane.channel.ended = true → sub.isMember = false ∧
    ∃ cut, lane.channel.received ++ cut = sub.stream ∧ sub.MayMiss cut
  lost : ∀ items, sub.membership = .closed items → lane.closing = true → lane.carried = [] ∨
    streamItems lane.carried = items

end Lane

section Streams

variable {message : ChannelMessage α} {first second : List (ChannelMessage α)}

theorem streamItems_cons (h : message ≠ .endOfStream) (rest : List (ChannelMessage α)) :
    streamItems (message :: rest) = message.items ++ streamItems rest := by
  cases message with
  | sample item => rfl
  | batch items => rfl
  | endOfStream => exact absurd rfl h

theorem streamItems_append (h : .endOfStream ∉ first) :
    streamItems (first ++ second) = streamItems first ++ streamItems second := by
  induction first with
  | nil => rfl
  | cons message rest ih =>
    have hm : message ≠ .endOfStream := fun he => h (he ▸ List.mem_cons_self)
    have hr : .endOfStream ∉ rest := fun hin => h (List.mem_cons_of_mem _ hin)
    rw [List.cons_append, streamItems_cons hm, streamItems_cons hm, ih hr, List.append_assoc]

theorem streamItems_append_of_mem (h : .endOfStream ∈ first) : streamItems (first ++ second) = streamItems first := by
  induction first with
  | nil => cases h
  | cons message rest ih =>
    rw [List.cons_append]
    by_cases hm : message = .endOfStream
    · rw [hm]
      rfl
    · have hr := (List.mem_cons.mp h).resolve_left (Ne.symm hm)
      rw [streamItems_cons hm, streamItems_cons hm, ih hr]

end Streams

namespace Subscription

variable {sub : Subscription α}

@[simp] theorem owe_membership (items : List α) : (sub.owe items).membership = sub.membership := by
  unfold owe
  split
  · rfl
  · rfl

@[simp] theorem owe_isMember (items : List α) : (sub.owe items).isMember = sub.isMember := by
  rw [isMember, owe_membership, isMember]

theorem owe_eq (h : sub.isMember = false) (items : List α) : sub.owe items = sub := by
  rw [owe, h]
  rfl

theorem owe_stream (h : sub.isMember = true) (items : List α) : (sub.owe items).stream = sub.stream ++ items := by
  rw [owe, h]
  rfl

theorem leave_eq (h : sub.isMember = false) (membership : Membership α) : sub.leave membership = sub := by
  rw [leave, h]
  rfl

@[simp] theorem leave_stream (membership : Membership α) : (sub.leave membership).stream = sub.stream := by
  unfold leave
  split
  · rfl
  · rfl

theorem leave_isMember (membership : Membership α) (hm : (membership matches .member) = false) :
    (sub.leave membership).isMember = false := by
  unfold leave
  split
  · exact hm
  · exact eq_false_of_ne_true ‹_›

end Subscription

namespace Lane.Settles

variable {lane : Lane α} {sub : Subscription α}

section

variable (h : lane.Settles sub)
include h

variable {rest : List (ChannelMessage α)} {queue : List (ChannelMessage α)}

theorem not_member (ha : lane.channel.alive = true) (hl : lane.listed = false) :
    sub.isMember = false := by
  apply eq_false_of_ne_true
  intro hm
  rw [h.member ha hm] at hl
  cases hl

theorem not_listed (hm : sub.isMember = false) : lane.listed = false := by
  apply eq_false_of_ne_true
  intro hl
  rw [h.listed hl] at hm
  cases hm

theorem closing_not_member (hc : lane.closing = true) : sub.isMember = false := by
  obtain ⟨items, hi⟩ := h.closing hc
  rw [Subscription.isMember, hi]

theorem send {message : ChannelMessage α} (hm : message ≠ .endOfStream) (hc : lane.carried = []) :
    Settles { lane with carried := if lane.listed then [message] else [] } (sub.owe message.items) := by
  by_cases hmember : sub.isMember = true
  · have hstream := Subscription.owe_stream hmember message.items
    refine ⟨?_, ?_, ?_, ?_, ?_, ?_, h.marked, ?_, ?_, ?_, ?_⟩
    · rw [hstream]
      exact h.ordered.trans (List.prefix_append _ _)
    · intro _
      rwa [Subscription.owe_isMember]
    · intro ha _
      exact h.member ha hmember
    · intro hclosing
      rw [h.closing_not_member hclosing] at hmember
      cases hmember
    · intro other ho
      dsimp only at ho
      split at ho
      · rwa [List.mem_singleton.mp ho]
      · cases ho
    · dsimp only
      split
      · exact Nat.le_refl 1
      · exact Nat.zero_le 1
    · intro ha he hq
      dsimp only at ha he hq ⊢
      have hw := h.whole ha he hq
      rw [hc, List.append_nil] at hw
      rw [if_pos (h.member ha hmember), streamItems_append hq, hstream, ← hw, streamItems_cons hm, List.append_assoc]
      simp [streamItems]
    · intro ha _ hq
      have hl := (h.marked hq).1
      rw [h.member ha hmember] at hl
      cases hl
    · intro he
      rw [(h.ended he).1] at hmember
      cases hmember
    · intro items hclosed
      rw [Subscription.owe_membership] at hclosed
      rw [Subscription.isMember, hclosed] at hmember
      cases hmember
  · -- A subscriber that left is owed nothing, and is no longer in the list.
    have hnot := eq_false_of_ne_true hmember
    have hl := h.not_listed hnot
    rw [Subscription.owe_eq hnot]
    have hlane : { lane with carried := if lane.listed then [message] else [] } = lane := by
      obtain ⟨channel, listed, closing, carried⟩ := lane
      cases hl
      cases hc
      rfl
    rwa [hlane]

theorem push {message : ChannelMessage α} (hc : lane.carried = message :: rest) :
    Settles { lane with
      channel := { lane.channel with queue := lane.channel.queue ++ [message] }, carried := rest } sub := by
  have hm : message ≠ .endOfStream := h.carried message (hc ▸ List.mem_cons_self)
  have hrest : rest = [] := by
    have hone := h.single
    rw [hc] at hone
    exact List.eq_nil_of_length_eq_zero (Nat.le_zero.mp (Nat.le_of_succ_le_succ hone))
  have hmem : .endOfStream ∈ lane.channel.queue ++ [message] → .endOfStream ∈ lane.channel.queue := by
    intro hin
    rcases List.mem_append.mp hin with hin | hin
    · exact hin
    · exact absurd (List.mem_singleton.mp hin).symm hm
  refine ⟨h.ordered, h.listed, h.member, h.closing, ?_, ?_, ?_, ?_, ?_, h.ended, ?_⟩
  · intro other ho
    rw [hrest] at ho
    cases ho
  · rw [hrest]
    exact Nat.zero_le 1
  · intro hin
    exact h.marked (hmem hin)
  · intro ha he hq
    have hw := h.whole ha he (fun hin => hq (List.mem_append_left _ hin))
    rw [hc] at hw
    dsimp only
    rw [List.append_assoc]
    exact hw
  · intro ha he hq
    dsimp only
    rw [streamItems_append_of_mem (hmem hq)]
    exact h.cut ha he (hmem hq)
  · intro items _ _
    exact Or.inl hrest

theorem drop {message : ChannelMessage α}
    (hc : lane.carried = message :: rest) (ha : lane.channel.alive = false) :
    Settles { lane with carried := rest } sub := by
  have hone := h.single
  rw [hc] at hone
  have hrest : rest = [] := List.eq_nil_of_length_eq_zero (Nat.le_zero.mp (Nat.le_of_succ_le_succ hone))
  refine ⟨h.ordered, h.listed, h.member, h.closing, ?_, ?_, h.marked, ?_, h.cut, h.ended, ?_⟩
  · intro other ho
    rw [hrest] at ho
    cases ho
  · rw [hrest]
    exact Nat.zero_le 1
  · intro ht
    exact absurd (ha.symm.trans ht) nofun
  · intro items _ _
    exact Or.inl hrest

theorem unlist (ha : lane.channel.alive = false) : Settles { lane with listed := false } sub := by
  refine ⟨h.ordered, nofun, ?_, h.closing, h.carried, h.single, ?_, h.whole, h.cut, h.ended, h.lost⟩
  · intro ht
    exact absurd (ha.symm.trans ht) nofun
  · intro hin
    exact ⟨rfl, (h.marked hin).2⟩

theorem unsubscribe : Settles { lane with listed := false } (sub.leave .unsubscribed) := by
  by_cases hmember : sub.isMember = true
  · have hleave : sub.leave .unsubscribed = { sub with membership := .unsubscribed } := if_pos hmember
    rw [hleave]
    refine ⟨h.ordered, nofun, nofun, ?_, h.carried, h.single, ?_, h.whole, ?_, ?_, nofun⟩
    · intro hclosing
      rw [h.closing_not_member hclosing] at hmember
      cases hmember
    · intro hin
      exact ⟨rfl, (h.marked hin).2⟩
    · intro ha _ hin
      have hl := (h.marked hin).1
      rw [h.member ha hmember] at hl
      cases hl
    · intro he
      rw [(h.ended he).1] at hmember
      cases hmember
  · have hnot := eq_false_of_ne_true hmember
    have hlane : { lane with listed := false } = lane := by
      rw [← h.not_listed hnot]
    rwa [hlane, Subscription.leave_eq hnot]

theorem close (hc : lane.closing = false) :
    Settles { lane with listed := false, closing := lane.listed }
      (sub.leave (.closed (streamItems lane.carried))) := by
  by_cases hmember : sub.isMember = true
  · have hleave : sub.leave (.closed (streamItems lane.carried)) =
        { sub with membership := .closed (streamItems lane.carried) } := if_pos hmember
    rw [hleave]
    refine ⟨h.ordered, nofun, nofun, fun _ => ⟨_, rfl⟩, h.carried, h.single, ?_, h.whole, ?_, ?_, ?_⟩
    · intro hin
      exact ⟨rfl, (h.marked hin).1⟩
    · intro ha _ hin
      have hl := (h.marked hin).1
      rw [h.member ha hmember] at hl
      cases hl
    · intro he
      rw [(h.ended he).1] at hmember
      cases hmember
    · intro items hi _
      cases hi
      exact Or.inr rfl
  · have hnot := eq_false_of_ne_true hmember
    have hl := h.not_listed hnot
    have hlane : { lane with listed := false, closing := lane.listed } = lane := by
      obtain ⟨channel, listed, closing, carried⟩ := lane
      cases hc
      cases hl
      rfl
    rwa [hlane, Subscription.leave_eq hnot]

/-- The end mark goes behind what is queued and before what is still carried; where it does not fit, nothing
is lost. -/
theorem closeNext (hc : lane.closing = true) :
    Settles { lane with channel := lane.channel.offered .endOfStream, closing := false } sub := by
  have hl := h.not_listed (h.closing_not_member hc)
  have hq : .endOfStream ∉ lane.channel.queue := by
    intro hin
    rw [(h.marked hin).2] at hc
    cases hc
  rcases lane.channel.offered_cases .endOfStream with hsent | hkept
  · rw [hsent]
    have hin : .endOfStream ∈ lane.channel.queue ++ [.endOfStream] := List.mem_append_right _ List.mem_cons_self
    refine ⟨h.ordered, h.listed, h.member, nofun, h.carried, h.single, fun _ => ⟨hl, rfl⟩, ?_, ?_, h.ended, nofun⟩
    · intro _ _ hno
      exact absurd hin hno
    · intro ha he _
      have hw := h.whole ha he hq
      rw [streamItems_append hq, ← List.append_assoc] at hw
      dsimp only
      rw [streamItems_append hq, streamItems, List.append_nil]
      refine ⟨streamItems lane.carried, hw, ?_⟩
      obtain ⟨items, hi⟩ := h.closing hc
      rcases h.lost items hi hc with hnil | hitems
      · rw [hnil]
        exact Or.inl rfl
      · rw [hitems]
        exact Or.inr hi
  · rw [hkept]
    exact ⟨h.ordered, h.listed, h.member, nofun, h.carried, h.single, fun hin => absurd hin hq, h.whole, h.cut,
      h.ended, nofun⟩

theorem take {message : ChannelMessage α}
    (hm : message ≠ .endOfStream) (hq : lane.channel.queue = message :: queue)
    (ha : lane.channel.alive = true) (he : lane.channel.ended = false) :
    Settles { lane with
      channel := { lane.channel with queue := queue, received := lane.channel.received ++ message.items } } sub := by
  have hin : .endOfStream ∈ queue → .endOfStream ∈ lane.channel.queue := by
    intro hin
    rw [hq]
    exact List.mem_cons_of_mem _ hin
  have hwhole : .endOfStream ∉ queue →
      lane.channel.received ++ message.items ++ streamItems (queue ++ lane.carried) = sub.stream := by
    intro hno
    have hnot : .endOfStream ∉ lane.channel.queue := by
      rw [hq, List.mem_cons]
      rintro (heq | hin)
      · exact hm heq.symm
      · exact hno hin
    rw [← h.whole ha he hnot, hq, List.cons_append, streamItems_cons hm, List.append_assoc]
  have hcut : .endOfStream ∈ queue →
      ∃ cut, lane.channel.received ++ message.items ++ streamItems queue ++ cut = sub.stream ∧ sub.MayMiss cut := by
    intro hmem
    obtain ⟨cut, heq, hmiss⟩ := h.cut ha he (hin hmem)
    refine ⟨cut, ?_, hmiss⟩
    rw [← heq, hq, streamItems_cons hm, ← List.append_assoc]
  refine ⟨?_, h.listed, h.member, h.closing, h.carried, h.single, fun hmem => h.marked (hin hmem),
    fun _ _ hno => hwhole hno, fun _ _ hmem => hcut hmem, ?_, h.lost⟩
  · by_cases hmem : .endOfStream ∈ queue
    · obtain ⟨cut, heq, -⟩ := hcut hmem
      rw [← heq, List.append_assoc]
      exact List.prefix_append _ _
    · rw [← hwhole hmem]
      exact List.prefix_append _ _
  · intro hended
    exact absurd (he.symm.trans hended) nofun

theorem takeEnd (hq : lane.channel.queue = .endOfStream :: queue) (ha : lane.channel.alive = true)
    (he : lane.channel.ended = false) :
    Settles { lane with channel := { lane.channel with queue := queue, ended := true } } sub := by
  have hin : .endOfStream ∈ lane.channel.queue := by
    rw [hq]
    exact List.mem_cons_self
  have hleft := h.marked hin
  refine ⟨h.ordered, h.listed, h.member, h.closing, h.carried, h.single, fun _ => hleft, nofun, nofun, ?_, h.lost⟩
  intro _
  obtain ⟨cut, heq, hmiss⟩ := h.cut ha he hin
  rw [hq, streamItems, List.append_nil] at heq
  exact ⟨h.not_member ha hleft.1, cut, heq, hmiss⟩

theorem disconnected (hq : lane.channel.queue = [])
    (ha : lane.channel.alive = true) (he : lane.channel.ended = false) (hl : lane.listed = false)
    (hc : lane.carried = []) :
    Settles { lane with channel := { lane.channel with ended := true } } sub := by
  refine ⟨h.ordered, h.listed, h.member, h.closing, h.carried, h.single, h.marked, nofun, nofun, ?_, h.lost⟩
  intro _
  have hno : .endOfStream ∉ lane.channel.queue := by
    rw [hq]
    exact List.not_mem_nil
  have hw := h.whole ha he hno
  rw [hq, hc, List.append_nil, streamItems, List.append_nil] at hw
  refine ⟨h.not_member ha hl, [], ?_, Or.inl rfl⟩
  rw [← hw]
  exact List.append_nil _

theorem hangUp : Settles { lane with channel := { lane.channel with alive := false } } sub :=
  ⟨h.ordered, h.listed, nofun, h.closing, h.carried, h.single, h.marked, nofun, nofun, h.ended, h.lost⟩

/-- No step of a lane loses a value, repeats one or lets one overtake another. -/
theorem step {lane' : Lane α} {sub' : Subscription α} (hs : lane.Step sub lane' sub') :
    lane'.Settles sub' := by
  cases hs with
  | stay => exact h
  | send message hm hc => exact h.send hm hc
  | push message rest hc => exact h.push hc
  | drop message rest hc ha => exact h.drop hc ha
  | unlist ha => exact h.unlist ha
  | unsubscribe => exact h.unsubscribe
  | close hc => exact h.close hc
  | closeNext hc => exact h.closeNext hc
  | take message queue hm hq ha he => exact h.take hm hq ha he
  | takeEnd queue hq ha he => exact h.takeEnd hq ha he
  | disconnected hq ha he hl hn hc => exact h.disconnected hq ha he hl hc
  | hangUp => exact h.hangUp

end

end Lane.Settles

end LogicConduit
