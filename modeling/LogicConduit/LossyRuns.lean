import LogicConduit.LossyDelivery

namespace LogicConduit

variable {α : Type}

/-- Whenever `close` takes the lock in a run, nothing is pending for the subscription. -/
def closesSettled (id : Nat) : List (BroadcastStep α) → Broadcast α → Bool
  | [], _ => true
  | event :: steps, b =>
    (!event.closes || (Broadcast.entry b.members id).join.isNone) &&
      match b.step event with
      | some next => closesSettled id steps next
      | none => true

/-- A lossy subscription has, or has still to get, its latest value behind a part of the earlier ones. -/
structure LossyTracks (b : Broadcast α) (id : Nat) (sub : Subscription α) (settled : Prop) : Prop where
  drops : b.Drops id
  sound : (b.lossyLane id).Sound
  member : (b.lossyLane id).listed = sub.isMember
  ordered : (b.lossyLane id).kept.Sublist sub.stream
  latest : settled → (b.lossyLane id).kept.getLast? = sub.stream.getLast?

theorem streamItems_samples (values : List α) : streamItems (values.map .sample) = values := by
  induction values with
  | nil => rfl
  | cons value values ih => rw [List.map_cons, streamItems, ih]

theorem end_not_sample (values : List α) : ChannelMessage.endOfStream ∉ values.map .sample := by
  intro mem
  obtain ⟨value, -, same⟩ := List.mem_map.mp mem
  cases same

theorem owedBy_stays (b : Broadcast α) {event : BroadcastStep α} {id : Nat} (sub : Subscription α)
    (closes : event ≠ .close) (stays : event.removes id = false) :
    (b.owedBy event id sub).isMember = sub.isMember ∧
      (b.owedBy event id sub).stream = sub.stream ++ if sub.isMember then event.sent else [] := by
  have owe : ∀ values, (sub.owe values).isMember = sub.isMember ∧
      (sub.owe values).stream = sub.stream ++ if sub.isMember then values else [] := by
    intro values
    refine ⟨Subscription.owe_isMember values, ?_⟩
    cases member : sub.isMember with
    | true => exact Subscription.owe_stream member values
    | false =>
      rw [Subscription.owe_eq member]
      exact (List.append_nil _).symm
  have same : sub.isMember = sub.isMember ∧ sub.stream = sub.stream ++ if sub.isMember then [] else [] := by
    rw [ite_self, List.append_nil]
    exact ⟨rfl, rfl⟩
  cases event with
  | send value => exact owe [value]
  | sendBatch values => exact owe values
  | unsubscribe target =>
    have other : id ≠ target := fun same => of_decide_eq_false stays same.symm
    rw [show b.owedBy (.unsubscribe target) id sub = sub from if_neg other]
    exact same
  | close => exact absurd rfl closes
  | _ => exact same

namespace LossyTracks

variable {b b' : Broadcast α} {id : Nat} {sub : Subscription α} {settled : Prop}

theorem step (h : LossyTracks b id sub settled) (ho : b.Orderly) {event : BroadcastStep α} (taken : b.step event = some b')
    (joins : ∀ other buffer policy, event ≠ .subscribe other buffer policy) (stays : event.removes id = false)
    (clean : settled → event = .close → (Broadcast.entry b.members id).join = none) :
    LossyTracks b' id (b.owedBy event id sub) settled := by
  by_cases closes : event = .close
  · subst closes
    obtain ⟨drops, lane, free⟩ := Broadcast.close_drops h.drops taken
    obtain ⟨part, same⟩ := LossyLane.closed_kept free
    have stream : (b.owedBy .close id sub).stream = sub.stream := Subscription.leave_stream _
    refine ⟨drops, ?_, ?_, ?_, ?_⟩
    · rw [lane]
      exact h.sound.closed free
    · rw [lane]
      exact (Subscription.leave_isMember _ rfl).symm
    · rw [lane, stream]
      exact part.trans h.ordered
    · intro settles
      have vacant : (b.lossyLane id).pending = [] := by
        rw [LossyLane.pending]
        exact congrArg Option.toList (clean settles rfl)
      rw [lane, stream, same vacant]
      exact h.latest settles
  · have moves := Broadcast.step_moves ho h.drops taken joins closes stays
    obtain ⟨member, stream⟩ := owedBy_stays b sub closes stays
    have follows := moves.lane.follows h.sound
    rw [← Broadcast.lossyLane_listed, h.member] at follows
    refine ⟨moves.drops, moves.lane.sound h.sound, ?_, ?_, ?_⟩
    · rw [moves.lane.listed, h.member, member]
    · rw [stream]
      exact follows.ordered.trans (h.ordered.append (List.Sublist.refl _))
    · intro settles
      rw [stream, follows.latest, List.getLast?_append, List.getLast?_append, h.latest settles]

theorem subscribed (h : LossyTracks b id sub settled) (unlocked : b.unlocked = true) {new : Nat} (other : id ≠ new)
    (buffer : Nat) (policy : OverflowPolicy) : LossyTracks (b.subscribe new buffer policy) id sub settled := by
  obtain ⟨drops, lane⟩ := Broadcast.subscribe_drops buffer policy h.drops unlocked other
  refine ⟨drops, ?_, ?_, ?_, ?_⟩
  · rw [lane]
    exact h.sound
  · rw [lane]
    exact h.member
  · rw [lane]
    exact h.ordered
  · rw [lane]
    exact h.latest

theorem joined (ho : b.Orderly) (unlocked : b.unlocked = true) {new : Nat} (fresh : new ∉ b.used) (buffer : Nat) :
    LossyTracks (b.subscribe new buffer .lossy) new
      (if b.closed then ⟨.lossy, [], .closed []⟩ else ⟨.lossy, if b.sticky then b.last.toList else [], .member⟩)
      settled := by
  obtain ⟨drops, lane⟩ := Broadcast.subscribe_drops_new buffer ho unlocked fresh
  have start : (b.subscribe new buffer .lossy).lossyLane new =
      if b.closed then ⟨⟨max buffer 1, [.endOfStream], [], false, true⟩, none, false, []⟩
      else ⟨⟨max buffer 1, (if b.sticky then b.last.toList else []).map .sample, [], false, true⟩, some none, false,
        []⟩ := by
    rw [lane]
    cases b.closed with
    | true => rfl
    | false =>
      cases b.sticky with
      | true => rfl
      | false => rfl
  refine ⟨drops, ?_, ?_, ?_, ?_⟩
  · rw [start]
    split
    · exact ⟨nofun, fun carries => absurd rfl carries, nofun, fun _ => ⟨rfl, rfl⟩, nofun⟩
    · exact .of_listed nofun rfl rfl (end_not_sample _) rfl
  · rw [start]
    split
    · rfl
    · rfl
  · rw [start]
    split
    · exact List.Sublist.refl _
    · simp [LossyLane.kept, LossyLane.underway, LossyLane.pending, streamItems_samples, streamItems]
  · intro _
    rw [start]
    split
    · rfl
    · simp [LossyLane.kept, LossyLane.underway, LossyLane.pending, streamItems_samples, streamItems]

end LossyTracks

/-- What holds of a subscription in every run that leaves it in the list. -/
structure LossyTracked (sticky : Bool) (id : Nat) (settled : Prop) (b : Broadcast α) (ledger : Ledger α) : Prop where
  audited : Audited sticky b ledger
  tracks : ∀ sub, ledger.entries id = some sub → sub.policy = .lossy → LossyTracks b id sub settled

namespace LossyTracked

variable {sticky : Bool} {id : Nat} {settled : Prop} {b b' : Broadcast α} {ledger ledger' : Ledger α}

theorem step (h : LossyTracked sticky id settled b ledger) {event : BroadcastStep α} (taken : b.step event = some b')
    (stays : event.removes id = false)
    (clean : settled → event = .close → (Broadcast.entry b.members id).join = none) :
    LossyTracked sticky id settled b' (ledger.record sticky b event) := by
  refine ⟨h.audited.step taken, ?_⟩
  intro sub found lossy
  by_cases joins : ∃ new buffer policy, event = .subscribe new buffer policy
  · obtain ⟨new, buffer, policy, rfl⟩ := joins
    simp only [Broadcast.step] at taken
    split at taken
    next ready =>
      cases taken
      by_cases same : id = new
      · subst same
        have entry := Option.some.inj ((if_pos rfl).symm.trans found)
        have policies : policy = .lossy := by
          rw [← lossy, ← entry]
          split
          · rfl
          · rfl
        have owed : (if b.closed then ⟨.lossy, [], .closed []⟩
            else ⟨.lossy, if b.sticky then b.last.toList else [], .member⟩ : Subscription α) = sub := by
          rw [← entry, policies, h.audited.closed, h.audited.primes]
          cases primes : sticky with
          | true => rw [h.audited.last primes]
          | false => rfl
        rw [← owed, policies]
        exact .joined h.audited.orderly ready.1 ready.2 buffer
      · have before : ledger.entries id = some sub := (if_neg same).symm.trans found
        exact (h.tracks sub before lossy).subscribed ready.1 same buffer policy
    next => cases taken
  · have others : ∀ other buffer policy, event ≠ .subscribe other buffer policy :=
      fun other buffer policy same => joins ⟨other, buffer, policy, same⟩
    rw [Ledger.record_entries sticky b ledger others, Option.map_eq_some_iff] at found
    obtain ⟨before, known, rfl⟩ := found
    rw [owedBy_policy] at lossy
    exact (h.tracks before known lossy).step h.audited.orderly taken others stays clean

theorem play (steps : List (BroadcastStep α)) (h : LossyTracked sticky id settled b ledger)
    (stays : ∀ event ∈ steps, event.removes id = false) (clean : settled → closesSettled id steps b = true)
    (played : playBroadcast sticky steps (b, ledger) = some (b', ledger')) : LossyTracked sticky id settled b' ledger' := by
  induction steps generalizing b ledger with
  | nil =>
    cases played
    exact h
  | cons event steps ih =>
    rw [playBroadcast, Option.bind_eq_some_iff] at played
    obtain ⟨next, taken, rest⟩ := played
    have settles : settled → (event = .close → (Broadcast.entry b.members id).join = none) ∧
        closesSettled id steps next = true := by
      intro settles
      have both := clean settles
      rw [closesSettled, taken, Bool.and_eq_true] at both
      refine ⟨?_, both.2⟩
      rintro rfl
      simpa [BroadcastStep.closes] using both.1
    refine ih (h.step taken (stays event List.mem_cons_self) fun settled => (settles settled).1) ?_
      (fun settled => (settles settled).2) rest
    exact fun other mem => stays other (List.mem_cons_of_mem _ mem)

end LossyTracked

section Owed

variable {sticky : Bool} {id : Nat} {b b' : Broadcast α} {ledger ledger' : Ledger α} {sent : List α}

theorem lastSent_mem {event : BroadcastStep α} {value : α} (last : event.lastSent = some value) :
    value ∈ event.sent := by
  cases event with
  | send other =>
    cases last
    exact List.mem_cons_self
  | sendBatch values => exact List.mem_of_getLast? last
  | _ => cases last

theorem owedBy_sublist (b : Broadcast α) (event : BroadcastStep α) (id : Nat) (sub : Subscription α) :
    (b.owedBy event id sub).stream.Sublist (sub.stream ++ event.sent) := by
  have owe : ∀ values, (sub.owe values).stream.Sublist (sub.stream ++ values) := by
    intro values
    unfold Subscription.owe
    split
    · exact List.Sublist.refl _
    · exact List.sublist_append_left _ _
  have same : sub.stream.Sublist (sub.stream ++ []) := by rw [List.append_nil]
  cases event with
  | send value => exact owe [value]
  | sendBatch values => exact owe values
  | unsubscribe target =>
    show (if id = target then sub.leave .unsubscribed else sub).stream.Sublist _
    split
    · rw [Subscription.leave_stream]
      exact same
    · exact same
  | close =>
    show (sub.leave _).stream.Sublist _
    rw [Subscription.leave_stream]
    exact same
  | _ => exact same

theorem record_in_order (primer : ∀ value, ledger.last = some value → value ∈ sent)
    (streams : ∀ id sub, ledger.entries id = some sub → sub.stream.Sublist sent) (event : BroadcastStep α)
    {sub : Subscription α} (found : (ledger.record sticky b event).entries id = some sub) :
    sub.stream.Sublist (sent ++ event.sent) := by
  by_cases joins : ∃ new buffer policy, event = .subscribe new buffer policy
  · obtain ⟨new, buffer, policy, rfl⟩ := joins
    rw [show BroadcastStep.sent (α := α) (.subscribe new buffer policy) = [] from rfl, List.append_nil]
    by_cases same : id = new
    · have entry := Option.some.inj ((if_pos same).symm.trans found)
      rw [← entry]
      split
      · exact List.nil_sublist _
      · show (if sticky then ledger.last.toList else []).Sublist sent
        split
        · cases last : ledger.last with
          | none => exact List.nil_sublist _
          | some value => exact List.singleton_sublist.mpr (primer value last)
        · exact List.nil_sublist _
    · exact streams id sub ((if_neg same).symm.trans found)
  · have others : ∀ other buffer policy, event ≠ .subscribe other buffer policy :=
      fun other buffer policy same => joins ⟨other, buffer, policy, same⟩
    rw [Ledger.record_entries sticky b ledger others, Option.map_eq_some_iff] at found
    obtain ⟨before, known, rfl⟩ := found
    exact (owedBy_sublist b event id before).trans ((streams id before known).append (List.Sublist.refl _))

theorem stream_sublist_sent (steps : List (BroadcastStep α))
    (primer : ∀ value, ledger.last = some value → value ∈ sent)
    (streams : ∀ id sub, ledger.entries id = some sub → sub.stream.Sublist sent)
    (played : playBroadcast sticky steps (b, ledger) = some (b', ledger')) {sub : Subscription α}
    (found : ledger'.entries id = some sub) : sub.stream.Sublist (sent ++ steps.flatMap BroadcastStep.sent) := by
  induction steps generalizing b ledger sent with
  | nil =>
    cases played
    rw [List.flatMap_nil, List.append_nil]
    exact streams id sub found
  | cons event steps ih =>
    rw [playBroadcast, Option.bind_eq_some_iff] at played
    obtain ⟨next, taken, rest⟩ := played
    rw [List.flatMap_cons, ← List.append_assoc]
    refine ih ?_ (fun id sub entry => record_in_order primer streams event entry) rest
    intro value last
    rw [Ledger.record_last, Option.or_eq_some_iff] at last
    rcases last with now | ⟨-, before⟩
    · exact List.mem_append_right _ (lastSent_mem now)
    · exact List.mem_append_left _ (primer value before)

end Owed

def sentWhileOpen : List (BroadcastStep α) → List α
  | [] => []
  | event :: steps => if event.closes then [] else event.sent ++ sentWhileOpen steps

def sentSince (id : Nat) : List (BroadcastStep α) → List α
  | [] => []
  | .subscribe new _ _ :: steps => if new = id then sentWhileOpen steps else sentSince id steps
  | .close :: _ => []
  | _ :: steps => sentSince id steps

theorem Broadcast.step_used {b b' : Broadcast α} {event : BroadcastStep α} (taken : b.step event = some b') :
    b'.used = match event with
      | .subscribe new _ _ => new :: b.used
      | _ => b.used := by
  cases event with
  | subscribe new buffer policy =>
    simp only [step] at taken
    split at taken
    · cases taken
      exact subscribe_used buffer policy
    · cases taken
  | receive target =>
    simp only [step, Option.map_eq_some_iff] at taken
    obtain ⟨channel, -, rfl⟩ := taken
    rfl
  | _ =>
    simp only [step] at taken
    grind [sendMessage, setChannel, retryPending, offerTo]

section Streams

variable {sticky : Bool} {id : Nat} {b b' : Broadcast α} {ledger ledger' : Ledger α}

section

variable (steps : List (BroadcastStep α))
include steps

theorem stream_of_member {sub : Subscription α}
    (found : ledger.entries id = some sub) (used : id ∈ b.used) (stays : ∀ event ∈ steps, event.removes id = false)
    (played : playBroadcast sticky steps (b, ledger) = some (b', ledger')) :
    ∃ sub', ledger'.entries id = some sub' ∧ sub'.policy = sub.policy ∧
      sub'.stream = sub.stream ++ if sub.isMember then sentWhileOpen steps else [] := by
  induction steps generalizing b ledger sub with
  | nil =>
    cases played
    refine ⟨sub, found, rfl, ?_⟩
    rw [sentWhileOpen, ite_self, List.append_nil]
  | cons event steps ih =>
    rw [playBroadcast, Option.bind_eq_some_iff] at played
    obtain ⟨next, taken, rest⟩ := played
    have later : ∀ other ∈ steps, other.removes id = false := fun other mem => stays other (List.mem_cons_of_mem _ mem)
    by_cases joins : ∃ new buffer policy, event = .subscribe new buffer policy
    · obtain ⟨new, buffer, policy, rfl⟩ := joins
      have other : id ≠ new := by
        rintro rfl
        simp [Broadcast.step, used] at taken
      have kept : (ledger.record sticky b (.subscribe new buffer policy)).entries id = some sub :=
        (if_neg other).trans found
      have used' : id ∈ next.used := by
        rw [Broadcast.step_used taken]
        exact List.mem_cons_of_mem _ used
      exact ih kept used' later rest
    · have others : ∀ other buffer policy, event ≠ .subscribe other buffer policy :=
        fun other buffer policy same => joins ⟨other, buffer, policy, same⟩
      have entry : (ledger.record sticky b event).entries id = some (b.owedBy event id sub) := by
        rw [Ledger.record_entries sticky b ledger others, found]
        rfl
      have used' : id ∈ next.used := by
        rw [Broadcast.step_used taken]
        cases event with
        | subscribe new buffer policy => exact absurd rfl (others new buffer policy)
        | _ => exact used
      obtain ⟨sub', found', policy, stream⟩ := ih entry used' later rest
      refine ⟨sub', found', policy.trans (owedBy_policy b event id sub), ?_⟩
      rw [stream]
      by_cases closes : event = .close
      · subst closes
        have left : (b.owedBy .close id sub).isMember = false := Subscription.leave_isMember _ rfl
        have same : (b.owedBy .close id sub).stream = sub.stream := Subscription.leave_stream _
        rw [left, same]
        simp [sentWhileOpen, BroadcastStep.closes]
      · obtain ⟨member, grown⟩ := owedBy_stays b sub closes (stays event List.mem_cons_self)
        have goes : sentWhileOpen (event :: steps) = event.sent ++ sentWhileOpen steps := by
          cases event with
          | close => exact absurd rfl closes
          | _ => rfl
        rw [member, grown, goes]
        split
        · rw [List.append_assoc]
        · rw [List.append_nil]

theorem subscribes_once (used : id ∈ b.used)
    (played : playBroadcast sticky steps (b, ledger) = some (b', ledger')) (buffer : Nat) (policy : OverflowPolicy) :
    .subscribe id buffer policy ∉ steps := by
  induction steps generalizing b ledger with
  | nil => exact List.not_mem_nil
  | cons event steps ih =>
    rw [playBroadcast, Option.bind_eq_some_iff] at played
    obtain ⟨next, taken, rest⟩ := played
    have used' : id ∈ next.used := by
      rw [Broadcast.step_used taken]
      split
      · exact List.mem_cons_of_mem _ used
      · exact used
    intro mem
    rcases List.mem_cons.mp mem with rfl | mem
    · simp [Broadcast.step, used] at taken
    · exact ih used' rest mem

/-- A subscription that joined is owed the value it was primed with and all that was sent since on the open list. -/
theorem stream_of_joined {buffer : Nat} {policy : OverflowPolicy}
    (joins : .subscribe id buffer policy ∈ steps) (stays : ∀ event ∈ steps, event.removes id = false)
    (played : playBroadcast sticky steps (b, ledger) = some (b', ledger')) :
    ∃ sub primed, ledger'.entries id = some sub ∧ sub.policy = policy ∧
      sub.stream = primed ++ if ledger.closed then [] else sentSince id steps := by
  induction steps generalizing b ledger with
  | nil => cases joins
  | cons event steps ih =>
    rw [playBroadcast, Option.bind_eq_some_iff] at played
    obtain ⟨next, taken, rest⟩ := played
    have later : ∀ other ∈ steps, other.removes id = false := fun other mem => stays other (List.mem_cons_of_mem _ mem)
    have closed := Ledger.record_closed sticky b ledger event
    rcases List.mem_cons.mp joins with rfl | joined
    · -- The subscription itself; what follows finds it in the list, unless the list was closed.
      have used : id ∈ next.used := by
        rw [Broadcast.step_used taken]
        exact List.mem_cons_self
      obtain ⟨sub, found, kept, stream⟩ := stream_of_member steps (if_pos rfl) used later rest
      cases shut : ledger.closed with
      | true =>
        rw [shut] at kept stream
        exact ⟨sub, [], found, kept, stream⟩
      | false =>
        rw [shut] at kept stream
        refine ⟨sub, if sticky then ledger.last.toList else [], found, kept, stream.trans ?_⟩
        rw [sentSince, if_pos rfl]
        rfl
    · obtain ⟨sub, primed, found, kept, stream⟩ := ih joined later rest
      refine ⟨sub, primed, found, kept, stream.trans ?_⟩
      rw [closed]
      cases event with
      | close =>
        rw [sentSince, ite_self]
        rfl
      | subscribe new buffer' policy' =>
        have other : new ≠ id := by
          rintro rfl
          refine subscribes_once steps ?_ rest buffer policy joined
          rw [Broadcast.step_used taken]
          exact List.mem_cons_self
        rw [sentSince, if_neg other]
        rfl
      | _ => rfl

end

end Streams

/-- In every run a lossy subscriber whose consumer stays receives values that were sent, in order; where no close
finds a value pending, it has received the latest one sent since it joined when it meets the end of the stream. -/
theorem lossy_subscriber_ends_on_latest {sticky : Bool} {steps : List (BroadcastStep α)} {b : Broadcast α}
    {ledger : Ledger α} (played : playBroadcast sticky steps (.new sticky, .empty) = some (b, ledger)) {id buffer : Nat}
    (joins : .subscribe id buffer .lossy ∈ steps) (stays : ∀ event ∈ steps, event.removes id = false) :
    (b.channels id).received.Sublist (steps.flatMap BroadcastStep.sent) ∧
      (closesSettled id steps (.new sticky) = true → (b.channels id).ended = true →
        ∀ value, (sentSince id steps).getLast? = some value → (b.channels id).received.getLast? = some value) := by
  obtain ⟨sub, primed, found, lossy, stream⟩ := stream_of_joined steps joins stays played
  have start : LossyTracked sticky id (closesSettled id steps (.new sticky) = true) (.new sticky : Broadcast α) .empty :=
    ⟨.start sticky, fun _ entry => by cases entry⟩
  have tracks := (start.play steps stays (fun clean => clean) played).tracks sub found lossy
  have sent : sub.stream.Sublist ([] ++ steps.flatMap BroadcastStep.sent) :=
    stream_sublist_sent steps (fun _ last => by cases last) (fun _ _ entry => by cases entry) played found
  constructor
  · exact ((List.sublist_append_left _ _).trans tracks.ordered).trans sent
  · intro clean ended value last
    have kept : (b.lossyLane id).kept = (b.channels id).received := LossyLane.kept_ended ended
    have latest := tracks.latest clean
    rw [kept] at latest
    have since : sub.stream = primed ++ sentSince id steps := stream
    rw [latest, since, List.getLast?_append, last]
    rfl

/-- A subscriber whose channel is full gets the latest of the values that wait for it, and then the end. -/
def coalescedRun : List (BroadcastStep Nat) :=
  [.subscribe 1 1 .lossy, .send 5, .offer, .release, .send 6, .offer, .release, .receive 1, .sendBatch [7, 8], .offer,
    .offer, .release, .receive 1, .send 9, .offer, .receive 1, .offer, .release, .receive 1, .close, .closeNext,
    .closeNext, .receive 1]

theorem lossy_subscriber_ends_on_latest_coalescedRun :
    ∃ b ledger, playBroadcast false coalescedRun (.new false, .empty) = some (b, ledger) ∧
      (b.channels 1).received = [5, 6, 8, 9] ∧ (b.channels 1).ended = true ∧
      (b.channels 1).received.getLast? = some 9 := by
  obtain ⟨b, ledger, played⟩ :
      ∃ b ledger, playBroadcast false coalescedRun (.new false, .empty) = some (b, ledger) := ⟨_, _, rfl⟩
  refine ⟨b, ledger, played, ?_, ?_, ?_⟩
  · cases played
    rfl
  · cases played
    rfl
  · refine (lossy_subscriber_ends_on_latest played (.head _) ?_).2 ?_ ?_ 9 ?_
    · decide
    · rfl
    · cases played
      rfl
    · rfl

def pendingAtClose : List (BroadcastStep Nat) :=
  [.subscribe 1 1 .lossy, .send 5, .offer, .release, .send 6, .offer, .release, .close, .closeNext, .closeNext,
    .receive 1, .receive 1]

theorem close_drops_pending_value :
    ∃ b ledger, playBroadcast false pendingAtClose (.new false, .empty) = some (b, ledger) ∧
      (b.channels 1).ended = true ∧ (b.channels 1).received = [5] ∧
      (sentSince 1 pendingAtClose).getLast? = some 6 ∧ (b.channels 1).received.getLast? ≠ some 6 :=
  ⟨_, _, rfl, rfl, rfl, rfl, by decide⟩

end LogicConduit
