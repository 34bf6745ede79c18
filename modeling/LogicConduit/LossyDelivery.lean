import LogicConduit.BroadcastDelivery
import LogicConduit.LossyLane

namespace LogicConduit

variable {α : Type}

def BroadcastStep.sent : BroadcastStep α → List α
  | .send value => [value]
  | .sendBatch values => values
  | _ => []

/-- A step that takes the subscription `id` out of the list, or its consumer away. -/
def BroadcastStep.removes (id : Nat) : BroadcastStep α → Bool
  | .unsubscribe target => target = id
  | .hangUp target => target = id
  | _ => false

namespace Broadcast

def entry (members : List (Subscriber α)) (id : Nat) : Option (Option α) :=
  (members.find? (·.id = id)).map Subscriber.pending

def lossyLane (b : Broadcast α) (id : Nat) : LossyLane α where
  channel := b.channels id
  entry := entry b.members id
  closing := b.closingIds.contains id
  carried := b.carried id

/-- What marks a lossy subscription whose consumer stays: no send ever waits for it. -/
structure Drops (b : Broadcast α) (id : Nat) : Prop where
  listed : ∀ s ∈ b.members, s.id = id → s.policy = .lossy
  waiting : ∀ send ∈ b.producer.waiting, send.id ≠ id
  retiring : ∀ deadline blocked, b.producer ≠ .retiring id deadline blocked
  alive : (b.channels id).alive = true
  filled : ∀ message visited todo dead blocked, b.producer = .broadcasting message visited todo dead blocked →
    message.items ≠ []

structure Moves (b b' : Broadcast α) (id : Nat) (items : List α) : Prop where
  drops : b'.Drops id
  lane : (b.lossyLane id).Step items (b'.lossyLane id)

section Entries

variable {id : Nat} {members : List (Subscriber α)}

theorem entry_isSome : (entry members id).isSome = (members.map Subscriber.id).contains id := by
  rw [entry, Option.isSome_map, Bool.eq_iff_iff, List.find?_isSome]
  simp

theorem entry_none (missing : id ∉ members.map Subscriber.id) : entry members id = none := by
  have unlisted : (entry members id).isSome = false := by
    rw [entry_isSome]
    simpa using missing
  simpa using unlisted

variable {visited todo : List (Subscriber α)} {s : Subscriber α}

theorem entry_self (distinct : ((visited ++ s :: todo).map Subscriber.id).Nodup) :
    entry (visited ++ s :: todo) s.id = some s.pending := by
  have before : visited.find? (·.id = s.id) = none := by
    rw [List.find?_eq_none]
    intro other mem
    rw [List.map_append, List.map_cons, List.nodup_append] at distinct
    have different := distinct.2.2 other.id (List.mem_map.mpr ⟨other, mem, rfl⟩) s.id List.mem_cons_self
    simpa using different
  rw [entry, List.find?_append, before, Option.none_or, List.find?_cons_of_pos (by simp)]
  rfl

theorem entry_ne {s s' : Subscriber α} (same : s'.id = s.id) (other : s.id ≠ id) :
    entry (visited ++ s' :: todo) id = entry (visited ++ s :: todo) id := by
  rw [entry, entry, List.find?_append, List.find?_append, List.find?_cons_of_neg (by simpa [same] using other),
    List.find?_cons_of_neg (by simpa using other)]

theorem entry_filter {keep : Subscriber α → Bool} (kept : ∀ s : Subscriber α, s.id = id → keep s = true) :
    entry (members.filter keep) id = entry members id := by
  rw [entry, entry, List.find?_filter]
  congr 2
  funext s
  by_cases same : s.id = id
  · simp [same, kept s same]
  · simp [same]

end Entries

section Steps

variable {b b' : Broadcast α} {id : Nat} {blocked : List (BlockedSend α)}

theorem lossyLane_listed (b : Broadcast α) (id : Nat) : (b.lossyLane id).listed = b.memberIds.contains id :=
  entry_isSome

theorem sendMessage_moves (ho : b.Orderly) (h : b.Drops id) (idle : b.producer = .idle) (message : ChannelMessage α)
    (filled : message.items ≠ []) (last : Option α) :
    Moves b (b.sendMessage message last) id (if b.memberIds.contains id then message.items else []) := by
  have before : b.members = b.subscribers := by rw [members, idle]
  have same : (b.sendMessage message last).members = b.members := by
    rw [before]
    rfl
  refine ⟨⟨?_, fun _ h => (by cases h), fun _ _ h => (by cases h), h.alive, ?_⟩, ?_⟩
  · rw [same]
    exact h.listed
  · intro other visited todo dead blocked carries
    cases carries
    exact filled
  · have distinct : (b.subscribers.map Subscriber.id).Nodup := by
      rw [← before]
      exact ho.nodup
    have free : (b.lossyLane id).carried = [] := by rw [lossyLane, carried, idle]
    have offered : (b.sendMessage message last).carried id = if b.memberIds.contains id then [message] else [] := by
      rw [memberIds, before]
      exact (List.append_nil _).trans (carried_todo distinct message)
    have lane : (b.sendMessage message last).lossyLane id =
        { b.lossyLane id with carried := if (b.lossyLane id).listed then [message] else [] } := by
      rw [lossyLane_listed, lossyLane, same, offered]
      rfl
    rw [lane, ← lossyLane_listed]
    exact .send _ message filled free

theorem Drops.unwaited (h : b.Drops id) (waits : b.producer.waiting = blocked) :
    waitingFor id blocked = [] :=
  waitingFor_nil (waits ▸ h.waiting)

theorem Drops.carried_visiting (h : b.Drops id) {message : ChannelMessage α} {visited todo : List (Subscriber α)}
    {dead : List Nat} (hp : b.producer = .broadcasting message visited todo dead blocked) :
    b.carried id = (todo.filter (·.id = id)).map fun _ => message := by
  have unwaited : waitingFor id blocked = [] := h.unwaited (by rw [hp]; rfl)
  rw [carried, hp]
  dsimp only
  rw [unwaited, List.append_nil]

section Visit

variable {message : ChannelMessage α} {visited todo visited' todo' : List (Subscriber α)} {s s' : Subscriber α}
  {dead dead' : List Nat} {blocked blocked' : List (BlockedSend α)} {channels : Nat → Channel α}
  {left : List (ChannelMessage α)}

theorem Drops.visit (h : b.Drops id) (hp : b.producer = .broadcasting message visited (s :: todo) dead blocked)
    (sameId : s'.id = s.id) (samePolicy : s'.policy = s.policy) (list : visited' ++ todo' = visited ++ s' :: todo)
    (alive : (channels id).alive = true)
    (waits : blocked' = blocked ∨ s.policy ≠ .lossy ∧ ∃ deadline, blocked' = blocked ++ [⟨s.id, deadline, message⟩]) :
    Drops { b with channels := channels, producer := .broadcasting message visited' todo' dead' blocked' } id := by
  have before : b.members = visited ++ s :: todo := by rw [members, hp]
  have lossy : s.id = id → s.policy = .lossy :=
    h.listed s (by rw [before]; exact List.mem_append_right _ List.mem_cons_self)
  have waiting := h.waiting
  rw [hp] at waiting
  refine ⟨?_, ?_, fun _ _ h => (by cases h), alive, ?_⟩
  · intro other mem same
    have found : other ∈ visited ++ s' :: todo := list ▸ mem
    rcases List.mem_append.mp found with found | found
    · exact h.listed other (by rw [before]; exact List.mem_append_left _ found) same
    · rcases List.mem_cons.mp found with rfl | found
      · exact samePolicy.trans (lossy (sameId.symm.trans same))
      · exact h.listed other (by rw [before]; exact List.mem_append_right _ (List.mem_cons_of_mem _ found)) same
  · intro send mem
    rcases waits with rfl | ⟨policy, deadline, rfl⟩
    · exact waiting send mem
    · rcases List.mem_append.mp mem with mem | mem
      · exact waiting send mem
      · rw [List.mem_singleton.mp mem]
        exact fun same => policy (lossy same)
  · intro other visited todo dead blocked carries
    cases carries
    exact h.filled message _ _ _ _ hp

theorem visit_moves (ho : b.Orderly) (h : b.Drops id)
    (hp : b.producer = .broadcasting message visited (s :: todo) dead blocked)
    (list : visited' ++ todo' = visited ++ s' :: todo)
    (rest : todo' = todo ∧ left = [] ∨ todo' = s' :: todo ∧ left = [message])
    (sameId : s'.id = s.id) (samePolicy : s'.policy = s.policy)
    (waits : blocked' = blocked ∨ s.policy ≠ .lossy ∧ ∃ deadline, blocked' = blocked ++ [⟨s.id, deadline, message⟩])
    (apart : s.id ≠ id → channels id = b.channels id) (alive : s.id = id → (channels id).alive = true)
    (own : s.id = id → ∀ lane : LossyLane α, lane.channel = b.channels id → lane.entry = some s.pending →
      lane.carried = [message] →
      lane.Step [] { lane with channel := channels id, entry := some s'.pending, carried := left }) :
    Moves b { b with channels := channels, producer := .broadcasting message visited' todo' dead' blocked' } id [] := by
  have before : b.members = visited ++ s :: todo := by rw [members, hp]
  have stays : (channels id).alive = true := by
    by_cases same : s.id = id
    · exact alive same
    · rw [apart same]
      exact h.alive
  generalize hb' : ({ b with
      channels := channels
      producer := .broadcasting message visited' todo' dead' blocked' } : Broadcast α) = b'
  have hp' : b'.producer = .broadcasting message visited' todo' dead' blocked' := by rw [← hb']
  have after : b'.Drops id := by
    rw [← hb']
    exact h.visit hp sameId samePolicy list stays waits
  have lane : b'.lossyLane id =
      ⟨channels id, entry (visited ++ s' :: todo) id, b.closingIds.contains id,
        (todo'.filter (·.id = id)).map fun _ => message⟩ := by
    rw [lossyLane, after.carried_visiting hp', members, hp', ← list, ← hb']
    rfl
  have lane' : b.lossyLane id =
      ⟨b.channels id, entry (visited ++ s :: todo) id, b.closingIds.contains id,
        ((s :: todo).filter (·.id = id)).map fun _ => message⟩ := by
    rw [lossyLane, h.carried_visiting hp, before]
  refine ⟨after, ?_⟩
  rw [lane, lane']
  by_cases same : s.id = id
  · -- The list has the subscriber once, so that nothing else is offered to it in the rest of the loop.
    subst same
    have distinct : ((visited ++ s :: todo).map Subscriber.id).Nodup := by
      rw [← before]
      exact ho.nodup
    have distinct' : ((visited ++ s' :: todo).map Subscriber.id).Nodup := by
      rw [List.map_append, List.map_cons, sameId]
      rwa [List.map_append, List.map_cons] at distinct
    have alone : todo.filter (·.id = s.id) = [] := by
      rw [List.filter_eq_nil_iff]
      intro other mem
      rw [List.map_append, List.map_cons, List.nodup_append] at distinct
      have missing := (List.nodup_cons.mp distinct.2.1).1
      have different : other.id ≠ s.id := fun same => missing (List.mem_map.mpr ⟨other, mem, same⟩)
      simpa using different
    have offered : ((todo'.filter (·.id = s.id)).map fun _ => message) = left := by
      rcases rest with ⟨rfl, rfl⟩ | ⟨rfl, rfl⟩
      · rw [alone]
        rfl
      · rw [List.filter_cons_of_pos (by simp [sameId]), alone]
        rfl
    have found : entry (visited ++ s' :: todo) s.id = some s'.pending := by
      rw [← sameId]
      exact entry_self distinct'
    rw [offered, found, entry_self distinct, List.filter_cons_of_pos (by simp), alone]
    exact own rfl ⟨_, _, _, _⟩ rfl rfl rfl
  · have kept : todo'.filter (·.id = id) = (s :: todo).filter (·.id = id) := by
      rw [List.filter_cons_of_neg (by simpa using same)]
      rcases rest with ⟨rfl, -⟩ | ⟨rfl, -⟩
      · rfl
      · rw [List.filter_cons_of_neg (by simpa [sameId] using same)]
    rw [kept, entry_ne sameId same, apart same]
    exact .stay _

end Visit

theorem offer_moves (ho : b.Orderly) (h : b.Drops id) (step : b.step .offer = some b') : Moves b b' id [] := by
  simp only [Broadcast.step] at step
  split at step
  next message visited s todo dead blocked hp =>
    have apart : ∀ channel : Channel α, s.id ≠ id → (b.setChannel s.id channel).channels id = b.channels id :=
      fun channel other => b.setChannel_ne channel (Ne.symm other)
    have own : ∀ channel : Channel α, s.id = id → (b.setChannel s.id channel).channels id = channel :=
      fun channel same => same ▸ b.setChannel_self s.id channel
    split at step
    next value pending =>
      cases step
      rw [retryPending]
      dsimp only
      split
      next channel sent =>
        have filled := Channel.trySend_sent sent
        refine visit_moves ho h hp rfl (.inr ⟨rfl, rfl⟩) rfl rfl (.inl rfl) (apart channel) ?_ ?_
        · intro same
          rw [own channel same, filled, same]
          exact h.alive
        · intro same lane atChannel waits carries
          rw [own channel same, filled, same, ← atChannel, ← carries]
          exact .retry lane value message (pending ▸ waits) carries
      next full =>
        refine visit_moves ho h hp rfl (.inr ⟨rfl, rfl⟩) rfl rfl (.inl rfl) (fun _ => rfl) (fun _ => h.alive) ?_
        intro same lane atChannel waits carries
        rw [← atChannel, ← carries]
        exact .supersede lane value message (pending ▸ waits) carries
      next gone =>
        have lost := Channel.trySend_disconnected gone
        refine visit_moves ho h hp (List.append_assoc _ _ _) (.inl ⟨rfl, rfl⟩) rfl rfl (.inl rfl) (fun _ => rfl)
          (fun _ => h.alive) ?_
        intro same
        rw [same, h.alive] at lost
        cases lost
    next vacant =>
      cases step
      rw [offerTo]
      dsimp only
      split
      next channel sent =>
        have filled := Channel.trySend_sent sent
        refine visit_moves ho h hp (List.append_assoc _ _ _) (.inl ⟨rfl, rfl⟩) rfl rfl (.inl rfl) (apart channel) ?_ ?_
        · intro same
          rw [own channel same, filled, same]
          exact h.alive
        · intro same lane atChannel waits carries
          rw [own channel same, filled, same, ← atChannel, ← waits]
          exact .push lane message (vacant ▸ waits) carries
      next full =>
        have lossy : s.id = id → s.policy = .lossy := by
          apply h.listed s
          rw [members, hp]
          exact List.mem_append_right _ List.mem_cons_self
        split
        next policy =>
          have other : s.policy ≠ .lossy := by
            rw [policy]
            intro same
            cases same
          exact visit_moves ho h hp (List.append_assoc _ _ _) (.inl ⟨rfl, rfl⟩) rfl rfl (.inr ⟨other, _, rfl⟩)
            (fun _ => rfl) (fun _ => h.alive) fun same => absurd (lossy same) other
        next policy =>
          refine visit_moves ho h hp (List.append_assoc _ _ _) (.inl ⟨rfl, rfl⟩) rfl rfl (.inl rfl) (fun _ => rfl)
            (fun _ => h.alive) ?_
          intro same lane atChannel waits carries
          rw [← atChannel]
          exact .hold lane message (vacant ▸ waits) carries
        next policy =>
          have other : s.policy ≠ .lossy := by
            rw [policy]
            intro same
            cases same
          exact visit_moves ho h hp (List.append_assoc _ _ _) (.inl ⟨rfl, rfl⟩) rfl rfl (.inr ⟨other, _, rfl⟩)
            (fun _ => rfl) (fun _ => h.alive) fun same => absurd (lossy same) other
      next gone =>
        have lost := Channel.trySend_disconnected gone
        refine visit_moves ho h hp (List.append_assoc _ _ _) (.inl ⟨rfl, rfl⟩) rfl rfl (.inl rfl) (fun _ => rfl)
          (fun _ => h.alive) ?_
        intro same
        rw [same, h.alive] at lost
        cases lost
  next => cases step

theorem serveRest_not_broadcasting {blocked blocked' : List (BlockedSend α)} {message : ChannelMessage α}
    {visited todo : List (Subscriber α)} {dead : List Nat} :
    serveRest blocked ≠ .broadcasting message visited todo dead blocked' := by
  intro same
  rcases serveRest_cases blocked with ⟨-, idle⟩ | serving
  · rw [idle] at same
    cases same
  · rw [serving] at same
    cases same

/-- The producer goes on with the sends that are left and keeps some subscribers, a lossy one among them. -/
theorem retain_moves (h : b.Drops id) {keep : Subscriber α → Bool} (kept : ∀ s : Subscriber α, s.id = id → keep s = true)
    (served : b'.producer = serveRest blocked) (waits : b.producer.waiting = blocked)
    (subscribers : b'.subscribers = b.members.filter keep) (channels : b'.channels = b.channels)
    (closing : b'.closingIds = b.closingIds) (free : b.carried id = []) : Moves b b' id [] := by
  have members : b'.members = b.members.filter keep := (members_serveRest served).trans subscribers
  refine ⟨⟨?_, ?_, ?_, ?_, ?_⟩, ?_⟩
  · rw [members]
    exact fun s mem => h.listed s (List.mem_filter.mp mem).1
  · rw [served, serveRest_waiting, ← waits]
    exact h.waiting
  · rw [served]
    exact fun _ _ => serveRest_not_retiring
  · rw [channels]
    exact h.alive
  · rw [served]
    exact fun _ _ _ _ _ carries => absurd carries serveRest_not_broadcasting
  · have free' : b'.carried id = [] := (carried_serveRest served id).trans (h.unwaited waits)
    have lane : b'.lossyLane id = b.lossyLane id := by
      rw [lossyLane, lossyLane, members, channels, closing, free, free', entry_filter kept]
    rw [lane]
    exact .stay _

theorem release_moves (ho : b.Orderly) (h : b.Drops id) (step : b.step .release = some b') : Moves b b' id [] := by
  simp only [Broadcast.step] at step
  split at step
  next message visited dead blocked hp =>
    cases step
    have before : b.members = visited := by
      rw [members, hp]
      exact List.append_nil _
    have lost := ho.producer
    rw [hp] at lost
    refine @retain_moves _ b _ id blocked h (fun s => !dead.contains s.id) ?_ rfl (by rw [hp]; rfl) (by rw [before]) rfl
      rfl ?_
    · intro s same
      have living : s.id ∉ dead := fun mem => by
        have gone := (lost.2 s.id mem).2
        rw [same, h.alive] at gone
        cases gone
      simpa using living
    · rw [h.carried_visiting hp]
      rfl
  next => cases step

variable {target : Nat}

section

variable (h : b.Drops id)
include h

theorem retire_moves (step : b.step .retire = some b') : Moves b b' id [] := by
  simp only [Broadcast.step] at step
  split at step
  next target deadline blocked hp =>
    split at step
    next =>
      cases step
      have before : b.members = b.subscribers := by rw [members, hp]
      have unwaited : waitingFor id blocked = [] := h.unwaited (by rw [hp]; rfl)
      have other : target ≠ id := fun same => h.retiring deadline blocked (same ▸ hp)
      refine @retain_moves _ b _ id blocked h (fun s => s.id ≠ target) ?_ rfl (by rw [hp]; rfl) (by rw [before]) rfl rfl ?_
      · intro s same
        simpa [same] using Ne.symm other
      · rw [carried, hp]
        exact unwaited
    next => cases step
  next => cases step

theorem served_moves {send : BlockedSend α}
    (hp : b.producer = .serving (send :: blocked)) {channels : Nat → Channel α} {producer : Producer α}
    (others : ∀ other, other ≠ send.id → channels other = b.channels other)
    (next : producer = serveRest blocked ∨ producer = .retiring send.id send.deadline blocked) :
    Moves b { b with channels := channels, producer := producer } id [] := by
  have waiting := h.waiting
  rw [hp] at waiting
  have apart : send.id ≠ id := waiting send List.mem_cons_self
  have unwaited : waitingFor id blocked = [] := waitingFor_nil fun other mem => waiting other (List.mem_cons_of_mem _ mem)
  have before : b.members = b.subscribers := by rw [members, hp]
  generalize hb' : ({ b with channels := channels, producer := producer } : Broadcast α) = b'
  have hp' : b'.producer = producer := by rw [← hb']
  have same : b'.channels id = b.channels id := by
    rw [← hb']
    exact others id (Ne.symm apart)
  have after : b'.members = b.members ∧ b'.carried id = [] ∧ b'.producer.waiting = blocked ∧
      (∀ deadline rest, b'.producer ≠ .retiring id deadline rest) ∧
      ∀ message visited todo dead rest, b'.producer ≠ .broadcasting message visited todo dead rest := by
    rcases next with rest | retiring
    · have served : b'.producer = serveRest blocked := hp'.trans rest
      refine ⟨?_, (carried_serveRest served id).trans unwaited, ?_, ?_, ?_⟩
      · rw [members_serveRest served, before, ← hb']
      · rw [served, serveRest_waiting]
      · rw [served]
        exact fun _ _ => serveRest_not_retiring
      · rw [served]
        exact fun _ _ _ _ _ => serveRest_not_broadcasting
    · have failed : b'.producer = .retiring send.id send.deadline blocked := hp'.trans retiring
      refine ⟨?_, ?_, ?_, ?_, ?_⟩
      · rw [members, failed, before, ← hb']
      · rw [carried, failed]
        exact unwaited
      · rw [failed]
        rfl
      · rw [failed]
        intro deadline rest retires
        injection retires with sameId
        exact apart sameId
      · rw [failed]
        exact fun _ _ _ _ _ h => by cases h
  obtain ⟨list, free, waits, retires, ended⟩ := after
  have closing : b'.closingIds = b.closingIds := by
    rw [← hb']
    rfl
  have carries : b.carried id = [] := by
    rw [carried, hp]
    exact (waitingFor_cons_ne send blocked apart).trans unwaited
  refine ⟨⟨?_, ?_, retires, ?_, ?_⟩, ?_⟩
  · rw [list]
    exact h.listed
  · rw [waits]
    exact fun other mem => waiting other (List.mem_cons_of_mem _ mem)
  · rw [same]
    exact h.alive
  · intro message visited todo dead rest broadcasts
    exact absurd broadcasts (ended _ _ _ _ _)
  · have lane : b'.lossyLane id = b.lossyLane id := by
      rw [lossyLane, lossyLane, list, free, carries, closing, same]
    rw [lane]
    exact .stay _

theorem serve_moves (step : b.step .serve = some b') : Moves b b' id [] := by
  simp only [Broadcast.step] at step
  split at step
  next send blocked hp =>
    split at step
    next channel sent =>
      cases step
      exact served_moves h hp (fun other different => b.setChannel_ne channel different) (Or.inl rfl)
    next => cases step
    next gone =>
      cases step
      exact served_moves h hp (fun _ _ => rfl) (Or.inr rfl)
  next => cases step

theorem expire_moves (step : b.step .expire = some b') : Moves b b' id [] := by
  simp only [Broadcast.step] at step
  split at step
  next send blocked hp =>
    split at step
    next =>
      cases step
      exact served_moves h hp (fun _ _ => rfl) (Or.inr rfl)
    next => cases step
  next => cases step

theorem unsubscribe_moves (unlocked : b.unlocked = true) (other : target ≠ id) :
    Moves b { b with subscribers := b.subscribers.filter (·.id ≠ target) } id [] := by
  have before : b.members = b.subscribers := unlocked_members unlocked b.subscribers b.closed b.closing
  generalize hb' : ({ b with subscribers := b.subscribers.filter (·.id ≠ target) } : Broadcast α) = b'
  have after : b'.members = b.members.filter (·.id ≠ target) := by
    rw [before, ← hb']
    exact unlocked_members unlocked _ b.closed b.closing
  have hp : b'.producer = b.producer := by rw [← hb']
  have kept : ∀ s : Subscriber α, s.id = id → decide (s.id ≠ target) = true := by
    intro s same
    simpa [same] using Ne.symm other
  refine ⟨⟨?_, ?_, ?_, ?_, ?_⟩, ?_⟩
  · rw [after]
    exact fun s mem => h.listed s (List.mem_filter.mp mem).1
  · rw [hp]
    exact h.waiting
  · rw [hp]
    exact h.retiring
  · rw [← hb']
    exact h.alive
  · rw [hp]
    exact h.filled
  · have lane : b'.lossyLane id = b.lossyLane id := by
      rw [lossyLane, lossyLane, after, entry_filter kept, ← hb']
      rfl
    rw [lane]
    exact .stay _

/-- Of a list that no send holds, nothing is still to be offered to a lossy subscription. -/
theorem Drops.unlocked_carried (unlocked : b.unlocked = true) : b.carried id = [] := by
  have unwaited : waitingFor id b.producer.waiting = [] := h.unwaited rfl
  cases hp : b.producer with
  | idle => rw [carried, hp]
  | broadcasting message visited todo dead blocked =>
    rw [Broadcast.unlocked, hp] at unlocked
    cases unlocked
  | serving blocked =>
    rw [hp] at unwaited
    rw [carried, hp]
    exact unwaited
  | retiring target deadline blocked =>
    rw [hp] at unwaited
    rw [carried, hp]
    exact unwaited

/-- `close` takes a lossy subscription out of the list with what is pending for it. -/
theorem close_drops (step : b.step .close = some b') :
    b'.Drops id ∧ b'.lossyLane id = (b.lossyLane id).closed ∧ (b.lossyLane id).carried = [] := by
  have unlocked : b.unlocked = true := by
    by_contra locked
    simp [Broadcast.step, locked] at step
  have hb' : { b with closed := true, subscribers := [], closing := some b.subscribers } = b' := by
    simpa [Broadcast.step, unlocked] using step
  have before : b.members = b.subscribers := unlocked_members unlocked b.subscribers b.closed b.closing
  have after : b'.members = [] := by
    rw [← hb']
    exact unlocked_members unlocked _ true _
  have hp : b'.producer = b.producer := by rw [← hb']
  refine ⟨⟨?_, ?_, ?_, ?_, ?_⟩, ?_, h.unlocked_carried unlocked⟩
  · rw [after]
    exact fun _ h => by cases h
  · rw [hp]
    exact h.waiting
  · rw [hp]
    exact h.retiring
  · rw [← hb']
    exact h.alive
  · rw [hp]
    exact h.filled
  · have closing : b'.closingIds = b.memberIds := by
      rw [memberIds, before, ← hb']
      rfl
    rw [LossyLane.closed, lossyLane_listed, lossyLane, lossyLane, after, closing, ← hb']
    rfl

end

theorem closeNext_moves (ho : b.Orderly) (h : b.Drops id) (step : b.step .closeNext = some b') : Moves b b' id [] := by
  simp only [Broadcast.step] at step
  split at step
  next s todo closing =>
    have ids : b.closingIds = s.id :: todo.map Subscriber.id := by
      rw [closingIds, closing]
      rfl
    have distinct := ho.closingNodup
    rw [ids, List.nodup_cons] at distinct
    have alive : ((b.channels s.id).offered .endOfStream).alive = (b.channels s.id).alive := by
      rcases (b.channels s.id).offered_cases .endOfStream with sent | kept
      · rw [sent]
      · rw [kept]
    cases step
    have lane : lossyLane { b.setChannel s.id ((b.channels s.id).offered .endOfStream) with closing := some todo } id =
        { b.lossyLane id with
          channel := (b.setChannel s.id ((b.channels s.id).offered .endOfStream)).channels id
          closing := (todo.map Subscriber.id).contains id } := rfl
    by_cases same : id = s.id
    · subst same
      refine ⟨⟨h.listed, h.waiting, h.retiring, ?_, h.filled⟩, ?_⟩
      · show ((b.setChannel s.id ((b.channels s.id).offered .endOfStream)).channels s.id).alive = true
        rw [setChannel_self, alive]
        exact h.alive
      · have closes : (b.lossyLane s.id).closing = true := by
          rw [lossyLane, ids]
          simp
        have done : (todo.map Subscriber.id).contains s.id = false := by
          apply eq_false_of_ne_true
          intro mem
          exact distinct.1 (List.contains_iff_mem.mp mem)
        rw [lane, setChannel_self, done]
        exact .closeNext _ closes
    · refine ⟨⟨h.listed, h.waiting, h.retiring, ?_, h.filled⟩, ?_⟩
      · show ((b.setChannel s.id ((b.channels s.id).offered .endOfStream)).channels id).alive = true
        rw [setChannel_ne _ _ same]
        exact h.alive
      · have kept : (todo.map Subscriber.id).contains id = (b.lossyLane id).closing := by
          rw [lossyLane, ids, List.contains_cons]
          simp [same]
        rw [lane, setChannel_ne _ _ same, kept]
        exact .stay _
  next closing =>
    cases step
    refine ⟨⟨h.listed, h.waiting, h.retiring, h.alive, h.filled⟩, ?_⟩
    have ids : b.closingIds = [] := by
      rw [closingIds, closing]
      rfl
    have lane : lossyLane { b with closing := none } id = b.lossyLane id := by
      rw [lossyLane, lossyLane, ids]
      rfl
    rw [lane]
    exact .stay _
  next => cases step

theorem channel_moves (h : b.Drops id) {channel : Channel α} (alive : target = id → channel.alive = true)
    (own : target = id → (b.lossyLane id).Step [] { b.lossyLane id with channel := channel }) :
    Moves b (b.setChannel target channel) id [] := by
  have lane : (b.setChannel target channel).lossyLane id =
      { b.lossyLane id with channel := (b.setChannel target channel).channels id } := rfl
  by_cases same : target = id
  · subst same
    refine ⟨⟨h.listed, h.waiting, h.retiring, ?_, h.filled⟩, ?_⟩
    · rw [setChannel_self]
      exact alive rfl
    · rw [lane, setChannel_self]
      exact own rfl
  · refine ⟨⟨h.listed, h.waiting, h.retiring, ?_, h.filled⟩, ?_⟩
    · rw [setChannel_ne _ _ (Ne.symm same)]
      exact h.alive
    · rw [lane, setChannel_ne _ _ (Ne.symm same)]
      exact .stay _

theorem receive_moves (h : b.Drops id) (step : b.step (.receive target) = some b') :
    Moves b b' id [] := by
  simp only [Broadcast.step, Option.map_eq_some_iff] at step
  obtain ⟨channel, found, rfl⟩ := step
  rw [taken] at found
  split at found
  next opened =>
    rw [Bool.and_eq_true, Bool.not_eq_true'] at opened
    obtain ⟨alive, running⟩ := opened
    split at found
    next queue front =>
      cases found
      refine channel_moves h (fun _ => alive) ?_
      rintro rfl
      exact .takeEnd _ queue front
    next message queue content front =>
      cases found
      refine channel_moves h (fun _ => alive) ?_
      rintro rfl
      exact .take _ message queue content front running
    next empty =>
      split at found
      next => cases found
      next left =>
        cases found
        refine channel_moves h (fun _ => alive) ?_
        rintro rfl
        obtain ⟨unlisted, closed, free⟩ := connected_false (eq_false_of_ne_true left)
        exact .disconnected _ empty ((lossyLane_listed b target).trans unlisted) closed free
  next => cases found

/-- Every step but a subscription and a close moves the lane of a lossy subscription whose consumer stays by one
step. -/
theorem step_moves (ho : b.Orderly) (h : b.Drops id) {event : BroadcastStep α} (step : b.step event = some b')
    (joins : ∀ other buffer policy, event ≠ .subscribe other buffer policy) (closes : event ≠ .close)
    (stays : event.removes id = false) :
    Moves b b' id (if b.memberIds.contains id then event.sent else []) := by
  have silent : ∀ {next : Broadcast α} {quiet : BroadcastStep α}, quiet.sent = [] → Moves b next id [] →
      Moves b next id (if b.memberIds.contains id then quiet.sent else []) := fun {next quiet} nothing moves => by
    rw [nothing, ite_self]
    exact moves
  cases event with
  | send value =>
    simp only [Broadcast.step] at step
    split at step
    · next ready =>
      cases step
      exact sendMessage_moves ho h (eq_idle ready.2) (.sample value) (List.cons_ne_nil _ _) _
    · cases step
  | sendBatch values =>
    simp only [Broadcast.step] at step
    split at step
    · next empty =>
      cases step
      exact silent (List.isEmpty_iff.mp empty) ⟨h, .stay _⟩
    · next filled =>
      split at step
      · next ready =>
        cases step
        have values : values ≠ [] := fun empty => filled (List.isEmpty_iff.mpr empty)
        exact sendMessage_moves ho h (eq_idle ready.2) (.batch _) values _
      · cases step
  | offer => exact silent rfl (offer_moves ho h step)
  | release => exact silent rfl (release_moves ho h step)
  | serve => exact silent rfl (serve_moves h step)
  | expire => exact silent rfl (expire_moves h step)
  | retire => exact silent rfl (retire_moves h step)
  | subscribe other buffer policy => exact absurd rfl (joins other buffer policy)
  | unsubscribe target =>
    simp only [Broadcast.step] at step
    split at step
    · next unlocked =>
      cases step
      exact silent rfl (unsubscribe_moves h unlocked (of_decide_eq_false stays))
    · cases step
  | close => exact absurd rfl closes
  | closeNext => exact silent rfl (closeNext_moves ho h step)
  | takeDisconnected =>
    simp only [Broadcast.step] at step
    split at step
    · cases step
      exact silent rfl ⟨⟨h.listed, h.waiting, h.retiring, h.alive, h.filled⟩, .stay _⟩
    · cases step
  | receive target => exact silent rfl (receive_moves h step)
  | hangUp target =>
    cases step
    have other : target ≠ id := of_decide_eq_false stays
    exact silent rfl (channel_moves h (fun same => absurd same other) (fun same => absurd same other))

section Subscribe

variable {new : Nat} (buffer : Nat) (policy : OverflowPolicy)

theorem subscribe_drops (h : b.Drops id) (unlocked : b.unlocked = true) (other : id ≠ new) :
    (b.subscribe new buffer policy).Drops id ∧ (b.subscribe new buffer policy).lossyLane id = b.lossyLane id := by
  have same : (b.subscribe new buffer policy).channels id = b.channels id := by
    rw [subscribe_channels]
    exact b.setChannel_ne _ other
  refine ⟨⟨?_, ?_, ?_, ?_, ?_⟩, ?_⟩
  · rw [subscribe_members buffer policy unlocked]
    intro s mem sameId
    split at mem
    · exact h.listed s mem sameId
    · rcases List.mem_append.mp mem with mem | mem
      · exact h.listed s mem sameId
      · rw [List.mem_singleton.mp mem] at sameId
        exact absurd sameId.symm other
  · rw [subscribe_producer]
    exact h.waiting
  · rw [subscribe_producer]
    exact h.retiring
  · rw [same]
    exact h.alive
  · rw [subscribe_producer]
    exact h.filled
  · have found : entry (b.subscribe new buffer policy).members id = entry b.members id := by
      rw [subscribe_members buffer policy unlocked]
      split
      · rfl
      · rw [entry, entry, List.find?_append, List.find?_cons_of_neg (by simpa using Ne.symm other), List.find?_nil,
          Option.or_none]
    have closing : (b.subscribe new buffer policy).closingIds = b.closingIds := by
      rw [closingIds, subscribe_closing, closingIds]
    rw [lossyLane, lossyLane, same, found, closing, subscribe_carried]

theorem subscribe_drops_new (ho : b.Orderly) (unlocked : b.unlocked = true) (fresh : new ∉ b.used) :
    (b.subscribe new buffer .lossy).Drops new ∧ (b.subscribe new buffer .lossy).lossyLane new =
      ⟨⟨max buffer 1, if b.closed then [.endOfStream] else if b.sticky then b.last.toList.map .sample else [], [],
        false, true⟩, if b.closed then none else some none, false, []⟩ := by
  have missing : new ∉ b.memberIds := fun mem => fresh (ho.joined new mem)
  have absent : ∀ s ∈ b.members, s.id ≠ new := fun s mem same => missing (List.mem_map.mpr ⟨s, mem, same⟩)
  have channel : (b.subscribe new buffer .lossy).channels new = _ :=
    (congrFun (subscribe_channels buffer .lossy) new).trans (b.setChannel_self new _)
  refine ⟨⟨?_, ?_, ?_, ?_, ?_⟩, ?_⟩
  · rw [subscribe_members buffer .lossy unlocked]
    intro s mem same
    split at mem
    · exact absurd same (absent s mem)
    · rcases List.mem_append.mp mem with mem | mem
      · exact absurd same (absent s mem)
      · rw [List.mem_singleton.mp mem]
  · rw [subscribe_producer]
    exact fun send mem same => fresh (same ▸ ho.waitingJoined send mem)
  · rw [subscribe_producer]
    intro deadline blocked retires
    have lost := ho.producer
    rw [retires] at lost
    exact fresh lost.1
  · rw [channel]
  · rw [subscribe_producer]
    intro message visited todo dead blocked broadcasts
    rw [Broadcast.unlocked, broadcasts] at unlocked
    cases unlocked
  · have found : entry (b.subscribe new buffer .lossy).members new = if b.closed then none else some none := by
      have none : entry b.members new = none := entry_none missing
      rw [subscribe_members buffer .lossy unlocked]
      split
      · exact none
      · have before : b.members.find? (·.id = new) = Option.none := by simpa [entry] using none
        rw [entry, List.find?_append, before, Option.none_or, List.find?_cons_of_pos (by simp)]
        rfl
    have closing : (b.subscribe new buffer .lossy).closingIds.contains new = false := by
      rw [closingIds, subscribe_closing]
      apply eq_false_of_ne_true
      exact fun mem => fresh (ho.closingJoined new (List.contains_iff_mem.mp mem))
    rw [lossyLane, channel, found, closing, subscribe_carried, carried_unused ho fresh unlocked]

end Subscribe

end Steps

end Broadcast

end LogicConduit
