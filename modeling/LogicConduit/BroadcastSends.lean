import LogicConduit.BroadcastLedger

namespace LogicConduit

variable {α : Type}

namespace Producer

def waiting : Producer α → List (BlockedSend α)
  | .idle => []
  | .broadcasting _ _ _ _ blocked => blocked
  | .serving blocked => blocked
  | .retiring _ _ blocked => blocked

/-- A send waits for a subscriber already visited, and one that is given up for good has lost its consumer. -/
def Orderly (used : List Nat) (channels : Nat → Channel α) : Producer α → Prop
  | .idle => True
  | .broadcasting _ visited _ dead blocked =>
    (∀ send ∈ blocked, send.id ∈ visited.map Subscriber.id) ∧ ∀ id ∈ dead, id ∈ used ∧ (channels id).alive = false
  | .serving _ => True
  | .retiring id deadline _ => id ∈ used ∧ (deadline = false → (channels id).alive = false)

theorem Orderly.mono {used used' : List Nat} {channels channels' : Nat → Channel α} {producer : Producer α}
    (h : producer.Orderly used channels) (hu : ∀ id ∈ used, id ∈ used')
    (ha : ∀ id ∈ used, (channels id).alive = false → (channels' id).alive = false) :
    producer.Orderly used' channels' := by
  cases producer with
  | idle => trivial
  | broadcasting message visited todo dead blocked =>
    refine ⟨h.1, ?_⟩
    intro id hd
    obtain ⟨hin, hdead⟩ := h.2 id hd
    exact ⟨hu id hin, ha id hin hdead⟩
  | serving blocked => trivial
  | retiring id deadline blocked => exact ⟨hu id h.1, fun hd => ha id h.1 (h.2 hd)⟩

end Producer

variable {id : Nat}

namespace Broadcast

/-- What holds of the list and the producer in every run. -/
structure Orderly (b : Broadcast α) : Prop where
  nodup : b.memberIds.Nodup
  closingNodup : b.closingIds.Nodup
  joined : ∀ id ∈ b.memberIds, id ∈ b.used
  closingJoined : ∀ id ∈ b.closingIds, id ∈ b.used
  waitingJoined : ∀ send ∈ b.producer.waiting, send.id ∈ b.used
  producer : b.producer.Orderly b.used b.channels

/-- What marks a subscription that blocks the producer. -/
structure Blocks (b : Broadcast α) (id : Nat) : Prop where
  listed : ∀ s ∈ b.members, s.id = id → s.policy = .block ∧ s.pending = none
  waiting : ∀ send ∈ b.producer.waiting, send.id = id → send.deadline = false
  retiring : ∀ deadline blocked, b.producer = .retiring id deadline blocked → deadline = false

def lane (b : Broadcast α) (id : Nat) : Lane α where
  channel := b.channels id
  listed := b.memberIds.contains id
  closing := b.closingIds.contains id
  carried := b.carried id

/-- How a step moves the lanes of the subscriptions that block, with what it makes of what they are owed. -/
structure Advance (b b' : Broadcast α) (owed : Nat → Subscription α → Subscription α) : Prop where
  orderly : b'.Orderly
  blocks : ∀ id, b.Blocks id → b'.Blocks id
  lanes : ∀ id, b.Blocks id → ∀ sub, (b.lane id).Step sub (b'.lane id) (owed id sub)

section Carried

variable {id : Nat}

theorem carried_todo {todo : List (Subscriber α)} (h : (todo.map Subscriber.id).Nodup) (message : ChannelMessage α) :
    (todo.filter (·.id = id)).map (fun _ => message) =
      if (todo.map Subscriber.id).contains id then [message] else [] := by
  induction todo with
  | nil => rfl
  | cons s todo ih =>
    rw [List.map_cons, List.nodup_cons] at h
    by_cases hs : s.id = id
    · have hnone : ∀ t ∈ todo, ¬t.id = id := by
        intro t ht heq
        exact h.1 (List.mem_map.mpr ⟨t, ht, heq.trans hs.symm⟩)
      have hfilter : todo.filter (·.id = id) = [] := by
        rw [List.filter_eq_nil_iff]
        intro t ht
        simpa using hnone t ht
      simp [hs, hfilter]
    · have hs' : ¬id = s.id := fun heq => hs heq.symm
      simpa [hs, hs'] using ih h.2

theorem waitingFor_nil {blocked : List (BlockedSend α)} (h : ∀ send ∈ blocked, send.id ≠ id) :
    waitingFor id blocked = [] := by
  rw [waitingFor, List.map_eq_nil_iff, List.filter_eq_nil_iff]
  intro send hin
  simpa using h send hin

theorem waitingFor_append (first second : List (BlockedSend α)) :
    waitingFor id (first ++ second) = waitingFor id first ++ waitingFor id second := by
  rw [waitingFor, List.filter_append, List.map_append, waitingFor, waitingFor]

theorem waitingFor_cons_self (send : BlockedSend α) (blocked : List (BlockedSend α)) (h : send.id = id) :
    waitingFor id (send :: blocked) = send.message :: waitingFor id blocked := by
  simp [waitingFor, h]

theorem waitingFor_cons_ne (send : BlockedSend α) (blocked : List (BlockedSend α)) (h : send.id ≠ id) :
    waitingFor id (send :: blocked) = waitingFor id blocked := by
  simp [waitingFor, h]

end Carried

theorem setChannel_self (b : Broadcast α) (id : Nat) (channel : Channel α) :
    (b.setChannel id channel).channels id = channel := if_pos rfl

theorem setChannel_ne (b : Broadcast α) {id other : Nat} (channel : Channel α) (h : other ≠ id) :
    (b.setChannel id channel).channels other = b.channels other := if_neg h

section Steps

variable {b b' : Broadcast α}

variable {message : ChannelMessage α} {visited todo : List (Subscriber α)} {channels : Nat → Channel α}

/-- `send` and `send_batch` give every subscriber of the list a message to come. -/
theorem sendMessage_advance (ho : b.Orderly) (hi : b.producer = .idle) (message : ChannelMessage α)
    (hm : message ≠ .endOfStream) (last : Option α) :
    Advance b (b.sendMessage message last) (fun _ => Subscription.owe message.items) := by
  have hmembers : b.members = b.subscribers := by rw [members, hi]
  have hsame : (b.sendMessage message last).members = b.members := by
    rw [hmembers]
    rfl
  have hids : (b.sendMessage message last).memberIds = b.memberIds := by rw [memberIds, hsame, memberIds]
  refine ⟨⟨?_, ho.closingNodup, ?_, ho.closingJoined, nofun, nofun, nofun⟩, ?_, ?_⟩
  · rw [hids]
    exact ho.nodup
  · rw [hids]
    exact ho.joined
  · intro id hb
    refine ⟨?_, nofun, nofun⟩
    rw [hsame]
    exact hb.listed
  · intro id hb sub
    have hcarried : (b.lane id).carried = [] := by rw [lane, carried, hi]
    have hnodup : (b.subscribers.map Subscriber.id).Nodup := by
      rw [← hmembers]
      exact ho.nodup
    have hlane : (b.sendMessage message last).lane id =
        { b.lane id with carried := if (b.lane id).listed then [message] else [] } := by
      have hc : (b.sendMessage message last).carried id =
          if (b.lane id).listed then [message] else [] := by
        rw [lane, memberIds, hmembers]
        exact (List.append_nil _).trans (carried_todo hnodup message)
      rw [lane, hids, hc]
      rfl
    rw [hlane]
    exact Lane.Step.send _ sub message hm hcarried

/-- What a visit makes of a subscriber that blocks: its message is queued, waited for, or dropped because its
consumer is gone. -/
def VisitsBlocking (b : Broadcast α) (message : ChannelMessage α) (s s' : Subscriber α)
    (blocked blocked' : List (BlockedSend α)) (channels : Nat → Channel α) : Prop :=
  s'.policy = .block ∧ s'.pending = none ∧
    ((blocked' = blocked ∧ channels s.id = { b.channels s.id with queue := (b.channels s.id).queue ++ [message] }) ∨
      (blocked' = blocked ++ [⟨s.id, false, message⟩] ∧ channels s.id = b.channels s.id) ∨
      (blocked' = blocked ∧ channels s.id = b.channels s.id ∧ (b.channels s.id).alive = false))

/-- A step that lets only subscribers and sends go, and closes and joins nobody. -/
theorem Orderly.thinned (ho : b.Orderly) (hids : b'.memberIds.Sublist b.memberIds)
    (hclosing : b'.closingIds = b.closingIds) (hused : b'.used = b.used)
    (hwaiting : ∀ send ∈ b'.producer.waiting, send ∈ b.producer.waiting)
    (hproducer : b'.producer.Orderly b'.used b'.channels) : b'.Orderly := by
  refine ⟨ho.nodup.sublist hids, hclosing ▸ ho.closingNodup, ?_, ?_, ?_, hproducer⟩
  · exact fun id hid => hused ▸ ho.joined id (hids.subset hid)
  · exact fun id hid => hused ▸ ho.closingJoined id (hclosing ▸ hid)
  · exact fun send hsend => hused ▸ ho.waitingJoined send (hwaiting send hsend)

section Visit

variable {s s' : Subscriber α} {dead dead' : List Nat} {blocked blocked' : List (BlockedSend α)}
  (hp : b.producer = .broadcasting message visited (s :: todo) dead blocked) (hid : s'.id = s.id)
  (hblocked : blocked' = blocked ∨ ∃ deadline, blocked' = blocked ++ [⟨s.id, deadline, message⟩])
  (hown : s.policy = .block → s.pending = none → b.VisitsBlocking message s s' blocked blocked' channels)

include hblocked in
theorem visit_send {send : BlockedSend α} (hsend : send ∈ blocked') : send ∈ blocked ∨ send.id = s.id := by
  rcases hblocked with heq | ⟨deadline, heq⟩
  · exact Or.inl (heq ▸ hsend)
  · rw [heq] at hsend
    rcases List.mem_append.mp hsend with hin | hin
    · exact Or.inl hin
    · exact Or.inr (by rw [List.mem_singleton.mp hin])

include hp

theorem visit_carried : b.carried id = ((s :: todo).filter (·.id = id)).map (fun _ => message) ++ waitingFor id blocked := by
  rw [carried, hp]

theorem visit_listed : s ∈ b.members := by
  rw [members, hp]
  exact List.mem_append_right _ List.mem_cons_self

include hid

theorem visit_ids : (visited ++ [s'] ++ todo).map Subscriber.id = b.memberIds := by
  rw [memberIds, members, hp, List.map_append, List.map_append, List.map_singleton, hid, List.append_assoc,
    List.singleton_append, ← List.map_cons, ← List.map_append]

theorem visit_lane {channel : Channel α} {carried : List (ChannelMessage α)}
    (hchannel : channels id = channel)
    (hcarried : (todo.filter (·.id = id)).map (fun _ => message) ++ waitingFor id blocked' = carried) :
    lane { b with channels := channels, producer := .broadcasting message (visited ++ [s']) todo dead' blocked' } id =
      { b.lane id with channel := channel, carried := carried } := by
  rw [← hchannel, ← hcarried, lane, lane, ← visit_ids hp hid]
  rfl

include hown in
/-- The subscriber at which the loop is stands in the list once. -/
theorem visit_lane_self (ho : b.Orderly) (hb : b.Blocks s.id) (sub : Subscription α) :
    (b.lane s.id).Step sub (lane { b with
      channels := channels
      producer := .broadcasting message (visited ++ [s']) todo dead' blocked' } s.id) sub := by
  have hnodup := ho.nodup
  have hprod := ho.producer
  rw [memberIds, members, hp, List.map_append, List.map_cons, List.nodup_append] at hnodup
  rw [hp] at hprod
  have htodo : todo.filter (·.id = s.id) = [] := by
    rw [List.filter_eq_nil_iff]
    intro t ht
    have hne : t.id ≠ s.id := by
      intro hts
      exact (List.nodup_cons.mp hnodup.2.1).1 (List.mem_map.mpr ⟨t, ht, hts⟩)
    simpa using hne
  have hnone : waitingFor s.id blocked = [] :=
    waitingFor_nil fun send hsend => hnodup.2.2 send.id (hprod.1 send hsend) s.id List.mem_cons_self
  have hone : (b.lane s.id).carried = [message] := by
    show b.carried s.id = [message]
    rw [visit_carried hp, hnone, List.filter_cons_of_pos (by simp), htodo]
    rfl
  obtain ⟨hpol, hpen⟩ := hb.listed s (visit_listed hp) rfl
  rcases (hown hpol hpen).2.2 with ⟨hbl, hch⟩ | ⟨hbl, hch⟩ | ⟨hbl, hch, ha⟩
  · have hkept : (todo.filter (·.id = s.id)).map (fun _ => message) ++ waitingFor s.id blocked' = [] := by
      rw [htodo, hbl, hnone]
      rfl
    rw [visit_lane hp hid hch hkept]
    exact Lane.Step.push _ sub message [] hone
  · have hkept : (todo.filter (·.id = s.id)).map (fun _ => message) ++ waitingFor s.id blocked' = b.carried s.id := by
      have hnew : waitingFor s.id [⟨s.id, false, message⟩] = [message] := waitingFor_cons_self _ _ rfl
      rw [htodo, hbl, waitingFor_append, hnone, hnew]
      exact hone.symm
    rw [visit_lane hp hid hch hkept]
    exact Lane.Step.stay _ sub
  · have hkept : (todo.filter (·.id = s.id)).map (fun _ => message) ++ waitingFor s.id blocked' = [] := by
      rw [htodo, hbl, hnone]
      rfl
    rw [visit_lane hp hid hch hkept]
    exact Lane.Step.drop _ sub message [] hone ha

include hblocked

theorem visit_orderly (ho : b.Orderly)
    (hothers : ∀ other, other ≠ s.id → channels other = b.channels other)
    (halive : (b.channels s.id).alive = false → (channels s.id).alive = false)
    (hdead : ∀ id ∈ dead', id ∈ dead ∨ id = s.id ∧ (channels s.id).alive = false) :
    Orderly { b with channels := channels, producer := .broadcasting message (visited ++ [s']) todo dead' blocked' } := by
  have hsused : s.id ∈ b.used := ho.joined _ (List.mem_map_of_mem (visit_listed hp))
  have hprod := ho.producer
  have hwaiting := ho.waitingJoined
  rw [hp] at hprod hwaiting
  have hmono : ∀ id, (b.channels id).alive = false → (channels id).alive = false := by
    intro id ha
    by_cases heq : id = s.id
    · rw [heq] at ha ⊢
      exact halive ha
    · rwa [hothers id heq]
  refine ⟨?_, ho.closingNodup, ?_, ho.closingJoined, ?_, ?_, ?_⟩
  · show ((visited ++ [s'] ++ todo).map Subscriber.id).Nodup
    rw [visit_ids hp hid]
    exact ho.nodup
  · show ∀ id ∈ (visited ++ [s'] ++ todo).map Subscriber.id, id ∈ b.used
    rw [visit_ids hp hid]
    exact ho.joined
  · intro send hsend
    rcases visit_send hblocked hsend with hin | hown
    · exact hwaiting send hin
    · rwa [hown]
  · intro send hsend
    rw [List.map_append, List.map_singleton, hid]
    rcases visit_send hblocked hsend with hin | hown
    · exact List.mem_append_left _ (hprod.1 send hin)
    · rw [hown]
      exact List.mem_append_right _ List.mem_cons_self
  · intro id hd
    rcases hdead id hd with hin | ⟨heq, ha⟩
    · exact ⟨(hprod.2 id hin).1, hmono id (hprod.2 id hin).2⟩
    · exact heq ▸ ⟨hsused, ha⟩

include hown in
theorem visit_blocks (hb : b.Blocks id) :
    Blocks { b with channels := channels, producer := .broadcasting message (visited ++ [s']) todo dead' blocked' }
      id := by
  have hs : s.id = id → s.policy = .block ∧ s.pending = none := hb.listed s (visit_listed hp)
  have hold : ∀ send ∈ blocked, send.id = id → send.deadline = false := by
    have hw := hb.waiting
    rwa [hp] at hw
  have hlisted := hb.listed
  rw [members, hp] at hlisted
  refine ⟨?_, ?_, nofun⟩
  · intro t ht htid
    rcases List.mem_append.mp ht with ht | ht
    · rcases List.mem_append.mp ht with ht | ht
      · exact hlisted t (List.mem_append_left _ ht) htid
      · rw [List.mem_singleton.mp ht] at htid ⊢
        obtain ⟨hpol, hpen⟩ := hs (hid.symm.trans htid)
        exact ⟨(hown hpol hpen).1, (hown hpol hpen).2.1⟩
    · exact hlisted t (List.mem_append_right _ (List.mem_cons_of_mem _ ht)) htid
  · intro send hsend hsid
    have hmem : send ∈ blocked' := hsend
    rcases visit_send hblocked hmem with hin | hsame
    · exact hold send hin hsid
    · obtain ⟨hpol, hpen⟩ := hs (hsame.symm.trans hsid)
      rcases (hown hpol hpen).2.2 with ⟨hbl, -⟩ | ⟨hbl, -⟩ | ⟨hbl, -⟩
      · exact hold send (hbl ▸ hmem) hsid
      · rw [hbl] at hmem
        rcases List.mem_append.mp hmem with hin | hin
        · exact hold send hin hsid
        · rw [List.mem_singleton.mp hin]
      · exact hold send (hbl ▸ hmem) hsid

theorem visit_lane_other (hne : s.id ≠ id) (hchannel : channels id = b.channels id) (sub : Subscription α) :
    (b.lane id).Step sub (lane { b with
      channels := channels
      producer := .broadcasting message (visited ++ [s']) todo dead' blocked' } id) sub := by
  have hkept : (todo.filter (·.id = id)).map (fun _ => message) ++ waitingFor id blocked' = b.carried id := by
    rw [visit_carried hp, List.filter_cons_of_neg (by simpa using hne)]
    rcases hblocked with hbl | ⟨deadline, hbl⟩
    · rw [hbl]
    · have hnew : waitingFor id [⟨s.id, deadline, message⟩] = [] := waitingFor_cons_ne _ _ hne
      rw [hbl, waitingFor_append, hnew, List.append_nil]
  rw [visit_lane hp hid hchannel hkept]
  exact Lane.Step.stay _ sub

include hown in
/-- One round of the loop of `send_message` at the subscriber `s`: the others are left alone. -/
theorem visit_advance (ho : b.Orderly)
    (hothers : ∀ other, other ≠ s.id → channels other = b.channels other)
    (halive : (b.channels s.id).alive = false → (channels s.id).alive = false)
    (hdead : ∀ id ∈ dead', id ∈ dead ∨ id = s.id ∧ (channels s.id).alive = false) :
    Advance b { b with channels := channels, producer := .broadcasting message (visited ++ [s']) todo dead' blocked' }
      (fun _ sub => sub) := by
  refine ⟨visit_orderly hp hid hblocked ho hothers halive hdead, fun id hb => visit_blocks hp hid hblocked hown hb, ?_⟩
  intro id hb sub
  by_cases heq : s.id = id
  · subst heq
    exact visit_lane_self hp hid hown ho hb sub
  · exact visit_lane_other hp hid hblocked heq (hothers id (Ne.symm heq)) sub

end Visit

theorem retry_advance (ho : b.Orderly)
    {s : Subscriber α} {value : α} {dead : List Nat} {blocked : List (BlockedSend α)}
    (hp : b.producer = .broadcasting message visited (s :: todo) dead blocked) (hv : s.pending = some value)
    (hothers : ∀ other, other ≠ s.id → channels other = b.channels other)
    (halive : (channels s.id).alive = (b.channels s.id).alive) :
    Advance b { b with
      channels := channels
      producer := .broadcasting message visited ({ s with pending := none } :: todo) dead blocked }
      (fun _ sub => sub) := by
  have hids : (visited ++ { s with pending := none } :: todo).map Subscriber.id = b.memberIds := by
    rw [memberIds, members, hp, List.map_append, List.map_append, List.map_cons, List.map_cons]
  have hprod := ho.producer
  rw [hp] at hprod
  have hmono : ∀ id, (b.channels id).alive = false → (channels id).alive = false := by
    intro id ha
    by_cases heq : id = s.id
    · rw [heq] at ha ⊢
      rwa [halive]
    · rwa [hothers id heq]
  have hne : ∀ id, b.Blocks id → s.id ≠ id := by
    intro id hb heq
    have hpen := (hb.listed s (visit_listed hp) heq).2
    rw [hv] at hpen
    cases hpen
  refine ⟨ho.thinned (hids ▸ List.Sublist.refl _) rfl rfl (fun send hsend => hp ▸ hsend) ⟨hprod.1, ?_⟩, ?_, ?_⟩
  · intro id hd
    exact ⟨(hprod.2 id hd).1, hmono id (hprod.2 id hd).2⟩
  · intro id hb
    have hw := hb.waiting
    rw [hp] at hw
    refine ⟨?_, hw, nofun⟩
    intro t ht htid
    have hlisted := hb.listed t
    rw [members, hp] at hlisted
    rcases List.mem_append.mp ht with ht | ht
    · exact hlisted (List.mem_append_left _ ht) htid
    · rcases List.mem_cons.mp ht with heq | ht
      · rw [heq] at htid
        exact absurd htid (hne id hb)
      · exact hlisted (List.mem_append_right _ (List.mem_cons_of_mem _ ht)) htid
  · intro id hb sub
    have hcarried : (({ s with pending := none } :: todo).filter (·.id = id)).map (fun _ => message) ++
        waitingFor id blocked = b.carried id := by
      have hs : s.id ≠ id := hne id hb
      rw [visit_carried hp, List.filter_cons_of_neg (by simpa using hs), List.filter_cons_of_neg (by simpa using hs)]
    have hlane : lane { b with
        channels := channels
        producer := .broadcasting message visited ({ s with pending := none } :: todo) dead blocked } id =
        b.lane id := by
      rw [lane, lane, ← hids, ← hcarried, ← hothers id (Ne.symm (hne id hb))]
      rfl
    rw [hlane]
    exact Lane.Step.stay _ sub

theorem offer_advance (ho : b.Orderly) (h : b.step .offer = some b') :
    Advance b b' (fun _ sub => sub) := by
  simp only [step] at h
  split at h
  next message visited s todo dead blocked hp =>
    have hkeep : ∀ channel : Channel α, ∀ other, other ≠ s.id →
        (b.setChannel s.id channel).channels other = b.channels other :=
      fun channel other hne => b.setChannel_ne channel hne
    split at h
    next value hv =>
      cases h
      rw [retryPending]
      split
      next channel hsent =>
        apply retry_advance ho hp hv (hkeep channel)
        rw [setChannel_self, Channel.trySend_sent hsent]
      next => exact retry_advance ho hp hv (fun _ _ => rfl) rfl
      next hgone =>
        have ha := Channel.trySend_disconnected hgone
        refine visit_advance hp rfl (Or.inl rfl) ?_ ho (fun _ _ => rfl) id ?_
        · intro _ hpen
          rw [hv] at hpen
          cases hpen
        · intro id hd
          rcases List.mem_append.mp hd with hd | hd
          · exact Or.inl hd
          · exact Or.inr ⟨List.mem_singleton.mp hd, ha⟩
    next hv =>
      cases h
      rw [offerTo]
      split
      next channel hsent =>
        have hch := Channel.trySend_sent hsent
        refine visit_advance hp rfl (Or.inl rfl) ?_ ho (hkeep channel) ?_ (fun id hd => Or.inl hd)
        · intro hpol hpen
          exact ⟨hpol, hpen, Or.inl ⟨rfl, (b.setChannel_self s.id channel).trans hch⟩⟩
        · intro ha
          rwa [setChannel_self, hch]
      next =>
        split
        next hpol =>
          refine visit_advance hp rfl (Or.inr ⟨_, rfl⟩) ?_ ho (fun _ _ => rfl) id (fun id hd => Or.inl hd)
          intro hpol hpen
          exact ⟨hpol, hpen, Or.inr (Or.inl ⟨rfl, rfl⟩)⟩
        next hpol =>
          refine visit_advance hp rfl (Or.inl rfl) ?_ ho (fun _ _ => rfl) id (fun id hd => Or.inl hd)
          intro hblock
          rw [hpol] at hblock
          cases hblock
        next hpol =>
          refine visit_advance hp rfl (Or.inr ⟨_, rfl⟩) ?_ ho (fun _ _ => rfl) id (fun id hd => Or.inl hd)
          intro hblock
          rw [hpol] at hblock
          cases hblock
      next hgone =>
        have ha := Channel.trySend_disconnected hgone
        refine visit_advance hp rfl (Or.inl rfl) ?_ ho (fun _ _ => rfl) id ?_
        · intro hpol hpen
          exact ⟨hpol, hpen, Or.inr (Or.inr ⟨rfl, rfl, ha⟩)⟩
        · intro id hd
          rcases List.mem_append.mp hd with hd | hd
          · exact Or.inl hd
          · exact Or.inr ⟨List.mem_singleton.mp hd, ha⟩
  next => cases h

section ServeRest

variable {blocked : List (BlockedSend α)}

theorem serveRest_cases (blocked : List (BlockedSend α)) :
    blocked = [] ∧ serveRest blocked = .idle ∨ serveRest blocked = .serving blocked := by
  cases blocked with
  | nil => exact Or.inl ⟨rfl, rfl⟩
  | cons send blocked => exact Or.inr rfl

theorem serveRest_waiting (blocked : List (BlockedSend α)) : (serveRest blocked).waiting = blocked := by
  rcases serveRest_cases blocked with ⟨hnil, h⟩ | h
  · rw [h, hnil]
    rfl
  · rw [h]
    rfl

theorem serveRest_orderly (used : List Nat) (channels : Nat → Channel α) :
    (serveRest blocked).Orderly used channels := by
  rcases serveRest_cases blocked with ⟨-, h⟩ | h
  · rw [h]
    trivial
  · rw [h]
    trivial

theorem members_serveRest (hp : b.producer = serveRest blocked) : b.members = b.subscribers := by
  rcases serveRest_cases blocked with ⟨-, h⟩ | h
  · rw [members, hp, h]
  · rw [members, hp, h]

theorem carried_serveRest (hp : b.producer = serveRest blocked) (id : Nat) : b.carried id = waitingFor id blocked := by
  rcases serveRest_cases blocked with ⟨hnil, h⟩ | h
  · rw [carried, hp, h, hnil]
    rfl
  · rw [carried, hp, h]

theorem serveRest_not_retiring {deadline : Bool} {rest : List (BlockedSend α)} :
    serveRest blocked ≠ .retiring id deadline rest := by
  intro heq
  rcases serveRest_cases blocked with ⟨-, h⟩ | h
  · rw [h] at heq
    cases heq
  · rw [h] at heq
    cases heq

end ServeRest

variable {target : Nat} {channel : Channel α}

theorem retain_advance (ho : b.Orderly) (blocked : List (BlockedSend α)) (keep : Nat → Bool)
    (disconnected : List Nat) (hwaiting : b.producer.waiting = blocked)
    (hcarried : ∀ id, b.carried id = waitingFor id blocked)
    (hgone : ∀ id, b.Blocks id → keep id = false → (b.channels id).alive = false) :
    Advance b { b with
      subscribers := b.members.filter (fun s => keep s.id)
      disconnected := disconnected
      producer := serveRest blocked } (fun _ sub => sub) := by
  generalize hb' : ({ b with
      subscribers := b.members.filter (fun s => keep s.id)
      disconnected := disconnected
      producer := serveRest blocked } : Broadcast α) = b'
  have hprod : b'.producer = serveRest blocked := by rw [← hb']
  have hmembers : b'.members = b.members.filter (fun s => keep s.id) := by
    rw [members_serveRest hprod, ← hb']
  have hids : b'.memberIds = b.memberIds.filter keep := by
    rw [memberIds, hmembers, memberIds, List.filter_map]
    rfl
  have hclosing : b'.closingIds = b.closingIds := by rw [← hb']; rfl
  have hwaits : b'.producer.waiting = b.producer.waiting := by rw [hprod, serveRest_waiting, hwaiting]
  refine ⟨ho.thinned (hids ▸ List.filter_sublist) hclosing (by rw [← hb']) (fun _ hin => hwaits ▸ hin) ?_, ?_, ?_⟩
  · rw [hprod]
    exact serveRest_orderly _ _
  · intro id hb
    refine ⟨?_, ?_, ?_⟩
    · intro s hs
      rw [hmembers] at hs
      exact hb.listed s (List.mem_filter.mp hs).1
    · rw [hwaits]
      exact hb.waiting
    · intro deadline rest heq
      rw [hprod] at heq
      exact absurd heq serveRest_not_retiring
  · intro id hb sub
    have hc : b'.carried id = b.carried id := by rw [carried_serveRest hprod, hcarried]
    have hch : b'.channels id = b.channels id := by rw [← hb']
    have hlane : b'.lane id = { b.lane id with listed := (b.memberIds.filter keep).contains id } := by
      rw [lane, lane, hc, hch, hids, hclosing]
    rw [hlane]
    cases hk : keep id with
    | false =>
      have hout : (b.memberIds.filter keep).contains id = false := by simp [hk]
      rw [hout]
      exact Lane.Step.unlist _ sub (hgone id hb hk)
    | true =>
      have hin : (b.memberIds.filter keep).contains id = b.memberIds.contains id := by simp [hk]
      rw [hin]
      exact Lane.Step.stay _ sub

theorem release_advance (ho : b.Orderly) (h : b.step .release = some b') :
    Advance b b' (fun _ sub => sub) := by
  simp only [step] at h
  split at h
  next message visited dead blocked hp =>
    cases h
    have hmembers : b.members = visited := by rw [members, hp]; exact List.append_nil _
    have hprod := ho.producer
    rw [hp] at hprod
    have hstep := retain_advance ho blocked (fun id => !dead.contains id) b.disconnected (by rw [hp]; rfl)
      (fun id => by rw [carried, hp]; rfl) ?_
    · rw [hmembers] at hstep
      exact hstep
    · intro id _ hk
      apply (hprod.2 id _).2
      simpa using hk
  next => cases h

theorem retire_advance (ho : b.Orderly) (h : b.step .retire = some b') :
    Advance b b' (fun _ sub => sub) := by
  simp only [step] at h
  split at h
  next id deadline blocked hp =>
    split at h
    next =>
      cases h
      have hmembers : b.members = b.subscribers := by rw [members, hp]
      have hprod := ho.producer
      rw [hp] at hprod
      have hstep := retain_advance ho blocked (fun other => other ≠ id)
        (if deadline then b.disconnected ++ [id] else b.disconnected) (by rw [hp]; rfl)
        (fun other => by rw [carried, hp]) ?_
      · rw [hmembers] at hstep
        exact hstep
      · intro other hb hk
        have heq : other = id := by simpa using hk
        subst heq
        exact hprod.2 (hb.retiring _ _ hp)
    next => cases h
  next => cases h

theorem setChannel_mono
    (ha : (b.channels target).alive = false → channel.alive = false) (id : Nat) (h : (b.channels id).alive = false) :
    ((b.setChannel target channel).channels id).alive = false := by
  by_cases heq : id = target
  · rw [heq, setChannel_self]
    exact ha (heq ▸ h)
  · rwa [setChannel_ne _ _ heq]

theorem channel_advance (ho : b.Orderly)
    (ha : (b.channels target).alive = false → channel.alive = false)
    (hown : ∀ sub, (b.lane target).Step sub { b.lane target with channel := channel } sub) :
    Advance b (b.setChannel target channel) (fun _ sub => sub) := by
  refine ⟨⟨ho.nodup, ho.closingNodup, ho.joined, ho.closingJoined, ho.waitingJoined, ?_⟩,
    fun id hb => ⟨hb.listed, hb.waiting, hb.retiring⟩, ?_⟩
  · exact ho.producer.mono (fun _ hid => hid) (fun id _ h => setChannel_mono ha id h)
  · intro id hb sub
    have hlane : (b.setChannel target channel).lane id =
        { b.lane id with channel := (b.setChannel target channel).channels id } := rfl
    rw [hlane]
    by_cases heq : id = target
    · rw [heq, setChannel_self]
      exact hown sub
    · rw [setChannel_ne _ _ heq]
      exact Lane.Step.stay _ sub

theorem connected_false (h : b.connected id = false) :
    (b.lane id).listed = false ∧ (b.lane id).closing = false ∧ (b.lane id).carried = [] := by
  rw [connected, Bool.or_eq_false_iff, Bool.or_eq_false_iff] at h
  refine ⟨h.1.1, h.1.2, ?_⟩
  show b.carried id = []
  simpa using h.2

section

variable (ho : b.Orderly)
include ho

theorem receive_advance (h : b.step (.receive id) = some b') : Advance b b' (fun _ sub => sub) := by
  simp only [step, Option.map_eq_some_iff] at h
  obtain ⟨channel, htaken, rfl⟩ := h
  rw [taken] at htaken
  split at htaken
  next hopen =>
    rw [Bool.and_eq_true, Bool.not_eq_true'] at hopen
    obtain ⟨ha, he⟩ := hopen
    have hno : (b.channels id).alive = false → channel.alive = false := by
      intro hf
      rw [ha] at hf
      cases hf
    apply channel_advance ho hno
    intro sub
    split at htaken
    next queue hq =>
      cases htaken
      exact Lane.Step.takeEnd _ sub queue hq ha he
    next message queue hm hq =>
      cases htaken
      exact Lane.Step.take _ sub message queue hm hq ha he
    next hq =>
      split at htaken
      next => cases htaken
      next hleft =>
        cases htaken
        obtain ⟨hl, hn, hc⟩ := connected_false (eq_false_of_ne_true hleft)
        exact Lane.Step.disconnected _ sub hq ha he hl hn hc
  next => cases htaken

theorem hangUp_advance (id : Nat) :
    Advance b (b.setChannel id { b.channels id with alive := false }) (fun _ sub => sub) :=
  channel_advance ho (fun _ => rfl) (fun sub => Lane.Step.hangUp _ sub)

theorem served_advance {send : BlockedSend α} {blocked : List (BlockedSend α)}
    (hp : b.producer = .serving (send :: blocked)) {producer : Producer α}
    (hothers : ∀ other, other ≠ send.id → channels other = b.channels other)
    (hprod : producer = serveRest blocked ∨
      producer = .retiring send.id send.deadline blocked ∧ (send.deadline = false → (channels send.id).alive = false))
    (hown : send.deadline = false →
      channels send.id = { b.channels send.id with queue := (b.channels send.id).queue ++ [send.message] } ∨
        (channels send.id = b.channels send.id ∧ (b.channels send.id).alive = false)) :
    Advance b { b with channels := channels, producer := producer } (fun _ sub => sub) := by
  generalize hb' : ({ b with channels := channels, producer := producer } : Broadcast α) = b'
  have hproducer : b'.producer = producer := by rw [← hb']
  have hmembers : b'.members = b.members := by
    have hbefore : b.members = b.subscribers := by rw [members, hp]
    rcases hprod with heq | ⟨heq, -⟩
    · rw [members_serveRest (hproducer.trans heq), hbefore, ← hb']
    · rw [members, hproducer, heq, hbefore, ← hb']
  have hids : b'.memberIds = b.memberIds := by rw [memberIds, hmembers, memberIds]
  have hclosing : b'.closingIds = b.closingIds := by rw [← hb']; rfl
  have hused : b'.used = b.used := by rw [← hb']
  have hchannels : b'.channels = channels := by rw [← hb']
  have hwaits : b'.producer.waiting = blocked := by
    rw [hproducer]
    rcases hprod with heq | ⟨heq, -⟩
    · rw [heq, serveRest_waiting]
    · rw [heq]
      rfl
  have hcarried : ∀ id, b'.carried id = waitingFor id blocked := by
    intro id
    rcases hprod with heq | ⟨heq, -⟩
    · exact carried_serveRest (hproducer.trans heq) id
    · rw [carried, hproducer, heq]
  have hbefore : ∀ id, b.carried id = waitingFor id (send :: blocked) := by
    intro id
    rw [carried, hp]
  have hjoined := ho.waitingJoined
  rw [hp] at hjoined
  have hleft : ∀ other ∈ b'.producer.waiting, other ∈ b.producer.waiting := by
    intro other hin
    rw [hwaits] at hin
    rw [hp]
    exact List.mem_cons_of_mem _ hin
  refine ⟨ho.thinned (hids ▸ List.Sublist.refl _) hclosing hused hleft ?_, ?_, ?_⟩
  · rw [hproducer, hused, hchannels]
    rcases hprod with heq | ⟨heq, hgone⟩
    · rw [heq]
      exact serveRest_orderly _ _
    · rw [heq]
      exact ⟨hjoined send List.mem_cons_self, hgone⟩
  · intro id hb
    have hw := hb.waiting
    rw [hp] at hw
    refine ⟨?_, ?_, ?_⟩
    · rw [hmembers]
      exact hb.listed
    · exact fun other hin => hb.waiting other (hleft other hin)
    · intro deadline rest heq
      rw [hproducer] at heq
      rcases hprod with hrest | ⟨hretire, -⟩
      · exact absurd (hrest.symm.trans heq) serveRest_not_retiring
      · have hsame := hretire.symm.trans heq
        injection hsame with hid hdl
        rw [← hdl]
        exact hw send List.mem_cons_self hid
  · intro id hb sub
    have hlane : b'.lane id = { b.lane id with channel := channels id, carried := waitingFor id blocked } := by
      rw [lane, lane, hids, hclosing, hchannels, hcarried]
    rw [hlane]
    by_cases heq : send.id = id
    · have hw := hb.waiting
      rw [hp] at hw
      have hfirst : (b.lane id).carried = send.message :: waitingFor id blocked :=
        (hbefore id).trans (waitingFor_cons_self send blocked heq)
      subst heq
      rcases hown (hw send List.mem_cons_self rfl) with hch | ⟨hch, ha⟩
      · rw [hch]
        exact Lane.Step.push _ sub send.message _ hfirst
      · rw [hch]
        exact Lane.Step.drop _ sub send.message _ hfirst ha
    · have hsame : waitingFor id blocked = b.carried id := by
        rw [hbefore, waitingFor_cons_ne send blocked heq]
      rw [hothers id (Ne.symm heq), hsame]
      exact Lane.Step.stay _ sub

theorem serve_advance (h : b.step .serve = some b') : Advance b b' (fun _ sub => sub) := by
  simp only [step] at h
  split at h
  next send blocked hp =>
    split at h
    next channel hsent =>
      cases h
      have hch := Channel.trySend_sent hsent
      apply served_advance ho hp (fun other hne => b.setChannel_ne channel hne) (Or.inl rfl)
      intro _
      exact Or.inl ((b.setChannel_self send.id channel).trans hch)
    next => cases h
    next hgone =>
      cases h
      have ha := Channel.trySend_disconnected hgone
      exact served_advance ho hp (fun _ _ => rfl) (Or.inr ⟨rfl, fun _ => ha⟩) (fun _ => Or.inr ⟨rfl, ha⟩)
  next => cases h

theorem expire_advance (h : b.step .expire = some b') : Advance b b' (fun _ sub => sub) := by
  simp only [step] at h
  split at h
  next send blocked hp =>
    split at h
    next hd hfull =>
      cases h
      refine served_advance ho hp (fun _ _ => rfl) (Or.inr ⟨rfl, ?_⟩) ?_
      · intro hf
        rw [hd] at hf
        cases hf
      · intro hf
        rw [hd] at hf
        cases hf
    next => cases h
  next => cases h

end

end Steps

end Broadcast

end LogicConduit
