import LogicConduit.BroadcastSends

namespace LogicConduit

variable {α : Type}

variable {id : Nat}

namespace Broadcast

section Steps

variable {b b' : Broadcast α}

theorem unlocked_closing (h : b.unlocked = true) : b.closing = none := by
  unfold unlocked at h
  split at h
  · cases h
  · cases h
  · assumption

theorem unlocked_members (h : b.unlocked = true) (subscribers : List (Subscriber α)) (closed : Bool)
    (closing : Option (List (Subscriber α))) :
    members { b with closed := closed, subscribers := subscribers, closing := closing } = subscribers := by
  unfold members
  cases hp : b.producer with
  | broadcasting message visited todo dead blocked =>
    rw [unlocked, hp] at h
    cases h
  | idle => rfl
  | serving blocked => rfl
  | retiring id deadline blocked => rfl

theorem unsubscribe_advance (ho : b.Orderly) (hu : b.unlocked = true) (target : Nat) :
    Advance b { b with subscribers := b.subscribers.filter (·.id ≠ target) }
      (fun id sub => if id = target then sub.leave .unsubscribed else sub) := by
  have hbefore : b.members = b.subscribers := unlocked_members hu b.subscribers b.closed b.closing
  generalize hb' : ({ b with subscribers := b.subscribers.filter (·.id ≠ target) } : Broadcast α) = b'
  have hmembers : b'.members = b.members.filter (·.id ≠ target) := by
    rw [hbefore, ← hb']
    exact unlocked_members hu _ b.closed b.closing
  have hids : b'.memberIds = b.memberIds.filter (· ≠ target) := by
    rw [memberIds, hmembers, memberIds, List.filter_map]
    rfl
  have hprod : b'.producer = b.producer := by rw [← hb']
  have hused : b'.used = b.used := by rw [← hb']
  have hchannels : b'.channels = b.channels := by rw [← hb']
  have hclosing : b'.closingIds = b.closingIds := by rw [← hb']; rfl
  have hcarried : b'.carried = b.carried := by rw [← hb']; rfl
  refine ⟨⟨?_, ?_, ?_, ?_, ?_, ?_⟩, ?_, ?_⟩
  · rw [hids]
    exact ho.nodup.filter _
  · rw [hclosing]
    exact ho.closingNodup
  · intro id hid
    rw [hids] at hid
    rw [hused]
    exact ho.joined id (List.mem_filter.mp hid).1
  · rw [hclosing, hused]
    exact ho.closingJoined
  · rw [hprod, hused]
    exact ho.waitingJoined
  · rw [hprod, hused, hchannels]
    exact ho.producer
  · intro id hb
    refine ⟨?_, ?_, ?_⟩
    · intro s hs
      rw [hmembers] at hs
      exact hb.listed s (List.mem_filter.mp hs).1
    · rw [hprod]
      exact hb.waiting
    · rw [hprod]
      exact hb.retiring
  · intro id _ sub
    have hlane : b'.lane id = { b.lane id with listed := (b.memberIds.filter (· ≠ target)).contains id } := by
      rw [lane, lane, hids, hclosing, hchannels, hcarried]
    rw [hlane]
    by_cases heq : id = target
    · have hout : (b.memberIds.filter (· ≠ target)).contains id = false := by simp [heq]
      rw [hout, if_pos heq]
      exact Lane.Step.unsubscribe _ sub
    · have hin : (b.memberIds.filter (· ≠ target)).contains id = b.memberIds.contains id := by simp [heq]
      rw [hin, if_neg heq]
      exact Lane.Step.stay _ sub

theorem close_advance (ho : b.Orderly) (hu : b.unlocked = true) :
    Advance b { b with closed := true, subscribers := [], closing := some b.subscribers }
      (fun id sub => sub.leave (.closed (streamItems (b.carried id)))) := by
  have hbefore : b.members = b.subscribers := unlocked_members hu b.subscribers b.closed b.closing
  have hnone := unlocked_closing hu
  generalize hb' : ({ b with closed := true, subscribers := [], closing := some b.subscribers } : Broadcast α) = b'
  have hmembers : b'.members = [] := by
    rw [← hb']
    exact unlocked_members hu _ true _
  have hids : b'.memberIds = [] := by
    rw [memberIds, hmembers]
    rfl
  have hprod : b'.producer = b.producer := by rw [← hb']
  have hused : b'.used = b.used := by rw [← hb']
  have hchannels : b'.channels = b.channels := by rw [← hb']
  have hclosing : b'.closingIds = b.memberIds := by
    rw [memberIds, hbefore, ← hb']
    rfl
  have hcarried : b'.carried = b.carried := by rw [← hb']; rfl
  refine ⟨⟨?_, ?_, ?_, ?_, ?_, ?_⟩, ?_, ?_⟩
  · rw [hids]
    exact List.nodup_nil
  · rw [hclosing]
    exact ho.nodup
  · rw [hids]
    exact fun id hid => absurd hid List.not_mem_nil
  · rw [hclosing, hused]
    exact ho.joined
  · rw [hprod, hused]
    exact ho.waitingJoined
  · rw [hprod, hused, hchannels]
    exact ho.producer
  · intro id hb
    refine ⟨?_, ?_, ?_⟩
    · rw [hmembers]
      exact fun s hs => absurd hs List.not_mem_nil
    · rw [hprod]
      exact hb.waiting
    · rw [hprod]
      exact hb.retiring
  · intro id _ sub
    have hopen : (b.lane id).closing = false := by
      rw [lane, closingIds, hnone]
      rfl
    have hlane : b'.lane id = { b.lane id with listed := false, closing := (b.lane id).listed } := by
      rw [lane, lane, hids, hclosing, hchannels, hcarried]
      rfl
    rw [hlane]
    exact Lane.Step.close _ sub hopen

theorem closeNext_advance (ho : b.Orderly) (h : b.step .closeNext = some b') :
    Advance b b' (fun _ sub => sub) := by
  simp only [step] at h
  split at h
  next s todo hc =>
    have hids : b.closingIds = s.id :: todo.map Subscriber.id := by
      rw [closingIds, hc]
      rfl
    have hnodup := ho.closingNodup
    rw [hids, List.nodup_cons] at hnodup
    have halive : ((b.channels s.id).offered .endOfStream).alive = (b.channels s.id).alive := by
      rcases (b.channels s.id).offered_cases .endOfStream with hsent | hkept
      · rw [hsent]
      · rw [hkept]
    cases h
    refine ⟨⟨ho.nodup, hnodup.2, ho.joined, ?_, ho.waitingJoined, ?_⟩,
      fun id hb => ⟨hb.listed, hb.waiting, hb.retiring⟩, ?_⟩
    · intro id hid
      apply ho.closingJoined
      rw [hids]
      exact List.mem_cons_of_mem _ hid
    · apply ho.producer.mono (fun _ hid => hid)
      intro id _ hgone
      exact setChannel_mono (fun hf => halive.trans hf) id hgone
    · intro id _ sub
      have hlane : lane { b.setChannel s.id ((b.channels s.id).offered .endOfStream) with closing := some todo } id =
          { b.lane id with
            channel := (b.setChannel s.id ((b.channels s.id).offered .endOfStream)).channels id
            closing := (todo.map Subscriber.id).contains id } := rfl
      rw [hlane]
      by_cases heq : id = s.id
      · subst heq
        have hopen : (b.lane s.id).closing = true := by
          rw [lane, hids]
          simp
        have hout : (todo.map Subscriber.id).contains s.id = false := by
          apply eq_false_of_ne_true
          intro hin
          exact hnodup.1 (List.contains_iff_mem.mp hin)
        rw [setChannel_self, hout]
        exact Lane.Step.closeNext _ sub hopen
      · have hsame : (todo.map Subscriber.id).contains id = (b.lane id).closing := by
          rw [lane, hids, List.contains_cons]
          simp [heq]
        rw [setChannel_ne _ _ heq, hsame]
        exact Lane.Step.stay _ sub
  next hc =>
    cases h
    have hids : b.closingIds = [] := by
      rw [closingIds, hc]
      rfl
    refine ⟨⟨ho.nodup, List.nodup_nil, ho.joined, fun _ hin => absurd hin List.not_mem_nil, ho.waitingJoined,
      ho.producer⟩,
      fun id hb => ⟨hb.listed, hb.waiting, hb.retiring⟩, ?_⟩
    intro id _ sub
    have hlane : lane { b with closing := none } id = b.lane id := by
      rw [lane, lane, hids]
      rfl
    rw [hlane]
    exact Lane.Step.stay _ sub
  next => cases h

def owedBy (b : Broadcast α) : BroadcastStep α → Nat → Subscription α → Subscription α
  | .send value, _, sub => sub.owe [value]
  | .sendBatch values, _, sub => sub.owe values
  | .unsubscribe target, id, sub => if id = target then sub.leave .unsubscribed else sub
  | .close, id, sub => sub.leave (.closed (streamItems (b.carried id)))
  | _, _, sub => sub

theorem stay_advance (ho : b.Orderly) {owed : Nat → Subscription α → Subscription α}
    (h : ∀ id sub, owed id sub = sub) : Advance b b owed := by
  refine ⟨ho, fun _ hb => hb, ?_⟩
  intro id _ sub
  rw [h]
  exact Lane.Step.stay _ sub

theorem owe_nil (sub : Subscription α) : sub.owe [] = sub := by
  unfold Subscription.owe
  split
  · rw [List.append_nil]
  · rfl

theorem eq_idle {producer : Producer α} (h : producer.isIdle = true) : producer = .idle := by
  cases producer with
  | idle => rfl
  | _ => cases h

theorem step_advance (ho : b.Orderly) {event : BroadcastStep α} (h : b.step event = some b')
    (hs : ∀ id buffer policy, event ≠ .subscribe id buffer policy) : Advance b b' (b.owedBy event) := by
  cases event with
  | send value =>
    simp only [step] at h
    split at h
    · next hready =>
      cases h
      exact sendMessage_advance ho (eq_idle hready.2) (.sample value) (by simp) _
    · cases h
  | sendBatch values =>
    simp only [step] at h
    split at h
    · next hempty =>
      cases h
      rw [List.isEmpty_iff.mp hempty]
      exact stay_advance ho (fun _ sub => owe_nil sub)
    · split at h
      · next hready =>
        cases h
        exact sendMessage_advance ho (eq_idle hready.2) (.batch values) (by simp) _
      · cases h
  | offer => exact offer_advance ho h
  | release => exact release_advance ho h
  | serve => exact serve_advance ho h
  | expire => exact expire_advance ho h
  | retire => exact retire_advance ho h
  | subscribe id buffer policy => exact absurd rfl (hs id buffer policy)
  | unsubscribe id =>
    simp only [step] at h
    split at h
    · next hu =>
      cases h
      exact unsubscribe_advance ho hu id
    · cases h
  | close =>
    simp only [step] at h
    split at h
    · next hu =>
      cases h
      exact close_advance ho hu
    · cases h
  | closeNext => exact closeNext_advance ho h
  | takeDisconnected =>
    simp only [step] at h
    split at h
    · cases h
      exact ⟨⟨ho.nodup, ho.closingNodup, ho.joined, ho.closingJoined, ho.waitingJoined, ho.producer⟩,
        fun _ hb => ⟨hb.listed, hb.waiting, hb.retiring⟩, fun _ _ sub => Lane.Step.stay _ sub⟩
    · cases h
  | receive id => exact receive_advance ho h
  | hangUp id =>
    cases h
    exact hangUp_advance ho id

section Subscribe

variable {new : Nat} (buffer : Nat) (policy : OverflowPolicy)

theorem subscribe_producer : (b.subscribe new buffer policy).producer = b.producer := by
  unfold subscribe
  dsimp only
  split
  · rfl
  · rfl

theorem subscribe_closing : (b.subscribe new buffer policy).closing = b.closing := by
  unfold subscribe
  dsimp only
  split
  · rfl
  · rfl

theorem subscribe_used : (b.subscribe new buffer policy).used = new :: b.used := by
  unfold subscribe
  dsimp only
  split
  · rfl
  · rfl

theorem subscribe_channels : (b.subscribe new buffer policy).channels =
    (b.setChannel new ⟨max buffer 1, if b.closed then [.endOfStream]
      else if b.sticky then b.last.toList.map .sample else [], [], false, true⟩).channels := by
  unfold subscribe
  dsimp only
  split
  · rfl
  · rfl

theorem subscribe_carried : (b.subscribe new buffer policy).carried = b.carried := by
  unfold carried
  rw [subscribe_producer]

theorem subscribe_members (hu : b.unlocked = true) :
    (b.subscribe new buffer policy).members =
      if b.closed then b.members else b.members ++ [⟨new, policy, none⟩] := by
  have hbefore : b.members = b.subscribers := unlocked_members hu b.subscribers b.closed b.closing
  rw [hbefore]
  unfold subscribe
  dsimp only
  split
  · exact unlocked_members hu b.subscribers b.closed b.closing
  · exact unlocked_members hu _ b.closed b.closing

theorem subscribe_memberIds (hu : b.unlocked = true) :
    (b.subscribe new buffer policy).memberIds = if b.closed then b.memberIds else b.memberIds ++ [new] := by
  rw [memberIds, subscribe_members buffer policy hu]
  split
  · rfl
  · rw [List.map_append, memberIds]
    rfl

theorem subscribe_orderly (ho : b.Orderly) (hu : b.unlocked = true) (hn : new ∉ b.used) :
    (b.subscribe new buffer policy).Orderly := by
  have hids : (b.subscribe new buffer policy).memberIds = _ := subscribe_memberIds buffer policy hu
  have hused : (b.subscribe new buffer policy).used = new :: b.used := subscribe_used buffer policy
  have hclosing : (b.subscribe new buffer policy).closingIds = b.closingIds := by
    rw [closingIds, subscribe_closing, closingIds]
  refine ⟨?_, ?_, ?_, ?_, ?_, ?_⟩
  · rw [hids]
    split
    · exact ho.nodup
    · rw [List.nodup_append]
      refine ⟨ho.nodup, List.nodup_cons.mpr ⟨List.not_mem_nil, List.nodup_nil⟩, ?_⟩
      intro id hid other hother heq
      rw [List.mem_singleton.mp hother] at heq
      exact hn (heq ▸ ho.joined id hid)
  · rw [hclosing]
    exact ho.closingNodup
  · rw [hids, hused]
    intro id hid
    split at hid
    · exact List.mem_cons_of_mem _ (ho.joined id hid)
    · rcases List.mem_append.mp hid with hid | hid
      · exact List.mem_cons_of_mem _ (ho.joined id hid)
      · rw [List.mem_singleton.mp hid]
        exact List.mem_cons_self
  · rw [hclosing, hused]
    exact fun id hid => List.mem_cons_of_mem _ (ho.closingJoined id hid)
  · rw [subscribe_producer, hused]
    exact fun send hs => List.mem_cons_of_mem _ (ho.waitingJoined send hs)
  · rw [subscribe_producer, hused, subscribe_channels]
    apply ho.producer.mono (fun _ hid => List.mem_cons_of_mem _ hid)
    intro id hid hgone
    have hne : id ≠ new := fun heq => hn (heq ▸ hid)
    rwa [setChannel_ne _ _ hne]

theorem subscribe_blocks (hu : b.unlocked = true) (hne : id ≠ new) (hb : b.Blocks id) :
    (b.subscribe new buffer policy).Blocks id := by
  refine ⟨?_, ?_, ?_⟩
  · rw [subscribe_members buffer policy hu]
    intro s hs hid
    split at hs
    · exact hb.listed s hs hid
    · rcases List.mem_append.mp hs with hs | hs
      · exact hb.listed s hs hid
      · rw [List.mem_singleton.mp hs] at hid
        exact absurd hid.symm hne
  · rw [subscribe_producer]
    exact hb.waiting
  · rw [subscribe_producer]
    exact hb.retiring

theorem subscribe_lane (hu : b.unlocked = true) (hne : id ≠ new) :
    (b.subscribe new buffer policy).lane id = b.lane id := by
  have hlisted : (b.subscribe new buffer policy).memberIds.contains id = b.memberIds.contains id := by
    rw [subscribe_memberIds buffer policy hu]
    split
    · rfl
    · simp [hne]
  rw [lane, lane, hlisted, subscribe_carried, subscribe_channels, setChannel_ne _ _ hne, closingIds, closingIds,
    subscribe_closing]

theorem subscribe_blocks_new (ho : b.Orderly) (hu : b.unlocked = true) (hn : new ∉ b.used) :
    (b.subscribe new buffer .block).Blocks new := by
  refine ⟨?_, ?_, ?_⟩
  · rw [subscribe_members buffer .block hu]
    intro s hs hid
    have hold : s ∉ b.members := by
      intro hin
      exact hn (hid ▸ ho.joined s.id (List.mem_map.mpr ⟨s, hin, rfl⟩))
    split at hs
    · exact absurd hs hold
    · rcases List.mem_append.mp hs with hs | hs
      · exact absurd hs hold
      · rw [List.mem_singleton.mp hs]
        exact ⟨rfl, rfl⟩
  · rw [subscribe_producer]
    intro send hs hid
    exact absurd (hid ▸ ho.waitingJoined send hs) hn
  · rw [subscribe_producer]
    intro deadline blocked hp
    have hprod := ho.producer
    rw [hp] at hprod
    exact absurd hprod.1 hn

theorem carried_unused (ho : b.Orderly) (hn : new ∉ b.used) (hu : b.unlocked = true) : b.carried new = [] := by
  have hnone : waitingFor new b.producer.waiting = [] := by
    apply waitingFor_nil
    intro send hs heq
    exact hn (heq ▸ ho.waitingJoined send hs)
  cases hp : b.producer with
  | idle => rw [carried, hp]
  | broadcasting message visited todo dead blocked =>
    rw [unlocked, hp] at hu
    cases hu
  | serving blocked =>
    rw [hp] at hnone
    rw [carried, hp]
    exact hnone
  | retiring id deadline blocked =>
    rw [hp] at hnone
    rw [carried, hp]
    exact hnone

/-- A subscription starts with what it is owed: the value that primes it, or the end of a closed list. -/
theorem subscribe_settles (ho : b.Orderly) (hu : b.unlocked = true) (hn : new ∉ b.used) :
    ((b.subscribe new buffer policy).lane new).Settles
      (if b.closed then ⟨policy, [], .closed []⟩
        else ⟨policy, if b.sticky then b.last.toList else [], .member⟩) := by
  have hlane : (b.subscribe new buffer policy).lane new =
      ⟨⟨max buffer 1, if b.closed then [.endOfStream] else if b.sticky then b.last.toList.map .sample else [], [],
        false, true⟩, !b.closed, false, []⟩ := by
    have hlisted : (b.subscribe new buffer policy).memberIds.contains new = !b.closed := by
      rw [subscribe_memberIds buffer policy hu]
      have hold : new ∉ b.memberIds := fun hin => hn (ho.joined new hin)
      cases b.closed with
      | true => simpa using hold
      | false => simp
    rw [lane, hlisted, subscribe_carried, subscribe_channels, setChannel_self, carried_unused ho hn hu, closingIds,
      subscribe_closing, unlocked_closing hu]
    rfl
  have never {p : Prop} (hfalse : false = true) : p := absurd hfalse Bool.false_ne_true
  have hempty : ∀ message ∈ ([] : List (ChannelMessage α)), message ≠ .endOfStream := by simp
  rw [hlane]
  cases b.closed with
  | true =>
    refine ⟨List.prefix_rfl, never, fun _ => never, never, hempty, Nat.zero_le 1, fun _ => ⟨rfl, rfl⟩, ?_, ?_, never,
      fun _ _ => never⟩
    · intro _ _ hno
      exact absurd List.mem_cons_self hno
    · intro _ _ _
      exact ⟨[], rfl, Or.inl rfl⟩
  | false =>
    have hno : .endOfStream ∉ (if b.sticky then b.last.toList.map .sample else [] : List (ChannelMessage α)) := by
      split
      · simp
      · exact List.not_mem_nil
    refine ⟨List.nil_prefix, fun _ => rfl, fun _ _ => rfl, never, hempty, Nat.zero_le 1, fun hin => absurd hin hno,
      ?_, fun _ _ hin => absurd hin hno, never, fun _ _ => never⟩
    intro _ _ _
    cases b.sticky with
    | false => rfl
    | true =>
      cases b.last with
      | none => rfl
      | some value => rfl

end Subscribe

end Steps

end Broadcast

/-- The value that a step leaves to prime later subscribers with. -/
def BroadcastStep.lastSent : BroadcastStep α → Option α
  | .send value => some value
  | .sendBatch values => values.getLast?
  | _ => none

def BroadcastStep.closes : BroadcastStep α → Bool
  | .close => true
  | _ => false

namespace Broadcast

/-- What only sends and `close` change. -/
structure Keeps (b b' : Broadcast α) : Prop where
  sticky : b'.sticky = b.sticky
  last : b'.last = b.last
  closed : b'.closed = b.closed

section Keeps

variable {b b' : Broadcast α}

theorem retryPending_keeps (message : ChannelMessage α) (visited : List (Subscriber α)) (s : Subscriber α) (value : α)
    (todo : List (Subscriber α)) (dead : List Nat) (blocked : List (BlockedSend α)) :
    Keeps b (b.retryPending message visited s value todo dead blocked) := by
  rw [retryPending]
  dsimp only
  split
  · exact ⟨rfl, rfl, rfl⟩
  · exact ⟨rfl, rfl, rfl⟩
  · exact ⟨rfl, rfl, rfl⟩

theorem offerTo_keeps (message : ChannelMessage α) (visited : List (Subscriber α)) (s : Subscriber α)
    (todo : List (Subscriber α)) (dead : List Nat) (blocked : List (BlockedSend α)) :
    Keeps b (b.offerTo message visited s todo dead blocked) := by
  rw [offerTo]
  dsimp only
  split
  · exact ⟨rfl, rfl, rfl⟩
  · split
    · exact ⟨rfl, rfl, rfl⟩
    · exact ⟨rfl, rfl, rfl⟩
    · exact ⟨rfl, rfl, rfl⟩
  · exact ⟨rfl, rfl, rfl⟩

theorem offer_keeps (h : b.step .offer = some b') : Keeps b b' := by
  simp only [step] at h
  split at h
  · split at h
    · cases h
      exact retryPending_keeps _ _ _ _ _ _ _
    · cases h
      exact offerTo_keeps _ _ _ _ _ _
  · cases h

theorem serve_keeps (h : b.step .serve = some b') : Keeps b b' := by
  simp only [step] at h
  split at h
  · split at h
    · cases h
      exact ⟨rfl, rfl, rfl⟩
    · cases h
    · cases h
      exact ⟨rfl, rfl, rfl⟩
  · cases h

theorem expire_keeps (h : b.step .expire = some b') : Keeps b b' := by
  simp only [step] at h
  split at h
  · split at h
    · cases h
      exact ⟨rfl, rfl, rfl⟩
    · cases h
  · cases h

theorem retire_keeps (h : b.step .retire = some b') : Keeps b b' := by
  simp only [step] at h
  split at h
  · split at h
    · cases h
      exact ⟨rfl, rfl, rfl⟩
    · cases h
  · cases h

theorem subscribe_keeps (new buffer : Nat) (policy : OverflowPolicy) : Keeps b (b.subscribe new buffer policy) := by
  unfold subscribe
  dsimp only
  split
  · exact ⟨rfl, rfl, rfl⟩
  · exact ⟨rfl, rfl, rfl⟩

theorem closeNext_keeps (h : b.step .closeNext = some b') : Keeps b b' := by
  simp only [step] at h
  split at h
  · cases h
    exact ⟨rfl, rfl, rfl⟩
  · cases h
    exact ⟨rfl, rfl, rfl⟩
  · cases h

theorem Keeps.fields (hk : Keeps b b') {event : BroadcastStep α} (hsent : event.lastSent = none)
    (hcloses : event.closes = false) :
    b'.sticky = b.sticky ∧ b'.last = (if b.sticky then event.lastSent.or b.last else b.last) ∧
      b'.closed = (event.closes || b.closed) := by
  rw [hsent, hcloses, Option.none_or, ite_self]
  exact ⟨hk.sticky, hk.last, hk.closed⟩

theorem step_fields {event : BroadcastStep α} (h : b.step event = some b') :
    b'.sticky = b.sticky ∧ b'.last = (if b.sticky then event.lastSent.or b.last else b.last) ∧
      b'.closed = (event.closes || b.closed) := by
  cases event with
  | send value =>
    simp only [step] at h
    split at h
    · cases h
      exact ⟨rfl, rfl, rfl⟩
    · cases h
  | sendBatch values =>
    simp only [step] at h
    split at h
    · next hempty =>
      cases h
      rw [List.isEmpty_iff.mp hempty]
      exact Keeps.fields ⟨rfl, rfl, rfl⟩ rfl rfl
    · split at h
      · cases h
        exact ⟨rfl, rfl, rfl⟩
      · cases h
  | close =>
    simp only [step] at h
    split at h
    · cases h
      exact ⟨rfl, (ite_self _).symm, rfl⟩
    · cases h
  | offer => exact (offer_keeps h).fields rfl rfl
  | release =>
    simp only [step] at h
    split at h
    · cases h
      exact Keeps.fields ⟨rfl, rfl, rfl⟩ rfl rfl
    · cases h
  | serve => exact (serve_keeps h).fields rfl rfl
  | expire => exact (expire_keeps h).fields rfl rfl
  | retire => exact (retire_keeps h).fields rfl rfl
  | subscribe id buffer policy =>
    simp only [step] at h
    split at h
    · cases h
      exact (subscribe_keeps id buffer policy).fields rfl rfl
    · cases h
  | unsubscribe id =>
    simp only [step] at h
    split at h
    · cases h
      exact Keeps.fields ⟨rfl, rfl, rfl⟩ rfl rfl
    · cases h
  | closeNext => exact (closeNext_keeps h).fields rfl rfl
  | takeDisconnected =>
    simp only [step] at h
    split at h
    · cases h
      exact Keeps.fields ⟨rfl, rfl, rfl⟩ rfl rfl
    · cases h
  | receive id =>
    simp only [step, Option.map_eq_some_iff] at h
    obtain ⟨channel, -, rfl⟩ := h
    exact Keeps.fields ⟨rfl, rfl, rfl⟩ rfl rfl
  | hangUp id =>
    cases h
    exact Keeps.fields ⟨rfl, rfl, rfl⟩ rfl rfl

end Keeps

end Broadcast

structure Audited (sticky : Bool) (b : Broadcast α) (ledger : Ledger α) : Prop where
  orderly : b.Orderly
  primes : b.sticky = sticky
  last : sticky = true → b.last = ledger.last
  closed : b.closed = ledger.closed
  lanes : ∀ id sub, ledger.entries id = some sub → sub.policy = .block → b.Blocks id ∧ (b.lane id).Settles sub

namespace Ledger

variable (sticky : Bool) (b : Broadcast α) (ledger : Ledger α)

theorem record_last (event : BroadcastStep α) :
    (ledger.record sticky b event).last = event.lastSent.or ledger.last := by
  cases event with
  | _ => rfl

theorem record_closed (event : BroadcastStep α) :
    (ledger.record sticky b event).closed = (event.closes || ledger.closed) := by
  cases event with
  | _ => rfl

theorem record_entries {event : BroadcastStep α} (hs : ∀ id buffer policy, event ≠ .subscribe id buffer policy)
    (id : Nat) : (ledger.record sticky b event).entries id = (ledger.entries id).map (b.owedBy event id) := by
  have hid : ∀ entry : Option (Subscription α), entry = entry.map fun sub => sub := fun entry => entry.map_id'.symm
  cases event with
  | subscribe new buffer policy => exact absurd rfl (hs new buffer policy)
  | unsubscribe target =>
    show (if id = target then (ledger.entries id).map (Subscription.leave .unsubscribed) else ledger.entries id) = _
    by_cases heq : id = target
    · rw [if_pos heq]
      congr 1
      funext sub
      exact (if_pos heq).symm
    · rw [if_neg heq]
      refine (hid _).trans ?_
      congr 1
      funext sub
      exact (if_neg heq).symm
  | send value => rfl
  | sendBatch values => rfl
  | close => rfl
  | _ => exact hid _

end Ledger

theorem owedBy_policy (b : Broadcast α) (event : BroadcastStep α) (id : Nat) (sub : Subscription α) :
    (b.owedBy event id sub).policy = sub.policy := by
  have howe : ∀ items, (sub.owe items).policy = sub.policy := by
    intro items
    unfold Subscription.owe
    split
    · rfl
    · rfl
  have hleave : ∀ membership, (sub.leave membership).policy = sub.policy := by
    intro membership
    unfold Subscription.leave
    split
    · rfl
    · rfl
  cases event with
  | send value => exact howe _
  | sendBatch values => exact howe _
  | unsubscribe target =>
    show (if id = target then sub.leave .unsubscribed else sub).policy = sub.policy
    split
    · exact hleave _
    · rfl
  | close => exact hleave _
  | _ => rfl

namespace Audited

variable {sticky : Bool} {b b' : Broadcast α} {ledger ledger' : Ledger α} {sub : Subscription α}

theorem start (sticky : Bool) : Audited sticky (.new sticky : Broadcast α) .empty :=
  ⟨⟨List.nodup_nil, List.nodup_nil, nofun, nofun, nofun, trivial⟩, rfl, fun _ => rfl, rfl, nofun⟩

theorem subscribed (h : Audited sticky b ledger) (hu : b.unlocked = true) {new : Nat} (hn : new ∉ b.used) (buffer : Nat)
    (policy : OverflowPolicy)
    (he : (ledger.record sticky b (.subscribe new buffer policy)).entries id = some sub) (hp : sub.policy = .block) :
    (b.subscribe new buffer policy).Blocks id ∧ ((b.subscribe new buffer policy).lane id).Settles sub := by
  by_cases heq : id = new
  · subst heq
    have hsub : (if ledger.closed then ⟨policy, [], .closed []⟩
        else ⟨policy, if sticky then ledger.last.toList else [], .member⟩ : Subscription α) = sub := by
      have hentry := (if_pos rfl).symm.trans he
      exact Option.some.inj hentry
    have hpolicy : policy = .block := by
      rw [← hp, ← hsub]
      split
      · rfl
      · rfl
    have hsettles := Broadcast.subscribe_settles buffer policy h.orderly hu hn
    have howed : (if b.closed then ⟨policy, [], .closed []⟩
        else ⟨policy, if b.sticky then b.last.toList else [], .member⟩ : Subscription α) = sub := by
      rw [← hsub, h.closed, h.primes]
      cases hst : sticky with
      | true => rw [h.last hst]
      | false => rfl
    rw [howed] at hsettles
    refine ⟨?_, hsettles⟩
    rw [hpolicy]
    exact Broadcast.subscribe_blocks_new buffer h.orderly hu hn
  · have hold : ledger.entries id = some sub := (if_neg heq).symm.trans he
    obtain ⟨hblocks, hsettles⟩ := h.lanes id sub hold hp
    refine ⟨Broadcast.subscribe_blocks buffer policy hu heq hblocks, ?_⟩
    rw [Broadcast.subscribe_lane buffer policy hu heq]
    exact hsettles

theorem step (h : Audited sticky b ledger) {event : BroadcastStep α} (hs : b.step event = some b') :
    Audited sticky b' (ledger.record sticky b event) := by
  obtain ⟨hsticky, hlast, hclosed⟩ := Broadcast.step_fields hs
  have hlast' : sticky = true → b'.last = (ledger.record sticky b event).last := by
    intro hst
    rw [hlast, Ledger.record_last, h.primes, if_pos hst, h.last hst]
  have hclosed' : b'.closed = (ledger.record sticky b event).closed := by
    rw [hclosed, Ledger.record_closed, h.closed]
  by_cases hsub : ∃ id buffer policy, event = .subscribe id buffer policy
  · obtain ⟨new, buffer, policy, rfl⟩ := hsub
    simp only [Broadcast.step] at hs
    split at hs
    · next hready =>
      cases hs
      exact ⟨Broadcast.subscribe_orderly buffer policy h.orderly hready.1 hready.2, hsticky.trans h.primes, hlast',
        hclosed', fun id sub he hp => h.subscribed hready.1 hready.2 buffer policy he hp⟩
    · cases hs
  · have hne : ∀ id buffer policy, event ≠ .subscribe id buffer policy :=
      fun id buffer policy heq => hsub ⟨id, buffer, policy, heq⟩
    have hadvance := Broadcast.step_advance h.orderly hs hne
    refine ⟨hadvance.orderly, hsticky.trans h.primes, hlast', hclosed', ?_⟩
    intro id sub he hp
    rw [Ledger.record_entries sticky b ledger hne, Option.map_eq_some_iff] at he
    obtain ⟨before, hbefore, rfl⟩ := he
    rw [owedBy_policy] at hp
    obtain ⟨hblocks, hsettles⟩ := h.lanes id before hbefore hp
    exact ⟨hadvance.blocks id hblocks, hsettles.step (hadvance.lanes id hblocks before)⟩

theorem play (steps : List (BroadcastStep α)) (h : Audited sticky b ledger)
    (hplay : playBroadcast sticky steps (b, ledger) = some (b', ledger')) : Audited sticky b' ledger' := by
  induction steps generalizing b ledger with
  | nil =>
    cases hplay
    exact h
  | cons event steps ih =>
    rw [playBroadcast, Option.bind_eq_some_iff] at hplay
    obtain ⟨next, hnext, hrest⟩ := hplay
    exact ih (h.step hnext) hrest

theorem delivers (h : Audited sticky b ledger) (hs : ledger.entries id = some sub)
    (hp : sub.policy = .block) : Delivers b id sub := by
  obtain ⟨-, hsettles⟩ := h.lanes id sub hs hp
  refine ⟨hsettles.ordered, ?_, hsettles.ended, ?_⟩
  · intro ha he
    by_cases hq : .endOfStream ∈ (b.channels id).queue
    · obtain ⟨cut, heq, hmiss⟩ := hsettles.cut ha he hq
      refine ⟨cut, ?_, hmiss⟩
      rw [streamItems_append_of_mem hq]
      exact heq
    · refine ⟨[], ?_, Or.inl rfl⟩
      rw [List.append_nil]
      exact hsettles.whole ha he hq
  · intro ha he htaken
    rw [Broadcast.taken, if_pos (by rw [ha, he]; rfl)] at htaken
    split at htaken
    · cases htaken
    · cases htaken
    · next hq =>
      refine ⟨hq, ?_⟩
      split at htaken
      · next hconnected =>
        rw [Broadcast.connected, Bool.or_eq_true, Bool.or_eq_true] at hconnected
        rcases hconnected with (hlisted | hclosing) | hcarried
        · exact Or.inl (hsettles.listed hlisted)
        · exact Or.inr (Or.inr (List.contains_iff_mem.mp hclosing))
        · refine Or.inr (Or.inl ?_)
          intro hnil
          rw [hnil] at hcarried
          cases hcarried
      · cases htaken

end Audited

/-- In every run of one producer with any threads that subscribe, unsubscribe and close, every subscriber that
blocks the producer is delivered what it is owed. -/
theorem broadcast_is_lossless (sticky : Bool) (steps : List (BroadcastStep α)) (b : Broadcast α) (ledger : Ledger α)
    (h : playBroadcast sticky steps (.new sticky, .empty) = some (b, ledger)) (id : Nat) (sub : Subscription α)
    (hs : ledger.entries id = some sub) (hp : sub.policy = .block) : Delivers b id sub :=
  ((Audited.start sticky).play steps h).delivers hs hp

def primedJoin : List (BroadcastStep Nat) :=
  [.send 5, .release, .subscribe 1 1 .block, .send 6, .offer, .release, .receive 1, .serve, .receive 1, .close,
    .closeNext, .closeNext, .receive 1]

theorem broadcast_is_lossless_primedJoin :
    ∃ b ledger sub, playBroadcast true primedJoin (.new true, .empty) = some (b, ledger) ∧
      ledger.entries 1 = some sub ∧ sub.stream = [5, 6] ∧ (b.channels 1).received = [5, 6] ∧
      (b.channels 1).ended = true ∧ Delivers b 1 sub :=
  ⟨_, _, _, rfl, rfl, rfl, rfl, rfl, broadcast_is_lossless true primedJoin _ _ rfl 1 _ rfl rfl⟩

/-- The values whose send returned while `id` was in the list. -/
def completedWhileMember (id : Nat) : List α → List (BroadcastStep α) → Broadcast α → List α
  | _, [], _ => []
  | sending, event :: steps, b =>
    match b.step event with
    | none => []
    | some next =>
      let sending := match event with
        | .send value => [value]
        | .sendBatch values => values
        | _ => sending
      if next.producer.isIdle then
        (if b.memberIds.contains id then sending else []) ++ completedWhileMember id [] steps next
      else completedWhileMember id sending steps next

/-- A subscriber joins while a send waits for another one, and leaves after the send returned. -/
def blockedJoin : List (BroadcastStep Nat) :=
  [.subscribe 1 1 .block, .send 5, .offer, .release, .send 6, .offer, .release, .subscribe 2 1 .block, .receive 1,
    .serve, .unsubscribe 2, .receive 2]

def lateJoin : List (BroadcastStep Nat) := [.send 5, .release, .close, .closeNext, .subscribe 1 1 .block, .receive 1]

theorem completed_send_can_miss_subscriber :
    (∃ b ledger, playBroadcast false blockedJoin (.new false, .empty) = some (b, ledger) ∧
      (b.channels 2).received = [] ∧ (b.channels 2).ended = true) ∧
    completedWhileMember 2 [] blockedJoin (.new false) = [6] ∧
    ∃ b ledger, playBroadcast true lateJoin (.new true, .empty) = some (b, ledger) ∧ b.last = some 5 ∧
      (b.channels 1).received = [] ∧ (b.channels 1).ended = true :=
  ⟨⟨_, _, rfl, rfl, rfl⟩, rfl, _, _, rfl, rfl, rfl, rfl⟩

end LogicConduit
