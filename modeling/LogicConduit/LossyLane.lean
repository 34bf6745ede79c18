import LogicConduit.BroadcastLedger

namespace LogicConduit

variable {α : Type}

/-- What a broadcast holds of a lossy subscription. `entry` is what its entry in the list keeps pending. -/
structure LossyLane (α : Type) where
  channel : Channel α
  entry : Option (Option α)
  closing : Bool
  carried : List (ChannelMessage α)

namespace LossyLane

def listed (lane : LossyLane α) : Bool := lane.entry.isSome

def pending (lane : LossyLane α) : List α := lane.entry.join.toList

/-- The values that are queued, pending or still to be offered. -/
def underway (lane : LossyLane α) : List α :=
  streamItems lane.channel.queue ++ lane.pending ++ streamItems lane.carried

/-- The values that the consumer has or can still get. -/
def kept (lane : LossyLane α) : List α :=
  lane.channel.received ++ if lane.channel.ended then [] else lane.underway

/-- The steps of one lossy subscription whose consumer stays, with the values that each adds to what it is owed. -/
inductive Step : LossyLane α → List α → LossyLane α → Prop
  | stay (lane : LossyLane α) : Step lane [] lane
  | send (lane : LossyLane α) (message : ChannelMessage α) (filled : message.items ≠ []) (free : lane.carried = []) :
      Step lane (if lane.listed then message.items else [])
        { lane with carried := if lane.listed then [message] else [] }
  /-- The pending value fits at last. -/
  | retry (lane : LossyLane α) (value : α) (message : ChannelMessage α) (waits : lane.entry = some (some value))
      (carries : lane.carried = [message]) :
      Step lane [] { lane with
        channel := { lane.channel with queue := lane.channel.queue ++ [.sample value] }, entry := some none }
  /-- The pending value gives way to the message that comes. -/
  | supersede (lane : LossyLane α) (value : α) (message : ChannelMessage α) (waits : lane.entry = some (some value))
      (carries : lane.carried = [message]) : Step lane [] { lane with entry := some none }
  | push (lane : LossyLane α) (message : ChannelMessage α) (vacant : lane.entry = some none)
      (carries : lane.carried = [message]) :
      Step lane [] { lane with
        channel := { lane.channel with queue := lane.channel.queue ++ [message] }, carried := [] }
  /-- A message that does not fit leaves its last value pending. -/
  | hold (lane : LossyLane α) (message : ChannelMessage α) (vacant : lane.entry = some none)
      (carries : lane.carried = [message]) :
      Step lane [] { lane with entry := some message.items.getLast?, carried := [] }
  | closeNext (lane : LossyLane α) (closes : lane.closing = true) :
      Step lane [] { lane with channel := lane.channel.offered .endOfStream, closing := false }
  | take (lane : LossyLane α) (message : ChannelMessage α) (queue : List (ChannelMessage α))
      (content : message ≠ .endOfStream) (front : lane.channel.queue = message :: queue)
      (running : lane.channel.ended = false) :
      Step lane [] { lane with
        channel := { lane.channel with queue := queue, received := lane.channel.received ++ message.items } }
  | takeEnd (lane : LossyLane α) (queue : List (ChannelMessage α)) (front : lane.channel.queue = .endOfStream :: queue) :
      Step lane [] { lane with channel := { lane.channel with queue := queue, ended := true } }
  | disconnected (lane : LossyLane α) (empty : lane.channel.queue = []) (unlisted : lane.listed = false)
      (closed : lane.closing = false) (free : lane.carried = []) :
      Step lane [] { lane with channel := { lane.channel with ended := true } }

def closed (lane : LossyLane α) : LossyLane α := { lane with entry := none, closing := lane.listed }

/-- What holds of every lossy lane whose consumer stays. -/
structure Sound (lane : LossyLane α) : Prop where
  filled : ∀ message ∈ lane.carried, message.items ≠ []
  member : lane.carried ≠ [] → lane.listed = true
  exclusive : lane.closing = true → lane.listed = false
  marked : .endOfStream ∈ lane.channel.queue → lane.listed = false ∧ lane.closing = false
  ended : lane.channel.ended = true → lane.listed = false ∧ lane.closing = false

section Steps

variable {lane lane' : LossyLane α} {items : List α} {message : ChannelMessage α} {kept kept' : List α}

theorem listed_of_entry {pending : Option α} (found : lane.entry = some pending) : lane.listed = true := by
  rw [listed, found]
  rfl

theorem streamItems_single (filled : message.items ≠ []) : streamItems [message] = message.items := by
  have content : message ≠ .endOfStream := fun ends => filled (by rw [ends]; rfl)
  rw [streamItems_cons content]
  exact List.append_nil _

theorem Sound.running (sound : lane.Sound) (listed : lane.listed = true) :
    lane.channel.ended = false ∧ .endOfStream ∉ lane.channel.queue ∧ lane.closing = false := by
  have unlisted : lane.listed = false → False := fun unlisted => by
    rw [listed] at unlisted
    cases unlisted
  refine ⟨eq_false_of_ne_true fun ended => unlisted (sound.ended ended).1, fun marked => ?_,
    eq_false_of_ne_true fun closes => unlisted (sound.exclusive closes)⟩
  exact unlisted (sound.marked marked).1

theorem Sound.of_listed (filled : ∀ message ∈ lane.carried, message.items ≠ []) (listed : lane.listed = true)
    (running : lane.channel.ended = false) (unmarked : .endOfStream ∉ lane.channel.queue)
    (unclosed : lane.closing = false) : lane.Sound := by
  refine ⟨filled, fun _ => listed, fun closes => ?_, fun marked => absurd marked unmarked, fun ended => ?_⟩
  · rw [unclosed] at closes
    cases closes
  · rw [running] at ended
    cases ended

theorem Sound.free (sound : lane.Sound) (unlisted : lane.listed = false) : lane.carried = [] := by
  by_contra carries
  rw [sound.member carries] at unlisted
  cases unlisted

theorem not_marked_append {queue : List (ChannelMessage α)} (unmarked : .endOfStream ∉ queue)
    (content : message ≠ .endOfStream) : .endOfStream ∉ queue ++ [message] := by
  intro marked
  rcases List.mem_append.mp marked with marked | marked
  · exact unmarked marked
  · exact content (List.mem_singleton.mp marked).symm

theorem Sound.content (sound : lane.Sound) (carries : lane.carried = [message]) :
    message.items ≠ [] ∧ message ≠ .endOfStream := by
  have filled := sound.filled message (by rw [carries]; exact List.mem_cons_self)
  exact ⟨filled, fun ends => filled (by rw [ends]; rfl)⟩

theorem offered_end (channel : Channel α) (unmarked : .endOfStream ∉ channel.queue) :
    streamItems (channel.offered .endOfStream).queue = streamItems channel.queue ∧
      (channel.offered .endOfStream).received = channel.received ∧
      (channel.offered .endOfStream).ended = channel.ended := by
  rcases channel.offered_cases .endOfStream with sent | same
  · rw [sent]
    refine ⟨?_, rfl, rfl⟩
    rw [streamItems_append unmarked]
    exact List.append_nil _
  · rw [same]
    exact ⟨rfl, rfl, rfl⟩

theorem Step.sound (step : lane.Step items lane') (sound : lane.Sound) : lane'.Sound := by
  cases step with
  | stay => exact sound
  | send message filled free =>
    refine ⟨?_, ?_, sound.exclusive, sound.marked, sound.ended⟩
    · intro other mem
      dsimp only at mem
      split at mem
      · rw [List.mem_singleton.mp mem]
        exact filled
      · cases mem
    · intro carries
      dsimp only at carries
      split at carries
      · assumption
      · exact absurd rfl carries
  | retry value message waits carries =>
    obtain ⟨running, unmarked, unclosed⟩ := sound.running (listed_of_entry waits)
    exact .of_listed sound.filled rfl running (not_marked_append unmarked nofun) unclosed
  | supersede value message waits carries =>
    obtain ⟨running, unmarked, unclosed⟩ := sound.running (listed_of_entry waits)
    exact .of_listed sound.filled rfl running unmarked unclosed
  | push message vacant carries =>
    have listed := listed_of_entry vacant
    obtain ⟨running, unmarked, unclosed⟩ := sound.running listed
    exact .of_listed nofun listed running (not_marked_append unmarked (sound.content carries).2) unclosed
  | hold message vacant carries =>
    obtain ⟨running, unmarked, unclosed⟩ := sound.running (listed_of_entry vacant)
    exact .of_listed nofun rfl running unmarked unclosed
  | closeNext closes =>
    have unlisted := sound.exclusive closes
    exact ⟨sound.filled, sound.member, fun _ => unlisted, fun _ => ⟨unlisted, rfl⟩, fun _ => ⟨unlisted, rfl⟩⟩
  | take message queue content front running =>
    refine ⟨sound.filled, sound.member, sound.exclusive, fun marked => ?_, sound.ended⟩
    apply sound.marked
    rw [front]
    exact List.mem_cons_of_mem _ marked
  | takeEnd queue front =>
    have marked : ChannelMessage.endOfStream ∈ lane.channel.queue := by
      rw [front]
      exact List.mem_cons_self
    exact ⟨sound.filled, sound.member, sound.exclusive, fun _ => sound.marked marked, fun _ => sound.marked marked⟩
  | disconnected empty unlisted closed free =>
    exact ⟨sound.filled, sound.member, sound.exclusive, fun _ => ⟨unlisted, closed⟩, fun _ => ⟨unlisted, closed⟩⟩

theorem Sound.closed (sound : lane.Sound) (free : lane.carried = []) : lane.closed.Sound := by
  refine ⟨sound.filled, fun carries => absurd free carries, fun _ => rfl, fun marked => ⟨rfl, (sound.marked marked).1⟩,
    fun ended => ⟨rfl, (sound.ended ended).1⟩⟩

/-- Only `close` takes a subscription whose consumer stays out of the list. -/
theorem Step.listed (step : lane.Step items lane') : lane'.listed = lane.listed := by
  cases step with
  | retry value message waits carries => exact (listed_of_entry waits).symm
  | supersede value message waits carries => exact (listed_of_entry waits).symm
  | hold message vacant carries => exact (listed_of_entry vacant).symm
  | _ => rfl

theorem kept_running (running : lane.channel.ended = false) : lane.kept = lane.channel.received ++ lane.underway := by
  rw [kept, running]
  rfl

theorem kept_ended (ended : lane.channel.ended = true) : lane.kept = lane.channel.received := by
  rw [kept, ended]
  exact List.append_nil _

theorem pending_unlisted (unlisted : lane.listed = false) : lane.pending = [] := by
  have gone : lane.entry = none := by simpa [listed] using unlisted
  rw [pending, gone]
  rfl

theorem getLast?_toList_sublist (values : List α) :
    values.getLast?.toList.Sublist values ∧ values.getLast?.toList.getLast? = values.getLast? := by
  rcases List.eq_nil_or_concat values with rfl | ⟨front, last, rfl⟩
  · exact ⟨List.Sublist.refl _, rfl⟩
  · rw [List.concat_eq_append, List.getLast?_append, List.getLast?_singleton]
    exact ⟨List.sublist_append_right front [last], rfl⟩

theorem getLast?_append_congr {first other last last' : List α} (filled : last ≠ [])
    (same : last.getLast? = last'.getLast?) : (first ++ last).getLast? = (other ++ last').getLast? := by
  have found := List.getLast?_eq_some_getLast filled
  rw [List.getLast?_append, List.getLast?_append, ← same, found]
  rfl

/-- The values kept behind a step, beside those kept before it and those that it adds. -/
structure Follows (kept items kept' : List α) : Prop where
  ordered : kept'.Sublist (kept ++ items)
  latest : kept'.getLast? = (kept ++ items).getLast?

theorem Follows.of_eq (same : kept' = kept ++ items) : Follows kept items kept' :=
  ⟨same ▸ List.Sublist.refl _, same ▸ rfl⟩

theorem Follows.of_same (same : kept' = kept) : Follows kept [] kept' :=
  .of_eq (same.trans (List.append_nil _).symm)

theorem Follows.of_part (part : kept'.Sublist kept)
    (latest : kept'.getLast? = kept.getLast?) : Follows kept [] kept' := by
  rw [← List.append_nil kept] at part latest
  exact ⟨part, latest⟩

/-- A step keeps what was on its way and adds what is owed, but for values that a later one replaces; the latest
value stays the last one. -/
theorem Step.follows (step : lane.Step items lane') (sound : lane.Sound) :
    Follows lane.kept items lane'.kept := by
  cases step with
  | stay => exact .of_same rfl
  | send message filled free =>
    by_cases listed : lane.listed = true
    · have running := (sound.running listed).1
      apply Follows.of_eq
      rw [kept_running running, kept_running (by exact running)]
      simp only [underway, free, if_pos listed, streamItems_single filled]
      simp [streamItems, pending]
    · apply Follows.of_eq
      simp only [kept, underway, pending, free, if_neg listed, List.append_nil]
  | retry value message waits carries =>
    obtain ⟨running, unmarked, -⟩ := sound.running (listed_of_entry waits)
    apply Follows.of_same
    rw [kept_running running, kept_running (by exact running)]
    simp only [underway, pending, waits]
    rw [streamItems_append unmarked]
    simp [streamItems]
  | supersede value message waits carries =>
    obtain ⟨running, -⟩ := sound.running (listed_of_entry waits)
    have filled := (sound.content carries).1
    rw [kept_running running, kept_running (by exact running)]
    simp only [underway, pending, waits, carries, streamItems_single filled]
    apply Follows.of_part
    · refine (List.Sublist.refl _).append (List.Sublist.append ?_ (List.Sublist.refl _))
      exact (List.Sublist.refl _).append (List.nil_sublist _)
    · simp only [← List.append_assoc]
      exact getLast?_append_congr filled rfl
  | push message vacant carries =>
    obtain ⟨running, unmarked, -⟩ := sound.running (listed_of_entry vacant)
    apply Follows.of_same
    rw [kept_running running, kept_running (by exact running)]
    simp only [underway, pending, vacant, carries, streamItems_append unmarked]
    simp [streamItems]
  | hold message vacant carries =>
    obtain ⟨running, -⟩ := sound.running (listed_of_entry vacant)
    have filled := (sound.content carries).1
    obtain ⟨part, last⟩ := getLast?_toList_sublist message.items
    rw [kept_running running, kept_running (by exact running)]
    simp only [underway, pending, vacant, carries, streamItems_single filled, Option.join_some, Option.toList_none,
      streamItems, List.append_nil]
    refine .of_part ((List.Sublist.refl _).append ((List.Sublist.refl _).append part)) ?_
    rw [← List.append_assoc, ← List.append_assoc]
    exact (getLast?_append_congr filled last.symm).symm
  | closeNext closes =>
    have unlisted := sound.exclusive closes
    have unmarked : ChannelMessage.endOfStream ∉ lane.channel.queue := fun marked => by
      rw [(sound.marked marked).2] at closes
      cases closes
    obtain ⟨queue, received, ended⟩ := offered_end lane.channel unmarked
    apply Follows.of_same
    simp only [kept, underway, queue, received, ended]
    rfl
  | take message queue content front running =>
    apply Follows.of_same
    rw [kept_running running, kept_running (by exact running)]
    simp only [underway, front, streamItems_cons content]
    simp [pending]
  | takeEnd queue front =>
    have marked : ChannelMessage.endOfStream ∈ lane.channel.queue := by
      rw [front]
      exact List.mem_cons_self
    have unlisted := (sound.marked marked).1
    apply Follows.of_same
    rw [kept_ended rfl]
    simp [kept, underway, front, streamItems, pending_unlisted unlisted, sound.free unlisted]
  | disconnected empty unlisted closed free =>
    apply Follows.of_same
    rw [kept_ended rfl]
    simp [kept, underway, empty, streamItems, pending_unlisted unlisted, free]

theorem closed_kept (free : lane.carried = []) :
    lane.closed.kept.Sublist lane.kept ∧ (lane.pending = [] → lane.closed.kept = lane.kept) := by
  cases ended : lane.channel.ended with
  | true =>
    have same : lane.closed.kept = lane.kept := by rw [kept_ended ended, kept_ended (by exact ended), closed]
    exact ⟨same ▸ List.Sublist.refl _, fun _ => same⟩
  | false =>
    have after : lane.closed.kept = lane.channel.received ++ streamItems lane.channel.queue := by
      rw [kept_running (by exact ended)]
      simp [closed, underway, pending, free, streamItems]
    have before : lane.kept = lane.channel.received ++ (streamItems lane.channel.queue ++ lane.pending) := by
      rw [kept_running ended, underway, free]
      simp [streamItems]
    rw [after, before]
    refine ⟨(List.Sublist.refl _).append (List.sublist_append_left _ _), fun settled => ?_⟩
    rw [settled, List.append_nil]

end Steps

end LossyLane

end LogicConduit
