import LogicConduit.WorkerFrameCodec

namespace LogicConduit

theorem leBytes_ofLeBytes (bytes : Bytes) :
    ofLeBytes bytes < 256 ^ bytes.length ∧ leBytes bytes.length (ofLeBytes bytes) = bytes := by
  induction bytes with
  | nil => exact ⟨Nat.one_pos, rfl⟩
  | cons b bytes ih =>
    have hb := b.toNat_lt
    have hmod : (b.toNat + 256 * ofLeBytes bytes) % 256 = b.toNat := by omega
    have hdiv : (b.toNat + 256 * ofLeBytes bytes) / 256 = ofLeBytes bytes := by omega
    constructor
    · rw [List.length_cons, pow_succ, ofLeBytes]
      have := ih.1
      omega
    · rw [List.length_cons, ofLeBytes, leBytes, hmod, hdiv, ih.2, UInt8.ofNat_toNat]

namespace GraphWorkerCodec

open CursorM

variable {limit : Nat} {sizes : ElementSizes} {json : JsonCodec GraphWorkerMessage}

section Fields

theorem parses_take (length : Nat) :
    Parses (Reader.take limit length) fun value bytes => bytes = value ∧ value.length = length := Parses.take

theorem parses_u8 : Parses (Reader.u8 limit) fun value bytes => bytes = [value] := by
  refine (parses_take 1).bind fun value first ⟨same, one⟩ => ?_
  subst same
  obtain ⟨value, rfl⟩ := List.length_eq_one_iff.mp one
  exact Parses.pure rfl

theorem parses_array (width : Nat) :
    Parses (Reader.array limit width) fun value bytes => bytes = value ∧ value.length = width := by
  refine (parses_take width).bind fun value first ⟨same, count⟩ => ?_
  subst same
  rw [if_pos count]
  exact Parses.pure ⟨List.append_nil _, count⟩

theorem parses_u32 : Parses (Reader.u32 limit) fun value bytes => value < 2 ^ 32 ∧ bytes = putU32 value := by
  refine (parses_array 4).bind fun value first ⟨same, count⟩ => ?_
  subst same
  obtain ⟨small, back⟩ := leBytes_ofLeBytes first
  rw [count] at small back
  exact Parses.pure ⟨small, by rw [List.append_nil, putU32, back]⟩

theorem parses_u64 : Parses (Reader.u64 limit) fun value bytes => value < 2 ^ 64 ∧ bytes = putU64 value := by
  refine (parses_array 8).bind fun value first ⟨same, count⟩ => ?_
  subst same
  obtain ⟨small, back⟩ := leBytes_ofLeBytes first
  rw [count] at small back
  exact Parses.pure ⟨small, by rw [List.append_nil, putU64, back]⟩

theorem parses_bytes : Parses (Reader.bytes limit) fun value bytes => bytes = putBytes value := by
  have length : Parses (Reader.length limit) fun value bytes => bytes = putU64 value := by
    refine parses_u64.bind fun value first ⟨_, same⟩ => ?_
    split
    · exact Parses.throw
    · exact Parses.pure (by rw [List.append_nil, same])
  refine length.bind fun count first same => ?_
  intro before tail value next run
  obtain ⟨bytes, rest, split, after, rfl, long⟩ := parses_take count before tail value next run
  refine ⟨bytes, rest, split, after, ?_⟩
  rw [same, ← long]
  rfl

theorem parses_header (expected : Bytes) (frame : GraphWorkerFrame) :
    Parses (readHeader limit expected frame) fun _ bytes => bytes = expected := by
  refine (parses_take _).bind fun header first ⟨same, _⟩ => ?_
  split
  next equal => exact Parses.pure (by rw [List.append_nil, same, equal])
  · exact Parses.throw

theorem parses_framed : Parses (readFramed limit sizes json) fun _ bytes =>
    ∃ message, bytes = putBytes message ∧ ∃ value, decodeMessage limit sizes json message = .ok value := by
  refine parses_bytes.bind fun message first same => ?_
  cases result : decodeMessage limit sizes json message with
  | ok value => exact Parses.pure ⟨message, by rw [List.append_nil, same], value, result⟩
  | error e => exact Parses.throw

theorem withCapacity_fault {β : Type} {size capacity : Nat} {next : Unit → Reader β} {before tail : Bytes}
    (failed : (Reader.withCapacity limit size capacity >>= next) (.between before tail) = .error .capacityOverflow) :
    limit / 2 ≤ capacity * size ∨ next () (.between before tail) = .error .capacityOverflow := by
  by_cases huge : limit / 2 ≤ capacity * size
  · exact .inl huge
  · refine .inr ?_
    rw [Reader.withCapacity, if_neg huge] at failed
    exact failed

end Fields

section Batches

variable {bytes before tail : Bytes}

theorem readMessage_fault
    (failed : readMessage limit sizes json (.between before tail) = .error .capacityOverflow) :
    ∃ count, CountsEvents tail count ∧ limit / 2 ≤ count * sizes.event := by
  have panics := error_ne_capacityOverflow
  obtain ⟨kind, _, rest, rfl, rfl, failed⟩ := parses_u8.bind_fault (local_u8 panics).safe failed
  split at failed
  · exact absurd failed (safe_json panics _ _)
  · split at failed
    next artifact =>
      obtain ⟨sequence, _, rest, rfl, ⟨first, rfl⟩, failed⟩ :=
        parses_u64.bind_fault (local_u64 panics).safe failed
      obtain ⟨count, _, rest, rfl, ⟨small, rfl⟩, failed⟩ := parses_u32.bind_fault (local_u32 panics).safe failed
      rcases withCapacity_fault failed with huge | failed
      · exact ⟨count, ⟨small, sequence, rest, first, by rw [artifact]⟩, huge⟩
      · exact absurd failed ((((local_event panics).times count).bind fun events _ => Local.pure _).safe _ _)
    · exact absurd (Except.error.inj failed) (panics _)

theorem decodeMessage_capacityOverflow {message : Bytes} (room : message.length < limit) :
    decodeMessage limit sizes json message = .error .capacityOverflow ↔
      ∃ count, CountsEvents message count ∧ limit / 2 ≤ count * sizes.event := by
  rw [decodeMessage, whole_fault (error_ne_capacityOverflow _)]
  refine ⟨readMessage_fault, fun ⟨count, counts, huge⟩ => ?_⟩
  have run := @readMessage_capacityOverflow limit sizes json message [] [] count counts huge (by simpa using room)
  rwa [List.append_nil] at run

/-- The counts that a batch gives, up to the first message that is refused, are of vectors that can be reserved. -/
structure BatchReserves (limit : Nat) (sizes : ElementSizes) (json : JsonCodec GraphWorkerMessage) (bytes : Bytes) :
    Prop where
  messages : ∀ count rest, count < 2 ^ 32 → bytes = magic ++ (putU32 count ++ rest) →
    count * sizes.message < limit / 2
  events : ∀ (count : Nat) (front : List Bytes) (message rest : Bytes) (eventCount : Nat), count < 2 ^ 32 →
    bytes = magic ++ (putU32 count ++ (front.flatMap putBytes ++ (putBytes message ++ rest))) → front.length < count →
    (∀ m ∈ front, ∃ value, decodeMessage limit sizes json m = .ok value) → CountsEvents message eventCount →
    eventCount * sizes.event < limit / 2

theorem readMessages_fault (reads : Reads limit (readMessages limit sizes json) bytes (.error .capacityOverflow))
    (room : (bytes ++ tail).length < limit) :
    decodeGraphWorkerMessages limit sizes json (bytes ++ tail) = .error .capacityOverflow :=
  (reads.append_error tail).whole room

/-- Decoding a batch reserves too much just where its counts ask for it. -/
theorem batchReserves_iff (high : limit ≤ 2 ^ 64) (room : bytes.length < limit) :
    decodeGraphWorkerMessages limit sizes json bytes ≠ .error .capacityOverflow ↔
      BatchReserves limit sizes json bytes := by
  have panics := error_ne_capacityOverflow
  constructor
  · intro decodes
    constructor
    · rintro count rest small rfl
      by_contra huge
      have reserved := @reads_withCapacity limit sizes.message count
      rw [if_pos (by omega)] at reserved
      have reads : Reads limit (readMessages limit sizes json) (magic ++ (putU32 count ++ []))
          (.error .capacityOverflow) :=
        (reads_header magic .messageBatch).bind_ok ((reads_u32 small).bind_ok reserved.bind_error)
      rw [List.append_nil] at reads
      rw [← List.append_assoc] at decodes room
      exact decodes (readMessages_fault reads room)
    · rintro count front message rest eventCount small rfl more accepted counts
      by_contra huge
      have short : message.length < limit := by
        simp only [putBytes, List.length_append] at room
        omega
      have refused : decodeMessage limit sizes json message = .error .capacityOverflow :=
        (decodeMessage_capacityOverflow short).mpr ⟨eventCount, counts, by omega⟩
      have each : ∀ m ∈ front, ∃ value, Reads limit (readFramed limit sizes json) (putBytes m) (.ok value) := by
        intro m inside
        obtain ⟨value, result⟩ := accepted m inside
        exact ⟨value, result ▸ reads_framed high m⟩
      have last : Reads limit (readFramed limit sizes json) (putBytes message) (.error .capacityOverflow) :=
        refused ▸ reads_framed high message
      have stops := Reads.times_error putBytes front each last more
      have batch : Reads limit (readMessages limit sizes json)
          (magic ++ (putU32 count ++ (front.flatMap putBytes ++ putBytes message))) (.error .capacityOverflow) := by
        refine (reads_header magic .messageBatch).bind_ok ((reads_u32 small).bind_ok ?_)
        have reserved := @reads_withCapacity limit sizes.message count
        split at reserved
        · exact (reserved.bind_error.append_error _).congr (List.nil_append _)
        · exact reserved.nil_bind stops
      refine decodes ?_
      rw [show magic ++ (putU32 count ++ (front.flatMap putBytes ++ (putBytes message ++ rest))) =
        magic ++ (putU32 count ++ (front.flatMap putBytes ++ putBytes message)) ++ rest by
          simp only [List.append_assoc]] at room ⊢
      exact readMessages_fault batch room
  · intro reserves failed
    rw [decodeGraphWorkerMessages, whole_fault (panics _)] at failed
    obtain ⟨_, _, rest, rfl, rfl, failed⟩ :=
      (parses_header magic .messageBatch).bind_fault (local_header panics _ _).safe failed
    obtain ⟨count, _, rest, rfl, ⟨small, rfl⟩, failed⟩ := parses_u32.bind_fault (local_u32 panics).safe failed
    have fits := reserves.messages count rest small rfl
    rcases withCapacity_fault failed with huge | failed
    · omega
    · obtain ⟨front, rest, before, rfl, more, accepted, failed⟩ := parses_framed.times_fault failed
      obtain ⟨message, _, rest, rfl, rfl, failed⟩ := parses_bytes.bind_fault (local_bytes panics).safe failed
      have short : message.length < limit := by
        simp only [putBytes, List.length_append] at room
        omega
      cases result : decodeMessage limit sizes json message with
      | ok value =>
        rw [result] at failed
        cases failed
      | error e =>
        rw [result] at failed
        cases failed
        obtain ⟨eventCount, counts, huge⟩ := (decodeMessage_capacityOverflow short).mp result
        have fits' := reserves.events count front message rest eventCount small rfl more accepted counts
        omega

end Batches

end GraphWorkerCodec

end LogicConduit
