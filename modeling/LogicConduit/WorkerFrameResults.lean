import LogicConduit.WorkerFrameCounts

namespace LogicConduit

/-- Parsing gives back what was written, and refuses it with what counts as trailing input behind it. -/
structure JsonCodec.Exact {α : Type} (json : JsonCodec α) (trailing : Bytes → Prop) : Prop where
  round : ∀ value text, json.toVec value = .ok text → json.fromSlice text = .ok value
  rejects : ∀ text value extra, json.fromSlice text = .ok value → trailing extra →
    ∃ message, json.fromSlice (text ++ extra) = .error message

namespace GraphWorkerRequest

variable {Graph Subscriptions : Type}

/-- The ranges of the fields of a request, and a number of markers that can be written. -/
def Fits : GraphWorkerRequest Graph Subscriptions → Prop
  | start sequence _ _ timelineMarkers => sequence < 2 ^ 64 ∧ timelineMarkers.length < 2 ^ 32 ∧
    ∀ marker ∈ timelineMarkers, marker.1 < 2 ^ 32 ∧ marker.2 < 2 ^ 64
  | cancel sequence => sequence < 2 ^ 64

/-- Its markers are of a vector that can be reserved. -/
def Reserves (limit : Nat) (sizes : ElementSizes) : GraphWorkerRequest Graph Subscriptions → Prop
  | start _ _ _ timelineMarkers => timelineMarkers.length * sizes.marker < limit / 2
  | cancel _ => True

/-- Requests that differ in what is not written of their graphs. -/
inductive Agrees (same : Graph → Graph → Prop) :
    GraphWorkerRequest Graph Subscriptions → GraphWorkerRequest Graph Subscriptions → Prop
  | start {sequence : Nat} {graph graph' : Graph} {subscriptions : Subscriptions}
      {timelineMarkers : List (Nat × Nat)} (agree : same graph graph') :
      Agrees same (.start sequence graph subscriptions timelineMarkers)
        (.start sequence graph' subscriptions timelineMarkers)
  | cancel {sequence : Nat} : Agrees same (.cancel sequence) (.cancel sequence)

end GraphWorkerRequest

/-- Its events are of a vector that can be reserved. -/
def GraphWorkerMessage.Reserves (limit : Nat) (sizes : ElementSizes) : GraphWorkerMessage → Prop
  | artifacts _ events => events.length * sizes.event < limit / 2
  | _ => True

namespace GraphWorkerCodec

open CursorM

/-- What holds of batches of messages, and just when. -/
structure FramesMessages (limit : Nat) (sizes : ElementSizes) (json : JsonCodec GraphWorkerMessage)
    (trailing : Bytes → Prop) : Prop where
  encodes : ∀ messages : List GraphWorkerMessage, messages.length < 2 ^ 32 → (∀ m ∈ messages, m.Fits) →
    (∀ m ∈ messages, (∀ sequence events, m ≠ .artifacts sequence events) → ∃ text, json.toVec m = .ok text) →
    ∃ frame, encodeGraphWorkerMessages json messages = .ok frame
  decodes : ∀ (messages : List GraphWorkerMessage) frame, (∀ m ∈ messages, m.Fits) →
    encodeGraphWorkerMessages json messages = .ok frame → frame.length < limit →
    (decodeGraphWorkerMessages limit sizes json frame = .ok messages ↔
      messages.length * sizes.message < limit / 2 ∧ ∀ m ∈ messages, m.Reserves limit sizes) ∧
    ∀ cut, cut <+: frame → cut ≠ frame → ∀ accepted, decodeGraphWorkerMessages limit sizes json cut ≠ .ok accepted
  answers : ∀ bytes, bytes.length < limit →
    (((∃ messages, decodeGraphWorkerMessages limit sizes json bytes = .ok messages) ∨
      ∃ e, decodeGraphWorkerMessages limit sizes json bytes = .error (.error e)) ↔
        BatchReserves limit sizes json bytes)
  wide : 2 ^ 32 * sizes.message ≤ limit / 2 → 2 ^ 32 * sizes.event ≤ limit / 2 →
    ∀ bytes, BatchReserves limit sizes json bytes
  inside : ∀ bytes, decodeGraphWorkerMessages limit sizes json bytes ≠ .error .panic
  noTrailing : ∀ bytes messages extra, decodeGraphWorkerMessages limit sizes json bytes = .ok messages → extra ≠ [] →
    decodeGraphWorkerMessages limit sizes json (bytes ++ extra) = .error (.error .trailingBytes)
  /-- Trailing bytes inside a message of a batch, which are not empty and no part of its JSON text. -/
  noTrailingInside : ∀ (front behind : List Bytes) message value extra,
    decodeMessage limit sizes json message = .ok value → extra ≠ [] →
    (message.head? = some jsonMessage → trailing extra) →
    (front ++ (message ++ extra) :: behind).length < 2 ^ 32 →
    (frameOf (front ++ (message ++ extra) :: behind)).length < limit →
    ∀ accepted, decodeGraphWorkerMessages limit sizes json (frameOf (front ++ (message ++ extra) :: behind)) ≠
      .ok accepted

section Requests

variable {Graph Subscriptions : Type}

/-- The count of markers that a request gives behind a graph and subscriptions that are accepted is of a vector that
can be reserved. -/
def RequestReserves (limit : Nat) (sizes : ElementSizes) (graphFromSlice : Bytes → Except String Graph)
    (json : JsonCodec Subscriptions) (bytes : Bytes) : Prop :=
  ∀ (sequence : Nat) (graphText subscriptionsText : Bytes) (count : Nat) (rest : Bytes) (graph : Graph)
    (subscriptions : Subscriptions), sequence < 2 ^ 64 → count < 2 ^ 32 →
    bytes = requestMagic ++ ([startRequest] ++ (putU64 sequence ++ (putBytes graphText ++
      (putBytes subscriptionsText ++ (putU32 count ++ rest))))) →
    graphFromSlice graphText = .ok graph → json.fromSlice subscriptionsText = .ok subscriptions →
    count * sizes.marker < limit / 2

/-- What holds of requests, and just when. -/
structure FramesRequests (limit : Nat) (sizes : ElementSizes)
    (encodeWorkerGraph : Graph → Except GraphWorkerCodecError Bytes) (graphFromSlice : Bytes → Except String Graph)
    (json : JsonCodec Subscriptions) (same : Graph → Graph → Prop) : Prop where
  encodes : ∀ sequence graph subscriptions (timelineMarkers : List (Nat × Nat)), timelineMarkers.length < 2 ^ 32 →
    (∃ text, encodeWorkerGraph graph = .ok text) → (∃ text, json.toVec subscriptions = .ok text) →
    ∃ frame, encodeGraphWorkerRequest encodeWorkerGraph json
      (.start sequence graph subscriptions timelineMarkers) = .ok frame
  decodes : ∀ (request : GraphWorkerRequest Graph Subscriptions) frame, request.Fits →
    encodeGraphWorkerRequest encodeWorkerGraph json request = .ok frame → frame.length < limit →
    ((∃ decoded, decodeGraphWorkerRequest limit sizes graphFromSlice json frame = .ok decoded ∧
      request.Agrees same decoded) ↔ request.Reserves limit sizes) ∧
    ∀ cut, cut <+: frame → cut ≠ frame →
      ∀ accepted, decodeGraphWorkerRequest limit sizes graphFromSlice json cut ≠ .ok accepted
  answers : ∀ bytes, bytes.length < limit →
    (((∃ request, decodeGraphWorkerRequest limit sizes graphFromSlice json bytes = .ok request) ∨
      ∃ e, decodeGraphWorkerRequest limit sizes graphFromSlice json bytes = .error (.error e)) ↔
        RequestReserves limit sizes graphFromSlice json bytes)
  wide : 2 ^ 32 * sizes.marker ≤ limit / 2 → ∀ bytes, RequestReserves limit sizes graphFromSlice json bytes
  inside : ∀ bytes, decodeGraphWorkerRequest limit sizes graphFromSlice json bytes ≠ .error .panic
  noTrailing : ∀ bytes request extra, decodeGraphWorkerRequest limit sizes graphFromSlice json bytes = .ok request →
    extra ≠ [] →
    decodeGraphWorkerRequest limit sizes graphFromSlice json (bytes ++ extra) = .error (.error .trailingBytes)

end Requests

section Messages

variable {limit : Nat} {sizes : ElementSizes} {json : JsonCodec GraphWorkerMessage} {trailing : Bytes → Prop}

theorem answers_iff {α : Type} {result : Except Fault α} (inside : result ≠ .error .panic) :
    ((∃ value, result = .ok value) ∨ ∃ e, result = .error (.error e)) ↔ result ≠ .error .capacityOverflow := by
  cases result with
  | ok value => exact iff_of_true (.inl ⟨value, rfl⟩) nofun
  | error fault =>
    cases fault with
    | panic => exact absurd rfl inside
    | capacityOverflow => simp
    | error e => exact iff_of_true (.inr ⟨e, rfl⟩) (by simp)

/-- A `u32` of elements fits where all of them would. -/
theorem count_fits (positive : 0 < limit / 2) {size count : Nat} (room : 2 ^ 32 * size ≤ limit / 2)
    (small : count < 2 ^ 32) : count * size < limit / 2 := by
  rcases Nat.eq_zero_or_pos size with rfl | some
  · exact positive
  · exact (Nat.mul_lt_mul_of_pos_right small some).trans_le room

/-- A proper part of what is accepted, or ends for want of capacity, is not accepted itself. -/
theorem cut_refused {α : Type} {p : Reader α} (local' : Local .panic p) {bytes cut : Bytes}
    (whole : (∃ value, CursorM.whole p (.error .trailingBytes) bytes = .ok value) ∨
      CursorM.whole p (.error .trailingBytes) bytes = .error .capacityOverflow)
    (front : cut <+: bytes) (proper : cut ≠ bytes) (accepted : α) :
    CursorM.whole p (.error .trailingBytes) cut ≠ .ok accepted := by
  rcases whole with ⟨value, done⟩ | overflow
  · exact local'.whole_prefix done front proper
  · intro early
    obtain ⟨extra, rfl⟩ := front
    have more : extra ≠ [] := by
      rintro rfl
      exact proper (List.append_nil cut).symm
    rw [local'.whole_append early more] at overflow
    cases overflow

variable {message : GraphWorkerMessage}

theorem decode_artifacts (high : limit ≤ 2 ^ 64) {sequence : Nat} {events : List ArtifactReplicationEvent}
    (fits : (GraphWorkerMessage.artifacts sequence events).Fits)
    (room : (artifactBytes sequence events).length < limit) :
    decodeMessage limit sizes json (artifactBytes sequence events) =
      if limit / 2 ≤ events.length * sizes.event then .error .capacityOverflow else .ok (.artifacts sequence events) := by
  split
  next huge =>
    exact (decodeMessage_capacityOverflow room).mpr
      ⟨events.length, ⟨fits.2.1, sequence, events.flatMap eventBytes, fits.1, rfl⟩, huge⟩
  next fewer => exact (reads_artifacts high fits (Nat.not_le.mp fewer)).whole room

theorem decode_encodeMessage (low : 1 < limit) (high : limit ≤ 2 ^ 64) (exact : json.Exact trailing)
    (fits : message.Fits) {encoded : Bytes} (run : encodeMessage json message = .ok encoded)
    (room : encoded.length < limit) : decodeMessage limit sizes json encoded = .ok message ∧ message.Reserves limit sizes ∨
      decodeMessage limit sizes json encoded = .error .capacityOverflow ∧ ¬message.Reserves limit sizes := by
  have text : ((json.toVec message).mapError (encodingError "message") >>= fun text =>
      .ok ([jsonMessage] ++ text)) = .ok encoded → decodeMessage limit sizes json encoded = .ok message := by
    intro run
    cases written : json.toVec message with
    | error e =>
      rw [written] at run
      cases run
    | ok text =>
      rw [written] at run
      cases run
      rw [List.singleton_append, decodeMessage_json low, exact.round message text written]
  cases message with
  | artifacts sequence events =>
    rw [encodeMessage_artifacts fits.2.1 fits.2.2] at run
    cases run
    rw [decode_artifacts high fits room]
    show _ ∧ events.length * sizes.event < limit / 2 ∨ _ ∧ ¬events.length * sizes.event < limit / 2
    split
    next huge => exact .inr ⟨rfl, by omega⟩
    next fewer => exact .inl ⟨rfl, by omega⟩
  | started sequence => exact .inl ⟨text run, trivial⟩
  | progress sequence nodes => exact .inl ⟨text run, trivial⟩
  | finished sequence => exact .inl ⟨text run, trivial⟩
  | failed sequence error => exact .inl ⟨text run, trivial⟩
  | cancelled sequence => exact .inl ⟨text run, trivial⟩

theorem encodeMessage_ok (fits : message.Fits)
    (writes : (∀ sequence events, message ≠ .artifacts sequence events) → ∃ text, json.toVec message = .ok text) :
    ∃ encoded, encodeMessage json message = .ok encoded := by
  have plain : (∃ text, json.toVec message = .ok text) → ∃ encoded, ((json.toVec message).mapError
      (encodingError "message") >>= fun text => .ok ([jsonMessage] ++ text)) = .ok encoded := by
    rintro ⟨text, written⟩
    rw [written]
    exact ⟨_, rfl⟩
  cases message with
  | artifacts sequence events => exact ⟨_, encodeMessage_artifacts fits.2.1 fits.2.2⟩
  | started sequence => exact plain (writes nofun)
  | progress sequence nodes => exact plain (writes nofun)
  | finished sequence => exact plain (writes nofun)
  | failed sequence error => exact plain (writes nofun)
  | cancelled sequence => exact plain (writes nofun)

theorem putCount_eq {field : String} {count : Nat} {written : Bytes} (run : putCount field count = .ok written) :
    count < 2 ^ 32 ∧ written = putU32 count := by
  unfold putCount at run
  split at run
  · cases run
  · cases run
    exact ⟨by omega, rfl⟩

theorem encoded_frame {messages : List GraphWorkerMessage} {frame : Bytes}
    (run : encodeGraphWorkerMessages json messages = .ok frame) : ∃ encoded, frame = frameOf encoded ∧
    encoded.length < 2 ^ 32 ∧ List.Forall₂ (fun m b => encodeMessage json m = .ok b) messages encoded := by
  obtain ⟨count, counted, run⟩ := except_bind_ok run
  obtain ⟨encoded, made, run⟩ := except_bind_ok run
  obtain ⟨small, rfl⟩ := putCount_eq counted
  cases run
  have each := forall₂_of_mapM_ok made
  refine ⟨encoded, ?_, by rw [← each.length_eq]; exact small, each⟩
  rw [frameOf, ← each.length_eq, List.append_assoc]

theorem length_lt_frameOf {messages : List Bytes} {message : Bytes} (inside : message ∈ messages) :
    message.length < (frameOf messages).length := by
  have part : message.length ≤ (messages.flatMap putBytes).length := by
    induction messages with
    | nil => cases inside
    | cons first messages ih =>
      rw [List.flatMap_cons, List.length_append]
      rcases List.mem_cons.mp inside with rfl | inside
      · simp only [putBytes, List.length_append]
        omega
      · have := ih inside
        omega
  simp only [frameOf, List.length_append]
  have : magic.length = 5 := rfl
  omega

/-- Elements that are taken, or refused one way, each under its own condition. -/
theorem mapM_ok_or {ε α β : Type} {f : β → Except ε α} {error : ε} {R : α → Prop} {l : List α} {m : List β}
    (each : List.Forall₂ (fun a b => f b = .ok a ∧ R a ∨ f b = .error error ∧ ¬R a) l m) :
    m.mapM f = .ok l ∧ (∀ a ∈ l, R a) ∨ m.mapM f = .error error ∧ ¬∀ a ∈ l, R a := by
  induction each with
  | nil => exact .inl ⟨rfl, nofun⟩
  | @cons a b l m head _ ih =>
    rw [List.mapM_cons, List.forall_mem_cons]
    rcases head with ⟨taken, holds⟩ | ⟨refused, fails⟩
    · rw [taken]
      rcases ih with ⟨all, every⟩ | ⟨none, some⟩
      · exact .inl ⟨by rw [all]; rfl, holds, every⟩
      · exact .inr ⟨by rw [none]; rfl, fun both => some both.2⟩
    · rw [refused]
      exact .inr ⟨rfl, fun both => fails both.1⟩

theorem decode_encoded (low : 1 < limit) (high : limit ≤ 2 ^ 64) (exact : json.Exact trailing)
    {messages : List GraphWorkerMessage} (fits : ∀ m ∈ messages, m.Fits) {frame : Bytes}
    (run : encodeGraphWorkerMessages json messages = .ok frame) (room : frame.length < limit) :
    decodeGraphWorkerMessages limit sizes json frame = .ok messages ∧
        (messages.length * sizes.message < limit / 2 ∧ ∀ m ∈ messages, m.Reserves limit sizes) ∨
      decodeGraphWorkerMessages limit sizes json frame = .error .capacityOverflow ∧
        ¬(messages.length * sizes.message < limit / 2 ∧ ∀ m ∈ messages, m.Reserves limit sizes) := by
  obtain ⟨encoded, rfl, count, each⟩ := encoded_frame run
  have outcomes : List.Forall₂ (fun m b => decodeMessage limit sizes json b = .ok m ∧ m.Reserves limit sizes ∨
      decodeMessage limit sizes json b = .error .capacityOverflow ∧ ¬m.Reserves limit sizes) messages encoded := by
    rw [List.forall₂_iff_get] at each ⊢
    refine ⟨each.1, fun i h₁ h₂ => ?_⟩
    exact decode_encodeMessage low high exact (fits _ (List.get_mem _ _)) (each.2 i h₁ h₂)
      ((length_lt_frameOf (List.get_mem _ _)).trans room)
  rw [decode_frameOf high count room, each.length_eq]
  split
  next huge => exact .inr ⟨rfl, fun both => by omega⟩
  next fewer =>
    rcases mapM_ok_or outcomes with ⟨all, every⟩ | ⟨none, some⟩
    · exact .inl ⟨all, by omega, every⟩
    · exact .inr ⟨none, fun both => some both.2⟩

theorem framesMessages (low : 1 < limit) (high : limit ≤ 2 ^ 64) (exact : json.Exact trailing) :
    FramesMessages limit sizes json trailing where
  encodes messages count fits writes := by
    have each : ∀ m ∈ messages, ∃ encoded, encodeMessage json m = .ok encoded := fun m inside =>
      encodeMessage_ok (fits m inside) (writes m inside)
    choose! encode made using each
    unfold encodeGraphWorkerMessages
    rw [putCount_ok count, mapM_ok made]
    exact ⟨_, rfl⟩
  decodes messages frame fits run room := by
    have outcome := @decode_encoded limit sizes json trailing low high exact messages fits frame run room
    refine ⟨?_, fun cut => cut_refused local_messages (outcome.imp (fun done => ⟨messages, done.1⟩) And.left)⟩
    rcases outcome with ⟨done, reserves⟩ | ⟨overflow, huge⟩
    · exact iff_of_true done reserves
    · exact iff_of_false (fun done => nomatch overflow.symm.trans done) huge
  answers bytes room :=
    (answers_iff (local_messages.safe.whole (error_ne_panic _))).trans (batchReserves_iff high room)
  wide messages events bytes :=
    ⟨fun count rest small _ => count_fits (by omega) messages small,
      fun count front message rest eventCount _ _ _ _ counts => count_fits (by omega) events counts.1⟩
  inside bytes := local_messages.safe.whole (error_ne_panic _)
  noTrailing bytes messages extra accepted more := local_messages.whole_append accepted more
  noTrailingInside front behind message value extra accepted more json' count room := by
    intro values run
    rw [decode_frameOf high count room] at run
    split at run
    · cases run
    obtain ⟨value', -, again⟩ := exists_left_of_forall₂ (forall₂_of_mapM_ok run).flip
      (List.mem_append_right front List.mem_cons_self)
    cases message with
    | nil =>
      rw [decodeMessage_nil low] at accepted
      cases accepted
    | cons kind text =>
      rw [List.cons_append] at again
      by_cases isJson : kind = jsonMessage
      · subst isJson
        rw [decodeMessage_json low] at accepted again
        cases parsed : json.fromSlice text with
        | error e =>
          rw [parsed] at accepted
          cases accepted
        | ok parsedValue =>
          obtain ⟨e, refused⟩ := exact.rejects text parsedValue extra parsed (json' rfl)
          rw [refused] at again
          cases again
      · unfold decodeMessage at accepted again
        rw [whole_eq, readMessage_other low isJson, ← whole_eq] at accepted again
        have local' : Local .panic (Reader.u8 limit >>= readOther limit sizes) :=
          (local_u8 error_ne_panic).bind fun kind _ => local_other kind
        rw [← List.cons_append, local'.whole_append accepted more] at again
        cases again

end Messages

section Requests

variable {Graph Subscriptions : Type} {limit : Nat} {sizes : ElementSizes}
  {encodeWorkerGraph : Graph → Except GraphWorkerCodecError Bytes} {graphFromSlice : Bytes → Except String Graph}
  {json : JsonCodec Subscriptions} {same : Graph → Graph → Prop}

theorem local_fromSlice {α : Type} {fault : Fault} (panics : ∀ error, Fault.error error ≠ fault)
    (parse : Bytes → Except String α) (context : String) (text : Bytes) : Local fault (fromSlice parse context text) := by
  unfold fromSlice
  split
  · exact Local.pure _
  · exact local_fail panics _

theorem local_markers {fault : Fault} (panics : ∀ error, Fault.error error ≠ fault) (count : Nat) :
    Local fault (times (readMarker limit) count) :=
  ((local_u32 panics).bind fun _ _ => (local_u64 panics).bind fun _ _ => Local.pure _).times count

theorem local_request : Local .panic (readRequest limit sizes graphFromSlice json) := by
  have panics := error_ne_panic
  refine (local_header panics requestMagic .request).bind fun _ _ => (local_u8 panics).bind fun kind _ => ?_
  split
  · exact (local_u64 panics).bind fun sequence _ => (local_bytes panics).bind fun _ _ =>
      (local_fromSlice panics _ _ _).bind fun graph _ => (local_bytes panics).bind fun _ _ =>
        (local_fromSlice panics _ _ _).bind fun subscriptions _ => (local_u32 panics).bind fun count _ =>
          (local_withCapacity _ _).bind fun _ _ => (local_markers panics count).bind fun _ _ => Local.pure _
  · split
    · exact (local_u64 panics).bind fun sequence _ => Local.pure _
    · exact local_fail panics _

theorem parses_fromSlice {α : Type} (parse : Bytes → Except String α) (context : String) (text : Bytes) :
    Parses (fromSlice parse context text) fun value bytes => parse text = .ok value ∧ bytes = [] := by
  unfold fromSlice
  split
  next parsed => exact Parses.pure ⟨parsed, rfl⟩
  · exact Parses.throw

theorem reads_fromSlice {α : Type} {parse : Bytes → Except String α} {context : String} {text : Bytes} {value : α}
    (parsed : parse text = .ok value) : Reads limit (fromSlice parse context text) [] (.ok value) := by
  unfold fromSlice
  rw [parsed]
  exact Reads.pure value

theorem reads_marker {marker : Nat × Nat} (number : marker.1 < 2 ^ 32) (time : marker.2 < 2 ^ 64) :
    Reads limit (readMarker limit) (putU32 marker.1 ++ putU64 marker.2) (.ok marker) :=
  (reads_u32 number).bind_ok ((reads_u64 time).bind_nil (Reads.pure marker))

def markerBytes (marker : Nat × Nat) : Bytes := putU32 marker.1 ++ putU64 marker.2

variable {timelineMarkers : List (Nat × Nat)}

theorem reads_markers (each : ∀ marker ∈ timelineMarkers, marker.1 < 2 ^ 32 ∧ marker.2 < 2 ^ 64) :
    Reads limit (times (readMarker limit) timelineMarkers.length) (timelineMarkers.flatMap markerBytes)
      (.ok timelineMarkers) := by
  have times := Reads.times markerBytes (fun marker => .ok marker) timelineMarkers fun marker inside =>
    @reads_marker limit marker (each marker inside).1 (each marker inside).2
  have all : timelineMarkers.mapM (fun marker => (.ok marker : Except Fault _)) = .ok timelineMarkers :=
    (mapM_ok (g := id) fun _ _ => rfl).trans (by rw [List.map_id])
  rw [all] at times
  exact times

variable {sequence count : Nat} {graphText subscriptionsText behind bytes : Bytes} {graph : Graph}
  {subscriptions : Subscriptions}

/-- A start request up to its number of markers, and what is read behind. -/
theorem reads_start (high : limit ≤ 2 ^ 64) (first : sequence < 2 ^ 64) (small : count < 2 ^ 32)
    (parsed : graphFromSlice graphText = .ok graph) (parsed' : json.fromSlice subscriptionsText = .ok subscriptions)
    {result : Except Fault (GraphWorkerRequest Graph Subscriptions)}
    (markers : Reads limit (do
      Reader.withCapacity limit sizes.marker count
      let timelineMarkers ← times (readMarker limit) count
      pure (.start sequence graph subscriptions timelineMarkers)) behind result) :
    Reads limit (readRequest limit sizes graphFromSlice json) (requestMagic ++ ([startRequest] ++ (putU64 sequence ++
      (putBytes graphText ++ (putBytes subscriptionsText ++ (putU32 count ++ behind)))))) result := by
  refine (reads_header requestMagic .request).bind_ok ((reads_u8 startRequest).bind_ok ?_)
  rw [if_pos rfl]
  exact (reads_u64 first).bind_ok ((reads_bytes high).bind_ok ((reads_fromSlice parsed).nil_bind
    ((reads_bytes high).bind_ok ((reads_fromSlice parsed').nil_bind ((reads_u32 small).bind_ok markers)))))

theorem reads_overflow (high : limit ≤ 2 ^ 64) (first : sequence < 2 ^ 64) (small : count < 2 ^ 32)
    (parsed : graphFromSlice graphText = .ok graph) (parsed' : json.fromSlice subscriptionsText = .ok subscriptions)
    (huge : limit / 2 ≤ count * sizes.marker) :
    Reads limit (readRequest limit sizes graphFromSlice json) (requestMagic ++ ([startRequest] ++ (putU64 sequence ++
      (putBytes graphText ++ (putBytes subscriptionsText ++ (putU32 count ++ behind))))))
      (.error .capacityOverflow) := by
  have reserved := @reads_withCapacity limit sizes.marker count
  rw [if_pos huge] at reserved
  exact reads_start high first small parsed parsed'
    ((reserved.bind_error.append_error behind).congr (List.nil_append behind))

theorem reads_cancel (small : sequence < 2 ^ 64) :
    Reads limit (readRequest limit sizes graphFromSlice json) (requestMagic ++ ([cancelRequest] ++ putU64 sequence))
      (.ok (.cancel sequence)) := by
  refine (reads_header requestMagic .request).bind_ok ((reads_u8 cancelRequest).bind_ok ?_)
  rw [if_neg (by decide), if_pos rfl]
  exact (reads_u64 small).bind_nil (Reads.pure _)

theorem requestReserves_iff (high : limit ≤ 2 ^ 64) (room : bytes.length < limit) :
    decodeGraphWorkerRequest limit sizes graphFromSlice json bytes ≠ .error .capacityOverflow ↔
      RequestReserves limit sizes graphFromSlice json bytes := by
  have panics := error_ne_capacityOverflow
  constructor
  · rintro decodes sequence graphText subscriptionsText count rest graph subscriptions first small rfl parsed parsed'
    by_contra huge
    exact decodes ((reads_overflow high first small parsed parsed' (by omega)).whole room)
  · intro reserves failed
    rw [decodeGraphWorkerRequest, whole_fault (panics _)] at failed
    obtain ⟨_, _, rest, rfl, rfl, failed⟩ :=
      (parses_header requestMagic .request).bind_fault (local_header panics _ _).safe failed
    obtain ⟨kind, _, rest, rfl, rfl, failed⟩ := parses_u8.bind_fault (local_u8 panics).safe failed
    split at failed
    next start =>
      obtain ⟨sequence, _, rest, rfl, ⟨first, rfl⟩, failed⟩ := parses_u64.bind_fault (local_u64 panics).safe failed
      obtain ⟨graphText, _, rest, rfl, rfl, failed⟩ := parses_bytes.bind_fault (local_bytes panics).safe failed
      obtain ⟨graph, _, rest, rfl, ⟨parsed, rfl⟩, failed⟩ :=
        (parses_fromSlice _ _ _).bind_fault (local_fromSlice panics _ _ _).safe failed
      obtain ⟨subscriptionsText, _, rest, rfl, rfl, failed⟩ :=
        parses_bytes.bind_fault (local_bytes panics).safe failed
      obtain ⟨subscriptions, _, rest, rfl, ⟨parsed', rfl⟩, failed⟩ :=
        (parses_fromSlice _ _ _).bind_fault (local_fromSlice panics _ _ _).safe failed
      obtain ⟨count, _, rest, rfl, ⟨small, rfl⟩, failed⟩ := parses_u32.bind_fault (local_u32 panics).safe failed
      have fits := reserves sequence graphText subscriptionsText count rest graph subscriptions first small
        (by rw [start]; rfl) parsed parsed'
      rcases withCapacity_fault failed with huge | failed
      · omega
      · exact absurd failed (((local_markers panics count).bind fun _ _ => Local.pure _).safe _ _)
    · split at failed
      · exact absurd failed (((local_u64 panics).bind fun _ _ => Local.pure _).safe _ _)
      · exact absurd (Except.error.inj failed) (panics _)

theorem mapError_ok {ε δ α : Type} {x : Except ε α} {f : ε → δ} {a : α} (run : x.mapError f = .ok a) : x = .ok a := by
  cases x with
  | error e => cases run
  | ok b =>
    cases run
    rfl

theorem decode_encodeRequest (high : limit ≤ 2 ^ 64)
    (graphs : ∀ graph text, encodeWorkerGraph graph = .ok text → ∃ graph', graphFromSlice text = .ok graph' ∧
      same graph graph')
    (subscriptions : ∀ value text, json.toVec value = .ok text → json.fromSlice text = .ok value)
    {request : GraphWorkerRequest Graph Subscriptions} (fits : request.Fits) {frame : Bytes}
    (run : encodeGraphWorkerRequest encodeWorkerGraph json request = .ok frame) (room : frame.length < limit) :
    (∃ decoded, decodeGraphWorkerRequest limit sizes graphFromSlice json frame = .ok decoded ∧
        request.Agrees same decoded) ∧ request.Reserves limit sizes ∨
      decodeGraphWorkerRequest limit sizes graphFromSlice json frame = .error .capacityOverflow ∧
        ¬request.Reserves limit sizes := by
  cases request with
  | start sequence graph plan timelineMarkers =>
    obtain ⟨graphText, written, run⟩ := except_bind_ok run
    obtain ⟨planText, written', run⟩ := except_bind_ok run
    obtain ⟨count, counted, run⟩ := except_bind_ok run
    obtain ⟨small, rfl⟩ := putCount_eq counted
    cases run
    obtain ⟨graph', parsed, agree⟩ := graphs graph graphText written
    have parsed' := subscriptions plan planText (mapError_ok written')
    have reserved := @reads_withCapacity limit sizes.marker timelineMarkers.length
    split at reserved
    next huge =>
      have overflow := @reads_overflow _ _ limit sizes graphFromSlice json sequence timelineMarkers.length graphText
        planText (timelineMarkers.flatMap markerBytes) graph' plan high fits.1 small parsed parsed' huge
      refine .inr ⟨(overflow.congr ?_).whole room, show ¬_ < _ from by omega⟩
      simp only [List.append_assoc]
      rfl
    next fewer =>
      have markers : Reads limit (do
          Reader.withCapacity limit sizes.marker timelineMarkers.length
          let timelineMarkers ← times (readMarker limit) timelineMarkers.length
          pure (GraphWorkerRequest.start sequence graph' plan timelineMarkers))
          (timelineMarkers.flatMap markerBytes) (.ok (.start sequence graph' plan timelineMarkers)) :=
        reserved.nil_bind ((reads_markers fits.2.2).bind_nil (Reads.pure _))
      refine .inl ⟨⟨_, ((reads_start high fits.1 small parsed parsed' markers).congr ?_).whole room, .start agree⟩,
        show _ < _ from by omega⟩
      simp only [List.append_assoc]
      rfl
  | cancel sequence =>
    cases run
    refine .inl ⟨⟨_, ((reads_cancel fits).congr ?_).whole room, .cancel⟩, trivial⟩
    rw [List.append_assoc]

theorem framesRequests (low : 1 < limit) (high : limit ≤ 2 ^ 64)
    (graphs : ∀ graph text, encodeWorkerGraph graph = .ok text → ∃ graph', graphFromSlice text = .ok graph' ∧
      same graph graph')
    (subscriptions : ∀ value text, json.toVec value = .ok text → json.fromSlice text = .ok value) :
    FramesRequests limit sizes encodeWorkerGraph graphFromSlice json same where
  encodes sequence graph plan timelineMarkers count := by
    rintro ⟨graphText, written⟩ ⟨planText, written'⟩
    simp only [encodeGraphWorkerRequest, written, written', putCount_ok count]
    exact ⟨_, rfl⟩
  decodes request frame fits run room := by
    have outcome := @decode_encodeRequest _ _ limit sizes _ _ _ _ high graphs subscriptions request fits frame run room
    refine ⟨?_, fun cut => cut_refused local_request
      (outcome.imp (fun done => done.1.imp fun _ => And.left) And.left)⟩
    rcases outcome with ⟨done, reserves⟩ | ⟨overflow, huge⟩
    · exact iff_of_true done reserves
    · refine iff_of_false (fun ⟨decoded, done, _⟩ => ?_) huge
      cases overflow.symm.trans done
  answers bytes room :=
    (answers_iff (local_request.safe.whole (error_ne_panic _))).trans (requestReserves_iff high room)
  wide room bytes sequence graphText subscriptionsText count rest graph subscriptions _ small _ _ _ :=
    count_fits (by omega) room small
  inside bytes := local_request.safe.whole (error_ne_panic _)
  noTrailing bytes request extra accepted more := local_request.whole_append accepted more

/-- Frames of graph worker messages and requests round trip, and nothing else around them is accepted, just where no
vector is reserved for more bytes than a vector can have. -/
theorem graph_worker_frames_round_trip (low : 2 ^ 32 ≤ limit) (high : limit ≤ 2 ^ 64)
    {messageJson : JsonCodec GraphWorkerMessage} {trailing : Bytes → Prop} (messages : messageJson.Exact trailing)
    (graphs : ∀ graph text, encodeWorkerGraph graph = .ok text → ∃ graph', graphFromSlice text = .ok graph' ∧
      same graph graph')
    (subscriptions : ∀ value text, json.toVec value = .ok text → json.fromSlice text = .ok value) :
    FramesMessages limit sizes messageJson trailing ∧
      FramesRequests limit sizes encodeWorkerGraph graphFromSlice json same :=
  ⟨framesMessages (by omega) high messages, framesRequests (by omega) high graphs subscriptions⟩

end Requests

def oneValue {α : Type} [DecidableEq α] (value : α) (text : String) : JsonCodec α where
  toVec other := if other = value then .ok (utf8Bytes text) else .error "another value"
  fromSlice bytes := if bytes = utf8Bytes text then .ok value else .error "another text"

theorem oneValue_exact {α : Type} [DecidableEq α] (value : α) (text : String) :
    (oneValue value text).Exact fun extra => extra ≠ [] := by
  refine ⟨fun other bytes written => ?_, fun bytes other extra parsed more => ?_⟩
  · unfold oneValue at written ⊢
    dsimp only at written ⊢
    split at written
    next same =>
      cases written
      rw [same, if_pos rfl]
    · cases written
  · unfold oneValue at parsed ⊢
    dsimp only at parsed ⊢
    split at parsed
    next same =>
      refine ⟨_, if_neg fun both => more ?_⟩
      rw [same] at both
      exact List.append_right_eq_self.mp both
    · cases parsed

def startedJson : JsonCodec GraphWorkerMessage := oneValue (.started 3) "\x7b\"kind\":\"started\",\"sequence\":3\x7d"

def emptyDocument : JsonCodec Unit := oneValue ()
  "\x7b\"connections\":[],\"frames\":[],\"next_frame_id\":0,\"next_id\":0,\"nodes\":\x7b\x7d\x7d"

def noOutputs : JsonCodec (List Nat × List Nat) :=
  oneValue ([], []) "\x7b\"visible_outputs\":[],\"retained_outputs\":[]\x7d"

/-- Sizes on a target with 32-bit pointers. -/
def narrowSizes : ElementSizes := ⟨48, 80, 16⟩

theorem graph_worker_frames_round_trip_started :
    FramesMessages (2 ^ 32) narrowSizes startedJson (fun extra => extra ≠ []) ∧
      FramesRequests (2 ^ 32) narrowSizes (fun graph => (emptyDocument.toVec graph).mapError (encodingError "graph"))
        emptyDocument.fromSlice noOutputs Eq :=
  graph_worker_frames_round_trip (Nat.le_refl _) (by decide) (oneValue_exact _ _)
    (fun graph text written => ⟨graph, (oneValue_exact _ _).round graph text (mapError_ok written), rfl⟩)
    (oneValue_exact _ _).round

/-- A batch that gives `u32::MAX` messages and has none. -/
theorem counted_batch_overflows :
    ¬((∃ messages, decodeGraphWorkerMessages (2 ^ 32) narrowSizes startedJson (magic ++ putU32 (2 ^ 32 - 1)) =
        .ok messages) ∨
      ∃ e, decodeGraphWorkerMessages (2 ^ 32) narrowSizes startedJson (magic ++ putU32 (2 ^ 32 - 1)) =
        .error (.error e)) := by
  have inside : decodeGraphWorkerMessages (2 ^ 32) narrowSizes startedJson (magic ++ putU32 (2 ^ 32 - 1)) ≠
      .error .panic := local_messages.safe.whole (error_ne_panic _)
  rw [answers_iff inside, batchReserves_iff (by decide) (by decide)]
  intro reserves
  have fits := reserves.messages (2 ^ 32 - 1) [] (by decide) (by rw [List.append_nil])
  exact absurd fits (by decide)

end GraphWorkerCodec

end LogicConduit
