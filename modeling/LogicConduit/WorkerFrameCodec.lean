import LogicConduit.WorkerFrames

namespace LogicConduit

/-- The ranges of the fields of an event, and a namespace whose length can be written. -/
def ArtifactReplicationEvent.Fits : ArtifactReplicationEvent → Prop
  | publishedChunk nameSpace identity offset totalLength _ _ =>
    (utf8Bytes nameSpace).length < 2 ^ 32 ∧ identity.length = 32 ∧ offset < 2 ^ 64 ∧ totalLength < 2 ^ 64
  | removed nameSpace identity => (utf8Bytes nameSpace).length < 2 ^ 32 ∧ identity.length = 32

def GraphWorkerMessage.Fits : GraphWorkerMessage → Prop
  | artifacts sequence events => sequence < 2 ^ 64 ∧ events.length < 2 ^ 32 ∧ ∀ event ∈ events, event.Fits
  | _ => True

namespace GraphWorkerCodec

open CursorM

variable {limit : Nat} {sizes : ElementSizes}

section Fields

theorem reads_take (value : Bytes) : Reads limit (Reader.take limit value.length) value (.ok value) :=
  Reads.take

theorem reads_u8 (value : UInt8) : Reads limit (Reader.u8 limit) [value] (.ok value) :=
  (reads_take [value]).bind_nil (Reads.pure value)

variable {value : Bytes}

theorem reads_array {width : Nat} (count : value.length = width) :
    Reads limit (Reader.array limit width) value (.ok value) := by
  subst count
  refine (reads_take value).bind_nil ?_
  rw [if_pos rfl]
  exact Reads.pure value

theorem reads_u32 {value : Nat} (small : value < 2 ^ 32) :
    Reads limit (Reader.u32 limit) (putU32 value) (.ok value) := by
  refine (reads_array (leBytes_length 4 value)).bind_nil ?_
  rw [ofLeBytes_leBytes small]
  exact Reads.pure value

theorem reads_u64 {value : Nat} (small : value < 2 ^ 64) :
    Reads limit (Reader.u64 limit) (putU64 value) (.ok value) := by
  refine (reads_array (leBytes_length 8 value)).bind_nil ?_
  rw [ofLeBytes_leBytes small]
  exact Reads.pure value

theorem reads_length (high : limit ≤ 2 ^ 64) {β : Type} {next : Nat → Reader β} (rest : Bytes) {result : Except Fault β}
    (after : Reads limit (next value.length) (value ++ rest) result) :
    Reads limit (Reader.length limit >>= next) (putU64 value.length ++ (value ++ rest)) result := by
  intro before behind room
  have below : value.length < limit := by
    simp only [List.length_append] at room
    omega
  refine Reads.bind_ok ((reads_u64 (by omega)).bind_nil ?_) after before behind room
  rw [if_neg (by omega)]
  exact Reads.pure _

theorem reads_bytes (high : limit ≤ 2 ^ 64) :
    Reads limit (Reader.bytes limit) (putBytes value) (.ok value) := by
  refine (reads_length high [] ((reads_take value).congr (List.append_nil value).symm)).congr ?_
  rw [List.append_nil]
  rfl

theorem reads_withCapacity (size capacity : Nat) : Reads limit (Reader.withCapacity limit size capacity) []
    (if limit / 2 ≤ capacity * size then .error .capacityOverflow else .ok ()) := by
  unfold Reader.withCapacity
  split
  · intro before rest _
    rfl
  · exact Reads.pure ()

theorem putCount_ok {field : String} {count : Nat} (small : count < 2 ^ 32) :
    putCount field count = .ok (putU32 count) := if_neg (by omega)

theorem putString_ok {value : String} (small : (utf8Bytes value).length < 2 ^ 32) :
    putString value = .ok (putU32 (utf8Bytes value).length ++ utf8Bytes value) := by
  unfold putString
  rw [putCount_ok small]
  rfl

theorem reads_string {value : String} (small : (utf8Bytes value).length < 2 ^ 32) :
    Reads limit (Reader.string limit) (putU32 (utf8Bytes value).length ++ utf8Bytes value) (.ok value) := by
  refine (reads_u32 small).bind_ok ((reads_take _).bind_nil ?_)
  rw [fromUtf8_utf8Bytes]
  exact Reads.pure value

end Fields

section Messages

variable {json : JsonCodec GraphWorkerMessage}

def nameBytes (value : String) : Bytes := putU32 (utf8Bytes value).length ++ utf8Bytes value

def eventBytes : ArtifactReplicationEvent → Bytes
  | .publishedChunk nameSpace identity offset totalLength data complete =>
    [publishedChunk] ++ (nameBytes nameSpace ++ (identity ++ (putU64 offset ++ (putU64 totalLength ++
      ([if complete then 1 else 0] ++ (putU64 data.length ++ data))))))
  | .removed nameSpace identity => [removed] ++ (nameBytes nameSpace ++ identity)

variable {event : ArtifactReplicationEvent}

theorem encodeEvent_ok (fits : event.Fits) : encodeEvent event = .ok (eventBytes event) := by
  cases event with
  | publishedChunk nameSpace identity offset totalLength data complete =>
    simp only [encodeEvent, putString_ok fits.1]
    show Except.ok _ = Except.ok _
    simp [eventBytes, nameBytes]
  | removed nameSpace identity =>
    simp only [encodeEvent, putString_ok fits.1]
    show Except.ok _ = Except.ok _
    simp [eventBytes, nameBytes]

theorem reads_event (high : limit ≤ 2 ^ 64) (fits : event.Fits) :
    Reads limit (decodeEvent limit) (eventBytes event) (.ok event) := by
  unfold decodeEvent
  cases event with
  | publishedChunk nameSpace identity offset totalLength data complete =>
    obtain ⟨name, long, start, total⟩ := fits
    refine (reads_u8 publishedChunk).bind_ok ?_
    rw [if_pos rfl]
    refine (reads_string name).bind_ok ((reads_array long).bind_ok ((reads_u64 start).bind_ok
      ((reads_u64 total).bind_ok ((reads_u8 _).bind_ok ?_))))
    have ended : Reads limit (do
        let dataLength ← Reader.length limit
        let data ← Reader.take limit dataLength
        pure (ArtifactReplicationEvent.publishedChunk nameSpace identity offset totalLength data complete))
        (putU64 data.length ++ data)
        (.ok (.publishedChunk nameSpace identity offset totalLength data complete)) := by
      refine (reads_length high [] ?_).congr (by rw [List.append_nil])
      rw [List.append_nil]
      exact (reads_take data).bind_nil (Reads.pure _)
    cases complete
    · exact (Reads.pure false).nil_bind ended
    · exact (Reads.pure true).nil_bind ended
  | removed nameSpace identity =>
    obtain ⟨name, long⟩ := fits
    refine (reads_u8 removed).bind_ok ?_
    rw [if_neg (by decide), if_pos rfl]
    exact (reads_string name).bind_ok ((reads_array long).bind_nil (Reads.pure _))

def artifactBytes (sequence : Nat) (events : List ArtifactReplicationEvent) : Bytes :=
  [artifactMessage] ++ (putU64 sequence ++ (putU32 events.length ++ events.flatMap eventBytes))

variable {events : List ArtifactReplicationEvent}

theorem encodeMessage_artifacts {sequence : Nat} (count : events.length < 2 ^ 32) (fits : ∀ event ∈ events, event.Fits) :
    encodeMessage json (.artifacts sequence events) = .ok (artifactBytes sequence events) := by
  simp only [encodeMessage, putCount_ok count]
  rw [mapM_ok fun event inside => encodeEvent_ok (fits event inside)]
  show Except.ok _ = Except.ok _
  simp [artifactBytes, List.flatMap_def]

theorem reads_artifacts (high : limit ≤ 2 ^ 64) {sequence : Nat}
    (fits : (GraphWorkerMessage.artifacts sequence events).Fits) (room : events.length * sizes.event < limit / 2) :
    Reads limit (readMessage limit sizes json) (artifactBytes sequence events) (.ok (.artifacts sequence events)) := by
  obtain ⟨small, count, each⟩ := fits
  unfold readMessage
  refine (reads_u8 artifactMessage).bind_ok ?_
  rw [if_neg (by decide), if_pos rfl]
  have reserved := @reads_withCapacity limit sizes.event events.length
  rw [if_neg (by omega)] at reserved
  refine (reads_u64 small).bind_ok ((reads_u32 count).bind_ok (reserved.nil_bind ?_))
  have times := Reads.times eventBytes (fun event => .ok event) events fun event inside =>
    reads_event high (each event inside)
  have all : events.mapM (fun event => (.ok event : Except Fault _)) = .ok events :=
    (mapM_ok (g := id) fun _ _ => rfl).trans (by rw [List.map_id])
  rw [all] at times
  exact times.bind_nil (Reads.pure _)

/-- A message that begins as one of so many artifact events. -/
def CountsEvents (message : Bytes) (count : Nat) : Prop :=
  count < 2 ^ 32 ∧ ∃ sequence rest, sequence < 2 ^ 64 ∧
    message = [artifactMessage] ++ (putU64 sequence ++ (putU32 count ++ rest))

theorem readMessage_capacityOverflow {message before behind : Bytes} {count : Nat} (counts : CountsEvents message count)
    (huge : limit / 2 ≤ count * sizes.event) (room : before.length + (message ++ behind).length < limit) :
    readMessage limit sizes json (.between before (message ++ behind)) = .error .capacityOverflow := by
  obtain ⟨small, sequence, rest, first, rfl⟩ := counts
  have reserved := @reads_withCapacity limit sizes.event count
  rw [if_pos huge] at reserved
  have reads : Reads limit (readMessage limit sizes json)
      ([artifactMessage] ++ (putU64 sequence ++ (putU32 count ++ []))) (.error .capacityOverflow) := by
    unfold readMessage
    refine (reads_u8 artifactMessage).bind_ok ?_
    rw [if_neg (by decide), if_pos rfl]
    exact (reads_u64 first).bind_ok ((reads_u32 small).bind_ok reserved.bind_error)
  have whole : Reads limit (readMessage limit sizes json) ([artifactMessage] ++ (putU64 sequence ++
    (putU32 count ++ rest))) (.error .capacityOverflow) := (reads.append_error rest).congr (by simp)
  exact whole before behind room

end Messages

section Frames

variable {json : JsonCodec GraphWorkerMessage}

theorem reads_framed (high : limit ≤ 2 ^ 64) (message : Bytes) :
    Reads limit (readFramed limit sizes json) (putBytes message) (decodeMessage limit sizes json message) := by
  refine (reads_bytes high).bind_nil ?_
  intro before rest _
  rw [List.append_nil]
  cases decodeMessage limit sizes json message <;> rfl

theorem reads_header (expected : Bytes) (frame : GraphWorkerFrame) :
    Reads limit (readHeader limit expected frame) expected (.ok ()) := by
  refine (reads_take expected).bind_nil ?_
  rw [if_pos rfl]
  exact Reads.pure ()

def frameOf (messages : List Bytes) : Bytes := magic ++ (putU32 messages.length ++ messages.flatMap putBytes)

theorem decode_frameOf (high : limit ≤ 2 ^ 64) {messages : List Bytes} (count : messages.length < 2 ^ 32)
    (room : (frameOf messages).length < limit) :
    decodeGraphWorkerMessages limit sizes json (frameOf messages) =
      if limit / 2 ≤ messages.length * sizes.message then .error .capacityOverflow
      else messages.mapM (decodeMessage limit sizes json) := by
  refine Reads.whole ?_ room
  refine (reads_header magic .messageBatch).bind_ok ((reads_u32 count).bind_ok ?_)
  have reserved := @reads_withCapacity limit sizes.message messages.length
  have each := Reads.times putBytes (decodeMessage limit sizes json) messages fun message _ =>
    @reads_framed limit sizes json high message
  split at reserved
  · rw [if_pos (by assumption)]
    exact (reserved.bind_error.append_error _).congr (List.nil_append _)
  · rw [if_neg (by assumption)]
    exact reserved.nil_bind each

end Frames

section Refusals

variable {json : JsonCodec GraphWorkerMessage} {α : Type} {fault : Fault}

section Panics

variable (panics : ∀ error, Fault.error error ≠ fault)
include panics

theorem local_fail (error : GraphWorkerCodecError) : Local fault (Reader.fail error : Reader α) :=
  Local.throw (panics error)

theorem local_take (length : Nat) : Local fault (Reader.take limit length) :=
  Local.take (panics _) (panics _) length

theorem local_u8 : Local fault (Reader.u8 limit) := by
  refine (local_take panics 1).bind fun value answer => ?_
  have count := answer.take_length
  cases value with
  | nil => cases count
  | cons value rest => exact Local.pure value

theorem local_array (width : Nat) : Local fault (Reader.array limit width) := by
  refine (local_take panics width).bind fun value answer => ?_
  rw [if_pos answer.take_length]
  exact Local.pure value

theorem local_u32 : Local fault (Reader.u32 limit) := (local_array panics 4).bind fun _ _ => Local.pure _

theorem local_u64 : Local fault (Reader.u64 limit) := (local_array panics 8).bind fun _ _ => Local.pure _

theorem local_length : Local fault (Reader.length limit) := by
  refine (local_u64 panics).bind fun value _ => ?_
  split
  · exact local_fail panics _
  · exact Local.pure value

theorem local_bytes : Local fault (Reader.bytes limit) :=
  (local_length panics).bind fun length _ => local_take panics length

theorem local_string : Local fault (Reader.string limit) := by
  refine (local_u32 panics).bind fun length _ => (local_take panics length).bind fun bytes _ => ?_
  cases fromUtf8 bytes with
  | none => exact local_fail panics _
  | some text => exact Local.pure text

theorem local_event : Local fault (decodeEvent limit) := by
  refine (local_u8 panics).bind fun kind _ => ?_
  split
  · refine (local_string panics).bind fun nameSpace _ => (local_array panics 32).bind fun identity _ =>
      (local_u64 panics).bind fun offset _ => (local_u64 panics).bind fun totalLength _ =>
        (local_u8 panics).bind fun flag _ => ?_
    have ended : ∀ complete, Local fault (do
        let dataLength ← Reader.length limit
        let data ← Reader.take limit dataLength
        pure (ArtifactReplicationEvent.publishedChunk nameSpace identity offset totalLength data complete)) :=
      fun complete => (local_length panics).bind fun length _ => (local_take panics length).bind fun _ _ => Local.pure _
    dsimp only
    split
    · exact (Local.pure false).bind fun complete _ => ended complete
    · split
      · exact (Local.pure true).bind fun complete _ => ended complete
      · exact (local_fail panics _).bind fun complete _ => ended complete
  · split
    · exact (local_string panics).bind fun nameSpace _ => (local_array panics 32).bind fun identity _ => Local.pure _
    · exact local_fail panics _

theorem local_header (expected : Bytes) (frame : GraphWorkerFrame) : Local fault (readHeader limit expected frame) := by
  refine (local_take panics _).bind fun header _ => ?_
  split
  · exact Local.pure ()
  · exact local_fail panics _

end Panics

theorem error_ne_panic (error : GraphWorkerCodecError) : Fault.error error ≠ .panic := by simp

theorem error_ne_capacityOverflow (error : GraphWorkerCodecError) : Fault.error error ≠ .capacityOverflow := by simp

theorem local_withCapacity (size capacity : Nat) : Local .panic (Reader.withCapacity limit size capacity) := by
  unfold Reader.withCapacity
  split
  · exact Local.throw (by simp)
  · exact Local.pure ()

def readOther (limit : Nat) (sizes : ElementSizes) (kind : UInt8) : Reader GraphWorkerMessage :=
  if kind = artifactMessage then do
    let sequence ← Reader.u64 limit
    let count ← Reader.u32 limit
    Reader.withCapacity limit sizes.event count
    let events ← times (decodeEvent limit) count
    pure (.artifacts sequence events)
  else Reader.fail (.unknownKind .messageBatch kind)

theorem local_other (kind : UInt8) : Local .panic (readOther limit sizes kind) := by
  unfold readOther
  split
  · exact (local_u64 error_ne_panic).bind fun sequence _ => (local_u32 error_ne_panic).bind fun count _ =>
      (local_withCapacity _ _).bind fun _ _ => ((local_event error_ne_panic).times count).bind fun events _ =>
        Local.pure _
  · exact local_fail error_ne_panic _

theorem u8_cons (room : 1 < limit) (kind : UInt8) (text : Bytes) :
    Reader.u8 limit (ByteCursor.between [] (kind :: text)) = .ok (kind, ByteCursor.between [kind] text) := by
  have slice : getRange (kind :: text) 0 1 = some [kind] := by simp [getRange]
  have step : Reader.take limit 1 (ByteCursor.between [] (kind :: text)) =
      .ok ([kind], ByteCursor.between [kind] text) := by
    unfold Reader.take CursorM.take
    show (if limit ≤ 0 + 1 then _ else _) = _
    rw [if_neg (by omega)]
    simp only [ByteCursor.between, List.nil_append, List.length_nil, Nat.zero_add, slice]
    rfl
  show (Reader.take limit 1 _ >>= fun x => _) = _
  rw [step]
  rfl

theorem decodeMessage_nil (room : 1 < limit) : decodeMessage limit sizes json [] = .error (.error .truncated) := by
  have step : Reader.take limit 1 (ByteCursor.between [] []) = .error (.error .truncated) := by
    unfold Reader.take CursorM.take
    show (if limit ≤ 0 + 1 then _ else _) = _
    rw [if_neg (by omega)]
    rfl
  unfold decodeMessage
  rw [whole_eq]
  show ((Reader.take limit 1 _ >>= fun x => _) >>= fun x => _).bind _ = _
  rw [step]
  rfl

theorem readMessage_other (room : 1 < limit) {kind : UInt8} (other : kind ≠ jsonMessage) (text : Bytes) :
    readMessage limit sizes json (ByteCursor.between [] (kind :: text)) =
      (Reader.u8 limit >>= readOther limit sizes) (ByteCursor.between [] (kind :: text)) := by
  show (Reader.u8 limit _ >>= fun x => _) = (Reader.u8 limit _ >>= fun x => readOther limit sizes x.1 x.2)
  rw [u8_cons room]
  exact congrFun (if_neg other) (ByteCursor.between [kind] text)

theorem decodeMessage_json (room : 1 < limit) (text : Bytes) :
    decodeMessage limit sizes json (jsonMessage :: text) =
      match json.fromSlice text with
      | .ok message => .ok message
      | .error message => .error (.error (decodingError "message JSON" message)) := by
  unfold decodeMessage
  rw [whole_eq]
  have run : readMessage limit sizes json (ByteCursor.between [] (jsonMessage :: text)) =
      match json.fromSlice text with
      | .ok message => .ok (message, ByteCursor.between (jsonMessage :: text) [])
      | .error message => .error (.error (decodingError "message JSON" message)) := by
    have rest : Reader.remaining (ByteCursor.between [jsonMessage] text) =
        .ok (text, ByteCursor.between [jsonMessage] text) := by
      unfold Reader.remaining ByteCursor.between
      rw [if_pos (by simp)]
      rfl
    show (Reader.u8 limit _ >>= fun x => _) = _
    rw [u8_cons room]
    show (Reader.remaining (ByteCursor.between [jsonMessage] text) >>= fun x => _) = _
    rw [rest]
    show (match json.fromSlice text with
      | .ok message => (do
        Reader.consumeRemaining
        pure message : Reader _)
      | .error message => Reader.fail (decodingError "message JSON" message)) _ = _
    cases json.fromSlice text with
    | ok message =>
      show Except.ok _ = Except.ok _
      simp [ByteCursor.between]
    | error message => rfl
  rw [run]
  cases json.fromSlice text with
  | ok message => exact if_pos (by simp [ByteCursor.between])
  | error message => rfl

theorem safe_json (panics : ∀ error, Fault.error error ≠ fault) (before rest : Bytes) :
    (do
      let text ← Reader.remaining
      match json.fromSlice text with
      | .ok message =>
        Reader.consumeRemaining
        pure message
      | .error message => Reader.fail (decodingError "message JSON" message) : Reader GraphWorkerMessage)
      (ByteCursor.between before rest) ≠ .error fault := by
  have stands : Reader.remaining (ByteCursor.between before rest) = .ok (rest, ByteCursor.between before rest) := by
    unfold Reader.remaining ByteCursor.between
    rw [if_pos (by simp)]
    simp
  show (Reader.remaining (ByteCursor.between before rest) >>= fun x => _) ≠ _
  rw [stands]
  show (match json.fromSlice rest with
    | .ok message => (do
      Reader.consumeRemaining
      pure message : Reader _)
    | .error message => Reader.fail (decodingError "message JSON" message)) _ ≠ _
  cases json.fromSlice rest with
  | ok message => nofun
  | error message => exact fun failed => panics _ (Except.error.inj failed)

theorem safe_message : Safe .panic (readMessage limit sizes json) := by
  refine (local_u8 error_ne_panic).bind_safe fun kind _ => ?_
  split
  · exact safe_json error_ne_panic
  · exact (local_other kind).safe

theorem decodeMessage_safe (message : Bytes) : decodeMessage limit sizes json message ≠ .error .panic :=
  safe_message.whole (error_ne_panic _)

theorem local_framed : Local .panic (readFramed limit sizes json) := by
  refine (local_bytes error_ne_panic).bind fun message _ => ?_
  cases result : decodeMessage limit sizes json message with
  | ok value => exact Local.pure value
  | error e =>
    refine Local.throw ?_
    rintro rfl
    exact decodeMessage_safe message result

theorem local_messages : Local .panic (readMessages limit sizes json) :=
  (local_header error_ne_panic magic .messageBatch).bind fun _ _ => (local_u32 error_ne_panic).bind fun count _ =>
    (local_withCapacity _ _).bind fun _ _ => local_framed.times count

end Refusals

end GraphWorkerCodec

end LogicConduit
