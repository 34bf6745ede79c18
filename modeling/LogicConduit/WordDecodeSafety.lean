import LogicConduit.CheckedWordDecode
import LogicConduit.WordGroups

namespace LogicConduit

open Checked Vlq

variable {result : Nat × Nat}

section Integers

variable {input : Bytes}

theorem group_fits {byte byteIndex : Nat} (h : byteIndex ≤ 9) (hlast : ¬(byteIndex = 9 ∧ 1 < byte)) :
    byte &&& 0x7f < 2 ^ (64 - byteIndex * 7) := by
  by_cases hbyte : byteIndex = 9
  · have hle : byte &&& 0x7f ≤ byte := Nat.and_le_left
    rw [hbyte]
    omega
  · have hsmall : byte &&& 0x7f < 2 ^ 7 := by
      rw [and_7f]
      exact Nat.mod_lt _ (by decide)
    exact lt_of_lt_of_le hsmall (Nat.pow_le_pow_right (by decide) (by omega))

theorem checkedDecodeLoop_eq (hinput : input.length < 2 ^ 64) (fuel : Nat) {byteIndex : Nat} (value cursor : Nat)
    (h : fuel + byteIndex ≤ 10) : checkedDecodeLoop input fuel byteIndex value cursor =
      .ofExcept (decodeU64Loop input fuel byteIndex value cursor) := by
  induction fuel generalizing byteIndex value cursor with
  | zero => rfl
  | succ fuel ih =>
    rw [checkedDecodeLoop, decodeU64Loop]
    cases hbyte : input[cursor]? with
    | none => rfl
    | some byte =>
      have hcursor := (List.getElem?_eq_some_iff.mp hbyte).1
      dsimp only
      rw [add_of_lt (by omega), done_bind]
      refine ofExcept_ite (fun _ => rfl) fun hlast => ?_
      rw [shiftLeft_of_lt (by omega) (group_fits (by omega) hlast), done_bind]
      exact ofExcept_ite (fun _ => rfl) fun _ => ih _ _ (by omega)

theorem checkedDecodeU64_eq (hinput : input.length < 2 ^ 64) (cursor : Nat) :
    checkedDecodeU64 input cursor = .ofExcept (decodeU64 input cursor) :=
  checkedDecodeLoop_eq hinput 10 0 cursor (by omega)

theorem decodeU64Loop_cursor {fuel byteIndex value cursor : Nat}
    (h : decodeU64Loop input fuel byteIndex value cursor = .ok result) :
    cursor < result.2 ∧ result.2 ≤ input.length := by
  induction fuel generalizing byteIndex value cursor with
  | zero => cases h
  | succ fuel ih =>
    rw [decodeU64Loop] at h
    cases hbyte : input[cursor]? with
    | none =>
      rw [hbyte] at h
      cases h
    | some byte =>
      have hcursor := (List.getElem?_eq_some_iff.mp hbyte).1
      rw [hbyte] at h
      dsimp only at h
      split at h
      next => cases h
      next =>
        split at h
        next =>
          obtain rfl := Except.ok.inj h
          exact ⟨Nat.lt_succ_self cursor, hcursor⟩
        next =>
          obtain ⟨hlt, hle⟩ := ih h
          exact ⟨Nat.lt_of_succ_lt hlt, hle⟩

theorem decodeU64_cursor {cursor : Nat} (h : decodeU64 input cursor = .ok result) :
    cursor < result.2 ∧ result.2 ≤ input.length :=
  decodeU64Loop_cursor h

end Integers

variable {cursor recordEnd width : Nat}

section Fields

theorem checkedFromBytes_eq (bytes : Bytes) :
    WordBlockHeader.checkedFromBytes bytes = .ofExcept (WordBlockHeader.fromBytes bytes) := by
  unfold WordBlockHeader.checkedFromBytes WordBlockHeader.fromBytes
  by_cases hlen : bytes.length < blockHeaderSize
  · rw [if_pos hlen, if_pos hlen]
    rfl
  · have hlong : 72 ≤ bytes.length := not_lt.mp hlen
    rw [if_neg hlen, if_neg hlen, slice_of_le (by decide) (by omega), done_bind, List.drop_zero]
    refine ofExcept_ite (fun _ => rfl) fun _ => ofExcept_bind fun size _ => ofExcept_ite (fun _ => rfl) fun _ => ?_
    rw [slice_of_le (by decide) (by omega), done_bind, slice_of_le (by decide) (by omega), done_bind,
      List.drop_take, List.drop_take]
    refine ofExcept_ite (fun _ => rfl) fun _ => ?_
    iterate 5 refine ofExcept_bind fun _ _ => ?_
    rw [index_of_lt 0 (by omega), done_bind]
    iterate 7 refine ofExcept_bind fun _ _ => ?_
    rfl

variable {bytes : Bytes}

theorem checkedRead_eq {α : Type} (read : Bytes → Nat → CodecResult α) {offset skip width : Nat}
    (h : offset + skip + width < 2 ^ 64) :
    checkedRead read bytes offset skip width = .ofExcept (read bytes (offset + skip)) := by
  rw [checkedRead, add_of_lt (by omega), done_bind, add_of_lt h, done_bind]

theorem checkedReadFrom_eq {offset : Nat} (h : offset + 16 < 2 ^ 64) :
    RestartEntry.checkedReadFrom bytes offset = .ofExcept (RestartEntry.readFrom bytes offset) := by
  rw [RestartEntry.checkedReadFrom, checkedRead_eq _ (by omega), checkedRead_eq _ (by omega), checkedRead_eq _ (by omega)]
  refine ofExcept_bind fun _ _ => ofExcept_bind fun _ _ => ofExcept_bind fun _ _ => rfl

theorem checkedReadPackedIndex_eq {packedOffset index bits : Nat} (hbits : bits < 16) (hindex : index * bits < 2 ^ 64)
    (hinside : packedOffset + index * bits / 8 < bytes.length) (hlength : bytes.length < 2 ^ 64) :
    checkedReadPackedIndex bytes packedOffset index bits =
      .done (readPackedIndex bytes packedOffset index bits) := by
  have hone : 1 < 2 ^ (16 - bits) := Nat.one_lt_two_pow (by omega)
  have hpos : 1 ≤ 1 <<< bits := by
    rw [Nat.one_shiftLeft]
    exact Nat.one_le_two_pow
  rw [checkedReadPackedIndex, mul_of_lt hindex, done_bind, add_of_lt (by omega), done_bind, index_of_lt 0 hinside,
    done_bind, add_of_lt (by omega), done_bind, shiftLeft_of_lt hbits hone, done_bind, sub_of_le hpos, done_bind]
  rfl

theorem checkedReadValue_eq (hwidth : width ≤ 8) (hcursor : cursor + width < 2 ^ 64) :
    checkedReadValue bytes cursor recordEnd width = .ofExcept (readValue bytes cursor recordEnd width) := by
  rw [checkedReadValue, readValue, if_neg (not_le.mpr hcursor)]
  cases getRange bytes cursor (min (cursor + width) recordEnd) with
  | none => rfl
  | some encoded =>
    refine ofExcept_ite (fun _ => ?_) fun _ => rfl
    rw [slice_of_le (Nat.zero_le width) (by simpa using hwidth), done_bind]
    rfl

end Fields

structure ParsedWordBlock.Fits (bytes : Bytes) (parsed : ParsedWordBlock) : Prop where
  length : bytes.length < 2 ^ 32
  recordEnd : parsed.recordEnd ≤ bytes.length
  valueBytes : parsed.valueBytes ≤ 8
  restarts : parsed.restarts.length < 2 ^ 32

def GroupTimestampDecoder.Inside (bytes : Bytes) : GroupTimestampDecoder → Prop
  | .raw => True
  | .constant _ => True
  | .palette _ bits packedOffset deltaCount _ =>
    1 ≤ bits ∧ bits ≤ 4 ∧ deltaCount < 2 ^ 32 ∧ packedOffset + (deltaCount * bits + 7) / 8 ≤ bytes.length

structure RecordDecoder.Inside (bytes : Bytes) (parsed : ParsedWordBlock) (decoder : RecordDecoder) : Prop where
  header : blockHeaderSize ≤ decoder.cursor
  cursor : decoder.cursor < 2 ^ 32 + 72
  nextRestart : decoder.nextRestartIndex ≤ parsed.restarts.length
  group : decoder.groupTimestamps.Inside bytes

section Records

variable {bytes : Bytes} {parsed : ParsedWordBlock}

theorem checkedDelta_eq (h : parsed.Fits bytes) (cursor : Nat) :
    RecordDecoder.checkedDelta bytes parsed cursor = .ofExcept (decodeU64 (bytes.take parsed.recordEnd) cursor) := by
  have hlength := h.length
  have hrecords : (bytes.take parsed.recordEnd).length < 2 ^ 64 := by
    rw [List.length_take]
    omega
  rw [RecordDecoder.checkedDelta, slice_of_le (Nat.zero_le _) h.recordEnd, done_bind, List.drop_zero,
    checkedDecodeU64_eq hrecords]

theorem delta_cursor {cursor : Nat} (h : decodeU64 (bytes.take parsed.recordEnd) cursor = .ok result) :
    cursor < result.2 ∧ result.2 ≤ bytes.length := by
  obtain ⟨hlt, hle⟩ := decodeU64_cursor h
  rw [List.length_take] at hle
  exact ⟨hlt, by omega⟩

theorem checkedDeltas_eq (h : parsed.Fits bytes) (count cursor : Nat) :
    RecordDecoder.checkedDeltas bytes parsed count cursor =
      .ofExcept (RecordDecoder.decodeDeltas bytes parsed count cursor) := by
  induction count generalizing cursor with
  | zero => rfl
  | succ count ih =>
    rw [RecordDecoder.checkedDeltas, RecordDecoder.decodeDeltas, checkedDelta_eq h]
    refine ofExcept_bind fun first _ => ?_
    rw [ih]
    exact ofExcept_bind fun rest _ => rfl

theorem decodeDeltas_cursor {count cursor : Nat} {result : List Nat × Nat}
    (h : RecordDecoder.decodeDeltas bytes parsed count cursor = .ok result) :
    cursor ≤ result.2 ∧ result.2 ≤ max cursor bytes.length := by
  induction count generalizing cursor result with
  | zero =>
    obtain rfl := Except.ok.inj h
    exact ⟨Nat.le_refl _, Nat.le_max_left _ _⟩
  | succ count ih =>
    obtain ⟨first, hfirst, h⟩ := except_bind_ok h
    obtain ⟨rest, hrest, h⟩ := except_bind_ok h
    obtain rfl := Except.ok.inj h
    have hcursor := delta_cursor hfirst
    have hlater := ih hrest
    show cursor ≤ rest.2 ∧ rest.2 ≤ max cursor bytes.length
    omega

theorem groupEnd_lt (parsed : ParsedWordBlock) (following : Nat) :
    (parsed.restarts[following]?.map (·.recordIndex.toNat)).getD parsed.header.wordCount.toNat < 2 ^ 32 := by
  cases parsed.restarts[following]? with
  | none => exact parsed.header.wordCount.toNat_lt
  | some restart => exact restart.recordIndex.toNat_lt

theorem packedBits_lt {deltaCount bits : Nat} (hcount : deltaCount < 2 ^ 32) (hbits : bits ≤ 4) :
    deltaCount * bits < 2 ^ 64 := by
  have hle : deltaCount * bits ≤ deltaCount * 4 := Nat.mul_le_mul_left deltaCount hbits
  omega

variable {decoder : RecordDecoder} {recordIndex : Nat}

variable {decoder decoder' : RecordDecoder}

section

variable (h : parsed.Fits bytes)
include h

theorem checkedTimestampPalette_eq (hcursor : decoder.cursor < 2 ^ 34)
    (hnext : decoder.nextRestartIndex ≤ parsed.restarts.length) (hrecord : recordIndex < 2 ^ 32) :
    decoder.checkedTimestampPalette bytes parsed recordIndex =
      .ofExcept (decoder.decodeTimestampPalette bytes parsed recordIndex) := by
  have hrestarts := h.restarts
  rw [RecordDecoder.checkedTimestampPalette, RecordDecoder.decodeTimestampPalette]
  cases bytes[decoder.cursor]? with
  | none => rfl
  | some paletteLen =>
    dsimp only
    rw [add_of_lt (by omega), done_bind]
    refine ofExcept_ite (fun _ => rfl) fun hlen => ?_
    have hbits := paletteIndexBits_le paletteLen.toNat
    rw [slice_of_le (Nat.zero_le _) (by simp only [List.length_replicate]; omega), done_bind, checkedDeltas_eq h]
    refine ofExcept_bind fun palette _ => ?_
    rw [add_of_lt (by omega), done_bind, add_of_lt (by omega), done_bind]
    refine ofExcept_ite (fun _ => rfl) fun hgroup => ?_
    have hend := groupEnd_lt parsed (decoder.nextRestartIndex + 1)
    rw [mul_of_lt (packedBits_lt (by omega) hbits), done_bind]
    exact ofExcept_ite (fun _ => rfl) fun _ => rfl

variable {result : GroupTimestampDecoder × Nat}

theorem decodeTimestampPalette_inside (hresult : decoder.decodeTimestampPalette bytes parsed recordIndex = .ok result) :
    result.1.Inside bytes ∧ decoder.cursor ≤ result.2 ∧ result.2 ≤ bytes.length := by
  have hfits := h.recordEnd
  rw [RecordDecoder.decodeTimestampPalette] at hresult
  split at hresult
  next => cases hresult
  next paletteLen _ =>
    split at hresult
    next => cases hresult
    next hlen =>
      obtain ⟨hle, hge⟩ := not_not.mp hlen
      obtain ⟨palette, hpalette, hresult⟩ := except_bind_ok hresult
      have hcursor := decodeDeltas_cursor hpalette
      have hbits := (paletteIndexBits_spec hle hge).1
      have hfour := paletteIndexBits_le paletteLen.toNat
      have hend := groupEnd_lt parsed (decoder.nextRestartIndex + 1)
      dsimp only at hresult
      split at hresult
      next => cases hresult
      next =>
        split at hresult
        next hinside =>
          obtain rfl := Except.ok.inj hresult
          exact ⟨⟨hbits, hfour, by omega, by omega⟩, by simp only; omega, by simp only; omega⟩
        next => cases hresult

theorem checkedGroupMode_eq (decoder : RecordDecoder) (hcursor : decoder.cursor < 2 ^ 34)
    (hnext : decoder.nextRestartIndex ≤ parsed.restarts.length) (hrecord : recordIndex < 2 ^ 32) (mode : UInt8) :
    decoder.checkedGroupMode bytes parsed recordIndex mode =
      .ofExcept (decoder.decodeGroupMode bytes parsed recordIndex mode) := by
  rw [RecordDecoder.checkedGroupMode, RecordDecoder.decodeGroupMode]
  refine ofExcept_ite (fun _ => rfl) fun _ => ofExcept_ite (fun _ => ?_) fun _ => ?_
  · rw [checkedDelta_eq h]
    exact ofExcept_bind fun delta _ => rfl
  · exact ofExcept_ite (fun _ => checkedTimestampPalette_eq h hcursor hnext hrecord) fun _ => rfl

theorem decodeGroupMode_inside {mode : UInt8}
    (hresult : decoder.decodeGroupMode bytes parsed recordIndex mode = .ok result)
    (hcursor : decoder.cursor ≤ bytes.length) :
    result.1.Inside bytes ∧ decoder.cursor ≤ result.2 ∧ result.2 ≤ bytes.length := by
  rw [RecordDecoder.decodeGroupMode] at hresult
  split at hresult
  next =>
    obtain rfl := Except.ok.inj hresult
    exact ⟨trivial, Nat.le_refl _, hcursor⟩
  next =>
    split at hresult
    next =>
      obtain ⟨delta, hdelta, hresult⟩ := except_bind_ok hresult
      obtain rfl := Except.ok.inj hresult
      obtain ⟨hlt, hle⟩ := delta_cursor hdelta
      exact ⟨trivial, Nat.le_of_lt hlt, hle⟩
    next =>
      split at hresult
      next => exact decodeTimestampPalette_inside h hresult
      next => cases hresult

theorem checkedStartGroup_eq (hdecoder : decoder.Inside bytes parsed) (restart : RestartEntry)
    (hrecord : recordIndex < 2 ^ 32) :
    decoder.checkedStartGroup bytes parsed restart decoder.payloadOffset recordIndex =
      .ofExcept (decoder.startGroup bytes parsed restart recordIndex) := by
  have hcursor := hdecoder.cursor
  have hnext := hdecoder.nextRestart
  have hrestarts := h.restarts
  rw [RecordDecoder.checkedStartGroup, RecordDecoder.startGroup]
  refine ofExcept_ite (fun _ => rfl) fun _ => ofExcept_ite (fun _ => rfl) fun _ => ?_
  cases bytes[decoder.cursor]? with
  | none => rfl
  | some mode =>
    dsimp only
    rw [add_of_lt (by omega), done_bind, checkedGroupMode_eq h
      { decoder with timestamp := restart.timestampNs.toNat, cursor := decoder.cursor + 1 }
      (show decoder.cursor + 1 < 2 ^ 34 by omega) hnext hrecord]
    refine ofExcept_bind fun group _ => ?_
    rw [add_of_lt (by omega), done_bind]
    rfl

theorem startGroup_inside (hdecoder : decoder.Inside bytes parsed)
    (hnext : decoder.nextRestartIndex < parsed.restarts.length) {restart : RestartEntry}
    (hresult : decoder.startGroup bytes parsed restart recordIndex = .ok decoder') :
    decoder'.Inside bytes parsed := by
  have hlength := h.length
  have hheader := hdecoder.header
  rw [RecordDecoder.startGroup] at hresult
  split at hresult
  next => cases hresult
  next =>
    split at hresult
    next => cases hresult
    next =>
      split at hresult
      next => cases hresult
      next mode hmode =>
        have hcursor := (List.getElem?_eq_some_iff.mp hmode).1
        obtain ⟨group, hgroup, hresult⟩ := except_bind_ok hresult
        obtain rfl := Except.ok.inj hresult
        obtain ⟨hinside, hle, hend⟩ := decodeGroupMode_inside h hgroup hcursor
        exact ⟨by simp only at hle ⊢; omega, by simp only; omega, hnext, hinside⟩

end

theorem packed_index_lt {deltaCount nextDelta bits packedOffset length : Nat} (hbits : 1 ≤ bits)
    (hnext : nextDelta < deltaCount) (hinside : packedOffset + (deltaCount * bits + 7) / 8 ≤ length) :
    packedOffset + nextDelta * bits / 8 < length := by
  have hstep : nextDelta * bits + bits ≤ deltaCount * bits := by
    rw [← Nat.succ_mul]
    exact Nat.mul_le_mul_right bits hnext
  omega

theorem checkedGroupDelta_eq (h : parsed.Fits bytes) (hdecoder : decoder.Inside bytes parsed) :
    decoder.checkedGroupDelta bytes parsed = .ofExcept (decoder.groupDelta bytes parsed) := by
  have hlength := h.length
  have hgroup := hdecoder.group
  rw [RecordDecoder.checkedGroupDelta, RecordDecoder.groupDelta]
  cases hmode : decoder.groupTimestamps with
  | raw =>
    dsimp only
    rw [checkedDelta_eq h]
    exact ofExcept_bind fun delta _ => rfl
  | constant delta => rfl
  | palette deltas bits packedOffset deltaCount nextDelta =>
    rw [hmode] at hgroup
    obtain ⟨hone, hfour, hcount, hinside⟩ := hgroup
    refine ofExcept_ite (fun _ => rfl) fun hnext => ?_
    have hindex := packedBits_lt (show nextDelta < 2 ^ 32 by omega) hfour
    rw [checkedReadPackedIndex_eq (by omega) hindex (packed_index_lt hone (by omega) hinside) (by omega), done_bind,
      add_of_lt (by omega), done_bind]
    cases deltas[readPackedIndex bytes packedOffset nextDelta bits]? with
    | none => rfl
    | some delta => rfl

theorem groupDelta_inside (h : parsed.Fits bytes) (hdecoder : decoder.Inside bytes parsed)
    {result : Nat × RecordDecoder} (hresult : decoder.groupDelta bytes parsed = .ok result) :
    result.2.Inside bytes parsed := by
  have hlength := h.length
  have hgroup := hdecoder.group
  have hheader := hdecoder.header
  rw [RecordDecoder.groupDelta] at hresult
  cases hmode : decoder.groupTimestamps with
  | raw =>
    rw [hmode] at hresult
    obtain ⟨delta, hdelta, hresult⟩ := except_bind_ok hresult
    obtain rfl := Except.ok.inj hresult
    obtain ⟨hlt, hle⟩ := delta_cursor hdelta
    exact ⟨by simp only; omega, by simp only; omega, hdecoder.nextRestart, trivial⟩
  | constant delta =>
    rw [hmode] at hresult
    obtain rfl := Except.ok.inj hresult
    exact hdecoder
  | palette deltas bits packedOffset deltaCount nextDelta =>
    rw [hmode] at hresult hgroup
    dsimp only at hresult
    split at hresult
    next => cases hresult
    next =>
      split at hresult
      next => cases hresult
      next =>
        obtain rfl := Except.ok.inj hresult
        exact ⟨hheader, hdecoder.cursor, hdecoder.nextRestart, hgroup⟩

theorem advance_inside (hdecoder : decoder.Inside bytes parsed) {delta : Nat}
    (hresult : decoder.advance delta = .ok decoder') : decoder'.Inside bytes parsed := by
  rw [RecordDecoder.advance] at hresult
  split at hresult
  next =>
    obtain rfl := Except.ok.inj hresult
    exact ⟨hdecoder.header, hdecoder.cursor, hdecoder.nextRestart, hdecoder.group⟩
  next => cases hresult

theorem dueRestart_lt {restart : RestartEntry} (h : decoder.dueRestart parsed recordIndex = some restart) :
    decoder.nextRestartIndex < parsed.restarts.length := by
  obtain ⟨hentry, -⟩ := Option.filter_eq_some_iff.mp h
  exact (List.getElem?_eq_some_iff.mp hentry).1

theorem checkedNextGrouped_eq (h : parsed.Fits bytes) (hdecoder : decoder.Inside bytes parsed)
    (hrecord : recordIndex < 2 ^ 32) :
    decoder.checkedNextGrouped bytes parsed decoder.payloadOffset recordIndex =
      .ofExcept (decoder.nextGrouped bytes parsed recordIndex) := by
  rw [RecordDecoder.checkedNextGrouped, RecordDecoder.nextGrouped]
  cases decoder.dueRestart parsed recordIndex with
  | some restart => exact checkedStartGroup_eq h hdecoder restart hrecord
  | none =>
    dsimp only
    rw [checkedGroupDelta_eq h hdecoder]
    exact ofExcept_bind fun delta _ => rfl

theorem nextGrouped_inside (h : parsed.Fits bytes) (hdecoder : decoder.Inside bytes parsed)
    (hresult : decoder.nextGrouped bytes parsed recordIndex = .ok decoder') :
    decoder'.Inside bytes parsed := by
  rw [RecordDecoder.nextGrouped] at hresult
  split at hresult
  next restart hdue => exact startGroup_inside h hdecoder (dueRestart_lt hdue) hresult
  next =>
    obtain ⟨delta, hdelta, hresult⟩ := except_bind_ok hresult
    exact advance_inside (groupDelta_inside h hdecoder hdelta) hresult

theorem legacyTimestamp_inside (hdecoder : decoder.Inside bytes parsed) {recordIndex delta : Nat}
    (hresult : decoder.legacyTimestamp recordIndex delta = .ok decoder') :
    decoder'.Inside bytes parsed := by
  rw [RecordDecoder.legacyTimestamp] at hresult
  split at hresult
  next => cases hresult
  next =>
    split at hresult
    next =>
      obtain rfl := Except.ok.inj hresult
      exact ⟨hdecoder.header, hdecoder.cursor, hdecoder.nextRestart, hdecoder.group⟩
    next =>
      split at hresult
      next =>
        obtain rfl := Except.ok.inj hresult
        exact hdecoder
      next => exact advance_inside hdecoder hresult

theorem delta_inside (h : parsed.Fits bytes) (hdecoder : decoder.Inside bytes parsed)
    (hresult : decodeU64 (bytes.take parsed.recordEnd) decoder.cursor = .ok result) :
    RecordDecoder.Inside bytes parsed { decoder with cursor := result.2 } := by
  have hlength := h.length
  have hheader := hdecoder.header
  obtain ⟨hlt, hle⟩ := delta_cursor hresult
  exact ⟨by simp only; omega, by simp only; omega, hdecoder.nextRestart, hdecoder.group⟩

theorem checkedNextLegacy_eq (h : parsed.Fits bytes) (hdecoder : decoder.Inside bytes parsed) (recordIndex : Nat) :
    decoder.checkedNextLegacy bytes parsed decoder.payloadOffset recordIndex =
      .ofExcept (decoder.nextLegacy bytes parsed recordIndex) := by
  have hrestarts := h.restarts
  rw [RecordDecoder.checkedNextLegacy, RecordDecoder.nextLegacy, checkedDelta_eq h]
  refine ofExcept_bind fun delta hdelta => ofExcept_bind fun stamped hstamped => ?_
  have hnext := (legacyTimestamp_inside (delta_inside h hdecoder hdelta) hstamped).nextRestart
  rw [RecordDecoder.checkedMatchRestart]
  cases stamped.dueRestart parsed recordIndex with
  | none => rfl
  | some restart =>
    refine ofExcept_ite (fun _ => rfl) fun _ => ?_
    rw [add_of_lt (by omega), done_bind]
    rfl

theorem nextLegacy_inside (h : parsed.Fits bytes) (hdecoder : decoder.Inside bytes parsed)
    (hresult : decoder.nextLegacy bytes parsed recordIndex = .ok decoder') :
    decoder'.Inside bytes parsed := by
  obtain ⟨delta, hdelta, hresult⟩ := except_bind_ok hresult
  obtain ⟨stamped, hstamped, hresult⟩ := except_bind_ok hresult
  have hinside := legacyTimestamp_inside (delta_inside h hdecoder hdelta) hstamped
  split at hresult
  next restart hdue =>
    split at hresult
    next => cases hresult
    next =>
      obtain rfl := Except.ok.inj hresult
      exact ⟨hinside.header, hinside.cursor, dueRestart_lt hdue, hinside.group⟩
  next =>
    obtain rfl := Except.ok.inj hresult
    exact hinside

theorem readValue_cursor {result : UInt64 × Nat} (h : readValue bytes cursor recordEnd width = .ok result) :
    cursor ≤ result.2 ∧ result.2 ≤ bytes.length := by
  rw [readValue] at h
  split at h
  next encoded hencoded =>
    split at h
    next hwidth =>
      obtain rfl := Except.ok.inj h
      have hle := (HasAt.of_getRange hencoded).1.length_le
      exact ⟨Nat.le_add_right _ _, by simp only; omega⟩
    next => cases h
  next => cases h

theorem next_eq_bind (decoder : RecordDecoder) (recordIndex : Nat) : decoder.next bytes parsed recordIndex =
    (if parsed.header.flags &&& blockFlagGroupedTimestamps ≠ 0 then
      decoder.nextGrouped bytes parsed recordIndex else decoder.nextLegacy bytes parsed recordIndex) >>= fun stamped =>
    readValue bytes stamped.cursor parsed.recordEnd parsed.valueBytes >>= fun value =>
    .ok (Word.new value.1 (UInt64.ofNat stamped.timestamp), { stamped with cursor := value.2 }) := by
  rw [RecordDecoder.next]
  split <;> rfl

section

variable (h : parsed.Fits bytes)
include h

section

variable (hdecoder : decoder.Inside bytes parsed)
include hdecoder

theorem checkedNextTimestamp_eq (hrecord : recordIndex < 2 ^ 32) :
    decoder.checkedNextTimestamp bytes parsed decoder.payloadOffset recordIndex =
      .ofExcept (if parsed.header.flags &&& blockFlagGroupedTimestamps ≠ 0 then
        decoder.nextGrouped bytes parsed recordIndex else decoder.nextLegacy bytes parsed recordIndex) :=
  ofExcept_ite (fun _ => checkedNextGrouped_eq h hdecoder hrecord) fun _ => checkedNextLegacy_eq h hdecoder recordIndex

theorem nextTimestamp_inside
    (hresult : (if parsed.header.flags &&& blockFlagGroupedTimestamps ≠ 0
      then decoder.nextGrouped bytes parsed recordIndex else decoder.nextLegacy bytes parsed recordIndex) = .ok decoder') :
    decoder'.Inside bytes parsed := by
  split at hresult
  next => exact nextGrouped_inside h hdecoder hresult
  next => exact nextLegacy_inside h hdecoder hresult

theorem checkedNext_eq (hrecord : recordIndex < 2 ^ 32) :
    decoder.checkedNext bytes parsed recordIndex = .ofExcept (decoder.next bytes parsed recordIndex) := by
  have hwidth := h.valueBytes
  rw [RecordDecoder.checkedNext, next_eq_bind, RecordDecoder.checkedPayloadOffset, sub_of_le hdecoder.header,
    done_bind, pure_eq, done_bind]
  show (decoder.checkedNextTimestamp bytes parsed decoder.payloadOffset recordIndex >>= _) = _
  rw [checkedNextTimestamp_eq h hdecoder hrecord]
  refine ofExcept_bind fun stamped hstamped => ?_
  have hcursor := (nextTimestamp_inside h hdecoder hstamped).cursor
  rw [checkedReadValue_eq hwidth (by omega)]
  exact ofExcept_bind fun value _ => rfl

theorem next_inside {result : Word × RecordDecoder}
    (hresult : decoder.next bytes parsed recordIndex = .ok result) : result.2.Inside bytes parsed := by
  have hlength := h.length
  rw [next_eq_bind] at hresult
  obtain ⟨stamped, hstamped, hresult⟩ := except_bind_ok hresult
  obtain ⟨value, hvalue, hresult⟩ := except_bind_ok hresult
  obtain rfl := Except.ok.inj hresult
  have hinside := nextTimestamp_inside h hdecoder hstamped
  have hheader := hinside.header
  obtain ⟨hle, hend⟩ := readValue_cursor hvalue
  exact ⟨by simp only; omega, by simp only; omega, hinside.nextRestart, hinside.group⟩

end

theorem checkedRecords_eq (count : Nat) (hdecoder : decoder.Inside bytes parsed)
    (hrecord : recordIndex + count ≤ 2 ^ 32) :
    RecordDecoder.checkedRecords bytes parsed count recordIndex decoder =
      .ofExcept (RecordDecoder.decodeRecords bytes parsed count recordIndex decoder) := by
  induction count generalizing recordIndex decoder with
  | zero => rfl
  | succ count ih =>
    rw [RecordDecoder.checkedRecords, RecordDecoder.decodeRecords, checkedNext_eq h hdecoder (by omega)]
    refine ofExcept_bind fun first hfirst => ?_
    rw [ih (next_inside h hdecoder hfirst) (by omega)]
    exact ofExcept_bind fun rest _ => rfl

end

end Records

section Tables

variable {bytes : Bytes}

theorem checkedReadRestarts_eq (restartOffset count : Nat) {index : Nat}
    (h : restartOffset + (index + count) * restartEntrySize < 2 ^ 63) :
    checkedReadRestarts bytes restartOffset count index =
      .ofExcept (readRestarts bytes count (restartOffset + index * restartEntrySize)) := by
  induction count generalizing index with
  | zero => rfl
  | succ count ih =>
    have hnext : restartOffset + (index + 1) * restartEntrySize =
        restartOffset + index * restartEntrySize + restartEntrySize := by
      rw [Nat.succ_mul, Nat.add_assoc]
    rw [checkedReadRestarts, readRestarts, mul_of_lt (by unfold restartEntrySize at *; omega), done_bind,
      add_of_lt (by unfold restartEntrySize at *; omega), done_bind,
      checkedReadFrom_eq (by unfold restartEntrySize at *; omega)]
    refine ofExcept_bind fun restart _ => ?_
    rw [ih (by unfold restartEntrySize at *; omega), hnext]
    exact ofExcept_bind fun rest _ => rfl

theorem readRestarts_length {count offset : Nat} {restarts : List RestartEntry}
    (h : readRestarts bytes count offset = .ok restarts) : restarts.length = count := by
  induction count generalizing offset restarts with
  | zero =>
    obtain rfl := Except.ok.inj h
    rfl
  | succ count ih =>
    obtain ⟨restart, -, h⟩ := except_bind_ok h
    obtain ⟨rest, hrest, h⟩ := except_bind_ok h
    obtain rfl := Except.ok.inj h
    rw [List.length_cons, ih hrest]

variable {checksum : BlockChecksum}

variable {blockChecksum : Bytes → Nat → UInt32}

theorem checkedParseWordBlock_eq (h : blockChecksum bytes blockChecksumOffset = checksum.sum bytes blockChecksumOffset) :
    checkedParseWordBlock blockChecksum bytes = .ofExcept (parseWordBlock checksum bytes) := by
  rw [checkedParseWordBlock, parseWordBlock, checkedFromBytes_eq, h]
  refine ofExcept_bind fun header _ => ?_
  refine ofExcept_ite (fun _ => rfl) fun _ => ofExcept_ite (fun _ => rfl) fun _ => ofExcept_ite (fun _ => rfl) fun _ =>
    ofExcept_ite (fun _ => rfl) fun _ => ofExcept_ite (fun _ => rfl) fun _ => ?_
  have hrecord := header.recordPayloadLen.toNat_lt
  have hcount := header.restartCount.toNat_lt
  have hoffset := header.restartTableOffset.toNat_lt
  have hbytes : header.restartCount.toNat * restartEntrySize < 2 ^ 36 := by
    unfold restartEntrySize
    omega
  rw [add_of_lt (by unfold blockHeaderSize; omega), done_bind, mul_of_lt (by omega), done_bind,
    add_of_lt (by omega), done_bind]
  refine ofExcept_ite (fun _ => rfl) fun _ => ?_
  rw [checkedReadRestarts_eq _ _ (by rw [Nat.zero_add]; omega), Nat.zero_mul, Nat.add_zero]
  exact ofExcept_bind fun restarts _ => ofExcept_bind fun _ _ => rfl

structure ParsedWordBlock.Valid (bytes : Bytes) (parsed : ParsedWordBlock) : Prop extends parsed.Fits bytes where
  wordCount : parsed.header.wordCount ≠ 0
  order : validateRestartOrder parsed.restarts parsed.header.wordCount parsed.header.recordPayloadLen = .ok ()

theorem parseWordBlock_valid {parsed : ParsedWordBlock} (h : parseWordBlock checksum bytes = .ok parsed) :
    parsed.Valid bytes := by
  obtain ⟨header, -, h⟩ := except_bind_ok h
  dsimp only at h
  split at h
  next => cases h
  next hlength =>
    split at h
    next => cases h
    next =>
      split at h
      next => cases h
      next hcount =>
        split at h
        next => cases h
        next hwidth =>
          split at h
          next => cases h
          next =>
            split at h
            next => cases h
            next hoffsets =>
              obtain ⟨restarts, hrestarts, h⟩ := except_bind_ok h
              obtain ⟨⟨⟩, horder, h⟩ := except_bind_ok h
              obtain rfl := Except.ok.inj h
              have hlen := readRestarts_length hrestarts
              have hblock := header.blockLen.toNat_lt
              have hrestart := header.restartCount.toNat_lt
              have hvalue : header.valueBytes.toNat ≤ 8 := by
                have hmem := not_not.mp hwidth
                simp only [List.mem_cons, List.not_mem_nil, or_false] at hmem
                rcases hmem with h | h | h | h <;> rw [h] <;> decide
              exact ⟨⟨by omega, by simp only; omega, hvalue, by simp only; omega⟩, hcount, horder⟩

theorem checkedPayloads_eq (hlength : bytes.length < 2 ^ 64 - 1) (wordCount firstRecordIndex count : Nat) (first : Bool)
    (cursor previous : Nat) (words : List Word) :
    checkedPayloads bytes wordCount firstRecordIndex count first cursor previous words =
      .ofExcept (payloadsLoop bytes wordCount firstRecordIndex count first cursor previous words) := by
  induction count generalizing first cursor previous words with
  | zero => rfl
  | succ count ih =>
    rw [checkedPayloads, payloadsLoop, checkedDecodeU64_eq (by omega)]
    refine ofExcept_bind fun indexDelta hdelta => ofExcept_bind fun recordIndex _ => ofExcept_ite (fun _ => rfl) fun _ => ?_
    have hcursor := decodeU64_cursor hdelta
    cases bytes[indexDelta.2]? with
    | none => rfl
    | some kind =>
      dsimp only
      rw [add_of_lt (by omega), done_bind, checkedDecodeU64_eq (by omega)]
      refine ofExcept_bind fun length _ => ofExcept_ite (fun _ => rfl) fun _ => ?_
      cases getRange bytes length.2 (length.2 + length.1) with
      | none => rfl
      | some value => exact ofExcept_bind fun payload _ => ih _ _ _ _

theorem checkedDurations_eq (hlength : bytes.length < 2 ^ 64 - 1) (wordCount firstRecordIndex count : Nat)
    (first : Bool) (cursor previous : Nat) (words : List Word) :
    checkedDurations bytes wordCount firstRecordIndex count first cursor previous words =
      .ofExcept (durationsLoop bytes wordCount firstRecordIndex count first cursor previous words) := by
  induction count generalizing first cursor previous words with
  | zero => rfl
  | succ count ih =>
    rw [checkedDurations, durationsLoop, checkedDecodeU64_eq (by omega)]
    refine ofExcept_bind fun indexDelta _ => ofExcept_bind fun recordIndex _ => ?_
    rw [checkedDecodeU64_eq (by omega)]
    refine ofExcept_bind fun duration _ => ofExcept_ite (fun _ => rfl) fun _ => ofExcept_ite (fun _ => rfl) fun _ => ?_
    exact ih _ _ _ _

theorem parseWordBlock_head {parsed : ParsedWordBlock} (h : parsed.Valid bytes) :
    ∃ restart, parsed.restarts[0]? = some restart := by
  have horder := h.order
  rw [validateRestartOrder] at horder
  cases hrestarts : parsed.restarts with
  | nil =>
    rw [hrestarts] at horder
    cases horder
  | cons restart rest => exact ⟨restart, rfl⟩

theorem applyDurations_eq_bind (parsed : ParsedWordBlock) (firstRecordIndex : Nat) (words : List Word) :
    applyDurations bytes parsed firstRecordIndex words =
      durationsLoop bytes parsed.header.wordCount.toNat firstRecordIndex parsed.header.durationCount.toNat true
        parsed.durationOffset 0 words >>= fun durations =>
      (if parsed.header.flags &&& blockFlagHasPayloads ≠ 0 then
        decodeU64 bytes durations.1 >>= fun payloadCount => payloadsLoop bytes parsed.header.wordCount.toNat
          firstRecordIndex payloadCount.1 true payloadCount.2 0 durations.2
      else .ok durations) >>= fun payloads =>
      match getRange bytes payloads.1 parsed.blockLen with
      | none => .error .truncated
      | some padding =>
        if 7 < padding.length ∨ padding.any (· ≠ 0) then invalid "invalid word-block padding" else .ok payloads.2 := by
  rw [applyDurations]
  refine bind_congr ?_
  rintro ⟨cursor, words⟩
  dsimp only
  split
  · cases decodeU64 bytes cursor <;> rfl
  · rfl

theorem checkedApplyDurations_eq (hlength : bytes.length < 2 ^ 64 - 1) (parsed : ParsedWordBlock)
    (firstRecordIndex : Nat) (words : List Word) : checkedApplyDurations bytes parsed firstRecordIndex words =
      .ofExcept (applyDurations bytes parsed firstRecordIndex words) := by
  rw [checkedApplyDurations, applyDurations_eq_bind, checkedDurations_eq hlength]
  refine ofExcept_bind fun durations _ => ?_
  have htable : checkedPayloadTable bytes parsed firstRecordIndex durations.1 durations.2 =
      .ofExcept (if parsed.header.flags &&& blockFlagHasPayloads ≠ 0 then
        decodeU64 bytes durations.1 >>= fun payloadCount => payloadsLoop bytes parsed.header.wordCount.toNat
          firstRecordIndex payloadCount.1 true payloadCount.2 0 durations.2
      else .ok durations) := by
    refine ofExcept_ite (fun _ => ?_) fun _ => rfl
    rw [checkedDecodeU64_eq (by omega)]
    exact ofExcept_bind fun payloadCount _ => checkedPayloads_eq hlength _ _ _ _ _ _ _
  rw [htable]
  refine ofExcept_bind fun payloads _ => ?_
  cases getRange bytes payloads.1 parsed.blockLen with
  | none => rfl
  | some padding => exact ofExcept_ite (fun _ => rfl) fun _ => rfl

/-- Decoding never aborts: with and without the checks it is the same run. -/
theorem checkedDecodeWordBlock_eq (h : blockChecksum bytes blockChecksumOffset = checksum.sum bytes blockChecksumOffset) :
    checkedDecodeWordBlock blockChecksum bytes = .ofExcept (decodeWordBlock checksum bytes) := by
  rw [checkedDecodeWordBlock, decodeWordBlock, checkedParseWordBlock_eq h]
  refine ofExcept_bind fun parsed hparsed => ?_
  have hvalid := parseWordBlock_valid hparsed
  have hfits := hvalid.toFits
  obtain ⟨restart, hrestart⟩ := parseWordBlock_head hvalid
  have hoffset := restart.payloadOffset.toNat_lt
  have hcount := parsed.header.wordCount.toNat_lt
  have hlength := hfits.length
  rw [restartAt, hrestart, ofOption, done_bind, add_of_lt (by unfold blockHeaderSize; omega), done_bind]
  have hinside : (RecordDecoder.new 0 restart false).Inside bytes parsed :=
    ⟨Nat.le_add_right _ _, by simp only [RecordDecoder.new, blockHeaderSize]; omega, Nat.zero_le _, trivial⟩
  show (RecordDecoder.checkedRecords bytes parsed _ 0 (RecordDecoder.new 0 restart false) >>= _) = _
  rw [checkedRecords_eq hfits _ hinside (by omega)]
  refine ofExcept_bind fun records _ => ofExcept_ite (fun _ => rfl) fun _ => ofExcept_ite (fun _ => rfl) fun _ => ?_
  rw [checkedApplyDurations_eq (by omega)]
  exact ofExcept_bind fun words _ => rfl

end Tables

end LogicConduit
