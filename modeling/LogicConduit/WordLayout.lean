import LogicConduit.WordGroups

namespace LogicConduit

open Vlq

theorem toU32_ok {value : Nat} {what : String} {result : UInt32} (h : toU32 value what = .ok result) :
    value ≤ u32Max ∧ result = UInt32.ofNat value := by
  unfold toU32 at h
  split at h
  next hle =>
    cases h
    exact ⟨hle, rfl⟩
  next => cases h

theorem overflow_ok {α : Type} {value : Option α} {result : α} (h : overflow value = .ok result) :
    value = some result := by
  cases value with
  | none => cases h
  | some value =>
    cases h
    rfl

theorem checkedAdd_some {a b result : Nat} (h : checkedAdd a b = some result) : result = a + b := by
  unfold checkedAdd at h
  split at h
  · exact (Option.some.inj h).symm
  · cases h

variable {bytes : Bytes}

namespace WordBlockHeader

theorem writeTo_drop (header : WordBlockHeader) (h : blockHeaderSize ≤ bytes.length) :
    (header.writeTo bytes).drop blockHeaderSize = bytes.drop blockHeaderSize := by
  have hat : HasAt bytes blockHeaderSize (bytes.drop blockHeaderSize) :=
    ⟨bytes.take blockHeaderSize, [], by simp, by simpa using h⟩
  have hlen := header.writeTo_length h
  have hframe := header.writeTo_frame hat h le_rfl
  have hself : HasAt (header.writeTo bytes) blockHeaderSize ((header.writeTo bytes).drop blockHeaderSize) :=
    ⟨(header.writeTo bytes).take blockHeaderSize, [], by simp, by simp [hlen, h]⟩
  exact hself.unique hframe (by simp [hlen])

theorem writeTo_writeTo (header second : WordBlockHeader) (h : blockHeaderSize ≤ bytes.length) :
    second.writeTo (header.writeTo bytes) = second.writeTo bytes := by
  have hzero : putRange (header.writeTo bytes) 0 (List.replicate blockHeaderSize 0) =
      putRange bytes 0 (List.replicate blockHeaderSize 0) := by
    simp only [putRange, List.take_zero, List.nil_append, List.length_replicate, Nat.zero_add,
      header.writeTo_drop h]
  rw [writeTo, hzero, ← writeTo]

theorem writeTo_checksum (header : WordBlockHeader) (crc32c : UInt32) (h : blockHeaderSize ≤ bytes.length) :
    ({ header with crc32c } : WordBlockHeader).writeTo bytes =
      putRange (header.writeTo bytes) blockChecksumOffset (leBytes 4 crc32c.toNat) := by
  obtain ⟨fields, hf⟩ : ∃ fields : List (Nat × Bytes), ∀ c : UInt32,
      ({ header with crc32c := c } : WordBlockHeader).fields =
        fields ++ [(blockChecksumOffset, leBytes 4 c.toNat)] :=
    ⟨header.fields.take 14, fun _ => rfl⟩
  have hself : header.fields = fields ++ [(blockChecksumOffset, leBytes 4 header.crc32c.toNat)] :=
    hf header.crc32c
  have hlen := @putRange_length bytes (List.replicate blockHeaderSize 0) 0 (by simpa using h)
  have hinit : (putAll (putRange bytes 0 (List.replicate blockHeaderSize 0)) fields).length = bytes.length := by
    rw [putAll_length, hlen]
    intro f hm
    rw [hlen]
    exact (header.fields_inside f (by rw [hself]; exact List.mem_append_left _ hm)).trans h
  simp only [writeTo, hf crc32c, hself, putAll, List.foldl_append, List.foldl_cons, List.foldl_nil] at hinit ⊢
  generalize fields.foldl (fun bs field => putRange bs field.1 field.2)
    (putRange bytes 0 (List.replicate blockHeaderSize 0)) = out at hinit ⊢
  have hroom : blockChecksumOffset ≤ out.length := by
    rw [hinit]
    exact le_trans (by decide) h
  have hd := @drop_putRange out (leBytes 4 header.crc32c.toNat) blockChecksumOffset hroom
  rw [leBytes_length] at hd
  rw [putRange.eq_1 (putRange out blockChecksumOffset (leBytes 4 header.crc32c.toNat)), take_putRange hroom,
    leBytes_length, hd, putRange.eq_1, leBytes_length]

end WordBlockHeader

/-- A sealed block: the bytes of the header and the tables, under the checksum of the block. -/
structure Sealed (checksum : BlockChecksum) (header : WordBlockHeader) (body bytes : Bytes) : Prop where
  fromBytes : WordBlockHeader.fromBytes bytes = .ok header
  sum : checksum.sum bytes blockChecksumOffset = header.crc32c
  length : bytes.length = blockHeaderSize + body.length
  body : HasAt bytes blockHeaderSize body

theorem sealed_writeTo (checksum : BlockChecksum) (header : WordBlockHeader) (body : Bytes) :
    let output := header.writeTo (List.replicate blockHeaderSize 0 ++ body)
    let stamped := { header with crc32c := checksum.sum output blockChecksumOffset }
    Sealed checksum stamped body (stamped.writeTo output) := by
  have hlen : blockHeaderSize ≤ (List.replicate blockHeaderSize (0 : UInt8) ++ body).length := by simp
  have hout := header.writeTo_length hlen
  have hbody : HasAt (List.replicate blockHeaderSize 0 ++ body) blockHeaderSize body :=
    ⟨List.replicate blockHeaderSize 0, [], by simp, by simp⟩
  intro output stamped
  have hout' : blockHeaderSize ≤ output.length := by rw [hout]; exact hlen
  refine ⟨stamped.fromBytes_writeTo hout', ?_, ?_, ?_⟩
  · rw [header.writeTo_writeTo stamped hlen, header.writeTo_checksum _ hlen]
    exact checksum.ignores output _ _ (by simp) (le_trans (by decide) hout')
  · rw [stamped.writeTo_length hout', hout]
    simp
  · exact stamped.writeTo_frame (header.writeTo_frame hbody hlen le_rfl) hout' le_rfl

structure LaidOut (checksum : BlockChecksum) (sequence : UInt64) (words : List Word) (valueBytes : Nat)
    (parts : BlockParts) (header : WordBlockHeader) (bytes : Bytes) : Prop where
  padding : ∃ zeros, zeros ≤ 7 ∧
    Sealed checksum header (tableBytes parts ++ List.replicate zeros 0) bytes
  flags : header.flags = parts.flags
  sequence : header.sequence = sequence
  first : header.firstTimestampNs = (words.head?.map Word.timestampNs).getD 0
  last : header.lastTimestampNs = (words.getLast?.map Word.timestampNs).getD 0
  wordCount : header.wordCount = UInt32.ofNat words.length
  valueBytes : header.valueBytes = UInt8.ofNat valueBytes
  recordLen : header.recordPayloadLen.toNat = parts.records.length
  restartCount : header.restartCount.toNat = parts.restarts.length
  restartOffset : header.restartTableOffset.toNat = blockHeaderSize + parts.records.length
  durationCount : header.durationCount.toNat = parts.durationCount
  durationOffset : header.durationTableOffset.toNat =
    blockHeaderSize + parts.records.length + parts.restarts.length * restartEntrySize
  blockLen : header.blockLen.toNat = bytes.length

theorem flatMap_appendTo_length (restarts : List RestartEntry) :
    (restarts.flatMap RestartEntry.appendTo).length = restarts.length * restartEntrySize := by
  induction restarts with
  | nil => rfl
  | cons restart rest ih =>
    simp only [List.flatMap_cons, List.length_append, ih, RestartEntry.appendTo_length, List.length_cons]
    rw [Nat.add_mul, Nat.one_mul, Nat.add_comm]

theorem layoutBlock_ok {checksum : BlockChecksum} {sequence : UInt64} {words : List Word} {valueBytes : Nat}
    {parts : BlockParts} {metadata : EncodedBlockMetadata}
    (h : layoutBlock checksum sequence words valueBytes parts = .ok (metadata, bytes)) :
    metadata.restarts = parts.restarts ∧
      LaidOut checksum sequence words valueBytes parts metadata.header bytes := by
  obtain ⟨restartTableOffset, hrestart, h⟩ := except_bind_ok h
  obtain ⟨durationTableOffset, hduration, h⟩ := except_bind_ok h
  obtain ⟨unpaddedLen, hunpadded, h⟩ := except_bind_ok h
  obtain ⟨blockLen, hblock, h⟩ := except_bind_ok h
  obtain ⟨recordPayloadLen, hr, h⟩ := except_bind_ok h
  obtain ⟨restartCount, hrc, h⟩ := except_bind_ok h
  obtain ⟨restartOffset, hro, h⟩ := except_bind_ok h
  obtain ⟨durationCount, hdc, h⟩ := except_bind_ok h
  obtain ⟨durationOffset, hdo, h⟩ := except_bind_ok h
  obtain ⟨blockLength, hbl, h⟩ := except_bind_ok h
  have hrestart := checkedAdd_some (overflow_ok hrestart)
  have hduration := checkedAdd_some (overflow_ok hduration)
  obtain ⟨tableLen, htable, hunpadded⟩ := Option.bind_eq_some_iff.mp (overflow_ok hunpadded)
  have htable := checkedAdd_some htable
  have hunpadded := checkedAdd_some hunpadded
  obtain ⟨padded, hpad, hblock⟩ := Option.map_eq_some_iff.mp (overflow_ok hblock)
  have hpad := checkedAdd_some hpad
  obtain ⟨hr', rfl⟩ := toU32_ok hr
  obtain ⟨hrc', rfl⟩ := toU32_ok hrc
  obtain ⟨hro', rfl⟩ := toU32_ok hro
  obtain ⟨hdc', rfl⟩ := toU32_ok hdc
  obtain ⟨hdo', rfl⟩ := toU32_ok hdo
  obtain ⟨hbl', rfl⟩ := toU32_ok hbl
  have hsize : (tableBytes parts).length = unpaddedLen - blockHeaderSize := by
    simp only [tableBytes, List.length_append, flatMap_appendTo_length]
    omega
  have hhead : blockHeaderSize ≤ unpaddedLen := by omega
  have htotal : (List.replicate blockHeaderSize (0 : UInt8) ++ tableBytes parts).length = unpaddedLen := by
    simp only [List.length_append, List.length_replicate]
    omega
  have hseal := sealed_writeTo checksum {
    flags := parts.flags
    sequence
    firstTimestampNs := (words.head?.map Word.timestampNs).getD 0
    lastTimestampNs := (words.getLast?.map Word.timestampNs).getD 0
    wordCount := UInt32.ofNat words.length
    valueBytes := UInt8.ofNat valueBytes
    recordPayloadLen := UInt32.ofNat parts.records.length
    restartCount := UInt32.ofNat parts.restarts.length
    restartTableOffset := UInt32.ofNat restartTableOffset
    durationCount := UInt32.ofNat parts.durationCount
    durationTableOffset := UInt32.ofNat durationTableOffset
    blockLen := UInt32.ofNat blockLen
    crc32c := 0 } (tableBytes parts ++ List.replicate (blockLen - unpaddedLen) 0)
  dsimp only at h
  rw [htotal] at h
  rw [← List.append_assoc] at hseal
  cases h
  have hlen := hseal.length
  simp only [List.length_append, List.length_replicate] at hlen
  refine ⟨rfl, ⟨⟨blockLen - unpaddedLen, by omega, hseal⟩, rfl, rfl, rfl, rfl, rfl, rfl,
    u32_toNat_ofNat hr', u32_toNat_ofNat hrc', ?_, u32_toNat_ofNat hdc', ?_, ?_⟩⟩
  · exact (u32_toNat_ofNat hro').trans hrestart
  · exact (u32_toNat_ofNat hdo').trans (by omega)
  · refine (u32_toNat_ofNat hbl').trans ?_
    omega

end LogicConduit
