import LogicConduit.WordIndexFile
import LogicConduit.WordLayout

namespace LogicConduit

section Metadata

variable {bytes : Bytes} {offset : Nat}

theorem HasAt.metadataU32 {value : Nat} (h : HasAt bytes offset (leBytes 4 value)) (hv : value < 2 ^ 32) :
    metadataU32 bytes offset = .ok value := by
  rw [LogicConduit.metadataU32, h.readLe (by omega)]

theorem HasAt.metadataU64 {value : Nat} (h : HasAt bytes offset (leBytes 8 value)) (hv : value < 2 ^ 64) :
    metadataU64 bytes offset = .ok value := by
  rw [LogicConduit.metadataU64, h.readLe (by omega)]

theorem HasAt.metadataU64_exists {x : Bytes} (h : HasAt bytes offset x) (hx : x.length = 8) :
    ∃ value, LogicConduit.metadataU64 bytes offset = .ok value := by
  have hg := h.getRange
  rw [hx] at hg
  exact ⟨ofLeBytes x, by simp [LogicConduit.metadataU64, LogicConduit.readLe, hg]⟩

theorem HasAt.metadataOptionalU64 {value : Option UInt64} (h : HasAt bytes offset (optionalU64Bytes value))
    (hv : ∀ time, value = some time → time.toNat < u64Max) : metadataOptionalU64 bytes offset = .ok value := by
  cases value with
  | none =>
    have hread : LogicConduit.metadataU64 bytes offset = .ok u64Max := HasAt.metadataU64 h (by decide)
    rw [LogicConduit.metadataOptionalU64, hread]
    rfl
  | some time =>
    have hlt := hv time rfl
    have hread : LogicConduit.metadataU64 bytes offset = .ok time.toNat := HasAt.metadataU64 h time.toNat_lt
    rw [LogicConduit.metadataOptionalU64, hread]
    show Except.ok (if time.toNat = u64Max then none else some (UInt64.ofNat time.toNat)) = _
    rw [if_neg (by omega), UInt64.ofNat_toNat]

theorem HasAt.take_drop {x : Bytes} (h : HasAt bytes offset x) : (bytes.drop offset).take x.length = x := by
  obtain ⟨post, hp⟩ := h.drop
  rw [hp, List.take_left' rfl]

end Metadata

section Stamp

variable {checksum : BlockChecksum} {bytes : Bytes} {offset : Nat}

theorem stampChecksum_length (h : offset + 4 ≤ bytes.length) :
    (stampChecksum checksum bytes offset).length = bytes.length :=
  putRange_length (by simpa using h)

theorem stampChecksum_sum (h : offset + 4 ≤ bytes.length) :
    metadataU32 (stampChecksum checksum bytes offset) offset =
      .ok (checksum.sum (stampChecksum checksum bytes offset) offset).toNat := by
  have hat : HasAt (stampChecksum checksum bytes offset) offset (leBytes 4 (checksum.sum bytes offset).toNat) :=
    HasAt.putRange_same _ (by simpa using h)
  rw [hat.metadataU32 (checksum.sum bytes offset).toNat_lt]
  rw [stampChecksum, checksum.ignores _ _ _ (leBytes_length 4 _) h]

theorem HasAt.stampChecksum {x : Bytes} {a : Nat} (hx : HasAt bytes a x) (h : offset + 4 ≤ bytes.length)
    (hd : a + x.length ≤ offset ∨ offset + 4 ≤ a) : HasAt (stampChecksum checksum bytes offset) a x :=
  hx.putRange_disjoint (by simpa using h) (by simpa using hd)

end Stamp

theorem flatMap_record_length {α : Type} {record : α → Bytes} {size : Nat} (h : ∀ x, (record x).length = size)
    (xs : List α) : (xs.flatMap record).length = xs.length * size := by
  induction xs with
  | nil => simp
  | cons x rest ih =>
    rw [List.flatMap_cons, List.length_append, h, ih, List.length_cons, Nat.succ_mul, Nat.add_comm]

variable {bytes : Bytes}

theorem decodeRecordsAt_flatMap {α : Type} {record : α → Bytes} {size : Nat} {decode : Nat → StoreResult α}
    {fits : α → Prop} (hsize : ∀ x, (record x).length = size)
    (hdecode : ∀ x offset, fits x → HasAt bytes offset (record x) → decode offset = .ok x) (xs : List α) (offset : Nat)
    (hxs : ∀ x ∈ xs, fits x) (h : HasAt bytes offset (xs.flatMap record)) :
    decodeRecordsAt decode size xs.length offset = .ok xs := by
  induction xs generalizing offset with
  | nil => rfl
  | cons x rest ih =>
    rw [List.flatMap_cons] at h
    obtain ⟨hx, hrest⟩ := HasAt.append.mp h
    rw [hsize] at hrest
    have hnext := ih (offset + size) (fun other hm => hxs other (List.mem_cons_of_mem _ hm)) hrest
    rw [List.length_cons, decodeRecordsAt, hdecode x offset (hxs x List.mem_cons_self) hx, hnext]
    rfl

namespace BlockDirectoryEntry

section

variable (entry : BlockDirectoryEntry)
include entry

theorem indexFields_inside : ∀ f ∈ entry.indexFields, f.1 + f.2.length ≤ indexRecordSize := by
  simp [indexFields, indexRecordSize]

theorem indexFields_apart : entry.indexFields.Pairwise Apart := by
  simp [indexFields, Apart]

theorem indexRecord_length : entry.indexRecord.length = indexRecordSize := by
  rw [indexRecord, putAll_length, List.length_replicate]
  rw [List.length_replicate]
  exact entry.indexFields_inside

end

/-- The places of an entry fit their fields. -/
structure Fits (entry : BlockDirectoryEntry) : Prop where
  dataOffset : entry.dataOffset < 2 ^ 64
  segmentSequence : entry.segmentSequence < 2 ^ 64
  segmentOffset : entry.segmentOffset < 2 ^ 64

end BlockDirectoryEntry

theorem HasAt.shift {bs x y : Bytes} {a b : Nat} (h : HasAt bs a x) (hy : HasAt x b y) : HasAt bs (a + b) y := by
  obtain ⟨pre, post, rfl, rfl⟩ := h
  obtain ⟨left, right, rfl, rfl⟩ := hy
  exact ⟨pre ++ left, right ++ post, by simp, by simp⟩

theorem decodeIndexEntry_record {entry : BlockDirectoryEntry} {offset : Nat} (hf : entry.Fits)
    (h : HasAt bytes offset entry.indexRecord) : decodeIndexEntry bytes offset = .ok entry := by
  have field : ∀ f ∈ entry.indexFields, HasAt bytes (offset + f.1) f.2 := by
    intro f hm
    refine h.shift (HasAt.putAll_mem ?_ entry.indexFields_apart hm)
    rw [List.length_replicate]
    exact entry.indexFields_inside
  simp only [BlockDirectoryEntry.indexFields, List.forall_mem_cons, Nat.add_zero] at field
  obtain ⟨hseq, hfirst, hlast, hdata, hblock, hcount, hvalue, hflags, hsegment, hsegOffset, -⟩ := field
  have hv : bytes.getD (offset + 40) 0 = entry.valueBytes := by simp [List.getD, hvalue.head]
  have hg : bytes.getD (offset + 41) 0 = entry.flags := by simp [List.getD, hflags.head]
  simp only [decodeIndexEntry, hseq.metadataU64 entry.sequence.toNat_lt,
    hfirst.metadataU64 entry.firstTimestampNs.toNat_lt, hlast.metadataU64 entry.lastTimestampNs.toNat_lt,
    hdata.metadataU64 hf.dataOffset, hblock.metadataU32 entry.blockLen.toNat_lt,
    hcount.metadataU32 entry.wordCount.toNat_lt, hsegment.metadataU64 hf.segmentSequence,
    hsegOffset.metadataU64 hf.segmentOffset, hv, hg, bind, Except.bind, pure, Except.pure, UInt64.ofNat_toNat,
    UInt32.ofNat_toNat]

namespace WordSummaryRecord

theorem indexFields_inside (summary : WordSummaryRecord) :
    ∀ f ∈ summary.indexFields, f.1 + f.2.length ≤ summaryRecordSize := by
  simp [indexFields, summaryRecordSize]

theorem indexFields_apart (summary : WordSummaryRecord) : summary.indexFields.Pairwise Apart := by
  simp [indexFields, Apart]

theorem indexRecord_length (summary : WordSummaryRecord) : summary.indexRecord.length = summaryRecordSize := by
  rw [indexRecord, putAll_length, List.length_replicate]
  rw [List.length_replicate]
  exact summary.indexFields_inside

/-- The numbers of a summary fit their fields. -/
structure Fits (summary : WordSummaryRecord) : Prop where
  startNs : summary.startNs < 2 ^ 64
  endNs : summary.endNs < 2 ^ 64
  wordCount : summary.wordCount < 2 ^ 64
  firstBlock : summary.firstBlock < 2 ^ 64
  blockCount : summary.blockCount < 2 ^ 32

end WordSummaryRecord

variable {key : CacheKey} {index : PersistentIndex}

theorem decodeIndexSummary_record {summary : WordSummaryRecord} {offset : Nat} (hf : summary.Fits)
    (h : HasAt bytes offset summary.indexRecord) : decodeIndexSummary bytes offset = .ok summary := by
  have field : ∀ f ∈ summary.indexFields, HasAt bytes (offset + f.1) f.2 := by
    intro f hm
    refine h.shift (HasAt.putAll_mem ?_ summary.indexFields_apart hm)
    rw [List.length_replicate]
    exact summary.indexFields_inside
  simp only [WordSummaryRecord.indexFields, List.forall_mem_cons, Nat.add_zero] at field
  obtain ⟨hstart, hend, hcount, hfirst, hblocks, -⟩ := field
  simp only [decodeIndexSummary, hstart.metadataU64 hf.startNs, hend.metadataU64 hf.endNs,
    hcount.metadataU64 hf.wordCount, hfirst.metadataU64 hf.firstBlock, hblocks.metadataU32 hf.blockCount, bind,
    Except.bind, pure, Except.pure]

theorem indexHeaderFields_inside (key : CacheKey) (blockCount wordCount : Nat)
    (firstTimestampNs lastTimestampNs : Option UInt64) (dataLen summaryCount : Nat) :
    ∀ f ∈ indexHeaderFields key.bytes blockCount wordCount firstTimestampNs lastTimestampNs dataLen summaryCount,
      f.1 + f.2.length ≤ indexChecksumOffset := by
  simp [indexHeaderFields, indexChecksumOffset, indexMagic, optionalU64Bytes, key.length]

theorem indexHeaderFields_apart (key : CacheKey) (blockCount wordCount : Nat)
    (firstTimestampNs lastTimestampNs : Option UInt64) (dataLen summaryCount : Nat) :
    (indexHeaderFields key.bytes blockCount wordCount firstTimestampNs lastTimestampNs dataLen
      summaryCount).Pairwise Apart := by
  simp [indexHeaderFields, Apart, indexMagic, optionalU64Bytes, key.length]

/-- What `encode_index` has checked and written. -/
structure IndexOf (checksum : BlockChecksum) (key : CacheKey) (index : PersistentIndex) (bytes : Bytes) : Prop where
  valid : validateSummaries index.directory index.presence.leaves index.committedWordCount = .ok ()
  length : bytes.length =
    indexHeaderSize + index.directory.length * indexRecordSize + index.presence.leaves.length * summaryRecordSize
  length_lt : bytes.length < 2 ^ 64
  stamp : metadataU32 bytes indexChecksumOffset = .ok (checksum.sum bytes indexChecksumOffset).toNat
  header : ∀ f ∈ indexHeaderFields key.bytes index.directory.length index.committedWordCount
    index.firstTimestampNs index.lastTimestampNs index.committedDataLen index.presence.leaves.length,
    HasAt bytes f.1 f.2
  entries : HasAt bytes indexHeaderSize (index.directory.flatMap (·.indexRecord))
  summaries : HasAt bytes (indexHeaderSize + index.directory.length * indexRecordSize)
    (index.presence.leaves.flatMap (·.indexRecord))

theorem sizeOr_ok {α : Type} {message : String} {value : Option α} {result : α}
    (h : sizeOr message value = .ok result) : value = some result := by
  cases value with
  | none => cases h
  | some other =>
    cases h
    rfl

theorem checkedMul_some {a b result : Nat} (h : checkedMul a b = some result) : result = a * b := by
  unfold checkedMul at h
  split at h
  · cases h
    rfl
  · cases h

theorem encodeIndex_ok {checksum : BlockChecksum}
    (h : encodeIndex checksum key.bytes index.directory index.presence.leaves index.committedWordCount
      index.committedDataLen index.firstTimestampNs index.lastTimestampNs = .ok bytes) :
    IndexOf checksum key index bytes := by
  obtain ⟨directoryBytes, hdirectory, h⟩ := except_bind_ok h
  obtain ⟨summaryBytes, hsummary, h⟩ := except_bind_ok h
  obtain ⟨indexLen, hlen, h⟩ := except_bind_ok h
  obtain ⟨_, hvalid, h⟩ := except_bind_ok h
  have hdirectory := checkedMul_some (sizeOr_ok hdirectory)
  have hsummary := checkedMul_some (sizeOr_ok hsummary)
  obtain ⟨prefixLen, hfirst, hsecond⟩ := Option.bind_eq_some_iff.mp (sizeOr_ok hlen)
  have hprefix := checkedAdd_some hfirst
  have htotal := checkedAdd_some hsecond
  have hfits : prefixLen + summaryBytes < 2 ^ 64 := by
    unfold checkedAdd at hsecond
    split at hsecond
    next hlt => exact hlt
    next => cases hsecond
  have hinside := indexHeaderFields_inside key index.directory.length index.committedWordCount
    index.firstTimestampNs index.lastTimestampNs index.committedDataLen index.presence.leaves.length
  have hapart := indexHeaderFields_apart key index.directory.length index.committedWordCount
    index.firstTimestampNs index.lastTimestampNs index.committedDataLen index.presence.leaves.length
  generalize hfields : indexHeaderFields key.bytes index.directory.length index.committedWordCount
    index.firstTimestampNs index.lastTimestampNs index.committedDataLen index.presence.leaves.length = fields
    at hinside hapart h
  have hroom : ∀ f ∈ fields, f.1 + f.2.length ≤ (List.replicate indexHeaderSize (0 : UInt8)).length := by
    intro f hm
    have hf := hinside f hm
    rw [List.length_replicate]
    unfold indexChecksumOffset at hf
    unfold indexHeaderSize
    omega
  have hfield : ∀ f ∈ fields, HasAt (putAll (List.replicate indexHeaderSize 0) fields) f.1 f.2 :=
    fun f hm => HasAt.putAll_mem hroom hapart hm
  have hheader : (putAll (List.replicate indexHeaderSize 0) fields).length = indexHeaderSize := by
    rw [putAll_length hroom, List.length_replicate]
  have hentries := flatMap_record_length BlockDirectoryEntry.indexRecord_length index.directory
  have hleaves := flatMap_record_length WordSummaryRecord.indexRecord_length index.presence.leaves
  generalize putAll (List.replicate indexHeaderSize 0) fields = header at h hfield hheader
  have hbytes := Except.ok.inj h
  have hraw : (header ++ index.directory.flatMap (·.indexRecord) ++
      index.presence.leaves.flatMap (·.indexRecord)).length = indexHeaderSize +
        index.directory.length * indexRecordSize + index.presence.leaves.length * summaryRecordSize := by
    rw [List.length_append, List.length_append, hheader, hentries, hleaves]
  have hstamp : indexChecksumOffset + 4 ≤ (header ++ index.directory.flatMap (·.indexRecord) ++
      index.presence.leaves.flatMap (·.indexRecord)).length := by
    rw [hraw]
    unfold indexChecksumOffset indexHeaderSize
    omega
  rw [← hbytes]
  have hlength := (stampChecksum_length hstamp : (stampChecksum checksum _ _).length = _).trans hraw
  refine ⟨hvalid, hlength, ?_, stampChecksum_sum hstamp, ?_, ?_, ?_⟩
  · rw [hlength, ← hdirectory, ← hsummary, ← hprefix]
    exact hfits
  · rw [hfields]
    intro f hm
    exact (hfield f hm).of_append_left.of_append_left.stampChecksum hstamp (Or.inl (hinside f hm))
  · have hat := hasAt_append_right header (index.directory.flatMap (·.indexRecord))
    rw [hheader] at hat
    exact hat.of_append_left.stampChecksum hstamp (Or.inr (by decide))
  · have hat := hasAt_append_right (header ++ index.directory.flatMap (·.indexRecord))
      (index.presence.leaves.flatMap (·.indexRecord))
    rw [List.length_append, hheader, hentries] at hat
    refine hat.stampChecksum hstamp (Or.inr ?_)
    unfold indexChecksumOffset indexHeaderSize
    omega

theorem checkedMul_fits {a b limit : Nat} (h : a * b ≤ limit) (hl : limit < 2 ^ 64) :
    checkedMul a b = some (a * b) :=
  if_pos (by omega)

theorem checkedAdd_fits {a b limit : Nat} (h : a + b ≤ limit) (hl : limit < 2 ^ 64) :
    checkedAdd a b = some (a + b) :=
  if_pos (by omega)

theorem IndexOf.decodeIndex {checksum : BlockChecksum}
    (h : IndexOf checksum key index bytes) (he : ∀ entry ∈ index.directory, entry.Fits)
    (hs : ∀ summary ∈ index.presence.leaves, summary.Fits) (hp : index.presence = .ofLeaves index.presence.leaves)
    (hw : index.committedWordCount < 2 ^ 64) (hd : index.committedDataLen < 2 ^ 64)
    (hfirst : ∀ time, index.firstTimestampNs = some time → time.toNat < u64Max)
    (hlast : ∀ time, index.lastTimestampNs = some time → time.toNat < u64Max) :
    decodeIndex checksum bytes key.bytes = .ok index := by
  have hentries := decodeRecordsAt_flatMap BlockDirectoryEntry.indexRecord_length
    (fun entry offset (hf : entry.Fits) hat => decodeIndexEntry_record hf hat) index.directory indexHeaderSize he
    h.entries
  have hsummaries := decodeRecordsAt_flatMap WordSummaryRecord.indexRecord_length
    (fun summary offset (hf : summary.Fits) hat => decodeIndexSummary_record hf hat) index.presence.leaves _ hs
    h.summaries
  have field := h.header
  simp only [indexHeaderFields, List.forall_mem_cons] at field
  obtain ⟨hmagic, hversion, hformat, hkey, hblocks, hwords, hfirstAt, hlastAt, hdata, hcount, -⟩ := field
  have hlength := h.length
  have hlt := h.length_lt
  have hblockCount : index.directory.length < 2 ^ 64 := by
    unfold indexRecordSize at hlength
    omega
  have hsummaryCount : index.presence.leaves.length < 2 ^ 64 := by
    unfold summaryRecordSize at hlength
    omega
  have hsize : ¬bytes.length < indexHeaderSize := by omega
  have hmagicBytes : bytes.take 8 = indexMagic := hmagic.take_drop
  have hkeyBytes : (bytes.drop 16).take 32 = key.bytes := by
    rw [← key.length]
    exact hkey.take_drop
  have hdirectoryBytes := checkedMul_fits (a := index.directory.length) (b := indexRecordSize)
    (show _ ≤ bytes.length by omega) hlt
  have hsummaryBytes := checkedMul_fits (a := index.presence.leaves.length) (b := summaryRecordSize)
    (show _ ≤ bytes.length by omega) hlt
  have hprefix := checkedAdd_fits (a := indexHeaderSize) (b := index.directory.length * indexRecordSize)
    (show _ ≤ bytes.length by omega) hlt
  have htotal := checkedAdd_fits (a := indexHeaderSize + index.directory.length * indexRecordSize)
    (b := index.presence.leaves.length * summaryRecordSize) (show _ ≤ bytes.length by omega) hlt
  have hfound : index.presence.leaves.foldl WordPresenceIndex.push .new = index.presence := hp.symm
  rw [hlength] at hsize
  simp only [LogicConduit.decodeIndex, hsize, hmagicBytes, hversion.metadataU32 (by decide),
    hformat.metadataU32 (by decide), ne_eq, not_true, or_self, if_false, hkeyBytes, h.stamp,
    hblocks.metadataU64 hblockCount, hcount.metadataU64 hsummaryCount, hdirectoryBytes, hsummaryBytes, hprefix,
    htotal, sizeOr, Option.bind_some, hlength, hentries, hsummaries, hwords.metadataU64 hw, h.valid,
    hdata.metadataU64 hd, hfirstAt.metadataOptionalU64 hfirst, hlastAt.metadataOptionalU64 hlast, hfound, bind,
    Except.bind, pure, Except.pure]

theorem Manifest.fields_inside (manifest : Manifest) (hk : manifest.cacheKey.length = 32) :
    ∀ f ∈ manifest.fields, f.1 + f.2.length ≤ manifestChecksumOffset := by
  simp [fields, manifestChecksumOffset, manifestMagic, hk]

theorem Manifest.fields_apart (manifest : Manifest) (hk : manifest.cacheKey.length = 32) :
    manifest.fields.Pairwise Apart := by
  simp [fields, Apart, manifestMagic, hk]

theorem decodeManifest_encode (checksum : BlockChecksum) (manifest : Manifest)
    (hk : manifest.cacheKey.length = 32) (hd : manifest.dataLen < 2 ^ 64) (hw : manifest.wordCount < 2 ^ 64) :
    ∃ decoded, decodeManifest checksum (encodeManifest checksum manifest) = .ok decoded ∧
      decoded.cacheKey = manifest.cacheKey ∧ decoded.dataLen = manifest.dataLen ∧
      decoded.wordCount = manifest.wordCount := by
  have hroom : ∀ f ∈ manifest.fields, f.1 + f.2.length ≤ (List.replicate manifestSize (0 : UInt8)).length := by
    intro f hm
    have hf := manifest.fields_inside hk f hm
    rw [List.length_replicate]
    unfold manifestChecksumOffset at hf
    unfold manifestSize
    omega
  have hlen : (putAll (List.replicate manifestSize 0) manifest.fields).length = manifestSize := by
    rw [putAll_length hroom, List.length_replicate]
  have hstamp : manifestChecksumOffset + 4 ≤ (putAll (List.replicate manifestSize 0) manifest.fields).length := by
    rw [hlen]
    decide
  have hlength : (encodeManifest checksum manifest).length = manifestSize :=
    (stampChecksum_length hstamp).trans hlen
  have field : ∀ f ∈ manifest.fields, HasAt (encodeManifest checksum manifest) f.1 f.2 := by
    intro f hm
    exact (HasAt.putAll_mem hroom (manifest.fields_apart hk) hm).stampChecksum hstamp
      (Or.inl (manifest.fields_inside hk f hm))
  have hsum : metadataU32 (encodeManifest checksum manifest) manifestChecksumOffset =
      .ok (checksum.sum (encodeManifest checksum manifest) manifestChecksumOffset).toNat := stampChecksum_sum hstamp
  generalize encodeManifest checksum manifest = bytes at *
  simp only [Manifest.fields, List.forall_mem_cons] at field
  obtain ⟨hmagic, hversion, hformat, hkey, hdata, hindex, hwords, hcreated, haccessed, -⟩ := field
  obtain ⟨indexLen, hindexLen⟩ := hindex.metadataU64_exists (leBytes_length 8 _)
  obtain ⟨created, hcreatedNs⟩ := hcreated.metadataU64_exists (leBytes_length 8 _)
  obtain ⟨accessed, haccessedNs⟩ := haccessed.metadataU64_exists (leBytes_length 8 _)
  have hmagicBytes : bytes.take 8 = manifestMagic := hmagic.take_drop
  have hkeyBytes : (bytes.drop 16).take 32 = manifest.cacheKey := by
    rw [← hk]
    exact hkey.take_drop
  refine ⟨⟨manifest.cacheKey, manifest.dataLen, indexLen, manifest.wordCount, created, accessed⟩, ?_, rfl, rfl, rfl⟩
  simp only [decodeManifest, hlength, hmagicBytes, hversion.metadataU32 (by decide),
    hformat.metadataU32 (by decide), ne_eq, not_true, or_self, if_false, hsum, hkeyBytes, hdata.metadataU64 hd,
    hindexLen, hwords.metadataU64 hw, hcreatedNs, haccessedNs, bind, Except.bind, pure, Except.pure]

end LogicConduit
