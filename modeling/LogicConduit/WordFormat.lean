import LogicConduit.WordVlq
import LogicConduit.WordEvents

namespace LogicConduit

def blockMagic : Bytes := [0x44, 0x57, 0x42, 0x4c]
def blockFlagHasDurations : UInt16 := 1
def blockFlagHasPayloads : UInt16 := 2
def blockFlagGroupedTimestamps : UInt16 := 4
def blockHeaderSize : Nat := 72
def restartEntrySize : Nat := 16
def blockChecksumOffset : Nat := 64

def invalid {α : Type} (message : String) : CodecResult α :=
  .error (.invalidFormat message)

structure WordBlockHeader where
  flags : UInt16
  sequence : UInt64
  firstTimestampNs : UInt64
  lastTimestampNs : UInt64
  wordCount : UInt32
  valueBytes : UInt8
  recordPayloadLen : UInt32
  restartCount : UInt32
  restartTableOffset : UInt32
  durationCount : UInt32
  durationTableOffset : UInt32
  blockLen : UInt32
  crc32c : UInt32
  deriving DecidableEq

structure RestartEntry where
  timestampNs : UInt64
  /-- Byte offset relative to the start of the record payload. -/
  payloadOffset : UInt32
  recordIndex : UInt32
  deriving DecidableEq

def getU16 (bytes : Bytes) (offset : Nat) : CodecResult UInt16 :=
  match readLe bytes offset 2 with
  | some value => .ok (UInt16.ofNat value)
  | none => .error .truncated

def getU32 (bytes : Bytes) (offset : Nat) : CodecResult UInt32 :=
  match readLe bytes offset 4 with
  | some value => .ok (UInt32.ofNat value)
  | none => .error .truncated

def getU64 (bytes : Bytes) (offset : Nat) : CodecResult UInt64 :=
  match readLe bytes offset 8 with
  | some value => .ok (UInt64.ofNat value)
  | none => .error .truncated

variable {a : Nat} {bs : Bytes}

theorem HasAt.getU16 {v : UInt16} (h : HasAt bs a (leBytes 2 v.toNat)) : getU16 bs a = .ok v := by
  simp [LogicConduit.getU16, h.readLe v.toNat_lt]

theorem HasAt.getU32 {v : UInt32} (h : HasAt bs a (leBytes 4 v.toNat)) : getU32 bs a = .ok v := by
  simp [LogicConduit.getU32, h.readLe v.toNat_lt]

theorem HasAt.getU64 {v : UInt64} (h : HasAt bs a (leBytes 8 v.toNat)) : getU64 bs a = .ok v := by
  simp [LogicConduit.getU64, h.readLe v.toNat_lt]

variable {bytes : Bytes}

namespace WordBlockHeader

def fields (header : WordBlockHeader) : List (Nat × Bytes) :=
  [(0, blockMagic), (4, leBytes 2 blockHeaderSize), (6, leBytes 2 header.flags.toNat),
   (8, leBytes 8 header.sequence.toNat), (16, leBytes 8 header.firstTimestampNs.toNat),
   (24, leBytes 8 header.lastTimestampNs.toNat), (32, leBytes 4 header.wordCount.toNat),
   (36, [header.valueBytes]), (40, leBytes 4 header.recordPayloadLen.toNat),
   (44, leBytes 4 header.restartCount.toNat), (48, leBytes 4 header.restartTableOffset.toNat),
   (52, leBytes 4 header.durationCount.toNat), (56, leBytes 4 header.durationTableOffset.toNat),
   (60, leBytes 4 header.blockLen.toNat), (blockChecksumOffset, leBytes 4 header.crc32c.toNat)]

def writeTo (header : WordBlockHeader) (bytes : Bytes) : Bytes :=
  putAll (putRange bytes 0 (List.replicate blockHeaderSize 0)) header.fields

def fromBytes (bytes : Bytes) : CodecResult WordBlockHeader := do
  if bytes.length < blockHeaderSize then
    throw .truncated
  if bytes.take 4 ≠ blockMagic then
    invalid "invalid word-block magic"
  if (← getU16 bytes 4).toNat ≠ blockHeaderSize then
    invalid "invalid word-block header size"
  if ((bytes.drop 37).take 3).any (· ≠ 0) || ((bytes.drop 68).take 4).any (· ≠ 0) then
    invalid "non-zero reserved word-block header bytes"
  return {
    flags := ← getU16 bytes 6
    sequence := ← getU64 bytes 8
    firstTimestampNs := ← getU64 bytes 16
    lastTimestampNs := ← getU64 bytes 24
    wordCount := ← getU32 bytes 32
    valueBytes := bytes.getD 36 0
    recordPayloadLen := ← getU32 bytes 40
    restartCount := ← getU32 bytes 44
    restartTableOffset := ← getU32 bytes 48
    durationCount := ← getU32 bytes 52
    durationTableOffset := ← getU32 bytes 56
    blockLen := ← getU32 bytes 60
    crc32c := ← getU32 bytes blockChecksumOffset }

theorem fields_inside (header : WordBlockHeader) :
    ∀ f ∈ header.fields, f.1 + f.2.length ≤ blockHeaderSize := by
  simp [fields, blockHeaderSize, blockMagic, blockChecksumOffset]

theorem fields_apart (header : WordBlockHeader) : header.fields.Pairwise Apart := by
  simp [fields, Apart, blockMagic, blockChecksumOffset]

theorem writeTo_length (header : WordBlockHeader) (h : blockHeaderSize ≤ bytes.length) :
    (header.writeTo bytes).length = bytes.length := by
  have hz : (putRange bytes 0 (List.replicate blockHeaderSize 0)).length = bytes.length :=
    putRange_length (by simpa using h)
  rw [writeTo, putAll_length, hz]
  exact fun f hf => by rw [hz]; exact (header.fields_inside f hf).trans h

theorem writeTo_field (header : WordBlockHeader) (h : blockHeaderSize ≤ bytes.length)
    {f : Nat × Bytes} (hf : f ∈ header.fields) : HasAt (header.writeTo bytes) f.1 f.2 := by
  have hz : (putRange bytes 0 (List.replicate blockHeaderSize 0)).length = bytes.length :=
    putRange_length (by simpa using h)
  exact HasAt.putAll_mem (fun f hf => by rw [hz]; exact (header.fields_inside f hf).trans h)
    header.fields_apart hf

theorem writeTo_frame (header : WordBlockHeader) {bytes x : Bytes} (h : HasAt bytes a x)
    (hb : blockHeaderSize ≤ bytes.length) (ha : blockHeaderSize ≤ a) :
    HasAt (header.writeTo bytes) a x := by
  have hz : (putRange bytes 0 (List.replicate blockHeaderSize 0)).length = bytes.length :=
    putRange_length (by simpa using hb)
  have h0 : HasAt (putRange bytes 0 (List.replicate blockHeaderSize 0)) a x :=
    h.putRange_disjoint (by simpa using hb) (by simp; omega)
  refine h0.putAll_frame (fun f hf => ?_) (fun f hf => Or.inr ?_)
  · rw [hz]; exact (header.fields_inside f hf).trans hb
  · exact (header.fields_inside f hf).trans ha

theorem writeTo_reserved (header : WordBlockHeader) {a n : Nat} (h : blockHeaderSize ≤ bytes.length)
    (ha : a + n ≤ blockHeaderSize) (hd : ∀ f ∈ header.fields, a + n ≤ f.1 ∨ f.1 + f.2.length ≤ a) :
    HasAt (header.writeTo bytes) a (List.replicate n 0) := by
  have hb : 0 + (List.replicate blockHeaderSize (0 : UInt8)).length ≤ bytes.length := by simpa using h
  have hz := HasAt.putRange_same (List.replicate blockHeaderSize 0) hb
  rw [show blockHeaderSize = a + (n + (blockHeaderSize - (a + n))) by omega,
    List.replicate_add, List.replicate_add] at hz
  have h0 := (HasAt.append.mp (HasAt.append.mp hz).2).1
  rw [← List.replicate_add, ← List.replicate_add,
    show a + (n + (blockHeaderSize - (a + n))) = blockHeaderSize by omega] at h0
  simp only [List.length_replicate, Nat.zero_add] at h0
  refine h0.putAll_frame (fun f hf => ?_) (fun f hf => by simpa [Apart] using hd f hf)
  rw [putRange_length hb]
  exact (header.fields_inside f hf).trans h

theorem fromBytes_writeTo (header : WordBlockHeader) (h : blockHeaderSize ≤ bytes.length) :
    fromBytes (header.writeTo bytes) = .ok header := by
  have hl := header.writeTo_length h
  have field : ∀ f ∈ header.fields, HasAt (header.writeTo bytes) f.1 f.2 :=
    fun f hf => header.writeTo_field h hf
  have hr1 : HasAt (header.writeTo bytes) 37 [0, 0, 0] :=
    header.writeTo_reserved (n := 3) h (by decide) (by simp [fields, blockChecksumOffset, blockMagic])
  have hr2 : HasAt (header.writeTo bytes) 68 [0, 0, 0, 0] :=
    header.writeTo_reserved (n := 4) h (by decide) (by simp [fields, blockChecksumOffset, blockMagic])
  generalize header.writeTo bytes = out at *
  simp only [fields, List.forall_mem_cons] at field
  obtain ⟨hmagic, hsize, hflags, hseq, hfirst, hlast, hcount, hvalue, hrecord, hrestart,
    hrestartOff, hdur, hdurOff, hblock, hcrc, -⟩ := field
  have hlen : ¬out.length < blockHeaderSize := by omega
  have hm : out.take 4 = blockMagic := by
    obtain ⟨post, hp⟩ := hmagic.drop
    rw [List.drop_zero] at hp
    rw [hp]; rfl
  have hs : getU16 out 4 = .ok (UInt16.ofNat blockHeaderSize) := HasAt.getU16 hsize
  have hz1 : ((out.drop 37).take 3).any (· ≠ 0) = false := by
    obtain ⟨post, hp⟩ := hr1.drop
    rw [hp]; rfl
  have hz2 : ((out.drop 68).take 4).any (· ≠ 0) = false := by
    obtain ⟨post, hp⟩ := hr2.drop
    rw [hp]; rfl
  have hv : out.getD 36 0 = header.valueBytes := by simp [List.getD, hvalue.head]
  simp only [fromBytes, hlen, hm, hs, hz1, hz2, hflags.getU16, hseq.getU64, hfirst.getU64,
    hlast.getU64, hcount.getU32, hv, hrecord.getU32, hrestart.getU32, hrestartOff.getU32,
    hdur.getU32, hdurOff.getU32, hblock.getU32, hcrc.getU32]
  rfl
end WordBlockHeader

namespace RestartEntry

def appendTo (entry : RestartEntry) : Bytes :=
  leBytes 8 entry.timestampNs.toNat ++ leBytes 4 entry.payloadOffset.toNat ++
    leBytes 4 entry.recordIndex.toNat

def readFrom (bytes : Bytes) (offset : Nat) : CodecResult RestartEntry := do
  return {
    timestampNs := ← getU64 bytes offset
    payloadOffset := ← getU32 bytes (offset + 8)
    recordIndex := ← getU32 bytes (offset + 12) }

@[simp] theorem appendTo_length (entry : RestartEntry) : entry.appendTo.length = restartEntrySize := by
  simp [appendTo, restartEntrySize]

theorem readFrom_appendTo {entry : RestartEntry} {offset : Nat}
    (h : HasAt bytes offset entry.appendTo) : readFrom bytes offset = .ok entry := by
  obtain ⟨h, hindex⟩ := HasAt.append.mp h
  obtain ⟨htime, hoffset⟩ := HasAt.append.mp h
  simp only [leBytes_length, List.length_append] at hoffset hindex
  simp only [readFrom, htime.getU64, hoffset.getU32, hindex.getU32]
  rfl

end RestartEntry

end LogicConduit
