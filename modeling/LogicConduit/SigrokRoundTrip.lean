import LogicConduit.SigrokMetadata

namespace LogicConduit

theorem entryNumber_logicName {entry : Nat} (h : entry < 2 ^ 64) :
    entryNumber "logic-1".toList (logicName entry) = some entry := by
  have hstrip : stripFront ("logic-1".toList ++ ['-']) (logicName entry) = some (decimal entry) :=
    stripFront_append _ _
  rw [entryNumber, hstrip, Option.bind_some, parseUnsigned_decimal h]

variable {entries : List ArchiveEntry}

section Entries

variable {unitsize : Nat} {chunks : List CaptureChunk} {logic : List ArchiveEntry} {archive : CaptureArchive}

theorem WrittenAs.names {entry : Nat} (h : WrittenAs unitsize entry chunks logic) :
    logic.map Prod.fst = (List.range' entry chunks.length).map logicName := by
  induction chunks generalizing entry logic with
  | nil =>
    cases logic with
    | nil => rfl
    | cons written logic => cases h
  | cons chunk chunks ih =>
    cases logic with
    | nil => cases h
    | cons written logic =>
      obtain ⟨hname, -, hrest⟩ := h
      rw [List.map_cons, ih hrest, List.length_cons, List.range'_succ, List.map_cons]
      exact congrArg (· :: _) hname

theorem WrittenAs.data_length {entry : Nat} (h : WrittenAs unitsize entry chunks logic) :
    (logic.flatMap Prod.snd).length = (timeline chunks).length * unitsize := by
  induction chunks generalizing entry logic with
  | nil =>
    cases logic with
    | nil => simp
    | cons written logic => cases h
  | cons chunk chunks ih =>
    cases logic with
    | nil => cases h
    | cons written logic =>
      obtain ⟨-, hpacked, hrest⟩ := h
      rw [List.flatMap_cons, List.length_append, hpacked.length, ih hrest, timeline_cons, List.length_append,
        CaptureChunk.samples_length, Nat.add_mul]

theorem sortBy_eq_of_perm {α : Type} {key : α → Nat} {l sorted : List α} (h : l.Perm sorted)
    (hsorted : sorted.Pairwise fun a b => key a < key b) : sortBy key l = sorted := by
  have hperm := (sortBy_perm key l).trans h
  have hkeys : (sorted.map key).Nodup := List.pairwise_map.mpr (hsorted.imp Nat.ne_of_lt)
  apply hperm.eq_of_pairwise _ (sortBy_sorted key l) (hsorted.imp Nat.le_of_lt)
  intro a b ha hb hab hba
  exact List.inj_on_of_nodup_map hkeys (hperm.mem_iff.mp ha) hb (Nat.le_antisymm hab hba)

theorem logicEntries_held (harchive : archive.Holds entries)
    (hentries : entries.map Prod.fst = "version".toList :: "metadata".toList :: logic.map Prod.fst)
    (h : WrittenAs unitsize 1 chunks logic) (hlt : chunks.length < 2 ^ 64) :
    logicEntries archive "logic-1".toList = logic.map Prod.fst := by
  apply sortBy_eq_of_perm
  · have hfilter := harchive.names.filter
      fun name => name = "logic-1".toList ∨ (entryNumber "logic-1".toList name).isSome
    have hall : ((logic.map Prod.fst).filter
        fun name => name = "logic-1".toList ∨ (entryNumber "logic-1".toList name).isSome) = logic.map Prod.fst := by
      rw [List.filter_eq_self]
      intro name hname
      rw [h.names] at hname
      obtain ⟨entry, hentry, rfl⟩ := List.mem_map.mp hname
      have hrange := List.mem_range'_1.mp hentry
      rw [entryNumber_logicName (by omega)]
      simp
    rw [hentries, List.filter_cons_of_neg (by decide), List.filter_cons_of_neg (by decide), hall] at hfilter
    exact hfilter
  · rw [h.names, List.pairwise_map]
    have hincreasing : (List.range' 1 chunks.length).Pairwise (· < ·) := List.pairwise_lt_range'
    apply hincreasing.imp_of_mem
    intro i j hi hj hij
    have hi' := List.mem_range'_1.mp hi
    have hj' := List.mem_range'_1.mp hj
    rw [entryNumber_logicName (by omega), entryNumber_logicName (by omega)]
    exact hij

theorem readSamples_held {entries : List ArchiveEntry} (harchive : archive.Holds entries)
    (h : ∀ entry ∈ logic, entry ∈ entries) :
    readSamples archive (logic.map Prod.fst) = .ok (logic.flatMap Prod.snd) := by
  induction logic with
  | nil => rfl
  | cons entry logic ih =>
    have hread := harchive.data entry (h entry List.mem_cons_self)
    have hrest := ih fun other hother => h other (List.mem_cons_of_mem _ hother)
    simp only [List.map_cons, readSamples, hread, hrest, bind, Except.bind, pure, Except.pure, List.flatMap_cons]

theorem WrittenAs.level {descriptor : CaptureStoreDescriptor} {entry sequence start : Nat}
    (h : WrittenAs unitsize entry chunks logic) (hcontiguous : ContiguousFrom descriptor sequence start chunks)
    (hwidth : descriptor.channels.length ≤ 8 * unitsize) {chunk : CaptureChunk} (hmem : chunk ∈ chunks)
    {sample channel : Nat} (hsample : sample < chunk.sampleCount) (hchannel : channel < descriptor.channels.length) :
    chunk.packedLevel sample channel =
      some (bitAt (logic.flatMap Prod.snd) ((chunk.startSample - start + sample) * (8 * unitsize) + channel)) := by
  induction chunks generalizing entry sequence start logic with
  | nil => cases hmem
  | cons first chunks ih =>
    cases logic with
    | nil => cases h
    | cons written logic =>
      obtain ⟨-, hpacked, hrest⟩ := h
      obtain ⟨hfirst, hothers⟩ := hcontiguous
      have hlength : 8 * written.2.length = first.sampleCount * (8 * unitsize) := by
        rw [hpacked.length]
        ring
      rw [List.flatMap_cons]
      rcases List.mem_cons.mp hmem with rfl | hmem
      · have hunder : (sample + 1) * (8 * unitsize) ≤ chunk.sampleCount * (8 * unitsize) :=
          Nat.mul_le_mul_right _ hsample
        rw [Nat.succ_mul] at hunder
        rw [hfirst.startSample, Nat.sub_self, Nat.zero_add, bitAt_append_left _ (by omega)]
        exact hpacked.level sample hsample channel (by rw [hfirst.channels]; exact hchannel)
      · obtain ⟨i, hget⟩ := List.mem_iff_getElem?.mp hmem
        have hstart := (hothers.getElem hget).startSample
        have hend : first.endSample = start + first.sampleCount := by
          rw [CaptureChunk.endSample, hfirst.startSample]
        have hplace : (chunk.startSample - start + sample) * (8 * unitsize) + channel =
            8 * written.2.length + ((chunk.startSample - first.endSample + sample) * (8 * unitsize) + channel) := by
          rw [hlength, ← Nat.add_assoc, ← Nat.add_mul]
          congr 2
          omega
        rw [hplace, bitAt_append_right]
        exact ih hrest hothers hmem

end Entries

theorem SigrokCapture.valueAt_eq_bitAt {floats : FloatOps} {capture : SigrokCapture floats} {channel position : Nat}
    (hchannel : channel < 8 * capture.unitsize) (hroom : (position + 1) * capture.unitsize ≤ capture.samples.length) :
    capture.valueAt channel position = some (bitAt capture.samples (position * (8 * capture.unitsize) + channel)) := by
  have hplace : position * (8 * capture.unitsize) + channel = channel + 8 * (position * capture.unitsize) := by ring
  have hbyte : (position * (8 * capture.unitsize) + channel) / 8 = position * capture.unitsize + channel / 8 := by
    rw [hplace, Nat.add_mul_div_left _ _ (by decide), Nat.add_comm]
  have hbit : (position * (8 * capture.unitsize) + channel) % 8 = channel % 8 := by
    rw [hplace, Nat.add_mul_mod_self_left]
  rw [Nat.succ_mul] at hroom
  have hlt : position * capture.unitsize + channel / 8 < capture.samples.length := by omega
  rw [valueAt, bitAt, hbyte, hbit, List.getElem?_eq_getElem hlt, List.getD_eq_getElem?_getD, List.getElem?_eq_getElem hlt]
  rfl

namespace FinalizedCapture

variable {floats : FloatOps} {digest : Digest} {capture : FinalizedCapture floats digest}
  {metadata : CaptureTimelineMetadata floats} {entries : List ArchiveEntry} {archive : CaptureArchive}

theorem Exported.channels_lt (h : capture.Exported metadata entries) : capture.descriptor.channels.length < 2 ^ 32 := by
  have hget := List.getElem?_eq_getElem (List.length_pos_iff.mpr h.samples)
  obtain ⟨bytes, hbytes⟩ := h.encoded _ (List.mem_of_getElem? hget)
  have hcount := (encodeChunk_eq_ok hbytes).count
  rwa [(capture.contiguous.getElem hget).channels] at hcount

theorem Exported.fromArchive (hfloats : floats.Lawful) (h : capture.Exported metadata entries)
    (harchive : archive.Holds entries) {minimumChannels : Nat} (hlow : 1 ≤ minimumChannels) (hhigh : minimumChannels ≤ 32)
    (hminimum : minimumChannels ≤ capture.descriptor.channels.length) :
    ∃ imported, SigrokCapture.fromArchive floats archive minimumChannels = .ok imported ∧
      imported.header.totalProbes = capture.descriptor.channels.length ∧
      imported.header.totalSamples = (timeline capture.chunks).length ∧
      imported.header.triggerSample = metadata.triggerSample ∧
      imported.header.samplerateHz = metadata.sampleRateHz ∧
      ∀ chunk ∈ capture.chunks, ∀ sample < chunk.sampleCount, ∀ channel < capture.descriptor.channels.length,
        imported.valueAt channel (chunk.startSample + sample) = chunk.packedLevel sample channel := by
  obtain ⟨logic, hentries, hwritten⟩ := h.entries
  have hchannels := h.channels_lt
  have hpos : 0 < capture.descriptor.channels.length := List.length_pos_iff.mpr capture.descriptor.channels_ne
  generalize hunit : (capture.descriptor.channels.length + 7) / 8 = unitsize at hwritten
  have hunitpos : 0 < unitsize := by omega
  have hversion := @checkVersion_held archive entries harchive (by rw [hentries]; exact List.mem_cons_self)
  have hsection := @deviceSection_held floats metadata archive entries hfloats h.lines harchive
    (by rw [hentries]; exact List.mem_cons_of_mem _ List.mem_cons_self)
  have hvalues : DeviceValues metadata _ := deviceTable_values hfloats
  have hlayout := @logicLayout_held floats metadata _ hvalues minimumChannels (by rw [h.names]; exact hchannels)
    (by rw [h.names]; exact hpos) (by rw [h.names]; exact hminimum)
  rw [h.names, hunit] at hlayout
  have hcapturefile : required (deviceTable metadata) "capturefile".toList = .ok "logic-1".toList := by
    rw [required, hvalues.capturefile]
  have hnames := logicEntries_held harchive (by rw [hentries]; rfl) hwritten capture.length_lt
  have hread := @readSamples_held logic archive entries harchive (by
    intro entry hentry
    rw [hentries]
    exact List.mem_cons_of_mem _ (List.mem_cons_of_mem _ hentry))
  have hlength := hwritten.data_length
  have htotal : (logic.flatMap Prod.snd).length / unitsize = (timeline capture.chunks).length := by
    rw [hlength, Nat.mul_div_cancel _ hunitpos]
  have hchunks := length_le_timeline capture.chunks
  have hsome := List.length_pos_iff.mpr h.samples
  have hnonempty : logic.map Prod.fst ≠ [] := by
    rw [hwritten.names]
    intro hempty
    have hzero := congrArg List.length hempty
    simp only [List.length_map, List.length_range', List.length_nil] at hzero
    omega
  have hsamples : logicSamples archive "logic-1".toList unitsize = .ok (logic.flatMap Prod.snd) := by
    simp only [logicSamples, hnames, if_neg hnonempty, hread, bind, Except.bind, pure, Except.pure]
    rw [if_neg (by rw [hlength, Nat.mul_mod_left]; simp), if_neg (by rw [htotal]; omega)]
  simp only [SigrokCapture.fromArchive, if_neg (show ¬(minimumChannels < 1 ∨ 32 < minimumChannels) by omega), hversion,
    hsection, hcapturefile, hlayout, sampleRateField_held hfloats hvalues, triggerField_held hvalues, hsamples, bind,
    Except.bind, pure, Except.pure]
  refine ⟨_, rfl, rfl, htotal, rfl, rfl, ?_⟩
  intro chunk hchunk sample hsample channel hchannel
  have hlevel := hwritten.level capture.contiguous (by omega) hchunk hsample hchannel
  have hrange := (capture.contiguous.mem_range hchunk).2
  rw [CaptureChunk.endSample, Nat.zero_add] at hrange
  rw [Nat.sub_zero] at hlevel
  have hroom : (chunk.startSample + sample + 1) * unitsize ≤ (logic.flatMap Prod.snd).length := by
    rw [hlength]
    exact Nat.mul_le_mul_right unitsize (by omega)
  rw [hlevel, SigrokCapture.valueAt_eq_bitAt (show channel < 8 * unitsize by omega) hroom]

end FinalizedCapture

/-- An archive that an export has written is imported with the probes, the number of samples, the trigger
and the rate of the capture, and with the level of every channel at every position. -/
theorem sigrok_export_import {floats : FloatOps} {digest : Digest} (hfloats : floats.Lawful)
    {capture : FinalizedCapture floats digest} {request : CaptureExportRequest} {env : ExportEnvironment}
    {report : CaptureExportReport} {entries : List ArchiveEntry} {archive : CaptureArchive} {minimumChannels : Nat}
    (hexport : capture.exportFinalizedCapture request env = .ok (report, entries)) (harchive : archive.Holds entries)
    (hlow : 1 ≤ minimumChannels) (hhigh : minimumChannels ≤ 32)
    (hminimum : minimumChannels ≤ capture.descriptor.channels.length) :
    ∃ metadata imported, capture.sessionMetadata.bind CaptureSessionMetadata.timeline = some metadata ∧
      SigrokCapture.fromArchive floats archive minimumChannels = .ok imported ∧
      imported.header.totalProbes = capture.descriptor.channels.length ∧
      imported.header.totalSamples = capture.state.manifest.committedSamples ∧
      imported.header.triggerSample = metadata.triggerSample ∧
      imported.header.samplerateHz = metadata.sampleRateHz ∧
      ∀ position < capture.state.manifest.committedSamples, ∃ chunk ∈ capture.chunks,
        chunk.startSample ≤ position ∧ position < chunk.endSample ∧
        ∀ channel < capture.descriptor.channels.length,
          (imported.valueAt channel position).isSome ∧
          imported.valueAt channel position = chunk.packedLevel (position - chunk.startSample) channel := by
  obtain ⟨metadata, hmetadata, hexported⟩ := FinalizedCapture.exported hexport
  obtain ⟨imported, himported, hprobes, htotal, htrigger, hrate, hlevels⟩ :=
    hexported.fromArchive hfloats harchive hlow hhigh hminimum
  refine ⟨metadata, imported, hmetadata, himported, hprobes, htotal.trans capture.samples.symm, htrigger, hrate, ?_⟩
  intro position hposition
  rw [capture.samples] at hposition
  obtain ⟨chunk, hchunk, hstart, hend⟩ := capture.contiguous.chunk_at (Nat.zero_le position) (by omega)
  refine ⟨chunk, hchunk, hstart, hend, ?_⟩
  intro channel hchannel
  have hsample : position - chunk.startSample < chunk.sampleCount := by
    rw [CaptureChunk.endSample] at hend
    omega
  have hlevel := hlevels chunk hchunk _ hsample channel hchannel
  rw [show chunk.startSample + (position - chunk.startSample) = position by omega] at hlevel
  obtain ⟨i, hget⟩ := List.mem_iff_getElem?.mp hchunk
  have hchannels := (capture.contiguous.getElem hget).channels
  have hsome := CaptureChunk.packedLevel_eq_some hsample (show channel < chunk.channels.length by rwa [hchannels])
  refine ⟨?_, hlevel⟩
  rw [hlevel, hsome]
  rfl

def isWholeRate (rate : Nat) : Bool := decide (0 < rate) && decide (rate < 2 ^ 64)

theorem isWholeRate_lt {rate : Nat} (h : isWholeRate rate = true) : rate < 2 ^ 64 :=
  of_decide_eq_true (Bool.and_eq_true_iff.mp h).2

def wholeRates : FloatOps where
  Value := Nat
  display := decimal
  parse := parseUnsigned
  mul := (· * ·)
  div := (· / ·)
  one := 1
  thousand := 1000
  million := 1000000
  billion := 1000000000
  finitePositive := isWholeRate

theorem wholeRates_lawful : wholeRates.Lawful where
  display_ne rate _ := decimal_ne_nil rate
  display_plain _ _ _ hc := Or.inl (isDigit_of_mem_decimal hc)
  parse_display _ hrate := parseUnsigned_decimal (isWholeRate_lt hrate)
  mul_one rate _ := Nat.mul_one rate

def probeDescriptor : CaptureStoreDescriptor :=
  ⟨7, ["physical:3", "physical:9", "physical:12"], by decide⟩

/-- Two samples behind three spare bits, and a third sample. -/
def probeChunks : List CaptureChunk :=
  [⟨7, 0, 0, 2, probeDescriptor.channels, [0b01110000, 0b1], 3, by decide, by decide, by decide, by decide, by decide,
      by decide⟩,
    ⟨7, 1, 2, 1, probeDescriptor.channels, [0b100], 0, by decide, by decide, Nat.zero_lt_succ 7, by decide, by decide,
      by decide⟩]

def probeTimeline : CaptureTimelineMetadata wholeRates :=
  ⟨(12500000 : Nat), ["Clock".toList, "= data".toList, []], some 1, by decide, by decide, by decide⟩

def probeActions : List StoreAction :=
  probeChunks.flatMap (fun chunk => [.append chunk, .publishChunk none, .commit none]) ++ [.finish]

def probeStore : Option CaptureSystem :=
  (CaptureSystem.create tailDigest probeDescriptor Repository.empty).toOption.bind fun created =>
    created.run tailDigest probeDescriptor probeActions

def probeEnvironment : ExportEnvironment :=
  ⟨false, true, none, fun _ => none, fun _ => false, fun _ => none, false, List.length, String.ofList⟩

def heldArchive (entries : List ArchiveEntry) : CaptureArchive :=
  ⟨(entries.map Prod.fst).reverse, fun name => .ok ((entries.find? fun entry => entry.1 = name).map Prod.snd)⟩

theorem heldArchive_holds (h : (entries.map Prod.fst).Nodup) :
    (heldArchive entries).Holds entries where
  names := List.reverse_perm _
  data := by
    intro entry hentry
    have hfind : entries.find? (fun other => other.1 = entry.1) = some entry := by
      cases hfound : entries.find? fun other => other.1 = entry.1 with
      | none => exact absurd (decide_eq_true rfl) (List.find?_eq_none.mp hfound entry hentry)
      | some other =>
        have hname := List.find?_some hfound
        simp only [decide_eq_true_eq] at hname
        rw [List.inj_on_of_nodup_map h (List.mem_of_find?_eq_some hfound) hentry hname]
    show Except.ok _ = _
    rw [hfind]
    rfl

theorem probeSession_exists : ∃ session : CaptureSession tailDigest probeDescriptor,
    session.system.committed = probeChunks := by
  have hsome : probeStore.isSome = true := by decide +kernel
  have hcommitted : probeStore.map CaptureSystem.committed = some probeChunks := by decide +kernel
  obtain ⟨system, hsystem⟩ := Option.isSome_iff_exists.mp hsome
  obtain ⟨created, hcreated, hrun⟩ := Option.bind_eq_some_iff.mp hsystem
  rw [hsystem] at hcommitted
  exact ⟨CaptureSession.ofRun (toOption_eq_some.mp hcreated) hrun, Option.some.inj hcommitted⟩

def CaptureSession.probeCapture (session : CaptureSession tailDigest probeDescriptor) :
    FinalizedCapture wholeRates tailDigest :=
  session.closeAs (some ⟨some probeTimeline, .complete, 0, 0, none, 0, false⟩)

section Probes

variable {session : CaptureSession tailDigest probeDescriptor} (hchunks : session.system.committed = probeChunks)
include hchunks

theorem CaptureSession.probeCapture_complete : session.probeCapture.Complete := by
  apply FinalizedCapture.closeAs_complete
  rw [hchunks]
  decide

theorem CaptureSession.probeCapture_samples : session.probeCapture.state.manifest.committedSamples = 3 := by
  rw [session.probeCapture.samples, show session.probeCapture.chunks = probeChunks from hchunks]
  rfl

end Probes

theorem sigrok_export_import_probes : ∃ (imported : SigrokCapture wholeRates),
    imported.header.totalProbes = 3 ∧ imported.header.totalSamples = 3 ∧ imported.header.triggerSample = some 1 ∧
      imported.header.samplerateHz = (12500000 : Nat) ∧ imported.valueAt 2 2 = some true := by
  obtain ⟨session, hchunks⟩ := probeSession_exists
  let capture := session.probeCapture
  have hcomplete : capture.Complete := CaptureSession.probeCapture_complete hchunks
  have hall : capture.chunks = probeChunks := hchunks
  have hsamples : capture.state.manifest.committedSamples = 3 := CaptureSession.probeCapture_samples hchunks
  have hfree : probeEnvironment.Free ⟨"probe.sr".toList, false⟩ :=
    ⟨nofun, rfl, rfl, fun _ => rfl, fun _ => rfl, fun _ => rfl⟩
  obtain ⟨report, entries, hexport⟩ := FinalizedCapture.export_free hcomplete
    (show capture.chunks ≠ [] by rw [hall]; decide) (show _ = some probeTimeline from rfl) rfl
    (by rw [hsamples]; decide) (by decide) hfree
  obtain ⟨exported, -, hexported⟩ := FinalizedCapture.exported hexport
  obtain ⟨logic, hentries, hwritten⟩ := hexported.entries
  have hnames : (entries.map Prod.fst).Nodup := by
    rw [hentries, List.map_cons, List.map_cons, hwritten.names, hall]
    exact (by decide : ("version".toList :: "metadata".toList :: (List.range' 1 2).map logicName).Nodup)
  obtain ⟨metadata, imported, hmetadata, -, hprobes, htotal, htrigger, hrate, hlevels⟩ :=
    sigrok_export_import wholeRates_lawful hexport (heldArchive_holds hnames) (show 1 ≤ 3 by decide) (by decide)
      (show 3 ≤ probeDescriptor.channels.length by decide)
  cases Option.some.inj hmetadata
  obtain ⟨chunk, hchunk, hstart, hend, hlevel⟩ := hlevels 2 (by rw [hsamples]; decide)
  have hvalue := (hlevel 2 (show 2 < probeDescriptor.channels.length by decide)).2
  have hthird : chunk.packedLevel (2 - chunk.startSample) 2 = some true := by
    rw [hall] at hchunk
    rcases List.mem_cons.mp hchunk with rfl | hchunk
    · exact absurd hend (by decide)
    · cases List.mem_singleton.mp hchunk
      decide
  exact ⟨imported, hprobes, htotal.trans hsamples, htrigger, hrate, hvalue.trans hthird⟩

section ChannelNames

variable {floats : FloatOps} {metadata : CaptureTimelineMetadata floats}

def Unpadded (text : Text) : Prop :=
  (∀ c ∈ text.head?, isWhiteSpace c = false) ∧ ∀ c ∈ text.getLast?, isWhiteSpace c = false

instance (text : Text) : Decidable (Unpadded text) :=
  decidable_of_iff (((text.head?.toList ++ text.getLast?.toList).all fun c => !isWhiteSpace c) = true)
    (by simp [Unpadded])

theorem unpadded_trim (text : Text) : Unpadded (trim text) := by
  constructor
  · intro c hc
    obtain ⟨rest, hrest⟩ : trim text <+: text.dropWhile isWhiteSpace := List.rdropWhile_prefix _ _
    have hhead := List.head?_dropWhile_not isWhiteSpace text
    have hfirst : (text.dropWhile isWhiteSpace).head? = some c := by
      rw [← hrest, List.head?_append, Option.mem_def.mp hc]
      rfl
    rw [hfirst] at hhead
    exact hhead
  · intro c hc
    obtain ⟨hne, rfl⟩ := List.mem_getLast?_eq_getLast hc
    exact Bool.eq_false_iff.mpr (List.rdropWhile_last_not _ _ hne)

theorem probeName_deviceTable {probe : Nat} {name : Text} (h : metadata.channelNames[probe]? = some name) :
    probeName (deviceTable metadata) probe = fieldValue name := by
  obtain ⟨hprobe, rfl⟩ := List.getElem?_eq_some_iff.mp h
  have hfield : ("probe".toList ++ decimal (probe + 1), metadata.channelNames[probe]) ∈ deviceFields metadata :=
    List.mem_append_right _ (List.mem_mapIdx.mpr ⟨probe, hprobe, rfl⟩)
  rw [probeName, deviceTable_lookup _ hfield, Option.getD_some]

theorem probeNames_deviceTable :
    (List.range metadata.channelNames.length).map (probeName (deviceTable metadata)) =
      metadata.channelNames.map fieldValue := by
  refine List.ext_getElem? fun probe => ?_
  rw [List.getElem?_map, List.getElem?_map]
  by_cases hprobe : probe < metadata.channelNames.length
  · rw [List.getElem?_range hprobe, List.getElem?_eq_getElem hprobe, Option.map_some, Option.map_some,
      probeName_deviceTable (List.getElem?_eq_getElem hprobe)]
  · rw [List.getElem?_eq_none (by simpa using hprobe), List.getElem?_eq_none (by omega)]
    rfl

theorem logicLayout_total {values : TextMap Text} (h : DeviceValues metadata values) {minimumChannels total unitsize : Nat}
    (hlayout : logicLayout values minimumChannels = .ok (total, unitsize)) : total = metadata.channelNames.length := by
  obtain ⟨probes, hprobes, hlayout⟩ := bind_eq_ok.mp hlayout
  obtain ⟨_, -, hlayout⟩ := bind_eq_ok.mp hlayout
  have htotal : probes = total := by
    split at hlayout
    · cases hlayout
    · split at hlayout <;> cases hlayout
      rfl
  obtain ⟨text, htext, hparse⟩ := bind_eq_ok.mp hprobes
  rw [required, h.totalProbes] at htext
  cases htext
  rw [parseUnsigned, if_neg fun hplus => absurd (isDigit_of_mem_decimal (List.mem_of_head? hplus)) (by decide)] at hparse
  have hvalue : Nat.ofDigitChars 10 (decimal metadata.channelNames.length) 0 = metadata.channelNames.length :=
    Nat.ofDigitChars_ten_toDigits
  rw [hvalue] at hparse
  split at hparse
  next hsome =>
    split at hsome <;> cases hsome
    cases hparse
    exact htotal.symm
  next => cases hparse

/-- The names that the exporter lets through come back just when none begins or ends with a blank; all other fields
come back as they were written. -/
theorem channel_names_survive_iff (hfloats : floats.Lawful) {env : ExportEnvironment} {archive : CaptureArchive}
    {entries : List ArchiveEntry} (accepted : validateChannelNames env metadata.channelNames = .ok ())
    (harchive : archive.Holds entries) (hmem : ("metadata".toList, textBytes (metadataText metadata)) ∈ entries) :
    ∃ values, deviceSection archive = .ok values ∧ DeviceValues metadata values ∧
      ((List.range metadata.channelNames.length).map (probeName values) = metadata.channelNames ↔
        ∀ name ∈ metadata.channelNames, Unpadded name) ∧
      ∀ minimumChannels imported, SigrokCapture.fromArchive floats archive minimumChannels = .ok imported →
        imported.header.probeNames = (List.range metadata.channelNames.length).map (probeName values) ∧
        imported.header.totalProbes = metadata.channelNames.length ∧
        imported.header.samplerateHz = metadata.sampleRateHz ∧
        imported.header.triggerSample = metadata.triggerSample := by
  have hvalues : DeviceValues metadata (deviceTable metadata) := deviceTable_values hfloats
  have hsection := deviceSection_held hfloats (FinalizedCapture.validateChannelNames_eq_ok accepted) harchive hmem
  refine ⟨_, hsection, hvalues, ?_, ?_⟩
  · have hself : metadata.channelNames.map fieldValue = metadata.channelNames ↔
        ∀ name ∈ metadata.channelNames, fieldValue name = name := by
      simpa using List.map_inj_left (l := metadata.channelNames) (f := fieldValue) (g := id)
    rw [probeNames_deviceTable, hself]
    constructor
    · intro hsame name hname
      rw [← hsame name hname]
      exact unpadded_trim _
    · exact fun hall name hname => fieldValue_eq_self (hall name hname).1 (hall name hname).2
  · intro minimumChannels imported himport
    unfold SigrokCapture.fromArchive at himport
    split at himport
    · cases himport
    obtain ⟨_, -, himport⟩ := bind_eq_ok.mp himport
    obtain ⟨values, hread, himport⟩ := bind_eq_ok.mp himport
    cases hsection.symm.trans hread
    obtain ⟨_, -, himport⟩ := bind_eq_ok.mp himport
    obtain ⟨⟨total, unitsize⟩, hlayout, himport⟩ := bind_eq_ok.mp himport
    obtain ⟨⟨rate, hertz⟩, hrate, himport⟩ := bind_eq_ok.mp himport
    obtain ⟨trigger, htrigger, himport⟩ := bind_eq_ok.mp himport
    obtain ⟨samples, -, himport⟩ := bind_eq_ok.mp himport
    cases (sampleRateField_held hfloats hvalues).symm.trans hrate
    cases (triggerField_held hvalues).symm.trans htrigger
    cases himport
    have htotal := logicLayout_total hvalues hlayout
    exact ⟨congrArg (fun total => (List.range total).map (probeName (deviceTable metadata))) htotal, htotal, rfl, rfl⟩

theorem channel_names_survive_probes : ∃ values,
    deviceSection (heldArchive [("metadata".toList, textBytes (metadataText probeTimeline))]) = .ok values ∧
      (List.range 3).map (probeName values) = ["Clock".toList, "= data".toList, []] := by
  obtain ⟨values, hvalues, -, hnames, -⟩ := @channel_names_survive_iff _ probeTimeline wholeRates_lawful probeEnvironment
    (heldArchive [("metadata".toList, textBytes (metadataText probeTimeline))]) _ rfl
    (heldArchive_holds (List.nodup_singleton _)) List.mem_cons_self
  exact ⟨values, hvalues, hnames.mpr (by decide)⟩

/-- A blank in front of a name is let through and lost. -/
theorem padded_name_is_trimmed : ∃ metadata : CaptureTimelineMetadata wholeRates,
    validateChannelNames probeEnvironment metadata.channelNames = .ok () ∧ ∃ values,
      deviceSection (heldArchive [("metadata".toList, textBytes (metadataText metadata))]) = .ok values ∧
        (List.range metadata.channelNames.length).map (probeName values) ≠ metadata.channelNames := by
  refine ⟨⟨(1 : Nat), [" D0".toList], none, by decide, by decide, by decide⟩, rfl, _,
    deviceSection_held wholeRates_lawful (by decide) (heldArchive_holds (List.nodup_singleton _)) List.mem_cons_self, ?_⟩
  rw [probeNames_deviceTable]
  decide

end ChannelNames

end LogicConduit
