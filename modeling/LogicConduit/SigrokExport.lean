import LogicConduit.FinalizedCapture

namespace LogicConduit

theorem bind_eq_ok {ε α β : Type} {x : Except ε α} {f : α → Except ε β} {result : β} :
    (x >>= f) = .ok result ↔ ∃ a, x = .ok a ∧ f a = .ok result := by
  cases x with
  | error error => simp [bind, Except.bind]
  | ok a => simp [bind, Except.bind]

theorem map_eq_ok {ε α β : Type} {x : Except ε α} {f : α → β} {result : β} :
    x.map f = .ok result ↔ ∃ a, x = .ok a ∧ f a = result := by
  cases x with
  | error error => simp [Except.map]
  | ok a => simp [Except.map]

theorem toOption_eq_some {ε α : Type} {x : Except ε α} {a : α} : x.toOption = some a ↔ x = .ok a := by
  cases x with
  | error error => simp [Except.toOption]
  | ok b => simp [Except.toOption]

theorem foldlM_eq_ok {ε α β : Type} {f : β → α → Except ε β} {g : β → α → β}
    (h : ∀ b a b', f b a = .ok b' → b' = g b a) {l : List α} {start result : β}
    (hfold : l.foldlM f start = .ok result) : result = l.foldl g start := by
  induction l generalizing start with
  | nil => exact (Except.ok.inj hfold).symm
  | cons a l ih =>
    rw [List.foldlM_cons, bind_eq_ok] at hfold
    obtain ⟨middle, hstep, hrest⟩ := hfold
    rw [List.foldl_cons, ← h start a middle hstep]
    exact ih hrest

theorem foldlM_ok {ε α β : Type} {f : β → α → Except ε β} {g : β → α → β} {l : List α}
    (h : ∀ b, ∀ a ∈ l, f b a = .ok (g b a)) (start : β) : l.foldlM f start = .ok (l.foldl g start) := by
  induction l generalizing start with
  | nil => rfl
  | cons a l ih =>
    rw [List.foldlM_cons, h start a List.mem_cons_self]
    exact ih (fun b a' ha' => h b a' (List.mem_cons_of_mem _ ha')) (g start a)

inductive CaptureExportError
  | missingTimelineMetadata
  | emptyCapture
  | destinationExists (destination : Text)
  | invalidDestination (destination : Text)
  | cancelled
  | inconsistentCapture (message : String)
  | store (error : CaptureStoreError)
  | destinationIo (message : String)
  | archive (message : String)
  deriving DecidableEq

structure CaptureExportRequest where
  destination : Text
  overwrite : Bool

inductive CaptureExportWarning
  | portableTriggerMetadataExtension
  deriving DecidableEq

structure CaptureExportReport where
  destination : Text
  samplesWritten : Nat
  encodedBytes : Nat
  warnings : List CaptureExportWarning

abbrev ArchiveEntry := Text × Bytes

/-- Where the observer is asked whether the export is cancelled. -/
inductive ExportPoll
  | chunk (entry : Nat)
  | sample (entry sample : Nat)
  | publication

inductive ExportIo
  | newTemporary
  | startFile (name : Text)
  | writeAll (name : Text)
  | finish
  | removeFile
  | persist
  | fileLength

/-- What an export meets outside the capture: the destination, a repository that may refuse a chunk, the
observer, and calls that may fail. -/
structure ExportEnvironment where
  destinationExists : Bool
  parentIsDir : Bool
  metadataFails : Option CaptureStoreError
  refused : Nat → Option RepositoryError
  isCancelled : ExportPoll → Bool
  fails : ExportIo → Option CaptureExportError
  existsAtPublication : Bool
  encodedBytes : List ArchiveEntry → Nat
  -- how `{:?}` prints a text
  debug : Text → String

def inconsistent {α : Type} (message : String) : Except CaptureExportError α := .error (.inconsistentCapture message)

def ExportEnvironment.io (env : ExportEnvironment) (call : ExportIo) : Except CaptureExportError Unit :=
  match env.fails call with
  | none => .ok ()
  | some error => .error error

def ExportEnvironment.poll (env : ExportEnvironment) (place : ExportPoll) : Except CaptureExportError Unit :=
  if env.isCancelled place then .error .cancelled else .ok ()

def ExportEnvironment.removeOld (env : ExportEnvironment) : Except CaptureExportError Unit :=
  if env.existsAtPublication then env.io .removeFile else .ok ()

def textBytes (text : Text) : Bytes := utf8Bytes (String.ofList text)

def fieldLine (key value : Text) : Text := key ++ '=' :: value

def deviceFields {floats : FloatOps} (metadata : CaptureTimelineMetadata floats) : List (Text × Text) :=
  [("capturefile".toList, "logic-1".toList),
    ("total probes".toList, decimal metadata.channelNames.length),
    ("total analog".toList, "0".toList),
    ("samplerate".toList, floats.display metadata.sampleRateHz ++ " Hz".toList),
    ("unitsize".toList, decimal ((metadata.channelNames.length + 7) / 8))] ++
  metadata.triggerSample.toList.map (fun sample => ("trigger sample".toList, decimal sample)) ++
  metadata.channelNames.mapIdx fun channel name => ("probe".toList ++ decimal (channel + 1), name)

def metadataLines {floats : FloatOps} (metadata : CaptureTimelineMetadata floats) : List Text :=
  ["[global]".toList, fieldLine "sigrok version".toList "dsl".toList, "[device 1]".toList] ++
    (deviceFields metadata).map fun field => fieldLine field.1 field.2

def metadataText {floats : FloatOps} (metadata : CaptureTimelineMetadata floats) : Text :=
  (metadataLines metadata).flatMap (· ++ ['\n'])

def logicName (entry : Nat) : Text := "logic-1-".toList ++ decimal entry

/-- The body of the innermost loop of `write_sigrok_chunk`. -/
def packLevel (chunk : CaptureChunk) (unitsize sample : Nat) (output : Bytes) (channel : Nat) :
    Except CaptureExportError Bytes :=
  match chunk.packedLevel sample channel with
  | none => inconsistent s!"chunk {chunk.sequence} has no sample {sample}, channel {channel}"
  | some true =>
    .ok (output.modify (sample * unitsize + channel / 8) (· ||| UInt8.ofNat (2 ^ (channel % 8))))
  | some false => .ok output

def packSample (env : ExportEnvironment) (chunk : CaptureChunk) (channelCount unitsize entry : Nat) (output : Bytes)
    (sample : Nat) : Except CaptureExportError Bytes :=
  if sample % 16384 = 0 ∧ env.isCancelled (.sample entry sample) then .error .cancelled
  else (List.range channelCount).foldlM (packLevel chunk unitsize sample) output

def sigrokChunk (env : ExportEnvironment) (chunk : CaptureChunk) (channelCount unitsize entry : Nat) :
    Except CaptureExportError Bytes :=
  if channelCount % 8 = 0 ∧ chunk.bitOffset = 0 then
    if 2 ^ 64 ≤ chunk.sampleCount * unitsize then inconsistent "portable chunk is too large"
    else if chunk.bytes.length < chunk.sampleCount * unitsize then inconsistent "portable chunk payload is truncated"
    else .ok (chunk.bytes.take (chunk.sampleCount * unitsize))
  else if 2 ^ 64 ≤ chunk.sampleCount * unitsize then inconsistent "portable chunk is too large"
  else
    (List.range chunk.sampleCount).foldlM (packSample env chunk channelCount unitsize entry)
      (List.replicate (chunk.sampleCount * unitsize) 0)

/-- The bytes of a chunk, one unit of `unitsize` bytes for each sample. -/
structure PackedAs (chunk : CaptureChunk) (unitsize : Nat) (data : Bytes) : Prop where
  length : data.length = chunk.sampleCount * unitsize
  level : ∀ sample < chunk.sampleCount, ∀ channel < chunk.channels.length,
    chunk.packedLevel sample channel = some (bitAt data (sample * (8 * unitsize) + channel))

section Chunk

variable {env : ExportEnvironment} {chunk : CaptureChunk} {channelCount unitsize sample channel entry : Nat}
  {output packed : Bytes}

/-- The levels of a sample, as `setBitRows` sets them. -/
def isHigh (chunk : CaptureChunk) (sample channel : Nat) : Bool := chunk.packedLevel sample channel = some true

theorem packLevel_eq (hlevel : chunk.packedLevel sample channel ≠ none) :
    packLevel chunk unitsize sample output channel =
      .ok (if isHigh chunk sample channel then setBitAt output (sample * (8 * unitsize) + channel) else output) := by
  have hplace : (sample * (8 * unitsize) + channel) / 8 = sample * unitsize + channel / 8 := by
    rw [show sample * (8 * unitsize) + channel = channel + 8 * (sample * unitsize) by ring,
      Nat.add_mul_div_left _ _ (by decide)]
    omega
  have hbit : (sample * (8 * unitsize) + channel) % 8 = channel % 8 := by
    rw [show sample * (8 * unitsize) + channel = channel + 8 * (sample * unitsize) by ring, Nat.add_mul_mod_self_left]
  obtain ⟨level, hsome⟩ := Option.ne_none_iff_exists'.mp hlevel
  cases level with
  | false => simp [packLevel, isHigh, hsome]
  | true => simp [packLevel, isHigh, hsome, setBitAt, hplace, hbit]

theorem packSample_eq_ok (h : packSample env chunk channelCount unitsize entry output sample = .ok packed) :
    packed = setBitsWhere (isHigh chunk sample) (fun channel => sample * (8 * unitsize) + channel)
      (List.range channelCount) output := by
  unfold packSample at h
  split at h
  · cases h
  · apply foldlM_eq_ok _ h
    intro bytes channel bytes' hstep
    have hlevel : chunk.packedLevel sample channel ≠ none := by
      intro hnone
      simp only [packLevel, hnone] at hstep
      cases hstep
    rw [packLevel_eq hlevel] at hstep
    exact (Except.ok.inj hstep).symm

theorem sigrokChunk_packed {data : Bytes}
    (h : sigrokChunk env chunk chunk.channels.length ((chunk.channels.length + 7) / 8) entry = .ok data) :
    PackedAs chunk ((chunk.channels.length + 7) / 8) data := by
  generalize hcount : chunk.channels.length = count at h
  generalize hunit : (count + 7) / 8 = unitsize at h ⊢
  unfold sigrokChunk at h
  split at h
  next hdirect =>
    obtain ⟨hmul, hoffset⟩ := hdirect
    split at h
    · cases h
    · split at h
      · cases h
      next hroom =>
        cases h
        have hlen : (chunk.bytes.take (chunk.sampleCount * unitsize)).length = chunk.sampleCount * unitsize := by
          rw [List.length_take]
          omega
        refine ⟨hlen, ?_⟩
        intro sample hsample channel hchannel
        have hwidth : 8 * unitsize = count := by omega
        have hunder : (sample * count + channel) / 8 < chunk.sampleCount * unitsize := by
          have hle : (sample + 1) * count ≤ chunk.sampleCount * count := Nat.mul_le_mul_right _ hsample
          have hbytes : 8 * (chunk.sampleCount * unitsize) = chunk.sampleCount * count := by
            rw [← hwidth]
            ring
          rw [Nat.succ_mul] at hle
          omega
        rw [CaptureChunk.packedLevel_eq_some hsample hchannel, hoffset, hcount, hwidth, Nat.add_zero]
        simp only [bitAt, List.getD_eq_getElem?_getD, List.getElem?_take, if_pos hunder]
  · split at h
    · cases h
    · have hpacked : data = setBitRows (isHigh chunk) (8 * unitsize) count chunk.sampleCount
          (List.replicate (chunk.sampleCount * unitsize) 0) :=
        foldlM_eq_ok (fun _ _ _ hstep => packSample_eq_ok hstep) h
      have hwidth : count ≤ 8 * unitsize := by omega
      have hroom : chunk.sampleCount * (8 * unitsize) ≤ 8 * (chunk.sampleCount * unitsize) := by
        rw [← Nat.mul_assoc, Nat.mul_comm _ 8, Nat.mul_assoc]
      refine ⟨by rw [hpacked, setBitRows_length, List.length_replicate], ?_⟩
      intro sample hsample channel hchannel
      rw [hpacked, bitAt_setBitRows_zero _ hwidth hroom hsample (hcount ▸ hchannel), isHigh,
        CaptureChunk.packedLevel_eq_some hsample hchannel]
      simp

end Chunk
def validateChannelNames (env : ExportEnvironment) (channelNames : List Text) : Except CaptureExportError Unit :=
  match channelNames.find? fun name => name.any fun c => c = '\r' ∨ c = '\n' with
  | some name => inconsistent s!"channel name {env.debug name} contains a line break"
  | none => .ok ()

def validateExportedExtent (samplesWritten totalSamples : Nat) : Except CaptureExportError Unit :=
  if samplesWritten ≠ totalSamples then
    inconsistent s!"cursor yielded {samplesWritten} samples, manifest declares {totalSamples}"
  else .ok ()

namespace FinalizedCapture

variable {floats : FloatOps} {digest : Digest} (capture : FinalizedCapture floats digest)

/-- One round of the loop of `write_sigrok_v2`: the entry of a chunk and the number of samples written. -/
def writeEntry (env : ExportEnvironment) (channelCount unitsize entry samplesWritten : Nat) (chunk : CaptureChunk) :
    Except CaptureExportError (ArchiveEntry × Nat) := do
  env.poll (.chunk entry)
  env.io (.startFile (logicName entry))
  let data ← sigrokChunk env chunk channelCount unitsize entry
  env.io (.writeAll (logicName entry))
  if 2 ^ 64 ≤ samplesWritten + chunk.sampleCount then inconsistent "sample count overflow"
  else .ok ((logicName entry, data), samplesWritten + chunk.sampleCount)

/-- The loop of `write_sigrok_v2`: the entries of the chunks from the cursor on, and the number of all
samples written. -/
def writeEntries (env : ExportEnvironment) (channelCount unitsize : Nat) (cursor : CaptureCursor)
    (entry samplesWritten : Nat) : Except CaptureExportError (List ArchiveEntry × Nat) :=
  match _ : capture.next env.refused cursor with
  | (.error error, _) => .error (.store error)
  | (.ok .pending, _) => inconsistent "finalized capture cursor reported pending data"
  | (.ok .finished, _) => .ok ([], samplesWritten)
  | (.ok (.chunk chunk), moved) =>
    match writeEntry env channelCount unitsize entry samplesWritten chunk with
    | .error error => .error error
    | .ok (written, samplesWritten) =>
      (writeEntries env channelCount unitsize moved (entry + 1) samplesWritten).map
        fun (entries, samplesWritten) => (written :: entries, samplesWritten)
termination_by capture.chunks.length - cursor.nextSequence
decreasing_by
  obtain ⟨hget, hmoved⟩ := next_chunk ‹_›
  have hlt := (List.getElem?_eq_some_iff.mp hget).1
  have hle : cursor.nextSequence ≤ capture.place cursor := Nat.le_max_left _ _
  omega

def writeSigrokV2 (metadata : CaptureTimelineMetadata floats) (env : ExportEnvironment) :
    Except CaptureExportError (List ArchiveEntry) := do
  let channelCount := metadata.channelNames.length
  let unitsize := (channelCount + 7) / 8
  env.io (.startFile "version".toList)
  env.io (.writeAll "version".toList)
  env.io (.startFile "metadata".toList)
  env.io (.writeAll "metadata".toList)
  let (entries, samplesWritten) ←
    capture.writeEntries env channelCount unitsize (CaptureCursor.opened capture.state) 1 0
  validateExportedExtent samplesWritten capture.state.manifest.committedSamples
  return ("version".toList, textBytes "2".toList) :: ("metadata".toList, textBytes (metadataText metadata)) :: entries

/-- What `export_finalized_capture` checks before it writes. -/
def exportedTimeline (request : CaptureExportRequest) (env : ExportEnvironment) :
    Except CaptureExportError (CaptureTimelineMetadata floats) :=
  let totalSamples := capture.state.manifest.committedSamples
  if totalSamples = 0 then .error .emptyCapture
  else
    match env.metadataFails, capture.sessionMetadata.bind CaptureSessionMetadata.timeline with
    | some error, _ => .error (.store error)
    | none, none => .error .missingTimelineMetadata
    | none, some metadata =>
      if metadata.channelNames.length ≠ capture.descriptor.channels.length then
        inconsistent (s!"{metadata.channelNames.length} channel names describe " ++
          s!"{capture.descriptor.channels.length} stored channels")
      else
        match metadata.triggerSample.filter (totalSamples ≤ ·) with
        | some triggerSample =>
          inconsistent s!"trigger sample {triggerSample} is outside the {totalSamples}-sample capture"
        | none =>
          if env.destinationExists ∧ !request.overwrite then .error (.destinationExists request.destination)
          else if !env.parentIsDir then .error (.invalidDestination request.destination)
          else (validateChannelNames env metadata.channelNames).map fun _ => metadata

/-- What `export_finalized_capture` does before it touches the destination: the archive in the temporary file. -/
def preparedArchive (request : CaptureExportRequest) (env : ExportEnvironment) :
    Except CaptureExportError (CaptureTimelineMetadata floats × List ArchiveEntry) := do
  let metadata ← capture.exportedTimeline request env
  env.io .newTemporary
  let entries ← capture.writeSigrokV2 metadata env
  env.io .finish
  env.poll .publication
  return (metadata, entries)

/-- The report, and the entries of the archive that stands at the destination. -/
def exportFinalizedCapture (request : CaptureExportRequest) (env : ExportEnvironment) :
    Except CaptureExportError (CaptureExportReport × List ArchiveEntry) := do
  let metadata ← capture.exportedTimeline request env
  env.io .newTemporary
  let entries ← capture.writeSigrokV2 metadata env
  env.io .finish
  env.poll .publication
  env.removeOld
  env.io .persist
  env.io .fileLength
  return (⟨request.destination, capture.state.manifest.committedSamples, env.encodedBytes entries,
    metadata.triggerSample.toList.map fun _ => .portableTriggerMetadataExtension⟩, entries)

end FinalizedCapture

/-- One entry for each chunk, numbered from `entry` on. -/
def WrittenAs (unitsize : Nat) : Nat → List CaptureChunk → List ArchiveEntry → Prop
  | _, [], [] => True
  | entry, chunk :: chunks, (name, data) :: entries =>
    name = logicName entry ∧ PackedAs chunk unitsize data ∧ WrittenAs unitsize (entry + 1) chunks entries
  | _, _, _ => False

namespace FinalizedCapture
variable {floats : FloatOps} {digest : Digest} {capture : FinalizedCapture floats digest} {env : ExportEnvironment}

theorem writeEntry_eq_ok {channelCount unitsize entry before after : Nat} {chunk : CaptureChunk} {written : ArchiveEntry}
    (h : writeEntry env channelCount unitsize entry before chunk = .ok (written, after)) :
    written.1 = logicName entry ∧ sigrokChunk env chunk channelCount unitsize entry = .ok written.2 ∧
      after = before + chunk.sampleCount := by
  simp only [writeEntry, bind_eq_ok] at h
  obtain ⟨-, -, -, -, data, hdata, -, -, h⟩ := h
  split at h
  · cases h
  · cases h
    exact ⟨rfl, hdata, rfl⟩

variable {entries : List ArchiveEntry}

theorem writeEntries_eq_ok {cursor : CaptureCursor} {entry before after : Nat}
    (h : capture.writeEntries env capture.descriptor.channels.length ((capture.descriptor.channels.length + 7) / 8)
      cursor entry before = .ok (entries, after)) :
    WrittenAs ((capture.descriptor.channels.length + 7) / 8) entry (capture.chunks.drop (capture.place cursor)) entries ∧
      after = before + (timeline (capture.chunks.drop (capture.place cursor))).length ∧
      ∀ chunk ∈ capture.chunks.drop (capture.place cursor), ∃ encoded, encodeChunk chunk = .ok encoded := by
  -- the chunks that are left decrease from round to round
  generalize hleft : capture.chunks.length - capture.place cursor = left
  induction left generalizing cursor entry before entries with
  | zero =>
    rw [writeEntries] at h
    split at h
    · cases h
    · cases h
    · cases h
      rw [List.drop_of_length_le (by omega)]
      exact ⟨trivial, rfl, nofun⟩
    next chunk moved hnext =>
      have hlt := (List.getElem?_eq_some_iff.mp (next_chunk hnext).1).1
      omega
  | succ left ih =>
    rw [writeEntries] at h
    split at h
    · cases h
    · cases h
    next hnext =>
      have hend := next_finished hnext
      omega
    next chunk moved hnext =>
      obtain ⟨hget, hmoved⟩ := next_chunk hnext
      obtain ⟨hlt, hchunk⟩ := List.getElem?_eq_some_iff.mp hget
      have hplace : capture.place moved = capture.place cursor + 1 := by
        have hfirst : capture.state.manifest.firstSequence ≤ capture.place cursor := Nat.le_max_right _ _
        rw [place, hmoved]
        omega
      have hchannels := (capture.contiguous.getElem hget).channels
      split at h
      · cases h
      next written middle hwrite =>
        obtain ⟨hname, hdata, rfl⟩ := writeEntry_eq_ok hwrite
        obtain ⟨⟨rest, total⟩, hrest, heq⟩ := map_eq_ok.mp h
        cases heq
        obtain ⟨hwritten, hafter, hencoded⟩ := ih hrest (by omega)
        rw [hplace] at hwritten hafter hencoded
        rw [← hchannels] at hdata
        have hpacked := sigrokChunk_packed hdata
        rw [hchannels] at hpacked
        rw [List.drop_eq_getElem_cons hlt, hchunk, timeline_cons, List.length_append, CaptureChunk.samples_length]
        refine ⟨⟨hname, hpacked, hwritten⟩, by omega, ?_⟩
        intro other hother
        rcases List.mem_cons.mp hother with rfl | hother
        · exact next_chunk_encoded hnext
        · exact hencoded other hother

structure Exported (capture : FinalizedCapture floats digest) (metadata : CaptureTimelineMetadata floats)
    (entries : List ArchiveEntry) : Prop where
  names : metadata.channelNames.length = capture.descriptor.channels.length
  lines : ∀ name ∈ metadata.channelNames, '\n' ∉ name ∧ '\r' ∉ name
  samples : capture.chunks ≠ []
  encoded : ∀ chunk ∈ capture.chunks, ∃ encoded, encodeChunk chunk = .ok encoded
  entries : ∃ logic, entries = ("version".toList, textBytes "2".toList) ::
    ("metadata".toList, textBytes (metadataText metadata)) :: logic ∧
    WrittenAs ((capture.descriptor.channels.length + 7) / 8) 1 capture.chunks logic

theorem validateChannelNames_eq_ok {names : List Text} {done : Unit} (h : validateChannelNames env names = .ok done) :
    ∀ name ∈ names, '\n' ∉ name ∧ '\r' ∉ name := by
  unfold validateChannelNames at h
  split at h
  · cases h
  next hfind =>
    intro name hname
    have hnone := List.find?_eq_none.mp hfind name hname
    simp only [List.any_eq_true, decide_eq_true_eq, not_exists, not_and, not_or] at hnone
    exact ⟨fun hmem => (hnone '\n' hmem).2 rfl, fun hmem => (hnone '\r' hmem).1 rfl⟩

variable {request : CaptureExportRequest} {metadata : CaptureTimelineMetadata floats}

theorem exportedTimeline_eq_ok (h : capture.exportedTimeline request env = .ok metadata) :
    capture.sessionMetadata.bind CaptureSessionMetadata.timeline = some metadata ∧
      metadata.channelNames.length = capture.descriptor.channels.length ∧
      (∀ name ∈ metadata.channelNames, '\n' ∉ name ∧ '\r' ∉ name) ∧ capture.state.manifest.committedSamples ≠ 0 := by
  unfold exportedTimeline at h
  dsimp only at h
  split at h
  · cases h
  next htotal =>
    split at h
    · cases h
    · cases h
    next timeline htimeline =>
      split at h
      · cases h
      next hnames =>
        split at h
        · cases h
        · split at h
          · cases h
          · split at h
            · cases h
            · obtain ⟨done, hvalid, heq⟩ := map_eq_ok.mp h
              cases heq
              exact ⟨htimeline, not_not.mp hnames, validateChannelNames_eq_ok hvalid, htotal⟩

/-- Chunks that were reclaimed are missed in the number of samples, so an archive that is written has all. -/
theorem writeSigrokV2_exported (hmetadata : capture.exportedTimeline request env = .ok metadata)
    (hwritten : capture.writeSigrokV2 metadata env = .ok entries) :
    capture.sessionMetadata.bind CaptureSessionMetadata.timeline = some metadata ∧
      capture.Exported metadata entries := by
  simp only [writeSigrokV2, bind_eq_ok] at hwritten
  obtain ⟨-, -, -, -, -, -, -, -, ⟨logic, total⟩, hlogic, done, hextent, hentries⟩ := hwritten
  obtain ⟨htimeline, hnames, hlines, htotal⟩ := exportedTimeline_eq_ok hmetadata
  cases hentries
  rw [hnames] at hlogic
  obtain ⟨hwritten, htotal', hencoded⟩ := writeEntries_eq_ok hlogic
  have hextent : total = capture.state.manifest.committedSamples := by
    by_contra hne
    simp only [validateExportedExtent, if_pos hne] at hextent
    cases hextent
  have hplace : capture.place (CaptureCursor.opened capture.state) = capture.state.manifest.firstSequence :=
    Nat.max_self _
  rw [hplace] at hwritten htotal' hencoded
  have hall : capture.chunks.drop capture.state.manifest.firstSequence = capture.chunks := by
    have hsplit := congrArg (fun chunks => (timeline chunks).length)
      (List.take_append_drop capture.state.manifest.firstSequence capture.chunks)
    simp only [timeline_append, List.length_append, ← capture.samples] at hsplit
    have hnone := length_le_timeline (capture.chunks.take capture.state.manifest.firstSequence)
    have htake : capture.chunks.take capture.state.manifest.firstSequence = [] := by
      apply List.eq_nil_of_length_eq_zero
      omega
    have happend := List.take_append_drop capture.state.manifest.firstSequence capture.chunks
    rwa [htake, List.nil_append] at happend
  rw [hall] at hwritten hencoded
  refine ⟨htimeline, hnames, hlines, ?_, hencoded, logic, rfl, hwritten⟩
  intro hempty
  rw [capture.samples, hempty] at htotal
  exact htotal rfl

theorem exportFinalizedCapture_eq (request : CaptureExportRequest) :
    capture.exportFinalizedCapture request env = (do
      let (metadata, entries) ← capture.preparedArchive request env
      env.removeOld
      env.io .persist
      env.io .fileLength
      return (⟨request.destination, capture.state.manifest.committedSamples, env.encodedBytes entries,
        metadata.triggerSample.toList.map fun _ => .portableTriggerMetadataExtension⟩, entries)) := by
  simp only [exportFinalizedCapture, preparedArchive, bind_assoc, pure_bind]

theorem exported {report : CaptureExportReport} (h : capture.exportFinalizedCapture request env = .ok (report, entries)) :
    ∃ metadata, capture.sessionMetadata.bind CaptureSessionMetadata.timeline = some metadata ∧
      capture.Exported metadata entries := by
  simp only [exportFinalizedCapture, bind_eq_ok] at h
  obtain ⟨metadata, hmetadata, -, -, written, hwritten, -, -, -, -, -, -, -, -, -, -, heq⟩ := h
  cases heq
  exact ⟨metadata, writeSigrokV2_exported hmetadata hwritten⟩

end FinalizedCapture
structure ExportEnvironment.Free (env : ExportEnvironment) (request : CaptureExportRequest) : Prop where
  destination : env.destinationExists = true → request.overwrite = true
  parent : env.parentIsDir = true
  metadata : env.metadataFails = none
  refused : ∀ sequence, env.refused sequence = none
  cancelled : ∀ place, env.isCancelled place = false
  fails : ∀ call, env.fails call = none

/-- The calls made before the destination is touched. -/
def ExportIo.onTemporary : ExportIo → Bool
  | .newTemporary | .startFile _ | .writeAll _ | .finish => true
  | .removeFile | .persist | .fileLength => false

/-- Nothing outside the capture stops an export before the destination is touched. -/
structure ExportEnvironment.Prepares (env : ExportEnvironment) (request : CaptureExportRequest) : Prop where
  destination : env.destinationExists = true → request.overwrite = true
  parent : env.parentIsDir = true
  metadata : env.metadataFails = none
  refused : ∀ sequence, env.refused sequence = none
  cancelled : ∀ place, env.isCancelled place = false
  fails : ∀ call, call.onTemporary = true → env.fails call = none

section Free

variable {env : ExportEnvironment} {request : CaptureExportRequest}

theorem ExportEnvironment.io_eq_ok {call : ExportIo} (h : env.fails call = none) : env.io call = .ok () := by
  rw [ExportEnvironment.io, h]

theorem ExportEnvironment.Free.prepares (h : env.Free request) : env.Prepares request :=
  ⟨h.destination, h.parent, h.metadata, h.refused, h.cancelled, fun call _ => h.fails call⟩

section

variable (h : env.Prepares request)
include h

theorem ExportEnvironment.Prepares.poll (place : ExportPoll) : env.poll place = .ok () := by
  rw [ExportEnvironment.poll, h.cancelled]
  rfl

theorem ExportEnvironment.Prepares.io (call : ExportIo)
    (hcall : call.onTemporary = true) : env.io call = .ok () :=
  ExportEnvironment.io_eq_ok (h.fails call hcall)

theorem packSample_free {chunk : CaptureChunk} {unitsize entry sample : Nat}
    (hsample : sample < chunk.sampleCount) (output : Bytes) :
    ∃ packed, packSample env chunk chunk.channels.length unitsize entry output sample = .ok packed := by
  rw [packSample, h.cancelled, if_neg (by simp)]
  refine ⟨_, foldlM_ok (g := fun output channel =>
    if isHigh chunk sample channel then setBitAt output (sample * (8 * unitsize) + channel) else output) ?_ output⟩
  intro bytes channel hchannel
  apply packLevel_eq
  rw [CaptureChunk.packedLevel_eq_some hsample (List.mem_range.mp hchannel)]
  exact Option.some_ne_none _

theorem sigrokChunk_free {chunk : CaptureChunk} {entry : Nat}
    (hroom : chunk.sampleCount * ((chunk.channels.length + 7) / 8) < 2 ^ 64) :
    ∃ data, sigrokChunk env chunk chunk.channels.length ((chunk.channels.length + 7) / 8) entry = .ok data := by
  unfold sigrokChunk
  split
  next hdirect =>
    have hbytes : chunk.sampleCount * ((chunk.channels.length + 7) / 8) ≤ chunk.bytes.length := by
      have hbits := chunk.bits_le
      have hwidth : chunk.channels.length = 8 * ((chunk.channels.length + 7) / 8) := by omega
      have hmul : chunk.sampleCount * chunk.channels.length =
          8 * (chunk.sampleCount * ((chunk.channels.length + 7) / 8)) := by
        conv_lhs => rw [hwidth]
        ring
      omega
    rw [if_neg (by omega), if_neg (by omega)]
    exact ⟨_, rfl⟩
  · rw [if_neg (by omega)]
    have hall : ∀ output, ∀ sample ∈ List.range chunk.sampleCount,
        packSample env chunk chunk.channels.length ((chunk.channels.length + 7) / 8) entry output sample =
          .ok (setBitsWhere (isHigh chunk sample)
            (fun channel => sample * (8 * ((chunk.channels.length + 7) / 8)) + channel)
            (List.range chunk.channels.length) output) := by
      intro output sample hsample
      obtain ⟨packed, hpacked⟩ := packSample_free h (List.mem_range.mp hsample) output
      rw [hpacked, packSample_eq_ok hpacked]
    exact ⟨_, foldlM_ok hall _⟩

end

end Free

namespace FinalizedCapture

variable {floats : FloatOps} {digest : Digest} {capture : FinalizedCapture floats digest} {env : ExportEnvironment}
  {request : CaptureExportRequest}

/-- All chunks are still in the repository, and none is too large for a vector of units. -/
structure Complete (capture : FinalizedCapture floats digest) : Prop where
  closed : capture.state.writerOpen = false
  first : capture.state.manifest.firstSequence = 0
  there : ∀ i < capture.chunks.length, capture.repository (chunkKey digest capture.descriptor.sessionId i) ≠ none
  room : ∀ chunk ∈ capture.chunks, chunk.sampleCount * ((capture.descriptor.channels.length + 7) / 8) < 2 ^ 64

theorem closeAs_complete {descriptor : CaptureStoreDescriptor} (session : CaptureSession digest descriptor)
    (metadata : Option (CaptureSessionMetadata floats))
    (hroom : ∀ chunk ∈ session.system.committed, chunk.sampleCount * ((descriptor.channels.length + 7) / 8) < 2 ^ 64) :
    (session.closeAs metadata).Complete where
  closed := rfl
  first := session.sound.first
  there := by
    intro i hi
    obtain ⟨encoded, -, hstored⟩ := session.sound.stored i _ (List.getElem?_eq_getElem hi)
    have hrepository : (session.closeAs metadata).repository = publishCaptureBytes session.system.repository
        (manifestKey digest descriptor.sessionId) (session.closeAs metadata).state.manifest.toJson := rfl
    have hkey := chunkKey_ne_manifestKey digest descriptor.sessionId i
    rw [hrepository, publishCaptureBytes_eq]
    exact Option.ne_none_iff_exists'.mpr ⟨encoded, (Repository.publish_other hkey).trans hstored⟩
  room := hroom

theorem place_eq_nextSequence (h : capture.Complete) (cursor : CaptureCursor) :
    capture.place cursor = cursor.nextSequence := by
  rw [place, h.first, Nat.max_zero]

theorem writeEntries_free (hfree : env.Prepares request) (h : capture.Complete) {cursor : CaptureCursor}
    {entry before : Nat} (hbefore : before + (timeline (capture.chunks.drop cursor.nextSequence)).length < 2 ^ 64) :
    ∃ entries, capture.writeEntries env capture.descriptor.channels.length
      ((capture.descriptor.channels.length + 7) / 8) cursor entry before =
        .ok (entries, before + (timeline (capture.chunks.drop cursor.nextSequence)).length) := by
  generalize hleft : capture.chunks.length - cursor.nextSequence = left
  induction left generalizing cursor entry before with
  | zero =>
    have hend := next_past env.refused cursor (by rw [place_eq_nextSequence h]; omega)
    rw [h.closed, if_neg Bool.false_ne_true] at hend
    rw [List.drop_of_length_le (by omega), writeEntries]
    refine ⟨[], ?_⟩
    split
    next hnext =>
      rw [hnext] at hend
      cases hend
    next hnext =>
      rw [hnext] at hend
      cases hend
    · rfl
    next hnext =>
      rw [hnext] at hend
      cases hend
  | succ left ih =>
    have hlt : cursor.nextSequence < capture.chunks.length := by omega
    obtain ⟨chunk, hget⟩ : ∃ chunk, capture.chunks[cursor.nextSequence]? = some chunk :=
      ⟨_, List.getElem?_eq_getElem hlt⟩
    have hdrop : capture.chunks.drop cursor.nextSequence = chunk :: capture.chunks.drop (cursor.nextSequence + 1) := by
      rw [List.drop_eq_getElem_cons hlt, (List.getElem?_eq_some_iff.mp hget).2]
    have hchannels := (capture.contiguous.getElem hget).channels
    have hroom := h.room chunk (List.mem_of_getElem? hget)
    have hthere := h.there _ hlt
    rw [← place_eq_nextSequence h cursor] at hget hthere
    obtain ⟨moved, hnext, hmoved⟩ := next_stored hget hthere (hfree.refused _)
    rw [place_eq_nextSequence h] at hmoved
    rw [hdrop, timeline_cons, List.length_append, CaptureChunk.samples_length, ← Nat.add_assoc] at hbefore ⊢
    rw [← hchannels] at hroom
    obtain ⟨data, hdata⟩ := @sigrokChunk_free env request hfree chunk entry hroom
    rw [hchannels] at hdata
    have hwrite : writeEntry env capture.descriptor.channels.length ((capture.descriptor.channels.length + 7) / 8)
        entry before chunk = .ok ((logicName entry, data), before + chunk.sampleCount) := by
      simp only [writeEntry, hfree.poll, hfree.io (.startFile _) rfl, hfree.io (.writeAll _) rfl, hdata, bind,
        Except.bind]
      rw [if_neg (by omega)]
    obtain ⟨entries, hentries⟩ := @ih moved (entry + 1) (before + chunk.sampleCount)
      (by rw [hmoved]; exact hbefore) (by omega)
    refine ⟨(logicName entry, data) :: entries, ?_⟩
    rw [writeEntries]
    split
    next hother => rw [hother] at hnext; cases hnext
    next hother => rw [hother] at hnext; cases hnext
    next hother => rw [hother] at hnext; cases hnext
    next other moved' hother =>
      rw [hnext] at hother
      cases hother
      simp only [hwrite, hentries, hmoved, Except.map]

theorem validateChannelNames_free {names : List Text} (h : ∀ name ∈ names, '\n' ∉ name ∧ '\r' ∉ name) :
    validateChannelNames env names = .ok () := by
  have hfind : names.find? (fun name => name.any fun c => c = '\r' ∨ c = '\n') = none := by
    rw [List.find?_eq_none]
    intro name hname hany
    obtain ⟨c, hc, hbreak⟩ := List.any_eq_true.mp hany
    rcases of_decide_eq_true hbreak with rfl | rfl
    · exact (h name hname).2 hc
    · exact (h name hname).1 hc
  rw [validateChannelNames, hfind]

section Exportable

variable {metadata : CaptureTimelineMetadata floats} (h : capture.Complete)
  (hchunks : capture.chunks ≠ [])
  (htimeline : capture.sessionMetadata.bind CaptureSessionMetadata.timeline = some metadata)
  (hnames : metadata.channelNames.length = capture.descriptor.channels.length)
  (htrigger : ∀ sample ∈ metadata.triggerSample, sample < capture.state.manifest.committedSamples)
  (hlines : ∀ name ∈ metadata.channelNames, '\n' ∉ name ∧ '\r' ∉ name)
include h hchunks htimeline hnames htrigger hlines

theorem preparedArchive_free (hfree : env.Prepares request) :
    ∃ entries, capture.preparedArchive request env = .ok (metadata, entries) := by
  have hpos : capture.state.manifest.committedSamples ≠ 0 := by
    have hle := length_le_timeline capture.chunks
    have hlength := List.length_pos_iff.mpr hchunks
    rw [capture.samples]
    omega
  have hfilter : metadata.triggerSample.filter (capture.state.manifest.committedSamples ≤ ·) = none := by
    rw [Option.filter_eq_none_iff]
    intro sample hsample
    have hlt := htrigger sample hsample
    simp only [decide_eq_true_eq]
    omega
  have hdestination : ¬(env.destinationExists = true ∧ (!request.overwrite) = true) := by
    rintro ⟨hexists, hkeep⟩
    rw [hfree.destination hexists] at hkeep
    cases hkeep
  have hchecked : capture.exportedTimeline request env = .ok metadata := by
    simp only [exportedTimeline, if_neg hpos, hfree.metadata, htimeline, hnames, ne_eq, not_true_eq_false, if_false,
      hfilter, if_neg hdestination, hfree.parent, Bool.not_true, Bool.false_eq_true, validateChannelNames_free hlines]
    rfl
  obtain ⟨entries, hentries⟩ := @writeEntries_free floats digest capture env request hfree h
    (CaptureCursor.opened capture.state) 1 0 (by
      rw [CaptureCursor.opened, h.first, List.drop_zero, Nat.zero_add]
      exact capture.samples_lt)
  rw [← hnames] at hentries
  have hextent : validateExportedExtent
      (0 + (timeline (capture.chunks.drop (CaptureCursor.opened capture.state).nextSequence)).length)
      capture.state.manifest.committedSamples = .ok () := by
    rw [CaptureCursor.opened, h.first, List.drop_zero, Nat.zero_add, ← capture.samples, validateExportedExtent,
      if_neg (not_not.mpr rfl)]
  have hwrite : ∃ entries, capture.writeSigrokV2 metadata env = .ok entries := by
    simp only [writeSigrokV2, hfree.io (.startFile _) rfl, hfree.io (.writeAll _) rfl, hentries, hextent, bind,
      Except.bind]
    exact ⟨_, rfl⟩
  obtain ⟨written, hwritten⟩ := hwrite
  simp only [preparedArchive, hchecked, hfree.io .newTemporary rfl, hfree.io .finish rfl, hwritten, hfree.poll, bind,
    Except.bind]
  exact ⟨_, rfl⟩

theorem export_free (hfree : env.Free request) :
    ∃ report entries, capture.exportFinalizedCapture request env = .ok (report, entries) := by
  obtain ⟨entries, hprepared⟩ := preparedArchive_free h hchunks htimeline hnames htrigger hlines hfree.prepares
  have hremove : env.removeOld = .ok () := by
    rw [ExportEnvironment.removeOld, ExportEnvironment.io_eq_ok (hfree.fails _)]
    split <;> rfl
  rw [exportFinalizedCapture_eq, hprepared]
  simp only [hremove, ExportEnvironment.io_eq_ok (hfree.fails _), bind, Except.bind]
  exact ⟨_, _, rfl⟩

end Exportable

end FinalizedCapture
end LogicConduit
