import LogicConduit.SigrokRoundTrip

namespace LogicConduit

/-- What stands at the destination path. -/
inductive DestinationFile
  | previous (contents : Bytes)
  | archive (entries : List ArchiveEntry)

/-- The destination holds `prior`, which only the export touches. -/
def ExportEnvironment.facing (env : ExportEnvironment) (prior : Option Bytes) : ExportEnvironment :=
  { env with destinationExists := prior.isSome, existsAtPublication := prior.isSome }

/-- The end of `export_finalized_capture`. A call that fails leaves its paths as they are. -/
def ExportEnvironment.publishFile (env : ExportEnvironment) (entries : List ArchiveEntry)
    (file : Option DestinationFile) : Except CaptureExportError Unit × Option DestinationFile :=
  match if file.isSome then env.io .removeFile else .ok () with
  | .error error => (.error error, file)
  | .ok () =>
    match env.io .persist with
    -- the temporary file is dropped with the error
    | .error error => (.error error, none)
    | .ok () => (env.io .fileLength, some (.archive entries))

namespace FinalizedCapture

variable {floats : FloatOps} {digest : Digest} (capture : FinalizedCapture floats digest)

/-- `export_finalized_capture` with the file that stands at the destination when it returns. -/
def exportOnto (request : CaptureExportRequest) (env : ExportEnvironment) (prior : Option Bytes) :
    Except CaptureExportError CaptureExportReport × Option DestinationFile :=
  match capture.preparedArchive request (env.facing prior) with
  | .error error => (.error error, prior.map .previous)
  | .ok (metadata, entries) =>
    let (published, file) := env.publishFile entries (prior.map .previous)
    (published.map fun _ => ⟨request.destination, capture.state.manifest.committedSamples, env.encodedBytes entries,
      metadata.triggerSample.toList.map fun _ => .portableTriggerMetadataExtension⟩, file)

def IsArchive (file : Option DestinationFile) : Prop :=
  ∃ metadata entries, capture.sessionMetadata.bind CaptureSessionMetadata.timeline = some metadata ∧
    capture.Exported metadata entries ∧ file = some (.archive entries)

/-- An export keeps the file at its destination, or puts the complete archive in its place. -/
structure KeepsDestination (prior : Option Bytes)
    (outcome : Except CaptureExportError CaptureExportReport × Option DestinationFile) : Prop where
  failed : ∀ error, outcome.1 = .error error → outcome.2 = prior.map .previous ∨ capture.IsArchive outcome.2
  done : ∀ report, outcome.1 = .ok report → capture.IsArchive outcome.2

variable {capture} {request : CaptureExportRequest} {env : ExportEnvironment} {prior : Option Bytes}

theorem preparedArchive_isArchive {metadata : CaptureTimelineMetadata floats} {entries : List ArchiveEntry}
    (h : capture.preparedArchive request env = .ok (metadata, entries)) :
    capture.IsArchive (some (.archive entries)) := by
  simp only [preparedArchive, bind_eq_ok] at h
  obtain ⟨timeline, htimeline, -, -, written, hwritten, -, -, -, -, heq⟩ := h
  cases heq
  obtain ⟨hsome, hexported⟩ := writeSigrokV2_exported htimeline hwritten
  exact ⟨metadata, entries, hsome, hexported, rfl⟩

theorem exportOnto_result : (capture.exportOnto request env prior).1 =
    (capture.exportFinalizedCapture request (env.facing prior)).map Prod.fst := by
  have hio (call : ExportIo) : (env.facing prior).io call = env.io call := rfl
  have hremove : (env.facing prior).removeOld = if prior.isSome then env.io .removeFile else .ok () := rfl
  rw [exportFinalizedCapture_eq, exportOnto]
  cases capture.preparedArchive request (env.facing prior) with
  | error error => rfl
  | ok archive =>
    simp only [bind, Except.bind, ExportEnvironment.publishFile, Option.isSome_map, hremove, hio]
    cases if prior.isSome then env.io .removeFile else .ok () with
    | error error => rfl
    | ok _ =>
      cases env.io .persist with
      | error error => rfl
      | ok _ => cases env.io .fileLength <;> rfl

/-- The old file is removed before the new one is in place, so a persist that fails loses both. -/
theorem export_keeps_destination_iff (capture : FinalizedCapture floats digest) (request : CaptureExportRequest)
    (env : ExportEnvironment) (prior : Option Bytes) :
    capture.KeepsDestination prior (capture.exportOnto request env prior) ↔
      ¬(prior.isSome = true ∧ (∃ archive, capture.preparedArchive request (env.facing prior) = .ok archive) ∧
        env.fails .removeFile = none ∧ env.fails .persist ≠ none) := by
  rw [exportOnto]
  cases hprepared : capture.preparedArchive request (env.facing prior) with
  | error error => exact ⟨fun _ hlost => by simp at hlost, fun _ => ⟨fun _ _ => .inl rfl, fun _ h => by cases h⟩⟩
  | ok archive =>
    have harchive := preparedArchive_isArchive hprepared
    have hkept {published} : capture.KeepsDestination prior (published, some (.archive archive.2)) :=
      ⟨fun _ _ => .inr harchive, fun _ _ => harchive⟩
    simp only [ExportEnvironment.publishFile, ExportEnvironment.io, Option.isSome_map]
    cases prior with
    | none =>
      cases env.fails .persist with
      | none => simpa using hkept
      | some error => simpa using ⟨fun _ _ => .inl rfl, fun _ h => by cases h⟩
    | some contents =>
      cases env.fails .removeFile with
      | some error => simpa using ⟨fun _ _ => .inl rfl, fun _ h => by cases h⟩
      | none =>
        cases env.fails .persist with
        | none => simpa using hkept
        | some error =>
          refine iff_of_false (fun h => ?_) (not_not_intro ⟨rfl, ⟨_, rfl⟩, rfl, Option.some_ne_none _⟩)
          rcases h.failed _ rfl with hprior | ⟨_, _, _, _, hfile⟩
          · cases hprior
          · cases hfile

end FinalizedCapture

def unpersistedEnvironment : ExportEnvironment :=
  { probeEnvironment with fails := fun call => match call with
    | .persist => some (.destinationIo "permission denied")
    | _ => none }

theorem failed_persist_loses_destination : ∃ capture : FinalizedCapture wholeRates tailDigest,
    capture.exportOnto ⟨"probe.sr".toList, true⟩ unpersistedEnvironment (some [80, 75]) =
      (.error (.destinationIo "permission denied"), none) ∧
    ¬capture.KeepsDestination (some [80, 75])
      (capture.exportOnto ⟨"probe.sr".toList, true⟩ unpersistedEnvironment (some [80, 75])) := by
  obtain ⟨session, hchunks⟩ := probeSession_exists
  have hsamples := CaptureSession.probeCapture_samples hchunks
  have hprepares : (unpersistedEnvironment.facing (some [80, 75])).Prepares ⟨"probe.sr".toList, true⟩ :=
    ⟨fun _ => rfl, rfl, rfl, fun _ => rfl, fun _ => rfl, fun call hcall => by cases call <;> trivial⟩
  obtain ⟨entries, hprepared⟩ := FinalizedCapture.preparedArchive_free
    (CaptureSession.probeCapture_complete hchunks) (show session.system.committed ≠ [] by rw [hchunks]; decide)
    (show _ = some probeTimeline from rfl) rfl (by rw [hsamples]; decide) (by decide) hprepares
  have hlost : session.probeCapture.exportOnto ⟨"probe.sr".toList, true⟩ unpersistedEnvironment (some [80, 75]) =
      (.error (.destinationIo "permission denied"), none) := by
    rw [FinalizedCapture.exportOnto, hprepared]
    rfl
  refine ⟨session.probeCapture, hlost, fun hkept => ?_⟩
  rw [hlost] at hkept
  rcases hkept.failed _ rfl with hprior | ⟨_, _, _, _, harchive⟩
  · cases hprior
  · cases harchive

end LogicConduit
