import LogicConduit.FinalizedCapture

namespace LogicConduit

inductive FinalizeError
  | writerStillOpen
  | alreadyFinalized
  | store (error : CaptureStoreError)
  deriving DecidableEq

structure FinalizeCall where
  outcome : CaptureSessionOutcome
  recordingOrigin : Option Nat
  triggerSample : Option Nat
  accessedUnixNs : Nat
  -- the publication is refused, or the process stops before it
  manifestRefused : Option RepositoryError
  metadataRefused : Option RepositoryError
  trigger_lt : ∀ sample ∈ triggerSample, sample < 2 ^ 64

inductive CloseCall
  | finalize (call : FinalizeCall)
  | recover (accessedUnixNs : Nat) (metadataRefused manifestRefused : Option RepositoryError)
  -- the process stops, and another one opens the session
  | restart

/-- What is stored of a session's metadata while it is live; nothing when the process has stopped inside
`create`. -/
inductive LiveMetadata (floats : FloatOps)
  | missing
  | written (timeline : Option (CaptureTimelineMetadata floats)) (createdUnixNs accessedUnixNs : Nat)

def LiveMetadata.stored {floats : FloatOps} : LiveMetadata floats → Option (CaptureSessionMetadata floats)
  | .missing => none
  | .written timeline createdUnixNs accessedUnixNs =>
    some ⟨timeline, .inProgress, createdUnixNs, accessedUnixNs, none, 0, false⟩

namespace FinalizedCapture

variable {floats : FloatOps} {digest : Digest} (store : FinalizedCapture floats digest)

def sealManifest : FinalizedCapture floats digest :=
  let manifest := { store.state.manifest with
    finalized := true
    -- `saturating_add`
    generation := min (store.state.manifest.generation + 1) (2 ^ 64 - 1) }
  { store with
    repository := publishCaptureBytes store.repository (manifestKey digest store.descriptor.sessionId) manifest.toJson
    state := { store.state with manifest := manifest }
    count := store.count
    samples := store.samples
    stored := by
      intro i chunk bytes hget hbytes
      rw [publishCaptureBytes_eq,
        Repository.publish_other (chunkKey_ne_manifestKey digest store.descriptor.sessionId i)] at hbytes
      exact store.stored i chunk bytes hget hbytes }

/-- `finalize_with_details`; what was published before an error stays published. -/
def finalizeWithDetails (call : FinalizeCall) : FinalizedCapture floats digest × Except FinalizeError Unit :=
  if !call.outcome.isTerminal then
    (store, .error (.store (.invalidConfig "a finalized capture requires a terminal outcome")))
  else if store.state.writerOpen then (store, .error .writerStillOpen)
  else if store.state.manifest.finalized then (store, .error .alreadyFinalized)
  else
    match store.state.writerFailure, call.manifestRefused with
    | some failure, _ => (store, .error (.store (.writerFailed failure)))
    | none, some error => (store, .error (.store (.repository error)))
    | none, none =>
      match store.sessionMetadata, call.metadataRefused with
      | none, _ => (store.sealManifest, .error (.store (.corrupt "capture session metadata is missing")))
      | some _, some error => (store.sealManifest, .error (.store (.repository error)))
      | some metadata, none =>
        ({ store.sealManifest with sessionMetadata := some { metadata with
            outcome := call.outcome
            recordingOrigin := call.recordingOrigin
            accessedUnixNs := call.accessedUnixNs
            timeline := metadata.timeline.map fun timeline =>
              { timeline with triggerSample := call.triggerSample, trigger_lt := call.trigger_lt } } }, .ok ())

/-- `open` by a process that has no writer. -/
def reopen : FinalizedCapture floats digest :=
  { store with
    state := ⟨store.state.manifest, false, none⟩
    count := store.count
    samples := store.samples }

/-- `recover`, behind the manifest that `open` reads. -/
def recover (accessedUnixNs : Nat) (metadataRefused manifestRefused : Option RepositoryError) :
    FinalizedCapture floats digest × Except FinalizeError Unit :=
  if store.state.manifest.finalized then (store.reopen, .ok ())
  else
    match store.sessionMetadata, metadataRefused with
    | none, _ => (store.reopen, .error (.store (.corrupt "capture session metadata is missing")))
    | some _, some error => (store.reopen, .error (.store (.repository error)))
    | some metadata, none =>
      let noted := { store.reopen with
        sessionMetadata := some { metadata with outcome := .incomplete, accessedUnixNs := accessedUnixNs } }
      match manifestRefused with
      | some error => (noted, .error (.store (.repository error)))
      | none => (noted.sealManifest, .ok ())

def close : CloseCall → FinalizedCapture floats digest
  | .finalize call => (store.finalizeWithDetails call).1
  | .recover accessedUnixNs metadataRefused manifestRefused =>
    (store.recover accessedUnixNs metadataRefused manifestRefused).1
  | .restart => store.reopen

def closeRun (calls : List CloseCall) : FinalizedCapture floats digest :=
  calls.foldl FinalizedCapture.close store

def HasOutcome : Prop :=
  ∃ metadata, store.sessionMetadata = some metadata ∧ metadata.outcome.isTerminal = true

def Torn : CloseCall → Prop
  | .finalize call => call.outcome.isTerminal = true ∧ store.state.writerOpen = false ∧
      store.state.manifest.finalized = false ∧ store.state.writerFailure = none ∧ call.manifestRefused = none ∧
      call.metadataRefused ≠ none ∧ ¬store.HasOutcome
  | _ => False

def Untorn (store : FinalizedCapture floats digest) : List CloseCall → Prop
  | [] => True
  | call :: calls => ¬store.Torn call ∧ (store.close call).Untorn calls

/-- A finalized session with all of its chunks and a terminal outcome. -/
structure Recovered : Prop where
  finalized : store.state.manifest.finalized = true
  intact : store.Intact
  retained : store.state.manifest.firstSequence = 0
  outcome : store.HasOutcome

structure Whole : Prop where
  intact : store.Intact
  retained : store.state.manifest.firstSequence = 0
  metadata : store.sessionMetadata ≠ none

variable {store}

theorem sealManifest_intact (h : store.Intact) : store.sealManifest.Intact where
  published := by
    simp only [sealManifest, publishCaptureBytes_eq]
    exact Repository.publish_same _ _ _
  readable := by
    intro i chunk hfirst hget
    have hthere := (readChunk_iff hget).mp (h.readable i chunk hfirst hget)
    apply (readChunk_iff (show store.sealManifest.chunks[i]? = some chunk from hget)).mpr
    simp only [sealManifest, publishCaptureBytes_eq]
    rwa [Repository.publish_other (chunkKey_ne_manifestKey digest store.descriptor.sessionId i)]

section

variable (h : store.Whole)
include h

theorem Whole.note (metadata : CaptureSessionMetadata floats) :
    Whole { store with sessionMetadata := some metadata } :=
  ⟨⟨h.intact.published, h.intact.readable⟩, h.retained, Option.some_ne_none metadata⟩

theorem Whole.sealManifest : store.sealManifest.Whole :=
  ⟨sealManifest_intact h.intact, h.retained, h.metadata⟩

theorem Whole.reopen : store.reopen.Whole :=
  ⟨⟨h.intact.published, h.intact.readable⟩, h.retained, h.metadata⟩

theorem Whole.finalize (call : FinalizeCall) : (store.finalizeWithDetails call).1.Whole := by
  unfold finalizeWithDetails
  split
  · exact h
  · split
    · exact h
    · split
      · exact h
      · split
        · exact h
        · exact h
        · split
          · exact h.sealManifest
          · exact h.sealManifest
          · exact h.sealManifest.note _

theorem Whole.recover (accessedUnixNs : Nat) (metadataRefused manifestRefused : Option RepositoryError) :
    (store.recover accessedUnixNs metadataRefused manifestRefused).1.Whole := by
  unfold FinalizedCapture.recover
  split
  · exact h.reopen
  · split
    · exact h.reopen
    · exact h.reopen
    · split
      · exact h.reopen.note _
      · exact (h.reopen.note _).sealManifest

theorem Whole.close (call : CloseCall) : (store.close call).Whole := by
  cases call with
  | finalize call => exact h.finalize call
  | recover accessedUnixNs metadataRefused manifestRefused =>
    exact h.recover accessedUnixNs metadataRefused manifestRefused
  | restart => exact h.reopen

theorem Whole.closeRun (calls : List CloseCall) : (store.closeRun calls).Whole := by
  induction calls generalizing store with
  | nil => exact h
  | cons call calls ih => exact ih (h.close call)

section

variable (houtcome : store.state.manifest.finalized = true → store.HasOutcome)
include houtcome

theorem outcome_finalize {call : FinalizeCall} (htorn : ¬store.Torn (.finalize call)) :
    (store.finalizeWithDetails call).1.state.manifest.finalized = true → (store.finalizeWithDetails call).1.HasOutcome := by
  unfold finalizeWithDetails
  split
  · exact houtcome
  · split
    · exact houtcome
    · split
      · exact houtcome
      next hterminal hopen hfinalized =>
        split
        · exact houtcome
        · exact houtcome
        next hfailure hmanifest =>
          split
          next hmissing => exact absurd hmissing h.metadata
          next metadata error hmetadata hrefused =>
            intro _
            by_contra hnone
            apply htorn
            refine ⟨?_, eq_false_of_ne_true hopen, eq_false_of_ne_true hfinalized, hfailure, hmanifest, ?_, hnone⟩
            · simpa using hterminal
            · rw [hrefused]
              exact Option.some_ne_none error
          next metadata hmetadata hrefused =>
            intro _
            exact ⟨_, rfl, by simpa using hterminal⟩

omit h in
theorem outcome_recover
    (accessedUnixNs : Nat) (metadataRefused manifestRefused : Option RepositoryError) :
    (store.recover accessedUnixNs metadataRefused manifestRefused).1.state.manifest.finalized = true →
      (store.recover accessedUnixNs metadataRefused manifestRefused).1.HasOutcome := by
  unfold FinalizedCapture.recover
  split
  · exact houtcome
  · split
    · exact houtcome
    · exact houtcome
    · split
      · exact fun _ => ⟨_, rfl, rfl⟩
      · exact fun _ => ⟨_, rfl, rfl⟩

theorem outcome_closeRun {calls : List CloseCall} (hcalls : store.Untorn calls) :
    (store.closeRun calls).state.manifest.finalized = true → (store.closeRun calls).HasOutcome := by
  induction calls generalizing store with
  | nil => exact houtcome
  | cons call calls ih =>
    apply ih (h.close call) _ hcalls.2
    cases call with
    | finalize call => exact outcome_finalize h houtcome hcalls.1
    | recover accessedUnixNs metadataRefused manifestRefused =>
      exact outcome_recover houtcome accessedUnixNs metadataRefused manifestRefused
    | restart => exact houtcome

theorem Whole.recovered (accessedUnixNs : Nat) :
    ∃ recovered, store.recover accessedUnixNs none none = (recovered, .ok ()) ∧ recovered.Recovered := by
  have hafter := h.recover accessedUnixNs none none
  cases hfinalized : store.state.manifest.finalized with
  | true =>
    have hrecover : store.recover accessedUnixNs none none = (store.reopen, .ok ()) := if_pos hfinalized
    exact ⟨_, hrecover, ⟨hfinalized, h.reopen.intact, h.retained, houtcome hfinalized⟩⟩
  | false =>
    obtain ⟨metadata, hmetadata⟩ := Option.ne_none_iff_exists'.mp h.metadata
    have hrecover : store.recover accessedUnixNs none none = (FinalizedCapture.sealManifest { store.reopen with
        sessionMetadata := some { metadata with outcome := .incomplete, accessedUnixNs := accessedUnixNs } }, .ok ()) := by
      simp only [FinalizedCapture.recover, hfinalized, hmetadata]
      rfl
    rw [hrecover] at hafter
    exact ⟨_, hrecover, ⟨rfl, hafter.intact, hafter.retained, ⟨_, rfl, rfl⟩⟩⟩

end

end

theorem close_broken (hfinalized : store.state.manifest.finalized = true) (hnone : ¬store.HasOutcome)
    (call : CloseCall) :
    (store.close call).state.manifest.finalized = true ∧ ¬(store.close call).HasOutcome := by
  cases call with
  | finalize call =>
    have hsame : (store.finalizeWithDetails call).1 = store := by
      unfold finalizeWithDetails
      split
      · rfl
      · split <;> rfl
    rw [close, hsame]
    exact ⟨hfinalized, hnone⟩
  | recover accessedUnixNs metadataRefused manifestRefused =>
    have hsame : store.recover accessedUnixNs metadataRefused manifestRefused = (store.reopen, .ok ()) :=
      if_pos hfinalized
    rw [close, hsame]
    exact ⟨hfinalized, hnone⟩
  | restart => exact ⟨hfinalized, hnone⟩

theorem closeRun_broken (hfinalized : store.state.manifest.finalized = true) (hnone : ¬store.HasOutcome)
    (calls : List CloseCall) :
    (store.closeRun calls).state.manifest.finalized = true ∧ ¬(store.closeRun calls).HasOutcome := by
  induction calls generalizing store with
  | nil => exact ⟨hfinalized, hnone⟩
  | cons call calls ih =>
    obtain ⟨hsealed, hstill⟩ := close_broken hfinalized hnone call
    exact ih hsealed hstill

theorem close_torn {call : CloseCall} (h : store.Torn call) :
    (store.close call).state.manifest.finalized = true ∧ ¬(store.close call).HasOutcome := by
  cases call with
  | finalize call =>
    obtain ⟨hterminal, hopen, hfinalized, hfailure, hmanifest, hrefused, hnone⟩ := h
    have hsealed : (store.finalizeWithDetails call).1 = store.sealManifest := by
      simp only [finalizeWithDetails, hterminal, hopen, hfinalized, hfailure, hmanifest, Bool.not_true,
        Bool.false_eq_true, if_false]
      split
      · rfl
      · rfl
      next hkept => exact absurd hkept hrefused
    rw [close, hsealed]
    exact ⟨rfl, hnone⟩
  | recover => exact absurd h id
  | restart => exact absurd h id

theorem closeRun_torn {calls : List CloseCall} (hcalls : ¬store.Untorn calls) :
    (store.closeRun calls).state.manifest.finalized = true ∧ ¬(store.closeRun calls).HasOutcome := by
  induction calls generalizing store with
  | nil => exact absurd trivial hcalls
  | cons call calls ih =>
    by_cases htorn : store.Torn call
    · obtain ⟨hfinalized, hnone⟩ := close_torn htorn
      exact closeRun_broken hfinalized hnone calls
    · exact ih fun hrest => hcalls ⟨htorn, hrest⟩

theorem close_missing (hmissing : store.sessionMetadata = none) (call : CloseCall) :
    (store.close call).sessionMetadata = none := by
  cases call with
  | finalize call =>
    simp only [close, finalizeWithDetails, hmissing]
    split
    · exact hmissing
    · split
      · exact hmissing
      · split
        · exact hmissing
        · split <;> exact hmissing
  | recover accessedUnixNs metadataRefused manifestRefused =>
    simp only [close, FinalizedCapture.recover, hmissing]
    split <;> exact hmissing
  | restart => exact hmissing

theorem closeRun_missing (hmissing : store.sessionMetadata = none) (calls : List CloseCall) :
    (store.closeRun calls).sessionMetadata = none := by
  induction calls generalizing store with
  | nil => exact hmissing
  | cons call calls ih => exact ih (close_missing hmissing call)

variable (store) in
theorem close_chunks (call : CloseCall) : (store.close call).chunks = store.chunks := by
  cases call with
  | finalize call =>
    simp only [close, finalizeWithDetails]
    split
    · rfl
    · split
      · rfl
      · split
        · rfl
        · split
          · rfl
          · rfl
          · split <;> rfl
  | recover accessedUnixNs metadataRefused manifestRefused =>
    simp only [close, FinalizedCapture.recover]
    split
    · rfl
    · split
      · rfl
      · rfl
      · split <;> rfl
  | restart => rfl

theorem closeRun_chunks (calls : List CloseCall) : (store.closeRun calls).chunks = store.chunks := by
  induction calls generalizing store with
  | nil => rfl
  | cons call calls ih => exact ih.trans (close_chunks store call)

theorem recovered_iff (h : store.Whole) (hlive : store.state.manifest.finalized = false) (calls : List CloseCall)
    (accessedUnixNs : Nat) :
    (∃ recovered, (store.closeRun calls).recover accessedUnixNs none none = (recovered, .ok ()) ∧
      recovered.Recovered ∧ recovered.chunks = store.chunks) ↔ store.Untorn calls := by
  constructor
  · rintro ⟨recovered, hrecover, hrecovered, -⟩
    by_contra hcalls
    obtain ⟨hfinalized, hnone⟩ := closeRun_torn hcalls
    have hstill := (close_broken hfinalized hnone (.recover accessedUnixNs none none)).2
    rw [close, hrecover] at hstill
    exact hstill hrecovered.outcome
  · intro hcalls
    have hstart : store.state.manifest.finalized = true → store.HasOutcome := by
      intro hfinalized
      exact absurd (hlive.symm.trans hfinalized) Bool.false_ne_true
    obtain ⟨recovered, hrecover, hrecovered⟩ :=
      (h.closeRun calls).recovered (outcome_closeRun h hstart hcalls) accessedUnixNs
    refine ⟨recovered, hrecover, hrecovered, ?_⟩
    have hchunks := (store.closeRun calls).close_chunks (.recover accessedUnixNs none none)
    rw [close, hrecover, closeRun_chunks calls] at hchunks
    exact hchunks

end FinalizedCapture

namespace CaptureSession

variable {floats : FloatOps} {digest : Digest} {descriptor : CaptureStoreDescriptor}

theorem handle_intact (session : CaptureSession digest descriptor) (metadata : Option (CaptureSessionMetadata floats)) :
    (session.handle metadata).Intact where
  published := session.kept.published
  readable := by
    intro i chunk _ hget
    obtain ⟨encoded, -, hstored⟩ := session.sound.stored i chunk hget
    apply (FinalizedCapture.readChunk_iff (show (session.handle metadata).chunks[i]? = some chunk from hget)).mpr
    exact ne_of_eq_of_ne hstored (Option.some_ne_none encoded)

theorem handle_whole (session : CaptureSession digest descriptor) (metadata : CaptureSessionMetadata floats) :
    (session.handle (some metadata)).Whole :=
  ⟨session.handle_intact (some metadata), session.sound.first, Option.some_ne_none metadata⟩

end CaptureSession

/-- A recovery after any run of finalizations, recoveries and restarts leaves a finalized session with all
its chunks and a terminal outcome, exactly when the session's creation was not interrupted and no
finalization stopped between its two publications. -/
theorem finalize_then_recover {floats : FloatOps} {digest : Digest} {descriptor : CaptureStoreDescriptor}
    {repository : Repository} {created system : CaptureSystem} {actions : List StoreAction}
    (hcreate : CaptureSystem.create digest descriptor repository = .ok created)
    (hrun : created.run digest descriptor actions = some system) (live : LiveMetadata floats)
    (calls : List CloseCall) (accessedUnixNs : Nat) :
    (∃ recovered, (((CaptureSession.ofRun hcreate hrun).handle live.stored).closeRun calls).recover accessedUnixNs
        none none = (recovered, .ok ()) ∧ recovered.Recovered ∧ recovered.chunks = system.committed) ↔
      live ≠ .missing ∧ ((CaptureSession.ofRun hcreate hrun).handle live.stored).Untorn calls := by
  cases live with
  | missing =>
    refine ⟨?_, fun h => absurd rfl h.1⟩
    rintro ⟨recovered, hrecover, hrecovered, -⟩
    obtain ⟨metadata, hmetadata, -⟩ := hrecovered.outcome
    have hnone : ((CaptureSession.ofRun hcreate hrun).handle (.missing : LiveMetadata floats).stored).sessionMetadata =
      none := rfl
    have hmissing := FinalizedCapture.close_missing (FinalizedCapture.closeRun_missing hnone calls)
      (.recover accessedUnixNs none none)
    rw [FinalizedCapture.close, hrecover, hmetadata] at hmissing
    cases hmissing
  | written timeline createdUnixNs writtenUnixNs =>
    have hiff := FinalizedCapture.recovered_iff ((CaptureSession.ofRun hcreate hrun).handle_whole
      ⟨timeline, .inProgress, createdUnixNs, writtenUnixNs, none, 0, false⟩)
      (CaptureSession.ofRun hcreate hrun).kept.unsealed calls accessedUnixNs
    exact hiff.trans ⟨fun hcalls => ⟨nofun, hcalls⟩, And.right⟩

def noRates : FloatOps :=
  ⟨Unit, fun _ => [], fun _ => none, fun _ _ => (), fun _ _ => (), (), (), (), (), fun _ => false⟩

def finalizeAs (metadataRefused : Option RepositoryError) : CloseCall :=
  .finalize ⟨.complete, none, none, 2, none, metadataRefused, nofun⟩

/-- The first attempt to finalize is refused before anything is published. -/
theorem finalize_then_recover_retried :
    ∃ (created system : CaptureSystem) (hcreate : CaptureSystem.create tailDigest quadDescriptor .empty = .ok created)
      (hrun : created.run tailDigest quadDescriptor [.finish] = some system),
      ∃ recovered, (((CaptureSession.ofRun hcreate hrun).handle
        (.written none 0 1 : LiveMetadata noRates).stored).closeRun
          [.finalize ⟨.complete, none, none, 2, some .unavailable, none, nofun⟩, finalizeAs none]).recover 3 none none =
            (recovered, .ok ()) ∧ recovered.Recovered ∧ recovered.chunks = system.committed := by
  refine ⟨_, _, rfl, rfl, ?_⟩
  refine (finalize_then_recover rfl rfl _ _ 3).mpr ⟨nofun, ?_, ?_, trivial⟩
  · rintro ⟨-, -, -, -, hmanifest, -⟩
    cases hmanifest
  · rintro ⟨-, -, -, -, -, hmetadata, -⟩
    exact hmetadata rfl

/-- A process that stops between the two publications leaves a finalized session in progress, and the
recovery does not touch it. -/
theorem interrupted_finalize_in_progress :
    ∃ (created system : CaptureSystem) (hcreate : CaptureSystem.create tailDigest quadDescriptor .empty = .ok created)
      (hrun : created.run tailDigest quadDescriptor [.finish] = some system),
      ∃ recovered metadata, (((CaptureSession.ofRun hcreate hrun).handle
        (.written none 0 1 : LiveMetadata noRates).stored).closeRun [finalizeAs (some .unavailable)]).recover 3 none none =
          (recovered, .ok ()) ∧ recovered.state.manifest.finalized = true ∧ recovered.sessionMetadata = some metadata ∧
            metadata.outcome = .inProgress :=
  ⟨_, _, rfl, rfl, _, _, rfl, rfl, rfl, rfl⟩

end LogicConduit
