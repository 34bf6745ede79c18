import LogicConduit.CaptureReplay
import LogicConduit.TextFields

namespace LogicConduit

/-- What the code uses of `f64`. -/
structure FloatOps where
  Value : Type
  display : Value → Text
  parse : Text → Option Value
  mul : Value → Value → Value
  div : Value → Value → Value
  one : Value
  thousand : Value
  million : Value
  billion : Value
  finitePositive : Value → Bool

/-- A finite positive number is printed in digits with at most a decimal point, and is read back as it
was; one is neutral. -/
structure FloatOps.Lawful (floats : FloatOps) : Prop where
  display_ne : ∀ x, floats.finitePositive x = true → floats.display x ≠ []
  display_plain : ∀ x, floats.finitePositive x = true → ∀ c ∈ floats.display x, c.isDigit = true ∨ c = '.'
  parse_display : ∀ x, floats.finitePositive x = true → floats.parse (floats.display x) = some x
  mul_one : ∀ x, floats.finitePositive x = true → floats.mul x floats.one = x

/-- `CaptureTimelineMetadata::new` takes a finite positive rate and at least one name. -/
structure CaptureTimelineMetadata (floats : FloatOps) where
  sampleRateHz : floats.Value
  channelNames : List Text
  triggerSample : Option Nat
  rate_valid : floats.finitePositive sampleRateHz = true
  names_ne : channelNames ≠ []
  trigger_lt : ∀ sample ∈ triggerSample, sample < 2 ^ 64

inductive CaptureSessionOutcome
  | inProgress
  | complete
  | stopped
  | cancelledBeforeTrigger
  | incomplete
  | aborted
  | corrupt
  deriving DecidableEq

def CaptureSessionOutcome.isTerminal (outcome : CaptureSessionOutcome) : Bool := outcome ≠ .inProgress

structure CaptureSessionMetadata (floats : FloatOps) where
  timeline : Option (CaptureTimelineMetadata floats)
  outcome : CaptureSessionOutcome
  createdUnixNs : Nat
  accessedUnixNs : Nat
  recordingOrigin : Option Nat
  retainedStartSample : Nat
  kept : Bool

variable {chunk : CaptureChunk}

namespace CaptureSystem

variable {digest : Digest} {descriptor : CaptureStoreDescriptor} {system next : CaptureSystem}

/-- What a live store keeps besides its chunks: the manifest it has published is the one it holds. -/
structure Kept (digest : Digest) (descriptor : CaptureStoreDescriptor) (system : CaptureSystem) : Prop where
  samples : system.state.manifest.committedSamples = system.writer.nextSample
  unsealed : system.state.manifest.finalized = false
  published : system.repository (manifestKey digest descriptor.sessionId) = some system.state.manifest.toJson

theorem Kept.of_same (h : Kept digest descriptor system) (hmanifest : next.state.manifest = system.state.manifest)
    (hsample : next.writer.nextSample = system.writer.nextSample)
    (hkey : next.repository (manifestKey digest descriptor.sessionId) =
      system.repository (manifestKey digest descriptor.sessionId)) : Kept digest descriptor next :=
  ⟨by rw [hmanifest, hsample, h.samples], by rw [hmanifest, h.unsealed], by rw [hmanifest, hkey, h.published]⟩

theorem advance_ok {manifest advanced : PersistedManifest} (h : manifest.advance chunk = .ok advanced) :
    advanced.committedSamples = chunk.endSample ∧ advanced.finalized = manifest.finalized := by
  unfold PersistedManifest.advance at h
  split at h
  · cases h
  · split at h
    · cases h
    · split at h
      · cases h
      · cases h
        exact ⟨rfl, rfl⟩

section

variable (h : Kept digest descriptor system)
include h

theorem Kept.commit (chunk : CaptureChunk) (refusal : Option RepositoryError) :
    Kept digest descriptor (system.commitChunk digest descriptor chunk refusal) := by
  unfold CaptureSystem.commitChunk
  split
  · exact h.of_same rfl rfl rfl
  · exact h.of_same rfl rfl rfl
  next manifest hadvance =>
    obtain ⟨hsamples, hfinalized⟩ := advance_ok hadvance
    refine ⟨hsamples, hfinalized.trans h.unsealed, ?_⟩
    rw [publishCaptureBytes_eq]
    exact Repository.publish_same _ _ _

theorem Kept.step {action : StoreAction}
    (hstep : system.step digest descriptor action = some next) : Kept digest descriptor next := by
  cases moves_of_step hstep with
  | append chunk =>
    unfold CaptureSystem.beginAppend
    split <;> exact h.of_same rfl rfl rfl
  | publish publishing refusal =>
    cases refusal with
    | some error => exact h.of_same rfl rfl rfl
    | none =>
      refine h.of_same rfl rfl ?_
      simp only [CaptureSystem.publishArtifact, publishCaptureBytes_eq]
      apply Repository.publish_other
      intro hkey
      have hspace : captureManifestNamespace = captureChunkNamespace := congrArg ArtifactKey.nameSpace hkey
      exact absurd hspace (by decide)
  | commit committing refusal => exact h.commit _ refusal
  | finish idle =>
    unfold CaptureSystem.finishWriter
    split <;> exact h.of_same rfl rfl rfl
  | fail | openCursor | cursor => exact h.of_same rfl rfl rfl

theorem Kept.run {actions : List StoreAction}
    (hrun : system.run digest descriptor actions = some next) : Kept digest descriptor next := by
  induction actions generalizing system with
  | nil =>
    cases hrun
    exact h
  | cons action actions ih =>
    obtain ⟨middle, hstep, hrest⟩ := Option.bind_eq_some_iff.mp hrun
    exact ih (h.step hstep) hrest

end

theorem Kept.create {repository : Repository} (hcreate : create digest descriptor repository = .ok system) :
    Kept digest descriptor system := by
  unfold CaptureSystem.create at hcreate
  split at hcreate
  · cases hcreate
  · cases Except.ok.inj hcreate
    refine ⟨rfl, rfl, ?_⟩
    rw [publishCaptureBytes_eq]
    exact Repository.publish_same _ _ _

end CaptureSystem

/-- A store and its writer between two steps of a run. -/
structure CaptureSession (digest : Digest) (descriptor : CaptureStoreDescriptor) where
  system : CaptureSystem
  sound : CaptureSystem.Sound digest descriptor system
  kept : CaptureSystem.Kept digest descriptor system

/-- A session behind its writer, as `CaptureStore` and `FinalizedCapture` hold it. What its repository holds
of a committed chunk is what was published for it; reclaimed chunks are gone. -/
structure FinalizedCapture (floats : FloatOps) (digest : Digest) where
  descriptor : CaptureStoreDescriptor
  repository : Repository
  state : StoreState
  sessionMetadata : Option (CaptureSessionMetadata floats)
  -- all chunks the session has committed, in their order
  chunks : List CaptureChunk
  contiguous : ContiguousFrom descriptor 0 0 chunks
  count : state.manifest.committedChunks = chunks.length
  samples : state.manifest.committedSamples = (timeline chunks).length
  samples_lt : (timeline chunks).length < 2 ^ 64
  stored : ∀ i chunk bytes, chunks[i]? = some chunk →
    repository (chunkKey digest descriptor.sessionId i) = some bytes → encodeChunk chunk = .ok bytes

namespace CaptureSession

variable {digest : Digest} {descriptor : CaptureStoreDescriptor}

def ofRun {repository : Repository} {created system : CaptureSystem} {actions : List StoreAction}
    (hcreate : CaptureSystem.create digest descriptor repository = .ok created)
    (hrun : created.run digest descriptor actions = some system) : CaptureSession digest descriptor where
  system := system
  sound := (CaptureSystem.Sound.create hcreate).run hrun
  kept := (CaptureSystem.Kept.create hcreate).run hrun

variable {floats : FloatOps}

def handle (session : CaptureSession digest descriptor) (sessionMetadata : Option (CaptureSessionMetadata floats)) :
    FinalizedCapture floats digest where
  descriptor := descriptor
  repository := session.system.repository
  state := session.system.state
  sessionMetadata := sessionMetadata
  chunks := session.system.committed
  contiguous := session.sound.contiguous
  count := session.sound.count
  samples := session.kept.samples.trans session.sound.sample
  samples_lt := by
    rw [← session.sound.sample]
    exact session.sound.sample_lt
  stored := by
    intro i chunk bytes hget hbytes
    obtain ⟨encoded, hencode, hstored⟩ := session.sound.stored i chunk hget
    rw [hstored] at hbytes
    cases hbytes
    exact hencode

/-- The session with another manifest that counts the same chunks and samples. -/
def closeAs (session : CaptureSession digest descriptor) (sessionMetadata : Option (CaptureSessionMetadata floats)) :
    FinalizedCapture floats digest :=
  let manifest := { session.system.state.manifest with
    finalized := true
    -- `saturating_add`
    generation := min (session.system.state.manifest.generation + 1) (2 ^ 64 - 1) }
  { session.handle sessionMetadata with
    repository := publishCaptureBytes session.system.repository (manifestKey digest descriptor.sessionId) manifest.toJson
    state := ⟨manifest, false, none⟩
    count := session.sound.count
    samples := session.kept.samples.trans session.sound.sample
    stored := by
      intro i chunk bytes hget hbytes
      rw [publishCaptureBytes_eq] at hbytes
      have hkey := chunkKey_ne_manifestKey digest descriptor.sessionId i
      exact (session.handle sessionMetadata).stored i chunk bytes hget ((Repository.publish_other hkey).symm.trans hbytes) }

end CaptureSession

namespace FinalizedCapture

variable {floats : FloatOps} {digest : Digest} (capture : FinalizedCapture floats digest)

theorem length_lt : capture.chunks.length < 2 ^ 64 :=
  Nat.lt_of_le_of_lt (length_le_timeline capture.chunks) capture.samples_lt

/-- The loop of `reclaim_before`: the repository and the first chunk that is kept. -/
def reclaimLoop (safeSample : Nat) (readRefused removeRefused : Nat → Option RepositoryError) :
    Nat → Nat → Repository → Repository × Except CaptureStoreError Nat
  | 0, sequence, repository => (repository, .ok sequence)
  | remaining + 1, sequence, repository =>
    match readChunk digest repository capture.descriptor sequence (readRefused sequence) with
    | .error error => (repository, .error error)
    | .ok chunk =>
      if safeSample < chunk.endSample then (repository, .ok sequence)
      else
        match removeRefused sequence with
        | some error => (repository, .error (.repository error))
        | none =>
          let key := chunkKey digest capture.descriptor.sessionId sequence
          reclaimLoop safeSample readRefused removeRefused remaining (sequence + 1) (repository.remove (· = key))

theorem reclaimLoop_keeps {safeSample remaining sequence : Nat} {readRefused removeRefused : Nat → Option RepositoryError}
    {repository : Repository} {key : ArtifactKey} {bytes : Bytes}
    (h : (capture.reclaimLoop safeSample readRefused removeRefused remaining sequence repository).1 key = some bytes) :
    repository key = some bytes := by
  induction remaining generalizing sequence repository with
  | zero => exact h
  | succ remaining ih =>
    unfold reclaimLoop at h
    split at h
    · exact h
    · split at h
      · exact h
      · split at h
        · exact h
        · have hremoved := ih h
          unfold Repository.remove at hremoved
          split at hremoved
          · cases hremoved
          · exact hremoved

/-- `reclaim_before`; chunks that were removed before an error stay removed. Of its result only the error is kept: the
report counts what the state shows. -/
def reclaimBefore (safeSample : Nat) (readRefused removeRefused : Nat → Option RepositoryError)
    (manifestRefused metadataRefused : Option RepositoryError) :
    FinalizedCapture floats digest × Except CaptureStoreError Unit :=
  let first := capture.state.manifest.firstSequence
  let reclaimed := capture.reclaimLoop safeSample readRefused removeRefused
    (capture.state.manifest.committedChunks - first) first capture.repository
  let removed := { capture with
    repository := reclaimed.1
    stored := fun i chunk bytes hget hbytes => capture.stored i chunk bytes hget (capture.reclaimLoop_keeps hbytes) }
  match reclaimed.2, manifestRefused with
  | .error error, _ => (removed, .error error)
  | .ok sequence, some error => if sequence = first then (removed, .ok ()) else (removed, .error (.repository error))
  | .ok sequence, none =>
    if sequence = first then (removed, .ok ())
    else
      let manifest := { capture.state.manifest with
        firstSequence := sequence
        generation := min (capture.state.manifest.generation + 1) (2 ^ 64 - 1) }
      let moved := { removed with
        repository := publishCaptureBytes removed.repository (manifestKey digest capture.descriptor.sessionId)
          manifest.toJson
        state := { capture.state with manifest := manifest }
        count := capture.count
        samples := capture.samples
        stored := by
          intro i chunk bytes hget hbytes
          rw [publishCaptureBytes_eq,
            Repository.publish_other (chunkKey_ne_manifestKey digest capture.descriptor.sessionId i)] at hbytes
          exact removed.stored i chunk bytes hget hbytes }
      match capture.sessionMetadata, metadataRefused with
      | none, _ => (moved, .error (.corrupt "capture session metadata is missing"))
      | some _, some error => (moved, .error (.repository error))
      | some metadata, none =>
        ({ moved with sessionMetadata := some { metadata with retainedStartSample := safeSample } }, .ok ())

def next (refused : Nat → Option RepositoryError) (cursor : CaptureCursor) : CursorResult × CaptureCursor :=
  let looked := cursor.look capture.state
  match looked.phase with
  | .reading sequence =>
    let result := readChunk digest capture.repository capture.descriptor sequence (refused sequence)
    (result.map .chunk, looked.take result)
  | _ => (.ok (if capture.state.writerOpen then .pending else .finished), looked)

def place (cursor : CaptureCursor) : Nat := max cursor.nextSequence capture.state.manifest.firstSequence

variable {capture}

theorem readChunk_committed {i : Nat} {chunk read : CaptureChunk} {refusal : Option RepositoryError}
    (hget : capture.chunks[i]? = some chunk)
    (hread : readChunk digest capture.repository capture.descriptor i refusal = .ok read) : read = chunk := by
  have hi := (List.getElem?_eq_some_iff.mp hget).1
  have hlt := capture.length_lt
  have hcontinues := capture.contiguous.getElem hget
  rw [Nat.zero_add] at hcontinues
  cases refusal with
  | some error => cases hread
  | none =>
    cases hartifact : capture.repository (chunkKey digest capture.descriptor.sessionId i) with
    | none =>
      simp only [readChunk, hartifact] at hread
      cases hread
    | some bytes =>
      have hencode := capture.stored i chunk bytes hget hartifact
      rw [readChunk_stored hcontinues hencode hartifact (by omega)] at hread
      exact (Except.ok.inj hread).symm

theorem readChunk_iff {i : Nat} (hget : capture.chunks[i]? = some chunk) :
    readChunk digest capture.repository capture.descriptor i none = .ok chunk ↔
      capture.repository (chunkKey digest capture.descriptor.sessionId i) ≠ none := by
  have hi := (List.getElem?_eq_some_iff.mp hget).1
  have hlt := capture.length_lt
  have hcontinues := capture.contiguous.getElem hget
  rw [Nat.zero_add] at hcontinues
  constructor
  · intro hread hmissing
    simp only [readChunk, hmissing] at hread
    cases hread
  · intro hthere
    obtain ⟨bytes, hbytes⟩ := Option.ne_none_iff_exists'.mp hthere
    exact readChunk_stored hcontinues (capture.stored _ chunk bytes hget hbytes) hbytes (by omega)

variable (capture) in
/-- The published manifest is the one at hand, and every chunk it claims can be read. -/
structure Intact : Prop where
  published : capture.repository (manifestKey digest capture.descriptor.sessionId) = some capture.state.manifest.toJson
  readable : ∀ i chunk, capture.state.manifest.firstSequence ≤ i → capture.chunks[i]? = some chunk →
    readChunk digest capture.repository capture.descriptor i none = .ok chunk

theorem next_reading (refused : Nat → Option RepositoryError) (cursor : CaptureCursor)
    (hlt : capture.place cursor < capture.chunks.length) :
    capture.next refused cursor =
      ((readChunk digest capture.repository capture.descriptor (capture.place cursor)
        (refused (capture.place cursor))).map .chunk,
      (⟨capture.place cursor, .reading (capture.place cursor), cursor.returns⟩ : CaptureCursor).take
        (readChunk digest capture.repository capture.descriptor (capture.place cursor)
          (refused (capture.place cursor)))) := by
  rw [← capture.count] at hlt
  have hlook : cursor.look capture.state = ⟨capture.place cursor, .reading (capture.place cursor), cursor.returns⟩ := by
    rw [place] at hlt
    simp only [CaptureCursor.look, place, if_pos hlt]
  rw [next, hlook]

theorem next_past (refused : Nat → Option RepositoryError) (cursor : CaptureCursor)
    (hle : capture.chunks.length ≤ capture.place cursor) :
    (capture.next refused cursor).1 = .ok (if capture.state.writerOpen then .pending else .finished) := by
  rw [← capture.count] at hle
  have hlook : (cursor.look capture.state).phase = .idle := by
    rw [place] at hle
    simp only [CaptureCursor.look, if_neg (Nat.not_lt.mpr hle)]
    split <;> rfl
  rw [next]
  simp only [hlook]

variable {refused : Nat → Option RepositoryError} {cursor moved : CaptureCursor}

section

variable (h : capture.next refused cursor = (.ok (.chunk chunk), moved))
include h

theorem next_chunk :
    capture.chunks[capture.place cursor]? = some chunk ∧ moved.nextSequence = capture.place cursor + 1 := by
  by_cases hlt : capture.place cursor < capture.chunks.length
  · rw [next_reading refused cursor hlt] at h
    have hget := List.getElem?_eq_getElem hlt
    cases hread : readChunk digest capture.repository capture.descriptor (capture.place cursor)
        (refused (capture.place cursor)) with
    | error error =>
      rw [hread] at h
      cases h
    | ok read =>
      have hsame := readChunk_committed hget hread
      rw [hread] at h
      cases h
      exact ⟨hget.trans (congrArg some hsame.symm), rfl⟩
  · have hend := next_past refused cursor (Nat.le_of_not_lt hlt)
    rw [h] at hend
    dsimp only at hend
    split at hend <;> cases hend

theorem next_chunk_encoded : ∃ encoded, encodeChunk chunk = .ok encoded := by
  obtain ⟨hget, -⟩ := next_chunk h
  have hlt := (List.getElem?_eq_some_iff.mp hget).1
  cases hartifact : capture.repository (chunkKey digest capture.descriptor.sessionId (capture.place cursor)) with
  | some bytes => exact ⟨bytes, capture.stored _ chunk bytes hget hartifact⟩
  | none =>
    rw [next_reading refused cursor hlt] at h
    cases hrefused : refused (capture.place cursor) with
    | some error =>
      simp only [readChunk, hrefused] at h
      cases h
    | none =>
      simp only [readChunk, hrefused, hartifact] at h
      cases h

end

theorem next_finished (h : capture.next refused cursor = (.ok .finished, moved)) :
    capture.chunks.length ≤ capture.place cursor := by
  by_contra hlt
  rw [next_reading refused cursor (Nat.lt_of_not_le hlt)] at h
  cases hread : readChunk digest capture.repository capture.descriptor (capture.place cursor)
      (refused (capture.place cursor)) with
  | error error =>
    rw [hread] at h
    cases h
  | ok read =>
    rw [hread] at h
    cases h

theorem next_stored {refused : Nat → Option RepositoryError} {cursor : CaptureCursor} {chunk : CaptureChunk}
    (hget : capture.chunks[capture.place cursor]? = some chunk)
    (hthere : capture.repository (chunkKey digest capture.descriptor.sessionId (capture.place cursor)) ≠ none)
    (hread : refused (capture.place cursor) = none) :
    ∃ moved, capture.next refused cursor = (.ok (.chunk chunk), moved) ∧
      moved.nextSequence = capture.place cursor + 1 := by
  have hi := (List.getElem?_eq_some_iff.mp hget).1
  rw [next_reading refused cursor hi, hread, (readChunk_iff hget).mpr hthere]
  exact ⟨_, rfl, rfl⟩

end FinalizedCapture

end LogicConduit
