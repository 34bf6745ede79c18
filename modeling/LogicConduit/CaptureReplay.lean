import LogicConduit.CaptureStore

namespace LogicConduit

/-- What a cursor has returned is the beginning of what is committed. -/
structure CaptureCursor.Replays (committed : List CaptureChunk) (writerOpen : Bool) (cursor : CaptureCursor) :
    Prop where
  chunks : cursor.chunks = committed.take cursor.nextSequence
  bound : cursor.nextSequence ≤ committed.length
  reading : ∀ sequence, cursor.phase = .reading sequence →
    sequence = cursor.nextSequence ∧ sequence < committed.length
  finished : .ok .finished ∈ cursor.returns → writerOpen = false ∧ cursor.nextSequence = committed.length

variable {chunk : CaptureChunk}

namespace CaptureCursor

variable {committed : List CaptureChunk} {writerOpen : Bool} {cursor : CaptureCursor} {state : StoreState}

theorem chunks_reply (cursor : CaptureCursor) (result : CursorResult) :
    (cursor.reply result).chunks = cursor.chunks ++ (resultChunk result).toList := by
  cases hchunk : resultChunk result with
  | none => simp [chunks, reply, hchunk]
  | some chunk => simp [chunks, reply, hchunk]

theorem Replays.opened (hfirst : state.manifest.firstSequence = 0) :
    Replays committed writerOpen (opened state) := by
  refine ⟨?_, ?_, nofun, nofun⟩
  · rw [CaptureCursor.opened, hfirst]
    rfl
  · rw [CaptureCursor.opened, hfirst]
    exact Nat.zero_le _

theorem Replays.reply {result : CursorResult} (h : Replays committed writerOpen cursor)
    (hchunk : resultChunk result = none)
    (hend : result = .ok .finished → writerOpen = false ∧ cursor.nextSequence = committed.length) :
    Replays committed writerOpen (cursor.reply result) := by
  refine ⟨?_, h.bound, nofun, ?_⟩
  · rw [chunks_reply, hchunk, Option.toList_none, List.append_nil]
    exact h.chunks
  · intro hmem
    rcases List.mem_append.mp hmem with hold | hnew
    · exact h.finished hold
    · exact hend (List.mem_singleton.mp hnew).symm

theorem Replays.move {phase : ReaderPhase} (h : Replays committed writerOpen cursor)
    (hphase : ∀ sequence, phase = .reading sequence → sequence = cursor.nextSequence ∧ sequence < committed.length) :
    Replays committed writerOpen { cursor with phase := phase } :=
  ⟨h.chunks, h.bound, hphase, h.finished⟩

theorem Replays.look (h : Replays committed state.writerOpen cursor) (hfirst : state.manifest.firstSequence = 0)
    (hcount : state.manifest.committedChunks = committed.length) :
    Replays committed state.writerOpen (cursor.look state) := by
  simp only [CaptureCursor.look, hfirst, hcount, Nat.max_zero]
  split
  next hlt =>
    apply h.move
    intro sequence heq
    cases heq
    exact ⟨rfl, hlt⟩
  next hle =>
    split
    · exact h.reply rfl nofun
    next hopen =>
      apply h.reply rfl
      intro _
      have hbound := h.bound
      exact ⟨eq_false_of_ne_true hopen, by omega⟩

theorem Replays.take_ok (h : Replays committed writerOpen cursor) (hget : committed[cursor.nextSequence]? = some chunk) :
    Replays committed writerOpen (cursor.take (.ok chunk)) := by
  obtain ⟨hlt, heq⟩ := List.getElem?_eq_some_iff.mp hget
  refine ⟨?_, hlt, nofun, ?_⟩
  · have hchunks : (cursor.take (.ok chunk)).chunks = cursor.chunks ++ [chunk] :=
      chunks_reply { cursor with nextSequence := cursor.nextSequence + 1 } (.ok (.chunk chunk))
    rw [hchunks, h.chunks]
    show _ = committed.take (cursor.nextSequence + 1)
    rw [List.take_add_one, hget]
    rfl
  · intro hmem
    rcases List.mem_append.mp hmem with hold | hnew
    · obtain ⟨-, hall⟩ := h.finished hold
      omega
    · cases List.mem_singleton.mp hnew

theorem Replays.grow (h : Replays committed true cursor) :
    Replays (committed ++ [chunk]) true cursor := by
  have hbound := h.bound
  refine ⟨?_, ?_, ?_, ?_⟩
  · rw [List.take_append_of_le_length hbound]
    exact h.chunks
  · rw [List.length_append]
    omega
  · intro sequence hphase
    obtain ⟨heq, hlt⟩ := h.reading sequence hphase
    rw [List.length_append]
    exact ⟨heq, by omega⟩
  · intro hmem
    obtain ⟨hfalse, -⟩ := h.finished hmem
    exact absurd hfalse.symm Bool.false_ne_true

theorem Replays.close (h : Replays committed writerOpen cursor) : Replays committed false cursor :=
  ⟨h.chunks, h.bound, h.reading, fun hmem => ⟨rfl, (h.finished hmem).2⟩⟩

end CaptureCursor

variable {encoded : Bytes}

theorem readChunk_stored {digest : Digest} {repository : Repository} {descriptor : CaptureStoreDescriptor}
    {i sample : Nat} (hcontinues : ContinuesSession descriptor i sample chunk)
    (hencode : encodeChunk chunk = .ok encoded)
    (hstored : repository (chunkKey digest descriptor.sessionId i) = some encoded) (hi : i < 2 ^ 64) :
    readChunk digest repository descriptor i none = .ok chunk := by
  have hlength := (encodeChunk_eq_ok hencode).length_lt
  have hregion : readArtifactRegion encoded 0 encoded.length = .ok encoded := by
    have hwhole : HasAt encoded 0 encoded := ⟨[], [], by simp, rfl⟩
    exact hwhole.readArtifactRegion (by omega)
  have hsequence : chunk.sequence < 2 ^ 64 := by
    rw [hcontinues.sequence]
    exact hi
  have hdecode := decodeChunk_encoded hencode hcontinues.sessionId hcontinues.channels hsequence
  rw [hcontinues.sequence] at hdecode
  simp only [readChunk, hstored, hregion, hdecode]

namespace CaptureSystem

/-- What the writer, the repository and the cursors agree on between any two steps. -/
structure Sound (digest : Digest) (descriptor : CaptureStoreDescriptor) (system : CaptureSystem) : Prop where
  contiguous : ContiguousFrom descriptor 0 0 system.committed
  sequence : system.writer.nextSequence = system.committed.length
  sample : system.writer.nextSample = (timeline system.committed).length
  sample_lt : system.writer.nextSample < 2 ^ 64
  first : system.state.manifest.firstSequence = 0
  count : system.state.manifest.committedChunks = system.committed.length
  generation : system.state.manifest.generation = system.committed.length
  terminal : system.state.writerOpen = !system.writer.terminal
  stored : ∀ i chunk, system.committed[i]? = some chunk → ∃ encoded, encodeChunk chunk = .ok encoded ∧
    system.repository (chunkKey digest descriptor.sessionId i) = some encoded
  publishing : ∀ chunk encoded, system.phase = .publishing chunk encoded →
    ContinuesSession descriptor system.writer.nextSequence system.writer.nextSample chunk ∧
      encodeChunk chunk = .ok encoded ∧ system.writer.terminal = false
  committing : ∀ chunk, system.phase = .committing chunk →
    ContinuesSession descriptor system.writer.nextSequence system.writer.nextSample chunk ∧
      (∃ encoded, encodeChunk chunk = .ok encoded ∧
        system.repository (chunkKey digest descriptor.sessionId system.writer.nextSequence) = some encoded) ∧
      system.writer.terminal = false
  cursors : ∀ cursor ∈ system.cursors, cursor.Replays system.committed system.state.writerOpen

variable {digest : Digest} {descriptor : CaptureStoreDescriptor} {system next : CaptureSystem}

theorem Sound.create {repository : Repository} (h : create digest descriptor repository = .ok system) :
    Sound digest descriptor system := by
  unfold CaptureSystem.create at h
  split at h
  · cases h
  · cases Except.ok.inj h
    exact ⟨trivial, rfl, rfl, Nat.two_pow_pos 64, rfl, rfl, rfl, rfl, nofun, nofun, nofun, nofun⟩

/-- The number of chunks fits its counter: every chunk has a sample. -/
theorem Sound.length_lt (h : Sound digest descriptor system) : system.committed.length < 2 ^ 64 := by
  have hle := length_le_timeline system.committed
  have hlt := h.sample_lt
  rw [h.sample] at hlt
  omega

theorem admit_eq_ok {writer : CaptureStoreWriter} :
    writer.admit descriptor chunk = .ok encoded ↔ writer.terminal = false ∧
      ContinuesSession descriptor writer.nextSequence writer.nextSample chunk ∧ encodeChunk chunk = .ok encoded := by
  unfold CaptureStoreWriter.admit
  by_cases hterminal : writer.terminal = true
  · simp [hterminal]
  · rw [if_neg hterminal]
    by_cases hcheck : chunk.sessionId ≠ descriptor.sessionId ∨ chunk.channels ≠ descriptor.channels ∨
        chunk.sequence ≠ writer.nextSequence ∨ chunk.startSample ≠ writer.nextSample
    · rw [if_pos hcheck]
      constructor
      · intro h
        cases h
      · rintro ⟨-, hc, -⟩
        rcases hcheck with hne | hne | hne | hne
        · exact absurd hc.sessionId hne
        · exact absurd hc.channels hne
        · exact absurd hc.sequence hne
        · exact absurd hc.startSample hne
    · rw [if_neg hcheck]
      simp only [ne_eq, not_or, not_not] at hcheck
      obtain ⟨hsession, hchannels, hsequence, hsample⟩ := hcheck
      constructor
      · intro h
        exact ⟨eq_false_of_ne_true hterminal, ⟨hsession, hchannels, hsequence, hsample⟩, h⟩
      · exact fun h => h.2.2

variable {refusal : Option RepositoryError}

section

variable (h : Sound digest descriptor system)
include h

theorem Sound.move {phase : WriterPhase}
    (hpublish : ∀ chunk encoded, phase = .publishing chunk encoded →
      ContinuesSession descriptor system.writer.nextSequence system.writer.nextSample chunk ∧
        encodeChunk chunk = .ok encoded ∧ system.writer.terminal = false)
    (hcommit : ∀ chunk, phase ≠ .committing chunk) : Sound digest descriptor { system with phase := phase } :=
  ⟨h.contiguous, h.sequence, h.sample, h.sample_lt, h.first, h.count, h.generation, h.terminal, h.stored, hpublish,
    fun chunk hphase => absurd hphase (hcommit chunk), h.cursors⟩

theorem Sound.fail_phase {error : CaptureStoreError} :
    Sound digest descriptor { system with phase := .failing chunk error } := by
  apply h.move
  · intro other encoded heq
    cases heq
  · intro other heq
    cases heq

theorem Sound.beginAppend : Sound digest descriptor (system.beginAppend descriptor chunk) := by
  unfold CaptureSystem.beginAppend
  split
  · exact h.fail_phase
  next encoded hadmit =>
    apply h.move
    · intro other bytes heq
      cases heq
      obtain ⟨hterminal, hcontinues, hencode⟩ := admit_eq_ok.mp hadmit
      exact ⟨hcontinues, hencode, hterminal⟩
    · intro other heq
      cases heq

theorem Sound.publishArtifact (hphase : system.phase = .publishing chunk encoded) :
    Sound digest descriptor (system.publishArtifact digest chunk encoded refusal) := by
  cases refusal with
  | some error => exact h.fail_phase
  | none =>
    obtain ⟨hcontinues, hencode, hterminal⟩ := h.publishing chunk encoded hphase
    have hbound := h.length_lt
    have hrepository : (system.publishArtifact digest chunk encoded none).repository =
        system.repository.publish (chunkKey digest descriptor.sessionId system.writer.nextSequence) encoded := by
      rw [CaptureSystem.publishArtifact, publishCaptureBytes_eq, hcontinues.sessionId, hcontinues.sequence]
    refine ⟨h.contiguous, h.sequence, h.sample, h.sample_lt, h.first, h.count, h.generation, h.terminal, ?_,
      (fun other bytes heq => by cases heq), ?_, h.cursors⟩
    · intro i other hget
      obtain ⟨bytes, hbytes, hold⟩ := h.stored i other hget
      obtain ⟨hi, -⟩ := List.getElem?_eq_some_iff.mp hget
      have hlt : i < system.committed.length := hi
      refine ⟨bytes, hbytes, ?_⟩
      rw [hrepository, h.sequence, Repository.publish_other (chunkKey_ne (by omega) hbound (by omega))]
      exact hold
    · intro other heq
      cases heq
      refine ⟨hcontinues, ⟨encoded, hencode, ?_⟩, hterminal⟩
      rw [hrepository]
      exact Repository.publish_same _ _ _

end

theorem committed_accept (system : CaptureSystem) (chunk : CaptureChunk) :
    List.filterMap accepted (system.attempts ++ [(chunk, Except.ok ())]) = system.committed ++ [chunk] := by
  rw [List.filterMap_append]
  rfl

theorem committed_refuse (system : CaptureSystem) (chunk : CaptureChunk) (error : CaptureStoreError) :
    List.filterMap accepted (system.attempts ++ [(chunk, Except.error error)]) = system.committed := by
  rw [List.filterMap_append]
  exact List.append_nil _

theorem advance_eq_ok {manifest advanced : PersistedManifest} (h : manifest.advance chunk = .ok advanced) :
    advanced.firstSequence = manifest.firstSequence ∧ advanced.committedChunks = manifest.committedChunks + 1 ∧
      advanced.generation = manifest.generation + 1 := by
  unfold PersistedManifest.advance at h
  split at h
  · cases h
  · split at h
    · cases h
    · split at h
      · cases h
      · cases Except.ok.inj h
        exact ⟨rfl, rfl, rfl⟩

section

variable (h : Sound digest descriptor system)
include h

theorem Sound.commitChunk (hphase : system.phase = .committing chunk) :
    Sound digest descriptor (system.commitChunk digest descriptor chunk refusal) := by
  unfold CaptureSystem.commitChunk
  split
  · exact h.fail_phase
  · exact h.fail_phase
  next manifest hadvance =>
    obtain ⟨hcontinues, ⟨encoded, hencode, hstored⟩, hterminal⟩ := h.committing chunk hphase
    obtain ⟨hfirst, hcount, hgeneration⟩ := advance_eq_ok hadvance
    have hcommitted := committed_accept system chunk
    have hopen : system.state.writerOpen = true := by
      rw [h.terminal, hterminal]
      rfl
    have hend : chunk.endSample = (timeline system.committed).length + chunk.sampleCount := by
      rw [CaptureChunk.endSample, hcontinues.startSample, h.sample]
    rw [h.sequence] at hcontinues hstored
    rw [h.sample] at hcontinues
    refine ⟨?_, ?_, ?_, chunk.endSample_lt, hfirst.trans h.first, ?_, ?_, h.terminal, ?_,
      (fun other encoded heq => by cases heq), (fun other heq => by cases heq), ?_⟩
    · show ContiguousFrom descriptor 0 0 (List.filterMap accepted _)
      rw [hcommitted]
      apply contiguousFrom_append_singleton.mpr
      refine ⟨h.contiguous, ?_⟩
      rwa [Nat.zero_add, Nat.zero_add]
    · show system.writer.nextSequence + 1 = (List.filterMap accepted _).length
      rw [hcommitted, List.length_append, h.sequence]
      rfl
    · show chunk.endSample = (timeline (List.filterMap accepted _)).length
      rw [hcommitted, hend]
      simp
    · show manifest.committedChunks = (List.filterMap accepted _).length
      rw [hcommitted, List.length_append, hcount, h.count]
      rfl
    · show manifest.generation = (List.filterMap accepted _).length
      rw [hcommitted, List.length_append, hgeneration, h.generation]
      rfl
    · intro i other hget
      have hget' : (system.committed ++ [chunk])[i]? = some other := hcommitted ▸ hget
      have hkeep : ∀ {bytes}, system.repository (chunkKey digest descriptor.sessionId i) = some bytes →
          publishCaptureBytes system.repository (manifestKey digest descriptor.sessionId) manifest.toJson
            (chunkKey digest descriptor.sessionId i) = some bytes := by
        intro bytes hbytes
        rw [publishCaptureBytes_eq, Repository.publish_other (chunkKey_ne_manifestKey _ _ _)]
        exact hbytes
      rw [List.getElem?_append] at hget'
      split at hget'
      · obtain ⟨bytes, hbytes, hold⟩ := h.stored i other hget'
        exact ⟨bytes, hbytes, hkeep hold⟩
      next hge =>
        have hi : i = system.committed.length := by
          have hlt := (List.getElem?_eq_some_iff.mp hget').1
          rw [List.length_singleton] at hlt
          omega
        subst hi
        rw [Nat.sub_self] at hget'
        cases hget'
        exact ⟨encoded, hencode, hkeep hstored⟩
    · intro cursor hcursor
      have hold := h.cursors cursor hcursor
      rw [hopen] at hold
      show cursor.Replays (List.filterMap accepted _) system.state.writerOpen
      rw [hcommitted, hopen]
      exact hold.grow

theorem Sound.fail {error : CaptureStoreError} : Sound digest descriptor (system.fail chunk error) := by
  have hcommitted : (system.fail chunk error).committed = system.committed := committed_refuse system chunk error
  refine ⟨?_, ?_, ?_, h.sample_lt, h.first, ?_, ?_, h.terminal, ?_, (fun other encoded heq => by cases heq),
    (fun other heq => by cases heq), ?_⟩
  · rw [hcommitted]
    exact h.contiguous
  · rw [hcommitted]
    exact h.sequence
  · rw [hcommitted]
    exact h.sample
  · rw [hcommitted]
    exact h.count
  · rw [hcommitted]
    exact h.generation
  · rw [hcommitted]
    exact h.stored
  · rw [hcommitted]
    exact h.cursors

theorem Sound.finishWriter (hphase : system.phase = .idle) :
    Sound digest descriptor system.finishWriter := by
  unfold CaptureSystem.finishWriter
  split
  · exact h
  · refine ⟨h.contiguous, h.sequence, h.sample, h.sample_lt, h.first, h.count, h.generation, rfl, h.stored, ?_, ?_,
      fun cursor hcursor => (h.cursors cursor hcursor).close⟩
    · intro chunk encoded heq
      cases hphase.symm.trans heq
    · intro chunk heq
      cases hphase.symm.trans heq

theorem Sound.with_cursors {cursors : List CaptureCursor}
    (hcursors : ∀ cursor ∈ cursors, cursor.Replays system.committed system.state.writerOpen) :
    Sound digest descriptor { system with cursors := cursors } :=
  ⟨h.contiguous, h.sequence, h.sample, h.sample_lt, h.first, h.count, h.generation, h.terminal, h.stored,
    h.publishing, h.committing, hcursors⟩

theorem Sound.readChunk {i : Nat} (hget : system.committed[i]? = some chunk) :
    readChunk digest system.repository descriptor i none = .ok chunk := by
  obtain ⟨encoded, hencode, hstored⟩ := h.stored i chunk hget
  obtain ⟨hi, -⟩ := List.getElem?_eq_some_iff.mp hget
  have hcontinues := h.contiguous.getElem hget
  have hlt := h.length_lt
  rw [Nat.zero_add] at hcontinues
  exact readChunk_stored hcontinues hencode hstored (by omega)

end

variable {action : StoreAction}

/-- What a step does, the guards of its action included. -/
inductive Moves (digest : Digest) (descriptor : CaptureStoreDescriptor) (system : CaptureSystem) : CaptureSystem → Prop
  | append (chunk : CaptureChunk) : Moves digest descriptor system (system.beginAppend descriptor chunk)
  | publish {chunk : CaptureChunk} {encoded : Bytes} (publishing : system.phase = .publishing chunk encoded)
      (refusal : Option RepositoryError) :
      Moves digest descriptor system (system.publishArtifact digest chunk encoded refusal)
  | commit {chunk : CaptureChunk} (committing : system.phase = .committing chunk) (refusal : Option RepositoryError) :
      Moves digest descriptor system (system.commitChunk digest descriptor chunk refusal)
  | fail (chunk : CaptureChunk) (error : CaptureStoreError) : Moves digest descriptor system (system.fail chunk error)
  | finish (idle : system.phase = .idle) : Moves digest descriptor system system.finishWriter
  | openCursor :
      Moves digest descriptor system { system with cursors := system.cursors ++ [CaptureCursor.opened system.state] }
  | cursor {index : Nat} {action : StoreAction} {cursor stepped : CaptureCursor}
      (held : system.cursors[index]? = some cursor)
      (taken : cursorStep digest descriptor system cursor action = some stepped) :
      Moves digest descriptor system (system.setCursor index stepped)

theorem moves_of_step (hstep : system.step digest descriptor action = some next) :
    Moves digest descriptor system next := by
  have hcursor : ∀ {index action}, system.onCursor digest descriptor index action = some next →
      Moves digest descriptor system next := by
    intro index action hcursor
    obtain ⟨cursor, held, hmap⟩ := Option.bind_eq_some_iff.mp hcursor
    obtain ⟨stepped, taken, rfl⟩ := Option.map_eq_some_iff.mp hmap
    exact .cursor held taken
  unfold CaptureSystem.step at hstep
  split at hstep
  case h_6 =>
    cases hstep
    exact .openCursor
  case h_7 | h_8 | h_9 | h_10 => exact hcursor hstep
  all_goals
    split at hstep <;> cases hstep
    first | exact .append _ | exact .publish ‹_› _ | exact .commit ‹_› _ | exact .fail _ _ | exact .finish ‹_›

section

variable (h : Sound digest descriptor system)
include h

theorem Sound.cursorStep {cursor stepped : CaptureCursor}
    (hcursor : cursor.Replays system.committed system.state.writerOpen)
    (hstep : cursorStep digest descriptor system cursor action = some stepped) :
    stepped.Replays system.committed system.state.writerOpen := by
  have hlook := hcursor.look h.first h.count
  cases action with
  | next index =>
    obtain ⟨-, heq⟩ := Option.ite_none_right_eq_some.mp hstep
    cases heq
    exact hlook
  | waitNext index =>
    obtain ⟨-, heq⟩ := Option.ite_none_right_eq_some.mp hstep
    split at heq
    · cases heq
      exact hcursor.move nofun
    · cases heq
      exact hlook
  | wake index =>
    obtain ⟨-, heq⟩ := Option.ite_none_right_eq_some.mp hstep
    cases heq
    exact hlook
  | read index refusal =>
    simp only [CaptureSystem.cursorStep] at hstep
    split at hstep
    next sequence hphase =>
      cases hstep
      obtain ⟨rfl, hlt⟩ := hcursor.reading sequence hphase
      cases refusal with
      | some error => exact hcursor.reply rfl nofun
      | none =>
        have hget := List.getElem?_eq_getElem hlt
        rw [h.readChunk hget]
        exact hcursor.take_ok hget
    next => cases hstep
  | append chunk => cases hstep
  | publishChunk refusal => cases hstep
  | commit refusal => cases hstep
  | recordFailure => cases hstep
  | finish => cases hstep
  | openCursor => cases hstep

theorem Sound.step (hstep : system.step digest descriptor action = some next) :
    Sound digest descriptor next := by
  cases moves_of_step hstep with
  | append chunk => exact h.beginAppend
  | publish publishing refusal => exact h.publishArtifact publishing
  | commit committing refusal => exact h.commitChunk committing
  | fail chunk error => exact h.fail
  | finish idle => exact h.finishWriter idle
  | openCursor =>
    apply h.with_cursors
    intro cursor hcursor
    rcases List.mem_append.mp hcursor with hold | hnew
    · exact h.cursors cursor hold
    · rw [List.mem_singleton.mp hnew]
      exact CaptureCursor.Replays.opened h.first
  | cursor held taken =>
    apply h.with_cursors
    intro other hother
    rcases List.mem_or_eq_of_mem_set hother with hold | rfl
    · exact h.cursors other hold
    · exact h.cursorStep (h.cursors _ (List.mem_of_getElem? held)) taken

theorem Sound.run {actions : List StoreAction}
    (hrun : system.run digest descriptor actions = some next) : Sound digest descriptor next := by
  induction actions generalizing system with
  | nil =>
    cases hrun
    exact h
  | cons action actions ih =>
    obtain ⟨middle, hstep, hrest⟩ := Option.bind_eq_some_iff.mp hrun
    exact ih (h.step hstep) hrest

end

theorem attempts_prefix_step (hstep : system.step digest descriptor action = some next) :
    system.attempts <+: next.attempts := by
  cases moves_of_step hstep with
  | append chunk =>
    unfold CaptureSystem.beginAppend
    split <;> exact List.prefix_refl _
  | publish publishing refusal => cases refusal <;> exact List.prefix_refl _
  | commit committing refusal =>
    unfold CaptureSystem.commitChunk
    split
    · exact List.prefix_refl _
    · exact List.prefix_refl _
    · exact List.prefix_append _ _
  | fail chunk error => exact List.prefix_append _ _
  | finish idle =>
    unfold CaptureSystem.finishWriter
    split <;> exact List.prefix_refl _
  | openCursor | cursor held taken => exact List.prefix_refl _

theorem attempts_prefix_run {actions : List StoreAction} (hrun : system.run digest descriptor actions = some next) :
    system.attempts <+: next.attempts := by
  induction actions generalizing system with
  | nil =>
    cases hrun
    exact List.prefix_refl _
  | cons action actions ih =>
    obtain ⟨middle, hstep, hrest⟩ := Option.bind_eq_some_iff.mp hrun
    exact (attempts_prefix_step hstep).trans (ih hrest)

theorem committed_of_failed (hpre : system.attempts <+: next.attempts)
    (hfailed : ∀ attempt ∈ next.attempts.drop system.attempts.length, accepted attempt = none) :
    next.committed = system.committed := by
  obtain ⟨rest, hrest⟩ := hpre
  rw [← hrest, List.drop_left] at hfailed
  rw [committed, committed, ← hrest, List.filterMap_append, List.filterMap_eq_nil_iff.mpr hfailed, List.append_nil]

section

variable (h : Sound digest descriptor system)
include h

theorem Sound.next_chunk {index : Nat} {cursor : CaptureCursor}
    (hget : system.cursors[index]? = some cursor) (hidle : cursor.phase = .idle)
    (hlt : cursor.nextSequence < system.committed.length) :
    system.run digest descriptor [.next index, .read index none] =
      some (system.setCursor index ({ cursor with phase := .reading cursor.nextSequence }.take
        (.ok system.committed[cursor.nextSequence]))) := by
  have hindex := (List.getElem?_eq_some_iff.mp hget).1
  have hread := h.readChunk (List.getElem?_eq_getElem hlt)
  have hlook : cursor.look system.state = { cursor with phase := .reading cursor.nextSequence } := by
    simp only [CaptureCursor.look, h.first, Nat.max_zero]
    rw [if_pos (by rw [h.count]; exact hlt)]
  have hfirst : system.step digest descriptor (.next index) =
      some (system.setCursor index { cursor with phase := .reading cursor.nextSequence }) := by
    simp only [CaptureSystem.step, CaptureSystem.onCursor, hget, Option.bind_some, CaptureSystem.cursorStep]
    rw [if_pos hidle, hlook]
    rfl
  have hsecond : (system.setCursor index { cursor with phase := .reading cursor.nextSequence }).step digest descriptor
      (.read index none) = some (system.setCursor index ({ cursor with phase := .reading cursor.nextSequence }.take
        (.ok system.committed[cursor.nextSequence]))) := by
    simp only [CaptureSystem.step, CaptureSystem.onCursor, CaptureSystem.setCursor,
      List.getElem?_set_self hindex, Option.bind_some, CaptureSystem.cursorStep, hread, Option.map_some,
      List.set_set]
  simp only [CaptureSystem.run, hfirst, Option.bind_some, hsecond]

theorem Sound.next_end {index : Nat} {cursor : CaptureCursor}
    (hget : system.cursors[index]? = some cursor) (hidle : cursor.phase = .idle)
    (hall : cursor.nextSequence = system.committed.length) (hterminal : system.writer.terminal = true) :
    system.step digest descriptor (.next index) = some (system.setCursor index (cursor.reply (.ok .finished))) := by
  have hclosed : system.state.writerOpen = false := by
    rw [h.terminal, hterminal]
    rfl
  have hlook : cursor.look system.state = cursor.reply (.ok .finished) := by
    simp only [CaptureCursor.look, h.first, Nat.max_zero, hclosed]
    rw [if_neg (by rw [h.count]; omega), if_neg Bool.false_ne_true]
  simp only [CaptureSystem.step, CaptureSystem.onCursor, hget, Option.bind_some, CaptureSystem.cursorStep]
  rw [if_pos hidle, hlook]
  rfl

/-- A chunk that continues the session is committed as soon as the repository takes its artifacts,
whatever has failed before. -/
theorem Sound.append_again (hidle : system.phase = .idle) (hterminal : system.writer.terminal = false)
    (hcontinues : ContinuesSession descriptor system.writer.nextSequence system.writer.nextSample chunk)
    (hencode : encodeChunk chunk = .ok encoded)
    (hbytes : system.state.manifest.committedDataBytes + chunk.encodedByteLen < 2 ^ 64) :
    ∃ appended, system.run digest descriptor [.append chunk, .publishChunk none, .commit none] = some appended ∧
      appended.committed = system.committed ++ [chunk] ∧ appended.phase = .idle := by
  have hadmit := admit_eq_ok.mpr ⟨hterminal, hcontinues, hencode⟩
  have hcount : system.committed.length + 1 < 2 ^ 64 := by
    have hle := length_le_timeline system.committed
    have hlt := chunk.endSample_lt
    have hpos := chunk.samples_pos
    rw [hcontinues.startSample, h.sample] at hlt
    omega
  have hadvance : ∃ manifest, system.state.manifest.advance chunk = .ok manifest := by
    unfold PersistedManifest.advance
    rw [if_neg (by rw [h.count]; omega), if_neg (by omega), if_neg (by rw [h.generation]; omega)]
    exact ⟨_, rfl⟩
  obtain ⟨manifest, hmanifest⟩ := hadvance
  have hbegin : system.step digest descriptor (.append chunk) =
      some { system with phase := .publishing chunk encoded } := by
    simp only [CaptureSystem.step, hidle, CaptureSystem.beginAppend, hadmit]
  have hrun : ∃ appended, system.run digest descriptor [.append chunk, .publishChunk none, .commit none] =
      some appended ∧ appended.attempts = system.attempts ++ [(chunk, .ok ())] ∧ appended.phase = .idle := by
    rw [CaptureSystem.run, hbegin, Option.bind_some]
    simp only [CaptureSystem.run, CaptureSystem.step, CaptureSystem.publishArtifact, CaptureSystem.commitChunk,
      hmanifest, Option.bind_some]
    exact ⟨_, rfl, rfl, rfl⟩
  obtain ⟨appended, hrun, hattempts, hphase⟩ := hrun
  refine ⟨appended, hrun, ?_, hphase⟩
  rw [committed, hattempts]
  exact committed_accept system chunk

end

end CaptureSystem

open CaptureSystem in
/-- In every run of a store, its writer and its cursors: the successful appends form one contiguous
capture, a chunk that continues a session is read back from its encoding, every cursor has returned a beginning
of it, bit by bit, and returns the rest when asked; the end is reported when the writer has terminated and all of
it has been returned; appends that fail change neither the committed chunks nor the chunk that is expected next,
and the expected chunk can be appended. -/
theorem capture_store_replays {digest : Digest} {descriptor : CaptureStoreDescriptor} {repository : Repository}
    {created before after : CaptureSystem} {actions further : List StoreAction}
    (hcreate : create digest descriptor repository = .ok created)
    (hbefore : created.run digest descriptor actions = some before)
    (hafter : before.run digest descriptor further = some after) :
    ContiguousFrom descriptor 0 0 after.committed ∧
    (∀ sequence sample chunk encoded, sequence < 2 ^ 64 → ContinuesSession descriptor sequence sample chunk →
      encodeChunk chunk = .ok encoded → decodeChunk descriptor sequence encoded = .ok chunk) ∧
    (∀ chunk ∈ after.committed, ∀ encoded, encodeChunk chunk = .ok encoded →
      decodeChunk descriptor chunk.sequence encoded = .ok chunk) ∧
    (∀ cursor ∈ after.cursors, cursor.chunks = after.committed.take cursor.nextSequence ∧
      (.ok .finished ∈ cursor.returns → after.writer.terminal = true ∧ cursor.chunks = after.committed)) ∧
    (∀ index cursor, after.cursors[index]? = some cursor → cursor.phase = .idle →
      (∀ chunk, after.committed[cursor.nextSequence]? = some chunk → ∃ moved final,
        after.run digest descriptor [.next index, .read index none] = some final ∧
        final.cursors[index]? = some moved ∧ moved.returns = cursor.returns ++ [.ok (.chunk chunk)]) ∧
      (cursor.nextSequence = after.committed.length → after.writer.terminal = true → ∃ moved final,
        after.run digest descriptor [.next index] = some final ∧
        final.cursors[index]? = some moved ∧ moved.returns = cursor.returns ++ [.ok .finished])) ∧
    ((∀ attempt ∈ after.attempts.drop before.attempts.length, accepted attempt = none) →
      after.committed = before.committed ∧ after.writer.nextSequence = before.writer.nextSequence ∧
        after.writer.nextSample = before.writer.nextSample ∧
        after.state.manifest.committedChunks = before.state.manifest.committedChunks) ∧
    (∀ chunk encoded, after.phase = .idle → after.writer.terminal = false →
      ContinuesSession descriptor after.writer.nextSequence after.writer.nextSample chunk → encodeChunk chunk = .ok encoded →
      after.state.manifest.committedDataBytes + chunk.encodedByteLen < 2 ^ 64 → ∃ appended,
        after.run digest descriptor [.append chunk, .publishChunk none, .commit none] = some appended ∧
        appended.committed = after.committed ++ [chunk]) := by
  have hold := (Sound.create hcreate).run hbefore
  have hsound := hold.run hafter
  have hdecode : ∀ sequence sample chunk encoded, sequence < 2 ^ 64 → ContinuesSession descriptor sequence sample chunk →
      encodeChunk chunk = .ok encoded → decodeChunk descriptor sequence encoded = .ok chunk := by
    intro sequence sample chunk encoded hlt hcontinues hencode
    rw [← hcontinues.sequence] at hlt ⊢
    exact decodeChunk_encoded hencode hcontinues.sessionId hcontinues.channels hlt
  refine ⟨hsound.contiguous, hdecode, ?_, ?_, ?_, ?_, ?_⟩
  · intro chunk hchunk encoded hencode
    obtain ⟨i, hget⟩ := List.mem_iff_getElem?.mp hchunk
    have hcontinues := hsound.contiguous.getElem hget
    have hi := (List.getElem?_eq_some_iff.mp hget).1
    have hlt := hsound.length_lt
    rw [hcontinues.sequence]
    exact hdecode _ _ _ _ (by omega) hcontinues hencode
  · intro cursor hcursor
    have hreplays := hsound.cursors cursor hcursor
    refine ⟨hreplays.chunks, ?_⟩
    intro hfinished
    obtain ⟨hclosed, hall⟩ := hreplays.finished hfinished
    constructor
    · have hterminal := hsound.terminal
      rw [hclosed] at hterminal
      simpa using hterminal.symm
    · rw [hreplays.chunks, hall, List.take_length]
  · intro index cursor hget hidle
    have hindex := (List.getElem?_eq_some_iff.mp hget).1
    constructor
    · intro chunk hchunk
      obtain ⟨hlt, rfl⟩ := List.getElem?_eq_some_iff.mp hchunk
      exact ⟨_, _, hsound.next_chunk hget hidle hlt, List.getElem?_set_self hindex, rfl⟩
    · intro hall hterminal
      have hrun : after.run digest descriptor [.next index] =
          some (after.setCursor index (cursor.reply (.ok .finished))) := by
        rw [CaptureSystem.run, hsound.next_end hget hidle hall hterminal]
        rfl
      exact ⟨_, _, hrun, List.getElem?_set_self hindex, rfl⟩
  · intro hfailed
    have hcommitted := committed_of_failed (attempts_prefix_run hafter) hfailed
    refine ⟨hcommitted, ?_, ?_, ?_⟩
    · rw [hsound.sequence, hold.sequence, hcommitted]
    · rw [hsound.sample, hold.sample, hcommitted]
    · rw [hsound.count, hold.count, hcommitted]
  · intro chunk encoded hidle hterminal hcontinues hencode hbytes
    obtain ⟨appended, hrun, hcommitted, -⟩ := hsound.append_again hidle hterminal hcontinues hencode hbytes
    exact ⟨appended, hrun, hcommitted⟩

/-- The last 32 bytes, backwards; the index of a chunk is among them. -/
def tailHash (bytes : Bytes) : Bytes := (bytes.reverse ++ List.replicate 32 0).take 32

theorem tailHash_apart (sessionId : CaptureSessionId) : Set.InjOn tailHash
    ((fun sequence => captureName captureChunkNamespace sessionId (some sequence)) '' Set.Iio (2 ^ 64)) := by
  rintro _ ⟨i, -, rfl⟩ _ ⟨j, -, rfl⟩ h
  have htail (k : Nat) : (tailHash (captureName captureChunkNamespace sessionId (some k))).take 8 = (leBytes 8 k).reverse := by
    have hlength : (leBytes 8 k).reverse.length = 8 := by rw [List.length_reverse, leBytes_length]
    rw [tailHash, captureName, List.take_take, min_eq_left (by decide), List.reverse_append, List.reverse_append,
      Option.map_some, Option.getD_some, List.append_assoc, List.append_assoc, List.take_append_of_le_length hlength.ge,
      List.take_of_length_le hlength.le]
  have hwords := congrArg (List.take 8) h
  rw [htail, htail] at hwords
  exact congrArg (fun words => utf8Bytes captureChunkNamespace ++ (leBytes 16 sessionId.toNat ++ words))
    (List.reverse_injective hwords)

def tailDigest : Digest where
  hash := tailHash
  length bytes := by rw [tailHash, List.length_take, List.length_append, List.length_replicate]; omega
  apart := tailHash_apart

/-- The first chunk is appended once in vain and once with success. -/
def retriedAppend : List StoreAction :=
  [.openCursor, .append (quadChunk 0 (Nat.two_pow_pos 32)), .publishChunk none, .commit (some .unavailable), .recordFailure,
    .next 0, .append (quadChunk 0 (Nat.two_pow_pos 32)), .publishChunk none, .commit none, .finish]

def retriedStore : Option CaptureSystem :=
  (CaptureSystem.create tailDigest quadDescriptor Repository.empty).toOption.bind fun created =>
    created.run tailDigest quadDescriptor retriedAppend

def firstCursor (system : CaptureSystem) : Option (ReaderPhase × Nat × List CursorResult) :=
  system.cursors[0]?.map fun cursor => (cursor.phase, cursor.nextSequence, cursor.returns)

theorem capture_store_replays_retry : ∃ retried moved final, retriedStore = some retried ∧
    retried.run tailDigest quadDescriptor [.next 0, .read 0 none] = some final ∧
    final.cursors[0]? = some moved ∧
    moved.returns = [.ok .pending, .ok (.chunk (quadChunk 0 (Nat.two_pow_pos 32)))] := by
  have hsome : retriedStore.isSome = true := by decide +kernel
  have hfirst : retriedStore.bind firstCursor = some (.idle, 0, [.ok .pending]) := by decide +kernel
  have hcommitted : retriedStore.map CaptureSystem.committed = some [quadChunk 0 (Nat.two_pow_pos 32)] := by decide +kernel
  obtain ⟨retried, hretried⟩ := Option.isSome_iff_exists.mp hsome
  obtain ⟨created, hcreated, happend⟩ := Option.bind_eq_some_iff.mp hretried
  rw [hretried] at hfirst hcommitted
  obtain ⟨cursor, hget, hcursor⟩ := Option.map_eq_some_iff.mp hfirst
  obtain ⟨hphase, hsequence, hreturns⟩ : cursor.phase = .idle ∧ cursor.nextSequence = 0 ∧
      cursor.returns = [.ok .pending] := by simpa using hcursor
  have hcreate : CaptureSystem.create tailDigest quadDescriptor Repository.empty = .ok created := by
    cases hresult : CaptureSystem.create tailDigest quadDescriptor Repository.empty with
    | error error =>
      rw [hresult] at hcreated
      cases hcreated
    | ok system =>
      rw [hresult] at hcreated
      exact congrArg Except.ok (Option.some.inj hcreated)
  have hstay : retried.run tailDigest quadDescriptor [] = some retried := rfl
  obtain ⟨-, -, -, -, hnext, -⟩ := capture_store_replays hcreate happend hstay
  have hchunk : retried.committed[cursor.nextSequence]? = some (quadChunk 0 (Nat.two_pow_pos 32)) := by
    rw [Option.some.inj hcommitted, hsequence]
    rfl
  obtain ⟨moved, final, hrun, hmoved, hanswers⟩ := (hnext 0 cursor hget hphase).1 _ hchunk
  refine ⟨retried, moved, final, hretried, hrun, hmoved, ?_⟩
  rw [hanswers, hreturns]
  rfl

end LogicConduit
