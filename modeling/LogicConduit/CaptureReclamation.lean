import LogicConduit.SessionRecovery

namespace LogicConduit

structure ReclaimCall where
  -- the first sample that stays
  safeSample : Nat
  readRefused : Nat → Option RepositoryError
  removeRefused : Nat → Option RepositoryError
  manifestRefused : Option RepositoryError
  metadataRefused : Option RepositoryError

/-- A reclamation that nothing gets in the way of. -/
def ReclaimCall.free (safeSample : Nat) : ReclaimCall := ⟨safeSample, fun _ => none, fun _ => none, none, none⟩

theorem readChunk_congr {digest : Digest} {repository other : Repository} {descriptor : CaptureStoreDescriptor}
    {i : Nat} (h : other (chunkKey digest descriptor.sessionId i) = repository (chunkKey digest descriptor.sessionId i))
    (refusal : Option RepositoryError) :
    readChunk digest other descriptor i refusal = readChunk digest repository descriptor i refusal := by
  simp only [readChunk, h]

namespace FinalizedCapture

variable {floats : FloatOps} {digest : Digest} (capture : FinalizedCapture floats digest)

def reclaim (call : ReclaimCall) : FinalizedCapture floats digest × Except CaptureStoreError Unit :=
  capture.reclaimBefore call.safeSample call.readRefused call.removeRefused call.manifestRefused call.metadataRefused

def reclaimRun (calls : List ReclaimCall) : FinalizedCapture floats digest :=
  calls.foldl (fun capture call => (capture.reclaim call).1) capture

/-- The first chunk stays: it ends behind the boundary, or the repository refuses to give it or to remove it. -/
def StopsFirst (call : ReclaimCall) : Prop :=
  ∀ chunk, capture.chunks[capture.state.manifest.firstSequence]? = some chunk → chunk.endSample ≤ call.safeSample →
    call.readRefused capture.state.manifest.firstSequence ≠ none ∨
      call.removeRefused capture.state.manifest.firstSequence ≠ none

def Completes (call : ReclaimCall) : Prop :=
  call.manifestRefused = none ∧ ∀ i chunk, capture.state.manifest.firstSequence ≤ i → capture.chunks[i]? = some chunk →
    chunk.startSample ≤ call.safeSample →
      call.readRefused i = none ∧ (chunk.endSample ≤ call.safeSample → call.removeRefused i = none)

/-- Every reclamation of the run removes nothing or is carried through. -/
def Uninterrupted (capture : FinalizedCapture floats digest) : List ReclaimCall → Prop
  | [] => True
  | call :: calls => (capture.StopsFirst call ∨ capture.Completes call) ∧ (capture.reclaim call).1.Uninterrupted calls

structure Consistent : Prop where
  intact : capture.Intact
  reclaims : ∀ safeSample, ∃ after, capture.reclaim (.free safeSample) = (after, .ok ())
  reads : ∀ cursor, ∃ item moved, capture.next (fun _ => none) cursor = (.ok item, moved)

variable {safeSample remaining sequence : Nat} {readRefused removeRefused : Nat → Option RepositoryError}
  {repository : Repository}

theorem reclaimLoop_unreadable {error : CaptureStoreError}
    (hread : readChunk digest repository capture.descriptor sequence (readRefused sequence) = .error error) :
    capture.reclaimLoop safeSample readRefused removeRefused (remaining + 1) sequence repository =
      (repository, .error error) := by
  rw [reclaimLoop, hread]

theorem reclaimLoop_cases : ∃ k ≤ remaining,
    (∀ key, (∀ j < k, key ≠ chunkKey digest capture.descriptor.sessionId (sequence + j)) →
      (capture.reclaimLoop safeSample readRefused removeRefused remaining sequence repository).1 key = repository key) ∧
    (∀ j < k, (capture.reclaimLoop safeSample readRefused removeRefused remaining sequence repository).1
      (chunkKey digest capture.descriptor.sessionId (sequence + j)) = none) ∧
    ∀ stop, (capture.reclaimLoop safeSample readRefused removeRefused remaining sequence repository).2 = .ok stop →
      stop = sequence + k := by
  induction remaining generalizing sequence repository with
  | zero =>
    refine ⟨0, Nat.le_refl _, fun _ _ => rfl, fun _ h => absurd h (Nat.not_lt_zero _), ?_⟩
    intro stop hstop
    cases hstop
    rfl
  | succ remaining ih =>
    unfold reclaimLoop
    split
    · exact ⟨0, Nat.zero_le _, fun _ _ => rfl, fun _ h => absurd h (Nat.not_lt_zero _), fun _ h => by cases h⟩
    · split
      · exact ⟨0, Nat.zero_le _, fun _ _ => rfl, fun _ h => absurd h (Nat.not_lt_zero _), fun stop hstop => (Except.ok.inj hstop).symm⟩
      · split
        · exact ⟨0, Nat.zero_le _, fun _ _ => rfl, fun _ h => absurd h (Nat.not_lt_zero _), fun _ h => by cases h⟩
        · obtain ⟨k, hk, hother, hgone, hstop⟩ := @ih (sequence + 1)
            (repository.remove (· = chunkKey digest capture.descriptor.sessionId sequence))
          refine ⟨k + 1, Nat.succ_le_succ hk, ?_, ?_, ?_⟩
          · intro key hkey
            rw [hother key fun j hj => ?_]
            · exact if_neg (by simpa using hkey 0 (Nat.succ_pos k))
            · rw [Nat.add_assoc, Nat.add_comm 1 j]
              exact hkey (j + 1) (Nat.succ_lt_succ hj)
          · intro j hj
            cases j with
            | zero =>
              apply Option.eq_none_iff_forall_ne_some.mpr
              intro bytes hbytes
              have hkept := capture.reclaimLoop_keeps hbytes
              simp [Repository.remove] at hkept
            | succ j =>
              rw [← Nat.add_assoc, Nat.add_right_comm]
              exact hgone j (Nat.lt_of_succ_lt_succ hj)
          · intro stop hok
            rw [hstop stop hok]
            omega

/-- The artifacts of the chunks from `sequence` on are the ones of the session. -/
def Holds (capture : FinalizedCapture floats digest) (sequence : Nat) (repository : Repository) : Prop :=
  ∀ i chunk, sequence ≤ i → capture.chunks[i]? = some chunk →
    readChunk digest repository capture.descriptor i none = .ok chunk

variable {capture}

theorem Holds.remove (h : capture.Holds sequence repository) :
    capture.Holds (sequence + 1) (repository.remove (· = chunkKey digest capture.descriptor.sessionId sequence)) := by
  intro i chunk hle hget
  have hi := (List.getElem?_eq_some_iff.mp hget).1
  have hlt := capture.length_lt
  have hkey : chunkKey digest capture.descriptor.sessionId i ≠ chunkKey digest capture.descriptor.sessionId sequence :=
    chunkKey_ne (by omega) (by omega) (by omega)
  rw [readChunk_congr (if_neg (by simpa using hkey)), h i chunk (by omega) hget]

theorem Holds.read (h : capture.Holds sequence repository) (hlt : sequence < capture.chunks.length)
    (refusal : Option RepositoryError) :
    ∃ chunk, capture.chunks[sequence]? = some chunk ∧
      readChunk digest repository capture.descriptor sequence refusal =
        match refusal with
        | some error => .error (.repository error)
        | none => .ok chunk := by
  refine ⟨_, List.getElem?_eq_getElem hlt, ?_⟩
  cases refusal with
  | some error => rfl
  | none => exact h sequence _ (Nat.le_refl _) (List.getElem?_eq_getElem hlt)

theorem endSample_eq {i : Nat} {chunk : CaptureChunk} (hget : capture.chunks[i]? = some chunk) :
    chunk.endSample = (timeline (capture.chunks.take (i + 1))).length := by
  have hstart := (capture.contiguous.getElem hget).startSample
  rw [List.take_add_one, hget, timeline_append, List.length_append]
  simp only [Option.toList_some, timeline_cons, timeline_nil, List.append_nil, CaptureChunk.samples_length]
  rw [CaptureChunk.endSample, hstart, Nat.zero_add]

theorem timeline_take_le {i j : Nat} (hij : i ≤ j) :
    (timeline (capture.chunks.take i)).length ≤ (timeline (capture.chunks.take j)).length := by
  obtain ⟨rest, hrest⟩ : capture.chunks.take i <+: capture.chunks.take j := List.take_prefix_take_left hij
  rw [← hrest, timeline_append, List.length_append]
  exact Nat.le_add_right _ _

theorem endSample_le_startSample {i j : Nat} {chunk later : CaptureChunk} (hget : capture.chunks[i]? = some chunk)
    (hlater : capture.chunks[j]? = some later) (hij : i < j) : chunk.endSample ≤ later.startSample := by
  rw [endSample_eq hget, (capture.contiguous.getElem hlater).startSample, Nat.zero_add]
  exact timeline_take_le hij

section

variable (h : capture.Holds sequence repository)
include h

section

variable (hlength : capture.chunks.length = sequence + remaining)
include hlength

theorem refusals_of_reclaimLoop {stop : Nat}
    (hok : (capture.reclaimLoop safeSample readRefused removeRefused remaining sequence repository).2 = .ok stop) :
    ∀ i chunk, sequence ≤ i → capture.chunks[i]? = some chunk → chunk.startSample ≤ safeSample →
      readRefused i = none ∧ (chunk.endSample ≤ safeSample → removeRefused i = none) := by
  induction remaining generalizing sequence repository with
  | zero =>
    intro i chunk hle hget
    have hi := (List.getElem?_eq_some_iff.mp hget).1
    omega
  | succ remaining ih =>
    obtain ⟨first, hfirst, hread⟩ := h.read (by omega) (readRefused sequence)
    unfold reclaimLoop at hok
    rw [hread] at hok
    cases hrefused : readRefused sequence with
    | some error =>
      rw [hrefused] at hok
      cases hok
    | none =>
      rw [hrefused] at hok
      dsimp only at hok
      intro i chunk hle hget hstart
      rcases Nat.eq_or_lt_of_le hle with rfl | hlt
      · cases hfirst.symm.trans hget
        refine ⟨hrefused, fun hend => ?_⟩
        rw [if_neg (Nat.not_lt.mpr hend)] at hok
        cases hremove : removeRefused sequence with
        | none => rfl
        | some error =>
          rw [hremove] at hok
          cases hok
      · have hbefore := endSample_le_startSample hfirst hget hlt
        rw [if_neg (by omega)] at hok
        cases hremove : removeRefused sequence with
        | some error =>
          rw [hremove] at hok
          cases hok
        | none =>
          rw [hremove] at hok
          exact ih h.remove (by omega) hok i chunk hlt hget hstart

theorem reclaimLoop_stop {stop : Nat}
    (hok : (capture.reclaimLoop safeSample readRefused removeRefused remaining sequence repository).2 = .ok stop) :
    sequence ≤ stop ∧ ∀ i chunk, sequence ≤ i → capture.chunks[i]? = some chunk →
      (chunk.endSample ≤ safeSample ↔ i < stop) := by
  induction remaining generalizing sequence repository with
  | zero =>
    cases hok
    refine ⟨Nat.le_refl _, ?_⟩
    intro i chunk hle hget
    have hi := (List.getElem?_eq_some_iff.mp hget).1
    omega
  | succ remaining ih =>
    obtain ⟨first, hfirst, hread⟩ := h.read (by omega) (readRefused sequence)
    unfold reclaimLoop at hok
    rw [hread] at hok
    cases hrefused : readRefused sequence with
    | some error =>
      rw [hrefused] at hok
      cases hok
    | none =>
      rw [hrefused] at hok
      dsimp only at hok
      split at hok
      next hend =>
        cases hok
        refine ⟨Nat.le_refl _, ?_⟩
        intro i chunk hle hget
        rcases Nat.eq_or_lt_of_le hle with rfl | hlt
        · cases hfirst.symm.trans hget
          omega
        · have hbefore := endSample_le_startSample hfirst hget hlt
          have hgrow : chunk.startSample ≤ chunk.endSample := Nat.le_add_right _ _
          omega
      next hend =>
        cases hremove : removeRefused sequence with
        | some error =>
          rw [hremove] at hok
          cases hok
        | none =>
          rw [hremove] at hok
          obtain ⟨hle, hstop⟩ := ih h.remove (by omega) hok
          refine ⟨by omega, ?_⟩
          intro i chunk hi hget
          rcases Nat.eq_or_lt_of_le hi with rfl | hlt
          · cases hfirst.symm.trans hget
            omega
          · exact hstop i chunk hlt hget

theorem reclaimLoop_ok
    (hfree : ∀ i chunk, sequence ≤ i → capture.chunks[i]? = some chunk → chunk.startSample ≤ safeSample →
      readRefused i = none ∧ (chunk.endSample ≤ safeSample → removeRefused i = none))
    (hnext : ∀ chunk, capture.chunks[sequence]? = some chunk → readRefused sequence = none) :
    ∃ stop, (capture.reclaimLoop safeSample readRefused removeRefused remaining sequence repository).2 = .ok stop := by
  induction remaining generalizing sequence repository with
  | zero => exact ⟨sequence, rfl⟩
  | succ remaining ih =>
    obtain ⟨first, hfirst, hread⟩ := h.read (by omega) (readRefused sequence)
    unfold reclaimLoop
    rw [hread, hnext first hfirst]
    dsimp only
    split
    · exact ⟨sequence, rfl⟩
    next hend =>
      have hstart : first.startSample ≤ first.endSample := Nat.le_add_right _ _
      rw [(hfree sequence first (Nat.le_refl _) hfirst (by omega)).2 (by omega)]
      apply ih h.remove (by omega)
      · intro i chunk hle hget hstart
        exact hfree i chunk (by omega) hget hstart
      · intro chunk hget
        have hadjacent := (capture.contiguous.getElem hget).startSample
        rw [Nat.zero_add, ← endSample_eq hfirst] at hadjacent
        exact (hfree (sequence + 1) chunk (Nat.le_succ _) hget (by omega)).1

end

end

theorem Intact.holds (h : capture.Intact) :
    capture.Holds capture.state.manifest.firstSequence capture.repository :=
  h.readable

theorem Intact.of_same {after : FinalizedCapture floats digest} (h : capture.Intact)
    (hdescriptor : after.descriptor = capture.descriptor) (hchunks : after.chunks = capture.chunks)
    (hfirst : capture.state.manifest.firstSequence ≤ after.state.manifest.firstSequence)
    (hpublished : after.repository (manifestKey digest after.descriptor.sessionId) = some after.state.manifest.toJson)
    (hsame : ∀ i < capture.chunks.length, after.state.manifest.firstSequence ≤ i →
      after.repository (chunkKey digest capture.descriptor.sessionId i) =
        capture.repository (chunkKey digest capture.descriptor.sessionId i)) : after.Intact where
  published := hpublished
  readable := by
    intro i chunk hle hget
    rw [hchunks] at hget
    rw [hdescriptor, readChunk_congr (hsame i (List.getElem?_eq_some_iff.mp hget).1 hle)]
    exact h.readable i chunk (Nat.le_trans hfirst hle) hget

def loopOf (capture : FinalizedCapture floats digest) (call : ReclaimCall) : Repository × Except CaptureStoreError Nat :=
  capture.reclaimLoop call.safeSample call.readRefused call.removeRefused
    (capture.state.manifest.committedChunks - capture.state.manifest.firstSequence) capture.state.manifest.firstSequence
    capture.repository

theorem reclaim_cases (capture : FinalizedCapture floats digest) (call : ReclaimCall) :
    (capture.reclaim call).1.descriptor = capture.descriptor ∧ (capture.reclaim call).1.chunks = capture.chunks ∧
    (capture.sessionMetadata ≠ none → (capture.reclaim call).1.sessionMetadata ≠ none) ∧
    (((capture.reclaim call).1.state = capture.state ∧ (capture.reclaim call).1.repository = (capture.loopOf call).1 ∧
        ∀ stop, (capture.loopOf call).2 = .ok stop →
          stop = capture.state.manifest.firstSequence ∨ call.manifestRefused ≠ none) ∨
      ∃ stop, (capture.loopOf call).2 = .ok stop ∧ call.manifestRefused = none ∧
        (capture.reclaim call).1.state.manifest.firstSequence = stop ∧
        (capture.reclaim call).1.repository = (capture.loopOf call).1.publish
          (manifestKey digest capture.descriptor.sessionId) (capture.reclaim call).1.state.manifest.toJson) := by
  unfold reclaim reclaimBefore
  dsimp only
  split
  next error herror =>
    refine ⟨rfl, rfl, id, Or.inl ⟨rfl, rfl, ?_⟩⟩
    intro stop hstop
    cases hstop.symm.trans herror
  next stop error hok hrefused =>
    have hleft : ∀ other, (capture.loopOf call).2 = .ok other →
        other = capture.state.manifest.firstSequence ∨ call.manifestRefused ≠ none := by
      intro other _
      right
      rw [hrefused]
      exact Option.some_ne_none error
    split
    · exact ⟨rfl, rfl, id, Or.inl ⟨rfl, rfl, hleft⟩⟩
    · exact ⟨rfl, rfl, id, Or.inl ⟨rfl, rfl, hleft⟩⟩
  next stop hok hrefused =>
    split
    next hsame =>
      refine ⟨rfl, rfl, id, Or.inl ⟨rfl, rfl, ?_⟩⟩
      intro other hother
      left
      cases hother.symm.trans hok
      exact hsame
    · have hmoved := publishCaptureBytes_eq (capture.loopOf call).1 (manifestKey digest capture.descriptor.sessionId)
      split
      · exact ⟨rfl, rfl, id, Or.inr ⟨stop, hok, hrefused, rfl, hmoved _⟩⟩
      · exact ⟨rfl, rfl, id, Or.inr ⟨stop, hok, hrefused, rfl, hmoved _⟩⟩
      · exact ⟨rfl, rfl, fun _ => Option.some_ne_none _, Or.inr ⟨stop, hok, hrefused, rfl, hmoved _⟩⟩

variable {call : ReclaimCall}

theorem reclaim_of_loop_error {error : CaptureStoreError} (h : (capture.loopOf call).2 = .error error) :
    (capture.reclaim call).2 = .error error := by
  unfold reclaim reclaimBefore
  dsimp only
  split
  next other hother =>
    cases h.symm.trans hother
    rfl
  next hok _ => cases h.symm.trans hok
  next hok _ => cases h.symm.trans hok

theorem loopOf_length {chunk : CaptureChunk}
    (hget : capture.chunks[capture.state.manifest.firstSequence]? = some chunk) :
    ∃ remaining, capture.state.manifest.committedChunks - capture.state.manifest.firstSequence = remaining + 1 ∧
      capture.chunks.length = capture.state.manifest.firstSequence + (remaining + 1) := by
  have hlt := (List.getElem?_eq_some_iff.mp hget).1
  have hcount := capture.count
  exact ⟨capture.chunks.length - capture.state.manifest.firstSequence - 1, by omega, by omega⟩

section

variable (h : capture.Intact)
include h

theorem loopOf_stopsFirst (hstops : capture.StopsFirst call) :
    (capture.loopOf call).1 = capture.repository := by
  rw [loopOf]
  cases hget : capture.chunks[capture.state.manifest.firstSequence]? with
  | none =>
    have hcount := capture.count
    rw [List.getElem?_eq_none_iff] at hget
    rw [show capture.state.manifest.committedChunks - capture.state.manifest.firstSequence = 0 by omega]
    rfl
  | some chunk =>
    obtain ⟨remaining, hremaining, hlength⟩ := loopOf_length hget
    obtain ⟨first, hfirst, hread⟩ := h.holds.read (by omega) (call.readRefused capture.state.manifest.firstSequence)
    have hstay := hstops first hfirst
    rw [hremaining, reclaimLoop, hread]
    cases hrefused : call.readRefused capture.state.manifest.firstSequence with
    | some error => rfl
    | none =>
      dsimp only
      split
      · rfl
      next hend =>
        rcases hstay (Nat.le_of_not_lt hend) with hrefuses | hrefuses
        · exact absurd hrefused hrefuses
        · obtain ⟨error, herror⟩ := Option.ne_none_iff_exists'.mp hrefuses
          rw [herror]

theorem loopOf_removes (hstops : ¬capture.StopsFirst call) :
    (∃ chunk, capture.chunks[capture.state.manifest.firstSequence]? = some chunk) ∧
      (capture.loopOf call).1 (chunkKey digest capture.descriptor.sessionId capture.state.manifest.firstSequence) = none ∧
      ∀ stop, (capture.loopOf call).2 = .ok stop → stop ≠ capture.state.manifest.firstSequence := by
  simp only [StopsFirst, not_forall, not_or, not_not] at hstops
  obtain ⟨chunk, hget, hend, hreads, hremoves⟩ := hstops
  obtain ⟨remaining, hremaining, hlength⟩ := loopOf_length hget
  obtain ⟨first, hfirst, hread⟩ := h.holds.read (by omega) (call.readRefused capture.state.manifest.firstSequence)
  cases hfirst.symm.trans hget
  rw [hreads] at hread
  refine ⟨⟨chunk, hget⟩, ?_⟩
  rw [loopOf, hremaining, reclaimLoop, hreads, hread]
  dsimp only
  rw [if_neg (Nat.not_lt.mpr hend), hremoves]
  dsimp only
  constructor
  · apply Option.eq_none_iff_forall_ne_some.mpr
    intro bytes hbytes
    have hkept := capture.reclaimLoop_keeps hbytes
    simp [Repository.remove] at hkept
  · intro stop hok
    obtain ⟨k, -, -, -, hstop⟩ := capture.reclaimLoop_cases
    rw [hstop stop hok]
    omega

theorem reclaim_intact (hcall : capture.StopsFirst call ∨ capture.Completes call) :
    (capture.reclaim call).1.Intact := by
  obtain ⟨hdescriptor, hchunks, -, hcases⟩ := reclaim_cases capture call
  obtain ⟨k, hk, hother, hgone, hstop⟩ : ∃ k ≤ capture.state.manifest.committedChunks -
      capture.state.manifest.firstSequence, _ := capture.reclaimLoop_cases
  have hmanifest : ∀ j < k, manifestKey digest capture.descriptor.sessionId ≠
      chunkKey digest capture.descriptor.sessionId (capture.state.manifest.firstSequence + j) :=
    fun j _ => (chunkKey_ne_manifestKey digest capture.descriptor.sessionId _).symm
  have hlt := capture.length_lt
  have hcount := capture.count
  rcases hcases with ⟨hstate, hrepository, hkept⟩ | ⟨stop, hok, hrefused, hfirst, hrepository⟩
  · -- the loop has removed nothing
    have hsame : (capture.loopOf call).1 = capture.repository := by
      rcases hcall with hstops | hcompletes
      · exact loopOf_stopsFirst h hstops
      · by_contra hchanged
        have hmoves : ¬capture.StopsFirst call := fun hstops => hchanged (loopOf_stopsFirst h hstops)
        obtain ⟨⟨chunk, hget⟩, -, hmoved⟩ := loopOf_removes h hmoves
        obtain ⟨remaining, hremaining, hlength⟩ := loopOf_length hget
        simp only [StopsFirst, not_forall, not_or, not_not] at hmoves
        obtain ⟨first, -, -, hreads, -⟩ := hmoves
        obtain ⟨stop, hok⟩ := reclaimLoop_ok h.holds (hlength.trans (congrArg _ hremaining.symm)) hcompletes.2
          fun _ _ => hreads
        rcases hkept stop hok with hstay | hrefuses
        · exact hmoved stop hok hstay
        · exact hrefuses hcompletes.1
    apply h.of_same hdescriptor hchunks
    · rw [hstate]
    · rw [hdescriptor, hrepository, hstate, hsame]
      exact h.published
    · intro i _ _
      rw [hrepository, hsame]
  · apply h.of_same hdescriptor hchunks
    · rw [hfirst, hstop stop hok]
      exact Nat.le_add_right _ _
    · rw [hdescriptor, hrepository]
      exact Repository.publish_same _ _ _
    · intro i hi hle
      rw [hfirst, hstop stop hok] at hle
      rw [hrepository, Repository.publish_other (chunkKey_ne_manifestKey digest capture.descriptor.sessionId i)]
      apply hother
      intro j hj
      exact chunkKey_ne (by omega) (by omega) (by omega)

theorem reclaim_free_first {safeSample : Nat}
    (hfirst : capture.state.manifest.firstSequence < capture.chunks.length) :
    ∀ i chunk, capture.state.manifest.firstSequence ≤ i → capture.chunks[i]? = some chunk →
      (chunk.endSample ≤ safeSample ↔ i < (capture.reclaim (.free safeSample)).1.state.manifest.firstSequence) := by
  obtain ⟨remaining, hremaining, hlength⟩ := loopOf_length (List.getElem?_eq_getElem hfirst)
  have hfull := hlength.trans (congrArg _ hremaining.symm)
  obtain ⟨stop, hok⟩ : ∃ stop, (capture.loopOf (.free safeSample)).2 = .ok stop :=
    reclaimLoop_ok h.holds hfull (fun _ _ _ _ _ => ⟨rfl, fun _ => rfl⟩) fun _ _ => rfl
  obtain ⟨-, -, -, hcases⟩ := reclaim_cases capture (.free safeSample)
  have hmoved : (capture.reclaim (.free safeSample)).1.state.manifest.firstSequence = stop := by
    rcases hcases with ⟨hstate, -, hkept⟩ | ⟨other, hother, -, hstop, -⟩
    · rcases hkept stop hok with hsame | hrefused
      · rw [hstate, hsame]
      · exact absurd rfl hrefused
    · cases hok.symm.trans hother
      exact hstop
  rw [hmoved]
  exact (reclaimLoop_stop h.holds hfull hok).2

theorem not_intact_of_interrupted (hcall : ¬(capture.StopsFirst call ∨ capture.Completes call)) :
    ¬(capture.reclaim call).1.Intact := by
  intro hafter
  rw [not_or] at hcall
  obtain ⟨⟨chunk, hget⟩, hgone, hmoved⟩ := loopOf_removes h hcall.1
  obtain ⟨remaining, hremaining, hlength⟩ := loopOf_length hget
  obtain ⟨hdescriptor, hchunks, -, hcases⟩ := reclaim_cases capture call
  rcases hcases with ⟨hstate, hrepository, -⟩ | ⟨stop, hok, hrefused, -, -⟩
  · have hthere := hafter.readable capture.state.manifest.firstSequence chunk
      (by rw [hstate]) (by rw [hchunks, hget])
    rw [readChunk_iff (by rw [hchunks, hget]), hdescriptor, hrepository] at hthere
    exact hthere hgone
  · apply hcall.2
    exact ⟨hrefused, refusals_of_reclaimLoop h.holds (hlength.trans (congrArg _ hremaining.symm)) hok⟩

theorem Intact.reads (cursor : CaptureCursor) :
    ∃ item moved, capture.next (fun _ => none) cursor = (.ok item, moved) := by
  by_cases hlt : capture.place cursor < capture.chunks.length
  · have hget := List.getElem?_eq_getElem hlt
    have hthere := (readChunk_iff hget).mp (h.readable _ _ (Nat.le_max_right _ _) hget)
    obtain ⟨moved, hnext, -⟩ := @next_stored _ _ _ (fun _ => none) cursor _ hget hthere rfl
    exact ⟨_, moved, hnext⟩
  · have hend := next_past (fun _ => none) cursor (Nat.le_of_not_lt hlt)
    exact ⟨_, (capture.next (fun _ => none) cursor).2, Prod.ext hend rfl⟩

section

variable (hmetadata : capture.sessionMetadata ≠ none)
include hmetadata

theorem Intact.reclaims (safeSample : Nat) :
    ∃ after, capture.reclaim (.free safeSample) = (after, .ok ()) := by
  obtain ⟨stop, hok⟩ : ∃ stop, (capture.loopOf (.free safeSample)).2 = .ok stop := by
    cases hget : capture.chunks[capture.state.manifest.firstSequence]? with
    | none =>
      have hcount := capture.count
      rw [List.getElem?_eq_none_iff] at hget
      rw [loopOf, show capture.state.manifest.committedChunks - capture.state.manifest.firstSequence = 0 by omega]
      exact ⟨_, rfl⟩
    | some chunk =>
      obtain ⟨remaining, hremaining, hlength⟩ := loopOf_length hget
      exact reclaimLoop_ok h.holds (hlength.trans (congrArg _ hremaining.symm)) (fun _ _ _ _ _ => ⟨rfl, fun _ => rfl⟩)
        fun _ _ => rfl
  refine ⟨(capture.reclaim (.free safeSample)).1, Prod.ext rfl ?_⟩
  unfold reclaim reclaimBefore
  dsimp only
  split
  next error herror => cases hok.symm.trans herror
  next hrefused => cases hrefused
  · split
    · rfl
    · split
      next hmissing => exact absurd hmissing hmetadata
      next hrefused => cases hrefused
      · rfl

theorem consistent_iff :
    (capture.reclaim call).1.Consistent ↔ capture.StopsFirst call ∨ capture.Completes call := by
  constructor
  · intro hafter
    by_contra hcall
    exact not_intact_of_interrupted h hcall hafter.intact
  · intro hcall
    have hafter := reclaim_intact h hcall
    exact ⟨hafter, hafter.reclaims ((reclaim_cases capture call).2.2.1 hmetadata), hafter.reads⟩

theorem reclaimRun_intact {calls : List ReclaimCall} (hcalls : capture.Uninterrupted calls) :
    (capture.reclaimRun calls).Intact ∧ (capture.reclaimRun calls).sessionMetadata ≠ none := by
  induction calls generalizing capture with
  | nil => exact ⟨h, hmetadata⟩
  | cons call calls ih =>
    exact ih (reclaim_intact h hcalls.1) ((reclaim_cases capture call).2.2.1 hmetadata) hcalls.2

end

end

end FinalizedCapture

namespace CaptureSession

variable {floats : FloatOps} {digest : Digest} {descriptor : CaptureStoreDescriptor}

def behind (session : CaptureSession digest descriptor) (metadata : Option (CaptureSessionMetadata floats))
    (closing : List CloseCall) (calls : List ReclaimCall) : FinalizedCapture floats digest :=
  ((session.handle metadata).closeRun closing).reclaimRun calls

theorem behind_chunks (session : CaptureSession digest descriptor) (metadata : Option (CaptureSessionMetadata floats))
    (closing : List CloseCall) (calls : List ReclaimCall) :
    (session.behind metadata closing calls).chunks = session.system.committed := by
  have hcalls : ∀ capture : FinalizedCapture floats digest, (capture.reclaimRun calls).chunks = capture.chunks := by
    induction calls with
    | nil => exact fun _ => rfl
    | cons call calls ih => exact fun capture => (ih _).trans (FinalizedCapture.reclaim_cases capture call).2.1
  exact (hcalls _).trans (FinalizedCapture.closeRun_chunks closing)

end CaptureSession

/-- In every run of reclamations of a closed session that each remove nothing or are carried through, what the
published manifest claims can be read and later calls succeed; the next reclamation keeps this exactly when it
removes nothing or is carried through itself. -/
theorem reclaim_before_is_crash_consistent {floats : FloatOps} {digest : Digest} {descriptor : CaptureStoreDescriptor}
    {repository : Repository} {created system : CaptureSystem} {actions : List StoreAction}
    (hcreate : CaptureSystem.create digest descriptor repository = .ok created)
    (hrun : created.run digest descriptor actions = some system) (metadata : CaptureSessionMetadata floats)
    (closing : List CloseCall) (calls : List ReclaimCall)
    (hcalls : (((CaptureSession.ofRun hcreate hrun).handle (some metadata)).closeRun closing).Uninterrupted calls) :
    ((((CaptureSession.ofRun hcreate hrun).handle (some metadata)).closeRun closing).reclaimRun calls).Consistent ∧
      ∀ call, (((((CaptureSession.ofRun hcreate hrun).handle (some metadata)).closeRun closing).reclaimRun
        calls).reclaim call).1.Consistent ↔
          ((((CaptureSession.ofRun hcreate hrun).handle (some metadata)).closeRun closing).reclaimRun calls).StopsFirst
            call ∨
          ((((CaptureSession.ofRun hcreate hrun).handle (some metadata)).closeRun closing).reclaimRun calls).Completes
            call := by
  have hstart : ((CaptureSession.ofRun hcreate hrun).handle (some metadata)).Whole :=
    (CaptureSession.ofRun hcreate hrun).handle_whole metadata
  have hwhole := hstart.closeRun closing
  obtain ⟨hintact, hmetadata⟩ := FinalizedCapture.reclaimRun_intact hwhole.intact hwhole.metadata hcalls
  exact ⟨⟨hintact, hintact.reclaims hmetadata, hintact.reads⟩, fun call => FinalizedCapture.consistent_iff hintact hmetadata⟩

def twoQuads : List CaptureChunk := [quadChunk 0 Nat.one_le_two_pow, quadChunk 1 (Nat.one_lt_two_pow (by decide))]

def twoQuadActions : List StoreAction :=
  twoQuads.flatMap (fun chunk => [.append chunk, .publishChunk none, .commit none]) ++ [.finish]

def twoQuadStore : Option CaptureSystem :=
  (CaptureSystem.create tailDigest quadDescriptor Repository.empty).toOption.bind fun created =>
    created.run tailDigest quadDescriptor twoQuadActions

theorem twoQuadStore_committed : ∃ created system,
    CaptureSystem.create tailDigest quadDescriptor Repository.empty = .ok created ∧
    created.run tailDigest quadDescriptor twoQuadActions = some system ∧ system.committed = twoQuads := by
  have hsome : twoQuadStore.isSome = true := by decide +kernel
  have hcommitted : twoQuadStore.map CaptureSystem.committed = some twoQuads := by decide +kernel
  obtain ⟨system, hsystem⟩ := Option.isSome_iff_exists.mp hsome
  obtain ⟨created, hcreated, hrun⟩ := Option.bind_eq_some_iff.mp hsystem
  rw [hsystem] at hcommitted
  refine ⟨created, system, ?_, hrun, Option.some.inj hcommitted⟩
  cases hresult : CaptureSystem.create tailDigest quadDescriptor Repository.empty with
  | error error =>
    rw [hresult] at hcreated
    cases hcreated
  | ok result =>
    rw [hresult] at hcreated
    exact congrArg Except.ok (Option.some.inj hcreated)

def quietMetadata : CaptureSessionMetadata noRates := ⟨none, .inProgress, 0, 0, none, 0, false⟩

theorem reclaim_before_is_crash_consistent_quads : ∃ (created system : CaptureSystem)
    (hcreate : CaptureSystem.create tailDigest quadDescriptor .empty = .ok created)
    (hrun : created.run tailDigest quadDescriptor twoQuadActions = some system), system.committed = twoQuads ∧
    ((((CaptureSession.ofRun hcreate hrun).handle (some quietMetadata)).closeRun [finalizeAs none]).reclaimRun
      [.free 4, ⟨8, fun _ => none, fun _ => some .unavailable, none, none⟩]).Consistent := by
  obtain ⟨created, system, hcreate, hrun, hcommitted⟩ := twoQuadStore_committed
  refine ⟨created, system, hcreate, hrun, hcommitted, ?_⟩
  have hcalls : (((CaptureSession.ofRun hcreate hrun).handle (some quietMetadata)).closeRun
      [finalizeAs none]).Uninterrupted [.free 4, ⟨8, fun _ => none, fun _ => some .unavailable, none, none⟩] := by
    refine ⟨Or.inr ⟨rfl, ?_⟩, Or.inl ?_, trivial⟩
    · exact fun _ _ _ _ _ => ⟨rfl, fun _ => rfl⟩
    · exact fun _ _ _ => Or.inr (Option.some_ne_none _)
  exact (reclaim_before_is_crash_consistent hcreate hrun quietMetadata [finalizeAs none] _ hcalls).1

/-- A chunk is removed and the manifest is refused: what is published claims the chunk, and neither a cursor
nor a later reclamation goes on. -/
theorem refused_manifest_claims_removed : ∃ (created system : CaptureSystem)
    (hcreate : CaptureSystem.create tailDigest quadDescriptor .empty = .ok created)
    (hrun : created.run tailDigest quadDescriptor twoQuadActions = some system),
    ∃ after : FinalizedCapture noRates tailDigest,
      after = ((((CaptureSession.ofRun hcreate hrun).handle (some quietMetadata)).closeRun [finalizeAs none]).reclaim
        ⟨4, fun _ => none, fun _ => none, some .unavailable, none⟩).1 ∧
      after.state.manifest.firstSequence = 0 ∧ after.chunks = twoQuads ∧
      readChunk tailDigest after.repository after.descriptor 0 none = corrupt "capture chunk 0 is missing" ∧
      (after.reclaim (.free 4)).2 = corrupt "capture chunk 0 is missing" ∧
      (after.next (fun _ => none) (.opened after.state)).1 = corrupt "capture chunk 0 is missing" := by
  obtain ⟨created, system, hcreate, hrun, hcommitted⟩ := twoQuadStore_committed
  refine ⟨created, system, hcreate, hrun, _, rfl, ?_⟩
  have hwhole := ((CaptureSession.ofRun hcreate hrun).handle_whole quietMetadata).closeRun [finalizeAs none]
  have hchunks := (@FinalizedCapture.closeRun_chunks _ _ ((CaptureSession.ofRun hcreate hrun).handle
    (some quietMetadata)) [finalizeAs none]).trans hcommitted
  generalize ((CaptureSession.ofRun hcreate hrun).handle (some quietMetadata)).closeRun [finalizeAs none] = capture
    at hwhole hchunks ⊢
  have hfirst := hwhole.retained
  have hmoves : ¬capture.StopsFirst ⟨4, fun _ => none, fun _ => none, some .unavailable, none⟩ := by
    intro hstops
    rw [FinalizedCapture.StopsFirst, hfirst, hchunks] at hstops
    rcases hstops _ rfl (by decide) with hnone | hnone
    · exact hnone rfl
    · exact hnone rfl
  obtain ⟨-, hgone, hmoved⟩ := FinalizedCapture.loopOf_removes hwhole.intact hmoves
  obtain ⟨hdescriptor, hsame, -, hcases⟩ := FinalizedCapture.reclaim_cases capture
    ⟨4, fun _ => none, fun _ => none, some .unavailable, none⟩
  rcases hcases with ⟨hstate, hrepository, -⟩ | ⟨stop, -, hpublished, -⟩
  · generalize (capture.reclaim ⟨4, fun _ => none, fun _ => none, some .unavailable, none⟩).1 = after at *
    have hzero : after.state.manifest.firstSequence = 0 := by rw [hstate, hfirst]
    have hall : after.chunks = twoQuads := hsame.trans hchunks
    have hread : readChunk tailDigest after.repository after.descriptor 0 none = corrupt "capture chunk 0 is missing" := by
      rw [hfirst] at hgone
      rw [hdescriptor, hrepository]
      simp only [readChunk, hgone]
      rfl
    refine ⟨hzero, hall, hread, ?_, ?_⟩
    · have hcount : after.state.manifest.committedChunks = 2 := by rw [after.count, hall]; rfl
      apply FinalizedCapture.reclaim_of_loop_error
      have hloop : after.loopOf (.free 4) = (after.repository, corrupt "capture chunk 0 is missing") := by
        rw [FinalizedCapture.loopOf, hzero, hcount]
        exact after.reclaimLoop_unreadable hread
      rw [hloop]
      rfl
    · have hplace : after.place (.opened after.state) = 0 := by
        rw [FinalizedCapture.place, CaptureCursor.opened, hzero]
        rfl
      rw [FinalizedCapture.next_reading _ _ (by rw [hplace, hall]; decide), hplace, hread]
      rfl
  · cases hpublished

end LogicConduit
