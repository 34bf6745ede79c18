import LogicConduit.CaptureReclamation
import LogicConduit.WaveformSegments

namespace LogicConduit

structure LevelTransition where
  sample : Nat
  value : Bool
  deriving DecidableEq

/-- A channel of an exact window; its `waveform` is empty. -/
structure ExactSampledChannel where
  channel : Nat
  name : String
  initial : Bool
  transitions : List LevelTransition
  deriving DecidableEq

/-- An exact window; its `sample_step` is one. -/
structure ExactSampledWindow where
  startSample : Nat
  endSample : Nat
  channels : List ExactSampledChannel
  deriving DecidableEq

/-- A requested channel while the chunks are walked. -/
structure ChannelWalk where
  initial : Bool
  transitions : List LevelTransition
  current : Option Bool
  deriving DecidableEq

namespace ChannelWalk

def fresh : ChannelWalk := ⟨false, [], none⟩

def observe (walk : ChannelWalk) (sample : Nat) (value : Bool) : ChannelWalk :=
  match walk.current with
  | none => { walk with initial := value, current := some value }
  | some previous =>
    if previous != value then
      { walk with transitions := walk.transitions ++ [⟨sample, value⟩], current := some value }
    else walk

/-- The samples of a signal from `start` on, one after the other. -/
def through (signal : Nat → Bool) (start count : Nat) (walk : ChannelWalk) : ChannelWalk :=
  (List.range' start count).foldl (fun walk sample => walk.observe sample (signal sample)) walk

def changes (signal : Nat → Bool) (start count : Nat) : List LevelTransition :=
  ((List.range' (start + 1) count).filter fun sample => signal (sample - 1) != signal sample).map
    fun sample => ⟨sample, signal sample⟩

theorem through_add (signal : Nat → Bool) (start m n : Nat) (walk : ChannelWalk) :
    walk.through signal start (m + n) = (walk.through signal start m).through signal (start + m) n := by
  rw [through, through, through, ← List.range'_append_1, List.foldl_append]

theorem through_one (signal : Nat → Bool) (start : Nat) (walk : ChannelWalk) :
    walk.through signal start 1 = walk.observe start (signal start) := rfl

theorem through_fresh (signal : Nat → Bool) (start n : Nat) :
    fresh.through signal start (n + 1) =
      ⟨signal start, changes signal start n, some (signal (start + n))⟩ := by
  induction n with
  | zero => rfl
  | succ n ih =>
    have hlast : changes signal start (n + 1) = changes signal start n ++
        if signal (start + n) != signal (start + (n + 1)) then [⟨start + (n + 1), signal (start + (n + 1))⟩] else [] := by
      rw [changes, changes, List.range'_concat, List.filter_append, List.map_append]
      simp only [Nat.one_mul, List.filter_cons, List.filter_nil,
        show start + 1 + n = start + (n + 1) by omega, show start + (n + 1) - 1 = start + n by omega]
      split <;> rfl
    rw [through_add, ih, hlast, through_one]
    simp only [observe]
    split
    · rfl
    next hsame =>
      have heq : signal (start + n) = signal (start + (n + 1)) := by simpa using hsame
      rw [List.append_nil, heq]

end ChannelWalk

def levelAt (chunks : List CaptureChunk) (channel sample : Nat) : Bool :=
  ((timeline chunks)[sample]?.bind fun levels => levels[channel]?.join).getD false

variable {startSample endSample : Nat}

namespace FinalizedCapture

variable {floats : FloatOps} {digest : Digest} (capture : FinalizedCapture floats digest)

def retainedStart : Nat := (timeline (capture.chunks.take capture.state.manifest.firstSequence)).length

/-- `expect`: a chunk has a level at each of its samples. -/
def walkChunk (chunk : CaptureChunk) (startSample endSample : Nat) (channels : List Nat) (walks : List ChannelWalk) :
    List ChannelWalk :=
  (List.range' (max startSample chunk.startSample)
    (min endSample chunk.endSample - max startSample chunk.startSample)).foldl (fun walks sample =>
      List.zipWith (fun channel walk =>
        walk.observe sample ((chunk.packedLevel (sample - chunk.startSample) channel).getD false)) channels walks) walks

def walkLoop (refused : Nat → Option RepositoryError) (startSample endSample : Nat) (channels : List Nat) :
    Nat → Nat → List ChannelWalk → Except CaptureError (List ChannelWalk)
  | 0, _, walks => .ok walks
  | remaining + 1, sequence, walks =>
    match readChunk digest capture.repository capture.descriptor sequence (refused sequence) with
    -- `store_as_capture_error`
    | .error error => .error (.parseError error.display)
    | .ok chunk =>
      if chunk.endSample ≤ startSample then
        walkLoop refused startSample endSample channels remaining (sequence + 1) walks
      else if endSample ≤ chunk.startSample then .ok walks
      else walkLoop refused startSample endSample channels remaining (sequence + 1)
        (walkChunk chunk startSample endSample channels walks)

def sampledWindow (refused : Nat → Option RepositoryError) (channels : List Nat) (startSample endSample : Nat) :
    Except CaptureError ExactSampledWindow :=
  if endSample ≤ startSample ∨ capture.state.manifest.committedSamples < endSample then .error (.outOfBounds endSample)
  else
    match channels.find? fun channel => capture.descriptor.channels.length ≤ channel with
    | some channel => .error (.invalidProbe channel)
    | none =>
      (capture.walkLoop refused startSample endSample channels
        (capture.state.manifest.committedChunks - capture.state.manifest.firstSequence)
        capture.state.manifest.firstSequence (channels.map fun _ => .fresh)).map fun walks =>
          ⟨startSample, endSample, List.zipWith (fun channel walk =>
            ⟨channel, capture.descriptor.channels.getD channel "", walk.initial, walk.transitions⟩) channels walks⟩

def Retains (sample : Nat) : Prop :=
  ∃ i chunk, capture.state.manifest.firstSequence ≤ i ∧ capture.chunks[i]? = some chunk ∧
    chunk.startSample ≤ sample ∧ sample < chunk.endSample

/-- The walk over the chunks comes to chunk `i`. -/
def WalksTo (endSample sequence i : Nat) : Prop :=
  sequence ≤ i ∧ i < capture.chunks.length ∧
    ∀ j chunk, sequence ≤ j → j < i → capture.chunks[j]? = some chunk → chunk.startSample < endSample

def Refuses (refused : Nat → Option RepositoryError) (channels : List Nat) (startSample endSample : Nat) : Prop :=
  endSample ≤ startSample ∨ capture.state.manifest.committedSamples < endSample ∨
    (∃ channel ∈ channels, capture.descriptor.channels.length ≤ channel) ∨
    ∃ i, capture.WalksTo endSample capture.state.manifest.firstSequence i ∧
      ∀ chunk, readChunk digest capture.repository capture.descriptor i (refused i) ≠ .ok chunk

/-- A window of retained samples that holds the levels of the requested channels. -/
structure ReadsRetained (levels : Nat → Nat → Bool) (channels : List Nat) (low high : Nat)
    (window : ExactSampledWindow) : Prop where
  startSample : window.startSample = low
  endSample : window.endSample = high
  channels : window.channels.map ExactSampledChannel.channel = channels
  retained : ∀ sample, low ≤ sample → sample < high → capture.Retains sample
  initial : ∀ sampled ∈ window.channels, sampled.initial = levels sampled.channel low
  transitions : ∀ sampled ∈ window.channels,
    sampled.transitions = ChannelWalk.changes (levels sampled.channel) low (high - low - 1)

variable {capture}

variable {chunk : CaptureChunk}

theorem levelAt_chunk {i sample channel : Nat} (hget : capture.chunks[i]? = some chunk)
    (hstart : chunk.startSample ≤ sample) (hend : sample < chunk.endSample)
    (hchannel : channel < capture.descriptor.channels.length) :
    levelAt capture.chunks channel sample = (chunk.packedLevel (sample - chunk.startSample) channel).getD false := by
  obtain ⟨hi, heq⟩ := List.getElem?_eq_some_iff.mp hget
  have hcontinues := capture.contiguous.getElem hget
  rw [Nat.zero_add] at hcontinues
  have hlevels : (timeline capture.chunks)[sample]? = some (chunk.levels (sample - chunk.startSample)) := by
    have hsplit : capture.chunks = capture.chunks.take i ++ (chunk :: capture.chunks.drop (i + 1)) := by
      rw [← heq, ← List.drop_eq_getElem_cons hi, List.take_append_drop]
    have hsample : sample - chunk.startSample < chunk.sampleCount := by
      rw [CaptureChunk.endSample] at hend
      omega
    have hbefore := hcontinues.startSample
    rw [Nat.zero_add] at hbefore
    rw [hsplit, timeline_append, timeline_cons, List.getElem?_append_right (by omega), ← hbefore,
      List.getElem?_append_left (by rwa [CaptureChunk.samples_length])]
    simp [CaptureChunk.samples, hsample]
  rw [levelAt, hlevels]
  have hwidth : channel < chunk.channels.length := by rwa [hcontinues.channels]
  simp [CaptureChunk.levels, hwidth]

theorem walkChunk_eq {channels : List Nat} {signal : Nat → Nat → Bool} (walk : Nat → ChannelWalk)
    (hlevels : ∀ sample, chunk.startSample ≤ sample → sample < chunk.endSample → ∀ channel ∈ channels,
      signal channel sample = (chunk.packedLevel (sample - chunk.startSample) channel).getD false) :
    walkChunk chunk startSample endSample channels (channels.map walk) = channels.map fun channel =>
      (walk channel).through (signal channel) (max startSample chunk.startSample)
        (min endSample chunk.endSample - max startSample chunk.startSample) := by
  have hrange : ∀ n low (walk : Nat → ChannelWalk), chunk.startSample ≤ low → low + n ≤ max low chunk.endSample →
      (List.range' low n).foldl (fun walks sample => List.zipWith (fun channel walk =>
        walk.observe sample ((chunk.packedLevel (sample - chunk.startSample) channel).getD false)) channels walks)
          (channels.map walk) =
        channels.map fun channel => (walk channel).through (signal channel) low n := by
    intro n
    induction n with
    | zero => exact fun _ _ _ _ => rfl
    | succ n ih =>
      intro low walk hlow hhigh
      have hstep : List.zipWith (fun channel walk =>
          ChannelWalk.observe walk low ((chunk.packedLevel (low - chunk.startSample) channel).getD false)) channels
            (channels.map walk) = channels.map fun channel => (walk channel).observe low (signal channel low) := by
        rw [List.zipWith_map_right, List.zipWith_self]
        apply List.map_congr_left
        intro channel hchannel
        rw [hlevels low hlow (by omega) channel hchannel]
      rw [List.range'_succ, List.foldl_cons, hstep, ih (low + 1) _ (by omega) (by omega)]
      rfl
  apply hrange
  · exact Nat.le_max_right _ _
  · omega

theorem retains_iff {sample : Nat} (hlt : sample < (timeline capture.chunks).length) :
    capture.Retains sample ↔ capture.retainedStart ≤ sample := by
  constructor
  · rintro ⟨i, chunk, hfirst, hget, hstart, -⟩
    have hbefore := (capture.contiguous.getElem hget).startSample
    rw [Nat.zero_add] at hbefore
    exact Nat.le_trans (timeline_take_le hfirst) (hbefore ▸ hstart)
  · intro hretained
    obtain ⟨chunk, hmem, hstart, hend⟩ := capture.contiguous.chunk_at (Nat.zero_le sample) (by omega)
    obtain ⟨i, hget⟩ := List.mem_iff_getElem?.mp hmem
    refine ⟨i, chunk, ?_, hget, hstart, hend⟩
    by_contra hearly
    have hle := @timeline_take_le _ _ capture _ _ (Nat.lt_of_not_le hearly)
    rw [← endSample_eq hget] at hle
    have hstays : capture.retainedStart ≤ sample := hretained
    rw [retainedStart] at hstays
    omega

theorem walksTo_succ {endSample sequence i : Nat} (hget : capture.chunks[sequence]? = some chunk)
    (hstart : chunk.startSample < endSample) :
    capture.WalksTo endSample sequence i ↔ i = sequence ∨ capture.WalksTo endSample (sequence + 1) i := by
  have hlt := (List.getElem?_eq_some_iff.mp hget).1
  constructor
  · rintro ⟨hle, hi, hbefore⟩
    rcases Nat.eq_or_lt_of_le hle with rfl | hlate
    · exact Or.inl rfl
    · exact Or.inr ⟨hlate, hi, fun j other hj hji => hbefore j other (by omega) hji⟩
  · rintro (rfl | ⟨hle, hi, hbefore⟩)
    · exact ⟨Nat.le_refl _, hlt, fun j other hle hlt => absurd hle (Nat.not_le.mpr hlt)⟩
    · refine ⟨by omega, hi, ?_⟩
      intro j other hj hji hother
      rcases Nat.eq_or_lt_of_le hj with rfl | hlate
      · cases hget.symm.trans hother
        exact hstart
      · exact hbefore j other hlate hji hother

section Walk

variable {refused : Nat → Option RepositoryError} {startSample endSample : Nat} {channels : List Nat}

theorem walkLoop_ok_iff {remaining sequence : Nat} (hwindow : startSample < endSample)
    (hlength : capture.chunks.length - sequence = remaining) (walks : List ChannelWalk) :
    (∃ result, capture.walkLoop refused startSample endSample channels remaining sequence walks = .ok result) ↔
      ∀ i, capture.WalksTo endSample sequence i →
        ∃ chunk, readChunk digest capture.repository capture.descriptor i (refused i) = .ok chunk := by
  induction remaining generalizing sequence walks with
  | zero =>
    refine ⟨?_, fun _ => ⟨walks, rfl⟩⟩
    rintro - i ⟨hle, hi, -⟩
    omega
  | succ remaining ih =>
    have hget := List.getElem?_eq_getElem (show sequence < capture.chunks.length by omega)
    have hhere : capture.WalksTo endSample sequence sequence :=
      ⟨Nat.le_refl _, by omega, fun j other hle hlt => absurd hle (Nat.not_le.mpr hlt)⟩
    rw [walkLoop]
    cases hread : readChunk digest capture.repository capture.descriptor sequence (refused sequence) with
    | error error =>
      constructor
      · rintro ⟨result, hresult⟩
        cases hresult
      · intro hall
        obtain ⟨chunk, hchunk⟩ := hall sequence hhere
        cases hread.symm.trans hchunk
    | ok chunk =>
      cases readChunk_committed hget hread
      have hgrow : capture.chunks[sequence].startSample ≤ capture.chunks[sequence].endSample := Nat.le_add_right _ _
      -- the walk goes on behind this chunk
      have hnext : capture.chunks[sequence].startSample < endSample → ∀ walks,
          (∃ result, capture.walkLoop refused startSample endSample channels remaining (sequence + 1) walks =
            .ok result) ↔ ∀ i, capture.WalksTo endSample sequence i →
              ∃ chunk, readChunk digest capture.repository capture.descriptor i (refused i) = .ok chunk := by
        intro hstart walks
        rw [ih (by omega) walks]
        simp only [walksTo_succ hget hstart, forall_eq_or_imp]
        exact ⟨fun h => ⟨⟨_, hread⟩, h⟩, And.right⟩
      dsimp only
      split
      · exact hnext (by omega) walks
      · split
        next hbehind =>
          refine ⟨fun _ i hi => ?_, fun _ => ⟨walks, rfl⟩⟩
          rcases Nat.eq_or_lt_of_le hi.1 with rfl | hlate
          · exact ⟨_, hread⟩
          · have hstart := hi.2.2 sequence _ (Nat.le_refl _) hlate hget
            omega
        · exact hnext (by omega) _

theorem walkLoop_eq {remaining sequence : Nat} {result : List ChannelWalk} (walk : Nat → ChannelWalk)
    (hlength : capture.chunks.length - sequence = remaining) (hend : endSample ≤ (timeline capture.chunks).length)
    (hchannels : ∀ channel ∈ channels, channel < capture.descriptor.channels.length)
    (h : capture.walkLoop refused startSample endSample channels remaining sequence (channels.map walk) = .ok result) :
    result = channels.map fun channel => (walk channel).through (levelAt capture.chunks channel)
      (max startSample (timeline (capture.chunks.take sequence)).length)
      (endSample - max startSample (timeline (capture.chunks.take sequence)).length) := by
  induction remaining generalizing sequence walk with
  | zero =>
    cases h
    rw [List.take_of_length_le (by omega), Nat.sub_eq_zero_of_le (by omega)]
    rfl
  | succ remaining ih =>
    have hget := List.getElem?_eq_getElem (show sequence < capture.chunks.length by omega)
    rw [walkLoop] at h
    cases hread : readChunk digest capture.repository capture.descriptor sequence (refused sequence) with
    | error error =>
      rw [hread] at h
      cases h
    | ok chunk =>
      rw [hread] at h
      cases readChunk_committed hget hread
      have hstart := (capture.contiguous.getElem hget).startSample
      have hstop := endSample_eq hget
      rw [Nat.zero_add] at hstart
      generalize capture.chunks[sequence] = chunk at *
      have hgrow : chunk.startSample < chunk.endSample := Nat.lt_add_of_pos_right chunk.samples_pos
      dsimp only at h
      split at h
      · have hrest := ih walk (by omega) h
        rw [← hstop] at hrest
        rwa [← hstart, show max startSample chunk.startSample = max startSample chunk.endSample by omega]
      · split at h
        · cases h
          rw [← hstart, Nat.sub_eq_zero_of_le (by omega)]
          rfl
        · have hlevels : ∀ sample, chunk.startSample ≤ sample → sample < chunk.endSample → ∀ channel ∈ channels,
              levelAt capture.chunks channel sample =
                (chunk.packedLevel (sample - chunk.startSample) channel).getD false :=
            fun sample hlow hhigh channel hmem => levelAt_chunk hget hlow hhigh (hchannels channel hmem)
          rw [walkChunk_eq walk hlevels] at h
          have hrest := ih _ (by omega) h
          rw [← hstop] at hrest
          rw [hrest, ← hstart]
          apply List.map_congr_left
          intro channel _
          have hsplit : endSample - max startSample chunk.startSample =
              (min endSample chunk.endSample - max startSample chunk.startSample) +
                (endSample - max startSample chunk.endSample) := by
            omega
          rw [hsplit, ChannelWalk.through_add]
          by_cases hmore : endSample ≤ chunk.endSample
          · rw [Nat.sub_eq_zero_of_le (show endSample ≤ max startSample chunk.endSample by omega)]
            rfl
          · rw [show max startSample chunk.startSample +
              (min endSample chunk.endSample - max startSample chunk.startSample) = max startSample chunk.endSample by omega]

theorem not_refuses_iff : ¬capture.Refuses refused channels startSample endSample ↔
    startSample < endSample ∧ endSample ≤ capture.state.manifest.committedSamples ∧
      (∀ channel ∈ channels, channel < capture.descriptor.channels.length) ∧
      ∀ i, capture.WalksTo endSample capture.state.manifest.firstSequence i →
        ∃ chunk, readChunk digest capture.repository capture.descriptor i (refused i) = .ok chunk := by
  simp only [Refuses, not_or, Nat.not_le, Nat.not_lt, not_exists, not_and, not_forall, ne_eq, not_not]

variable {window : ExactSampledWindow}

theorem not_refuses_of_ok (h : capture.sampledWindow refused channels startSample endSample = .ok window) :
    startSample < endSample ∧ endSample ≤ capture.state.manifest.committedSamples ∧
      (∀ channel ∈ channels, channel < capture.descriptor.channels.length) ∧
      ∃ walks, capture.walkLoop refused startSample endSample channels
        (capture.state.manifest.committedChunks - capture.state.manifest.firstSequence)
        capture.state.manifest.firstSequence (channels.map fun _ => .fresh) = .ok walks ∧
        window = ⟨startSample, endSample, List.zipWith (fun channel walk =>
          ⟨channel, capture.descriptor.channels.getD channel "", walk.initial, walk.transitions⟩) channels walks⟩ := by
  unfold sampledWindow at h
  split at h
  · cases h
  next hrange =>
    rw [not_or, Nat.not_le, Nat.not_lt] at hrange
    split at h
    · cases h
    next hnone =>
      refine ⟨hrange.1, hrange.2, ?_, ?_⟩
      · intro channel hmem
        simpa using List.find?_eq_none.mp hnone channel hmem
      · cases hloop : capture.walkLoop refused startSample endSample channels
            (capture.state.manifest.committedChunks - capture.state.manifest.firstSequence)
            capture.state.manifest.firstSequence (channels.map fun _ => .fresh) with
        | error error =>
          rw [hloop] at h
          cases h
        | ok walks =>
          rw [hloop] at h
          cases h
          exact ⟨walks, rfl, rfl⟩

theorem sampledWindow_of_not_refuses (h : ¬capture.Refuses refused channels startSample endSample) :
    ∃ window, capture.sampledWindow refused channels startSample endSample = .ok window := by
  obtain ⟨hwindow, hend, hchannels, hreads⟩ := not_refuses_iff.mp h
  have hnone : channels.find? (fun channel => capture.descriptor.channels.length ≤ channel) = none := by
    rw [List.find?_eq_none]
    intro channel hmem
    simpa using hchannels channel hmem
  have hlength : capture.chunks.length - capture.state.manifest.firstSequence =
      capture.state.manifest.committedChunks - capture.state.manifest.firstSequence := by
    rw [capture.count]
  obtain ⟨walks, hwalks⟩ := (walkLoop_ok_iff hwindow hlength (channels.map fun _ => .fresh)).mpr hreads
  rw [sampledWindow, if_neg (by omega), hnone, hwalks]
  exact ⟨_, rfl⟩

theorem sampledWindow_retained (hstart : capture.retainedStart ≤ startSample)
    (h : capture.sampledWindow refused channels startSample endSample = .ok window) :
    capture.ReadsRetained (levelAt capture.chunks) channels startSample endSample window := by
  obtain ⟨hwindow, hend, hchannels, walks, hloop, rfl⟩ := not_refuses_of_ok h
  rw [capture.samples] at hend
  have hlength : capture.chunks.length - capture.state.manifest.firstSequence =
      capture.state.manifest.committedChunks - capture.state.manifest.firstSequence := by
    rw [capture.count]
  have hwalks := walkLoop_eq (fun _ => .fresh) hlength hend hchannels hloop
  have hcount : endSample - startSample = endSample - startSample - 1 + 1 := by omega
  rw [show max startSample (timeline (capture.chunks.take capture.state.manifest.firstSequence)).length = startSample from
    Nat.max_eq_left hstart, hcount] at hwalks
  simp only [ChannelWalk.through_fresh] at hwalks
  subst hwalks
  rw [List.zipWith_map_right, List.zipWith_self]
  refine ⟨rfl, rfl, ?_, ?_, ?_, ?_⟩
  · rw [List.map_map]
    exact List.map_id _
  · intro sample hlow hhigh
    exact (retains_iff (by omega)).mpr (by omega)
  · intro sampled hmem
    obtain ⟨channel, -, rfl⟩ := List.mem_map.mp hmem
    rfl
  · intro sampled hmem
    obtain ⟨channel, -, rfl⟩ := List.mem_map.mp hmem
    rfl

theorem sampledWindow_iff :
    (∀ window, capture.sampledWindow refused channels startSample endSample = .ok window →
      capture.ReadsRetained (levelAt capture.chunks) channels startSample endSample window) ↔
      capture.retainedStart ≤ startSample ∨ capture.Refuses refused channels startSample endSample := by
  constructor
  · intro hall
    by_contra hcondition
    rw [not_or] at hcondition
    obtain ⟨window, hwindow⟩ := sampledWindow_of_not_refuses hcondition.2
    obtain ⟨hlt, hend, -, -⟩ := not_refuses_iff.mp hcondition.2
    rw [capture.samples] at hend
    have hretained := (hall window hwindow).retained startSample (Nat.le_refl _) hlt
    exact hcondition.1 ((retains_iff (by omega)).mp hretained)
  · rintro (hstart | hrefuses) window hwindow
    · exact sampledWindow_retained hstart hwindow
    · obtain ⟨hlt, hend, hchannels, walks, hloop, -⟩ := not_refuses_of_ok hwindow
      have hlength : capture.chunks.length - capture.state.manifest.firstSequence =
          capture.state.manifest.committedChunks - capture.state.manifest.firstSequence := by
        rw [capture.count]
      have hreads := (walkLoop_ok_iff hlt hlength (channels.map fun _ => .fresh)).mp ⟨walks, hloop⟩
      exact absurd hrefuses (not_refuses_iff.mpr ⟨hlt, hend, hchannels, hreads⟩)

end Walk

end FinalizedCapture

/-- For every run of a store, its closing and its reclamations: a window that is read holds retained samples
only and the levels that were appended, exactly when it starts at a retained sample or the request is refused. -/
theorem random_reads_after_reclamation {floats : FloatOps} {digest : Digest} {descriptor : CaptureStoreDescriptor}
    {repository : Repository} {created system : CaptureSystem} {actions : List StoreAction}
    (hcreate : CaptureSystem.create digest descriptor repository = .ok created)
    (hrun : created.run digest descriptor actions = some system) (metadata : Option (CaptureSessionMetadata floats))
    (closing : List CloseCall) (calls : List ReclaimCall) (refused : Nat → Option RepositoryError)
    (channels : List Nat) (startSample endSample : Nat) :
    (∀ window, ((CaptureSession.ofRun hcreate hrun).behind metadata closing calls).sampledWindow refused channels
        startSample endSample = .ok window →
      ((CaptureSession.ofRun hcreate hrun).behind metadata closing calls).ReadsRetained (levelAt system.committed)
        channels startSample endSample window) ↔
      ((CaptureSession.ofRun hcreate hrun).behind metadata closing calls).retainedStart ≤ startSample ∨
        ((CaptureSession.ofRun hcreate hrun).behind metadata closing calls).Refuses refused channels startSample
          endSample := by
  have hchunks : _ = system.committed := (CaptureSession.ofRun hcreate hrun).behind_chunks metadata closing calls
  rw [← hchunks]
  exact FinalizedCapture.sampledWindow_iff

theorem FinalizedCapture.Intact.answers {floats : FloatOps} {digest : Digest} {capture : FinalizedCapture floats digest}
    (h : capture.Intact) {channels : List Nat} (hwindow : startSample < endSample)
    (hend : endSample ≤ capture.state.manifest.committedSamples)
    (hchannels : ∀ channel ∈ channels, channel < capture.descriptor.channels.length) :
    ∃ window, capture.sampledWindow (fun _ => none) channels startSample endSample = .ok window := by
  apply sampledWindow_of_not_refuses
  refine not_refuses_iff.mpr ⟨hwindow, hend, hchannels, ?_⟩
  rintro i ⟨hfirst, hi, -⟩
  exact ⟨_, h.readable i _ hfirst (List.getElem?_eq_getElem hi)⟩

variable {capture : FinalizedCapture noRates tailDigest}

theorem FinalizedCapture.Intact.answers_quads (h : capture.Intact) (hchunks : capture.chunks = twoQuads)
    (hwindow : startSample < endSample) (hend : endSample ≤ 8) :
    ∃ window, capture.sampledWindow (fun _ => none) [0] startSample endSample = .ok window := by
  have hsamples : capture.state.manifest.committedSamples = 8 := by
    rw [capture.samples, hchunks]
    rfl
  have hfirst : capture.chunks[0]? = some (quadChunk 0 (Nat.two_pow_pos 32)) := by
    rw [hchunks]
    rfl
  have hchannels := (capture.contiguous.getElem hfirst).channels
  apply h.answers hwindow (hsamples ▸ hend)
  intro channel hmem
  rw [← hchannels, List.mem_singleton.mp hmem]
  decide

theorem quads_behind_reclamation {created system : CaptureSystem}
    (hcreate : CaptureSystem.create tailDigest quadDescriptor .empty = .ok created)
    (hrun : created.run tailDigest quadDescriptor twoQuadActions = some system)
    (hcommitted : system.committed = twoQuads)
    (hcapture : capture = (CaptureSession.ofRun hcreate hrun).behind (some quietMetadata) [finalizeAs none] [.free 4]) :
    capture.chunks = twoQuads ∧ capture.Intact ∧ capture.state.manifest.firstSequence = 1 := by
  have hwhole := ((CaptureSession.ofRun hcreate hrun).handle_whole quietMetadata).closeRun [finalizeAs none]
  have hclosed := (@FinalizedCapture.closeRun_chunks _ _ ((CaptureSession.ofRun hcreate hrun).handle
    (some quietMetadata)) [finalizeAs none]).trans hcommitted
  have hchunks := ((CaptureSession.ofRun hcreate hrun).behind_chunks (some quietMetadata) [finalizeAs none]
    [.free 4]).trans hcommitted
  rw [← hcapture] at hchunks
  rw [CaptureSession.behind] at hcapture
  generalize ((CaptureSession.ofRun hcreate hrun).handle (some quietMetadata)).closeRun [finalizeAs none] = closed
    at hwhole hclosed hcapture
  subst hcapture
  have hfirst := hwhole.retained
  have hstop := @FinalizedCapture.reclaim_free_first _ _ closed hwhole.intact 4 (by rw [hfirst, hclosed]; decide)
  rw [hfirst, hclosed] at hstop
  refine ⟨hchunks, FinalizedCapture.reclaim_intact hwhole.intact (Or.inr ⟨rfl, fun _ _ _ _ _ => ⟨rfl, fun _ => rfl⟩⟩), ?_⟩
  have hlow := (hstop 0 _ (Nat.le_refl _) rfl).mp (by decide)
  have hhigh := mt (hstop 1 _ (Nat.zero_le _) rfl).mpr (by decide)
  show (closed.reclaim (.free 4)).1.state.manifest.firstSequence = 1
  omega

theorem random_reads_after_reclamation_quads : ∃ (created system : CaptureSystem)
    (hcreate : CaptureSystem.create tailDigest quadDescriptor .empty = .ok created)
    (hrun : created.run tailDigest quadDescriptor twoQuadActions = some system),
    system.committed = twoQuads ∧ ∃ window,
      ((CaptureSession.ofRun hcreate hrun).behind (some quietMetadata) [finalizeAs none] [.free 4]).sampledWindow
        (fun _ => none) [0] 4 8 = .ok window ∧
      ((CaptureSession.ofRun hcreate hrun).behind (some quietMetadata) [finalizeAs none] [.free 4]).ReadsRetained
        (levelAt system.committed) [0] 4 8 window := by
  obtain ⟨created, system, hcreate, hrun, hcommitted⟩ := twoQuadStore_committed
  obtain ⟨hchunks, hintact, hfirst⟩ := quads_behind_reclamation hcreate hrun hcommitted rfl
  have hiff := random_reads_after_reclamation hcreate hrun (some quietMetadata) [finalizeAs none] [.free 4]
    (fun _ => none) [0] 4 8
  refine ⟨created, system, hcreate, hrun, hcommitted, ?_⟩
  generalize (CaptureSession.ofRun hcreate hrun).behind (some quietMetadata) [finalizeAs none] [.free 4] = capture
    at hchunks hintact hfirst hiff ⊢
  obtain ⟨window, hwindow⟩ := hintact.answers_quads hchunks (show 4 < 8 by decide) (Nat.le_refl 8)
  have hretained : capture.retainedStart ≤ 4 := by
    rw [FinalizedCapture.retainedStart, hchunks, hfirst]
    decide
  exact ⟨window, hwindow, hiff.mpr (Or.inl hretained) window hwindow⟩

/-- A window from the first sample on is read after the first chunk is gone. -/
theorem reads_reclaimed_samples : ∃ (created system : CaptureSystem)
    (hcreate : CaptureSystem.create tailDigest quadDescriptor .empty = .ok created)
    (hrun : created.run tailDigest quadDescriptor twoQuadActions = some system),
    system.committed = twoQuads ∧ ∃ window,
      ((CaptureSession.ofRun hcreate hrun).behind (some quietMetadata) [finalizeAs none] [.free 4]).sampledWindow
        (fun _ => none) [0] 0 8 = .ok window ∧ window.startSample = 0 ∧
      ¬((CaptureSession.ofRun hcreate hrun).behind (some quietMetadata) [finalizeAs none] [.free 4]).Retains 0 := by
  obtain ⟨created, system, hcreate, hrun, hcommitted⟩ := twoQuadStore_committed
  obtain ⟨hchunks, hintact, hfirst⟩ := quads_behind_reclamation hcreate hrun hcommitted rfl
  refine ⟨created, system, hcreate, hrun, hcommitted, ?_⟩
  generalize (CaptureSession.ofRun hcreate hrun).behind (some quietMetadata) [finalizeAs none] [.free 4] = capture
    at hchunks hintact hfirst ⊢
  obtain ⟨window, hwindow⟩ := hintact.answers_quads hchunks (show 0 < 8 by decide) (Nat.le_refl 8)
  obtain ⟨-, -, -, walks, -, hanswer⟩ := FinalizedCapture.not_refuses_of_ok hwindow
  refine ⟨window, hwindow, by rw [hanswer], ?_⟩
  rw [FinalizedCapture.retains_iff (by rw [hchunks]; decide), FinalizedCapture.retainedStart, hchunks, hfirst]
  decide

end LogicConduit
