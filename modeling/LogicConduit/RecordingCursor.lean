import LogicConduit.CaptureChunks
import LogicConduit.Artifacts

namespace LogicConduit

inductive CaptureStoreError
  | invalidConfig (message : String)
  | invalidChunk (message : String)
  | writerFailed (message : String)
  | corrupt (message : String)
  | repository (error : RepositoryError)
  | outOfMemory
  deriving DecidableEq

def CaptureStoreError.display : CaptureStoreError → String
  | .invalidConfig message => s!"invalid capture-store configuration: {message}"
  | .invalidChunk message => s!"invalid capture chunk: {message}"
  | .writerFailed message => s!"capture store failed: {message}"
  | .corrupt message => s!"corrupt capture store: {message}"
  | .repository error => s!"capture artifact repository failed: {error.display}"
  | .outOfMemory => "capacity overflow"

inductive CaptureCursorItem
  | chunk (chunk : CaptureChunk)
  | pending
  | finished
  deriving DecidableEq

abbrev CursorResult := Except CaptureStoreError CaptureCursorItem

inductive RecordingGateState
  | pending
  | origin (sample : Nat)
  | noRecording
  deriving DecidableEq

def RecordingGateState.resolve (state resolution : RecordingGateState) : RecordingGateState :=
  if state ≠ .pending then state else resolution

/-- Where a call of `RecordingCaptureCursor` stands between two accesses to what it shares. -/
inductive CursorPhase
  | idle
  -- `wait_next` sleeps on the gate
  | gateWait
  -- `next` is about to read the gate
  | entering
  -- the loop of `next` is about to ask the raw cursor
  | nextCall
  -- `wait_next` is about to ask the raw cursor
  | waitCall
  -- an item has come from the raw cursor and `translate` is about to read the gate
  | translating (item : CaptureCursorItem) (waiting : Bool)
  deriving DecidableEq

/-- The raw chunk that a call has taken and not yet handled. -/
def CursorPhase.inFlight : CursorPhase → List CaptureChunk
  | .translating (.chunk chunk) _ => [chunk]
  | _ => []

/-- A recording cursor and its gate, with the chunks the raw cursor has given so far and what every
call has returned, beside the state of the gate that the call saw last. -/
structure RecordingSystem where
  gate : RecordingGateState
  phase : CursorPhase
  outputSequence : Nat
  raw : List CaptureChunk
  returns : List (RecordingGateState × CursorResult)

inductive RecordingAction
  | resolveTrigger (sample : Nat)
  | finishWithoutTrigger
  | next
  | waitNext
  -- the gate has been resolved or the timeout is over
  | wake
  | enter
  | answer (result : CursorResult)
  | translate

namespace RecordingSystem

def new (gate : RecordingGateState) : RecordingSystem :=
  ⟨gate, .idle, 0, [], []⟩

def reply (system : RecordingSystem) (result : CursorResult) : RecordingSystem :=
  { system with phase := .idle, returns := system.returns ++ [(system.gate, result)] }

def translateItem (gate : RecordingGateState) (outputSequence : Nat) (item : CaptureCursorItem) :
    Except CaptureStoreError (Option CaptureCursorItem × Nat) :=
  match gate with
  | .pending => .ok (some .pending, outputSequence)
  | .noRecording => .ok (some .finished, outputSequence)
  | .origin originSample =>
    match item with
    | .chunk chunk =>
      match chunk.recordingSlice originSample outputSequence with
      | .error error => .error (.invalidChunk error.display)
      | .ok (some slice) => .ok (some (.chunk slice), outputSequence + 1)
      | .ok none => .ok (none, outputSequence)
    | item => .ok (some item, outputSequence)

def readGate (system : RecordingSystem) (phase : CursorPhase) : RecordingSystem :=
  match system.gate with
  | .pending => system.reply (.ok .pending)
  | .noRecording => system.reply (.ok .finished)
  | .origin _ => { system with phase := phase }

def receive (system : RecordingSystem) (waiting : Bool) : CursorResult → RecordingSystem
  | .error error => system.reply (.error error)
  | .ok item =>
    { system with
      phase := .translating item waiting
      raw := system.raw ++ (CursorPhase.translating item waiting).inFlight }

def handle (system : RecordingSystem) (item : CaptureCursorItem) (waiting : Bool) : RecordingSystem :=
  match translateItem system.gate system.outputSequence item with
  | .error error => system.reply (.error error)
  | .ok (some item, outputSequence) => { system with outputSequence := outputSequence }.reply (.ok item)
  | .ok (none, outputSequence) =>
    { system with
      outputSequence := outputSequence
      phase := if waiting then .entering else .nextCall }

/-- The gate resolves at any time; the calls of the one cursor follow each other. -/
def step (system : RecordingSystem) : RecordingAction → Option RecordingSystem
  | .resolveTrigger sample => some { system with gate := system.gate.resolve (.origin sample) }
  | .finishWithoutTrigger => some { system with gate := system.gate.resolve .noRecording }
  | .next => if system.phase = .idle then some { system with phase := .entering } else none
  | .waitNext => if system.phase = .idle then some { system with phase := .gateWait } else none
  | .wake => if system.phase = .gateWait then some (system.readGate .waitCall) else none
  | .enter => if system.phase = .entering then some (system.readGate .nextCall) else none
  | .answer result =>
    match system.phase with
    | .nextCall => some (system.receive false result)
    | .waitCall => some (system.receive true result)
    | _ => none
  | .translate =>
    match system.phase with
    | .translating item waiting => some (system.handle item waiting)
    | _ => none

def run : RecordingSystem → List RecordingAction → Option RecordingSystem
  | system, [] => some system
  | system, action :: actions => (system.step action).bind fun next => run next actions

def chunkOf (entry : RecordingGateState × CursorResult) : Option CaptureChunk :=
  match entry.2 with
  | .ok (.chunk chunk) => some chunk
  | _ => none

def delivered (system : RecordingSystem) : List CaptureChunk :=
  system.returns.filterMap chunkOf

def AsSeen : RecordingGateState × CursorResult → Prop
  | (.pending, result) => result = .ok .pending
  | (.noRecording, result) => result = .ok .finished
  | (.origin _, _) => True

/-- The chunks handled by `received` behind the origin, numbered from it. Every chunk but those that
end before the origin has been delivered, so a call skips only a bounded number of chunks. -/
structure RebasedTo (descriptor : CaptureStoreDescriptor) (base originSample : Nat)
    (received delivered : List CaptureChunk) : Prop where
  contiguous : ContiguousFrom descriptor 0 (base - originSample) delivered
  samples : timeline delivered = (timeline received).drop (originSample - base)
  skipped : received.length ≤ delivered.length + (originSample - base)

/-- What holds between any two steps, the raw chunks being a stream from sample `base` on. -/
structure Sound (descriptor : CaptureStoreDescriptor) (base : Nat) (system : RecordingSystem) : Prop where
  sequence : system.outputSequence = system.delivered.length
  seen : ∀ entry ∈ system.returns, AsSeen entry
  unread : (∀ originSample, system.gate ≠ .origin originSample) →
    system.raw = [] ∧ system.delivered = [] ∧
      (system.phase = .idle ∨ system.phase = .gateWait ∨ system.phase = .entering)
  rebased : ∀ originSample, system.gate = .origin originSample → ∃ received,
    system.raw = received ++ system.phase.inFlight ∧
      RebasedTo descriptor base originSample received system.delivered

variable {descriptor : CaptureStoreDescriptor} {first base : Nat} {system next : RecordingSystem}

theorem RebasedTo.nil (originSample : Nat) : RebasedTo descriptor base originSample [] [] :=
  ⟨trivial, by simp, by simp⟩

variable {originSample : Nat}

variable {received delivered : List CaptureChunk}

section

variable (h : RebasedTo descriptor base originSample received delivered)
include h

theorem RebasedTo.skip {chunk : CaptureChunk}
    (hc : ContinuesSession descriptor (first + received.length) (base + (timeline received).length) chunk)
    (hend : chunk.endSample ≤ originSample) :
    RebasedTo descriptor base originSample (received ++ [chunk]) delivered := by
  have hstart := hc.startSample
  have hpos := chunk.samples_pos
  have hlen := length_le_timeline (received ++ [chunk])
  simp only [timeline_append, timeline_cons, timeline_nil, List.append_nil, List.length_append,
    CaptureChunk.samples_length, List.length_cons, List.length_nil] at hlen
  rw [CaptureChunk.endSample, hstart] at hend
  refine ⟨h.contiguous, ?_, ?_⟩
  · rw [h.samples, List.drop_of_length_le (by omega), List.drop_of_length_le]
    simp only [timeline_append, timeline_cons, timeline_nil, List.append_nil, List.length_append,
      CaptureChunk.samples_length]
    omega
  · rw [List.length_append, List.length_singleton]
    omega

theorem RebasedTo.deliver {chunk slice : CaptureChunk}
    (hc : ContinuesSession descriptor (first + received.length) (base + (timeline received).length) chunk)
    (hs : CaptureChunk.SliceOf chunk originSample delivered.length slice) :
    RebasedTo descriptor base originSample (received ++ [chunk]) (delivered ++ [slice]) := by
  have hstart := hc.startSample
  have hlength : (timeline delivered).length = (timeline received).length - (originSample - base) := by
    rw [h.samples, List.length_drop]
  have hskip := h.skipped
  refine ⟨contiguousFrom_append_singleton.mpr ⟨h.contiguous, ?_, ?_, ?_, ?_⟩, ?_, ?_⟩
  · rw [hs.sessionId, hc.sessionId]
  · rw [hs.channels, hc.channels]
  · rw [hs.sequence, Nat.zero_add]
  · rw [hs.startSample]
    omega
  · have hrest : originSample - base - (timeline received).length = originSample - chunk.startSample := by
      omega
    rw [timeline_append, timeline_append, List.drop_append, ← h.samples, hrest]
    simp [hs.samples]
  · rw [List.length_append, List.length_append, List.length_singleton, List.length_singleton]
    omega

end

theorem delivered_reply (system : RecordingSystem) (result : CursorResult) :
    (system.reply result).delivered = system.delivered ++ (chunkOf (system.gate, result)).toList := by
  cases hchunk : chunkOf (system.gate, result) with
  | none => simp [delivered, reply, hchunk]
  | some chunk => simp [delivered, reply, hchunk]

variable {result : CursorResult}

theorem seen_reply (hseen : ∀ entry ∈ system.returns, AsSeen entry) (h : AsSeen (system.gate, result)) :
    ∀ entry ∈ (system.reply result).returns, AsSeen entry := by
  intro entry hentry
  rcases List.mem_append.mp hentry with hold | hnew
  · exact hseen entry hold
  · rw [List.mem_singleton.mp hnew]
    exact h

section

variable (h : Sound descriptor base system)
include h

variable {phase : CursorPhase}

theorem Sound.reply (hfree : system.phase.inFlight = [])
    (hr : AsSeen (system.gate, result)) (hchunk : chunkOf (system.gate, result) = none) :
    Sound descriptor base (system.reply result) := by
  have hsame : (system.reply result).delivered = system.delivered := by
    rw [delivered_reply, hchunk]
    simp
  refine ⟨?_, seen_reply h.seen hr, ?_, ?_⟩
  · rw [hsame]
    exact h.sequence
  · intro hno
    obtain ⟨hraw, hnone, -⟩ := h.unread hno
    exact ⟨hraw, hsame.trans hnone, Or.inl rfl⟩
  · intro originSample horigin
    obtain ⟨received, hraw, hrebased⟩ := h.rebased originSample horigin
    refine ⟨received, ?_, ?_⟩
    · rw [hfree] at hraw
      exact hraw
    · rwa [hsame]

theorem Sound.move (hfree : system.phase.inFlight = []) (hnext : phase.inFlight = [])
    (hphase : (∀ originSample, system.gate ≠ .origin originSample) →
      phase = .idle ∨ phase = .gateWait ∨ phase = .entering) :
    Sound descriptor base { system with phase := phase } := by
  refine ⟨h.sequence, h.seen, ?_, ?_⟩
  · intro hno
    obtain ⟨hraw, hnone, -⟩ := h.unread hno
    exact ⟨hraw, hnone, hphase hno⟩
  · intro originSample horigin
    obtain ⟨received, hraw, hrebased⟩ := h.rebased originSample horigin
    refine ⟨received, ?_, hrebased⟩
    rw [hfree] at hraw
    rw [hnext]
    exact hraw

theorem Sound.resolve {resolution : RecordingGateState} :
    Sound descriptor base { system with gate := system.gate.resolve resolution } := by
  by_cases hpending : system.gate = .pending
  · obtain ⟨hraw, hnone, hphase⟩ := h.unread fun originSample => by simp [hpending]
    have hfree : system.phase.inFlight = [] := by
      rcases hphase with hphase | hphase | hphase <;> rw [hphase] <;> rfl
    refine ⟨h.sequence, h.seen, fun _ => ⟨hraw, hnone, hphase⟩, ?_⟩
    intro originSample _
    refine ⟨[], by rw [hraw, hfree]; rfl, ?_⟩
    rw [show delivered { system with gate := system.gate.resolve resolution } = [] from hnone]
    exact RebasedTo.nil originSample
  · rw [RecordingGateState.resolve, if_pos hpending]
    exact h

theorem Sound.readGate (hfree : system.phase.inFlight = []) (hnext : phase.inFlight = []) :
    Sound descriptor base (system.readGate phase) := by
  unfold RecordingSystem.readGate
  split
  next hgate => exact h.reply hfree (by rw [hgate]; rfl) rfl
  next hgate => exact h.reply hfree (by rw [hgate]; rfl) rfl
  next originSample hgate => exact h.move hfree hnext fun hno => absurd hgate (hno originSample)

theorem Sound.exists_origin (hidle : system.phase ≠ .idle)
    (hwait : system.phase ≠ .gateWait) (henter : system.phase ≠ .entering) :
    ∃ originSample, system.gate = .origin originSample := by
  by_contra hno
  obtain ⟨-, -, hphase⟩ := h.unread fun originSample hgate => hno ⟨originSample, hgate⟩
  rcases hphase with hphase | hphase | hphase
  · exact hidle hphase
  · exact hwait hphase
  · exact henter hphase

end

variable {waiting : Bool} {outputSequence : Nat}

theorem Sound.receive (h : Sound descriptor base system) (hgate : system.gate = .origin originSample)
    (hfree : system.phase.inFlight = []) : Sound descriptor base (system.receive waiting result) := by
  cases result with
  | error error => exact h.reply hfree (by rw [hgate]; trivial) rfl
  | ok item =>
    refine ⟨h.sequence, h.seen, fun hno => absurd hgate (hno originSample), ?_⟩
    intro other hother
    obtain ⟨received, hraw, hrebased⟩ := h.rebased other hother
    refine ⟨received, ?_, hrebased⟩
    rw [hfree, List.append_nil] at hraw
    rw [RecordingSystem.receive, hraw]

theorem handle_some {item result : CaptureCursorItem}
    (h : translateItem system.gate system.outputSequence item = .ok (some result, outputSequence)) :
    system.handle item waiting = { system with outputSequence := outputSequence }.reply (.ok result) := by
  rw [RecordingSystem.handle, h]

theorem handle_none {item : CaptureCursorItem}
    (h : translateItem system.gate system.outputSequence item = .ok (none, outputSequence)) :
    system.handle item waiting = { system with
      outputSequence := outputSequence
      phase := if waiting then .entering else .nextCall } := by
  rw [RecordingSystem.handle, h]

theorem Sound.handle_chunk {chunk : CaptureChunk} (h : Sound descriptor base system)
    (hgate : system.gate = .origin originSample) (hphase : system.phase = .translating (.chunk chunk) waiting)
    (hraw : ContiguousFrom descriptor first base system.raw) :
    Sound descriptor base (system.handle (.chunk chunk) waiting) := by
  obtain ⟨received, heq, hrebased⟩ := h.rebased originSample hgate
  rw [hphase] at heq
  have hchunk := (contiguousFrom_append_singleton.mp (heq ▸ hraw)).2
  have hunread : ∀ other, (∀ originSample, system.gate ≠ .origin originSample) → other :=
    fun _ hno => absurd hgate (hno originSample)
  rcases chunk.recordingSlice_spec originSample system.outputSequence with ⟨hend, hslice⟩ | ⟨-, slice, hslice, hof⟩
  · have htranslate : translateItem system.gate system.outputSequence (.chunk chunk) =
        .ok (none, system.outputSequence) := by
      simp only [translateItem, hgate, hslice]
    rw [handle_none htranslate]
    refine ⟨h.sequence, h.seen, hunread _, ?_⟩
    intro other hother
    cases hgate.symm.trans hother
    refine ⟨received ++ [chunk], ?_, hrebased.skip hchunk hend⟩
    have hfree : (if waiting then CursorPhase.entering else CursorPhase.nextCall).inFlight = [] := by
      cases waiting <;> rfl
    rw [hfree, List.append_nil]
    exact heq
  · have htranslate : translateItem system.gate system.outputSequence (.chunk chunk) =
        .ok (some (.chunk slice), system.outputSequence + 1) := by
      simp only [translateItem, hgate, hslice]
    have hdelivered : ({ system with outputSequence := system.outputSequence + 1 }.reply
        (.ok (.chunk slice))).delivered = system.delivered ++ [slice] := by
      rw [delivered_reply]
      rfl
    rw [handle_some htranslate]
    refine ⟨?_, seen_reply h.seen (by rw [hgate]; trivial), hunread _, ?_⟩
    · rw [hdelivered, List.length_append, List.length_singleton, ← h.sequence]
      rfl
    · intro other hother
      cases hgate.symm.trans hother
      refine ⟨received ++ [chunk], ?_, ?_⟩
      · show system.raw = received ++ [chunk] ++ []
        rw [List.append_nil]
        exact heq
      · rw [hdelivered]
        rw [h.sequence] at hof
        exact hrebased.deliver hchunk hof

theorem Sound.handle {item : CaptureCursorItem} (h : Sound descriptor base system)
    (hphase : system.phase = .translating item waiting) (hraw : ContiguousFrom descriptor first base system.raw) :
    Sound descriptor base (system.handle item waiting) := by
  obtain ⟨originSample, hgate⟩ := h.exists_origin (by simp [hphase]) (by simp [hphase]) (by simp [hphase])
  have hpass (hfree : system.phase.inFlight = []) (hnone : chunkOf (system.gate, .ok item) = none) :
      Sound descriptor base (system.reply (.ok item)) :=
    h.reply hfree (by rw [hgate]; trivial) hnone
  cases item with
  | chunk chunk => exact h.handle_chunk hgate hphase hraw
  | pending =>
    have htranslate : translateItem system.gate system.outputSequence .pending =
        .ok (some .pending, system.outputSequence) := by
      rw [hgate]
      rfl
    rw [handle_some htranslate]
    exact hpass (by rw [hphase]; rfl) rfl
  | finished =>
    have htranslate : translateItem system.gate system.outputSequence .finished =
        .ok (some .finished, system.outputSequence) := by
      rw [hgate]
      rfl
    rw [handle_some htranslate]
    exact hpass (by rw [hphase]; rfl) rfl

variable {action : RecordingAction}

theorem step_cases (hstep : system.step action = some next) :
    (∃ resolution, next = { system with gate := system.gate.resolve resolution }) ∨
    (∃ phase, system.phase = .idle ∧ (phase = .entering ∨ phase = .gateWait) ∧
      next = { system with phase := phase }) ∨
    (∃ phase, (system.phase = .gateWait ∨ system.phase = .entering) ∧ (phase = .waitCall ∨ phase = .nextCall) ∧
      next = system.readGate phase) ∨
    (∃ waiting result, (system.phase = .nextCall ∨ system.phase = .waitCall) ∧
      next = system.receive waiting result) ∨
    (∃ item waiting, system.phase = .translating item waiting ∧ next = system.handle item waiting) := by
  cases action with
  | resolveTrigger sample => exact Or.inl ⟨_, (Option.some.inj hstep).symm⟩
  | finishWithoutTrigger => exact Or.inl ⟨_, (Option.some.inj hstep).symm⟩
  | next =>
    obtain ⟨hphase, heq⟩ := Option.ite_none_right_eq_some.mp hstep
    exact Or.inr (Or.inl ⟨_, hphase, Or.inl rfl, (Option.some.inj heq).symm⟩)
  | waitNext =>
    obtain ⟨hphase, heq⟩ := Option.ite_none_right_eq_some.mp hstep
    exact Or.inr (Or.inl ⟨_, hphase, Or.inr rfl, (Option.some.inj heq).symm⟩)
  | wake =>
    obtain ⟨hphase, heq⟩ := Option.ite_none_right_eq_some.mp hstep
    exact Or.inr (Or.inr (Or.inl ⟨_, Or.inl hphase, Or.inl rfl, (Option.some.inj heq).symm⟩))
  | enter =>
    obtain ⟨hphase, heq⟩ := Option.ite_none_right_eq_some.mp hstep
    exact Or.inr (Or.inr (Or.inl ⟨_, Or.inr hphase, Or.inr rfl, (Option.some.inj heq).symm⟩))
  | answer result =>
    simp only [RecordingSystem.step] at hstep
    split at hstep
    next hphase =>
      exact Or.inr (Or.inr (Or.inr (Or.inl ⟨_, _, Or.inl hphase, (Option.some.inj hstep).symm⟩)))
    next hphase =>
      exact Or.inr (Or.inr (Or.inr (Or.inl ⟨_, _, Or.inr hphase, (Option.some.inj hstep).symm⟩)))
    next => cases hstep
  | translate =>
    simp only [RecordingSystem.step] at hstep
    split at hstep
    next item waiting hphase =>
      exact Or.inr (Or.inr (Or.inr (Or.inr ⟨item, waiting, hphase, (Option.some.inj hstep).symm⟩)))
    next => cases hstep

theorem Sound.step (h : Sound descriptor base system) (hraw : ContiguousFrom descriptor first base system.raw)
    (hstep : system.step action = some next) : Sound descriptor base next := by
  rcases step_cases hstep with ⟨resolution, rfl⟩ | ⟨phase, hidle, hphase, rfl⟩ | ⟨phase, hbefore, hphase, rfl⟩ |
    ⟨waiting, result, hcall, rfl⟩ | ⟨item, waiting, hphase, rfl⟩
  · exact h.resolve
  · apply h.move (by rw [hidle]; rfl)
    · rcases hphase with rfl | rfl <;> rfl
    · intro _
      rcases hphase with rfl | rfl
      · exact Or.inr (Or.inr rfl)
      · exact Or.inr (Or.inl rfl)
  · apply h.readGate
    · rcases hbefore with hbefore | hbefore <;> rw [hbefore] <;> rfl
    · rcases hphase with rfl | rfl <;> rfl
  · rcases hcall with hcall | hcall
    · obtain ⟨originSample, hgate⟩ := h.exists_origin (by simp [hcall]) (by simp [hcall]) (by simp [hcall])
      exact h.receive hgate (by rw [hcall]; rfl)
    · obtain ⟨originSample, hgate⟩ := h.exists_origin (by simp [hcall]) (by simp [hcall]) (by simp [hcall])
      exact h.receive hgate (by rw [hcall]; rfl)
  · exact h.handle hphase hraw

theorem readGate_raw (system : RecordingSystem) (phase : CursorPhase) :
    (system.readGate phase).raw = system.raw := by
  unfold RecordingSystem.readGate
  split <;> rfl

theorem handle_raw (system : RecordingSystem) (item : CaptureCursorItem) (waiting : Bool) :
    (system.handle item waiting).raw = system.raw := by
  unfold RecordingSystem.handle
  split <;> rfl

theorem raw_prefix_step (hstep : system.step action = some next) : system.raw <+: next.raw := by
  rcases step_cases hstep with ⟨resolution, rfl⟩ | ⟨phase, -, -, rfl⟩ | ⟨phase, -, -, rfl⟩ |
    ⟨waiting, result, -, rfl⟩ | ⟨item, waiting, -, rfl⟩
  · exact List.prefix_refl _
  · exact List.prefix_refl _
  · exact ⟨[], by rw [readGate_raw, List.append_nil]⟩
  · cases result with
    | error error => exact List.prefix_refl _
    | ok item => exact List.prefix_append _ _
  · exact ⟨[], by rw [handle_raw, List.append_nil]⟩

variable {actions : List RecordingAction}

theorem raw_prefix_run (hrun : system.run actions = some next) : system.raw <+: next.raw := by
  induction actions generalizing system with
  | nil => cases hrun; exact List.prefix_refl _
  | cons action actions ih =>
    obtain ⟨middle, hstep, hrest⟩ := Option.bind_eq_some_iff.mp hrun
    exact (raw_prefix_step hstep).trans (ih hrest)

theorem Sound.run (h : Sound descriptor base system) (hrun : system.run actions = some next)
    (hraw : ContiguousFrom descriptor first base next.raw) : Sound descriptor base next := by
  induction actions generalizing system with
  | nil => cases hrun; exact h
  | cons action actions ih =>
    obtain ⟨middle, hstep, hrest⟩ := Option.bind_eq_some_iff.mp hrun
    have hbefore := hraw.of_prefix ((raw_prefix_step hstep).trans (raw_prefix_run hrest))
    exact ih (h.step hbefore hstep) hrest

theorem Sound.new (gate : RecordingGateState) : Sound descriptor base (new gate) := by
  refine ⟨rfl, ?_, fun _ => ⟨rfl, rfl, Or.inl rfl⟩, fun originSample _ => ⟨[], rfl, RebasedTo.nil originSample⟩⟩
  intro entry hentry
  cases hentry

end RecordingSystem

/-- In every run: nothing is read or delivered before the gate resolves, a gate without a recording
gives its end, and behind an origin the delivered chunks are the samples of the raw stream from the
origin on, numbered from zero. -/
theorem recording_cursor_rebases {descriptor : CaptureStoreDescriptor} {first base : Nat}
    {gate : RecordingGateState} {actions : List RecordingAction} {final : RecordingSystem}
    (hrun : (RecordingSystem.new gate).run actions = some final)
    (hraw : ContiguousFrom descriptor first base final.raw) :
    (∀ entry ∈ final.returns, entry.1 = .pending → entry.2 = .ok .pending) ∧
    (∀ entry ∈ final.returns, entry.1 = .noRecording → entry.2 = .ok .finished) ∧
    ((∀ originSample, final.gate ≠ .origin originSample) → final.raw = [] ∧ final.delivered = []) ∧
    ∀ originSample, final.gate = .origin originSample → ∃ received,
      final.raw = received ++ final.phase.inFlight ∧
      ContiguousFrom descriptor 0 (base - originSample) final.delivered ∧
      timeline final.delivered = (timeline received).drop (originSample - base) ∧
      received.length ≤ final.delivered.length + (originSample - base) := by
  have hsound := (RecordingSystem.Sound.new gate).run hrun hraw
  refine ⟨?_, ?_, ?_, ?_⟩
  · rintro ⟨seen, result⟩ hentry rfl
    exact hsound.seen _ hentry
  · rintro ⟨seen, result⟩ hentry rfl
    exact hsound.seen _ hentry
  · intro hno
    obtain ⟨hnone, hdelivered, -⟩ := hsound.unread hno
    exact ⟨hnone, hdelivered⟩
  · intro originSample horigin
    obtain ⟨received, heq, hrebased⟩ := hsound.rebased originSample horigin
    exact ⟨received, heq, hrebased.contiguous, hrebased.samples, hrebased.skipped⟩

def quadChunk (sequence : Nat) (h : sequence < 2 ^ 32) : CaptureChunk where
  sessionId := 1
  sequence := sequence
  startSample := 4 * sequence
  sampleCount := 4
  channels := ["opaque:7"]
  bytes := [0b00001010]
  bitOffset := 0
  channels_ne := by decide
  samples_pos := by decide
  bitOffset_lt := by decide
  endSample_lt := by omega
  bytes_lt := by decide
  bits_le := by decide

def quadDescriptor : CaptureStoreDescriptor := ⟨1, ["opaque:7"], by decide⟩

/-- A call before the trigger, the trigger at sample 6, and a call of each kind after it. -/
def triggeredActions : List RecordingAction :=
  [.next, .enter, .waitNext, .resolveTrigger 6, .wake, .answer (.ok (.chunk (quadChunk 0 (by decide)))), .translate,
    .enter, .answer (.ok (.chunk (quadChunk 1 (by decide)))), .translate,
    .next, .enter, .answer (.ok (.chunk (quadChunk 2 (by decide)))), .translate]

def triggeredRun : Option RecordingSystem := (RecordingSystem.new .pending).run triggeredActions

theorem recording_cursor_rebases_trigger : ∃ final, triggeredRun = some final ∧ final.delivered.length = 2 ∧
    ContiguousFrom quadDescriptor 0 0 final.delivered ∧
    timeline final.delivered = (timeline final.raw).drop 6 := by
  have hsome : triggeredRun.isSome = true := by decide
  obtain ⟨final, hrun⟩ := Option.isSome_iff_exists.mp hsome
  have hgate : triggeredRun.map RecordingSystem.gate = some (.origin 6) := by decide
  have hphase : triggeredRun.map RecordingSystem.phase = some .idle := by decide
  have hcount : triggeredRun.map (fun final => final.delivered.length) = some 2 := by decide
  have hraw : triggeredRun.map RecordingSystem.raw = some [quadChunk 0 (by decide), quadChunk 1 (by decide),
    quadChunk 2 (by decide)] := by decide
  rw [hrun] at hgate hphase hcount hraw
  have hcontiguous : ContiguousFrom quadDescriptor 0 0 final.raw := by
    rw [Option.some.inj hraw]
    exact ⟨⟨rfl, rfl, rfl, rfl⟩, ⟨rfl, rfl, rfl, rfl⟩, ⟨rfl, rfl, rfl, rfl⟩, trivial⟩
  obtain ⟨-, -, -, horigin⟩ := recording_cursor_rebases hrun hcontiguous
  obtain ⟨received, heq, hdelivered, hsamples, -⟩ := horigin 6 (Option.some.inj hgate)
  rw [show final.phase = .idle from Option.some.inj hphase] at heq
  refine ⟨final, hrun, Option.some.inj hcount, hdelivered, ?_⟩
  rw [heq]
  exact hsamples.trans (by simp [CursorPhase.inFlight])

end LogicConduit
