import LogicConduit.TransformNodes

namespace LogicConduit

namespace LogicGate

def pendingEdge (gate : LogicGate) (inputs : List GateInput) : Option (Nat × Sample) :=
  match gate.missingInput inputs with
  | some _ => none
  | none =>
    match gate.fillInputs inputs (List.range gate.levels.length) with
    | (.ok (), filled, _) => earliest Sample.startTimeNs (pendingHeads filled.heads)
    | (.error _, _, _) => none

/-- The first call finds an edge that changes the output it just emitted. -/
def StartsWithChange (gate : LogicGate) (inputs : List GateInput) : Prop :=
  gate.started = false ∧ ∃ index sample, gate.pendingEdge inputs = some (index, sample) ∧
    gate.op.combine (gate.levels.set index sample.value) ≠ gate.op.combine gate.levels

variable (gate : LogicGate) (inputs : List GateInput)

def begun (started lastOut : Bool) : LogicGate := { gate with started := started, lastOut := lastOut }

theorem fillInput_begun (started lastOut : Bool) (index : Nat) :
    (gate.begun started lastOut).fillInput inputs index =
      ((gate.fillInput inputs index).1, (gate.fillInput inputs index).2.1.begun started lastOut,
        (gate.fillInput inputs index).2.2) := by
  unfold fillInput
  dsimp only [begun]
  by_cases hfull : (gate.heads[index]?.join.isSome || gate.eos[index]?.getD false) = true
  · simp only [hfull, if_true]
  · simp only [hfull, Bool.false_eq_true, if_false]
    cases inputs[index]? with
    | none => rfl
    | some input =>
      cases input with
      | missing => rfl
      | streamed inbox =>
        dsimp only
        generalize inbox.recv = received
        obtain ⟨result, next⟩ := received
        cases result with
        | ok sample => rfl
        | error error =>
          cases error
          rfl
      | query edges =>
        dsimp only
        generalize queryHead edges gate.queryCursors[index]?.join = head
        cases head with
        | error text => rfl
        | ok found =>
          cases found with
          | none => rfl
          | some edge => rfl

theorem fillInputs_begun (started lastOut : Bool) (indices : List Nat) :
    (gate.begun started lastOut).fillInputs inputs indices =
      ((gate.fillInputs inputs indices).1, (gate.fillInputs inputs indices).2.1.begun started lastOut,
        (gate.fillInputs inputs indices).2.2) := by
  induction indices generalizing gate inputs with
  | nil => rfl
  | cons index rest ih =>
    rw [fillInputs, fillInputs, fillInput_begun]
    obtain ⟨result, next, inputs'⟩ := gate.fillInput inputs index
    cases result with
    | ok value => exact ih next inputs'
    | error error => rfl

theorem fillInput_keeps (index : Nat) :
    (gate.fillInput inputs index).2.1.op = gate.op ∧ (gate.fillInput inputs index).2.1.levels = gate.levels ∧
      (gate.fillInput inputs index).2.1.lastOut = gate.lastOut := by
  unfold fillInput
  split
  · exact ⟨rfl, rfl, rfl⟩
  · split
    · split
      · exact ⟨rfl, rfl, rfl⟩
      · exact ⟨rfl, rfl, rfl⟩
      · exact ⟨rfl, rfl, rfl⟩
    · split
      · exact ⟨rfl, rfl, rfl⟩
      · exact ⟨rfl, rfl, rfl⟩
    · exact ⟨rfl, rfl, rfl⟩

theorem fillInputs_keeps (indices : List Nat) :
    (gate.fillInputs inputs indices).2.1.op = gate.op ∧ (gate.fillInputs inputs indices).2.1.levels = gate.levels ∧
      (gate.fillInputs inputs indices).2.1.lastOut = gate.lastOut := by
  induction indices generalizing gate inputs with
  | nil => exact ⟨rfl, rfl, rfl⟩
  | cons index rest ih =>
    have hone := gate.fillInput_keeps inputs index
    rw [fillInputs]
    generalize gate.fillInput inputs index = filled at hone
    obtain ⟨result, next, inputs'⟩ := filled
    cases result with
    | ok value =>
      obtain ⟨hop, hlevels, hout⟩ := ih next inputs'
      exact ⟨hop.trans hone.1, hlevels.trans hone.2.1, hout.trans hone.2.2⟩
    | error error => exact hone

def EdgeChanges : Prop :=
  ∃ index sample, earliest Sample.startTimeNs (pendingHeads gate.heads) = some (index, sample) ∧
    gate.op.combine (gate.levels.set index sample.value) ≠ gate.lastOut

section

variable (sent : List (ChannelMessage Sample))
include sent

theorem applyEdge_changes (h : gate.EdgeChanges) :
    (gate.applyEdge inputs sent).sent.length = sent.length + 1 := by
  obtain ⟨index, sample, hedge, hne⟩ := h
  rw [applyEdge, hedge]
  dsimp only
  rw [if_neg (by simpa using hne), List.length_append]
  rfl

theorem applyEdge_quiet (h : ¬gate.EdgeChanges) : (gate.applyEdge inputs sent).sent = sent := by
  rw [applyEdge]
  cases hedge : earliest Sample.startTimeNs (pendingHeads gate.heads) with
  | none => rfl
  | some edge =>
    obtain ⟨index, sample⟩ := edge
    have hsame : gate.op.combine (gate.levels.set index sample.value) = gate.lastOut := by
      by_contra hne
      exact h ⟨index, sample, hedge, hne⟩
    dsimp only
    rw [if_pos (by simpa using hsame)]

theorem applyEdge_le : (gate.applyEdge inputs sent).sent.length ≤ sent.length + 1 := by
  by_cases h : gate.EdgeChanges
  · rw [gate.applyEdge_changes inputs sent h]
  · rw [gate.applyEdge_quiet inputs sent h]
    exact Nat.le_succ _

end

theorem work_started (h : gate.started = true) (output : Bool) : (gate.work inputs output).sent.length ≤ 1 := by
  have hstart : gate.start = (gate, []) := if_pos h
  cases output with
  | false => exact Nat.zero_le 1
  | true =>
    rw [work, if_neg (by simp), hstart]
    dsimp only
    split
    · exact Nat.zero_le 1
    · split
      · exact Nat.zero_le 1
      · exact applyEdge_le _ _ []

theorem work_first (h : gate.started = false) :
    (gate.work inputs true).sent.length ≤ 1 ↔ ¬gate.StartsWithChange inputs := by
  have hstart : gate.start =
      (gate.begun true (gate.op.combine gate.levels), [.sample ⟨gate.op.combine gate.levels, 0⟩]) := by
    rw [start, h]
    rfl
  have hmissing : (gate.begun true (gate.op.combine gate.levels)).missingInput inputs = gate.missingInput inputs := rfl
  have hlevels : (gate.begun true (gate.op.combine gate.levels)).levels = gate.levels := rfl
  rw [work, if_neg (by simp), hstart, StartsWithChange, pendingEdge]
  dsimp only
  rw [hmissing, hlevels, fillInputs_begun]
  cases gate.missingInput inputs with
  | some index =>
    simp
  | none =>
    have hkeeps := gate.fillInputs_keeps inputs (List.range gate.levels.length)
    generalize gate.fillInputs inputs (List.range gate.levels.length) = filled at hkeeps
    obtain ⟨result, next, inputs'⟩ := filled
    obtain ⟨hop, hnext, -⟩ := hkeeps
    dsimp only at hop hnext
    cases result with
    | error error => simp
    | ok value =>
      have hchanges : (next.begun true (gate.op.combine gate.levels)).EdgeChanges ↔
          gate.started = false ∧ ∃ index sample,
            earliest Sample.startTimeNs (pendingHeads next.heads) = some (index, sample) ∧
            gate.op.combine (gate.levels.set index sample.value) ≠ gate.op.combine gate.levels := by
        rw [EdgeChanges, ← hop, ← hnext]
        exact ⟨fun hc => ⟨h, hc⟩, fun hc => hc.2⟩
      dsimp only
      rw [← hchanges]
      by_cases hc : (next.begun true (gate.op.combine gate.levels)).EdgeChanges
      · rw [applyEdge_changes _ _ _ hc]
        simp [hc]
      · rw [applyEdge_quiet _ _ _ hc]
        simp [hc]

/-- Only a first call that changes the output at once sends more than one envelope. -/
theorem work_sends_once_iff (output : Bool) :
    (gate.work inputs output).sent.length ≤ 1 ↔ ¬(output = true ∧ gate.StartsWithChange inputs) := by
  cases output with
  | false => simp [work]
  | true =>
    cases h : gate.started with
    | true =>
      have hnot : ¬gate.StartsWithChange inputs := by
        intro hs
        rw [hs.1] at h
        cases h
      exact ⟨fun _ hboth => hnot hboth.2, fun _ => gate.work_started inputs h true⟩
    | false => rw [gate.work_first inputs h, and_iff_right rfl]

end LogicGate

namespace SrLatch

def pendingEvent (latch : SrLatch) (inputs : LatchInputs) : Option (Nat × TimestampEvent) :=
  match latch.fillHeads inputs with
  | .ok (filled, _) => earliest TimestampEvent.timestampNs (pendingHeads [filled.setHead, filled.resetHead])
  | .error _ => none

/-- The first call finds an event that changes the state it just emitted. -/
def StartsWithChange (latch : SrLatch) (inputs : LatchInputs) : Prop :=
  latch.started = false ∧ ∃ index event, latch.pendingEvent inputs = some (index, event) ∧
    (index == 0) ≠ latch.initial

variable (latch : SrLatch) (inputs : LatchInputs)

def begun (started state : Bool) : SrLatch := { latch with started := started, state := state }

theorem fillHeads_begun (started state : Bool) :
    (latch.begun started state).fillHeads inputs =
      (latch.fillHeads inputs).map fun filled => (filled.1.begun started state, filled.2) := by
  unfold fillHeads
  dsimp only [begun]
  by_cases hmissing : (inputs.set.isNone || inputs.reset.isNone) = true
  · rw [if_pos hmissing, if_pos hmissing]
    rfl
  · rw [if_neg hmissing, if_neg hmissing]
    cases fillHead "Missing set/reset input" latch.setHead latch.setEos inputs.set with
    | error error => rfl
    | ok first =>
      cases fillHead "Missing set/reset input" latch.resetHead latch.resetEos inputs.reset with
      | error error => rfl
      | ok second => rfl

def EventChanges : Prop :=
  ∃ index event, earliest TimestampEvent.timestampNs (pendingHeads [latch.setHead, latch.resetHead]) =
    some (index, event) ∧ (index == 0) ≠ latch.state

section

variable (sent : List (ChannelMessage Sample))
include sent

theorem applyEvent_changes (h : latch.EventChanges) :
    (latch.applyEvent inputs sent).sent.length = sent.length + 1 := by
  obtain ⟨index, event, hevent, hne⟩ := h
  have hstate : ∀ taken : SrLatch, taken = (if index = 0 then { latch with setHead := none }
      else { latch with resetHead := none }) → taken.state = latch.state := by
    intro taken htaken
    rw [htaken]
    split
    · rfl
    · rfl
  rw [applyEvent, hevent]
  dsimp only
  rw [hstate _ rfl, if_neg (by simpa using hne), List.length_append]
  rfl

theorem applyEvent_quiet (h : ¬latch.EventChanges) : (latch.applyEvent inputs sent).sent = sent := by
  rw [applyEvent]
  cases hevent : earliest TimestampEvent.timestampNs (pendingHeads [latch.setHead, latch.resetHead]) with
  | none => rfl
  | some found =>
    obtain ⟨index, event⟩ := found
    have hsame : (index == 0) = latch.state := by
      by_contra hne
      exact h ⟨index, event, hevent, hne⟩
    have hstate : (if index = 0 then { latch with setHead := none } else { latch with resetHead := none }).state =
        latch.state := by
      split
      · rfl
      · rfl
    dsimp only
    rw [hstate, if_pos (by simpa using hsame)]

theorem applyEvent_le : (latch.applyEvent inputs sent).sent.length ≤ sent.length + 1 := by
  by_cases h : latch.EventChanges
  · rw [latch.applyEvent_changes inputs sent h]
  · rw [latch.applyEvent_quiet inputs sent h]
    exact Nat.le_succ _

end

theorem work_started (h : latch.started = true) (output : Bool) : (latch.work inputs output).sent.length ≤ 1 := by
  have hstart : latch.start = (latch, []) := if_pos h
  cases output with
  | false => exact Nat.zero_le 1
  | true =>
    rw [work, if_neg (by simp), hstart]
    dsimp only
    split
    · exact Nat.zero_le 1
    · exact applyEvent_le _ _ []

theorem work_first (h : latch.started = false) :
    (latch.work inputs true).sent.length ≤ 1 ↔ ¬latch.StartsWithChange inputs := by
  have hstart : latch.start = (latch.begun true latch.initial, [.sample ⟨latch.initial, 0⟩]) := by
    rw [start, h]
    rfl
  rw [work, if_neg (by simp), hstart, StartsWithChange, pendingEvent]
  dsimp only
  rw [fillHeads_begun]
  cases latch.fillHeads inputs with
  | error error => simp [Except.map]
  | ok filled =>
    obtain ⟨next, inputs'⟩ := filled
    have hchanges : (next.begun true latch.initial).EventChanges ↔
        latch.started = false ∧ ∃ index event,
          earliest TimestampEvent.timestampNs (pendingHeads [next.setHead, next.resetHead]) = some (index, event) ∧
          (index == 0) ≠ latch.initial :=
      ⟨fun hc => ⟨h, hc⟩, fun hc => hc.2⟩
    dsimp only [Except.map]
    rw [← hchanges]
    by_cases hc : (next.begun true latch.initial).EventChanges
    · rw [applyEvent_changes _ _ _ hc]
      simp [hc]
    · rw [applyEvent_quiet _ _ _ hc]
      simp [hc]

theorem work_sends_once_iff (output : Bool) :
    (latch.work inputs output).sent.length ≤ 1 ↔ ¬(output = true ∧ latch.StartsWithChange inputs) := by
  cases output with
  | false => simp [work]
  | true =>
    cases h : latch.started with
    | true =>
      have hnot : ¬latch.StartsWithChange inputs := by
        intro hs
        rw [hs.1] at h
        cases h
      exact ⟨fun _ hboth => hnot hboth.2, fun _ => latch.work_started inputs h true⟩
    | false => rw [latch.work_first inputs h, and_iff_right rfl]

end SrLatch

namespace EventGate

theorem work_sends_once (gate : EventGate) (inputs : EventGateInputs) (output : Bool) :
    (gate.work inputs output).sent.length ≤ 1 := by
  unfold work advance
  split
  · exact Nat.zero_le 1
  · dsimp only
    split
    · exact Nat.zero_le 1
    · split
      · exact Nat.zero_le 1
      · split
        · exact Nat.zero_le 1
        · split
          · exact Nat.zero_le 1
          · split
            · exact Nat.zero_le 1
            · exact Nat.le_refl 1

end EventGate

namespace EventControl

theorem work_sends_once (control : EventControl) (inputs : EventControlInputs) (output : Bool) :
    (control.work inputs output).sent.length ≤ 1 := by
  unfold work advance
  split
  · exact Nat.zero_le 1
  · dsimp only
    split
    · exact Nat.zero_le 1
    · split
      · exact Nat.zero_le 1
      · split
        · exact Nat.zero_le 1
        · split
          · exact Nat.zero_le 1
          · split
            · exact Nat.zero_le 1
            · exact Nat.le_refl 1

end EventControl

namespace PacketFramer

theorem batch_le (packets : List ProtocolPacket) :
    (if packets.isEmpty then [] else [ChannelMessage.batch packets]).length ≤ 1 := by
  split
  · exact Nat.zero_le 1
  · exact Nat.le_refl 1

theorem work_sends_once (framer : PacketFramer) (inputs : PacketFramerInputs) (output : Bool) :
    (framer.work inputs output).sent.length ≤ 1 := by
  unfold work
  split
  · exact Nat.zero_le 1
  · split
    · exact Nat.zero_le 1
    · split
      · exact Nat.zero_le 1
      · exact batch_le _

end PacketFramer

namespace WordMatcher

def pendingWord (matcher : WordMatcher) (inputs : WordMatcherInputs) : Option (Word × WordMatcher) :=
  match matcher.fillHeads inputs with
  | (.ok (), filled, _) =>
    if filled.rearmPrecedesWord then none
    else filled.wordHead.map fun word => (word, filled.applyScheduledSettings word.timestampNs)
  | (.error _, _, _) => none

def Pulses (matcher : WordMatcher) (inputs : WordMatcherInputs) : Prop :=
  ∃ word current, matcher.pendingWord inputs = some (word, current) ∧ current.predicateMatches word.value = true ∧
    current.eligible (current.matchTime word) = true ∧ current.completes = true ∧
    current.pulses (current.matchTime word) = true

variable (matcher : WordMatcher) (inputs : WordMatcherInputs) (outputs : WordMatcherOutputs)

def begun : WordMatcher := { matcher with started := true, wordHead := none }

theorem applyScheduledSettings_begun (timestampNs : UInt64) :
    matcher.begun.applyScheduledSettings timestampNs = (matcher.applyScheduledSettings timestampNs).begun := by
  have hfold : ∀ (due : List (UInt64 × (MatcherSettings → MatcherSettings))) (matcher : WordMatcher),
      due.foldl (fun matcher change => matcher.applySettings (change.2 matcher.settings)) matcher.begun =
        (due.foldl (fun matcher change => matcher.applySettings (change.2 matcher.settings)) matcher).begun := by
    intro due
    induction due with
    | nil => exact fun _ => rfl
    | cons change due ih => exact fun matcher => ih (matcher.applySettings (change.2 matcher.settings))
  exact hfold _ { matcher with
    scheduled := matcher.scheduled.drop (matcher.scheduled.takeWhile (·.1 ≤ timestampNs)).length }

theorem matchWord_sent (initial : List (ChannelMessage Sample)) (word : Word) :
    (matcher.matchWord inputs outputs initial word).sent.event.length ≤ 1 ∧
      (matcher.matchWord inputs outputs initial word).sent.words.length ≤ 1 ∧
      (matcher.matchWord inputs outputs initial word).sent.pulse.length = initial.length +
        if outputs.pulse && matcher.predicateMatches word.value && matcher.eligible (matcher.matchTime word) &&
          matcher.completes && matcher.pulses (matcher.matchTime word) then 2 else 0 := by
  cases hmatch : matcher.predicateMatches word.value with
  | false => simp [matchWord, hmatch]
  | true =>
    cases heligible : matcher.eligible (matcher.matchTime word) with
    | false => simp [matchWord, hmatch, heligible]
    | true =>
      cases hcompletes : matcher.completes with
      | false => simp [matchWord, hmatch, heligible, hcompletes]
      | true =>
        have hfire : matcher.matchWord inputs outputs initial word =
            matcher.fire inputs outputs initial word (matcher.matchTime word) := by
          simp [matchWord, hmatch, heligible, hcompletes]
        rw [hfire, fire]
        refine ⟨?_, ?_, ?_⟩
        · dsimp only
          split
          · exact Nat.le_refl 1
          · exact Nat.zero_le 1
        · dsimp only
          split
          · exact Nat.le_refl 1
          · exact Nat.zero_le 1
        · simp only [List.length_append, Bool.and_true]
          split
          · rfl
          · rfl

theorem start_sent : (matcher.start outputs).2.length ≤ 1 := by
  unfold start
  split
  · exact Nat.zero_le 1
  · dsimp only
    split
    · exact Nat.le_refl 1
    · exact Nat.zero_le 1

theorem start_begun : { (matcher.start outputs).1 with wordHead := none } = matcher.begun := by
  unfold start
  split
  · next h =>
    rw [begun, ← h]
  · rfl

theorem start_wordHead : (matcher.start outputs).1.wordHead = matcher.wordHead := by
  unfold start
  split
  · rfl
  · rfl

theorem advance_word {word : Word} (hword : matcher.wordHead = some word) (hrearm : matcher.rearmPrecedesWord = false) :
    matcher.advance inputs outputs = (matcher.applyScheduledSettings word.timestampNs).begun.matchWord inputs outputs
      (matcher.start outputs).2 word := by
  rw [advance, hword, if_neg (by simp), hrearm, if_neg (by simp), ← applyScheduledSettings_begun, ← start_begun]
  dsimp only
  rw [start_wordHead, hword]

/-- Only a pulse, which goes up and down again in one call, takes more than one envelope. -/
theorem work_sends_once_iff :
    ((matcher.work inputs outputs).sent.event.length ≤ 1 ∧ (matcher.work inputs outputs).sent.pulse.length ≤ 1 ∧
      (matcher.work inputs outputs).sent.words.length ≤ 1) ↔ ¬(outputs.pulse = true ∧ matcher.Pulses inputs) := by
  rw [work, Pulses, pendingWord]
  generalize matcher.fillHeads inputs = filled
  obtain ⟨result, next, inputs'⟩ := filled
  cases result with
  | error error => simp
  | ok value =>
    dsimp only
    cases hrearm : next.rearmPrecedesWord with
    | true =>
      rw [advance, hrearm]
      split
      · simp
      · simp
    | false =>
      cases hword : next.wordHead with
      | none =>
        have hinitial := next.start_sent outputs
        rw [advance, hword, hrearm]
        dsimp only
        rw [start_wordHead, hword]
        split
        · simp
        · simpa using hinitial
      | some word =>
        have hinitial := next.start_sent outputs
        obtain ⟨hevent, hwords, hpulse⟩ := matchWord_sent (next.applyScheduledSettings word.timestampNs).begun inputs'
          outputs (next.start outputs).2 word
        rw [advance_word _ _ _ hword hrearm, hpulse]
        generalize hcurrent : next.applyScheduledSettings word.timestampNs = current at hevent hwords hpulse ⊢
        have hfound : (if false = true then none else
            (some word).map fun word => (word, next.applyScheduledSettings word.timestampNs)) = some (word, current) := by
          rw [if_neg (by simp), Option.map_some, hcurrent]
        rw [hfound]
        by_cases hfires : (outputs.pulse && current.begun.predicateMatches word.value &&
            current.begun.eligible (current.begun.matchTime word) && current.begun.completes &&
            current.begun.pulses (current.begun.matchTime word)) = true
        · rw [if_pos hfires]
          simp only [Bool.and_eq_true] at hfires
          obtain ⟨⟨⟨⟨hout, hmatch⟩, heligible⟩, hcompletes⟩, hpulses⟩ := hfires
          constructor
          · intro hle
            omega
          · intro hnot
            exact absurd ⟨hout, word, current, rfl, hmatch, heligible, hcompletes, hpulses⟩ hnot
        · rw [if_neg hfires]
          constructor
          · rintro - ⟨hout, found, current', heq, hmatch, heligible, hcompletes, hpulses⟩
            obtain ⟨rfl, rfl⟩ := Prod.mk.inj (Option.some.inj heq)
            apply hfires
            simp only [Bool.and_eq_true]
            exact ⟨⟨⟨⟨hout, hmatch⟩, heligible⟩, hcompletes⟩, hpulses⟩
          · intro _
            exact ⟨hevent, by omega, hwords⟩

end WordMatcher

/-- When one call of a transform, in whatever state and on whatever input, sends at most one envelope on each of
its outputs. -/
theorem transforms_send_once_iff (gate : LogicGate) (gateInputs : List GateInput) (latch : SrLatch)
    (latchInputs : LatchInputs) (matcher : WordMatcher) (matcherInputs : WordMatcherInputs)
    (matcherOutputs : WordMatcherOutputs) (eventGate : EventGate) (eventGateInputs : EventGateInputs)
    (control : EventControl) (controlInputs : EventControlInputs) (framer : PacketFramer)
    (framerInputs : PacketFramerInputs) (output : Bool) :
    ((gate.work gateInputs output).sent.length ≤ 1 ↔ ¬(output = true ∧ gate.StartsWithChange gateInputs)) ∧
    ((latch.work latchInputs output).sent.length ≤ 1 ↔ ¬(output = true ∧ latch.StartsWithChange latchInputs)) ∧
    (((matcher.work matcherInputs matcherOutputs).sent.event.length ≤ 1 ∧
        (matcher.work matcherInputs matcherOutputs).sent.pulse.length ≤ 1 ∧
        (matcher.work matcherInputs matcherOutputs).sent.words.length ≤ 1) ↔
      ¬(matcherOutputs.pulse = true ∧ matcher.Pulses matcherInputs)) ∧
    (eventGate.work eventGateInputs output).sent.length ≤ 1 ∧
    (control.work controlInputs output).sent.length ≤ 1 ∧
    (framer.work framerInputs output).sent.length ≤ 1 :=
  ⟨gate.work_sends_once_iff gateInputs output, latch.work_sends_once_iff latchInputs output,
    matcher.work_sends_once_iff matcherInputs matcherOutputs, eventGate.work_sends_once eventGateInputs output,
    control.work_sends_once controlInputs output, framer.work_sends_once framerInputs output⟩

/-- The first call of an OR gate whose input is high from the start, of a latch set at 5 ns, and of a matcher that
meets its pattern. -/
theorem first_calls_send_twice :
    ((LogicGate.new .or 1).work [.streamed (.new [.sample ⟨true, 0⟩])] true).sent =
        [.sample ⟨false, 0⟩, .sample ⟨true, 0⟩] ∧
      ((SrLatch.new false).work ⟨some (.new [.sample ⟨5⟩]), some (.new [])⟩ true).sent =
        [.sample ⟨false, 0⟩, .sample ⟨true, 5⟩] ∧
      ((WordMatcher.new 0x42 0xFF).work ⟨some (.new [.sample (.new 0x42 7)]), none⟩ ⟨true, true, true⟩).sent.pulse =
        [.sample ⟨false, 0⟩, .sample ⟨true, 7⟩, .sample ⟨false, 1007⟩] := by
  refine ⟨?_, ?_, ?_⟩
  · decide
  · decide
  · decide

end LogicConduit
