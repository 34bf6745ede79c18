import LogicConduit.SummaryBuilder

namespace LogicConduit

/-- The open records and the records that a call has completed. -/
abbrev LeafState := List (Option ActiveRecord) × List (List WaveformRecord)

namespace SummaryBuilder

def appendChunkPacked (builder : SummaryBuilder) (chunk : CaptureChunk) :
    SummaryBuilder × List (List WaveformRecord) :=
  let (active, completed) := maskLoop chunk chunk.sampleCount 0 builder.active (builder.active.map fun _ => [])
  (⟨active, chunk.endSample⟩, completed)

def appendChunkScalar (builder : SummaryBuilder) (chunk : CaptureChunk) :
    SummaryBuilder × List (List WaveformRecord) :=
  let (active, completed) := scalarLoop chunk chunk.sampleCount 0 builder.active (builder.active.map fun _ => [])
  (⟨active, chunk.endSample⟩, completed)

/-- A chunk that continues the samples takes one of the paths. -/
def appendBy (path : SummaryBuilder → CaptureChunk → SummaryBuilder × List (List WaveformRecord))
    (builder : SummaryBuilder) (chunk : CaptureChunk) :
    Except CaptureError (SummaryBuilder × List (List WaveformRecord)) :=
  if chunk.startSample ≠ builder.nextSample ∨ chunk.channels.length ≠ builder.active.length then
    .error (.parseError "growing waveform received a discontinuous capture chunk")
  else .ok (path builder chunk)

theorem appendChunk_eq (builder : SummaryBuilder) (chunk : CaptureChunk) :
    builder.appendChunk chunk =
      builder.appendBy (if 64 < builder.active.length then appendChunkScalar else appendChunkPacked) chunk := by
  rw [appendChunk, appendBy]
  split
  next => rfl
  next => split <;> rfl

def summarizeBy (path : SummaryBuilder → CaptureChunk → SummaryBuilder × List (List WaveformRecord)) :
    List CaptureChunk → SummaryBuilder → Except CaptureError (SummaryBuilder × List (List WaveformRecord))
  | [], builder => .ok (builder, builder.active.map fun _ => [])
  | chunk :: chunks, builder => do
    let (next, completed) ← appendBy path builder chunk
    let (final, rest) ← summarizeBy path chunks next
    return (final, List.zipWith (· ++ ·) completed rest)

end SummaryBuilder

def closeRound (endSample : Nat) (state : LeafState) : LeafState :=
  if endSample % leafSamples = 0 then (state.1.map fun _ => none, completeLeaves state.1 endSample state.2) else state

theorem closeRound_inside {endSample : Nat} (h : endSample % leafSamples ≠ 0) (state : LeafState) :
    closeRound endSample state = state := if_neg h

def levelRound (level : Nat → Nat → Bool) (sample : Nat) (state : LeafState) : LeafState :=
  closeRound (sample + 1)
    (state.1.mapIdx fun channel record => some (ActiveRecord.advance sample (level channel sample) record), state.2)

def levelLoop (level : Nat → Nat → Bool) : Nat → Nat → LeafState → LeafState
  | 0, _, state => state
  | count + 1, sample, state => levelLoop level count (sample + 1) (levelRound level sample state)

/-- One of `count` samples after `start` differs from the one before it. -/
def turnsWithin (signal : Nat → Bool) : Nat → Nat → Bool
  | _, 0 => false
  | start, count + 1 => signal start != signal (start + 1) || turnsWithin signal (start + 1) count

section Stretches

variable {signal : Nat → Bool} {level : Nat → Nat → Bool}

theorem turnsWithin_iff {start count : Nat} :
    turnsWithin signal start count = true ↔ ∃ s, start < s ∧ s ≤ start + count ∧ Turns signal s := by
  induction count generalizing start with
  | zero =>
    constructor
    · intro h
      cases h
    · rintro ⟨s, hlo, hhi, -⟩
      omega
  | succ count ih =>
    rw [turnsWithin, Bool.or_eq_true, ih, bne_iff_ne]
    constructor
    · rintro (hne | ⟨s, hlo, hhi, hturn⟩)
      · exact ⟨start + 1, by omega, by omega, hne.symm⟩
      · exact ⟨s, by omega, by omega, hturn⟩
    · rintro ⟨s, hlo, hhi, hturn⟩
      by_cases hfirst : s = start + 1
      · subst hfirst
        exact Or.inl hturn.symm
      · exact Or.inr ⟨s, by omega, by omega, hturn⟩

theorem absorb_advance (sample : Nat) (value first last activity : Bool) (record : Option ActiveRecord) :
    ActiveRecord.absorb (sample + 1) first last activity (some (ActiveRecord.advance sample value record)) =
      ActiveRecord.absorb sample value last (value != first || activity) record := by
  cases record with
  | none => rfl
  | some record =>
    have hcomm : (value != record.last) = (record.last != value) := by
      cases record.last <;> cases value <;> rfl
    simp only [ActiveRecord.absorb, ActiveRecord.advance, ActiveRecord.push, hcomm, Bool.or_assoc]

theorem levelLoop_add (m n sample : Nat) (state : LeafState) :
    levelLoop level (m + n) sample state = levelLoop level n (sample + m) (levelLoop level m sample state) := by
  induction m generalizing sample state with
  | zero => rw [Nat.zero_add, Nat.add_zero, levelLoop]
  | succ m ih => rw [Nat.succ_add, levelLoop, levelLoop, ih, Nat.succ_add_eq_add_succ]

theorem levelLoop_stretch {sample count : Nat} (hfit : sample % leafSamples + count < leafSamples) (state : LeafState) :
    levelLoop level (count + 1) sample state =
      closeRound (sample + count + 1)
        (state.1.mapIdx fun channel record => some (ActiveRecord.absorb sample (level channel sample)
          (level channel (sample + count)) (turnsWithin (level channel) sample count) record), state.2) := by
  induction count generalizing sample state with
  | zero =>
    simp only [levelLoop, levelRound, turnsWithin, ← ActiveRecord.absorb_single, Nat.add_zero]
  | succ count ih =>
    have hinside : (sample + 1) % leafSamples ≠ 0 := by
      unfold leafSamples at *
      omega
    have hrest : (sample + 1) % leafSamples + count < leafSamples := by
      unfold leafSamples at *
      omega
    rw [levelLoop, ih hrest, levelRound, closeRound_inside hinside]
    simp only [List.mapIdx_mapIdx, Function.comp_def, absorb_advance]
    simp only [turnsWithin, Nat.add_right_comm _ 1 count, ← Nat.add_assoc]

theorem closeRound_length (endSample : Nat) (state : LeafState) :
    (closeRound endSample state).1.length = state.1.length := by
  rw [closeRound]
  split
  next => exact List.length_map _
  next => rfl

theorem levelLoop_length (count sample : Nat) (state : LeafState) :
    (levelLoop level count sample state).1.length = state.1.length := by
  induction count generalizing sample state with
  | zero => rfl
  | succ count ih => rw [levelLoop, ih, levelRound, closeRound_length, List.length_mapIdx]

theorem levelLoop_channels (count sample : Nat) {state : LeafState} (h : state.2.length = state.1.length) :
    (levelLoop level count sample state).2.length = (levelLoop level count sample state).1.length := by
  induction count generalizing sample state with
  | zero => exact h
  | succ count ih =>
    apply ih
    rw [levelRound, closeRound_length, closeRound]
    split
    next => simp only [completeLeaves, List.length_zipWith, List.length_mapIdx, h, Nat.min_self]
    next => simp only [List.length_mapIdx, h]

end Stretches

section Paths

variable {level : Nat → Nat → Bool} {chunk : CaptureChunk} {active : List (Option ActiveRecord)}
  {completed : List (List WaveformRecord)}

variable {relative : Nat}

theorem mapIdx_congr {α β : Type*} {f g : Nat → α → β} {xs : List α} (h : ∀ i < xs.length, ∀ x, f i x = g i x) :
    xs.mapIdx f = xs.mapIdx g := by
  apply List.ext_getElem?
  intro i
  rw [List.getElem?_mapIdx, List.getElem?_mapIdx]
  cases hget : xs[i]? with
  | none => rfl
  | some x => exact congrArg some (h i (List.getElem?_eq_some_iff.mp hget).1 x)

theorem scalarLoop_eq (h : chunk.Carries level) (remaining : Nat)
    (hremaining : relative + remaining = chunk.sampleCount) (hlength : active.length = chunk.channels.length) :
    SummaryBuilder.scalarLoop chunk remaining relative active completed =
      levelLoop level remaining (chunk.startSample + relative) (active, completed) := by
  induction remaining generalizing relative active completed with
  | zero => rfl
  | succ remaining ih =>
    have hlevels : (active.mapIdx fun channel record => some (ActiveRecord.advance (chunk.startSample + relative)
          ((chunk.packedLevel relative channel).getD false) record)) =
        active.mapIdx fun channel record => some (ActiveRecord.advance (chunk.startSample + relative)
          (level channel (chunk.startSample + relative)) record) := by
      apply mapIdx_congr
      intro c hc record
      rw [hlength] at hc
      rw [packedLevel_eq_payloadBit (by omega) hc, Option.getD_some, h.payloadBit (by omega) hc]
    rw [SummaryBuilder.scalarLoop, levelLoop, levelRound, hlevels, closeRound]
    simp only
    split
    next =>
      rw [ih (by omega) (by rw [List.length_map, List.length_mapIdx, hlength])]
      rfl
    next =>
      rw [ih (by omega) (by rw [List.length_mapIdx, hlength])]
      rfl

theorem maskLoop_eq (h : chunk.Carries level) (hle : chunk.channels.length ≤ 64) (fuel : Nat)
    (hfuel : chunk.sampleCount ≤ relative + fuel) (hrelative : relative ≤ chunk.sampleCount)
    (hlength : active.length = chunk.channels.length) :
    SummaryBuilder.maskLoop chunk fuel relative active completed =
      levelLoop level (chunk.sampleCount - relative) (chunk.startSample + relative) (active, completed) := by
  induction fuel generalizing relative active completed with
  | zero =>
    obtain rfl : relative = chunk.sampleCount := by omega
    rw [Nat.sub_self]
    rfl
  | succ fuel ih =>
    rw [SummaryBuilder.maskLoop]
    by_cases hlt : relative < chunk.sampleCount
    · rw [if_pos hlt]
      simp only
      obtain ⟨count, hcount⟩ : ∃ count, count + 1 = min (leafSamples - (chunk.startSample + relative) % leafSamples)
          (chunk.sampleCount - relative) := by
        have hrest : (chunk.startSample + relative) % leafSamples < leafSamples := Nat.mod_lt _ (by decide)
        exact ⟨_, Nat.succ_pred_eq_of_pos (by omega)⟩
      rw [← hcount]
      have hmasks : (active.mapIdx fun channel record => some (ActiveRecord.absorb (chunk.startSample + relative)
            (bit (summaryMasks chunk relative (count + 1)).first channel)
            (bit (summaryMasks chunk relative (count + 1)).last channel)
            (bit (summaryMasks chunk relative (count + 1)).activity channel) record)) =
          active.mapIdx fun channel record => some (ActiveRecord.absorb (chunk.startSample + relative)
            (level channel (chunk.startSample + relative)) (level channel (chunk.startSample + relative + count))
            (turnsWithin (level channel) (chunk.startSample + relative) count) record) := by
        apply mapIdx_congr
        intro c hc record
        obtain ⟨hfirst, hlast, hactivity⟩ := h.masks hle (hlength ▸ hc) (Nat.succ_pos count)
          (show relative + (count + 1) ≤ chunk.sampleCount by omega)
        have hturns : bit (summaryMasks chunk relative (count + 1)).activity c =
            turnsWithin (level c) (chunk.startSample + relative) count := by
          rw [Bool.eq_iff_iff, hactivity, turnsWithin_iff]
          refine exists_congr fun s => and_congr_right fun _ => and_congr_left fun _ => ?_
          omega
        rw [hfirst, hlast, hturns]
        rfl
      have hsplit : chunk.sampleCount - relative = count + 1 + (chunk.sampleCount - (relative + (count + 1))) := by
        omega
      have hnext : chunk.startSample + (relative + (count + 1)) = chunk.startSample + relative + count + 1 := by omega
      rw [hmasks, hsplit, levelLoop_add, levelLoop_stretch (by omega), closeRound, Nat.add_assoc chunk.startSample,
        hnext]
      split
      next =>
        rw [ih (by omega) (by omega) (by rw [List.length_map, List.length_mapIdx, hlength]), hnext]
      next =>
        rw [ih (by omega) (by omega) (by rw [List.length_mapIdx, hlength]), hnext]
    · obtain rfl : relative = chunk.sampleCount := by omega
      rw [if_neg hlt, Nat.sub_self]
      rfl

theorem completeLeaves_append (active : List (Option ActiveRecord)) (endSample : Nat)
    (before completed : List (List WaveformRecord)) :
    completeLeaves active endSample (List.zipWith (· ++ ·) before completed) =
      List.zipWith (· ++ ·) before (completeLeaves active endSample completed) := by
  unfold completeLeaves
  induction before generalizing active completed with
  | nil => rfl
  | cons first before ih =>
    cases completed with
    | nil => rfl
    | cons records completed =>
      cases active with
      | nil => rfl
      | cons record active =>
        simp only [List.zipWith_cons_cons, ih, List.append_assoc]

theorem levelLoop_append (before : List (List WaveformRecord)) (count sample : Nat) (state : LeafState) :
    levelLoop level count sample (state.1, List.zipWith (· ++ ·) before state.2) =
      ((levelLoop level count sample state).1,
        List.zipWith (· ++ ·) before (levelLoop level count sample state).2) := by
  induction count generalizing sample state with
  | zero => rfl
  | succ count ih =>
    rw [levelLoop, levelLoop, ← ih]
    congr 1
    rw [levelRound, levelRound, closeRound, closeRound]
    split
    next => rw [completeLeaves_append]
    next => rfl

theorem levelLoop_from (before : List (List WaveformRecord)) (count sample : Nat)
    (hlength : before.length = active.length) :
    levelLoop level count sample (active, before) =
      ((levelLoop level count sample (active, active.map fun _ => [])).1,
        List.zipWith (· ++ ·) before (levelLoop level count sample (active, active.map fun _ => [])).2) := by
  rw [← levelLoop_append]
  congr 2
  apply List.ext_getElem (by simp [hlength])
  intro i hi hi'
  simp

theorem CaptureChunk.exists_carries (chunk : CaptureChunk) : ∃ level, chunk.Carries level := by
  refine ⟨fun c s => (chunk.packedLevel (s - chunk.startSample) c).getD false, ?_⟩
  intro s hlo hhi c hc
  have hinside : s - chunk.startSample < chunk.sampleCount := by
    unfold endSample at hhi
    omega
  have hlevel := packedLevel_eq_payloadBit hinside hc
  exact hlevel.trans (congrArg some (congrArg (Option.getD · false) hlevel).symm)

end Paths

namespace SummaryBuilder

variable {level : Nat → Nat → Bool} {chunk : CaptureChunk} {builder : SummaryBuilder}

theorem appendChunkScalar_eq (h : chunk.Carries level) (hlength : chunk.channels.length = builder.active.length) :
    builder.appendChunkScalar chunk =
      (⟨(levelLoop level chunk.sampleCount chunk.startSample (builder.active, builder.active.map fun _ => [])).1,
          chunk.endSample⟩,
        (levelLoop level chunk.sampleCount chunk.startSample (builder.active, builder.active.map fun _ => [])).2) := by
  rw [appendChunkScalar, scalarLoop_eq h chunk.sampleCount (Nat.zero_add _) hlength.symm, Nat.add_zero]

theorem appendChunkPacked_eq (hle : builder.active.length ≤ 64)
    (hlength : chunk.channels.length = builder.active.length) :
    builder.appendChunkPacked chunk = builder.appendChunkScalar chunk := by
  obtain ⟨level, h⟩ := chunk.exists_carries
  rw [appendChunkScalar_eq h hlength, appendChunkPacked,
    maskLoop_eq h (hlength ▸ hle) chunk.sampleCount (by omega) (Nat.zero_le _) hlength.symm, Nat.add_zero, Nat.sub_zero]

theorem appendBy_agrees (hle : builder.active.length ≤ 64) (chunk : CaptureChunk) :
    builder.appendBy appendChunkPacked chunk = builder.appendBy appendChunkScalar chunk := by
  rw [appendBy, appendBy]
  split
  next => rfl
  next haccept =>
    rw [not_or, not_not, not_not] at haccept
    rw [appendChunkPacked_eq hle haccept.2]

variable {completed : List (List WaveformRecord)}

theorem appendBy_ok {next : SummaryBuilder} (h : builder.appendBy appendChunkScalar chunk = .ok (next, completed)) :
    chunk.startSample = builder.nextSample ∧ chunk.channels.length = builder.active.length ∧
      builder.appendChunkScalar chunk = (next, completed) := by
  rw [appendBy] at h
  split at h
  next => cases h
  next haccept =>
    rw [not_or, not_not, not_not] at haccept
    exact ⟨haccept.1, haccept.2, Except.ok.inj h⟩

variable {path : SummaryBuilder → CaptureChunk → SummaryBuilder × List (List WaveformRecord)}

theorem appendBy_of {next : SummaryBuilder} (hstart : chunk.startSample = builder.nextSample)
    (hlength : chunk.channels.length = builder.active.length) (hpath : path builder chunk = (next, completed)) :
    builder.appendBy path chunk = .ok (next, completed) := by
  rw [appendBy, if_neg (by simp [hstart, hlength]), hpath]

variable {records : List (List WaveformRecord)} {chunks : List CaptureChunk} {final : SummaryBuilder}

theorem summarizeBy_cons_ok (h : summarizeBy path (chunk :: chunks) builder = .ok (final, records)) :
    ∃ next completed rest, builder.appendBy path chunk = .ok (next, completed) ∧
      summarizeBy path chunks next = .ok (final, rest) ∧ records = List.zipWith (· ++ ·) completed rest := by
  rw [summarizeBy] at h
  cases hchunk : builder.appendBy path chunk with
  | error error =>
    rw [hchunk] at h
    cases h
  | ok step =>
    rw [hchunk] at h
    cases hrest : summarizeBy path chunks step.1 with
    | error error =>
      simp only [bind, Except.bind, hrest] at h
      cases h
    | ok result =>
      simp only [bind, Except.bind, hrest] at h
      cases h
      exact ⟨step.1, step.2, result.2, rfl, hrest, rfl⟩

theorem summarizeBy_agrees (hle : builder.active.length ≤ 64) (chunks : List CaptureChunk) :
    summarizeBy appendChunkPacked chunks builder = summarizeBy appendChunkScalar chunks builder := by
  induction chunks generalizing builder with
  | nil => rfl
  | cons chunk chunks ih =>
    rw [summarizeBy, summarizeBy, appendBy_agrees hle]
    cases hchunk : builder.appendBy appendChunkScalar chunk with
    | error error => rfl
    | ok step =>
      obtain ⟨hstart, hlength, hscalar⟩ := appendBy_ok hchunk
      obtain ⟨level, h⟩ := chunk.exists_carries
      rw [appendChunkScalar_eq h hlength] at hscalar
      have hnext : step.1.active.length = builder.active.length := by
        rw [← (Prod.mk.inj hscalar).1]
        exact levelLoop_length _ _ _
      simp only [bind, Except.bind, ih (hnext ▸ hle)]

theorem summarizeBy_levels (hcarries : ∀ chunk ∈ chunks, chunk.Carries level)
    (h : summarizeBy appendChunkScalar chunks builder = .ok (final, records)) :
    ∃ count, final.nextSample = builder.nextSample + count ∧
      (final.active, records) =
        levelLoop level count builder.nextSample (builder.active, builder.active.map fun _ => []) := by
  induction chunks generalizing builder records with
  | nil =>
    cases h
    exact ⟨0, rfl, rfl⟩
  | cons chunk chunks ih =>
    obtain ⟨next, completed, rest, hchunk, hrest, rfl⟩ := summarizeBy_cons_ok h
    obtain ⟨hstart, hlength, hscalar⟩ := appendBy_ok hchunk
    rw [appendChunkScalar_eq (hcarries chunk List.mem_cons_self) hlength, hstart] at hscalar
    obtain ⟨hnext, hcompleted⟩ := Prod.mk.inj hscalar
    obtain ⟨count, hfinal, hrun⟩ := ih (fun other hother => hcarries other (List.mem_cons_of_mem chunk hother)) hrest
    refine ⟨chunk.sampleCount + count, ?_, ?_⟩
    · rw [hfinal, ← hnext, CaptureChunk.endSample, hstart, Nat.add_assoc]
    · have hstep : levelLoop level chunk.sampleCount builder.nextSample
          (builder.active, builder.active.map fun _ => []) = (next.active, completed) := by
        rw [← hnext, ← hcompleted]
      have hchannels : completed.length = next.active.length := by
        rw [← hnext, ← hcompleted]
        exact levelLoop_channels _ _ (List.length_map _)
      have hsample : next.nextSample = builder.nextSample + chunk.sampleCount := by
        rw [← hnext, CaptureChunk.endSample, hstart]
      rw [levelLoop_add, hstep, levelLoop_from completed _ _ hchannels, ← hsample, ← hrun]

end SummaryBuilder

/-- The packed path and the scalar path do the same with every sequence of chunks: the same error, or the same records
and the same builder. Both do what they do with one chunk that carries all of the samples. -/
theorem packed_summaries_match_scalar (builder : SummaryBuilder) (chunks : List CaptureChunk)
    (hle : builder.active.length ≤ 64) :
    SummaryBuilder.summarizeBy SummaryBuilder.appendChunkPacked chunks builder =
      SummaryBuilder.summarizeBy SummaryBuilder.appendChunkScalar chunks builder ∧
    ∀ level whole next records, (∀ chunk ∈ chunks, CaptureChunk.Carries level chunk) → whole.Carries level →
      whole.startSample = builder.nextSample → whole.channels.length = builder.active.length →
      SummaryBuilder.summarizeBy SummaryBuilder.appendChunkPacked chunks builder = .ok (next, records) →
      whole.endSample = next.nextSample →
      builder.appendBy SummaryBuilder.appendChunkPacked whole = .ok (next, records) ∧
        builder.appendBy SummaryBuilder.appendChunkScalar whole = .ok (next, records) := by
  have hagree := SummaryBuilder.summarizeBy_agrees hle chunks
  refine ⟨hagree, ?_⟩
  intro level whole next records hcarries hwhole hstart hlength hrun hend
  obtain ⟨count, hnext, hlevels⟩ := SummaryBuilder.summarizeBy_levels hcarries (hagree ▸ hrun)
  have hcount : whole.sampleCount = count := by
    unfold CaptureChunk.endSample at hend
    omega
  have hscalar : builder.appendChunkScalar whole = (next, records) := by
    rw [SummaryBuilder.appendChunkScalar_eq hwhole hlength, hcount, hstart, ← hlevels, hend]
  have hpacked := (SummaryBuilder.appendChunkPacked_eq hle hlength).trans hscalar
  exact ⟨SummaryBuilder.appendBy_of hstart hlength hpacked, SummaryBuilder.appendBy_of hstart hlength hscalar⟩

theorem CaptureChunk.carries_of {level : Nat → Nat → Bool} {chunk : CaptureChunk}
    (h : ∀ k < chunk.sampleCount, ∀ c < chunk.channels.length,
      chunk.packedLevel k c = some (level c (chunk.startSample + k))) : chunk.Carries level := by
  intro s hlo hhi c hc
  have hlevel := h (s - chunk.startSample) (by unfold endSample at hhi; omega) c hc
  rwa [Nat.add_sub_cancel' hlo] at hlevel

def riseBefore : CaptureChunk :=
  ⟨⟨1⟩, 0, 0, 62, ["input:0"], List.replicate 8 0, 2, by decide, by decide, by decide, by decide, by decide, by decide⟩

def riseAfter : CaptureChunk :=
  ⟨⟨1⟩, 1, 62, 4, ["input:0"], [0x78], 3, by decide, Nat.zero_lt_succ 3, Nat.le_add_left 4 4,
    by decide, by decide, by decide⟩

def riseWhole : CaptureChunk :=
  ⟨⟨1⟩, 0, 0, 66, ["input:0"], List.replicate 7 0 ++ [0xC0, 0x03], 0, by decide, by decide, Nat.two_pow_pos 3,
    by decide, by decide, by decide⟩

theorem packed_summaries_match_scalar_rise :
    ∃ next records, SummaryBuilder.summarizeBy SummaryBuilder.appendChunkPacked [riseBefore, riseAfter] (.new 1) =
        .ok (next, records) ∧
      (SummaryBuilder.new 1).appendBy SummaryBuilder.appendChunkPacked riseWhole = .ok (next, records) ∧
      records = [[⟨0, 64, false, true, true⟩]] := by
  have hle : (SummaryBuilder.new 1).active.length ≤ 64 := by decide
  have hpieces : ∀ chunk ∈ [riseBefore, riseAfter], CaptureChunk.Carries (fun _ s => decide (62 ≤ s)) chunk := by
    intro chunk hchunk
    apply CaptureChunk.carries_of
    rcases List.mem_pair.mp hchunk with rfl | rfl <;> decide
  have hwhole : CaptureChunk.Carries (fun _ s => decide (62 ≤ s)) riseWhole :=
    CaptureChunk.carries_of (by decide)
  have hrun : SummaryBuilder.summarizeBy SummaryBuilder.appendChunkPacked [riseBefore, riseAfter] (.new 1) =
      .ok (⟨[some ⟨64, true, true, false⟩], 66⟩, [[⟨0, 64, false, true, true⟩]]) := by
    rfl
  have hagree := (packed_summaries_match_scalar (.new 1) [riseBefore, riseAfter] hle).2 _ riseWhole _ _ hpieces hwhole
    rfl rfl hrun rfl
  exact ⟨_, _, hrun, hagree.1, rfl⟩

end LogicConduit
