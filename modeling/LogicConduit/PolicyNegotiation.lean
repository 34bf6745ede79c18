import LogicConduit.CapturePolicy
import LogicConduit.WordVlq

namespace LogicConduit

open CapturePolicyCapabilities

section Rounding

variable {samples multiple bound low share high rounded : Nat}

theorem roundUp_within_iff (hmultiple : 0 < multiple) (hsamples : samples = bound * share / 10000) (hlow : low ≤ share)
    (hhigh : share ≤ high) (hwhole : high ≤ 10000) (hrounded : rounded = min (samples ⌈/⌉ multiple * multiple) bound) :
    (multiple ∣ rounded ∧ rounded ≤ bound ∧ low * bound ≤ rounded * 10000 ∧ rounded * 10000 ≤ high * bound) ↔
      (∃ count, samples ≤ count * multiple ∧ count * multiple * 10000 ≤ high * bound) ∧
        ¬(multiple ∣ samples ∧ samples * 10000 < low * bound) := by
  have hshare : low * bound ≤ bound * share := by
    rw [Nat.mul_comm bound]
    exact Nat.mul_le_mul_right bound hlow
  have hle : samples ≤ bound := by
    have hwide := Nat.mul_le_mul_left bound (hhigh.trans hwhole)
    omega
  have hhighBound : high * bound ≤ 10000 * bound := Nat.mul_le_mul_right bound hwhole
  have hup (count : Nat) : samples ⌈/⌉ multiple ≤ count ↔ samples ≤ count * multiple := by
    rw [ceilDiv_le_iff_le_smul hmultiple, smul_eq_mul, Nat.mul_comm]
  generalize samples ⌈/⌉ multiple = steps at hrounded hup
  have hceil : samples ≤ steps * multiple := (hup steps).mp le_rfl
  constructor
  · rintro ⟨⟨count, hcount⟩, -, hmin, hmax⟩
    rw [Nat.mul_comm] at hcount
    refine ⟨⟨count, ?_, ?_⟩, ?_⟩
    · rw [← hcount, hrounded]
      exact le_min hceil hle
    · rwa [← hcount]
    · rintro ⟨⟨whole, hdivides⟩, hshort⟩
      rw [Nat.mul_comm] at hdivides
      have hsame : steps * multiple ≤ whole * multiple := Nat.mul_le_mul_right multiple ((hup whole).mpr hdivides.le)
      omega
  · rintro ⟨⟨count, hfrom, hto⟩, hshort⟩
    have hsteps : steps * multiple ≤ count * multiple := Nat.mul_le_mul_right multiple ((hup count).mpr hfrom)
    have heq : rounded = steps * multiple := by omega
    have hbound : rounded ≤ bound := by omega
    have hmax : rounded * 10000 ≤ high * bound := by
      rw [heq]
      exact (Nat.mul_le_mul_right 10000 hsteps).trans hto
    refine ⟨⟨steps, heq.trans (Nat.mul_comm _ _)⟩, hbound, ?_, hmax⟩
    by_cases hdvd : multiple ∣ samples
    · have hreach : low * bound ≤ samples * 10000 := Nat.not_lt.mp fun hlt => hshort ⟨hdvd, hlt⟩
      exact hreach.trans (Nat.mul_le_mul_right 10000 (heq ▸ hceil))
    · have hne : samples ≠ steps * multiple := fun hsame => hdvd ⟨steps, hsame.trans (Nat.mul_comm _ _)⟩
      have hnext : samples + 1 ≤ rounded := by omega
      omega

end Rounding

section Negotiation

variable {capabilities : CapturePolicyCapabilities} {requested : CapturePolicy} {context : CapturePolicyContext}
  {policy : EffectiveCapturePolicy}

theorem negotiate_cases (h : capabilities.negotiate requested context = .ok policy) :
    ∃ triggerPlacement, capabilities.negotiateTriggerPlacement requested context = .ok triggerPlacement ∧
      policy = ⟨requested, { requested with triggerPlacement }⟩ := by
  obtain ⟨_, -, h⟩ := except_bind_ok h
  obtain ⟨_, -, h⟩ := except_bind_ok h
  obtain ⟨_, -, h⟩ := except_bind_ok h
  obtain ⟨_, -, h⟩ := except_bind_ok h
  obtain ⟨_, -, h⟩ := except_bind_ok h
  obtain ⟨triggerPlacement, hplacement, h⟩ := except_bind_ok h
  exact ⟨triggerPlacement, hplacement, (Except.ok.inj h).symm⟩

end Negotiation

section Placement

variable {minimum maximum step : CaptureFraction} {sampleAlignment : UInt64}

def Offered (minimum maximum step : CaptureFraction) (parts : Nat) : Prop :=
  parts ≤ maximum.parts ∧ (parts = maximum.parts ∨ ∃ steps, parts = minimum.parts + steps * step.parts)

def IsSelected (minimum maximum step : CaptureFraction) (fractionParts parts : Nat) : Prop :=
  IsLeast {parts | Offered minimum maximum step parts ∧ fractionParts ≤ parts} parts

theorem stepFraction_isSelected {fractionParts : Nat} (hstep : 0 < step.parts) (hmin : minimum.parts ≤ fractionParts)
    (hmax : fractionParts ≤ maximum.parts) :
    IsSelected minimum maximum step fractionParts (stepFraction minimum maximum step fractionParts) := by
  have hup (count : Nat) : (fractionParts - minimum.parts) ⌈/⌉ step.parts ≤ count ↔
      fractionParts - minimum.parts ≤ count * step.parts := by
    rw [ceilDiv_le_iff_le_smul hstep, smul_eq_mul, Nat.mul_comm]
  unfold stepFraction
  dsimp only
  generalize (fractionParts - minimum.parts) ⌈/⌉ step.parts = steps at hup
  have hreach : fractionParts - minimum.parts ≤ steps * step.parts := (hup steps).mp le_rfl
  constructor
  · refine ⟨⟨min_le_right _ _, ?_⟩, le_min (by omega) hmax⟩
    rcases min_choice (minimum.parts + steps * step.parts) maximum.parts with hsteps | hcap
    · exact Or.inr ⟨steps, hsteps⟩
    · exact Or.inl hcap
  · rintro parts ⟨⟨hle, hcap | ⟨count, hcount⟩⟩, hfrom⟩
    · exact hcap ▸ min_le_right _ _
    · have hsteps : steps * step.parts ≤ count * step.parts :=
        Nat.mul_le_mul_right step.parts ((hup count).mpr (by omega))
      exact (min_le_left _ _).trans (by omega)

theorem alignSamples_toNat (samples window : UInt64) : (alignSamples samples sampleAlignment window).toNat =
    min (samples.toNat ⌈/⌉ sampleAlignment.toNat * sampleAlignment.toNat) window.toNat := by
  have hlt := window.toNat_lt
  rw [alignSamples, UInt64.toNat_ofNat', Nat.mod_eq_of_lt ((min_le_right _ _).trans_lt hlt)]
  omega

/-- The placement is aligned, lies in the window, and its share of the window is on offer. -/
def InRange (minimum maximum : CaptureFraction) (sampleAlignment window samples : UInt64) : Prop :=
  sampleAlignment.toNat ∣ samples.toNat ∧ samples.toNat ≤ window.toNat ∧
    minimum.parts * window.toNat ≤ samples.toNat * 10000 ∧ samples.toNat * 10000 ≤ maximum.parts * window.toNat

instance (samples window : UInt64) : Decidable (InRange minimum maximum sampleAlignment window samples) := by
  unfold InRange
  infer_instance

/-- An aligned count lies between the selected share of the window and the maximum, and rounding the selected
share down to a sample does not meet an aligned count below the minimum. -/
def LeavesRoom (minimum maximum step : CaptureFraction) (sampleAlignment window : UInt64) (requestedSamples : Nat) :
    Prop :=
  ∃ parts, IsSelected minimum maximum step (requestedSamples * 10000 / window.toNat) parts ∧
    (∃ count, window.toNat * parts / 10000 ≤ count * sampleAlignment.toNat ∧
      count * sampleAlignment.toNat * 10000 ≤ maximum.parts * window.toNat) ∧
    ¬(sampleAlignment.toNat ∣ window.toNat * parts / 10000 ∧
      window.toNat * parts / 10000 * 10000 < minimum.parts * window.toNat)

theorem selectFraction_cases {placement result : TriggerPlacement} {context : CapturePolicyContext} {window : UInt64}
    (h : selectFraction minimum maximum step sampleAlignment (some placement) context = .ok result)
    (hwindow : context.captureWindowSamples = some window) :
    ∃ samples fraction, requestedSamples context window placement = .ok samples ∧
      minimum.parts ≤ samples * 10000 / window.toNat ∧ samples * 10000 / window.toNat ≤ maximum.parts ∧
      CaptureFraction.parts fraction = stepFraction minimum maximum step (samples * 10000 / window.toNat) ∧
      result = .samplesBefore (alignSamples (fraction.samplesOf window) sampleAlignment window) := by
  rw [selectFraction, hwindow] at h
  dsimp only at h
  split at h
  · cases h
  · obtain ⟨samples, hsamples, h⟩ := except_bind_ok h
    split at h
    · cases h
    · split at h
      · cases h
      · next hrange =>
        obtain ⟨fraction, hfraction, h⟩ := except_bind_ok h
        rw [not_or, Nat.not_lt, Nat.not_lt] at hrange
        refine ⟨samples, fraction, hsamples, hrange.1, hrange.2, ?_, (Except.ok.inj h).symm⟩
        rw [CaptureFraction.new] at hfraction
        split at hfraction
        · exact Except.ok.inj hfraction ▸ rfl
        · cases hfraction

theorem negotiated_placement_in_range_iff {capabilities : CapturePolicyCapabilities} {requested : CapturePolicy}
    {context : CapturePolicyContext} {policy : EffectiveCapturePolicy} {placement : TriggerPlacement} {window : UInt64}
    (hnegotiated : capabilities.negotiate requested context = .ok policy)
    (hcapability : capabilities.triggerPlacement = .selectableFraction minimum maximum step sampleAlignment)
    (hplacement : requested.triggerPlacement = some placement) (hwindow : context.captureWindowSamples = some window) :
    (∃ samples, policy.effective.triggerPlacement = some (.samplesBefore samples) ∧
      InRange minimum maximum sampleAlignment window samples) ↔
      ∃ samples, requestedSamples context window placement = .ok samples ∧
        LeavesRoom minimum maximum step sampleAlignment window samples := by
  obtain ⟨hminmax, hstep, halignment⟩ :
      minimum.parts ≤ maximum.parts ∧ 0 < step.parts ∧ 0 < sampleAlignment.toNat := by
    have hvalid := capabilities.placement_wellFormed
    rwa [hcapability] at hvalid
  obtain ⟨effective, hselected, rfl⟩ := negotiate_cases hnegotiated
  have hstart : requested.start ≠ .immediate := by
    intro himmediate
    rw [negotiateTriggerPlacement, if_pos himmediate, hplacement, Option.isSome_some, if_pos rfl] at hselected
    cases hselected
  rw [negotiateTriggerPlacement, if_neg hstart, hcapability, hplacement] at hselected
  obtain ⟨result, hresult, rfl⟩ : ∃ result,
      selectFraction minimum maximum step sampleAlignment (some placement) context = .ok result ∧
        some result = effective := by
    cases hresult : selectFraction minimum maximum step sampleAlignment (some placement) context with
    | error error =>
      dsimp only at hselected
      rw [hresult] at hselected
      cases hselected
    | ok result =>
      dsimp only at hselected
      rw [hresult] at hselected
      exact ⟨result, rfl, Except.ok.inj hselected⟩
  obtain ⟨samples, fraction, hsamples, hmin, hmax, hparts, rfl⟩ := selectFraction_cases hresult hwindow
  have hleast := stepFraction_isSelected hstep hmin hmax
  rw [← hparts] at hleast
  have hiff := roundUp_within_iff halignment (fraction.samplesOf_toNat window) (hmin.trans hleast.1.2) hleast.1.1.1
    maximum.parts_le (alignSamples_toNat (fraction.samplesOf window) window)
  rw [fraction.samplesOf_toNat] at hiff
  constructor
  · rintro ⟨before, hbefore, hin⟩
    cases Option.some.inj hbefore
    exact ⟨samples, hsamples, fraction.parts, hleast, hiff.mp hin⟩
  · rintro ⟨other, hother, parts, hother', hroom⟩
    cases hsamples.symm.trans hother
    cases hother'.unique hleast
    exact ⟨_, rfl, hiff.mpr hroom⟩

def percentSteps : CapturePolicyCapabilities where
  recordingStarts := [.immediate, .trigger]
  retention := [.everything, .recentDuration, .recentBytes]
  completion := [.untilStopped, .samplesAfterOrigin]
  triggerPlacement := .selectableFraction ⟨1000, by decide⟩ ⟨9000, by decide⟩ ⟨100, by decide⟩ 64
  triggerTimeoutActions := [.continueWaiting, .stop, .forceTrigger]
  choices := by decide
  placement_wellFormed := by decide

def triggeredPolicy (placement : Option TriggerPlacement) (samples : UInt64) : CapturePolicy :=
  ⟨.trigger, placement, .everything, .everything, .samplesAfterOrigin samples, none⟩

/-- A quarter of a second at a thousand samples a second is taken up to 256 samples, which is in range. -/
theorem quarter_second_leaves_room : ∃ samples,
    requestedSamples ⟨1000, some 1000, true⟩ 1000 (.durationBefore ⟨250000000, by decide⟩) = .ok samples ∧
      LeavesRoom ⟨1000, by decide⟩ ⟨9000, by decide⟩ ⟨100, by decide⟩ 64 1000 samples := by
  have hnegotiated : percentSteps.negotiate (triggeredPolicy (some (.durationBefore ⟨250000000, by decide⟩)) 750)
      ⟨1000, some 1000, true⟩ = .ok ⟨triggeredPolicy (some (.durationBefore ⟨250000000, by decide⟩)) 750,
        triggeredPolicy (some (.samplesBefore 256)) 750⟩ := by decide
  exact (negotiated_placement_in_range_iff hnegotiated rfl rfl rfl).mp ⟨256, rfl, by decide⟩

/-- Ninety percent of the window is taken up to the next multiple of 64, which is 96 percent of it. -/
theorem aligned_placement_exceeds_maximum :
    percentSteps.negotiate (triggeredPolicy (some (.samplesBefore 900)) 100) ⟨1000, some 1000, true⟩ =
        .ok ⟨triggeredPolicy (some (.samplesBefore 900)) 100, triggeredPolicy (some (.samplesBefore 960)) 100⟩ ∧
      ¬InRange ⟨1000, by decide⟩ ⟨9000, by decide⟩ 64 1000 960 := by
  decide

end Placement

section Span

variable {context : CapturePolicyContext}

def CapturePolicyContext.samplesBeforeOrigin (context : CapturePolicyContext) : TriggerPlacement → Option Nat
  | .fraction fraction => context.captureWindowSamples.map fun window => (fraction.samplesOf window).toNat
  | .samplesBefore samples => some samples.toNat
  | .durationBefore duration => (durationToSamples duration.nanos context.sampleRateHz.toNat).toOption

/-- The samples recorded from the origin on, where their number is finite. -/
def CapturePolicyContext.samplesAfterOrigin (context : CapturePolicyContext) : CompletionPolicy → Option Nat
  | .untilStopped => none
  | .durationAfterOrigin duration => (durationToSamples duration.nanos context.sampleRateHz.toNat).toOption
  | .samplesAfterOrigin samples => some samples.toNat

def CapturePolicy.recordedSamples (policy : CapturePolicy) (context : CapturePolicyContext) : Option Nat :=
  (policy.triggerPlacement.elim (some 0) context.samplesBeforeOrigin).bind fun before =>
    (context.samplesAfterOrigin policy.completion).map (before + ·)

def CapturePolicyContext.NothingBefore (context : CapturePolicyContext) : TriggerPlacement → Prop
  | .fraction fraction => ∀ window ∈ context.captureWindowSamples, window.toNat * fraction.parts < 10000
  | .samplesBefore samples => samples.toNat = 0
  | .durationBefore duration => duration.nanos * context.sampleRateHz.toNat = 0

/-- Two durations of the same rate are as many samples together as they are one by one. -/
def AddUp (first second : Nat) : Prop :=
  (first % 1000000000 = 0 ∨ second % 1000000000 = 0 ∨ 1000000000 < first % 1000000000 + second % 1000000000) ∧
    first + second ≤ (2 ^ 64 - 1) * 1000000000

/-- The samples before the origin and those after it are given in the same unit and add up in it, or there are none
before the origin. -/
def CapturePolicyContext.SpanAddsUp (context : CapturePolicyContext) :
    Option TriggerPlacement → CompletionPolicy → Prop
  | none, _ => True
  | some (.samplesBefore before), .samplesAfterOrigin after => before.toNat + after.toNat < 2 ^ 64
  | some (.durationBefore before), .durationAfterOrigin after =>
    AddUp (before.nanos * context.sampleRateHz.toNat) (after.nanos * context.sampleRateHz.toNat)
  | some placement, _ => context.NothingBefore placement

theorem durationToSamples_eq_some {duration rate samples : Nat} :
    (durationToSamples duration rate).toOption = some samples ↔
      duration * rate < 2 ^ 128 ∧ samples = (duration * rate + 999999999) / 1000000000 ∧ samples < 2 ^ 64 := by
  rw [durationToSamples]
  dsimp only
  split
  · next hwide => exact ⟨fun h => (by cases h), fun h => absurd h.1 (Nat.not_lt.mpr hwide)⟩
  · next hwide =>
    split
    · next hlong => exact ⟨fun h => (by cases h), fun h => absurd h.2.2 (h.2.1 ▸ Nat.not_lt.mpr hlong)⟩
    · next hlong =>
      constructor
      · intro h
        cases h
        exact ⟨Nat.not_le.mp hwide, rfl, Nat.not_le.mp hlong⟩
      · rintro ⟨-, rfl, -⟩
        rfl

theorem samplesBeforeOrigin_eq_zero {placement : TriggerPlacement} {before : Nat}
    (h : context.samplesBeforeOrigin placement = some before) : before = 0 ↔ context.NothingBefore placement := by
  cases placement with
  | fraction fraction =>
    obtain ⟨window, hwindow, rfl⟩ := Option.map_eq_some_iff.mp h
    simp only [CapturePolicyContext.NothingBefore, hwindow, Option.mem_some, forall_eq', fraction.samplesOf_toNat]
    omega
  | samplesBefore samples =>
    cases h
    exact Iff.rfl
  | durationBefore duration =>
    obtain ⟨-, rfl, -⟩ := durationToSamples_eq_some.mp h
    simp only [CapturePolicyContext.NothingBefore]
    omega

theorem recordedSamples_eq_some {policy : CapturePolicy} {total : Nat} :
    policy.recordedSamples context = some total ↔
      ∃ before after, policy.triggerPlacement.elim (some 0) context.samplesBeforeOrigin = some before ∧
        context.samplesAfterOrigin policy.completion = some after ∧ before + after = total := by
  simp only [CapturePolicy.recordedSamples, Option.bind_eq_some_iff, Option.map_eq_some_iff, exists_and_left]

theorem roundedUp_add_iff {first second : Nat} :
    (first + second + 999999999) / 1000000000 = (first + 999999999) / 1000000000 + (second + 999999999) / 1000000000 ↔
      first % 1000000000 = 0 ∨ second % 1000000000 = 0 ∨ 1000000000 < first % 1000000000 + second % 1000000000 := by
  omega

/-- Two durations together are as many samples as one by one, and the sum is not cut off. -/
theorem saturatingAdd_samples_iff {first second : Duration} {rate before after : Nat}
    (hbefore : (durationToSamples first.nanos rate).toOption = some before)
    (hafter : (durationToSamples second.nanos rate).toOption = some after) :
    (durationToSamples (first.saturatingAdd second).nanos rate).toOption = some (before + after) ↔
      AddUp (first.nanos * rate) (second.nanos * rate) := by
  obtain ⟨-, rfl, hlt⟩ := durationToSamples_eq_some.mp hbefore
  obtain ⟨-, rfl, hlt'⟩ := durationToSamples_eq_some.mp hafter
  rw [durationToSamples_eq_some, AddUp, ← roundedUp_add_iff, Duration.saturatingAdd]
  dsimp only
  have hmul : (first.nanos + second.nanos) * rate = first.nanos * rate + second.nanos * rate := Nat.add_mul _ _ _
  rcases Nat.lt_or_ge (first.nanos + second.nanos) (2 ^ 64 * 1000000000) with hfits | hcut
  · rw [min_eq_left (by omega), hmul]
    constructor
    · rintro ⟨-, hsum, hbound⟩
      exact ⟨hsum.symm, by omega⟩
    · rintro ⟨hsum, hbound⟩
      exact ⟨by omega, hsum.symm, by omega⟩
  · rw [min_eq_right (by omega)]
    cases rate with
    | zero => simp
    | succ rate =>
      have hlarge : 2 ^ 64 * 1000000000 - 1 ≤ (2 ^ 64 * 1000000000 - 1) * (rate + 1) := Nat.le_mul_of_pos_right _ (by omega)
      have hlarge' : first.nanos + second.nanos ≤ (first.nanos + second.nanos) * (rate + 1) :=
        Nat.le_mul_of_pos_right _ (by omega)
      constructor
      · rintro ⟨-, hsum, hbound⟩
        omega
      · rintro ⟨hsum, hbound⟩
        omega

variable {policy : EffectiveCapturePolicy}

theorem captureNow_unconverted {before after : Nat}
    (hsame : policy.captureNow.effective.completion = policy.effective.completion)
    (hafter : context.samplesAfterOrigin policy.effective.completion = some after) :
    policy.captureNow.effective.recordedSamples context = some (before + after) ↔ before = 0 := by
  rw [CapturePolicy.recordedSamples, hsame, hafter]
  simp [EffectiveCapturePolicy.captureNow]

theorem captureNow_recordedSamples_iff {total : Nat} (htotal : policy.effective.recordedSamples context = some total) :
    policy.captureNow.effective.recordedSamples context = some total ↔
      context.SpanAddsUp policy.effective.triggerPlacement policy.effective.completion := by
  obtain ⟨requested, ⟨start, placement, retentionBefore, retentionAfter, completion, timeout⟩⟩ := policy
  obtain ⟨before, after, hbefore, hafter, rfl⟩ := recordedSamples_eq_some.mp htotal
  dsimp only at hbefore hafter
  cases placement with
  | none =>
    cases hbefore
    exact (captureNow_unconverted rfl hafter).trans (iff_of_true rfl trivial)
  | some placement =>
    rw [Option.elim_some] at hbefore
    cases placement with
    | fraction fraction => exact (captureNow_unconverted rfl hafter).trans (samplesBeforeOrigin_eq_zero hbefore)
    | samplesBefore samples =>
      cases completion with
      | untilStopped => cases hafter
      | durationAfterOrigin duration => exact (captureNow_unconverted rfl hafter).trans (samplesBeforeOrigin_eq_zero hbefore)
      | samplesAfterOrigin count =>
        cases hbefore
        cases hafter
        simp only [CapturePolicy.recordedSamples, EffectiveCapturePolicy.captureNow, CapturePolicyContext.SpanAddsUp,
          CapturePolicyContext.samplesAfterOrigin, Option.elim_none, Option.bind_some, Option.map_some, Nat.zero_add,
          UInt64.toNat_ofNat', Option.some.injEq]
        omega
    | durationBefore duration =>
      cases completion with
      | untilStopped => cases hafter
      | durationAfterOrigin later =>
        simp only [CapturePolicy.recordedSamples, EffectiveCapturePolicy.captureNow, CapturePolicyContext.SpanAddsUp,
          CapturePolicyContext.samplesAfterOrigin, Option.elim_none, Option.bind_some, Nat.zero_add, Option.map_id']
        exact saturatingAdd_samples_iff hbefore hafter
      | samplesAfterOrigin count => exact (captureNow_unconverted rfl hafter).trans (samplesBeforeOrigin_eq_zero hbefore)

theorem capture_now_preserves_span_iff {capabilities : CapturePolicyCapabilities} {requested : CapturePolicy}
    {policy : EffectiveCapturePolicy} {total : Nat} (hnegotiated : capabilities.negotiate requested context = .ok policy)
    (htotal : policy.effective.recordedSamples context = some total) :
    policy.captureNow.effective.recordedSamples context = some total ↔
      context.SpanAddsUp policy.effective.triggerPlacement requested.completion := by
  obtain ⟨placement, -, rfl⟩ := negotiate_cases hnegotiated
  exact captureNow_recordedSamples_iff htotal

theorem quarter_second_span_preserved : (EffectiveCapturePolicy.captureNow
    ⟨triggeredPolicy (some (.durationBefore ⟨250000000, by decide⟩)) 750,
      triggeredPolicy (some (.samplesBefore 256)) 750⟩).effective.recordedSamples ⟨1000, some 1000, true⟩ =
      some 1006 := by
  have hnegotiated : percentSteps.negotiate (triggeredPolicy (some (.durationBefore ⟨250000000, by decide⟩)) 750)
      ⟨1000, some 1000, true⟩ = .ok ⟨triggeredPolicy (some (.durationBefore ⟨250000000, by decide⟩)) 750,
        triggeredPolicy (some (.samplesBefore 256)) 750⟩ := by decide
  have hfits : (256 : UInt64).toNat + (750 : UInt64).toNat < 2 ^ 64 := by decide
  exact (capture_now_preserves_span_iff hnegotiated (by decide)).mpr hfits

/-- With the trigger in the middle of the window, a capture started at once records half of it. -/
theorem fixed_fraction_span_halved :
    CapturePolicyCapabilities.finiteDefault.negotiate (triggeredPolicy none 1000) ⟨1000, some 2000, true⟩ =
        .ok ⟨triggeredPolicy none 1000, triggeredPolicy (some (.fraction ⟨5000, by decide⟩)) 1000⟩ ∧
      (triggeredPolicy (some (.fraction ⟨5000, by decide⟩)) 1000).recordedSamples ⟨1000, some 2000, true⟩ = some 2000 ∧
      (EffectiveCapturePolicy.captureNow ⟨triggeredPolicy none 1000,
        triggeredPolicy (some (.fraction ⟨5000, by decide⟩)) 1000⟩).effective.recordedSamples
          ⟨1000, some 2000, true⟩ = some 1000 := by
  decide

end Span

end LogicConduit
