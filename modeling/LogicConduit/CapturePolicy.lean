import LogicConduit.CaptureRetention
import Mathlib.Algebra.Order.Floor.Div

namespace LogicConduit

inductive RecordingStart
  | immediate
  | trigger
  deriving DecidableEq

structure CaptureFraction where
  parts : Nat
  parts_le : parts ≤ 10000
  deriving DecidableEq

/-- A number of nanoseconds, with seconds of 64 bits. -/
structure Duration where
  nanos : Nat
  nanos_lt : nanos < 2 ^ 64 * 1000000000
  deriving DecidableEq

inductive TriggerPlacement
  | fraction (fraction : CaptureFraction)
  | samplesBefore (samples : UInt64)
  | durationBefore (duration : Duration)
  deriving DecidableEq

inductive CompletionPolicy
  | untilStopped
  | durationAfterOrigin (duration : Duration)
  | samplesAfterOrigin (samples : UInt64)
  deriving DecidableEq

inductive TriggerTimeoutAction
  | continueWaiting
  | stop
  | forceTrigger
  deriving DecidableEq

structure TriggerTimeout where
  after : Duration
  action : TriggerTimeoutAction
  deriving DecidableEq

structure CapturePolicy where
  start : RecordingStart
  triggerPlacement : Option TriggerPlacement
  retentionBeforeOrigin : RetentionPolicy
  retentionAfterOrigin : RetentionPolicy
  completion : CompletionPolicy
  triggerTimeout : Option TriggerTimeout
  deriving DecidableEq

inductive RetentionPolicyKind
  | everything
  | recentDuration
  | recentBytes
  | deviceManaged
  deriving DecidableEq

inductive CompletionPolicyKind
  | untilStopped
  | durationAfterOrigin
  | samplesAfterOrigin
  deriving DecidableEq

inductive TriggerPlacementCapability
  | unsupported
  | fixed (placement : TriggerPlacement)
  | selectableFraction (minimum maximum step : CaptureFraction) (sampleAlignment : UInt64)
  deriving DecidableEq

structure CapturePolicyContext where
  sampleRateHz : UInt64
  captureWindowSamples : Option UInt64
  hasTriggerProgram : Bool

structure EffectiveCapturePolicy where
  requested : CapturePolicy
  effective : CapturePolicy
  deriving DecidableEq

namespace CaptureFraction

def new (parts : Nat) : Except CapturePolicyError CaptureFraction :=
  if h : parts ≤ 10000 then .ok ⟨parts, h⟩ else .error (.invalid "capture fraction must be within 0..=10000")

/-- The product has 128 bits. -/
def samplesOf (fraction : CaptureFraction) (samples : UInt64) : UInt64 :=
  .ofNat (samples.toNat * fraction.parts / 10000)

theorem samplesOf_toNat (fraction : CaptureFraction) (samples : UInt64) :
    (fraction.samplesOf samples).toNat = samples.toNat * fraction.parts / 10000 := by
  have hle : samples.toNat * fraction.parts / 10000 ≤ samples.toNat := by
    have hparts := Nat.mul_le_mul_left samples.toNat fraction.parts_le
    omega
  exact UInt64.toNat_ofNat_of_lt (hle.trans_lt samples.toNat_lt)

end CaptureFraction

def RetentionPolicy.kind : RetentionPolicy → RetentionPolicyKind
  | everything => .everything
  | recentDuration _ => .recentDuration
  | recentBytes _ => .recentBytes
  | deviceManaged => .deviceManaged

def CompletionPolicy.kind : CompletionPolicy → CompletionPolicyKind
  | untilStopped => .untilStopped
  | durationAfterOrigin _ => .durationAfterOrigin
  | samplesAfterOrigin _ => .samplesAfterOrigin

def Duration.saturatingAdd (first second : Duration) : Duration :=
  ⟨min (first.nanos + second.nanos) (2 ^ 64 * 1000000000 - 1), by omega⟩

section Texts

def fractionDigits (fraction width : Nat) : String :=
  if fraction = 0 then ""
  else "." ++ String.ofList (((Nat.toDigits 10 fraction).leftpad width '0').rdropWhile (· == '0'))

def durationText (nanos : Nat) : String :=
  if 1000000000 ≤ nanos then toString (nanos / 1000000000) ++ fractionDigits (nanos % 1000000000) 9 ++ "s"
  else if 1000000 ≤ nanos then toString (nanos / 1000000) ++ fractionDigits (nanos % 1000000) 6 ++ "ms"
  else if 1000 ≤ nanos then toString (nanos / 1000) ++ fractionDigits (nanos % 1000) 3 ++ "µs"
  else toString nanos ++ "ns"

def RecordingStart.text : RecordingStart → String
  | immediate => "Immediate"
  | trigger => "Trigger"

def RetentionPolicy.text : RetentionPolicy → String
  | everything => "Everything"
  | recentDuration duration => "RecentDuration(" ++ durationText duration ++ ")"
  | recentBytes bytes => "RecentBytes(" ++ toString bytes ++ ")"
  | deviceManaged => "DeviceManaged"

def CompletionPolicy.text : CompletionPolicy → String
  | untilStopped => "UntilStopped"
  | durationAfterOrigin duration => "DurationAfterOrigin(" ++ durationText duration.nanos ++ ")"
  | samplesAfterOrigin samples => "SamplesAfterOrigin(" ++ toString samples ++ ")"

def TriggerPlacement.text : TriggerPlacement → String
  | fraction share => "Fraction(CaptureFraction(" ++ toString share.parts ++ "))"
  | samplesBefore samples => "SamplesBefore(" ++ toString samples ++ ")"
  | durationBefore duration => "DurationBefore(" ++ durationText duration.nanos ++ ")"

def TriggerTimeoutAction.text : TriggerTimeoutAction → String
  | continueWaiting => "ContinueWaiting"
  | stop => "Stop"
  | forceTrigger => "ForceTrigger"

end Texts

namespace TriggerPlacementCapability

def WellFormed : TriggerPlacementCapability → Prop
  | selectableFraction minimum maximum step sampleAlignment =>
    minimum.parts ≤ maximum.parts ∧ 0 < step.parts ∧ 0 < sampleAlignment.toNat
  | _ => True

instance (capability : TriggerPlacementCapability) : Decidable capability.WellFormed := by
  cases capability <;> unfold WellFormed <;> infer_instance

end TriggerPlacementCapability

structure CapturePolicyCapabilities where
  recordingStarts : List RecordingStart
  retention : List RetentionPolicyKind
  completion : List CompletionPolicyKind
  triggerPlacement : TriggerPlacementCapability
  triggerTimeoutActions : List TriggerTimeoutAction
  choices : recordingStarts ≠ [] ∧ retention ≠ [] ∧ completion ≠ []
  placement_wellFormed : triggerPlacement.WellFormed

namespace CapturePolicyCapabilities

def new (recordingStarts : List RecordingStart) (retention : List RetentionPolicyKind)
    (completion : List CompletionPolicyKind) (triggerPlacement : TriggerPlacementCapability)
    (triggerTimeoutActions : List TriggerTimeoutAction) : Except CapturePolicyError CapturePolicyCapabilities :=
  if hchoices : recordingStarts ≠ [] ∧ retention ≠ [] ∧ completion ≠ [] then
    if hplacement : triggerPlacement.WellFormed then
      .ok ⟨recordingStarts, retention, completion, triggerPlacement, triggerTimeoutActions, hchoices, hplacement⟩
    else .error (.invalid "selectable trigger placement has an invalid range or alignment")
  else .error (.invalid "capture-policy capabilities require start, retention, and completion choices")

def finiteDefault : CapturePolicyCapabilities where
  recordingStarts := [.immediate, .trigger]
  retention := [.everything]
  completion := [.durationAfterOrigin, .samplesAfterOrigin]
  triggerPlacement := .fixed (.fraction ⟨5000, by decide⟩)
  triggerTimeoutActions := [.continueWaiting, .stop]
  choices := by decide
  placement_wellFormed := trivial

variable (capabilities : CapturePolicyCapabilities)

def checkStart (requested : CapturePolicy) (context : CapturePolicyContext) : Except CapturePolicyError Unit :=
  if requested.start ∉ capabilities.recordingStarts then
    .error (.unsupported ("recording start " ++ requested.start.text ++ " is not supported"))
  else if requested.start = .trigger ∧ context.hasTriggerProgram = false then
    .error (.invalid "triggered recording requires an active trigger program")
  else .ok ()

def checkRetention (retention : RetentionPolicy) : Except CapturePolicyError Unit :=
  if retention.kind ∉ capabilities.retention then
    .error (.unsupported ("retention policy " ++ retention.text ++ " is not supported"))
  else
    match retention with
    | .recentDuration 0 => .error (.invalid "retained duration must be non-zero")
    | .recentBytes 0 => .error (.invalid "retained byte count must be non-zero")
    | _ => .ok ()

def checkCompletion (completion : CompletionPolicy) : Except CapturePolicyError Unit :=
  if completion.kind ∉ capabilities.completion then
    .error (.unsupported ("completion policy " ++ completion.text ++ " is not supported"))
  else
    match completion with
    | .durationAfterOrigin ⟨0, _⟩ => .error (.invalid "completion duration must be non-zero")
    | .samplesAfterOrigin 0 => .error (.invalid "completion sample count must be non-zero")
    | _ => .ok ()

def checkTimeout (requested : CapturePolicy) : Except CapturePolicyError Unit :=
  match requested.triggerTimeout with
  | none => .ok ()
  | some timeout =>
    if requested.start ≠ .trigger then .error (.invalid "a trigger timeout requires triggered recording")
    else if timeout.after.nanos = 0 then .error (.invalid "trigger timeout must be non-zero")
    else if timeout.action ∉ capabilities.triggerTimeoutActions then
      .error (.unsupported ("trigger-timeout action " ++ timeout.action.text ++ " is not supported"))
    else .ok ()

def requestedSamples (context : CapturePolicyContext) (window : UInt64) :
    TriggerPlacement → Except CapturePolicyError Nat
  | .fraction fraction => .ok (fraction.samplesOf window).toNat
  | .samplesBefore samples => .ok samples.toNat
  | .durationBefore duration => durationToSamples duration.nanos context.sampleRateHz.toNat

def stepFraction (minimum maximum step : CaptureFraction) (fractionParts : Nat) : Nat :=
  let relative := fractionParts - minimum.parts
  min (minimum.parts + relative ⌈/⌉ step.parts * step.parts) maximum.parts

/-- The product saturates at the largest number of 64 bits. -/
def alignSamples (samples sampleAlignment window : UInt64) : UInt64 :=
  .ofNat (min (min (samples.toNat ⌈/⌉ sampleAlignment.toNat * sampleAlignment.toNat) (2 ^ 64 - 1)) window.toNat)

def selectFraction (minimum maximum step : CaptureFraction) (sampleAlignment : UInt64)
    (requested : Option TriggerPlacement) (context : CapturePolicyContext) : Except CapturePolicyError TriggerPlacement :=
  match requested with
  | none => .error (.invalid "triggered recording requires a trigger placement")
  | some requested =>
    match context.captureWindowSamples with
    | none => .error (.invalid "selectable trigger placement requires a finite capture window")
    | some window =>
      if window = 0 ∨ context.sampleRateHz = 0 then
        .error (.invalid "capture window and sample rate must be non-zero")
      else
        requestedSamples context window requested >>= fun requestedSamples =>
        if window.toNat < requestedSamples then
          .error (.invalid "trigger placement exceeds the finite capture window")
        else
          let fractionParts := requestedSamples * 10000 / window.toNat
          if fractionParts < minimum.parts ∨ maximum.parts < fractionParts then
            .error (.unsupported ("trigger placement lies outside " ++ toString minimum.parts ++ "..=" ++
              toString maximum.parts ++ " parts"))
          else
            CaptureFraction.new (stepFraction minimum maximum step fractionParts) >>= fun fraction =>
            .ok (.samplesBefore (alignSamples (fraction.samplesOf window) sampleAlignment window))

def negotiateTriggerPlacement (requested : CapturePolicy) (context : CapturePolicyContext) :
    Except CapturePolicyError (Option TriggerPlacement) :=
  if requested.start = .immediate then
    if requested.triggerPlacement.isSome then
      .error (.invalid "immediate recording cannot request trigger placement")
    else .ok none
  else
    match capabilities.triggerPlacement with
    | .unsupported =>
      if requested.triggerPlacement.isSome then .error (.unsupported "trigger placement is not supported")
      else .ok none
    | .fixed fixed =>
      if requested.triggerPlacement.any (· ≠ fixed) then
        .error (.unsupported ("trigger placement is fixed at " ++ fixed.text))
      else .ok (some fixed)
    | .selectableFraction minimum maximum step sampleAlignment =>
      some <$> selectFraction minimum maximum step sampleAlignment requested.triggerPlacement context

def negotiate (requested : CapturePolicy) (context : CapturePolicyContext) :
    Except CapturePolicyError EffectiveCapturePolicy := do
  capabilities.checkStart requested context
  capabilities.checkRetention requested.retentionBeforeOrigin
  capabilities.checkRetention requested.retentionAfterOrigin
  capabilities.checkCompletion requested.completion
  capabilities.checkTimeout requested
  let triggerPlacement ← capabilities.negotiateTriggerPlacement requested context
  return ⟨requested, { requested with triggerPlacement }⟩

end CapturePolicyCapabilities

namespace EffectiveCapturePolicy

variable (policy : EffectiveCapturePolicy)

/-- The policy begins at once, without a placement and without a timeout. -/
def captureNow : EffectiveCapturePolicy where
  requested := policy.requested
  effective :=
    { policy.effective with
      completion :=
        match policy.effective.triggerPlacement, policy.effective.completion with
        | some (.samplesBefore before), .samplesAfterOrigin after =>
          .samplesAfterOrigin (.ofNat (min (before.toNat + after.toNat) (2 ^ 64 - 1)))
        | some (.durationBefore before), .durationAfterOrigin after =>
          .durationAfterOrigin (before.saturatingAdd after)
        | _, completion => completion
      start := .immediate
      triggerPlacement := none
      triggerTimeout := none }

end EffectiveCapturePolicy

end LogicConduit
