import Mathlib.Algebra.Group.Nat.Defs
import Mathlib.Data.List.DropRight

namespace LogicConduit

inductive RetentionPolicy
  | everything
  -- a duration in nanoseconds
  | recentDuration (duration : Nat)
  | recentBytes (bytes : UInt64)
  | deviceManaged
  deriving DecidableEq

inductive CapturePolicyError
  | invalid (message : String)
  | unsupported (message : String)
  | unsafeReclamation (requested safe : Nat)
  deriving DecidableEq

/-- What is committed so far, in unsigned numbers of 64 bits. -/
structure CaptureProgress where
  committedSamples : Nat
  committedBytes : Nat
  recordingOrigin : Option Nat
  samples_lt : committedSamples < 2 ^ 64
  origin_lt : ∀ origin ∈ recordingOrigin, origin < 2 ^ 64

/-- The product is an unsigned number of 128 bits. -/
def durationToSamples (duration sampleRateHz : Nat) : Except CapturePolicyError Nat :=
  if 2 ^ 128 ≤ duration * sampleRateHz then .error (.invalid "duration-to-samples overflow")
  else
    let samples := (duration * sampleRateHz + 999999999) / 1000000000
    if 2 ^ 64 ≤ samples then .error (.invalid "duration is too long") else .ok samples

def bytesToSamples (bytes : UInt64) (progress : CaptureProgress) : Nat :=
  bytes.toNat * progress.committedSamples / progress.committedBytes

def retentionBoundary (policy : RetentionPolicy) (extentSamples : Nat) (progress : CaptureProgress)
    (sampleRateHz : Nat) : Nat :=
  match policy with
  | .everything => 0
  | .deviceManaged => 0
  | .recentDuration duration =>
    match durationToSamples duration sampleRateHz with
    | .ok retained => extentSamples - retained
    | .error _ => extentSamples - (2 ^ 64 - 1)
  | .recentBytes bytes =>
    if progress.committedBytes = 0 then 0
    -- `as u64` narrows the quotient
    else extentSamples - bytesToSamples bytes progress % 2 ^ 64

structure CaptureRetentionTracker where
  sampleRateHz : Nat
  before : RetentionPolicy
  after : RetentionPolicy
  retainedStartSample : Nat
  nextPin : Nat
  pins : Std.TreeMap Nat Nat

inductive RetentionCall
  | pinFrom (sample : Nat)
  | updatePin (pin sample : Nat)
  | unpin (pin : Nat)
  | recordReclaimedTo (requested : Nat) (progress : CaptureProgress)

inductive RetentionAnswer
  | pin (pin : Nat)
  | found (known : Bool)
  | reclaimed (result : Except CapturePolicyError Unit)

namespace CaptureRetentionTracker

def new (sampleRateHz : Nat) (before after : RetentionPolicy) : Except CapturePolicyError CaptureRetentionTracker :=
  if sampleRateHz = 0 then .error (.invalid "retention tracking requires a non-zero sample rate")
  else .ok ⟨sampleRateHz, before, after, 0, 1, ∅⟩

variable (tracker : CaptureRetentionTracker)

def pinFrom (sample : Nat) : CaptureRetentionTracker × Nat :=
  ({ tracker with
    nextPin := min (tracker.nextPin + 1) (2 ^ 64 - 1)
    pins := tracker.pins.insert tracker.nextPin sample }, tracker.nextPin)

def updatePin (pin sample : Nat) : CaptureRetentionTracker × Bool :=
  if tracker.pins.contains pin then ({ tracker with pins := tracker.pins.insert pin sample }, true)
  else (tracker, false)

def unpin (pin : Nat) : CaptureRetentionTracker × Bool :=
  ({ tracker with pins := tracker.pins.erase pin }, tracker.pins.contains pin)

def policyBoundary (progress : CaptureProgress) : Nat :=
  match progress.recordingOrigin with
  | none => retentionBoundary tracker.before progress.committedSamples progress tracker.sampleRateHz
  | some 0 => retentionBoundary tracker.after progress.committedSamples progress tracker.sampleRateHz
  | some origin =>
    min (retentionBoundary tracker.before origin progress tracker.sampleRateHz)
      (min (origin + retentionBoundary tracker.after (progress.committedSamples - origin) progress
        tracker.sampleRateHz) (2 ^ 64 - 1))

def earliestPin : Option Nat := (tracker.pins.toList.map Prod.snd).min?

def safeReclaimBefore (progress : CaptureProgress) : Nat :=
  max (match tracker.earliestPin with
    | none => tracker.policyBoundary progress
    | some pinned => min (tracker.policyBoundary progress) pinned) tracker.retainedStartSample

def recordReclaimedTo (requested : Nat) (progress : CaptureProgress) :
    CaptureRetentionTracker × Except CapturePolicyError Unit :=
  if requested < tracker.retainedStartSample ∨ tracker.safeReclaimBefore progress < requested then
    (tracker, .error (.unsafeReclamation requested (tracker.safeReclaimBefore progress)))
  else ({ tracker with retainedStartSample := requested }, .ok ())

def call : RetentionCall → CaptureRetentionTracker × RetentionAnswer
  | .pinFrom sample => (tracker.pinFrom sample).map id .pin
  | .updatePin pin sample => (tracker.updatePin pin sample).map id .found
  | .unpin pin => (tracker.unpin pin).map id .found
  | .recordReclaimedTo requested progress => (tracker.recordReclaimedTo requested progress).map id .reclaimed

def run (calls : List RetentionCall) : CaptureRetentionTracker :=
  calls.foldl (fun tracker next => (tracker.call next).1) tracker

end CaptureRetentionTracker

namespace RetentionPolicy

/-- The start of the window that a policy promises of `extent` samples, in numbers without a bound. -/
def promisedStart (policy : RetentionPolicy) (extent : Nat) (progress : CaptureProgress) (sampleRateHz : Nat) : Nat :=
  match policy with
  | .everything => 0
  | .deviceManaged => 0
  | .recentDuration duration => extent - (duration * sampleRateHz + 999999999) / 1000000000
  | .recentBytes bytes => if progress.committedBytes = 0 then 0 else extent - bytesToSamples bytes progress

def Fits (policy : RetentionPolicy) (progress : CaptureProgress) : Prop :=
  ∀ bytes, policy = .recentBytes bytes → progress.committedBytes ≠ 0 → bytesToSamples bytes progress < 2 ^ 64

/-- The other policy is the same, or of the same kind and keeps as much or more. -/
inductive KeepsLess : RetentionPolicy → RetentionPolicy → Prop
  | same (policy : RetentionPolicy) : KeepsLess policy policy
  | duration {less more : Nat} : less ≤ more → KeepsLess (.recentDuration less) (.recentDuration more)
  | bytes {less more : UInt64} : less ≤ more → KeepsLess (.recentBytes less) (.recentBytes more)

variable {policy less more : RetentionPolicy} {extent : Nat} {progress : CaptureProgress}

theorem retentionBoundary_eq (hextent : extent < 2 ^ 64) (hfits : policy.Fits progress) (sampleRateHz : Nat) :
    retentionBoundary policy extent progress sampleRateHz = policy.promisedStart extent progress sampleRateHz := by
  cases policy with
  | everything => rfl
  | deviceManaged => rfl
  | recentDuration duration =>
    simp only [retentionBoundary, promisedStart, durationToSamples]
    split
    next retained hsamples =>
      split at hsamples
      · cases hsamples
      · split at hsamples
        · cases hsamples
        · cases hsamples
          rfl
    next error hsamples =>
      split at hsamples
      · omega
      · split at hsamples
        · omega
        · cases hsamples
  | recentBytes bytes =>
    simp only [retentionBoundary, promisedStart]
    split
    · rfl
    next hbytes => rw [Nat.mod_eq_of_lt (hfits bytes rfl hbytes)]

theorem Fits.of_less (h : KeepsLess less more) (hfits : more.Fits progress) : less.Fits progress := by
  cases h with
  | same => exact hfits
  | duration => exact fun bytes heq => nomatch heq
  | bytes hle =>
    intro bytes heq hbytes
    cases heq
    have hproduct := Nat.mul_le_mul_right progress.committedSamples (UInt64.le_iff_toNat_le.mp hle)
    exact Nat.lt_of_le_of_lt (Nat.div_le_div_right hproduct) (hfits _ rfl hbytes)

theorem KeepsLess.promisedStart_le (h : KeepsLess less more) (extent : Nat) (progress : CaptureProgress)
    (sampleRateHz : Nat) :
    more.promisedStart extent progress sampleRateHz ≤ less.promisedStart extent progress sampleRateHz := by
  cases h with
  | same => exact Nat.le_refl _
  | @duration less more hle =>
    have hproduct := Nat.mul_le_mul_right sampleRateHz hle
    simp only [promisedStart]
    omega
  | @bytes less more hle =>
    have hproduct := Nat.mul_le_mul_right progress.committedSamples (UInt64.le_iff_toNat_le.mp hle)
    have hquotient : bytesToSamples less progress ≤ bytesToSamples more progress := Nat.div_le_div_right hproduct
    simp only [promisedStart]
    split
    · exact Nat.le_refl _
    · omega

end RetentionPolicy

namespace CaptureRetentionTracker

variable {tracker : CaptureRetentionTracker} {progress : CaptureProgress}

def windowStart (tracker : CaptureRetentionTracker) (progress : CaptureProgress) : Nat :=
  match progress.recordingOrigin with
  | none => tracker.before.promisedStart progress.committedSamples progress tracker.sampleRateHz
  | some 0 => tracker.after.promisedStart progress.committedSamples progress tracker.sampleRateHz
  | some origin =>
    min (tracker.before.promisedStart origin progress tracker.sampleRateHz)
      (origin + tracker.after.promisedStart (progress.committedSamples - origin) progress tracker.sampleRateHz)

/-- No policy that the progress makes count has a budget beyond 64 bits. -/
def Fits (tracker : CaptureRetentionTracker) (progress : CaptureProgress) : Prop :=
  (progress.recordingOrigin ≠ some 0 → tracker.before.Fits progress) ∧
    (progress.recordingOrigin ≠ none → tracker.after.Fits progress)

theorem promisedStart_le (policy : RetentionPolicy) (extent : Nat) (progress : CaptureProgress) (sampleRateHz : Nat) :
    policy.promisedStart extent progress sampleRateHz ≤ extent := by
  cases policy with
  | everything => exact Nat.zero_le _
  | deviceManaged => exact Nat.zero_le _
  | recentDuration duration => exact Nat.sub_le _ _
  | recentBytes bytes =>
    simp only [RetentionPolicy.promisedStart]
    split
    · exact Nat.zero_le _
    · exact Nat.sub_le _ _

theorem policyBoundary_eq (hfits : tracker.Fits progress) :
    tracker.policyBoundary progress = tracker.windowStart progress := by
  obtain ⟨hbefore, hafter⟩ := hfits
  have hsamples := progress.samples_lt
  cases horigin : progress.recordingOrigin with
  | none =>
    simp only [policyBoundary, windowStart, horigin]
    exact RetentionPolicy.retentionBoundary_eq hsamples (hbefore (by simp [horigin])) _
  | some origin =>
    cases origin with
    | zero =>
      simp only [policyBoundary, windowStart, horigin]
      exact RetentionPolicy.retentionBoundary_eq hsamples (hafter (by simp [horigin])) _
    | succ origin =>
      have hlt := progress.origin_lt _ horigin
      have hrest : progress.committedSamples - (origin + 1) < 2 ^ 64 := by omega
      have hle := promisedStart_le tracker.after (progress.committedSamples - (origin + 1)) progress tracker.sampleRateHz
      have hroom : min (origin + 1 + tracker.after.promisedStart (progress.committedSamples - (origin + 1)) progress
          tracker.sampleRateHz) (2 ^ 64 - 1) =
          origin + 1 + tracker.after.promisedStart (progress.committedSamples - (origin + 1)) progress
            tracker.sampleRateHz :=
        Nat.min_eq_left (by omega)
      simp only [policyBoundary, windowStart, horigin]
      rw [RetentionPolicy.retentionBoundary_eq hlt (hbefore (by simp [horigin])),
        RetentionPolicy.retentionBoundary_eq hrest (hafter (by simp [horigin])), hroom]

theorem earliestPin_le {pin sample : Nat} (h : tracker.pins[pin]? = some sample) :
    ∃ earliest, tracker.earliestPin = some earliest ∧ earliest ≤ sample := by
  have hmem : sample ∈ tracker.pins.toList.map Prod.snd :=
    List.mem_map.mpr ⟨(pin, sample), Std.TreeMap.mem_toList_iff_getElem?_eq_some.mpr h, rfl⟩
  cases hmin : tracker.earliestPin with
  | none =>
    rw [earliestPin, List.min?_eq_none_iff] at hmin
    rw [hmin] at hmem
    cases hmem
  | some earliest => exact ⟨earliest, rfl, (List.min?_eq_some_iff.mp hmin).2 sample hmem⟩

theorem safeReclaimBefore_bounds (hadvance : tracker.retainedStartSample < tracker.safeReclaimBefore progress) :
    tracker.safeReclaimBefore progress ≤ tracker.policyBoundary progress ∧
      ∀ pin sample : Nat, tracker.pins[pin]? = some sample → tracker.safeReclaimBefore progress ≤ sample := by
  unfold safeReclaimBefore at hadvance ⊢
  cases hmin : tracker.earliestPin with
  | none =>
    rw [hmin] at hadvance
    dsimp only at hadvance ⊢
    refine ⟨by omega, ?_⟩
    intro pin sample hpin
    obtain ⟨earliest, hsome, -⟩ := earliestPin_le hpin
    rw [hmin] at hsome
    cases hsome
  | some pinned =>
    rw [hmin] at hadvance
    dsimp only at hadvance ⊢
    refine ⟨by omega, ?_⟩
    intro pin sample hpin
    obtain ⟨earliest, hsome, hle⟩ := earliestPin_le hpin
    rw [hmin] at hsome
    cases hsome
    omega

theorem call_cases (next : RetentionCall) :
    (tracker.call next).1.retainedStartSample = tracker.retainedStartSample ∨
    ∃ requested progress, next = .recordReclaimedTo requested progress ∧
      tracker.retainedStartSample ≤ requested ∧ requested ≤ tracker.safeReclaimBefore progress ∧
      (tracker.call next).1 = { tracker with retainedStartSample := requested } := by
  cases next with
  | pinFrom sample => exact Or.inl rfl
  | updatePin pin sample =>
    left
    simp only [call, updatePin]
    split <;> rfl
  | unpin pin => exact Or.inl rfl
  | recordReclaimedTo requested progress =>
    simp only [call, recordReclaimedTo]
    split
    · exact Or.inl rfl
    next hsafe =>
      rw [not_or, Nat.not_lt, Nat.not_lt] at hsafe
      exact Or.inr ⟨requested, progress, rfl, hsafe.1, hsafe.2, rfl⟩

theorem call_mono (next : RetentionCall) : tracker.retainedStartSample ≤ (tracker.call next).1.retainedStartSample := by
  rcases call_cases next with hsame | ⟨requested, progress, -, hle, -, heq⟩
  · exact Nat.le_of_eq hsame.symm
  · rw [heq]
    exact hle

theorem run_mono (tracker : CaptureRetentionTracker) (calls : List RetentionCall) :
    tracker.retainedStartSample ≤ (tracker.run calls).retainedStartSample := by
  induction calls generalizing tracker with
  | nil => exact Nat.le_refl _
  | cons next calls ih => exact Nat.le_trans (call_mono next) (ih (tracker.call next).1)

theorem run_append (tracker : CaptureRetentionTracker) (calls more : List RetentionCall) :
    tracker.run (calls ++ more) = (tracker.run calls).run more :=
  List.foldl_append

theorem call_policies (next : RetentionCall) :
    (tracker.call next).1.before = tracker.before ∧ (tracker.call next).1.after = tracker.after := by
  cases next with
  | pinFrom sample => exact ⟨rfl, rfl⟩
  | updatePin pin sample =>
    simp only [call, updatePin]
    split <;> exact ⟨rfl, rfl⟩
  | unpin pin => exact ⟨rfl, rfl⟩
  | recordReclaimedTo requested progress =>
    simp only [call, recordReclaimedTo]
    split <;> exact ⟨rfl, rfl⟩

variable {before after : RetentionPolicy}

theorem run_policies {sampleRateHz : Nat} (hnew : new sampleRateHz before after = .ok tracker)
    (calls : List RetentionCall) :
    (tracker.run calls).before = before ∧ (tracker.run calls).after = after := by
  have hrun (start : CaptureRetentionTracker) (calls : List RetentionCall) :
      (start.run calls).before = start.before ∧ (start.run calls).after = start.after := by
    induction calls generalizing start with
    | nil => exact ⟨rfl, rfl⟩
    | cons next calls ih =>
      have hstep := @call_policies start next
      exact ⟨(ih _).1.trans hstep.1, (ih _).2.trans hstep.2⟩
  rw [new] at hnew
  split at hnew
  · cases hnew
  · cases hnew
    exact hrun _ calls

/-- What the tracker keeps beyond its policies: the other policies are the same or keep more. -/
theorem safeReclaimBefore_le (hbefore : tracker.before.KeepsLess before) (hafter : tracker.after.KeepsLess after)
    (hfits : Fits { tracker with before, after } progress) :
    safeReclaimBefore { tracker with before, after } progress ≤ tracker.safeReclaimBefore progress := by
  have hless : tracker.Fits progress :=
    ⟨fun h => RetentionPolicy.Fits.of_less hbefore (hfits.1 h), fun h => RetentionPolicy.Fits.of_less hafter (hfits.2 h)⟩
  have hstart : windowStart { tracker with before, after } progress ≤ tracker.windowStart progress := by
    unfold windowStart
    split
    · exact hbefore.promisedStart_le _ _ _
    · exact hafter.promisedStart_le _ _ _
    next origin _ _ =>
      have hstart := hbefore.promisedStart_le origin progress tracker.sampleRateHz
      have hrest := hafter.promisedStart_le (progress.committedSamples - origin) progress tracker.sampleRateHz
      dsimp only
      omega
  rw [safeReclaimBefore, safeReclaimBefore, policyBoundary_eq hfits, policyBoundary_eq hless]
  show max (match tracker.earliestPin with
    | none => windowStart { tracker with before, after } progress
    | some pinned => min (windowStart { tracker with before, after } progress) pinned) tracker.retainedStartSample ≤ _
  cases tracker.earliestPin with
  | none =>
    dsimp only
    omega
  | some pinned =>
    dsimp only
    omega

/-- A successful acknowledgement that moves the start keeps it behind every pin, and behind the promised
window where the budgets fit. -/
theorem recordReclaimedTo_bounds {requested : Nat} (hok : (tracker.recordReclaimedTo requested progress).2 = .ok ())
    (hadvance : tracker.retainedStartSample < (tracker.recordReclaimedTo requested progress).1.retainedStartSample) :
    (∀ pin sample : Nat, (tracker.recordReclaimedTo requested progress).1.pins[pin]? = some sample →
      (tracker.recordReclaimedTo requested progress).1.retainedStartSample ≤ sample) ∧
    (tracker.Fits progress →
      (tracker.recordReclaimedTo requested progress).1.retainedStartSample ≤ tracker.windowStart progress) := by
  by_cases hrefused : requested < tracker.retainedStartSample ∨ tracker.safeReclaimBefore progress < requested
  · rw [recordReclaimedTo, if_pos hrefused] at hok
    cases hok
  · rw [recordReclaimedTo, if_neg hrefused] at hadvance ⊢
    rw [not_or, Nat.not_lt, Nat.not_lt] at hrefused
    dsimp only at hadvance ⊢
    have hsafe := safeReclaimBefore_bounds (Nat.lt_of_lt_of_le hadvance hrefused.2)
    refine ⟨fun pin sample hpin => Nat.le_trans hrefused.2 (hsafe.2 pin sample hpin), fun hfits => ?_⟩
    rw [← policyBoundary_eq hfits]
    exact Nat.le_trans hrefused.2 hsafe.1

end CaptureRetentionTracker

/-- A tracker never moves its start back; an acknowledgement keeps the pinned samples, and the promised
window where no budget of bytes outgrows 64 bits; there a policy that keeps more reclaims no more. -/
theorem retention_is_safe {sampleRateHz : Nat} {before after : RetentionPolicy} {tracker : CaptureRetentionTracker}
    (hnew : CaptureRetentionTracker.new sampleRateHz before after = .ok tracker) (calls : List RetentionCall) :
    (∀ more : List RetentionCall,
      (tracker.run calls).retainedStartSample ≤ (tracker.run (calls ++ more)).retainedStartSample) ∧
    (∀ (requested : Nat) (progress : CaptureProgress) (reclaimed : CaptureRetentionTracker),
      (tracker.run calls).recordReclaimedTo requested progress = (reclaimed, .ok ()) →
      (tracker.run calls).retainedStartSample < reclaimed.retainedStartSample →
      (∀ pin sample : Nat, reclaimed.pins[pin]? = some sample → reclaimed.retainedStartSample ≤ sample) ∧
      ((tracker.run calls).Fits progress →
        reclaimed.retainedStartSample ≤ (tracker.run calls).windowStart progress)) ∧
    ∀ (progress : CaptureProgress) (before' after' : RetentionPolicy), before.KeepsLess before' →
      after.KeepsLess after' →
      CaptureRetentionTracker.Fits { tracker.run calls with before := before', after := after' } progress →
      CaptureRetentionTracker.safeReclaimBefore { tracker.run calls with before := before', after := after' } progress ≤
        (tracker.run calls).safeReclaimBefore progress := by
  have hpolicies := CaptureRetentionTracker.run_policies hnew calls
  refine ⟨fun more => ?_, ?_, ?_⟩
  · rw [CaptureRetentionTracker.run_append]
    exact CaptureRetentionTracker.run_mono _ more
  · intro requested progress reclaimed hrecord hadvance
    have hok : ((tracker.run calls).recordReclaimedTo requested progress).2 = .ok () := by rw [hrecord]
    have hreclaimed : ((tracker.run calls).recordReclaimedTo requested progress).1 = reclaimed := by rw [hrecord]
    rw [← hreclaimed] at hadvance ⊢
    exact CaptureRetentionTracker.recordReclaimedTo_bounds hok hadvance
  · intro progress before' after' hbefore hafter hfits
    rw [← hpolicies.1] at hbefore
    rw [← hpolicies.2] at hafter
    exact CaptureRetentionTracker.safeReclaimBefore_le hbefore hafter hfits

def twoBudgets : CaptureRetentionTracker :=
  ⟨1000, .recentBytes 1000, .recentBytes 3000, 0, 1, ∅⟩

def twoPins : List RetentionCall := [.pinFrom 500, .pinFrom 800, .updatePin 1 3500, .updatePin 2 1600]

/-- Two bytes for each sample. -/
def twoByteSamples : CaptureProgress := ⟨5000, 10000, some 2000, by decide, by simp⟩

/-- Two consumers pin a capture and move on before all but 500 samples before the origin are reclaimed. -/
theorem retention_is_safe_two_pins :
    (∀ more : List RetentionCall, (twoBudgets.run twoPins).retainedStartSample ≤
      (twoBudgets.run (twoPins ++ more)).retainedStartSample) ∧
    ((twoBudgets.run twoPins).recordReclaimedTo 1500 twoByteSamples).1.retainedStartSample = 1500 ∧
    ((twoBudgets.run twoPins).recordReclaimedTo 1500 twoByteSamples).1.retainedStartSample ≤
      (twoBudgets.run twoPins).windowStart twoByteSamples ∧
    CaptureRetentionTracker.safeReclaimBefore
      { twoBudgets.run twoPins with before := .recentBytes 2000, after := .recentBytes 4000 } twoByteSamples ≤
        (twoBudgets.run twoPins).safeReclaimBefore twoByteSamples := by
  have hnew : CaptureRetentionTracker.new 1000 (.recentBytes 1000) (.recentBytes 3000) = .ok twoBudgets := rfl
  have hsafe := retention_is_safe hnew twoPins
  have hfits {bytes : UInt64} (h : bytesToSamples bytes twoByteSamples < 2 ^ 64) :
      (RetentionPolicy.recentBytes bytes).Fits twoByteSamples := by
    intro other heq _
    obtain rfl := RetentionPolicy.recentBytes.inj heq
    exact h
  refine ⟨hsafe.1, by decide, ?_, ?_⟩
  · exact (hsafe.2.1 1500 twoByteSamples _ rfl (by decide)).2 ⟨fun _ => hfits (by decide), fun _ => hfits (by decide)⟩
  · exact hsafe.2.2 twoByteSamples _ _ (.bytes (by decide)) (.bytes (by decide))
      ⟨fun _ => hfits (by decide), fun _ => hfits (by decide)⟩

def oneByte : CaptureProgress := ⟨8, 1, none, by decide, by simp⟩

def keepingBytes (bytes : UInt64) : CaptureRetentionTracker :=
  ⟨1, .recentBytes bytes, .recentBytes bytes, 0, 1, ∅⟩

/-- A budget of `2 ^ 61` bytes is `2 ^ 64` samples and wraps to none: the only byte is reclaimed, where a
budget of one byte keeps it. -/
theorem retention_wraps :
    CaptureRetentionTracker.new 1 (.recentBytes 2305843009213693952) (.recentBytes 2305843009213693952) =
      .ok (keepingBytes 2305843009213693952) ∧
    (keepingBytes 2305843009213693952).recordReclaimedTo 8 oneByte =
      ({ keepingBytes 2305843009213693952 with retainedStartSample := 8 }, .ok ()) ∧
    ¬8 ≤ (keepingBytes 2305843009213693952).windowStart oneByte ∧
    ¬(keepingBytes 2305843009213693952).safeReclaimBefore oneByte ≤ (keepingBytes 1).safeReclaimBefore oneByte := by
  refine ⟨rfl, ?_, by decide, by decide⟩
  exact if_neg (by decide)

end LogicConduit
