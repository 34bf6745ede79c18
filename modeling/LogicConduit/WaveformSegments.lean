import Mathlib.Data.List.Destutter
import Mathlib.Data.List.Sort

namespace LogicConduit

inductive CaptureError
  | parseError (message : String)
  | invalidProbe (probe : Nat)
  | outOfBounds (sample : Nat)
  | cancelled
  deriving DecidableEq

/-- What is known of the levels of an interval. -/
structure WaveformSummary where
  first : Bool
  toggle : Bool
  last : Bool
  deriving DecidableEq

structure WaveformSummaryGrid where
  startSample : Nat
  availableEndSample : Nat
  gridEndSample : Nat
  targetPoints : Nat
  deriving DecidableEq

inductive CaptureWaveformSegment
  | level (startSample endSample : Nat) (value : Bool)
  | edge (sample : Nat) (before after : Bool)
  | activity (startSample endSample : Nat) (first last : Bool)
  deriving DecidableEq

def Waveform.pushLevel (waveform : List CaptureWaveformSegment) (startSample endSample : Nat) (value : Bool) :
    List CaptureWaveformSegment :=
  if endSample ≤ startSample then waveform
  else
    match waveform.getLast? with
    | some (.level previousStart previousEnd previousValue) =>
      if previousEnd = startSample ∧ previousValue = value then
        waveform.dropLast ++ [.level previousStart endSample previousValue]
      else waveform ++ [.level startSample endSample value]
    | _ => waveform ++ [.level startSample endSample value]

def Waveform.pushActivity (waveform : List CaptureWaveformSegment) (startSample endSample : Nat) (first last : Bool) :
    List CaptureWaveformSegment :=
  match waveform.getLast? with
  | some (.activity previousStart previousEnd previousFirst _) =>
    if previousEnd = startSample then
      waveform.dropLast ++ [.activity previousStart endSample previousFirst last]
    else waveform ++ [.activity startSample endSample first last]
  | _ => waveform ++ [.activity startSample endSample first last]

def appendPixelWaveform (startSample endSample : Nat) (summary : WaveformSummary) (previousValue : Bool)
    (waveform : List CaptureWaveformSegment) : List CaptureWaveformSegment :=
  if summary.toggle then Waveform.pushActivity waveform startSample endSample previousValue summary.last
  else if summary.first = previousValue then Waveform.pushLevel waveform startSample endSample summary.first
  else
    Waveform.pushLevel (waveform ++ [.edge startSample previousValue summary.first]) startSample endSample summary.first

/-- The loop over the resolutions that are there, from small to large. -/
def selectResolution (desired : Nat) : Option Nat → List Nat → Option Nat
  | selected, [] => selected
  | selected, resolution :: rest =>
    let selected := if selected.isNone ∨ resolution ≤ desired then some resolution else selected
    if desired < resolution then selected else selectResolution desired selected rest

/-- The largest resolution that a window of so many points asks for, or the smallest there is. -/
def selectWaveformSummaryResolution (windowSamples targetPoints : Nat) (availableResolutions : List Nat) : Option Nat :=
  let points := max targetPoints 1
  let desired := max ((windowSamples + points - 1) / points) 1
  selectResolution desired none ((availableResolutions.insertionSort (· ≤ ·)).destutter (· ≠ ·))

variable {available : List Nat} {selected : Option Nat}

theorem selectResolution_mem {desired resolution : Nat}
    (h : selectResolution desired selected available = some resolution) :
    selected = some resolution ∨ resolution ∈ available := by
  induction available generalizing selected with
  | nil => exact Or.inl h
  | cons first rest ih =>
    have hchosen : ∀ chosen, (if selected.isNone ∨ first ≤ desired then some first else selected) = some chosen →
        selected = some chosen ∨ chosen ∈ first :: rest := by
      intro chosen heq
      split at heq
      next =>
        cases heq
        exact Or.inr List.mem_cons_self
      next => exact Or.inl heq
    rw [selectResolution] at h
    split at h
    next => exact hchosen resolution h
    next =>
      rcases ih h with hselected | hmem
      · exact hchosen resolution hselected
      · exact Or.inr (List.mem_cons_of_mem _ hmem)

theorem selectResolution_isSome {desired : Nat} (h : selected.isSome ∨ available ≠ []) :
    (selectResolution desired selected available).isSome := by
  induction available generalizing selected with
  | nil =>
    rcases h with hsome | hne
    · exact hsome
    · exact absurd rfl hne
  | cons first rest ih =>
    have hchosen : (if selected.isNone ∨ first ≤ desired then some first else selected).isSome := by
      split
      next => rfl
      next hnone =>
        cases selected with
        | none => exact absurd (Or.inl rfl) hnone
        | some value => rfl
    rw [selectResolution]
    split
    · exact hchosen
    · exact ih (Or.inl hchosen)

theorem selectWaveformSummaryResolution_mem (windowSamples targetPoints : Nat) (h : available ≠ []) :
    ∃ resolution ∈ available, selectWaveformSummaryResolution windowSamples targetPoints available = some resolution := by
  have hne : (available.insertionSort (· ≤ ·)).destutter (· ≠ ·) ≠ [] := by
    intro hnil
    have hsorted := (List.destutter_eq_nil _).mp hnil
    have hlength := List.length_insertionSort (· ≤ ·) available
    rw [hsorted] at hlength
    exact h (List.length_eq_zero_iff.mp hlength.symm)
  have hsome : (selectWaveformSummaryResolution windowSamples targetPoints available).isSome :=
    selectResolution_isSome (Or.inr hne)
  obtain ⟨resolution, hselected⟩ := Option.isSome_iff_exists.mp hsome
  refine ⟨resolution, ?_, hselected⟩
  rcases selectResolution_mem hselected with hnone | hmem
  · cases hnone
  · exact (List.mem_insertionSort _).mp ((List.destutter_sublist _ _).subset hmem)

namespace WaveformSummaryGrid

def points (grid : WaveformSummaryGrid) : Nat := max grid.targetPoints 1

end WaveformSummaryGrid

structure PixelState where
  previousEnd : Nat
  previousValue : Bool
  waveform : List CaptureWaveformSegment

structure CaptureSampledChannel where
  channel : Nat
  name : String
  initial : Bool
  waveform : List CaptureWaveformSegment
  deriving DecidableEq

/-- The level at `s` differs from the level before it. -/
def Turns (signal : Nat → Bool) (s : Nat) : Prop := signal s ≠ signal (s - 1)

end LogicConduit
