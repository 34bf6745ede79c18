import LogicConduit.ByteRegion

namespace LogicConduit

def u64Max : Nat := 2 ^ 64 - 1

def saturatingAdd (a b : Nat) : Nat := min (a + b) u64Max

theorem saturatingAdd_eq {a b : Nat} (h : a + b ≤ u64Max) : saturatingAdd a b = a + b := min_eq_left h

/-- Optional non-numeric content of a decoded word. -/
inductive WordPayload
  | bytes (value : Bytes)
  | text (value : String)
  deriving DecidableEq

/-- A single decoded item of a word stream. -/
structure Word where
  value : UInt64
  payload : Option WordPayload
  timestampNs : UInt64
  durationNs : UInt64
  deriving DecidableEq

namespace Word

def new (value timestampNs : UInt64) : Word := ⟨value, none, timestampNs, 0⟩

def isNumeric (word : Word) : Bool := word.payload.isNone

def time (word : Word) : Nat := word.timestampNs.toNat

def duration (word : Word) : Nat := word.durationNs.toNat

theorem time_lt (word : Word) : word.time < 2 ^ 64 := word.timestampNs.toNat_lt

theorem duration_lt (word : Word) : word.duration < 2 ^ 64 := word.durationNs.toNat_lt

theorem duration_eq_zero {word : Word} : word.duration = 0 ↔ word.durationNs = 0 := by
  rw [duration, ← UInt64.toNat_inj]
  simp

end Word

def Ordered (words : List Word) : Prop :=
  words.Pairwise (fun a b => a.time ≤ b.time)

instance (words : List Word) : Decidable (Ordered words) := by
  unfold Ordered
  infer_instance

def maxAnnotationNs : Nat := 100000000

/-- Visual end of an instantaneous word with a known successor: the words of a burst meet, and a
word before a long gap closes after one expected period. -/
def instantaneousWordEndNsWithLimit (previousStartNs : Option Nat) (startNs nextStartNs maxSpanNs : Nat) :
    Nat :=
  let gapNs := nextStartNs - startNs
  let inferredLimitNs :=
    min (((previousStartNs.map (startNs - ·)).filter (0 < ·)).getD maxSpanNs) maxSpanNs
  saturatingAdd startNs (min gapNs inferredLimitNs)

def instantaneousWordEndNs (previousStartNs : Option Nat) (startNs nextStartNs : Nat) : Nat :=
  instantaneousWordEndNsWithLimit previousStartNs startNs nextStartNs maxAnnotationNs

/-- A decoded word prepared for timeline rendering. -/
structure Annotation where
  startNs : Nat
  endNs : Nat
  value : UInt64
  payload : Option WordPayload
  deriving DecidableEq

end LogicConduit
