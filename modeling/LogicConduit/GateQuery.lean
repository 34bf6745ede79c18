import Mathlib.Data.List.Sort
import Mathlib.Data.List.MinMax
import LogicConduit.TransformNodes

namespace LogicConduit

def isEdge (level : Nat → Bool) (p : Nat) : Bool := decide (0 < p) && (level p != level (p - 1))

def edgesAfter (level : Nat → Bool) (total cursor : Nat) : List Nat :=
  (List.range total).filter fun p => decide (cursor < p) && isEdge level p

section Edges

variable {level : Nat → Bool} {total c p q : Nat}

theorem mem_edgesAfter : p ∈ edgesAfter level total c ↔ p < total ∧ c < p ∧ isEdge level p = true := by
  simp [edgesAfter]

theorem edgesAfter_sorted : (edgesAfter level total c).Pairwise (· < ·) :=
  List.pairwise_lt_range.filter _

theorem level_eq_of_quiet (hle : c ≤ q) (quiet : ∀ p, c < p → p ≤ q → isEdge level p = false) : level q = level c := by
  induction q with
  | zero => rw [Nat.le_zero.mp hle]
  | succ q ih =>
    rcases Nat.lt_or_ge q c with hlt | hge
    · rw [show c = q + 1 by omega]
    · have hsame := quiet (q + 1) (by omega) (Nat.le_refl _)
      simp only [isEdge, Nat.add_sub_cancel, Nat.zero_lt_succ, decide_true, Bool.true_and, bne_eq_false_iff_eq] at hsame
      rw [hsame]
      exact ih hge fun p hp hpq => quiet p hp (by omega)

theorem edgesAfter_cons {rest : List Nat} (h : edgesAfter level total c = q :: rest) :
    q < total ∧ c < q ∧ isEdge level q = true ∧ (∀ p, c < p → p < q → isEdge level p = false) ∧
      rest = edgesAfter level total q := by
  have hq : q ∈ edgesAfter level total c := by
    rw [h]
    exact List.mem_cons_self
  obtain ⟨hqt, hcq, hedge⟩ := mem_edgesAfter.mp hq
  have hsorted := @edgesAfter_sorted level total c
  rw [h] at hsorted
  have hlater := (List.pairwise_cons.mp hsorted).1
  refine ⟨hqt, hcq, hedge, fun p hcp hpq => ?_, ?_⟩
  · by_contra hp
    have hmem : p ∈ edgesAfter level total c := mem_edgesAfter.mpr ⟨by omega, hcp, by simpa using hp⟩
    rw [h] at hmem
    rcases List.mem_cons.mp hmem with rfl | hmem
    · omega
    · have := hlater p hmem
      omega
  · have hsplit : edgesAfter level total q = (edgesAfter level total c).filter fun p => decide (q < p) := by
      unfold edgesAfter
      rw [List.filter_filter]
      refine List.filter_congr fun p _ => ?_
      by_cases hqp : q < p
      · simp [hqp, show c < p by omega]
      · simp [hqp]
    rw [hsplit, h, List.filter_cons_of_neg (by simp), List.filter_eq_self.mpr]
    exact fun p hp => by simpa using hlater p hp

theorem edgesAfter_nil (h : edgesAfter level total c = []) (hc : c < p) (hp : p < total) : isEdge level p = false := by
  by_contra hedge
  have hmem : p ∈ edgesAfter level total c := mem_edgesAfter.mpr ⟨hp, hc, by simpa using hedge⟩
  rw [h] at hmem
  cases hmem

end Edges

/-- One channel of a recording. Its query looks for edges before the limit or, where `closed`, also at it. -/
structure CaptureChannel where
  level : Nat → Bool
  closed : Bool

structure Recording where
  totalSamples : UInt64
  timestampStep : UInt64
  channels : List CaptureChannel
  positive : 0 < totalSamples.toNat

namespace Recording

def total (r : Recording) : Nat := r.totalSamples.toNat

def levelsAt (r : Recording) (p : Nat) : List Bool := r.channels.map fun channel => channel.level p

/-- `EdgeQuery` of a channel: the level at a position, and the first transition behind one. -/
def query (r : Recording) (channel : CaptureChannel) : EdgeQuery where
  timestampStep := r.timestampStep
  totalSamples := r.totalSamples
  valueAt position := .ok (channel.level position.toNat)
  nextEdge position limit :=
    .ok ((((edgesAfter channel.level r.total position.toNat).filter fun p =>
      decide (p < limit.toNat) || channel.closed && decide (p = limit.toNat)).head?).map fun p =>
        (UInt64.ofNat p, channel.level p))

/-- A recording has at most as many samples as a `u64` counts. -/
theorem ofNat_toNat (r : Recording) {p : Nat} (hp : p < r.total) : (UInt64.ofNat p).toNat = p := by
  have hbound := r.totalSamples.toNat_lt
  exact UInt64.toNat_ofNat_of_lt (Nat.lt_trans hp hbound)

theorem query_nextEdge (r : Recording) (channel : CaptureChannel) (position : UInt64) :
    (r.query channel).nextEdge position r.totalSamples =
      .ok ((edgesAfter channel.level r.total position.toNat).head?.map fun p =>
        (UInt64.ofNat p, channel.level p)) := by
  have hall : ((edgesAfter channel.level r.total position.toNat).filter fun p =>
      decide (p < r.totalSamples.toNat) || channel.closed && decide (p = r.totalSamples.toNat)) =
        edgesAfter channel.level r.total position.toNat := by
    rw [List.filter_eq_self]
    intro p hp
    have := (mem_edgesAfter.mp hp).1
    simp [show p < r.totalSamples.toNat from this]
  show Except.ok _ = _
  rw [hall]

end Recording

/-- Why a call of the composed query ends without an answer. -/
inductive QueryError
  | failed (text : String)
  /-- The loop has not ended after the given number of rounds. -/
  | unfinished
  deriving DecidableEq

def asQueryError {α : Type} : Except String α → Except QueryError α
  | .ok value => .ok value
  | .error text => .error (.failed text)

/-- The query of a gate output over inputs with one sample rate, on which positions need no scaling. -/
structure LogicGateEdgeQuery where
  op : GateOp
  inputs : List EdgeQuery
  totalSamples : UInt64

namespace LogicGateEdgeQuery

def new (op : GateOp) (inputs : List EdgeQuery) : Option LogicGateEdgeQuery :=
  match inputs with
  | [] => none
  | first :: rest => some ⟨op, inputs, rest.foldl (fun least input => min least input.totalSamples) first.totalSamples⟩

def inputLevels (q : LogicGateEdgeQuery) (position : UInt64) : Except QueryError (List Bool) :=
  q.inputs.mapM fun input => asQueryError (input.valueAt position)

def combinedValue (q : LogicGateEdgeQuery) (position : UInt64) : Except QueryError Bool :=
  (q.inputLevels position).map q.op.combine

/-- An AND that is low waits for its low inputs, an OR that is high for its high ones. -/
def inputsThatCanChangeOutput (q : LogicGateEdgeQuery) (levels : List Bool) : List Nat :=
  let all := List.range levels.length
  match q.op with
  | .and | .nand => if levels.all id then all else all.filter fun index => levels[index]? == some false
  | .or | .nor => if levels.any id then all.filter fun index => levels[index]? == some true else all
  | _ => all

def nextInputPosition (input : EdgeQuery) (position limit : UInt64) : Nat → UInt64 → Except QueryError (Option UInt64)
  | 0, _ => .error .unfinished
  | rounds + 1, inputPosition =>
    match input.nextEdge inputPosition (min limit input.totalSamples) with
    | .error text => .error (.failed text)
    | .ok none => .ok none
    | .ok (some edge) =>
      if position < edge.1 ∧ edge.1 < limit then .ok (some edge.1)
      else nextInputPosition input position limit rounds edge.1

/-- `next_edge`, with as many rounds for each of its loops as there are positions. -/
def nextEdge (q : LogicGateEdgeQuery) (limit : UInt64) : Nat → UInt64 → Except QueryError (Option CaptureTransition)
  | 0, _ => .error .unfinished
  | rounds + 1, cursor =>
    if cursor < limit then do
      let levels ← q.inputLevels cursor
      let value := q.op.combine levels
      let positions ← (q.inputsThatCanChangeOutput levels).mapM fun index =>
        match q.inputs[index]? with
        | none => .ok none
        | some input => nextInputPosition input cursor limit (limit.toNat + 1) cursor
      match (positions.filterMap id).min? with
      | none => .ok none
      | some next =>
        let nextValue ← q.combinedValue next
        if nextValue ≠ value then .ok (some ⟨next, nextValue⟩)
        else nextEdge q limit rounds next
    else .ok none

/-- The transitions met by iterating `next_edge` from a position. -/
def transitions (q : LogicGateEdgeQuery) : Nat → UInt64 → Except QueryError (List CaptureTransition)
  | 0, _ => .error .unfinished
  | rounds + 1, position => do
    match ← q.nextEdge q.totalSamples (q.totalSamples.toNat + 1) position with
    | none => .ok []
    | some transition => (q.transitions rounds transition.sample).map (transition :: ·)

end LogicGateEdgeQuery

end LogicConduit
