import LogicConduit.GateQueryEdges

namespace LogicConduit

/-- `saturating_u64`. A positive number is truncated, and one with a fraction is `up` to the next whole number. -/
def saturatingU64 (value : Float) (up : Bool) : UInt64 :=
  -- not a number, infinite, or at least `u64::MAX as f64`
  if !value.isFinite || (UInt64.ofNat u64Max).toFloat ≤ value then .ofNat u64Max
  else if value ≤ 0.0 then 0
  else
    let whole := value.toUInt64
    if up && whole.toFloat < value then saturatingAddU64 whole 1 else whole

def scaleFloor (position : UInt64) (targetRate sourceRate : Float) : UInt64 :=
  saturatingU64 (position.toFloat * targetRate / sourceRate) false

def scaleCeil (position : UInt64) (targetRate sourceRate : Float) : UInt64 :=
  saturatingU64 (position.toFloat * targetRate / sourceRate) true

structure RatedQuery where
  edges : EdgeQuery
  samplerateHz : Float

/-- `LogicGateEdgeQuery` with the rates of its inputs. -/
structure RatedGateQuery where
  op : GateOp
  inputs : List RatedQuery
  samplerateHz : Float
  totalSamples : UInt64

namespace RatedGateQuery

/-- The rate is that of the first input, and the length that of the shortest one at this rate. -/
def new (op : GateOp) (inputs : List RatedQuery) : Option RatedGateQuery :=
  match inputs with
  | [] => none
  | first :: rest =>
    let scaled (input : RatedQuery) := scaleFloor input.edges.totalSamples first.samplerateHz input.samplerateHz
    some ⟨op, inputs, first.samplerateHz, rest.foldl (fun least input => min least (scaled input)) (scaled first)⟩

variable (q : RatedGateQuery)

def unscaled : LogicGateEdgeQuery := ⟨q.op, q.inputs.map (·.edges), q.totalSamples⟩

def inputLevels (position : UInt64) : Except QueryError (List Bool) :=
  q.inputs.mapM fun input =>
    asQueryError (input.edges.valueAt (scaleFloor position input.samplerateHz q.samplerateHz))

def combinedValue (position : UInt64) : Except QueryError Bool :=
  (q.inputLevels position).map q.op.combine

def nextInputLoop (input : RatedQuery) (position limit : UInt64) : Nat → UInt64 → Except QueryError (Option UInt64)
  | 0, _ => .error .unfinished
  | rounds + 1, inputPosition =>
    match input.edges.nextEdge inputPosition
        (min (scaleCeil limit input.samplerateHz q.samplerateHz) input.edges.totalSamples) with
    | .error text => .error (.failed text)
    | .ok none => .ok none
    | .ok (some edge) =>
      let outputPosition := scaleCeil edge.1 q.samplerateHz input.samplerateHz
      if position < outputPosition ∧ outputPosition < limit then .ok (some outputPosition)
      else nextInputLoop input position limit rounds edge.1

/-- Each edge lies behind the last, so that there are fewer rounds than positions. -/
def nextInputPosition (input : RatedQuery) (position limit : UInt64) : Except QueryError (Option UInt64) :=
  q.nextInputLoop input position limit (2 ^ 64) (scaleFloor position input.samplerateHz q.samplerateHz)

def nextEdgeLoop (limit : UInt64) : Nat → UInt64 → Except QueryError (Option CaptureTransition)
  | 0, _ => .error .unfinished
  | rounds + 1, cursor =>
    if cursor < limit then do
      let levels ← q.inputLevels cursor
      let positions ← (q.unscaled.inputsThatCanChangeOutput levels).mapM fun index =>
        match q.inputs[index]? with
        | none => .ok none
        | some input => q.nextInputPosition input cursor limit
      match (positions.filterMap id).min? with
      | none => .ok none
      | some next =>
        let nextValue ← q.combinedValue next
        if nextValue ≠ q.op.combine levels then .ok (some ⟨next, nextValue⟩)
        else nextEdgeLoop limit rounds next
    else .ok none

def nextEdge (position limit : UInt64) : Except QueryError (Option CaptureTransition) :=
  q.nextEdgeLoop limit (limit.toNat + 1) position

end RatedGateQuery

/-- A channel of a length of its own, which keeps its last level. -/
structure CaptureInput extends CaptureChannel where
  totalSamples : UInt64

namespace CaptureInput

def held (input : CaptureInput) (p : Nat) : Bool := input.level (min p (input.totalSamples.toNat - 1))

def query (rate : Float) (input : CaptureInput) : RatedQuery where
  edges :=
    { timestampStep := 0
      totalSamples := input.totalSamples
      valueAt := fun position => .ok (input.held position.toNat)
      nextEdge := fun position limit =>
        .ok (((edgesAfter input.held input.totalSamples.toNat position.toNat).find? fun p =>
          decide (p < limit.toNat) || input.closed && decide (p = limit.toNat)).map fun p =>
            (UInt64.ofNat p, input.held p)) }
  samplerateHz := rate

end CaptureInput

theorem saturatingU64_le (value : Float) : saturatingU64 value false ≤ saturatingU64 value true := by
  unfold saturatingU64
  split
  · exact UInt64.le_refl _
  · split
    · exact UInt64.le_refl _
    · simp only [Bool.false_and, Bool.false_eq_true, if_false]
      split
      · rw [saturatingAddU64]
        split
        · exact UInt64.le_iff_toNat_le.mpr (Nat.le_of_lt_succ value.toUInt64.toNat_lt)
        · next hlt => exact UInt64.not_lt.mp hlt
      · exact UInt64.le_refl _

theorem scaleFloor_le_scaleCeil (position : UInt64) (targetRate sourceRate : Float) :
    scaleFloor position targetRate sourceRate ≤ scaleCeil position targetRate sourceRate := saturatingU64_le _

section Exact

variable {rate : Float} {op : GateOp} {inputs : List CaptureInput} {input : CaptureInput} {length : UInt64}
  {position cursor limit : UInt64}

def combined (op : GateOp) (inputs : List CaptureInput) (p : Nat) : Bool := op.combine (inputs.map (·.held p))

def gateOver (rate : Float) (op : GateOp) (inputs : List CaptureInput) (length : UInt64) : RatedGateQuery :=
  ⟨op, inputs.map (·.query rate), rate, length⟩

/-- Scaling to the same rate leaves the positions of the range alone, and its end is not moved into it. -/
def ScalesExactly (rate : Float) (position limit : UInt64) : Prop :=
  (∀ p, position ≤ p → p < limit → scaleFloor p rate rate = p) ∧
    (∀ p, position < p → p < limit → scaleCeil p rate rate = p) ∧ limit ≤ scaleCeil limit rate rate

example : ∀ p ∈ List.range 8, scaleFloor (.ofNat p) 50000000.0 50000000.0 = .ofNat p ∧
    scaleCeil (.ofNat p) 50000000.0 50000000.0 = .ofNat p := by decide

/-- The inputs that `inputs_that_can_change_output` selects at the levels of a sample. -/
def followed (op : GateOp) (inputs : List CaptureInput) (p : Nat) : List CaptureInput :=
  ((⟨op, [], 0⟩ : LogicGateEdgeQuery).inputsThatCanChangeOutput (inputs.map (·.held p))).filterMap (inputs[·]?)

/-- Their next edges before the limit. -/
def nextEdges (op : GateOp) (inputs : List CaptureInput) (limit p : Nat) : List Nat :=
  (followed op inputs p).filterMap fun input => (edgesAfter input.held limit p).head?

theorem new_gateOver {q : RatedGateQuery} (h : RatedGateQuery.new op (inputs.map (·.query rate)) = some q) :
    ∃ length, q = gateOver rate op inputs length := by
  cases inputs with
  | nil => cases h
  | cons first rest => exact ⟨_, (Option.some.inj h).symm⟩

theorem inputLevels_gateOver (position : UInt64) : (gateOver rate op inputs length).inputLevels position =
    .ok (inputs.map (·.held (scaleFloor position rate rate).toNat)) := by
  rw [RatedGateQuery.inputLevels, gateOver, List.mapM_map]
  exact mapM_ok fun input _ => rfl

theorem combinedValue_gateOver (position : UInt64) : (gateOver rate op inputs length).combinedValue position =
    .ok (combined op inputs (scaleFloor position rate rate).toNat) := by
  rw [RatedGateQuery.combinedValue, inputLevels_gateOver]
  rfl

variable {p : Nat}

theorem toNat_edge (h : p ∈ edgesAfter input.held input.totalSamples.toNat cursor.toNat) :
    (UInt64.ofNat p).toNat = p :=
  UInt64.toNat_ofNat_of_lt ((mem_edgesAfter.mp h).1.trans input.totalSamples.toNat_lt)

def CaptureInput.Asked (input : CaptureInput) (rate : Float) (limit : UInt64) (p : Nat) : Bool :=
  let last := (min (scaleCeil limit rate rate) input.totalSamples).toNat
  decide (p < last) || input.closed && decide (p = last)

theorem nextInputLoop_succ (rounds : Nat) (start : UInt64) :
    (gateOver rate op inputs length).nextInputLoop (input.query rate) cursor limit (rounds + 1) start =
      match (edgesAfter input.held input.totalSamples.toNat start.toNat).find? (input.Asked rate limit) with
      | none => .ok none
      | some p =>
        if cursor < scaleCeil (.ofNat p) rate rate ∧ scaleCeil (.ofNat p) rate rate < limit then
          .ok (some (scaleCeil (.ofNat p) rate rate))
        else (gateOver rate op inputs length).nextInputLoop (input.query rate) cursor limit rounds (.ofNat p) := by
  have hask : ∀ found : Option Nat, found = (edgesAfter input.held input.totalSamples.toNat start.toNat).find?
      (input.Asked rate limit) → (input.query rate).edges.nextEdge start
        (min (scaleCeil limit rate rate) input.totalSamples) = .ok (found.map fun p => (.ofNat p, input.held p)) := by
    rintro _ rfl
    rfl
  rw [RatedGateQuery.nextInputLoop]
  cases hfound : (edgesAfter input.held input.totalSamples.toNat start.toNat).find? (input.Asked rate limit) with
  | none =>
    have hnone := hask none hfound.symm
    simp only [gateOver, CaptureInput.query] at hnone ⊢
    rw [hnone]
    rfl
  | some p =>
    have hsome := hask (some p) hfound.symm
    simp only [gateOver, CaptureInput.query] at hsome ⊢
    rw [hsome]
    rfl

theorem nextInputLoop_within {rounds : Nat} {start : UInt64} (h : input.totalSamples.toNat - start.toNat < rounds) :
    ∃ answer, (gateOver rate op inputs length).nextInputLoop (input.query rate) cursor limit rounds start = .ok answer ∧
      ∀ next ∈ answer, cursor < next ∧ next < limit := by
  induction rounds generalizing start with
  | zero => omega
  | succ rounds ih =>
    rw [nextInputLoop_succ]
    cases hfind : (edgesAfter input.held input.totalSamples.toNat start.toNat).find? (input.Asked rate limit) with
    | none => exact ⟨none, rfl, nofun⟩
    | some p =>
      have hmem := List.mem_of_find?_eq_some hfind
      obtain ⟨hlt, hstart, -⟩ := mem_edgesAfter.mp hmem
      have hp := toNat_edge hmem
      by_cases hin : cursor < scaleCeil (.ofNat p) rate rate ∧ scaleCeil (.ofNat p) rate rate < limit
      · refine ⟨_, if_pos hin, fun next hnext => ?_⟩
        cases hnext
        exact hin
      · obtain ⟨answer, hanswer, hall⟩ := @ih (.ofNat p) (by omega)
        exact ⟨answer, (if_neg hin).trans hanswer, hall⟩

/-- The search of an input starts at the scaled cursor, and may take two rounds at least. -/
theorem nextInputPosition_eq (input : CaptureInput) :
    (gateOver rate op inputs length).nextInputPosition (input.query rate) cursor limit =
      (gateOver rate op inputs length).nextInputLoop (input.query rate) cursor limit (2 ^ 64 - 2 + 1 + 1)
        (scaleFloor cursor rate rate) := by
  rw [RatedGateQuery.nextInputPosition]
  rfl

theorem nextInputPosition_within (input : CaptureInput) (cursor limit : UInt64) :
    ∃ answer, (gateOver rate op inputs length).nextInputPosition (input.query rate) cursor limit = .ok answer ∧
      ∀ next ∈ answer, cursor < next ∧ next < limit :=
  nextInputLoop_within (by have := input.totalSamples.toNat_lt; omega)

theorem CaptureInput.edge_lt (h : isEdge input.held p = true) : p < input.totalSamples.toNat := by
  by_contra hlt
  have hsame : min p (input.totalSamples.toNat - 1) = min (p - 1) (input.totalSamples.toNat - 1) := by omega
  simp [isEdge, CaptureInput.held, hsame] at h

theorem CaptureInput.asked_of_lt (hlimit : p < (scaleCeil limit rate rate).toNat)
    (htotal : p < input.totalSamples.toNat) : input.Asked rate limit p = true := by
  have hlt : p < (min (scaleCeil limit rate rate) input.totalSamples).toNat := by
    show p < (if scaleCeil limit rate rate ≤ input.totalSamples then scaleCeil limit rate rate
      else input.totalSamples).toNat
    split
    · exact hlimit
    · exact htotal
  simp [CaptureInput.Asked, hlt]

theorem nextInputPosition_first (hfloor : scaleFloor cursor rate rate = cursor) {first : Nat} {rest : List Nat}
    (hfirst : edgesAfter input.held limit.toNat cursor.toNat = first :: rest)
    (hasked : input.Asked rate limit first = true) (hceil : scaleCeil (.ofNat first) rate rate = .ofNat first) :
    (gateOver rate op inputs length).nextInputPosition (input.query rate) cursor limit = .ok (some (.ofNat first)) := by
  obtain ⟨hlt, hafter, hedge, hquiet, -⟩ := edgesAfter_cons hfirst
  have hnat : (UInt64.ofNat first).toNat = first := UInt64.toNat_ofNat_of_lt (hlt.trans limit.toNat_lt)
  have hbehind : cursor < UInt64.ofNat first := UInt64.lt_iff_toNat_lt.mpr (hnat.symm ▸ hafter)
  have hbefore : UInt64.ofNat first < limit := UInt64.lt_iff_toNat_lt.mpr (hnat.symm ▸ hlt)
  rw [nextInputPosition_eq, hfloor, nextInputLoop_succ, edgesAfter_first hafter (input.edge_lt hedge) hedge hquiet,
    List.find?_cons_of_pos hasked]
  dsimp only
  rw [hceil, if_pos ⟨hbehind, hbefore⟩]

/-- Without an edge before the limit the loop runs through those that are asked for behind it. -/
theorem nextInputLoop_none {rounds : Nat} {start : UInt64} (h : input.totalSamples.toNat - start.toNat < rounds)
    (hnone : edgesAfter input.held limit.toNat start.toNat = [])
    (hbehind : ∀ e, limit.toNat ≤ e → isEdge input.held e = true → input.Asked rate limit e = true →
      limit ≤ scaleCeil (.ofNat e) rate rate) :
    (gateOver rate op inputs length).nextInputLoop (input.query rate) cursor limit rounds start = .ok none := by
  induction rounds generalizing start with
  | zero => omega
  | succ rounds ih =>
    rw [nextInputLoop_succ]
    cases hfind : (edgesAfter input.held input.totalSamples.toNat start.toNat).find? (input.Asked rate limit) with
    | none => rfl
    | some p =>
      have hmem := List.mem_of_find?_eq_some hfind
      obtain ⟨hlt, hstart, hedge⟩ := mem_edgesAfter.mp hmem
      have hp := toNat_edge hmem
      have hlimit : limit.toNat ≤ p := by
        by_contra hbefore
        rw [edgesAfter_nil hnone hstart (Nat.not_le.mp hbefore)] at hedge
        cases hedge
      have hout := hbehind p hlimit hedge (List.find?_some hfind)
      refine (if_neg fun hin => absurd hin.2 (UInt64.not_lt.mpr hout)).trans (ih (by omega) ?_)
      exact edgesAfter_eq_nil fun e he hel => by omega

variable (rate op inputs length) in
theorem nextEdgeLoop_succ (hcursor : cursor < limit) (rounds : Nat) :
    ∃ answers : List (Option UInt64),
      (∀ next, some next ∈ answers → cursor < next ∧ next < limit) ∧
      (∀ next, some next ∈ answers ↔ ∃ input ∈ followed op inputs (scaleFloor cursor rate rate).toNat,
        (gateOver rate op inputs length).nextInputPosition (input.query rate) cursor limit = .ok (some next)) ∧
      (gateOver rate op inputs length).nextEdgeLoop limit (rounds + 1) cursor =
        match (answers.filterMap id).min? with
        | none => .ok none
        | some next =>
          if combined op inputs (scaleFloor next rate rate).toNat ≠
              combined op inputs (scaleFloor cursor rate rate).toNat then
            .ok (some ⟨next, combined op inputs (scaleFloor next rate rate).toNat⟩)
          else (gateOver rate op inputs length).nextEdgeLoop limit rounds next := by
  set gate := gateOver rate op inputs length with hgate
  set levels := inputs.map (·.held (scaleFloor cursor rate rate).toNat)
  have hanswer (i : Nat) : ∃ answer, (match gate.inputs[i]? with
      | none => (.ok none : Except QueryError (Option UInt64))
      | some input => gate.nextInputPosition input cursor limit) = .ok answer ∧
        ∀ next ∈ answer, cursor < next ∧ next < limit := by
    rw [hgate, gateOver, List.getElem?_map]
    cases inputs[i]? with
    | none => exact ⟨none, rfl, nofun⟩
    | some input => exact nextInputPosition_within input cursor limit
  choose answer hok hwithin using hanswer
  refine ⟨(gate.unscaled.inputsThatCanChangeOutput levels).map answer, ?_, ?_, ?_⟩
  · intro next hnext
    obtain ⟨i, -, hi⟩ := List.mem_map.mp hnext
    exact hwithin i next hi
  · intro next
    constructor
    · intro hnext
      obtain ⟨i, hi, hfound⟩ := List.mem_map.mp hnext
      have hsame := hok i
      rw [hgate, gateOver, List.getElem?_map] at hsame
      cases hinput : inputs[i]? with
      | none =>
        rw [hinput] at hsame
        cases (Except.ok.inj hsame).trans hfound
      | some input =>
        rw [hinput] at hsame
        exact ⟨input, List.mem_filterMap.mpr ⟨i, hi, hinput⟩, hsame.trans (congrArg Except.ok hfound)⟩
    · rintro ⟨input, hfollowed, hfound⟩
      obtain ⟨i, hi, hinput⟩ := List.mem_filterMap.mp hfollowed
      have hsame := hok i
      rw [hgate, gateOver, List.getElem?_map, hinput] at hsame
      exact List.mem_map.mpr ⟨i, hi, Except.ok.inj (hsame.symm.trans hfound)⟩
  · rw [RatedGateQuery.nextEdgeLoop, if_pos hcursor]
    refine (bind_of_ok (inputLevels_gateOver cursor)).trans ?_
    refine (bind_of_ok (mapM_ok fun i _ => hok i)).trans ?_
    cases hmin : (((gate.unscaled.inputsThatCanChangeOutput levels).map answer).filterMap id).min? with
    | none => rfl
    | some next => exact bind_of_ok (combinedValue_gateOver next)

def heldUpTo (inputs : List CaptureInput) (limit : UInt64) (positive : 0 < limit.toNat) : Recording :=
  ⟨limit, 0, inputs.map fun input => ⟨input.held, input.closed⟩, positive⟩

theorem heldUpTo_output (positive : 0 < limit.toNat) : (heldUpTo inputs limit positive).output op = combined op inputs := by
  funext p
  rw [Recording.output, Recording.levelsAt, heldUpTo, List.map_map]
  rfl

theorem heldUpTo_candidates (positive : 0 < limit.toNat) :
    (heldUpTo inputs limit positive).candidates op p = nextEdges op inputs limit.toNat p := by
  have hlevels : (heldUpTo inputs limit positive).levelsAt p = inputs.map (·.held p) := by
    rw [Recording.levelsAt, heldUpTo, List.map_map]
    rfl
  rw [Recording.candidates, Recording.relevant, hlevels, nextEdges, followed, List.filterMap_filterMap]
  refine List.filterMap_congr fun i _ => ?_
  rw [Recording.firstEdge, heldUpTo, List.getElem?_map]
  cases inputs[i]? <;> rfl

def firstChange (op : GateOp) (inputs : List CaptureInput) (position limit : UInt64) : Option CaptureTransition :=
  (edgesAfter (combined op inputs) limit.toNat position.toNat).head?.map fun p => ⟨.ofNat p, combined op inputs p⟩

/-- Cursors whose levels are read at the right sample, from which each next edge of an input that matters is found
where it is, and from which the search moves on to such a cursor or to a change. -/
structure SoundCursors (rate : Float) (op : GateOp) (inputs : List CaptureInput) (length limit : UInt64)
    (Cursor : UInt64 → Prop) : Prop where
  floor : ∀ cursor, Cursor cursor → cursor < limit → scaleFloor cursor rate rate = cursor
  found : ∀ cursor, Cursor cursor → cursor < limit → ∀ input ∈ followed op inputs cursor.toNat, ∀ first rest,
    edgesAfter input.held limit.toNat cursor.toNat = first :: rest →
      (gateOver rate op inputs length).nextInputPosition (input.query rate) cursor limit = .ok (some (.ofNat first))
  moves : ∀ cursor, Cursor cursor → cursor < limit → ∀ input ∈ followed op inputs cursor.toNat, ∀ next,
    (gateOver rate op inputs length).nextInputPosition (input.query rate) cursor limit = .ok (some next) →
      (∀ e ∈ nextEdges op inputs limit.toNat cursor.toNat, next.toNat ≤ e) →
        scaleFloor next rate rate = next ∧
          (combined op inputs next.toNat = combined op inputs cursor.toNat → Cursor next)

theorem nextEdgeLoop_exact {Cursor : UInt64 → Prop} (sound : SoundCursors rate op inputs length limit Cursor)
    (hgood : Cursor cursor) (rounds : Nat) (h : limit.toNat - cursor.toNat < rounds) :
    (gateOver rate op inputs length).nextEdgeLoop limit rounds cursor = .ok (firstChange op inputs cursor limit) := by
  induction rounds generalizing cursor with
  | zero => omega
  | succ rounds ih =>
    by_cases hcursor : cursor < limit
    · have hlt := UInt64.lt_iff_toNat_lt.mp hcursor
      set r := heldUpTo inputs limit (Nat.zero_lt_of_lt hlt)
      have hout : r.output op = combined op inputs := heldUpTo_output _
      have hedges : r.candidates op cursor.toNat = nextEdges op inputs limit.toNat cursor.toNat :=
        heldUpTo_candidates _
      obtain ⟨answers, hwithin, hasked, hround⟩ := nextEdgeLoop_succ rate op inputs length hcursor rounds
      rw [hround]
      rw [sound.floor cursor hgood hcursor] at hasked ⊢
      -- every first edge of an input that matters is among the answers
      have hcandidates : ∀ e ∈ r.candidates op cursor.toNat, some (UInt64.ofNat e) ∈ answers := by
        intro e he
        rw [hedges] at he
        obtain ⟨input, hinput, hhead⟩ := List.mem_filterMap.mp he
        obtain ⟨rest, hrest⟩ := List.head?_eq_some_iff.mp hhead
        exact (hasked _).mpr ⟨input, hinput, sound.found cursor hgood hcursor input hinput e rest hrest⟩
      cases hmin : (answers.filterMap id).min? with
      | none =>
        rw [List.min?_eq_none_iff] at hmin
        have hnone : r.candidates op cursor.toNat = [] := by
          refine List.eq_nil_iff_forall_not_mem.mpr fun e he => ?_
          have hmem : UInt64.ofNat e ∈ answers.filterMap id := List.mem_filterMap.mpr ⟨_, hcandidates e he, rfl⟩
          rw [hmin] at hmem
          cases hmem
        have hquiet : edgesAfter (r.output op) limit.toNat cursor.toNat = [] :=
          edgesAfter_eq_nil fun p hp hpt => (Recording.quiet_before (by simp [hnone]) hpt).no_edge hp le_rfl
        rw [firstChange, ← hout, hquiet]
        rfl
      | some next =>
        obtain ⟨hmem, hleast⟩ := List.min?_eq_some_iff.mp hmin
        obtain ⟨answer, hanswer, rfl⟩ := List.mem_filterMap.mp hmem
        obtain ⟨hcn, hnl⟩ := hwithin next hanswer
        have hbefore : ∀ e ∈ r.candidates op cursor.toNat, next.toNat ≤ e := by
          intro e he
          have hle := UInt64.le_iff_toNat_le.mp (hleast _ (List.mem_filterMap.mpr ⟨_, hcandidates e he, rfl⟩))
          rwa [r.ofNat_toNat (Recording.candidates_bounds he).2] at hle
        obtain ⟨input, hinput, hfound⟩ := (hasked next).mp hanswer
        obtain ⟨hfloor, hstays⟩ := sound.moves cursor hgood hcursor input hinput next hfound (hedges ▸ hbefore)
        rw [UInt64.lt_iff_toNat_lt] at hcn
        have hnl' : next.toNat < r.total := UInt64.lt_iff_toNat_lt.mp hnl
        have hquiet : ∀ p, cursor.toNat < p → p < next.toNat → isEdge (r.output op) p = false := fun p hp hpn =>
          (Recording.quiet_before (fun e he => hpn.trans_le (hbefore e he)) (hpn.trans hnl')).no_edge hp le_rfl
        have hprev : r.output op (next.toNat - 1) = r.output op cursor.toNat :=
          level_eq_of_quiet (by omega) fun p hp hpq => hquiet p hp (by omega)
        dsimp only
        rw [hfloor, ← hout]
        by_cases hchange : r.output op next.toNat ≠ r.output op cursor.toNat
        · have hedge : isEdge (r.output op) next.toNat = true := by
            simp [isEdge, hprev, hchange]
            omega
          have hfirst : edgesAfter (r.output op) limit.toNat cursor.toNat = next.toNat :: _ :=
            edgesAfter_first hcn hnl' hedge hquiet
          rw [if_pos hchange, firstChange, ← hout, hfirst]
          simp
        · have hsame := not_not.mp hchange
          rw [if_neg hchange, ih (hstays (hout ▸ hsame)) (by omega), firstChange, firstChange, ← hout,
            edgesAfter_skip hcn.le]
          intro p hp hpq
          rcases Nat.lt_or_ge p next.toNat with hlt | hge
          · exact hquiet p hp hlt
          · have heq : p = next.toNat := by omega
            subst heq
            simp [isEdge, hprev, hsame]
    · rw [RatedGateQuery.nextEdgeLoop, if_neg hcursor, firstChange, edgesAfter_eq_nil]
      · rfl
      · intro p hp hpt
        exact absurd (UInt64.lt_iff_toNat_lt.mpr (hp.trans hpt)) hcursor

theorem ScalesExactly.sound (hexact : ScalesExactly rate position limit) :
    SoundCursors rate op inputs length limit (position ≤ ·) where
  floor cursor hcursor hlt := hexact.1 cursor hcursor hlt
  found cursor hcursor hlt input _ first rest hfirst := by
    obtain ⟨hfloor, hceil, hlimit⟩ := hexact
    obtain ⟨hbefore, hafter, hedge, -⟩ := edgesAfter_cons hfirst
    have hnat : (UInt64.ofNat first).toNat = first := UInt64.toNat_ofNat_of_lt (hbefore.trans limit.toNat_lt)
    have hasked : input.Asked rate limit first = true :=
      CaptureInput.asked_of_lt (hbefore.trans_le (UInt64.le_iff_toNat_le.mp hlimit)) (input.edge_lt hedge)
    refine nextInputPosition_first (hfloor cursor hcursor hlt) hfirst hasked (hceil _ ?_ ?_)
    · exact UInt64.lt_of_le_of_lt hcursor (UInt64.lt_iff_toNat_lt.mpr (hnat.symm ▸ hafter))
    · exact UInt64.lt_iff_toNat_lt.mpr (hnat.symm ▸ hbefore)
  moves cursor hcursor hlt input _ next hfound _ := by
    obtain ⟨answer, hanswer, hwithin⟩ := @nextInputPosition_within rate op inputs length input cursor limit
    obtain ⟨hafter, hbefore⟩ := hwithin next (Option.mem_def.mpr (Except.ok.inj (hanswer.symm.trans hfound)))
    have hnext := UInt64.le_trans hcursor (UInt64.le_of_lt hafter)
    exact ⟨hexact.1 next hnext hbefore, fun _ => hnext⟩

theorem nextEdge_empty (h : limit.toNat ≤ position.toNat + 1) :
    (gateOver rate op inputs length).nextEdge position limit = .ok (firstChange op inputs position limit) := by
  have hnone : firstChange op inputs position limit = none := by
    rw [firstChange, edgesAfter_eq_nil fun p hp hpt => by omega]
    rfl
  rw [hnone, RatedGateQuery.nextEdge]
  by_cases hcursor : position < limit
  · obtain ⟨answers, hwithin, -, hround⟩ := nextEdgeLoop_succ rate op inputs length hcursor limit.toNat
    have hempty : answers.filterMap id = [] := by
      refine List.eq_nil_iff_forall_not_mem.mpr fun next hnext => ?_
      obtain ⟨answer, hanswer, rfl⟩ := List.mem_filterMap.mp hnext
      obtain ⟨hafter, hbefore⟩ := hwithin next hanswer
      rw [UInt64.lt_iff_toNat_lt] at hafter hbefore
      omega
    rw [hround, hempty]
    rfl
  · rw [RatedGateQuery.nextEdgeLoop, if_neg hcursor]

def toggling (level : Nat → Bool) : CaptureInput := ⟨⟨level, false⟩, .ofNat u64Max⟩

theorem toggling_total (level : Nat → Bool) : (toggling level).totalSamples.toNat = 2 ^ 64 - 1 := rfl

theorem toggling_asked {level : Nat → Bool} (h : (toggling level).Asked rate limit p = true) :
    p < (scaleCeil limit rate rate).toNat := by
  have hlast : (min (scaleCeil limit rate rate) (toggling level).totalSamples).toNat ≤ (scaleCeil limit rate rate).toNat := by
    show (if _ ≤ (toggling level).totalSamples then scaleCeil limit rate rate else (toggling level).totalSamples).toNat ≤ _
    split
    · exact le_rfl
    · next hle => exact UInt64.le_iff_toNat_le.mp (UInt64.le_of_lt (UInt64.not_le.mp hle))
  have hlt : p < (min (scaleCeil limit rate rate) (toggling level).totalSamples).toNat := by
    rw [CaptureInput.Asked, toggling, Bool.false_and, Bool.or_false] at h
    exact of_decide_eq_true h
  exact hlt.trans_le hlast

theorem combined_single (input : CaptureInput) : combined .xor [input] = input.held := by
  funext p
  rw [combined, List.map_singleton, GateOp.combine]
  cases input.held p <;> rfl

theorem nextEdgeLoop_single {answer : Option UInt64} (hcursor : cursor < limit)
    (hanswer : (gateOver rate .xor [input] length).nextInputPosition (input.query rate) cursor limit = .ok answer)
    (rounds : Nat) : (gateOver rate .xor [input] length).nextEdgeLoop limit (rounds + 1) cursor =
      answer.elim (.ok none) fun next =>
        if input.held (scaleFloor next rate rate).toNat ≠ input.held (scaleFloor cursor rate rate).toNat then
          .ok (some ⟨next, input.held (scaleFloor next rate rate).toNat⟩)
        else (gateOver rate .xor [input] length).nextEdgeLoop limit rounds next := by
  rw [RatedGateQuery.nextEdgeLoop, if_pos hcursor]
  refine (bind_of_ok (inputLevels_gateOver cursor)).trans ?_
  refine (bind_of_ok (mapM_ok (g := fun _ => answer) fun i hi => ?_)).trans ?_
  · cases List.mem_singleton.mp (show i ∈ [0] from hi)
    exact hanswer
  · cases answer with
    | none => rfl
    | some next =>
      refine (bind_of_ok (combinedValue_gateOver next)).trans ?_
      have hcombine (p : Nat) : GateOp.xor.combine ([input].map (·.held p)) = input.held p :=
        congrFun (combined_single input) p
      rw [combined_single, Option.elim_some]
      show (if _ ≠ GateOp.xor.combine ([input].map (·.held (scaleFloor cursor rate rate).toNat)) then _ else _) = _
      rw [hcombine]
      rfl

section Step

variable {s : UInt64}

theorem step_held (hs : s < limit) (p : Nat) :
    (toggling fun p => decide (s.toNat ≤ p)).held p = decide (s.toNat ≤ p) := by
  have hlt := UInt64.lt_iff_toNat_lt.mp hs
  have hlimit := limit.toNat_lt
  rw [CaptureInput.held, toggling_total]
  show decide (s.toNat ≤ min p (2 ^ 64 - 1 - 1)) = _
  rw [decide_eq_decide]
  omega

theorem step_isEdge (hs : s < limit) (hpos : 0 < s.toNat) (p : Nat) :
    isEdge (toggling fun p => decide (s.toNat ≤ p)).held p = decide (p = s.toNat) := by
  rw [isEdge, step_held hs, step_held hs]
  rcases Nat.lt_trichotomy p s.toNat with hlt | rfl | hgt
  · simp [show ¬s.toNat ≤ p by omega, show ¬s.toNat ≤ p - 1 by omega, hlt.ne]
  · simp [hpos, show ¬s.toNat ≤ s.toNat - 1 by omega]
  · simp [hgt.le, show s.toNat ≤ p - 1 by omega, hgt.ne']

theorem step_edges (hs : s < limit) (hpos : 0 < s.toNat) {total start : Nat} (htotal : s.toNat < total) :
    edgesAfter (toggling fun p => decide (s.toNat ≤ p)).held total start = if start < s.toNat then [s.toNat] else [] := by
  have hquiet (p : Nat) (hp : p ≠ s.toNat) : isEdge (toggling fun p => decide (s.toNat ≤ p)).held p = false := by
    rw [step_isEdge hs hpos, decide_eq_false hp]
  split
  · next hstart =>
    rw [edgesAfter_first hstart htotal (by rw [step_isEdge hs hpos, decide_eq_true rfl])
      fun p _ hp => hquiet p hp.ne, edgesAfter_eq_nil fun p hp _ => hquiet p hp.ne']
  · next hstart => exact edgesAfter_eq_nil fun p hp _ => hquiet p (by omega)

variable (rate op inputs length cursor) in
theorem step_position (hs : s < limit) (hpos : 0 < s.toNat) :
    (gateOver rate op inputs length).nextInputPosition ((toggling fun p => decide (s.toNat ≤ p)).query rate) cursor
      limit = .ok (if scaleFloor cursor rate rate < s ∧ s < scaleCeil limit rate rate ∧
        cursor < scaleCeil s rate rate ∧ scaleCeil s rate rate < limit then some (scaleCeil s rate rate) else none) := by
  have hlt := UInt64.lt_iff_toNat_lt.mp hs
  have hlimit := limit.toNat_lt
  have hedges (start : Nat) : edgesAfter _ (2 ^ 64 - 1) start = _ := step_edges hs hpos (by omega)
  rw [nextInputPosition_eq, nextInputLoop_succ, toggling_total, hedges]
  by_cases hstart : scaleFloor cursor rate rate < s
  · rw [if_pos (UInt64.lt_iff_toNat_lt.mp hstart)]
    by_cases hasked : s < scaleCeil limit rate rate
    · rw [List.find?_cons_of_pos (CaptureInput.asked_of_lt (UInt64.lt_iff_toNat_lt.mp hasked)
        (by rw [toggling_total]; omega))]
      dsimp only
      rw [UInt64.ofNat_toNat]
      by_cases hin : cursor < scaleCeil s rate rate ∧ scaleCeil s rate rate < limit
      · rw [if_pos hin, if_pos ⟨hstart, hasked, hin⟩]
      · rw [if_neg hin, if_neg fun h => hin h.2.2, nextInputLoop_succ, toggling_total, hedges,
          if_neg (Nat.lt_irrefl _)]
        rfl
    · rw [List.find?_cons_of_neg fun h => hasked (UInt64.lt_iff_toNat_lt.mpr (toggling_asked h)),
        if_neg fun h => hasked h.2.1]
      rfl
  · rw [if_neg fun h => hstart (UInt64.lt_iff_toNat_lt.mpr h), if_neg fun h => hstart h.1]
    rfl

theorem step_scaled (hposition : position < s) (hs : s < limit)
    (hanswer : (gateOver rate .xor [toggling fun p => decide (s.toNat ≤ p)] length).nextEdge position limit =
      .ok (some ⟨s, true⟩)) :
    scaleFloor position rate rate < s ∧ s < scaleCeil limit rate rate ∧ scaleCeil s rate rate = s ∧
      scaleFloor s rate rate = s := by
  have hpos : 0 < s.toNat := Nat.zero_lt_of_lt (UInt64.lt_iff_toNat_lt.mp hposition)
  have hlimit : 0 < limit.toNat := Nat.zero_lt_of_lt (UInt64.lt_iff_toNat_lt.mp hs)
  have hheld := step_held hs
  rw [RatedGateQuery.nextEdge, nextEdgeLoop_single (UInt64.lt_trans hposition hs)
    (step_position rate .xor _ length position hs hpos)] at hanswer
  by_cases hfound : scaleFloor position rate rate < s ∧ s < scaleCeil limit rate rate ∧
      position < scaleCeil s rate rate ∧ scaleCeil s rate rate < limit
  · obtain ⟨hbefore, hend, -, hin⟩ := id hfound
    rw [if_pos hfound, Option.elim_some, hheld, hheld, decide_eq_false (Nat.not_le.mpr (UInt64.lt_iff_toNat_lt.mp hbefore))] at hanswer
    by_cases hreach : s.toNat ≤ (scaleFloor (scaleCeil s rate rate) rate rate).toNat
    · rw [decide_eq_true hreach, if_pos (by decide)] at hanswer
      have hsame : scaleCeil s rate rate = s :=
        congrArg CaptureTransition.sample (Option.some.inj (Except.ok.inj hanswer))
      rw [hsame] at hreach
      refine ⟨hbefore, hend, hsame, UInt64.le_antisymm ?_ (UInt64.le_iff_toNat_le.mpr hreach)⟩
      calc scaleFloor s rate rate ≤ scaleCeil s rate rate := scaleFloor_le_scaleCeil s rate rate
        _ = s := hsame
    · -- the search goes on behind the step and finds nothing
      obtain ⟨rounds, hrounds⟩ := Nat.exists_eq_succ_of_ne_zero hlimit.ne'
      rw [decide_eq_false hreach, if_neg (by decide), hrounds,
        nextEdgeLoop_single hin (step_position rate .xor _ length _ hs hpos),
        if_neg fun h => UInt64.lt_irrefl _ h.2.2.1, Option.elim_none] at hanswer
      cases hanswer
  · rw [if_neg hfound] at hanswer
    cases hanswer

end Step

section Pulse

variable {s : UInt64}

theorem pulse_held (hs : s.toNat + 1 < limit.toNat) (p : Nat) :
    (toggling fun p => decide (p = s.toNat)).held p = decide (p = s.toNat) := by
  have hlimit := limit.toNat_lt
  rw [CaptureInput.held, toggling_total]
  show decide (min p (2 ^ 64 - 1 - 1) = s.toNat) = _
  rw [decide_eq_decide]
  omega

theorem pulse_isEdge (hs : s.toNat + 1 < limit.toNat) (hpos : 0 < s.toNat) (p : Nat) :
    isEdge (toggling fun p => decide (p = s.toNat)).held p = decide (p = s.toNat ∨ p = s.toNat + 1) := by
  rw [isEdge, pulse_held hs, pulse_held hs]
  by_cases hp : p = s.toNat
  · simp [hp, hpos, show s.toNat - 1 ≠ s.toNat by omega]
  · by_cases hnext : p = s.toNat + 1
    · simp [hnext]
    · simp [hp, hnext, show p - 1 = s.toNat ↔ False from iff_false_intro (by omega)]

variable (op inputs length) in
/-- Scaled before its pulse, the cursor sees an edge in front of it whose level is the one it began with. -/
theorem pulse_position (hs : s.toNat + 1 < limit.toNat) (hbefore : (scaleFloor s rate rate).toNat < s.toNat)
    (hnext : scaleCeil (s + 1) rate rate = s + 1) (hend : s + 1 < scaleCeil limit rate rate) :
    ∃ next, (gateOver rate op inputs length).nextInputPosition
        ((toggling fun p => decide (p = s.toNat)).query rate) s limit = .ok (some next) ∧ s < next ∧ next < limit := by
  have hlimit := limit.toNat_lt
  have hadd : (s + 1).toNat = s.toNat + 1 := by
    rw [UInt64.toNat_add, UInt64.toNat_one, Nat.mod_eq_of_lt (by omega)]
  have hedge := pulse_isEdge hs (Nat.zero_lt_of_lt hbefore)
  have hend' := UInt64.lt_iff_toNat_lt.mp hend
  rw [hadd] at hend'
  have hasked (p : Nat) (hp : p ≤ s.toNat + 1) : (toggling fun p => decide (p = s.toNat)).Asked rate limit p = true :=
    CaptureInput.asked_of_lt (by omega) (by rw [toggling_total]; omega)
  have hfirst : edgesAfter _ (2 ^ 64 - 1) (scaleFloor s rate rate).toNat = s.toNat :: _ :=
    edgesAfter_first hbefore (by omega) (by rw [hedge]; simp) fun p _ hp => by rw [hedge, decide_eq_false (by omega)]
  have hsecond : edgesAfter _ (2 ^ 64 - 1) s.toNat = (s.toNat + 1) :: _ :=
    edgesAfter_first (by omega) (by omega) (by rw [hedge]; simp) fun p _ hp => by
      rw [hedge, decide_eq_false (by omega)]
  rw [nextInputPosition_eq, nextInputLoop_succ, toggling_total, hfirst, List.find?_cons_of_pos (hasked _ (by omega))]
  dsimp only
  rw [UInt64.ofNat_toNat]
  by_cases hin : s < scaleCeil s rate rate ∧ scaleCeil s rate rate < limit
  · exact ⟨_, if_pos hin, hin⟩
  · have hafter : s < s + 1 ∧ s + 1 < limit :=
      ⟨UInt64.lt_iff_toNat_lt.mpr (by omega), UInt64.lt_iff_toNat_lt.mpr (by omega)⟩
    rw [if_neg hin, nextInputLoop_succ, toggling_total, hsecond, List.find?_cons_of_pos (hasked _ le_rfl)]
    dsimp only
    rw [show UInt64.ofNat (s.toNat + 1) = s + 1 by rw [← hadd, UInt64.ofNat_toNat], hnext]
    exact ⟨_, if_pos hafter, hafter⟩

theorem pulse_scaled (hs : s.toNat + 1 < limit.toNat)
    (hexact : ∀ p, s < p → p < limit →
      p < scaleCeil limit rate rate ∧ scaleCeil p rate rate = p ∧ scaleFloor p rate rate = p)
    (hanswer : (gateOver rate .xor [toggling fun p => decide (p = s.toNat)] length).nextEdge s limit =
      .ok (some ⟨s + 1, false⟩)) : s ≤ scaleFloor s rate rate := by
  by_contra hlt
  have hbefore := UInt64.lt_iff_toNat_lt.mp (UInt64.not_le.mp hlt)
  have hlimit := limit.toNat_lt
  have hadd : (s + 1).toNat = s.toNat + 1 := by
    rw [UInt64.toNat_add, UInt64.toNat_one, Nat.mod_eq_of_lt (by omega)]
  have hheld := pulse_held hs
  have hedge := pulse_isEdge hs (Nat.zero_lt_of_lt hbefore)
  obtain ⟨hend, hceil, -⟩ := hexact (s + 1) (UInt64.lt_iff_toNat_lt.mpr (by omega)) (UInt64.lt_iff_toNat_lt.mpr (by omega))
  obtain ⟨next, hnext, hafter, hin⟩ := pulse_position .xor [toggling fun p => decide (p = s.toNat)] length
    hs hbefore hceil hend
  obtain ⟨-, -, hfloor⟩ := hexact next hafter hin
  have hafter' := UInt64.lt_iff_toNat_lt.mp hafter
  have hquiet : (gateOver rate .xor [toggling fun p => decide (p = s.toNat)] length).nextInputPosition
      ((toggling fun p => decide (p = s.toNat)).query rate) next limit = .ok none := by
    rw [nextInputPosition_eq, nextInputLoop_succ, hfloor, edgesAfter_eq_nil fun p hp _ => by
      rw [hedge, decide_eq_false (by omega)]]
    rfl
  obtain ⟨rounds, hrounds⟩ := Nat.exists_eq_succ_of_ne_zero (show limit.toNat ≠ 0 by omega)
  rw [RatedGateQuery.nextEdge, nextEdgeLoop_single (UInt64.lt_iff_toNat_lt.mpr (by omega)) hnext] at hanswer
  rw [Option.elim_some, hfloor, hheld, hheld, decide_eq_false hafter'.ne', decide_eq_false hbefore.ne, if_neg (by decide), hrounds,
    nextEdgeLoop_single hin hquiet] at hanswer
  cases hanswer

end Pulse

theorem step_firstChange {s : UInt64} (hposition : position < s) (hs : s < limit) :
    firstChange .xor [toggling fun p => decide (s.toNat ≤ p)] position limit = some ⟨s, true⟩ := by
  have hlt := UInt64.lt_iff_toNat_lt.mp hposition
  rw [firstChange, combined_single, step_edges hs (Nat.zero_lt_of_lt hlt) (UInt64.lt_iff_toNat_lt.mp hs), if_pos hlt,
    List.head?_cons, Option.map_some, step_held hs, UInt64.ofNat_toNat, decide_eq_true le_rfl]

theorem pulse_firstChange {s : UInt64} (hs : s.toNat + 1 < limit.toNat) (hpos : 0 < s.toNat) :
    firstChange .xor [toggling fun p => decide (p = s.toNat)] s limit = some ⟨s + 1, false⟩ := by
  have hlimit := limit.toNat_lt
  have hadd : (s + 1).toNat = s.toNat + 1 := by
    rw [UInt64.toNat_add, UInt64.toNat_one, Nat.mod_eq_of_lt (by omega)]
  have hedge := pulse_isEdge hs hpos
  rw [firstChange, combined_single, edgesAfter_first (Nat.lt_add_one _) hs (by rw [hedge]; simp)
    fun p _ hp => by rw [hedge, decide_eq_false (by omega)], List.head?_cons, Option.map_some, pulse_held hs, ← hadd,
    UInt64.ofNat_toNat, decide_eq_false (by omega)]

/-- Between two positions the composed query is right for every gate over inputs of a rate, exactly where scaling
leaves all of these positions alone. -/
theorem every_gate_exact_iff (rate : Float) (position limit : UInt64) :
    (∀ (op : GateOp) (inputs : List CaptureInput) (q : RatedGateQuery),
      RatedGateQuery.new op (inputs.map (·.query rate)) = some q →
        q.nextEdge position limit = .ok (firstChange op inputs position limit)) ↔
      (position.toNat + 1 < limit.toNat → ScalesExactly rate position limit) := by
  constructor
  · intro hanswers hroom
    have hlimit := limit.toNat_lt
    have hsingle (input : CaptureInput) := hanswers .xor [input] _ rfl
    have hscaled : ∀ p, position < p → p < limit → scaleFloor position rate rate < p ∧
        p < scaleCeil limit rate rate ∧ scaleCeil p rate rate = p ∧ scaleFloor p rate rate = p :=
      fun p hp hpl => step_scaled hp hpl ((hsingle _).trans (congrArg Except.ok (step_firstChange hp hpl)))
    have hnext : (position + 1).toNat = position.toNat + 1 := by
      rw [UInt64.toNat_add, UInt64.toNat_one, Nat.mod_eq_of_lt (by omega)]
    have hlast : (limit - 1).toNat = limit.toNat - 1 :=
      UInt64.toNat_sub_of_le _ _ (UInt64.le_iff_toNat_le.mpr (by rw [UInt64.toNat_one]; omega))
    have hbefore := (hscaled (position + 1) (UInt64.lt_iff_toNat_lt.mpr (by omega))
      (UInt64.lt_iff_toNat_lt.mpr (by omega))).1
    have hend := (hscaled (limit - 1) (UInt64.lt_iff_toNat_lt.mpr (by omega))
      (UInt64.lt_iff_toNat_lt.mpr (by omega))).2.1
    rw [UInt64.lt_iff_toNat_lt] at hbefore hend
    have hfirst : position ≤ scaleFloor position rate rate := by
      rcases Nat.eq_zero_or_pos position.toNat with hzero | hpos
      · exact UInt64.le_iff_toNat_le.mpr (by omega)
      · exact pulse_scaled hroom (fun p hp hpl => (hscaled p hp hpl).2)
          ((hsingle _).trans (congrArg Except.ok (pulse_firstChange hroom hpos)))
    rw [UInt64.le_iff_toNat_le] at hfirst
    refine ⟨fun p hp hpl => ?_, fun p hp hpl => (hscaled p hp hpl).2.2.1, UInt64.le_iff_toNat_le.mpr (by omega)⟩
    rcases UInt64.lt_or_eq_of_le hp with hlt | rfl
    · exact (hscaled p hlt hpl).2.2.2
    · exact UInt64.toNat_inj.mp (by omega)
  · intro hexact op inputs q hq
    obtain ⟨length, rfl⟩ := new_gateOver hq
    rcases Nat.lt_or_ge (position.toNat + 1) limit.toNat with hroom | hempty
    · exact nextEdgeLoop_exact (hexact hroom).sound (UInt64.le_refl _) _ (by omega)
    · exact nextEdge_empty hempty

end Exact

end LogicConduit
