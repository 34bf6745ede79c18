import LogicConduit.CheckedRuns
import LogicConduit.GateQuery

namespace LogicConduit

variable {level : Nat → Bool}

theorem edgesAfter_skip {total c q : Nat} (hcq : c ≤ q) (quiet : ∀ p, c < p → p ≤ q → isEdge level p = false) :
    edgesAfter level total c = edgesAfter level total q := by
  unfold edgesAfter
  refine List.filter_congr fun p _ => ?_
  by_cases hqp : q < p
  · simp [hqp, show c < p by omega]
  · by_cases hcp : c < p
    · simp [hqp, hcp, quiet p hcp (by omega)]
    · simp [hqp, hcp]

theorem edgesAfter_eq_nil {total c : Nat} (quiet : ∀ p, c < p → p < total → isEdge level p = false) :
    edgesAfter level total c = [] := by
  rw [List.eq_nil_iff_forall_not_mem]
  intro p hp
  obtain ⟨hpt, hcp, hedge⟩ := mem_edgesAfter.mp hp
  rw [quiet p hcp hpt] at hedge
  cases hedge

theorem edgesAfter_first {total c q : Nat} (hcq : c < q) (hq : q < total) (hedge : isEdge level q = true)
    (quiet : ∀ p, c < p → p < q → isEdge level p = false) :
    edgesAfter level total c = q :: edgesAfter level total q := by
  cases hl : edgesAfter level total c with
  | nil =>
    rw [edgesAfter_nil hl hcq hq] at hedge
    cases hedge
  | cons first rest =>
    obtain ⟨-, hcf, hf, hbefore, hrest⟩ := edgesAfter_cons hl
    have hsame : first = q := by
      rcases Nat.lt_trichotomy first q with hlt | heq | hgt
      · rw [quiet first hcf hlt] at hf
        cases hf
      · exact heq
      · rw [hbefore q hcq hgt] at hedge
        cases hedge
    rw [hrest, hsame]

section Combine

variable {levels levels' : List Bool}

theorem eq_of_kept (hlen : levels'.length = levels.length)
    (kept : ∀ i ∈ List.range levels.length, levels'[i]? = levels[i]?) : levels' = levels := by
  refine List.ext_getElem? fun i => ?_
  rcases Nat.lt_or_ge i levels.length with hlt | hge
  · exact kept i (List.mem_range.mpr hlt)
  · rw [List.getElem?_eq_none hge, List.getElem?_eq_none (by omega)]

theorem mem_of_kept {value : Bool} (hv : value ∈ levels)
    (kept : ∀ i ∈ (List.range levels.length).filter fun i => levels[i]? == some value, levels'[i]? = levels[i]?) :
    value ∈ levels' := by
  obtain ⟨i, hi⟩ := List.mem_iff_getElem?.mp hv
  have hit : i < levels.length := (List.getElem?_eq_some_iff.mp hi).1
  have hmem : i ∈ (List.range levels.length).filter fun i => levels[i]? == some value :=
    List.mem_filter.mpr ⟨List.mem_range.mpr hit, by rw [hi]; exact beq_self_eq_true _⟩
  exact List.mem_of_getElem? ((kept i hmem).trans hi)

theorem all_of_kept (hlen : levels'.length = levels.length)
    (kept : ∀ i ∈ (if levels.all id then List.range levels.length
      else (List.range levels.length).filter fun i => levels[i]? == some false), levels'[i]? = levels[i]?) :
    levels'.all id = levels.all id := by
  by_cases hall : levels.all id = true
  · rw [if_pos hall] at kept
    rw [eq_of_kept hlen kept]
  · rw [if_neg hall] at kept
    have hall' : levels.all id = false := Bool.eq_false_iff.mpr hall
    obtain ⟨value, hv, hlow⟩ := List.all_eq_false.mp hall'
    have hvalue : value = false := Bool.eq_false_iff.mpr hlow
    subst hvalue
    rw [hall']
    exact List.all_eq_false.mpr ⟨false, mem_of_kept hv kept, hlow⟩

theorem any_of_kept (hlen : levels'.length = levels.length)
    (kept : ∀ i ∈ (if levels.any id then (List.range levels.length).filter fun i => levels[i]? == some true
      else List.range levels.length), levels'[i]? = levels[i]?) : levels'.any id = levels.any id := by
  by_cases hany : levels.any id = true
  · rw [if_pos hany] at kept
    obtain ⟨value, hv, hhigh⟩ := List.any_eq_true.mp hany
    have hvalue : value = true := hhigh
    subst hvalue
    rw [hany]
    exact List.any_eq_true.mpr ⟨true, mem_of_kept hv kept, rfl⟩
  · rw [if_neg hany] at kept
    rw [eq_of_kept hlen kept]

theorem combine_of_kept (q : LogicGateEdgeQuery) (hlen : levels'.length = levels.length)
    (kept : ∀ i ∈ q.inputsThatCanChangeOutput levels, levels'[i]? = levels[i]?) :
    q.op.combine levels' = q.op.combine levels := by
  unfold LogicGateEdgeQuery.inputsThatCanChangeOutput at kept
  cases hop : q.op with
  | and =>
    rw [hop] at kept
    exact all_of_kept hlen kept
  | nand =>
    rw [hop] at kept
    exact congrArg Bool.not (all_of_kept hlen kept)
  | or =>
    rw [hop] at kept
    exact any_of_kept hlen kept
  | nor =>
    rw [hop] at kept
    exact congrArg Bool.not (any_of_kept hlen kept)
  | not =>
    rw [hop] at kept
    rw [eq_of_kept hlen kept]
  | xor =>
    rw [hop] at kept
    rw [eq_of_kept hlen kept]
  | xnor =>
    rw [hop] at kept
    rw [eq_of_kept hlen kept]

end Combine

theorem bind_of_ok {ε α β : Type} {x : Except ε α} {a : α} {f : α → Except ε β} (h : x = .ok a) : (x >>= f) = f a := by
  rw [h]
  rfl

theorem minU64_self (a : UInt64) : min a a = a := ite_self a

namespace Recording

variable (r : Recording) (op : GateOp)

def gateQuery : LogicGateEdgeQuery := ⟨op, r.channels.map r.query, r.totalSamples⟩

def output (p : Nat) : Bool := op.combine (r.levelsAt p)

theorem new_gateQuery (h : r.channels ≠ []) :
    LogicGateEdgeQuery.new op (r.channels.map r.query) = some (r.gateQuery op) := by
  have hmin : ∀ channels : List CaptureChannel, (channels.map r.query).foldl (fun least input => min least input.totalSamples)
      r.totalSamples = r.totalSamples := by
    intro channels
    induction channels with
    | nil => rfl
    | cons channel channels ih =>
      rw [List.map_cons, List.foldl_cons]
      show List.foldl _ (min r.totalSamples r.totalSamples) _ = _
      rw [minU64_self]
      exact ih
  rcases hc : r.channels with _ | ⟨first, rest⟩
  · exact absurd hc h
  · rw [gateQuery, hc]
    show some (LogicGateEdgeQuery.mk op _ _) = _
    rw [show (r.query first).totalSamples = r.totalSamples from rfl, hmin rest]

theorem inputLevels_gateQuery (position : UInt64) :
    (r.gateQuery op).inputLevels position = .ok (r.levelsAt position.toNat) := by
  rw [LogicGateEdgeQuery.inputLevels, gateQuery, List.mapM_map]
  exact mapM_ok fun channel _ => rfl

theorem combinedValue_gateQuery (position : UInt64) :
    (r.gateQuery op).combinedValue position = .ok (r.output op position.toNat) := by
  rw [LogicGateEdgeQuery.combinedValue, inputLevels_gateQuery]
  rfl

theorem nextInputPosition_query (channel : CaptureChannel) (cursor : UInt64) (rounds : Nat) :
    LogicGateEdgeQuery.nextInputPosition (r.query channel) cursor r.totalSamples (rounds + 1) cursor =
      .ok ((edgesAfter channel.level r.total cursor.toNat).head?.map UInt64.ofNat) := by
  rw [LogicGateEdgeQuery.nextInputPosition, show (r.query channel).totalSamples = r.totalSamples from rfl, minU64_self,
    query_nextEdge]
  cases hl : edgesAfter channel.level r.total cursor.toNat with
  | nil => rfl
  | cons p rest =>
    obtain ⟨hp, hcp, -⟩ := edgesAfter_cons hl
    have hpos := r.ofNat_toNat hp
    have hin : cursor < UInt64.ofNat p ∧ UInt64.ofNat p < r.totalSamples :=
      ⟨UInt64.lt_iff_toNat_lt.mpr (by rw [hpos]; exact hcp), UInt64.lt_iff_toNat_lt.mpr (by rw [hpos]; exact hp)⟩
    show (if cursor < UInt64.ofNat p ∧ UInt64.ofNat p < r.totalSamples then _ else _) = _
    rw [if_pos hin]
    rfl

/-- The inputs asked for their next edge at a cursor. -/
def relevant (cursor : Nat) : List Nat := (r.gateQuery op).inputsThatCanChangeOutput (r.levelsAt cursor)

def firstEdge (cursor i : Nat) : Option Nat :=
  r.channels[i]?.bind fun channel => (edgesAfter channel.level r.total cursor).head?

/-- No input that can change the output has an edge behind the cursor up to a sample. -/
def QuietUpTo (cursor q : Nat) : Prop :=
  ∀ i ∈ r.relevant op cursor, ∀ channel, r.channels[i]? = some channel →
    ∀ p, cursor < p → p ≤ q → isEdge channel.level p = false

variable {r op} {cursor p q : Nat}

section

variable (h : r.QuietUpTo op cursor q)
include h

theorem QuietUpTo.mono (hp : p ≤ q) : r.QuietUpTo op cursor p :=
  fun i hi channel hc e he hep => h i hi channel hc e he (hep.trans hp)

theorem QuietUpTo.output_eq (hq : cursor ≤ q) : r.output op q = r.output op cursor := by
  refine combine_of_kept (r.gateQuery op) (by simp [levelsAt]) fun i hi => ?_
  rw [levelsAt, levelsAt, List.getElem?_map, List.getElem?_map]
  cases hc : r.channels[i]? with
  | none => rfl
  | some channel => exact congrArg some (level_eq_of_quiet hq (h i hi channel hc))

theorem QuietUpTo.no_edge (hp : cursor < p) (hpq : p ≤ q) : isEdge (r.output op) p = false := by
  have here := (h.mono hpq).output_eq hp.le
  have before := (h.mono (show p - 1 ≤ q by omega)).output_eq (show cursor ≤ p - 1 by omega)
  simp [isEdge, here, before]

end

def candidates (r : Recording) (op : GateOp) (cursor : Nat) : List Nat :=
  (r.relevant op cursor).filterMap (r.firstEdge cursor)

theorem mem_candidates : q ∈ r.candidates op cursor ↔
    ∃ i ∈ r.relevant op cursor, ∃ channel, r.channels[i]? = some channel ∧
      (edgesAfter channel.level r.total cursor).head? = some q := by
  simp [candidates, firstEdge, Option.bind_eq_some_iff]

theorem candidates_bounds (h : q ∈ r.candidates op cursor) : cursor < q ∧ q < r.total := by
  obtain ⟨i, -, channel, -, hq⟩ := mem_candidates.mp h
  obtain ⟨hqt, hcq, -⟩ := mem_edgesAfter.mp (List.mem_of_head? hq)
  exact ⟨hcq, hqt⟩

theorem quiet_before (hq : ∀ c ∈ r.candidates op cursor, q < c) (hqt : q < r.total) : r.QuietUpTo op cursor q := by
  intro i hi channel hc p hcp hpq
  cases hl : edgesAfter channel.level r.total cursor with
  | nil => exact edgesAfter_nil hl hcp (by omega)
  | cons first rest =>
    have hmem : first ∈ r.candidates op cursor := mem_candidates.mpr ⟨i, hi, channel, hc, by rw [hl]; rfl⟩
    exact (edgesAfter_cons hl).2.2.2.1 p hcp (by have := hq first hmem; omega)

theorem positions_gateQuery (cursor : UInt64) (rounds : Nat) :
    ((r.relevant op cursor.toNat).mapM fun index =>
      match (r.gateQuery op).inputs[index]? with
      | none => (Except.ok none : Except QueryError (Option UInt64))
      | some input => LogicGateEdgeQuery.nextInputPosition input cursor r.totalSamples (rounds + 1) cursor) =
    .ok ((r.relevant op cursor.toNat).map fun i => (r.firstEdge cursor.toNat i).map UInt64.ofNat) := by
  refine mapM_ok fun i _ => ?_
  rw [gateQuery, List.getElem?_map, firstEdge]
  cases r.channels[i]? with
  | none => rfl
  | some channel => exact r.nextInputPosition_query channel cursor rounds

theorem least_candidate (r : Recording) (op : GateOp) (cursor : Nat) :
    ((((r.relevant op cursor).map fun i => (r.firstEdge cursor i).map UInt64.ofNat).filterMap id).min? = none ∧
      r.candidates op cursor = []) ∨
    ∃ q ∈ r.candidates op cursor, (∀ c ∈ r.candidates op cursor, q ≤ c) ∧
      (((r.relevant op cursor).map fun i => (r.firstEdge cursor i).map UInt64.ofNat).filterMap id).min? =
        some (UInt64.ofNat q) := by
  have hlist : ((r.relevant op cursor).map fun i => (r.firstEdge cursor i).map UInt64.ofNat).filterMap id =
      (r.candidates op cursor).map UInt64.ofNat := by
    rw [candidates, List.map_filterMap, List.filterMap_map]
    rfl
  rw [hlist]
  cases hmin : ((r.candidates op cursor).map UInt64.ofNat).min? with
  | none =>
    rw [List.min?_eq_none_iff, List.map_eq_nil_iff] at hmin
    exact Or.inl ⟨rfl, hmin⟩
  | some least =>
    right
    obtain ⟨hmem, hleast⟩ := List.min?_eq_some_iff.mp hmin
    obtain ⟨q, hq, rfl⟩ := List.mem_map.mp hmem
    refine ⟨q, hq, fun c hc => ?_, rfl⟩
    have hle := UInt64.le_iff_toNat_le.mp (hleast _ (List.mem_map_of_mem hc))
    rwa [r.ofNat_toNat (candidates_bounds hq).2, r.ofNat_toNat (candidates_bounds hc).2] at hle

theorem nextEdge_gateQuery {cursor : UInt64} (rounds : Nat) (h : r.total - cursor.toNat < rounds) :
    (r.gateQuery op).nextEdge r.totalSamples rounds cursor =
      .ok ((edgesAfter (r.output op) r.total cursor.toNat).head?.map fun p => ⟨UInt64.ofNat p, r.output op p⟩) := by
  induction rounds generalizing cursor with
  | zero => omega
  | succ rounds ih =>
    rw [LogicGateEdgeQuery.nextEdge]
    by_cases hcursor : cursor < r.totalSamples
    · rw [if_pos hcursor]
      refine (bind_of_ok (r.inputLevels_gateQuery op cursor)).trans ?_
      refine (bind_of_ok (positions_gateQuery cursor r.totalSamples.toNat)).trans ?_
      rcases r.least_candidate op cursor.toNat with ⟨hmin, hnone⟩ | ⟨q, hq, hleast, hmin⟩
      · rw [hmin]
        rw [edgesAfter_eq_nil fun p hp hpt => (quiet_before (by simp [hnone]) hpt).no_edge hp le_rfl]
        rfl
      · obtain ⟨hcq, hqt⟩ := candidates_bounds hq
        have hquiet : ∀ p, cursor.toNat < p → p < q → isEdge (r.output op) p = false := fun p hp hpq =>
          (quiet_before (fun c hc => Nat.lt_of_lt_of_le hpq (hleast c hc)) (hpq.trans hqt)).no_edge hp le_rfl
        have hprev : r.output op (q - 1) = r.output op cursor.toNat :=
          level_eq_of_quiet (by omega) fun p hp hpq => hquiet p hp (by omega)
        rw [hmin]
        refine (bind_of_ok (r.combinedValue_gateQuery op (UInt64.ofNat q))).trans ?_
        rw [r.ofNat_toNat hqt]
        show (if r.output op q ≠ r.output op cursor.toNat then _ else _) = _
        by_cases hchange : r.output op q ≠ r.output op cursor.toNat
        · rw [if_pos hchange, edgesAfter_first hcq hqt (by simp [isEdge, hprev, hchange]; omega) hquiet]
          rfl
        · rw [if_neg hchange, ih (by rw [r.ofNat_toNat hqt]; omega), r.ofNat_toNat hqt]
          rw [← edgesAfter_skip hcq.le]
          intro p hp hpq
          rcases Nat.lt_or_ge p q with hlt | hge
          · exact hquiet p hp hlt
          · have heq : p = q := by omega
            subst heq
            simp [isEdge, hprev, not_not.mp hchange]
    · rw [if_neg hcursor, edgesAfter_eq_nil]
      · rfl
      · intro p hp hpt
        exact absurd (UInt64.lt_iff_toNat_lt.mpr (hp.trans hpt)) hcursor

/-- Iterating `next_edge` meets the edges of the combined level, in order. -/
theorem transitions_gateQuery {position : UInt64} (rounds : Nat) (h : r.total - position.toNat < rounds) :
    (r.gateQuery op).transitions rounds position =
      .ok ((edgesAfter (r.output op) r.total position.toNat).map fun p => ⟨UInt64.ofNat p, r.output op p⟩) := by
  induction rounds generalizing position with
  | zero => omega
  | succ rounds ih =>
    rw [LogicGateEdgeQuery.transitions]
    have hnext := @nextEdge_gateQuery r op position (r.total + 1) (by omega)
    rw [show (r.gateQuery op).totalSamples = r.totalSamples from rfl, show r.totalSamples.toNat = r.total from rfl, hnext]
    cases hl : edgesAfter (r.output op) r.total position.toNat with
    | nil => rfl
    | cons p rest =>
      obtain ⟨hpt, hcp, -, -, hrest⟩ := edgesAfter_cons hl
      have hpos := r.ofNat_toNat hpt
      show Except.map _ ((r.gateQuery op).transitions rounds (UInt64.ofNat p)) = _
      rw [ih (by rw [hpos]; omega), hpos, ← hrest]
      rfl

end Recording

end LogicConduit
