import LogicConduit.RatedQueries

namespace LogicConduit

section Path

variable {rate : Float} {op : GateOp} {inputs : List CaptureInput} {length position limit cursor : UInt64}

/-- The samples that a search from a position on stops at: this one and, from each of the same combined level, the
first edge of an input that can change it. -/
inductive Meets (op : GateOp) (inputs : List CaptureInput) (position limit : UInt64) : UInt64 → Prop
  | start : Meets op inputs position limit position
  | next {cursor : UInt64} {p : Nat} : Meets op inputs position limit cursor →
    combined op inputs cursor.toNat = combined op inputs position.toNat →
    (nextEdges op inputs limit.toNat cursor.toNat).min? = some p → Meets op inputs position limit (.ofNat p)

/-- The next edge of an input before the limit is asked for and scaled to itself. Where there is none, no edge that is
asked for is scaled from behind the limit to before it. -/
structure ScalesNext (rate : Float) (limit cursor : UInt64) (input : CaptureInput) : Prop where
  next : ∀ e ∈ (edgesAfter input.held limit.toNat cursor.toNat).head?,
    input.Asked rate limit e = true ∧ scaleCeil (.ofNat e) rate rate = .ofNat e
  none : edgesAfter input.held limit.toNat cursor.toNat = [] → ∀ e, limit.toNat ≤ e → isEdge input.held e = true →
    input.Asked rate limit e = true → limit ≤ scaleCeil (.ofNat e) rate rate

/-- What a search up to the first change of the combined level scales, it scales to itself: the samples that it stops
at, and from each before the change the next edges of the inputs that can change the output. -/
def ScalesItsPath (rate : Float) (op : GateOp) (inputs : List CaptureInput) (position limit : UInt64) : Prop :=
  ∀ cursor, Meets op inputs position limit cursor → scaleFloor cursor rate rate = cursor ∧
    (combined op inputs cursor.toNat = combined op inputs position.toNat →
      ∀ input ∈ followed op inputs cursor.toNat, ScalesNext rate limit cursor input)

theorem nextInputPosition_scales {input : CaptureInput} (hfloor : scaleFloor cursor rate rate = cursor)
    (hscales : ScalesNext rate limit cursor input) :
    (gateOver rate op inputs length).nextInputPosition (input.query rate) cursor limit =
      .ok ((edgesAfter input.held limit.toNat cursor.toNat).head?.map UInt64.ofNat) := by
  cases hedges : edgesAfter input.held limit.toNat cursor.toNat with
  | nil =>
    have htotal := input.totalSamples.toNat_lt
    rw [nextInputPosition_eq, hfloor]
    exact nextInputLoop_none (by omega) hedges (hscales.none hedges)
  | cons first rest =>
    obtain ⟨hasked, hceil⟩ := hscales.next first (by rw [hedges]; rfl)
    exact nextInputPosition_first hfloor hedges hasked hceil

theorem ScalesItsPath.sound (hscales : ScalesItsPath rate op inputs position limit) :
    SoundCursors rate op inputs length limit fun cursor => Meets op inputs position limit cursor ∧
      combined op inputs cursor.toNat = combined op inputs position.toNat where
  floor cursor hcursor _ := (hscales cursor hcursor.1).1
  found cursor hcursor _ input hinput first rest hfirst := by
    obtain ⟨hfloor, hnext⟩ := hscales cursor hcursor.1
    rw [nextInputPosition_scales hfloor (hnext hcursor.2 input hinput), hfirst]
    rfl
  moves cursor hcursor _ input hinput next hfound hleast := by
    obtain ⟨hfloor, hnext⟩ := hscales cursor hcursor.1
    rw [nextInputPosition_scales hfloor (hnext hcursor.2 input hinput)] at hfound
    obtain ⟨e, hhead, rfl⟩ := Option.map_eq_some_iff.mp (Except.ok.inj hfound)
    have he : e ∈ nextEdges op inputs limit.toNat cursor.toNat := List.mem_filterMap.mpr ⟨input, hinput, hhead⟩
    have hnat : (UInt64.ofNat e).toNat = e :=
      UInt64.toNat_ofNat_of_lt ((mem_edgesAfter.mp (List.mem_of_head? hhead)).1.trans limit.toNat_lt)
    rw [hnat] at hleast
    have hmeets : Meets op inputs position limit (.ofNat e) :=
      .next hcursor.1 hcursor.2 (List.min?_eq_some_iff.mpr ⟨he, hleast⟩)
    exact ⟨(hscales _ hmeets).1, fun hsame => ⟨hmeets, hsame.trans hcursor.2⟩⟩

/-- Over inputs of one rate the composed query finds the first change of the combined level, where the search for it
meets no sample that scaling moves; a sample between two positions that scaling moves is met by the search of some
gate, and its answer is wrong. -/
theorem composed_query_exact (rate : Float) (position limit : UInt64) :
    (∀ (op : GateOp) (inputs : List CaptureInput) (q : RatedGateQuery),
      RatedGateQuery.new op (inputs.map (·.query rate)) = some q →
        (position.toNat + 1 < limit.toNat → ScalesItsPath rate op inputs position limit) →
          q.nextEdge position limit = .ok (firstChange op inputs position limit)) ∧
    ((∀ (op : GateOp) (inputs : List CaptureInput) (q : RatedGateQuery),
      RatedGateQuery.new op (inputs.map (·.query rate)) = some q →
        q.nextEdge position limit = .ok (firstChange op inputs position limit)) ↔
      (position.toNat + 1 < limit.toNat → ScalesExactly rate position limit)) := by
  refine ⟨fun op inputs q hq hscales => ?_, every_gate_exact_iff rate position limit⟩
  obtain ⟨length, rfl⟩ := new_gateOver hq
  rcases Nat.lt_or_ge (position.toNat + 1) limit.toNat with hroom | hempty
  · exact nextEdgeLoop_exact (hscales hroom).sound ⟨.start, rfl⟩ _ (by omega)
  · exact nextEdge_empty hempty

theorem followed_single (input : CaptureInput) (p : Nat) : followed .xor [input] p = [input] := rfl

theorem step_meets {s : UInt64} (hposition : position < s) (hs : s < limit)
    (hmeets : Meets .xor [toggling fun p => decide (s.toNat ≤ p)] position limit cursor) :
    cursor = position ∨ cursor = s := by
  have hlt := UInt64.lt_iff_toNat_lt.mp hposition
  cases hmeets with
  | start => exact .inl rfl
  | @next cursor p _ hsame hmin =>
    right
    rw [combined_single, step_held hs, step_held hs, decide_eq_false (Nat.not_le.mpr hlt), decide_eq_false_iff_not,
      Nat.not_le] at hsame
    rw [nextEdges, followed_single, List.filterMap_cons, step_edges hs (Nat.zero_lt_of_lt hlt)
      (UInt64.lt_iff_toNat_lt.mp hs), if_pos hsame] at hmin
    cases hmin
    exact UInt64.ofNat_toNat

theorem step_scalesItsPath {s : UInt64} (hposition : position < s) (hs : s < limit)
    (hfirst : scaleFloor position rate rate = position) (hfloor : scaleFloor s rate rate = s)
    (hceil : scaleCeil s rate rate = s) (hend : s < scaleCeil limit rate rate) :
    ScalesItsPath rate .xor [toggling fun p => decide (s.toNat ≤ p)] position limit := by
  have hlt := UInt64.lt_iff_toNat_lt.mp hposition
  have hpos : 0 < s.toNat := Nat.zero_lt_of_lt hlt
  have hlimit := UInt64.lt_iff_toNat_lt.mp hs
  have htotal := limit.toNat_lt
  intro cursor hmeets
  rcases step_meets hposition hs hmeets with rfl | rfl
  · refine ⟨hfirst, fun _ input hinput => ?_⟩
    rw [followed_single, List.mem_singleton] at hinput
    subst hinput
    have hedges := (step_edges hs hpos hlimit).trans (if_pos hlt)
    constructor
    · rw [hedges]
      intro e he
      cases he
      refine ⟨CaptureInput.asked_of_lt (UInt64.lt_iff_toNat_lt.mp hend) (by rw [toggling_total]; omega), ?_⟩
      rw [UInt64.ofNat_toNat, hceil]
    · intro hnone
      rw [hedges] at hnone
      cases hnone
  · refine ⟨hfloor, fun hsame => absurd hsame ?_⟩
    rw [combined_single, step_held hs, step_held hs, decide_eq_true le_rfl, decide_eq_false (Nat.not_le.mpr hlt)]
    decide

/-- A step at the start of a range whose end has samples that scaling moves. -/
theorem composed_query_exact_early : ∃ q, RatedGateQuery.new .xor
      [(toggling fun p => decide ((1000 : UInt64).toNat ≤ p)).query 1000000000.0] = some q ∧
    q.nextEdge 0 5000000000 = .ok (some ⟨1000, true⟩) ∧ ¬ScalesExactly 1000000000.0 0 5000000000 := by
  have hscales : ScalesItsPath 1000000000.0 .xor [toggling fun p => decide ((1000 : UInt64).toNat ≤ p)] 0 5000000000 :=
    step_scalesItsPath (by decide) (by decide) (by decide) (by decide) (by decide) (by decide)
  refine ⟨_, rfl, ?_, fun hexact => ?_⟩
  · exact ((composed_query_exact 1000000000.0 0 5000000000).1 .xor [toggling _] _ rfl fun _ => hscales).trans
      (congrArg Except.ok (step_firstChange (by decide) (by decide)))
  · exact absurd (hexact.2.1 4611898999 (by decide) (by decide)) (by decide)

/-- At a rate of one gigahertz, a step at a sample behind four seconds is found one sample late. -/
theorem late_step_found_late : ∃ q, RatedGateQuery.new .xor
      [(toggling fun p => decide ((4611898999 : UInt64).toNat ≤ p)).query 1000000000.0] = some q ∧
    q.nextEdge 0 5000000000 = .ok (some ⟨4611899000, true⟩) ∧
    firstChange .xor [toggling fun p => decide ((4611898999 : UInt64).toNat ≤ p)] 0 5000000000 =
      some ⟨4611898999, true⟩ := by
  have hs : (4611898999 : UInt64) < 5000000000 := by decide
  have hfound : (0 : UInt64) < 5000000000 := by decide
  have hscale : scaleCeil 4611898999 1000000000.0 1000000000.0 = 4611899000 := by decide
  have hcheck : scaleFloor 0 1000000000.0 1000000000.0 < 4611898999 ∧
      4611898999 < scaleCeil 5000000000 1000000000.0 1000000000.0 ∧
        0 < scaleCeil 4611898999 1000000000.0 1000000000.0 ∧
          scaleCeil 4611898999 1000000000.0 1000000000.0 < 5000000000 := by decide
  refine ⟨_, rfl, ?_, step_firstChange (by decide) hs⟩
  refine (nextEdgeLoop_single hfound (step_position _ _ _ _ _ hs (by decide)) _).trans ?_
  rw [if_pos hcheck, Option.elim_some, step_held hs, step_held hs, if_pos (by decide), hscale]
  decide

end Path

end LogicConduit
