import LogicConduit.LoweringWires

namespace LogicConduit.Document

theorem passThroughFrom_bounds (inputs : List Socket) (outIdx : Nat) (used : List Nat) (outputs : List Socket)
    {pair : Nat × Nat} (h : pair ∈ Node.passThroughFrom inputs outIdx used outputs) : outIdx ≤ pair.1 := by
  induction outputs generalizing outIdx used with
  | nil => cases h
  | cons output outputs ih =>
    rw [Node.passThroughFrom] at h
    split at h
    · exact Nat.le_of_succ_le (ih _ _ h)
    · rcases List.mem_cons.mp h with rfl | h
      · exact Nat.le_refl _
      · exact Nat.le_of_succ_le (ih _ _ h)

theorem passThroughFrom_sorted (inputs : List Socket) (outIdx : Nat) (used : List Nat) (outputs : List Socket) :
    (Node.passThroughFrom inputs outIdx used outputs).Pairwise fun a b => a.1 < b.1 := by
  induction outputs generalizing outIdx used with
  | nil => exact .nil
  | cons output outputs ih =>
    rw [Node.passThroughFrom]
    split
    · exact ih _ _
    · exact List.pairwise_cons.mpr ⟨fun _ h => passThroughFrom_bounds _ _ _ _ h, ih _ _⟩

theorem eq_of_fst_eq {l : List (Nat × Nat)} (sorted : l.Pairwise fun a b => a.1 < b.1) {a b : Nat × Nat} (ha : a ∈ l)
    (hb : b ∈ l) (h : a.1 = b.1) : a = b := by
  induction l with
  | nil => cases ha
  | cons first rest ih =>
    obtain ⟨hfirst, hrest⟩ := List.pairwise_cons.mp sorted
    rcases List.mem_cons.mp ha with rfl | ha'
    · rcases List.mem_cons.mp hb with rfl | hb'
      · rfl
      · exact absurd h (Nat.ne_of_lt (hfirst b hb'))
    · rcases List.mem_cons.mp hb with rfl | hb'
      · exact absurd h.symm (Nat.ne_of_lt (hfirst a ha'))
      · exact ih hrest ha' hb'

theorem find_passThrough {node : Node} {index : Nat} {pair : Nat × Nat} :
    node.mutePassThroughPairs.find? (fun pair => pair.1 = index) = some pair ↔
      pair ∈ node.mutePassThroughPairs ∧ pair.1 = index := by
  constructor
  · intro h
    exact ⟨List.mem_of_find?_eq_some h, by simpa using List.find?_some h⟩
  · rintro ⟨hmem, hindex⟩
    cases hfind : node.mutePassThroughPairs.find? fun pair => pair.1 = index with
    | none => exact absurd hindex (by simpa using List.find?_eq_none.mp hfind pair hmem)
    | some other =>
      have hsame : other.1 = index := by simpa using List.find?_some hfind
      exact congrArg some (eq_of_fst_eq (passThroughFrom_sorted node.inputs 0 [] node.outputs)
        (List.mem_of_find?_eq_some hfind) hmem (hsame.trans hindex.symm))

namespace GraphState

variable {g : GraphState} {s t : SocketId} {id : NodeId} {node : Node}

structure OneConnectionPerInput (g : GraphState) : Prop where
  single : ∀ c ∈ g.connections, ∀ d ∈ g.connections, c.target = d.target → c = d
  reroute : ∀ c ∈ g.connections, ∀ node, g.node? c.target.node = some node → node.kind = .reroute →
    c.target = ⟨c.target.node, 0, .input⟩

/-- One step of a chain, over a connection: into a reroute, or into the input that a muted node passes through to
the output. -/
def Hop (g : GraphState) (s t : SocketId) : Prop :=
  ∃ node, g.node? s.node = some node ∧ ∃ c ∈ g.connections, c.source = t ∧ c.target.node = s.node ∧
    (node.kind = .reroute ∨ node.kind = .regular ∧ node.muted = true ∧ c.target.direction = .input ∧
      (s.index, c.target.index) ∈ node.mutePassThroughPairs)

def SingleHops (g : GraphState) : Prop :=
  ∀ c ∈ g.connections, ∀ d ∈ g.connections, ∀ node, g.node? c.target.node = some node → isLive node = false →
    (c.target = d.target → c = d) ∧ (node.kind = .reroute → c.target.node = d.target.node → c = d)

theorem OneConnectionPerInput.singleHops (h : g.OneConnectionPerInput) : g.SingleHops := by
  intro c hc d hd node hnode _
  refine ⟨h.single c hc d hd, fun hkind hsame => h.single c hc d hd ?_⟩
  rw [h.reroute c hc node hnode hkind, h.reroute d hd node (hsame ▸ hnode) hkind, hsame]

theorem node?_addCollector (title builder : String) (outputs : List (SocketId × String)) (other : NodeId) :
    (g.addCollector id title builder outputs).node? other =
      if other = id then some (collectorNode title builder outputs) else g.node? other := by
  show (g.nodes.insert id _).lookup other = _
  split
  · next h =>
    rw [h]
    exact AList.lookup_insert g.nodes
  · next h => exact AList.lookup_insert_ne h

theorem collectorConnections_target {outputs : List (SocketId × String)} {c : Connection}
    (h : c ∈ collectorConnections id outputs) : c.target.node = id := by
  obtain ⟨output, -, rfl⟩ := List.mem_map.mp h
  rfl

theorem SingleHops.addCollector (h : g.SingleHops) (title builder : String) (outputs : List (SocketId × String)) :
    (g.addCollector id title builder outputs).SingleHops := by
  have hold : ∀ c ∈ (g.addCollector id title builder outputs).connections, c.target.node ≠ id → c ∈ g.connections := by
    intro c hc hne
    rcases List.mem_append.mp hc with hc | hc
    · exact hc
    · exact absurd (collectorConnections_target hc) hne
  intro c hc d hd node hnode hlive
  rw [node?_addCollector] at hnode
  split at hnode
  · cases hnode
    cases hlive
  · next hne =>
    have hc' := hold c hc hne
    refine ⟨fun hsame => ?_, fun hkind hsame => ?_⟩
    · exact (h c hc' d (hold d hd (hsame ▸ hne)) node hnode hlive).1 hsame
    · exact (h c hc' d (hold d hd (hsame ▸ hne)) node hnode hlive).2 hkind hsame

theorem SingleHops.withOutputCollectors (h : g.SingleHops) (registry : GraphRegistry)
    (subscriptions : OutputSubscriptionPlan) : (g.withOutputCollectors registry subscriptions).SingleHops := by
  have hcollected : (g.addOutputCollectors (g.outputsWhere (g.isWatched registry subscriptions))).SingleHops := by
    unfold addOutputCollectors
    refine List.foldlRecOn _ _ h fun g hg retained _ => ?_
    split
    · exact hg
    · exact hg.addCollector _ _ _
  unfold GraphState.withOutputCollectors
  dsimp only
  split
  · exact hcollected
  · exact hcollected.addCollector _ _ _

theorem SingleHops.upstream_iff (h : g.SingleHops) : g.upstream s = some t ↔ g.Hop s t := by
  unfold upstream Hop
  cases hnode : g.node? s.node with
  | none => simp
  | some node =>
    cases hkind : node.kind with
    | reroute =>
      simp only [hkind, if_true, Option.map_eq_some_iff, Option.some.injEq, exists_eq_left', true_or, and_true]
      constructor
      · rintro ⟨c, hc, rfl⟩
        exact ⟨c, List.mem_of_find?_eq_some hc, rfl, by simpa using List.find?_some hc⟩
      · rintro ⟨c, hc, rfl, htarget⟩
        cases hfind : g.intoNode s.node with
        | none => exact absurd htarget (by simpa using List.find?_eq_none.mp hfind c hc)
        | some d =>
          have hd : d.target.node = s.node := by simpa using List.find?_some hfind
          have hlive : isLive node = false := by simp [isLive, hkind]
          have hsame := (h c hc d (List.mem_of_find?_eq_some hfind) node (htarget ▸ hnode) hlive).2 hkind
            (htarget.trans hd.symm)
          exact ⟨d, rfl, by rw [hsame]⟩
    | regular =>
      cases hmuted : node.muted with
      | false => simp [hkind, hmuted]
      | true =>
        have hlive : isLive node = false := by simp [isLive, hmuted]
        simp only [hkind, hmuted, reduceCtorEq, if_false, if_true, Option.bind_eq_some_iff, Option.map_eq_some_iff,
          find_passThrough, Option.some.injEq, exists_eq_left', false_or, true_and]
        constructor
        · rintro ⟨pair, ⟨hpair, hindex⟩, c, hc, rfl⟩
          have htarget : c.target = ⟨s.node, pair.2, .input⟩ := by simpa using List.find?_some hc
          refine ⟨c, List.mem_of_find?_eq_some hc, rfl, ?_, ?_, ?_⟩
          · rw [htarget]
          · rw [htarget]
          · rw [htarget, ← hindex]
            exact hpair
        · rintro ⟨c, hc, rfl, hsame, hdirection, hpair⟩
          have htarget : c.target = ⟨s.node, c.target.index, .input⟩ := by
            rw [← hsame, ← hdirection]
          refine ⟨_, ⟨hpair, rfl⟩, ?_⟩
          dsimp only
          cases hfind : g.intoInput ⟨s.node, c.target.index, .input⟩ with
          | none => exact absurd htarget (by simpa using List.find?_eq_none.mp hfind c hc)
          | some d =>
            have hd : d.target = ⟨s.node, c.target.index, .input⟩ := by simpa using List.find?_some hfind
            have heq := (h c hc d (List.mem_of_find?_eq_some hfind) node (hsame ▸ hnode) hlive).1 (htarget.trans hd.symm)
            exact ⟨d, rfl, by rw [heq]⟩

end GraphState

end LogicConduit.Document
