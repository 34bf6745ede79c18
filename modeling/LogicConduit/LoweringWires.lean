import LogicConduit.Chains
import LogicConduit.GraphLowering

namespace LogicConduit.Document.GraphState

variable {g : GraphState} {s t : SocketId} {c : Connection} {wire : Wire} {hops : Nat}

/-- Where a chain goes on: what feeds a reroute, or the input that a muted node passes through to the output. -/
def upstream (g : GraphState) (s : SocketId) : Option SocketId :=
  match g.node? s.node with
  | none => none
  | some node =>
    if node.kind = .reroute then (g.intoNode s.node).map Connection.source
    else if node.muted then
      (node.mutePassThroughPairs.find? fun pair => pair.1 = s.index).bind fun pair =>
        (g.intoInput ⟨s.node, pair.2, .input⟩).map Connection.source
    else none

def LiveOutput (g : GraphState) (s : SocketId) : Prop := ∃ node, g.node? s.node = some node ∧ isLive node = true

/-- A finite chain of reroutes and muted pass-through pairs leads back to a live output. -/
def Resolves (g : GraphState) (s t : SocketId) : Prop :=
  Relation.ReflTransGen (fun a b => g.upstream a = some b) s t ∧ g.LiveOutput t

theorem LiveOutput.upstream_eq (h : g.LiveOutput t) : g.upstream t = none := by
  obtain ⟨node, hnode, hlive⟩ := h
  simp only [isLive, Bool.and_eq_true, decide_eq_true_eq, Bool.not_eq_true'] at hlive
  obtain ⟨hkind, hmuted⟩ := hlive
  simp [upstream, hnode, hkind, hmuted]

theorem resolves_iff : g.Resolves s t ↔ Chains.EndsIn g.upstream s t ∧ g.LiveOutput t :=
  ⟨fun h => ⟨⟨h.1, h.2.upstream_eq⟩, h.2⟩, fun h => ⟨h.1.1, h.2⟩⟩

/-- What the end of a chain is taken for. -/
def sourceAt (g : GraphState) (s : SocketId) : WireSource :=
  match g.node? s.node with
  | none => .dangling
  | some node => if node.kind = .reroute then .dangling else if node.muted then .mutedBlocked s else .found s

theorem sourceAt_found : g.sourceAt s = .found t ↔ t = s ∧ g.LiveOutput s := by
  unfold sourceAt LiveOutput
  cases hnode : g.node? s.node with
  | none => simp
  | some node =>
    cases hkind : node.kind with
    | reroute => simp [isLive, hkind]
    | regular =>
      cases hmuted : node.muted with
      | true => simp [isLive, hkind, hmuted]
      | false =>
        simp only [isLive, hkind, hmuted, Bool.not_false, decide_true, Bool.and_true, Option.some.injEq, exists_eq_left',
          and_true, reduceCtorEq, Bool.false_eq_true, if_false, WireSource.found.injEq]
        exact eq_comm

theorem resolveWireSource_eq (hops : Nat) (s : SocketId) : g.resolveWireSource hops s =
    match Chains.follow g.upstream hops s with
    | none => .dangling
    | some t => g.sourceAt t := by
  induction hops generalizing s with
  | zero => rfl
  | succ hops ih =>
    rw [resolveWireSource, Chains.follow]
    cases hnode : g.node? s.node with
    | none => simp [upstream, sourceAt, hnode]
    | some node =>
      cases hkind : node.kind with
      | reroute =>
        cases hinto : g.intoNode s.node with
        | none => simp [upstream, sourceAt, hnode, hkind, hinto]
        | some c => simp [upstream, hnode, hkind, hinto, ih]
      | regular =>
        cases hmuted : node.muted with
        | false => simp [upstream, sourceAt, hnode, hkind, hmuted]
        | true =>
          cases hpair : node.mutePassThroughPairs.find? fun pair => pair.1 = s.index with
          | none => simp [upstream, sourceAt, hnode, hkind, hmuted, hpair]
          | some pair =>
            cases hinto : g.intoInput ⟨s.node, pair.2, .input⟩ with
            | none => simp [upstream, sourceAt, hnode, hkind, hmuted, hpair, hinto]
            | some c => simp [upstream, hnode, hkind, hmuted, hpair, hinto, ih]

theorem upstream_mem (h : g.upstream s = some t) : t ∈ g.connections.map Connection.source := by
  unfold upstream at h
  split at h
  · cases h
  · split at h
    · obtain ⟨c, hc, rfl⟩ := Option.map_eq_some_iff.mp h
      exact List.mem_map_of_mem (List.mem_of_find?_eq_some hc)
    · split at h
      · obtain ⟨pair, -, h⟩ := Option.bind_eq_some_iff.mp h
        obtain ⟨c, hc, rfl⟩ := Option.map_eq_some_iff.mp h
        exact List.mem_map_of_mem (List.mem_of_find?_eq_some hc)
      · cases h

/-- The guard cuts no chain off: a wire is found exactly if a finite chain leads to a live output. -/
theorem resolveWireSource_found_iff (enough : g.hopLimit ≤ hops) :
    g.resolveWireSource hops s = .found t ↔ g.Resolves s t := by
  have hshort : (g.connections.map Connection.source).length < hops := by
    rw [List.length_map]
    unfold hopLimit at enough
    omega
  have hfollow : ∀ u, Chains.follow g.upstream hops s = some u ↔ Chains.EndsIn g.upstream s u :=
    fun u => Chains.follow_eq_some_iff (fun _ _ => upstream_mem) hshort
  rw [resolveWireSource_eq, resolves_iff]
  cases hend : Chains.follow g.upstream hops s with
  | none =>
    constructor
    · intro h
      cases h
    · rintro ⟨hchain, -⟩
      rw [← hfollow, hend] at hchain
      cases hchain
  | some u =>
    dsimp only
    rw [sourceAt_found]
    constructor
    · rintro ⟨rfl, hlive⟩
      exact ⟨(hfollow t).mp hend, hlive⟩
    · rintro ⟨hchain, hlive⟩
      obtain rfl := hchain.unique ((hfollow u).mp hend)
      exact ⟨rfl, hlive⟩

def wireOf (g : GraphState) (c : Connection) : Option Wire :=
  match g.node? c.target.node with
  | none => none
  | some node =>
    if isLive node then
      match g.resolveWireSource g.hopLimit c.source with
      | .found source => some ⟨source, c.target⟩
      | _ => none
    else none

theorem resolveConnections_wires (blocked : List SocketId) (connections : List Connection) :
    (g.resolveConnections blocked connections).1 = connections.filterMap g.wireOf := by
  induction connections generalizing blocked with
  | nil => rfl
  | cons c connections ih =>
    rw [resolveConnections, List.filterMap_cons, wireOf]
    cases g.node? c.target.node with
    | none => exact ih blocked
    | some node =>
      dsimp only
      by_cases hlive : isLive node = true
      · rw [if_pos hlive, if_pos hlive]
        cases g.resolveWireSource g.hopLimit c.source with
        | found source => exact congrArg (Wire.mk source c.target :: ·) (ih blocked)
        | dangling => exact ih blocked
        | mutedBlocked output =>
          dsimp only
          split
          · exact ih blocked
          · exact ih (output :: blocked)
      · rw [if_neg hlive, if_neg hlive]
        exact ih blocked

theorem resolveRerouteEdges_wires : g.resolveRerouteEdges.1 = g.connections.filterMap g.wireOf :=
  resolveConnections_wires [] g.connections

theorem wireOf_eq_some : g.wireOf c = some wire ↔
    (∃ node, g.node? c.target.node = some node ∧ isLive node = true) ∧ g.Resolves c.source wire.source ∧
      wire.target = c.target := by
  rw [wireOf, ← resolveWireSource_found_iff (Nat.le_refl _)]
  cases g.node? c.target.node with
  | none => simp
  | some node =>
    cases hlive : isLive node with
    | false => simp [hlive]
    | true =>
      cases g.resolveWireSource g.hopLimit c.source with
      | found source =>
        obtain ⟨resolved, target⟩ := wire
        simp only [hlive, if_true, Option.some.injEq, Wire.mk.injEq, exists_eq_left', WireSource.found.injEq, true_and]
        exact and_congr Iff.rfl eq_comm
      | dangling => simp
      | mutedBlocked output => simp

end LogicConduit.Document.GraphState
