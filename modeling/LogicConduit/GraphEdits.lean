import LogicConduit.GraphWiring

namespace LogicConduit.Document

namespace GraphState

variable {g g' : GraphState} {id : NodeId} {node node' : Node} {l : List Socket} {i : Nat}
  {socket s : Socket}

def wiring (g : GraphState) : Wiring where
  frame := fun id => (g.node? id).map fun node => (node.kind, node.outputs.length)
  inputs := fun id => (g.node? id).map fun node => node.inputs.map Socket.bare
  connections := g.connections

@[simp] theorem node?_setNode_self : (g.setNode id node).node? id = some node :=
  AList.lookup_insert _

theorem node?_setNode_ne {other : NodeId} (apart : other ≠ id) :
    (g.setNode id node).node? other = g.node? other :=
  AList.lookup_insert_ne apart

@[simp] theorem wiring_setConnections (cs : List Connection) :
    (g.setConnections cs).wiring = g.wiring.connect cs := rfl

@[simp] theorem connections_wiring : g.wiring.connections = g.connections := rfl

theorem wiring_setNode (found : g.node? id = some node) (kind : node'.kind = node.kind)
    (outputs : node'.outputs.length = node.outputs.length) :
    (g.setNode id node').wiring = g.wiring.relabel id (node'.inputs.map Socket.bare) := by
  unfold wiring Wiring.relabel
  congr 1
  · funext n
    by_cases at' : n = id
    · subst at'
      simp [found, kind, outputs]
    · rw [node?_setNode_ne at']
  · funext n
    by_cases at' : n = id
    · subst at'
      simp
    · rw [node?_setNode_ne at', Function.update_of_ne at']

theorem wiring_setInputs (found : g.node? id = some node) (x : List Socket) :
    (g.setNode id { node with inputs := x }).wiring = g.wiring.relabel id (x.map Socket.bare) :=
  wiring_setNode found rfl rfl

theorem relabel_self {w : Wiring} (here : w.inputs id = some l) : w.relabel id l = w := by
  unfold Wiring.relabel
  rw [← here, Function.update_eq_self]

theorem wiring_setOutputs (found : g.node? id = some node) {x : List Socket}
    (length : x.length = node.outputs.length) :
    (g.setNode id { node with outputs := x }).wiring = g.wiring := by
  have here : g.wiring.inputs id = some (node.inputs.map Socket.bare) := by simp [wiring, found]
  refine Eq.trans (wiring_setNode found ?_ ?_) (relabel_self here)
  · rfl
  · exact length

theorem wiring_inputs (here : g.wiring.inputs id = some l) :
    ∃ node, g.node? id = some node ∧ node.inputs.map Socket.bare = l :=
  Option.map_eq_some_iff.mp here

theorem wiring_modifyInputs {f f' : List Socket → List Socket}
    (commutes : ∀ x, (f x).map Socket.bare = f' (x.map Socket.bare))
    (here : g.wiring.inputs id = some l) :
    (g.modifyInputs id f).wiring = g.wiring.relabel id (f' l) := by
  obtain ⟨node, found, rfl⟩ := wiring_inputs here
  unfold modifyInputs
  rw [found, ← commutes]
  exact wiring_setInputs found _

theorem wiring_modifyInputs_bare {f : List Socket → List Socket}
    (same : ∀ x, (f x).map Socket.bare = x.map Socket.bare) :
    (g.modifyInputs id f).wiring = g.wiring := by
  cases found : g.node? id with
  | none =>
    unfold modifyInputs
    rw [found]
  | some node =>
    have here : g.wiring.inputs id = some (node.inputs.map Socket.bare) := by simp [wiring, found]
    rw [@wiring_modifyInputs g id _ f (fun x => x) same here, relabel_self here]

theorem map_bare_modify {f : Socket → Socket} (same : ∀ s, (f s).bare = s.bare) (x : List Socket)
    (i : Nat) : (x.modify i f).map Socket.bare = x.map Socket.bare := by
  refine List.ext_getElem? fun k => ?_
  rw [List.getElem?_map, List.getElem?_modify, List.getElem?_map]
  cases x[k]? with
  | none => rfl
  | some s =>
    by_cases at' : i = k
    · simp [at', same]
    · simp [at']

@[simp] theorem wiring_resolveInput (source target : SocketId) :
    (g.resolveInput source target).wiring = g.wiring := by
  refine wiring_modifyInputs_bare fun x => ?_
  refine map_bare_modify ?_ x target.index
  exact fun _ => rfl

@[simp] theorem wiring_clearInputResolution (target : SocketId) :
    (g.clearInputResolution target).wiring = g.wiring := by
  refine wiring_modifyInputs_bare fun x => ?_
  refine map_bare_modify ?_ x target.index
  exact fun _ => rfl

@[simp] theorem wiring_clearUnconnected : (g.clearUnconnected id).wiring = g.wiring := by
  refine wiring_modifyInputs_bare fun x => List.ext_getElem? fun k => ?_
  simp only [List.getElem?_map, List.getElem?_mapIdx, Option.map_map]
  congr 1
  funext s
  simp only [Function.comp_apply]
  split <;> rfl

theorem input?_wiring (target : SocketId) :
    (g.input? target).map Socket.bare = g.wiring.socket? target.node target.index := by
  unfold input? Wiring.socket? wiring
  dsimp only
  cases g.node? target.node with
  | none => rfl
  | some node => simp

section

variable (here : g.wiring.inputs id = some l)
include here

theorem variadicMembers_eq (d : Nat) : g.variadicMembers id d = l.countP (isMemberOf d) := by
  obtain ⟨node, found, rfl⟩ := wiring_inputs here
  unfold variadicMembers
  rw [found, List.countP_map]
  rfl

theorem wiring_insertInputSocket (bound : i ≤ l.length) :
    (g.insertInputSocket id i socket).wiring = g.wiring.insertAt id l i socket.bare := by
  obtain ⟨node, found, rfl⟩ := wiring_inputs here
  rw [List.length_map] at bound
  unfold insertInputSocket
  rw [found]
  dsimp only
  rw [wiring_setConnections, wiring_setInputs found, Nat.min_eq_left bound, List.map_insertIdx]
  rfl

theorem removeInputSocket_eq (found : l[i]? = some s) :
    ∃ socket g', g.removeInputSocket id i = some (socket, g') ∧ socket.bare = s ∧
      g'.wiring = g.wiring.removeAt id l i := by
  obtain ⟨node, present, rfl⟩ := wiring_inputs here
  rw [List.getElem?_map] at found
  obtain ⟨socket, inside, rfl⟩ := Option.map_eq_some_iff.mp found
  unfold removeInputSocket
  rw [present, Option.bind_some, inside, Option.map_some]
  refine ⟨socket, _, rfl, rfl, ?_⟩
  rw [wiring_setConnections, wiring_setInputs present, ← List.eraseIdx_map]
  rfl

end

end GraphState

namespace Wiring

def RerouteEdge (w : Wiring) (a b : NodeId) : Prop :=
  (∃ n, w.frame a = some (.reroute, n)) ∧
    ∃ c ∈ w.connections, c.source = ⟨a, 0, .output⟩ ∧ c.target.node = b

def NoRerouteCycle (w : Wiring) : Prop := ∀ a, ¬ Relation.TransGen w.RerouteEdge a a

def Reroutes (w : Wiring) : Prop :=
  ∀ id n, w.frame id = some (.reroute, n) → n ≠ 0 ∧ ∃ l, w.inputs id = some l ∧ l ≠ []

end Wiring

namespace GraphState

section Propagation

theorem foldlM_keeps {α β : Type*} {f : α → β → Option α} {P : α → Prop} {l : List β}
    (each : ∀ b ∈ l, ∀ a a', P a → f a b = some a' → P a') {a a' : α} (start : P a)
    (run : l.foldlM f a = some a') : P a' := by
  induction l generalizing a with
  | nil =>
    cases run
    exact start
  | cons b l ih =>
    rw [List.foldlM_cons] at run
    obtain ⟨a₁, step, rest⟩ := Option.bind_eq_some_iff.mp run
    exact ih (fun b' inside => each b' (List.mem_cons_of_mem _ inside))
      (each b List.mem_cons_self a a₁ start step) rest

theorem foldlM_some {α β : Type*} {f : α → β → Option α} {P : α → Prop} {l : List β}
    (each : ∀ b ∈ l, ∀ a, P a → ∃ a', f a b = some a' ∧ P a') {a : α} (start : P a) :
    ∃ a', l.foldlM f a = some a' := by
  induction l generalizing a with
  | nil => exact ⟨a, rfl⟩
  | cons b l ih =>
    obtain ⟨a₁, step, next⟩ := each b List.mem_cons_self a start
    obtain ⟨a', run⟩ := ih (fun b' inside => each b' (List.mem_cons_of_mem _ inside)) next
    exact ⟨a', by rw [List.foldlM_cons, step]; exact run⟩

theorem wiring_propagateRerouteOutput {depth : Nat} {g g' : GraphState} {id : NodeId}
    (run : propagateRerouteOutput depth g id = some g') : g'.wiring = g.wiring := by
  induction depth generalizing g g' id with
  | zero => cases run
  | succ depth ih =>
    unfold propagateRerouteOutput at run
    split at run
    · cases run
      rfl
    next node found =>
      split at run
      · cases run
        rfl
      · split at run
        next input output _ _ =>
          refine foldlM_keeps (P := fun x => x.wiring = g.wiring) ?_
            (wiring_setOutputs found (by simp)) run
          intro target _ x x' same step
          rw [ih step, wiring_resolveInput, same]
        · cases run

theorem wiring_propagate {g g' : GraphState} {id : NodeId} (run : g.propagate id = some g') :
    g'.wiring = g.wiring := wiring_propagateRerouteOutput run

theorem sockets_of_reroutes {g : GraphState} {id : NodeId} {node : Node} (reroutes : g.wiring.Reroutes)
    (found : g.node? id = some node) (kind : node.kind = .reroute) :
    ∃ input output, node.inputs[0]? = some input ∧ node.outputs[0]? = some output := by
  obtain ⟨some', l, inputs, nonempty⟩ := reroutes id node.outputs.length (by simp [wiring, found, kind])
  have here : l = node.inputs.map Socket.bare := by simpa [wiring, found] using inputs.symm
  rw [here] at nonempty
  exact ⟨_, _, List.getElem?_eq_getElem (List.length_pos_iff.mpr fun none => nonempty (by rw [none]; rfl)),
    List.getElem?_eq_getElem (Nat.pos_of_ne_zero some')⟩

/-- Without a cycle of reroutes the nested calls end: the reroutes above the current one are
distinct and each has a connection. -/
theorem propagateRerouteOutput_some {w : Wiring} (acyclic : w.NoRerouteCycle)
    (reroutes : w.Reroutes) {depth : Nat} {g : GraphState} {id : NodeId} {above : List NodeId}
    (same : g.wiring = w) (nodup : above.Nodup)
    (reach : ∀ v ∈ above, Relation.TransGen w.RerouteEdge v id)
    (sources : above ⊆ w.connections.map fun c => c.source.node)
    (deep : w.connections.length < above.length + depth) :
    ∃ g', propagateRerouteOutput depth g id = some g' := by
  induction depth generalizing g id above with
  | zero =>
    have few := (nodup.subperm sources).length_le
    rw [List.length_map] at few
    omega
  | succ depth ih =>
    unfold propagateRerouteOutput
    cases found : g.node? id with
    | none => exact ⟨g, rfl⟩
    | some node =>
      by_cases kind : node.kind = .reroute
      · have frame : w.frame id = some (.reroute, node.outputs.length) := by
          rw [← same]
          simp [wiring, found, kind]
        obtain ⟨input, output, first, out⟩ := sockets_of_reroutes (same ▸ reroutes) found kind
        dsimp only
        rw [if_neg (not_not.mpr kind), first, out]
        refine foldlM_some (P := fun x => x.wiring = w) ?_ ?_
        · intro target inside x held
          obtain ⟨c, member, rfl⟩ := List.mem_map.mp inside
          obtain ⟨member, leaves⟩ := List.mem_filter.mp member
          have leaves : c.source = ⟨id, 0, .output⟩ := of_decide_eq_true leaves
          have wired : c ∈ w.connections := by
            rw [← same]
            exact member
          have edge : w.RerouteEdge id c.target.node := ⟨⟨_, frame⟩, c, wired, leaves, rfl⟩
          have fresh : id ∉ above := fun again => acyclic id (reach id again)
          obtain ⟨x', run⟩ := @ih (x.resolveInput ⟨id, 0, .output⟩ c.target) c.target.node (id :: above)
            (by rw [wiring_resolveInput, held]) (List.nodup_cons.mpr ⟨fresh, nodup⟩)
            (by
              intro v hv
              rcases List.mem_cons.mp hv with rfl | hv
              · exact .single edge
              · exact (reach v hv).tail edge)
            (by
              intro v hv
              rcases List.mem_cons.mp hv with rfl | hv
              · exact List.mem_map.mpr ⟨c, wired, by rw [leaves]⟩
              · exact sources hv)
            (by rw [List.length_cons]; omega)
          exact ⟨x', run, by rw [wiring_propagateRerouteOutput run, wiring_resolveInput, held]⟩
        · rw [wiring_setOutputs found (by simp), same]
      · exact ⟨g, by simp [kind]⟩

theorem propagate_some {g : GraphState} (acyclic : g.wiring.NoRerouteCycle)
    (reroutes : g.wiring.Reroutes) (id : NodeId) :
    ∃ g', g.propagate id = some g' ∧ g'.wiring = g.wiring := by
  obtain ⟨g', run⟩ := @propagateRerouteOutput_some g.wiring acyclic reroutes
    (g.connections.length + 1) g id [] rfl List.nodup_nil (by simp) (by simp) (by simp)
  exact ⟨g', run, wiring_propagate run⟩

end Propagation

end GraphState

end LogicConduit.Document
