import LogicConduit.GraphEdits
import LogicConduit.Walks

namespace LogicConduit.Document

open Walks

variable {w : Wiring}

namespace Wiring

/-- What the nested calls for a node go to: the ends of the wires from the output of a reroute, and nothing for
another node. A reroute without an input or an output has nothing to read. -/
def targets (w : Wiring) (id : NodeId) : Option (List NodeId) :=
  match w.frame id with
  | some (.reroute, outputs) =>
    if (w.inputs id).all List.isEmpty || outputs == 0 then none
    else some ((w.connections.filter fun c => c.source = ⟨id, 0, .output⟩).map fun c => c.target.node)
  | _ => some []

/-- The calls from a node run into no cycle of reroutes. -/
def Unwinds (w : Wiring) (id : NodeId) : Prop :=
  ∀ b, Relation.ReflTransGen (Calls w.targets) id b → ¬Relation.TransGen (Calls w.targets) b b

variable {a b : NodeId}

theorem rerouteEdge_of_edge (h : Edge w.targets a b) : w.RerouteEdge a b := by
  obtain ⟨next, found, mem⟩ := h
  unfold targets at found
  split at found
  next outputs frame =>
    split at found
    · cases found
    · cases found
      obtain ⟨c, inside, rfl⟩ := List.mem_map.mp mem
      obtain ⟨wired, leaves⟩ := List.mem_filter.mp inside
      exact ⟨⟨outputs, frame⟩, c, wired, of_decide_eq_true leaves, rfl⟩
  next =>
    cases found
    cases mem

theorem edge_source (h : Edge w.targets a b) :
    a ∈ {a | a ∈ w.connections.map fun c => c.source.node} := by
  obtain ⟨-, c, wired, leaves, -⟩ := rerouteEdge_of_edge h
  exact List.mem_map.mpr ⟨c, wired, by rw [leaves]⟩

theorem edge_of_rerouteEdge (reroutes : w.Reroutes) (h : w.RerouteEdge a b) : Edge w.targets a b := by
  obtain ⟨⟨outputs, frame⟩, c, wired, leaves, rfl⟩ := h
  obtain ⟨some', l, inputs, nonempty⟩ := reroutes a outputs frame
  refine ⟨(w.connections.filter fun c => c.source = ⟨a, 0, .output⟩).map fun c => c.target.node, ?_, ?_⟩
  · simp [targets, frame, inputs, nonempty, some']
  · exact List.mem_map.mpr ⟨c, List.mem_filter.mpr ⟨wired, decide_eq_true leaves⟩, rfl⟩

theorem unwinds_iff_no_cycle (reroutes : w.Reroutes) (id : NodeId) :
    w.Unwinds id ↔ ∀ b, Relation.ReflTransGen w.RerouteEdge id b → ¬Relation.TransGen w.RerouteEdge b b := by
  have finite : {a | a ∈ w.connections.map fun c => c.source.node}.Finite := List.finite_toSet _
  have readable : ∀ a, w.targets a ≠ none := by
    intro a
    unfold targets
    split
    next outputs frame =>
      obtain ⟨some', l, inputs, nonempty⟩ := reroutes a outputs frame
      simp [inputs, nonempty, some']
    next => exact nofun
  have same : Edge w.targets = w.RerouteEdge := by
    funext a b
    exact propext ⟨rerouteEdge_of_edge, edge_of_rerouteEdge reroutes⟩
  rw [Unwinds, no_call_cycle_iff_clean finite (fun _ _ => edge_source) readable, Clean, same]
  exact ⟨fun h b reach => (h b reach).2, fun h b reach => ⟨readable b, h b reach⟩⟩

end Wiring

namespace GraphState

/-- The nested calls for the inputs that a reroute feeds; they stop where one does not return. -/
def propagateAll (propagate : GraphState → NodeId → Option (Option GraphState)) (output : SocketId) :
    GraphState → List SocketId → Option (Option GraphState)
  | g, [] => some (some g)
  | g, target :: rest =>
    match propagate (g.resolveInput output target) target.node with
    | none => none
    | some none => some none
    | some (some g) => propagateAll propagate output g rest

/-- `propagate_reroute_output` to a depth of nested calls. Without an answer the recursion goes deeper; the answer
is empty where a reroute has no socket to read, which is a panic. -/
def propagateWithin : Nat → GraphState → NodeId → Option (Option GraphState)
  | 0, _, _ => none
  | depth + 1, g, id =>
    match g.node? id with
    | none => some (some g)
    | some node =>
      if node.kind ≠ .reroute then some (some g)
      else
        match node.inputs[0]?, node.outputs[0]? with
        | some input, some output =>
          let inputType := input.effectiveType
          let resolved := if inputType ≠ "Any" then some inputType else none
          let g := g.setNode id
            { node with outputs := node.outputs.set 0 { output with resolvedType := resolved } }
          let outputId : SocketId := ⟨id, 0, .output⟩
          let downstream := (g.connections.filter fun c => c.source = outputId).map Connection.target
          propagateAll (propagateWithin depth) outputId g downstream
        | _, _ => some none

/-- The document behind the first part of `add_connection`, before types are passed on. -/
def connected (g : GraphState) (source target : SocketId) : GraphState :=
  ((g.setConnections ((g.connections.filter fun c => c.target ≠ target) ++ [⟨source, target⟩])).resolveInput source
    target).growVariadicGroup target

/-- The document behind the first part of `on_input_disconnected`, before types are passed on. -/
def disconnected (g : GraphState) (target : SocketId) : GraphState :=
  if (g.input? target).any Socket.isVariadicMember then g.collapseVariadicMember target
  else g.clearInputResolution target

def addConnectionWithin (depth : Nat) (g : GraphState) (source target : SocketId) : Option (Option GraphState) :=
  ((g.connected source target).propagateWithin depth target.node).map fun g => g.map markSemanticChange

def disconnectInputWithin (depth : Nat) (g : GraphState) (target : SocketId) :
    Option (Option (GraphState × Bool)) :=
  let kept := g.connections.filter fun c => c.target ≠ target
  if kept.length ≠ g.connections.length then
    (((g.setConnections kept).disconnected target).propagateWithin depth target.node).map fun g =>
      g.map fun g => (g.markSemanticChange, true)
  else some (some (g.setConnections kept, false))

/-- An index that is no connection's is a panic of `Vec::remove`. -/
def removeConnectionAtWithin (depth : Nat) (g : GraphState) (index : Nat) :
    Option (Option (GraphState × Connection)) :=
  match g.connections[index]? with
  | none => some none
  | some c =>
    (((g.setConnections (g.connections.eraseIdx index)).disconnected c.target).propagateWithin depth
      c.target.node).map fun g => g.map fun g => (g.markSemanticChange, c)

def reroutes (g : GraphState) : List NodeId :=
  (g.nodes.entries.filter fun entry => entry.2.kind = .reroute).map Sigma.fst

/-- `reconcile_reroute_outputs`, with the reroutes in the order that the map of the nodes gives them. -/
def reconcileWithin (depth : Nat) : GraphState → List NodeId → Option (Option GraphState)
  | g, [] => some (some g)
  | g, id :: rest =>
    match g.propagateWithin depth id with
    | none => none
    | some none => some none
    | some (some g) => reconcileWithin depth g rest

end GraphState

/-- A recursion comes to an end, in an answer or in a panic, at some depth of nested calls. -/
def Terminates {α : Type} (run : Nat → Option α) : Prop := ∃ depth outcome, run depth = some outcome

namespace GraphState

section Agreement

variable {propagate : GraphState → NodeId → Option (Option GraphState)}

theorem propagateAll_join {propagate' : GraphState → NodeId → Option GraphState}
    (same : ∀ g id, (propagate g id).join = propagate' g id) (output : SocketId) (g : GraphState)
    (downstream : List SocketId) :
    (propagateAll propagate output g downstream).join =
      downstream.foldlM (fun g target => propagate' (g.resolveInput output target) target.node) g := by
  induction downstream generalizing g with
  | nil => rfl
  | cons target rest ih =>
    rw [List.foldlM_cons, ← same, propagateAll]
    split
    next deeper => rw [deeper]; rfl
    next panics => rw [panics]; rfl
    next next returns =>
      rw [returns]
      exact ih next

theorem propagateWithin_join (depth : Nat) (g : GraphState) (id : NodeId) :
    (g.propagateWithin depth id).join = propagateRerouteOutput depth g id := by
  induction depth generalizing g id with
  | zero => rfl
  | succ depth ih =>
    rw [propagateWithin, propagateRerouteOutput]
    cases g.node? id with
    | none => rfl
    | some node =>
      dsimp only
      by_cases regular : node.kind ≠ .reroute
      · rw [if_pos regular, if_pos regular]
        rfl
      · rw [if_neg regular, if_neg regular]
        cases node.inputs[0]? with
        | none => rfl
        | some input =>
          cases node.outputs[0]? with
          | none => rfl
          | some output => exact propagateAll_join ih _ _ _

theorem wiring_propagateWithin {depth : Nat} {g g' : GraphState} {id : NodeId}
    (run : g.propagateWithin depth id = some (some g')) : g'.wiring = g.wiring := by
  apply @wiring_propagateRerouteOutput depth g g' id
  rw [← propagateWithin_join, run]
  rfl

theorem propagateAll_walk {walk : NodeId → Option Bool}
    (each : ∀ g id, g.wiring = w → (propagate g id).map Option.isSome = walk id)
    (kept : ∀ g g' id, g.wiring = w → propagate g id = some (some g') → g'.wiring = w) (output : SocketId)
    {g : GraphState} (same : g.wiring = w) (downstream : List SocketId) :
    (propagateAll propagate output g downstream).map Option.isSome =
      walkAll walk (downstream.map SocketId.node) := by
  induction downstream generalizing g with
  | nil => rfl
  | cons target rest ih =>
    have resolved : (g.resolveInput output target).wiring = w := by rw [wiring_resolveInput, same]
    have first := each (g.resolveInput output target) target.node resolved
    rw [List.map_cons, walkAll, ← first, propagateAll]
    split
    next deeper => rw [deeper]; rfl
    next panics => rw [panics]; rfl
    next next returns =>
      rw [returns]
      exact ih (kept _ _ _ resolved returns)

theorem targets_wiring (g : GraphState) (id : NodeId) :
    g.wiring.targets id =
      match g.node? id with
      | none => some []
      | some node =>
        if node.kind ≠ .reroute then some []
        else
          match node.inputs[0]?, node.outputs[0]? with
          | some _, some _ =>
            some ((g.connections.filter fun c => c.source = ⟨id, 0, .output⟩).map fun c => c.target.node)
          | _, _ => none := by
  cases found : g.node? id with
  | none => simp [Wiring.targets, wiring, found]
  | some node =>
    cases kind : node.kind with
    | regular => simp [Wiring.targets, wiring, found, kind]
    | reroute =>
      cases inputs : node.inputs with
      | nil => simp [Wiring.targets, wiring, found, kind, inputs]
      | cons input rest =>
        cases outputs : node.outputs with
        | nil => simp [Wiring.targets, wiring, found, kind, inputs, outputs]
        | cons output others => simp [Wiring.targets, wiring, found, kind, inputs, outputs]

theorem propagateWithin_walk (depth : Nat) (g : GraphState) (id : NodeId) :
    (g.propagateWithin depth id).map Option.isSome = walk g.wiring.targets depth id := by
  induction depth generalizing g id with
  | zero => rfl
  | succ depth ih =>
    rw [propagateWithin, walk, targets_wiring]
    cases found : g.node? id with
    | none => rfl
    | some node =>
      dsimp only
      by_cases regular : node.kind ≠ .reroute
      · rw [if_pos regular, if_pos regular]
        rfl
      · rw [if_neg regular, if_neg regular]
        cases node.inputs[0]? with
        | none => rfl
        | some input =>
          cases node.outputs[0]? with
          | none => rfl
          | some output =>
            have kept : ∀ (x x' : GraphState) id', x.wiring = g.wiring → x.propagateWithin depth id' = some (some x') →
                x'.wiring = g.wiring := fun x x' id' same run => (wiring_propagateWithin run).trans same
            have each : ∀ (x : GraphState) id', x.wiring = g.wiring →
                (x.propagateWithin depth id').map Option.isSome = walk g.wiring.targets depth id' :=
              fun x id' same => by rw [ih, same]
            have start : ∀ resolved, (g.setNode id { node with
                outputs := node.outputs.set 0 { output with resolvedType := resolved } }).wiring = g.wiring :=
              fun resolved => wiring_setOutputs found (by simp)
            refine (propagateAll_walk each kept ⟨id, 0, .output⟩ (start _) _).trans ?_
            rw [List.map_map]
            rfl

end Agreement

section Termination

variable {g : GraphState} {id : NodeId}

/-- The propagation from a node ends if and only if its calls run into no cycle of reroutes. -/
theorem propagate_terminates_iff (g : GraphState) (id : NodeId) :
    Terminates (fun depth => g.propagateWithin depth id) ↔ g.wiring.Unwinds id := by
  have finite : {a | a ∈ g.wiring.connections.map fun c => c.source.node}.Finite := List.finite_toSet _
  rw [Wiring.Unwinds, ← walk_ends_iff finite fun _ _ => Wiring.edge_source]
  constructor
  · rintro ⟨depth, outcome, run⟩
    refine ⟨depth, outcome.isSome, ?_⟩
    rw [← propagateWithin_walk, show g.propagateWithin depth id = some outcome from run]
    rfl
  · rintro ⟨depth, through, run⟩
    rw [← propagateWithin_walk, Option.map_eq_some_iff] at run
    obtain ⟨outcome, run, -⟩ := run
    exact ⟨depth, outcome, run⟩

theorem terminates_map {α β : Type} {run : Nat → Option α} (f : α → β) :
    Terminates (fun depth => (run depth).map f) ↔ Terminates run := by
  constructor
  · rintro ⟨depth, outcome, ended⟩
    obtain ⟨before, found, -⟩ := Option.map_eq_some_iff.mp ended
    exact ⟨depth, before, found⟩
  · rintro ⟨depth, outcome, ended⟩
    exact ⟨depth, f outcome, Option.map_eq_some_iff.mpr ⟨outcome, ended, rfl⟩⟩

theorem addConnection_terminates_iff (g : GraphState) (source target : SocketId) :
    Terminates (fun depth => g.addConnectionWithin depth source target) ↔
      (g.connected source target).wiring.Unwinds target.node :=
  (terminates_map _).trans (propagate_terminates_iff _ _)

theorem disconnectInput_terminates_iff (g : GraphState) (target : SocketId) :
    Terminates (fun depth => g.disconnectInputWithin depth target) ↔
      ((∃ c ∈ g.connections, c.target = target) →
        ((g.setConnections (g.connections.filter fun c => c.target ≠ target)).disconnected
          target).wiring.Unwinds target.node) := by
  have removes : (g.connections.filter fun c => c.target ≠ target).length ≠ g.connections.length ↔
      ∃ c ∈ g.connections, c.target = target := by
    rw [Ne, List.length_filter_eq_length_iff]
    simp
  by_cases fed : ∃ c ∈ g.connections, c.target = target
  · have cut := removes.mpr fed
    simp only [disconnectInputWithin, if_pos cut]
    rw [terminates_map, propagate_terminates_iff]
    exact ⟨fun h _ => h, fun h => h fed⟩
  · have kept := fun cut => fed (removes.mp cut)
    simp only [disconnectInputWithin, if_neg kept]
    exact ⟨fun _ h => absurd h fed, fun _ => ⟨0, _, rfl⟩⟩

theorem removeConnectionAt_terminates_iff (g : GraphState) (index : Nat) :
    Terminates (fun depth => g.removeConnectionAtWithin depth index) ↔
      ∀ c, g.connections[index]? = some c →
        ((g.setConnections (g.connections.eraseIdx index)).disconnected c.target).wiring.Unwinds c.target.node := by
  unfold removeConnectionAtWithin
  cases g.connections[index]? with
  | none => exact ⟨nofun, fun _ => ⟨0, _, rfl⟩⟩
  | some c =>
    refine (terminates_map _).trans ((propagate_terminates_iff _ _).trans ?_)
    constructor
    · rintro h _ ⟨⟩
      exact h
    · exact fun h => h c rfl

theorem reconcileWithin_walk (depth : Nat) {g : GraphState} (same : g.wiring = w) (order : List NodeId) :
    (g.reconcileWithin depth order).map Option.isSome = walkAll (walk w.targets depth) order := by
  induction order generalizing g with
  | nil => rfl
  | cons id rest ih =>
    have first := propagateWithin_walk depth g id
    rw [same] at first
    rw [walkAll, ← first, reconcileWithin]
    split
    next deeper => rw [deeper]; rfl
    next panics => rw [panics]; rfl
    next next returns =>
      rw [returns]
      exact ih ((wiring_propagateWithin returns).trans same)

/-- The reroutes are reconciled in whatever order the map gives them, so that each may come first. -/
theorem reconcile_terminates_iff (g : GraphState) :
    (∀ order, order.Perm g.reroutes → Terminates (fun depth => g.reconcileWithin depth order)) ↔
      ∀ id ∈ g.reroutes, g.wiring.Unwinds id := by
  constructor
  · intro h id mem
    obtain ⟨depth, outcome, ended⟩ := h (id :: g.reroutes.erase id) (List.perm_cons_erase mem).symm
    rw [← propagate_terminates_iff]
    have ended : g.reconcileWithin depth (id :: g.reroutes.erase id) = some outcome := ended
    rw [reconcileWithin] at ended
    split at ended
    next => cases ended
    next panics => exact ⟨depth, none, panics⟩
    next next returns => exact ⟨depth, some next, returns⟩
  · intro h order perm
    have each : ∀ id ∈ order, ∃ depth through, walk g.wiring.targets depth id = some through := by
      intro id mem
      obtain ⟨depth, outcome, run⟩ := (propagate_terminates_iff g id).mpr (h id (perm.subset mem))
      refine ⟨depth, outcome.isSome, ?_⟩
      rw [← propagateWithin_walk, show g.propagateWithin depth id = some outcome from run]
      rfl
    obtain ⟨depth, through, ended⟩ := @walkAll_ends NodeId g.wiring.targets order fun before id rest split _ =>
      each id (by rw [split]; exact List.mem_append_right _ List.mem_cons_self)
    rw [← reconcileWithin_walk depth rfl, Option.map_eq_some_iff] at ended
    obtain ⟨outcome, ended, -⟩ := ended
    exact ⟨depth, outcome, ended⟩

end Termination

/-- Every operation that passes types on ends if and only if the connections it leaves, from the node it edits, run
into no cycle of reroutes. -/
theorem reroute_propagation_terminates_iff (g : GraphState) :
    (∀ source target, Terminates (fun depth => g.addConnectionWithin depth source target) ↔
      (g.connected source target).wiring.Unwinds target.node) ∧
    (∀ target, Terminates (fun depth => g.disconnectInputWithin depth target) ↔
      ((∃ c ∈ g.connections, c.target = target) →
        ((g.setConnections (g.connections.filter fun c => c.target ≠ target)).disconnected
          target).wiring.Unwinds target.node)) ∧
    (∀ index, Terminates (fun depth => g.removeConnectionAtWithin depth index) ↔
      ∀ c, g.connections[index]? = some c →
        ((g.setConnections (g.connections.eraseIdx index)).disconnected c.target).wiring.Unwinds c.target.node) ∧
    ((∀ order, order.Perm g.reroutes → Terminates (fun depth => g.reconcileWithin depth order)) ↔
      ∀ id ∈ g.reroutes, g.wiring.Unwinds id) :=
  ⟨g.addConnection_terminates_iff, g.disconnectInput_terminates_iff, g.removeConnectionAt_terminates_iff,
    g.reconcile_terminates_iff⟩

/-- A document with one reroute, and nothing or the reroute itself in front of it. -/
def loneReroute (connections : List Connection) : GraphState where
  nodes := (∅ : AList fun _ : NodeId => Node).insert 0
    ⟨.reroute, "", "", [⟨"", "", "Any", [], none, 0, none, true⟩], [⟨"", "", "Any", [], none, 0, none, true⟩], false, .null⟩
  connections := connections
  semanticRevision := 0

/-- A reroute that feeds itself is passed on to for ever, when it is loaded and when it is made. -/
theorem self_fed_reroute_does_not_terminate :
    (loneReroute [⟨⟨0, 0, .output⟩, ⟨0, 0, .input⟩⟩]).reroutes = [0] ∧
      ¬Terminates (fun depth => (loneReroute [⟨⟨0, 0, .output⟩, ⟨0, 0, .input⟩⟩]).reconcileWithin depth [0]) ∧
      ¬Terminates (fun depth => (loneReroute []).addConnectionWithin depth ⟨0, 0, .output⟩ ⟨0, 0, .input⟩) := by
  have runs : ∀ g : GraphState, g.wiring.targets 0 = some [0] → ¬g.wiring.Unwinds 0 := by
    intro g found unwinds
    refine unwinds 0 .refl (.single ⟨[], [], found, nofun⟩)
  refine ⟨rfl, fun ends => ?_, fun ends => ?_⟩
  · have all := (reconcile_terminates_iff (loneReroute [⟨⟨0, 0, .output⟩, ⟨0, 0, .input⟩⟩])).mp
    refine runs _ rfl (all (fun order perm => ?_) 0 (by decide))
    rw [List.perm_singleton.mp perm]
    exact ends
  · exact runs _ rfl ((addConnection_terminates_iff _ _ _).mp ends)

end GraphState

end LogicConduit.Document
