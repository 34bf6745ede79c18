import LogicConduit.GraphEditResults
import LogicConduit.RerouteCache
import LogicConduit.RerouteTermination

namespace LogicConduit.Document

open Wiring

namespace GraphState

variable {g g' : GraphState} {id : NodeId} {node : Node} {stale : Connection → Prop} {unset : NodeId → Prop}
  {stays : SocketId → Prop} {target : SocketId}

theorem typing_setOutputs (found : g.node? id = some node) {x : List Socket}
    (length : x.length = node.outputs.length) :
    (g.setNode id { node with outputs := x }).typing = g.typing := by
  unfold typing
  congr 1
  · rw [wiring_setOutputs found length]
  · funext n
    by_cases at' : n = id
    · subst at'
      simp [found]
    · rw [node?_setNode_ne at']

/-- A reroute that shows its input leaves the links from its output to be read again. -/
theorem Cached.show_input {input output : Socket} (cached : g.Cached stale unset nowhere)
    (found : g.node? id = some node) (first : node.inputs[0]? = some input)
    (directed : ∀ c ∈ g.connections, c.source.direction = .output) :
    (g.setNode id { node with outputs := node.outputs.set 0 { output with
      resolvedType := mirror input } }).Cached (fun c => stale c ∨ c.source = ⟨id, 0, .output⟩)
        (fun n => unset n ∧ n ≠ id) nowhere := by
  refine ⟨?_, fun n other here kind set => ?_⟩
  · rw [typing_setOutputs found (by simp)]
    refine cached.typed.retype fun c inside current => ?_
    obtain ⟨before, apart⟩ := not_or.mp current
    refine ⟨before, ?_⟩
    unfold outType
    by_cases at' : c.source.node = id
    · have later : 0 ≠ c.source.index := by
        intro zero
        apply apart
        rw [← at', zero, ← directed c inside]
      rw [at', node?_setNode_self, found, Option.bind_some, Option.bind_some, List.getElem?_set_ne later]
    · rw [node?_setNode_ne at']
  · intro i o atInput atOutput
    by_cases at' : n = id
    · subst at'
      rw [node?_setNode_self] at here
      cases here
      rw [first] at atInput
      cases atInput
      obtain ⟨bound, rfl⟩ := List.getElem?_eq_some_iff.mp atOutput
      rw [List.getElem_set_self]
    · rw [node?_setNode_ne at'] at here
      exact cached.mirrored n other here kind (fun old => set ⟨old, at'⟩) i o atInput atOutput

theorem Cached.downstream {propagate : GraphState → NodeId → Option GraphState} {w : Wiring} (linked : Linked w)
    (each : ∀ x x' n stale unset, x.wiring = w → x.Cached stale unset nowhere → propagate x n = some x' →
      x'.wiring = w ∧ x'.Cached stale (fun m => unset m ∧ m ≠ n) nowhere) (output : SocketId)
    (cs : List Connection) (wired : cs ⊆ w.connections) (leave : ∀ c ∈ cs, c.source = output)
    (same : g.wiring = w) (cached : g.Cached (fun c => stale c ∨ c ∈ cs) unset nowhere)
    (run : (cs.map Connection.target).foldlM
      (fun g target => propagate (g.resolveInput output target) target.node) g = some g') :
    g'.Cached stale unset nowhere := by
  induction cs generalizing g with
  | nil =>
    cases run
    exact cached.mono (fun _ _ old => old.resolve_right List.not_mem_nil) fun _ settled => settled
  | cons c cs ih =>
    obtain ⟨inside, wired⟩ := List.cons_subset.mp wired
    obtain ⟨leaves, leave⟩ := List.forall_mem_cons.mp leave
    rw [List.map_cons, List.foldlM_cons, ← leaves] at run
    obtain ⟨x, step, rest⟩ := Option.bind_eq_some_iff.mp run
    have here : c ∈ g.connections := by
      rw [← connections_wiring, same]
      exact inside
    have settled := cached.resolveInput (by rw [same]; exact linked) here
    obtain ⟨still, done⟩ := each _ x c.target.node _ _ (by rw [wiring_resolveInput, same]) settled step
    refine ih wired leave still (done.mono ?_ ?_) (by rw [leaves] at rest; exact rest)
    · rintro d - ⟨old | again, apart⟩
      · exact .inl old
      · rcases List.mem_cons.mp again with rfl | again
        · exact absurd rfl apart
        · exact .inr again
    · rintro n ⟨old | at', apart⟩
      · exact old
      · exact absurd at' apart

theorem Cached.propagate {w : Wiring} (linked : Linked w)
    (directed : ∀ c ∈ w.connections, c.source.direction = .output) {depth : Nat} (same : g.wiring = w)
    (cached : g.Cached stale unset nowhere) (run : propagateRerouteOutput depth g id = some g') :
    g'.Cached stale (fun n => unset n ∧ n ≠ id) nowhere := by
  induction depth generalizing g g' id stale unset with
  | zero => cases run
  | succ depth ih =>
    have idle : (∀ node, g.node? id = some node → node.kind ≠ .reroute) →
        g.Cached stale (fun n => unset n ∧ n ≠ id) nowhere := by
      refine fun other => ⟨cached.typed, fun n node found kind set => ?_⟩
      refine cached.mirrored n node found kind fun old => set ⟨old, ?_⟩
      rintro rfl
      exact other node found kind
    unfold propagateRerouteOutput at run
    split at run
    next missing =>
      cases run
      exact idle fun node found => by
        rw [missing] at found
        cases found
    next node found =>
      split at run
      next regular =>
        cases run
        refine idle fun node' found' => ?_
        cases found.symm.trans found'
        exact regular
      next reroute =>
        split at run
        next input output first out =>
          have wires : ∀ c ∈ g.connections, c.source.direction = .output := by
            intro c inside
            rw [← connections_wiring, same] at inside
            exact directed c inside
          have shown := @Cached.show_input g id node stale unset input output cached found first wires
          refine Cached.downstream linked ?_ ⟨id, 0, .output⟩
            (g.connections.filter fun c => c.source = ⟨id, 0, .output⟩) ?_ ?_ ?_ ?_ run
          · intro x x' n stale unset same cached run
            exact ⟨(wiring_propagateRerouteOutput run).trans same, ih same cached run⟩
          · intro c inside
            rw [← same]
            exact List.mem_of_mem_filter inside
          · exact fun c inside => of_decide_eq_true (List.mem_filter.mp inside).2
          · rw [wiring_setOutputs found (by simp), same]
          · refine shown.mono (fun c inside old => ?_) fun _ settled => settled
            exact old.imp_right fun leaves => List.mem_filter.mpr ⟨inside, decide_eq_true leaves⟩
        · cases run

/-- Nothing is stale, unset or loose. -/
abbrev Settled (g : GraphState) : Prop := g.Cached (fun _ => False) (fun _ => False) nowhere

theorem Cached.congr {loose : NodeId → Nat → Prop} (cached : g.Cached stale unset loose)
    (nodes : g'.node? = g.node?) (wires : g'.connections = g.connections) : g'.Cached stale unset loose := by
  have types : g'.outType = g.outType := by
    unfold outType
    rw [nodes]
  have same : g'.typing = g.typing := by
    unfold typing wiring
    rw [nodes, wires]
  refine ⟨?_, ?_⟩
  · rw [types, same]
    exact cached.typed
  · rw [nodes]
    exact cached.mirrored

section Links

variable {kept added cs : List Connection} {shift : NodeId → Nat → Nat} {w : Wiring} {i : Nat}

/-- Links start at outputs. -/
def Directed (w : Wiring) : Prop := ∀ c ∈ w.connections, c.source.direction = .output

/-- The outputs that links start at exist. -/
def Sourced (w : Wiring) : Prop :=
  ∀ c ∈ w.connections, ∃ kind outputs, w.frame c.source.node = some (kind, outputs) ∧ c.source.index < outputs

theorem source_of_edited {P : SocketId → Prop} {w' : Wiring} (edited : Wiring.Edited w w' kept added shift)
    (each : ∀ c ∈ kept ++ added, P c.source) : ∀ c ∈ w'.connections, P c.source := by
  intro c inside
  rw [edited.connections] at inside
  rcases List.mem_append.mp inside with inside | inside
  · obtain ⟨d, member, rfl⟩ := List.mem_map.mp inside
    exact each d (List.mem_append_left _ member)
  · exact each c (List.mem_append_right _ inside)

/-- Without the connections to an input its type may be left over. -/
theorem Cached.without (cached : g.Cached stale unset nowhere) (without : Without g.wiring id i cs) :
    (g.setConnections cs).Cached stale unset (spot id i) := by
  refine ⟨cached.typed.connect (fun c inside current => ⟨without.sublist.subset inside, current⟩) ?_,
    cached.mirrored⟩
  refine fun n k off => ⟨not_false, ?_⟩
  rintro ⟨c, inside, leads⟩
  refine ⟨c, without.others c inside ?_, leads⟩
  rw [leads]
  rintro ⟨⟩
  exact off ⟨rfl, rfl⟩

theorem Cached.settle (cached : g.Cached stale (fun n => n = id) nowhere) (linked : Linked g'.wiring)
    (directed : Directed g'.wiring) (run : g.propagate id = some g') :
    g'.Cached stale (fun _ => False) nowhere :=
  (cached.propagate linked directed (wiring_propagate run).symm run).mono (fun _ _ old => old)
    fun _ settled => settled.2 settled.1

theorem Cached.disconnect (core : g.wiring.Core) (acyclic : g.wiring.NoRerouteCycle)
    (directed : Directed g.wiring) (present : g.wiring.Present id i) (without : Without g.wiring id i cs)
    (cached : g.Cached (fun c => stays c.source) (fun _ => False) nowhere)
    (run : (g.setConnections cs).onInputDisconnected ⟨id, i, .input⟩ = some g') :
    g'.Cached (fun c => stays c.source) (fun _ => False) nowhere := by
  obtain ⟨g'', shift, run', edited⟩ := onInputDisconnected_edited core present without acyclic
  cases run.symm.trans run'
  have loosened : (g.setConnections cs).Cached (fun c => stays c.source) (fun n => n = id) (spot id i) :=
    (cached.without without).mono (fun _ _ old => old) fun _ old => old.elim
  have sources : Directed g'.wiring := by
    refine @source_of_edited _ _ _ _ (fun s => s.direction = .output) _ edited fun c inside => ?_
    rw [List.append_nil] at inside
    exact directed c (without.sublist.subset inside)
  refine Cached.settle ?_ edited.core.linked sources run
  split
  next member =>
    obtain ⟨socket, input, member⟩ := Option.any_eq_true .. |>.mp member
    exact loosened.collapseVariadicMember rfl input member
  next =>
    refine loosened.clearInputResolution rfl ?_
    rintro c inside ⟨sameNode, sameIndex⟩
    apply without.gone c inside
    have sameNode : c.target.node = id := sameNode
    have sameIndex : c.target.index = i := sameIndex
    rw [← sameNode, ← sameIndex, ← (core.linked.target c (without.sublist.subset inside)).1]

end Links

end GraphState

end LogicConduit.Document
