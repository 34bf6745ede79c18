import LogicConduit.GraphEditRuns

namespace LogicConduit.Document

def Socket.typed (socket : Socket) : String × Option String := (socket.typeName, socket.resolvedType)

def mirror (input : Socket) : Option String :=
  if input.effectiveType ≠ "Any" then some input.effectiveType else none

theorem typed_eq {a b : Socket} (same : a.typed = b.typed) :
    a.typeName = b.typeName ∧ a.resolvedType = b.resolvedType := Prod.mk.inj same

theorem resolution_typed {a b : Socket} (same : a.typed = b.typed) (outType : Option String) :
    resolution outType a = resolution outType b := by
  unfold resolution
  rw [(typed_eq same).1]

namespace Wiring

/-- Each connected input holds the type of the output that feeds it, apart from the `stale` connections, and
no other input holds one, apart from those at `loose` places. -/
structure Typed (w : Wiring) (out : SocketId → Option String) (stale : Connection → Prop)
    (loose : NodeId → Nat → Prop) : Prop where
  fed : ∀ c ∈ w.connections, ¬ stale c → ∀ s, w.socket? c.target.node c.target.index = some s →
    s.resolvedType = resolution (out c.source) s
  unfed : ∀ n k s, w.socket? n k = some s → ¬ loose n k → s.resolvedType ≠ none → w.Connected n k

section Typed

variable {w : Wiring} {out out' : SocketId → Option String} {stale stale' : Connection → Prop}
  {loose loose' : NodeId → Nat → Prop} {stays : SocketId → Prop} {id : NodeId} {l l' : List Socket} {i : Nat}
  {s : Socket}

section

variable (typed : w.Typed out stale loose)
include typed

theorem Typed.mono (wider : ∀ c ∈ w.connections, stale c → stale' c) : w.Typed out stale' loose :=
  ⟨fun c inside current => typed.fed c inside fun old => current (wider c inside old), typed.unfed⟩

theorem Typed.retype
    (same : ∀ c ∈ w.connections, ¬ stale' c → ¬ stale c ∧ out' c.source = out c.source) :
    w.Typed out' stale' loose := by
  refine ⟨fun c inside current t found => ?_, typed.unfed⟩
  obtain ⟨before, same⟩ := same c inside current
  rw [same]
  exact typed.fed c inside before t found

theorem Typed.connect {cs : List Connection}
    (old : ∀ c ∈ cs, ¬ stale' c → c ∈ w.connections ∧ ¬ stale c)
    (kept : ∀ n k, ¬ loose' n k → ¬ loose n k ∧ (w.Connected n k → (w.connect cs).Connected n k)) :
    (w.connect cs).Typed out stale' loose' := by
  refine ⟨fun c inside current t found => ?_, fun n k t found off resolved => ?_⟩
  · obtain ⟨before, fresh⟩ := old c inside current
    exact typed.fed c before fresh t found
  · obtain ⟨off, still⟩ := kept n k off
    exact still (typed.unfed n k t found off resolved)

end

theorem Typed.insertAt (typed : w.Typed out (fun c => stays c.source) nowhere) (here : w.inputs id = some l)
    (bound : i ≤ l.length) (fresh : s.resolvedType = none) :
    (w.insertAt id l i s).Typed out (fun c => stays c.source) nowhere := by
  refine ⟨fun c inside current t found => ?_, fun n k t found _ resolved => ?_⟩
  · obtain ⟨d, member, rfl⟩ := List.mem_map.mp inside
    rw [shiftUp_eq] at current found ⊢
    have found : (w.insertAt id l i s).socket? d.target.node (up id i d.target.node d.target.index) =
        some t := found
    rw [socket?_insertAt here] at found
    exact typed.fed d member current t found
  · by_cases at' : spot id i n k
    · obtain ⟨rfl, rfl⟩ := at'
      rw [socket?_inserted bound] at found
      cases found
      exact absurd fresh resolved
    · obtain ⟨j, rfl⟩ := exists_up_off at'
      rw [socket?_insertAt here] at found
      exact connected_insertAt.mpr ⟨j, typed.unfed n j t found not_false resolved, rfl⟩

theorem Typed.removeAt (typed : w.Typed out (fun c => stays c.source) (spot id i))
    (here : w.inputs id = some l) : (w.removeAt id l i).Typed out (fun c => stays c.source) nowhere := by
  refine ⟨fun c inside current t found => ?_, fun n k t found _ resolved => ?_⟩
  · obtain ⟨d, member, rfl⟩ := List.mem_map.mp inside
    obtain ⟨member, off⟩ := List.mem_filter.mp member
    have off : ¬(d.target.node = id ∧ d.target.index = i) := of_decide_eq_true off
    rw [shiftDown_eq] at current found ⊢
    have found : (w.removeAt id l i).socket? d.target.node (down id i d.target.node d.target.index) =
        some t := found
    rw [socket?_removeAt here off] at found
    exact typed.fed d member current t found
  · obtain ⟨j, off, rfl⟩ := exists_down_off id n i k
    rw [socket?_removeAt here off] at found
    exact connected_removeAt.mpr ⟨j, typed.unfed n j t found off resolved, off, rfl⟩

theorem Typed.relabel (typed : w.Typed out stale loose) (here : w.inputs id = some l)
    (same : l'.map Socket.typed = l.map Socket.typed) : (w.relabel id l').Typed out stale loose := by
  have before : ∀ {n k t}, (w.relabel id l').socket? n k = some t →
      ∃ u, w.socket? n k = some u ∧ u.typed = t.typed := by
    intro n k t found
    by_cases at' : n = id
    · subst at'
      rw [socket?_relabel] at found
      have image : (l.map Socket.typed)[k]? = some t.typed := by
        rw [← same, List.getElem?_map, found]
        rfl
      rw [List.getElem?_map] at image
      obtain ⟨u, there, typed⟩ := Option.map_eq_some_iff.mp image
      exact ⟨u, (socket?_self here).trans there, typed⟩
    · rw [socket?_relabel_ne at'] at found
      exact ⟨t, found, rfl⟩
  refine ⟨fun c inside current t found => ?_, fun n k t found off resolved => ?_⟩
  · obtain ⟨u, there, equal⟩ := before found
    rw [← (typed_eq equal).2, ← resolution_typed equal]
    exact typed.fed c inside current u there
  · obtain ⟨u, there, equal⟩ := before found
    rw [← (typed_eq equal).2] at resolved
    exact typed.unfed n k u there off resolved

theorem Typed.modify {f : Socket → Socket} (typed : w.Typed out stale loose) (here : w.inputs id = some l)
    (others : ∀ c ∈ w.connections, ¬ stale' c → ¬ spot id i c.target.node c.target.index → ¬ stale c)
    (own : ∀ c ∈ w.connections, ¬ stale' c → spot id i c.target.node c.target.index →
      ∀ s, (f s).resolvedType = resolution (out c.source) (f s))
    (held : ∀ s, (f s).resolvedType ≠ none → w.Connected id i)
    (only : ∀ n k, loose n k → spot id i n k) : (w.relabel id (l.modify i f)).Typed out stale' nowhere := by
  have off : ∀ {n k}, ¬ spot id i n k → (w.relabel id (l.modify i f)).socket? n k = w.socket? n k := by
    intro n k off
    by_cases at' : n = id
    · subst at'
      have apart : i ≠ k := fun same => off ⟨rfl, same.symm⟩
      rw [socket?_relabel, socket?_self here, List.getElem?_modify]
      simp [apart]
    · exact socket?_relabel_ne at'
  have at_ : ∀ {t}, (w.relabel id (l.modify i f)).socket? id i = some t → ∃ s, f s = t := by
    intro t found
    rw [socket?_relabel, List.getElem?_modify_eq] at found
    obtain ⟨s, -, same⟩ := Option.map_eq_some_iff.mp found
    exact ⟨s, same⟩
  refine ⟨fun c inside current t found => ?_, fun n k t found _ resolved => ?_⟩
  · by_cases place : spot id i c.target.node c.target.index
    · rw [place.1, place.2] at found
      obtain ⟨s, rfl⟩ := at_ found
      exact own c inside current place s
    · rw [off place] at found
      exact typed.fed c inside (others c inside current place) t found
  · by_cases place : spot id i n k
    · obtain ⟨rfl, rfl⟩ := place
      obtain ⟨s, rfl⟩ := at_ found
      exact held s resolved
    · rw [off place] at found
      exact typed.unfed n k t found (fun free => place (only n k free)) resolved

end Typed

theorem Linked.eq_of_target {w : Wiring} (linked : Linked w) {c d : Connection} (hc : c ∈ w.connections)
    (hd : d ∈ w.connections) (same : c.target = d.target) : c = d :=
  List.inj_on_of_nodup_map linked.once hc hd same

end Wiring

open Wiring

namespace GraphState

variable {g g' : GraphState} {id : NodeId} {node : Node} {stale stale' : Connection → Prop}
  {unset unset' : NodeId → Prop} {loose loose' : NodeId → Nat → Prop} {stays : SocketId → Prop}
  {target : SocketId}

def typing (g : GraphState) : Wiring where
  frame := g.wiring.frame
  inputs := fun id => (g.node? id).map Node.inputs
  connections := g.connections

def outType (g : GraphState) (source : SocketId) : Option String :=
  ((g.node? source.node).bind fun node => node.outputs[source.index]?).map Socket.effectiveType

/-- The types that inputs and reroutes hold are those of what feeds them, apart from `stale` connections,
`unset` reroutes and inputs at `loose` places. -/
structure Cached (g : GraphState) (stale : Connection → Prop) (unset : NodeId → Prop)
    (loose : NodeId → Nat → Prop) : Prop where
  typed : g.typing.Typed g.outType stale loose
  mirrored : ∀ id node, g.node? id = some node → node.kind = .reroute → ¬ unset id →
    ∀ input output, node.inputs[0]? = some input → node.outputs[0]? = some output →
      output.resolvedType = mirror input

section

variable (found : g.node? id = some node)
include found

theorem typing_inputs : g.typing.inputs id = some node.inputs := by
  simp [typing, found]

theorem typing_setInputs (x : List Socket) :
    (g.setNode id { node with inputs := x }).typing = g.typing.relabel id x := by
  unfold typing Wiring.relabel
  congr 1
  · rw [wiring_setInputs found]
    rfl
  · funext n
    by_cases at' : n = id
    · subst at'
      simp
    · rw [node?_setNode_ne at', Function.update_of_ne at']

theorem outType_setInputs (x : List Socket) :
    (g.setNode id { node with inputs := x }).outType = g.outType := by
  funext source
  unfold outType
  by_cases at' : source.node = id
  · rw [at', node?_setNode_self, found]
    rfl
  · rw [node?_setNode_ne at']

end

section

variable (cached : g.Cached stale unset loose)
include cached

theorem Cached.mono (wider : ∀ c ∈ g.connections, stale c → stale' c)
    (more : ∀ n, unset n → unset' n) : g.Cached stale' unset' loose :=
  ⟨cached.typed.mono wider, fun id node found kind set =>
    cached.mirrored id node found kind fun old => set (more id old)⟩

theorem Cached.setInputs (found : g.node? id = some node)
    (freed : unset id) {x : List Socket} {cs : List Connection}
    (typed : ((g.typing.relabel id x).connect cs).Typed g.outType stale' loose') :
    ((g.setNode id { node with inputs := x }).setConnections cs).Cached stale' unset loose' := by
  refine ⟨?_, fun n other here kind set => ?_⟩
  · rw [← typing_setInputs found, ← outType_setInputs found x] at typed
    exact typed
  · have apart : n ≠ id := by
      rintro rfl
      exact set freed
    refine cached.mirrored n other ?_ kind set
    rw [← here]
    exact (node?_setNode_ne apart).symm

theorem Cached.relabel (found : g.node? id = some node) (freed : unset id)
    {x : List Socket} (typed : (g.typing.relabel id x).Typed g.outType stale' loose') :
    (g.setNode id { node with inputs := x }).Cached stale' unset loose' :=
  @Cached.setInputs g id node stale stale' unset loose loose' cached found freed x g.connections typed

end

variable {socket : Socket}

theorem Cached.insertInputSocket (cached : g.Cached (fun c => stays c.source) unset nowhere) (freed : unset id)
    (fresh : socket.resolvedType = none) (i : Nat) :
    (g.insertInputSocket id i socket).Cached (fun c => stays c.source) unset nowhere := by
  unfold GraphState.insertInputSocket
  cases found : g.node? id with
  | none => exact cached
  | some node =>
    exact cached.setInputs found freed
      (cached.typed.insertAt (typing_inputs found) (Nat.min_le_right i node.inputs.length) fresh)

theorem Cached.removeInputSocket {i : Nat} (cached : g.Cached (fun c => stays c.source) unset (spot id i))
    (freed : unset id) (run : g.removeInputSocket id i = some (socket, g')) :
    g'.Cached (fun c => stays c.source) unset nowhere := by
  obtain ⟨node, found, run⟩ := Option.bind_eq_some_iff.mp run
  obtain ⟨_, -, run⟩ := Option.map_eq_some_iff.mp run
  cases run
  exact cached.setInputs found freed (cached.typed.removeAt (typing_inputs found))

theorem Cached.modifyInputs {f : List Socket → List Socket} (cached : g.Cached stale unset loose)
    (freed : unset id) (same : ∀ x, (f x).map Socket.typed = x.map Socket.typed) :
    (g.modifyInputs id f).Cached stale unset loose := by
  unfold GraphState.modifyInputs
  cases found : g.node? id with
  | none => exact cached
  | some node =>
    exact cached.relabel found freed
      (cached.typed.relabel (typing_inputs found) (same node.inputs))

theorem renumberMembers_typed (d : Nat) (base : String) (members : Nat) (x : List Socket) :
    (renumberMembers d base members x).map Socket.typed = x.map Socket.typed := by
  induction x generalizing members with
  | nil => rfl
  | cons s x ih =>
    rw [renumberMembers]
    split
    · exact congrArg (s.typed :: ·) (ih _)
    · exact congrArg (s.typed :: ·) (ih _)

theorem modify_typed {f : Socket → Socket} (same : ∀ s, (f s).typed = s.typed) (x : List Socket) (i : Nat) :
    (x.modify i f).map Socket.typed = x.map Socket.typed := by
  refine List.ext_getElem? fun k => ?_
  rw [List.getElem?_map, List.getElem?_modify, List.getElem?_map]
  cases x[k]? with
  | none => rfl
  | some s =>
    by_cases at' : i = k
    · simp [at', same]
    · simp [at']

theorem Cached.growVariadicGroup (cached : g.Cached (fun c => stays c.source) unset nowhere)
    (freed : unset target.node) : (g.growVariadicGroup target).Cached (fun c => stays c.source) unset nowhere := by
  unfold GraphState.growVariadicGroup
  cases g.input? target with
  | none => exact cached
  | some socket =>
    dsimp only
    cases socket.variadic with
    | none => exact cached
    | some info =>
      dsimp only
      split
      · exact cached
      · have grown := cached.modifyInputs freed (modify_typed (f := fun s => { s with
          variadic := some { info with placeholder := false },
          name := memberName info.base (g.variadicMembers target.node socket.defIndex + 1) })
            (fun _ => rfl) · target.index)
        split
        · exact grown.insertInputSocket freed (by rfl) _
        · exact grown

theorem Cached.collapseVariadicMember
    (cached : g.Cached (fun c => stays c.source) unset (spot target.node target.index)) (freed : unset target.node)
    (input : g.input? target = some socket) (member : socket.isVariadicMember = true) :
    (g.collapseVariadicMember target).Cached (fun c => stays c.source) unset nowhere := by
  obtain ⟨info, variadic, taken⟩ : ∃ info, socket.variadic = some info ∧ info.placeholder = false := by
    simpa [Socket.isVariadicMember, Option.any_eq_true] using member
  obtain ⟨node, found, there⟩ := Option.bind_eq_some_iff.mp input
  have removes : ∃ g', g.removeInputSocket target.node target.index = some (socket, g') := by
    unfold GraphState.removeInputSocket
    rw [found, Option.bind_some, there]
    exact ⟨_, rfl⟩
  obtain ⟨g', removes⟩ := removes
  have removed := cached.removeInputSocket freed removes
  unfold GraphState.collapseVariadicMember
  simp only [input, variadic, taken, removes, Bool.false_eq_true, if_false]
  cases g'.node? target.node with
  | none => exact removed
  | some rest =>
    dsimp only
    have renamed := removed.modifyInputs freed (renumberMembers_typed socket.defIndex info.base 0)
    split
    · exact renamed.insertInputSocket freed (by rfl) _
    · exact renamed

theorem input?_typing (target : SocketId) : g.typing.socket? target.node target.index = g.input? target := by
  unfold typing Wiring.socket? input?
  dsimp only
  cases g.node? target.node with
  | none => rfl
  | some node => rfl

theorem Cached.resolveInput {c : Connection} (cached : g.Cached stale unset nowhere) (linked : Linked g.wiring)
    (inside : c ∈ g.connections) :
    (g.resolveInput c.source c.target).Cached (fun d => stale d ∧ d.target ≠ c.target)
      (fun n => unset n ∨ n = c.target.node) nowhere := by
  obtain ⟨direction, l, here, -⟩ := linked.target c inside
  obtain ⟨node, found, -⟩ := wiring_inputs here
  have wider := cached.mono (fun _ _ old => old) fun n => Or.inl (b := n = c.target.node)
  have place : c.target = ⟨c.target.node, c.target.index, .input⟩ := by rw [← direction]
  have hits : ∀ d ∈ g.connections, spot c.target.node c.target.index d.target.node d.target.index →
      d = c := by
    rintro d member ⟨sameNode, sameIndex⟩
    refine linked.eq_of_target member inside ?_
    rw [place, ← sameNode, ← sameIndex, ← (linked.target d member).1]
  unfold GraphState.resolveInput GraphState.modifyInputs
  rw [found]
  refine wider.relabel found (.inr rfl)
    (cached.typed.modify (typing_inputs found) ?_ ?_ ?_ fun _ _ none => none.elim)
  · intro d member current off old
    exact current ⟨old, fun same => off (by rw [same]; exact ⟨rfl, rfl⟩)⟩
  · intro d member _ at' s
    cases hits d member at'
    rfl
  · exact fun _ _ => ⟨c, inside, place⟩

theorem Cached.clearInputResolution (cached : g.Cached stale unset (spot target.node target.index))
    (freed : unset target.node)
    (free : ∀ c ∈ g.connections, ¬ spot target.node target.index c.target.node c.target.index) :
    (g.clearInputResolution target).Cached stale unset nowhere := by
  unfold GraphState.clearInputResolution GraphState.modifyInputs
  cases found : g.node? target.node with
  | none =>
    refine ⟨⟨cached.typed.fed, fun n k s there _ => ?_⟩, cached.mirrored⟩
    refine cached.typed.unfed n k s there ?_
    rintro ⟨rfl, rfl⟩
    rw [input?_typing, GraphState.input?, found] at there
    cases there
  | some node =>
    exact cached.relabel found freed
      (cached.typed.modify (typing_inputs found) (fun c _ current _ => current)
        (fun c inside _ at' => absurd at' (free c inside)) (fun _ some' => absurd rfl some') fun _ _ => id)

end GraphState

end LogicConduit.Document
