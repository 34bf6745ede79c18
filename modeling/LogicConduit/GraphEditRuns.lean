import LogicConduit.GraphEditSteps

namespace LogicConduit.Document

open Wiring

namespace GraphState

section Groups

variable {g : GraphState} {target : SocketId} {l : List Socket} {s : Socket} {info : VariadicInfo}
  {id : NodeId}

theorem map_modify_bare {f : Socket → Socket} (commutes : ∀ s, (f s).bare = f s.bare)
    (x : List Socket) (i : Nat) : (x.modify i f).map Socket.bare = (x.map Socket.bare).modify i f := by
  refine List.ext_getElem? fun k => ?_
  by_cases at' : i = k
  · subst at'
    simp only [List.getElem?_map, List.getElem?_modify_eq, Option.map_eq_map, Option.map_map]
    congr 1
    funext s
    exact commutes s
  · rw [List.getElem?_map, List.getElem?_modify_ne _ _ at', List.getElem?_modify_ne _ _ at',
      List.getElem?_map]

section

variable (here : g.wiring.inputs target.node = some l)
include here

section

variable (found : l[target.index]? = some s)
include found

theorem input?_of_wiring : ∃ socket, g.input? target = some socket ∧ socket.bare = s := by
  have same := input?_wiring (g := g) target
  rw [socket?_self here, found] at same
  exact Option.map_eq_some_iff.mp same

theorem wiring_growVariadicGroup_taken (taken : s.isVariadicPlaceholder = false) :
    (g.growVariadicGroup target).wiring = g.wiring := by
  obtain ⟨socket, input, rfl⟩ := input?_of_wiring here found
  unfold growVariadicGroup
  rw [input]
  dsimp only
  cases variadic : socket.variadic with
  | none => rfl
  | some info =>
    have free : info.placeholder = false := by
      simpa [Socket.isVariadicPlaceholder, Socket.bare, variadic] using taken
    simp [free]

theorem wiring_growVariadicGroup (variadic : s.variadic = some info)
    (free : info.placeholder = true) :
    let number := l.countP (isMemberOf s.defIndex) + 1
    let grown := l.modify target.index fun s => { s with
      variadic := some { info with placeholder := false }, name := memberName info.base number }
    (g.growVariadicGroup target).wiring =
      if number < info.max then
        (g.wiring.relabel target.node grown).insertAt target.node grown (target.index + 1)
          { s with name := info.base }
      else g.wiring.relabel target.node grown := by
  obtain ⟨socket, input, rfl⟩ := input?_of_wiring here found
  have own : socket.variadic = some info := variadic
  have bound : target.index < l.length := (List.getElem?_eq_some_iff.mp found).1
  have count := variadicMembers_eq here socket.defIndex
  dsimp only
  unfold growVariadicGroup
  simp only [input, own, free, not_true_eq_false, if_false, count]
  set join : Socket → Socket := fun s => { s with
    variadic := some { info with placeholder := false },
    name := memberName info.base (l.countP (isMemberOf socket.defIndex) + 1) }
  have modified := @wiring_modifyInputs g target.node l (fun inputs => inputs.modify target.index join)
    (fun inputs => inputs.modify target.index join)
    (fun x => @map_modify_bare join (fun _ => rfl) x target.index) here
  have grownHere : (g.modifyInputs target.node fun inputs =>
      inputs.modify target.index join).wiring.inputs target.node =
        some (l.modify target.index join) := by
    rw [modified]
    simp [Wiring.relabel]
  split
  next more =>
    refine Eq.trans ?_ (if_pos more).symm
    refine (wiring_insertInputSocket grownHere ?_).trans ?_
    · rw [List.length_modify]
      omega
    · rw [modified]
      congr 1
      simp [Socket.bare, own]
  next full => exact modified.trans (if_neg full).symm

end

end

theorem wiring_renumberVariadicGroup (here : g.wiring.inputs id = some l) {d last : Nat} {p : Socket}
    (isLast : lastIdx (isPlaceholderOf d) l = some last) (found : l[last]? = some p) :
    (g.renumberVariadicGroup id d info).wiring =
      if info.max ≤ l.countP (isMemberOf d) then
        (g.wiring.relabel id (renumberMembers d info.base 0 l)).removeAt id
          (renumberMembers d info.base 0 l) last
      else g.wiring.relabel id (renumberMembers d info.base 0 l) := by
  obtain ⟨node, present, rfl⟩ := wiring_inputs here
  have scan : lastIdx (isPlaceholderOf d) node.inputs = some last :=
    (lastIdx_map (isPlaceholderOf d) Socket.bare node.inputs).symm.trans isLast
  have count : node.inputs.countP (isMemberOf d) =
      (node.inputs.map Socket.bare).countP (isMemberOf d) := by
    rw [List.countP_map]
    rfl
  have renamed := @wiring_modifyInputs g id _ (renumberMembers d info.base 0)
    (renumberMembers d info.base 0) (fun _ => renumberMembers_bare) here
  unfold renumberVariadicGroup
  simp only [present, scan, count]
  split
  next full =>
    have renamedHere : (g.modifyInputs id (renumberMembers d info.base 0)).wiring.inputs id =
        some (renumberMembers d info.base 0 (node.inputs.map Socket.bare)) := by
      rw [renamed]
      simp [Wiring.relabel]
    obtain ⟨q, inside⟩ : ∃ q, (renumberMembers d info.base 0 (node.inputs.map Socket.bare))[last]? =
        some q := by
      have bound := (List.getElem?_eq_some_iff.mp found).1
      rw [← renumberMembers_length d info.base 0] at bound
      exact ⟨_, List.getElem?_eq_getElem bound⟩
    obtain ⟨socket, g', run, -, wiring⟩ := removeInputSocket_eq renamedHere inside
    rw [run, ← renamed]
    exact wiring
  next more => exact renamed

theorem wiring_collapseVariadicMember (here : g.wiring.inputs target.node = some l)
    (found : l[target.index]? = some s) (variadic : s.variadic = some info)
    (taken : info.placeholder = false) :
    let rest := l.eraseIdx target.index
    let renamed := renumberMembers s.defIndex info.base 0 rest
    let groupEnd := (lastIdx (fun s' => s'.defIndex == s.defIndex) rest).elim target.index (· + 1)
    let removed := (g.wiring.removeAt target.node l target.index).relabel target.node renamed
    (¬ rest.any (isPlaceholderOf s.defIndex) ∧ rest.countP (isMemberOf s.defIndex) < info.max →
      groupEnd ≤ rest.length) →
    (g.collapseVariadicMember target).wiring =
      if ¬ rest.any (isPlaceholderOf s.defIndex) ∧ rest.countP (isMemberOf s.defIndex) < info.max then
        removed.insertAt target.node renamed groupEnd
          { s with name := info.base, variadic := some { info with placeholder := true } }
      else removed := by
  obtain ⟨socket, input, rfl⟩ := input?_of_wiring here found
  have own : socket.variadic = some info := variadic
  obtain ⟨first, g₁, run, same, wiring₁⟩ := removeInputSocket_eq here found
  have restHere : g₁.wiring.inputs target.node = some (l.eraseIdx target.index) := by
    rw [wiring₁]
    simp [Wiring.removeAt, Wiring.relabel, connect]
  obtain ⟨node, present, inputs⟩ := wiring_inputs restHere
  have renamed := @wiring_modifyInputs g₁ target.node _ (renumberMembers socket.defIndex info.base 0)
    (renumberMembers socket.defIndex info.base 0) (fun _ => renumberMembers_bare) restHere
  have renamedHere : (g₁.modifyInputs target.node
      (renumberMembers socket.defIndex info.base 0)).wiring.inputs target.node =
        some (renumberMembers socket.defIndex info.base 0 (l.eraseIdx target.index)) := by
    rw [renamed]
    simp [Wiring.relabel]
  have count : node.inputs.countP (isMemberOf socket.defIndex) =
      (l.eraseIdx target.index).countP (isMemberOf socket.defIndex) := by
    rw [← inputs, List.countP_map]
    rfl
  have any : node.inputs.any (isPlaceholderOf socket.defIndex) =
      (l.eraseIdx target.index).any (isPlaceholderOf socket.defIndex) := by
    rw [← inputs, List.any_map]
    rfl
  have last : lastIdx (fun s' : Socket => s'.defIndex == socket.defIndex) node.inputs =
      lastIdx (fun s' => s'.defIndex == socket.defIndex) (l.eraseIdx target.index) := by
    rw [← inputs, lastIdx_map]
    rfl
  dsimp only
  intro bound
  unfold collapseVariadicMember
  simp only [input, own, taken, Bool.false_eq_true, if_false, run, present, count, any, last]
  split
  next restore =>
    refine Eq.trans ?_ (if_pos restore).symm
    refine (wiring_insertInputSocket renamedHere ?_).trans ?_
    · rw [renumberMembers_length]
      exact bound restore
    · rw [renamed, wiring₁]
      congr 1
      have logical : first.bare = socket.bare := same
      simp only [Socket.bare, Socket.mk.injEq] at logical ⊢
      simp [logical]
  next keep =>
    refine Eq.trans ?_ (if_neg keep).symm
    rw [renamed, wiring₁]
    rfl

end Groups

section Operations

variable {g g' : GraphState} {w w' : Wiring} {source target : SocketId} {id : NodeId} {i : Nat}
  {kept added cs : List Connection} {shift : NodeId → Nat → Nat}

theorem noRerouteCycle_of_edges (acyclic : w.NoRerouteCycle)
    (edges : ∀ a b, w'.RerouteEdge a b → w.RerouteEdge a b) : w'.NoRerouteCycle :=
  fun a cycle => acyclic a (Relation.TransGen.mono edges a a cycle)

theorem noRerouteCycle_subset (acyclic : w.NoRerouteCycle) (sub : cs ⊆ w.connections) :
    (w.connect cs).NoRerouteCycle := by
  refine noRerouteCycle_of_edges acyclic ?_
  rintro a b ⟨reroute, c, inside, leaves, enters⟩
  exact ⟨reroute, c, sub inside, leaves, enters⟩

theorem noRerouteCycle_edited (edited : Wiring.Edited w w' kept added shift)
    (acyclic : (w.connect (kept ++ added)).NoRerouteCycle) : w'.NoRerouteCycle := by
  refine noRerouteCycle_of_edges acyclic ?_
  rintro a b ⟨⟨n, reroute⟩, c, inside, leaves, enters⟩
  rw [edited.frame] at reroute
  rw [edited.connections] at inside
  rcases List.mem_append.mp inside with inside | inside
  · obtain ⟨d, member, rfl⟩ := List.mem_map.mp inside
    exact ⟨⟨n, reroute⟩, d, List.mem_append_left _ member, leaves, enters⟩
  · exact ⟨⟨n, reroute⟩, c, List.mem_append_right _ inside, leaves, enters⟩

theorem propagate_edited (edited : Wiring.Edited w g.wiring kept added shift)
    (acyclic : (w.connect (kept ++ added)).NoRerouteCycle) (id : NodeId) :
    ∃ g', g.propagate id = some g' ∧ Wiring.Edited w g'.wiring kept added shift := by
  obtain ⟨g', run, same⟩ :=
    propagate_some (noRerouteCycle_edited edited acyclic) edited.core.reroutes id
  exact ⟨g', run, by rw [same]; exact edited⟩

theorem growVariadicGroup_edited (core : g.wiring.Core) (source : SocketId)
    (present : g.wiring.Present target.node target.index) (direction : target.direction = .input) :
    ∃ shift, Wiring.Edited g.wiring (((g.setConnections ((g.connections.filter fun c => c.target ≠ target) ++
      [⟨source, target⟩])).resolveInput source target).growVariadicGroup target).wiring
      (g.connections.filter fun c => c.target ≠ target) [⟨source, target⟩] shift := by
  obtain ⟨l, here, bound⟩ := present.inputs
  obtain ⟨s, found⟩ := present
  have inside : l[target.index]? = some s := (socket?_self here).symm.trans found
  set linked := (g.setConnections ((g.connections.filter fun c => c.target ≠ target) ++
    [⟨source, target⟩])).resolveInput source target with isLinked
  have wiring : linked.wiring = g.wiring.connect ((g.connections.filter fun c => c.target ≠ target) ++
      [⟨source, target⟩]) := by
    rw [isLinked, wiring_resolveInput, wiring_setConnections]
  have linkedHere : linked.wiring.inputs target.node = some l := by
    rw [wiring]
    exact here
  by_cases free : s.isVariadicPlaceholder = true
  · obtain ⟨info, variadic, placeholder⟩ : ∃ info, s.variadic = some info ∧
        info.placeholder = true := by
      simpa [Socket.isVariadicPlaceholder, Option.any_eq_true] using free
    have place : target = ⟨target.node, target.index, .input⟩ := by rw [← direction]
    have grown := wiring_growVariadicGroup linkedHere inside variadic placeholder
    have steps := @Core.addPlaceholder g.wiring target.node l target.index s info source core here
      inside variadic placeholder { s with name := info.base } rfl variadic _ rfl
    rw [← place] at steps
    dsimp only at grown steps
    rw [grown, wiring]
    split at steps
    next more =>
      rw [if_pos more]
      exact ⟨_, steps⟩
    next full =>
      rw [if_neg full]
      exact ⟨_, steps⟩
  · have taken : s.isVariadicPlaceholder = false := by simpa using free
    rw [wiring_growVariadicGroup_taken linkedHere inside taken, wiring]
    exact ⟨_, core.addTaken found direction taken⟩

theorem addConnection_edited (core : g.wiring.Core)
    (present : g.wiring.Present target.node target.index) (direction : target.direction = .input)
    (acyclic : (g.wiring.connect ((g.connections.filter fun c => c.target ≠ target) ++
      [⟨source, target⟩])).NoRerouteCycle) :
    ∃ g' shift, g.addConnection source target = some g' ∧
      Wiring.Edited g.wiring g'.wiring (g.connections.filter fun c => c.target ≠ target)
        [⟨source, target⟩] shift := by
  obtain ⟨shift, edited⟩ := growVariadicGroup_edited core source present direction
  obtain ⟨g', run, done⟩ := propagate_edited edited acyclic target.node
  refine ⟨g'.markSemanticChange, shift, ?_, done⟩
  unfold addConnection
  dsimp only
  rw [run]
  rfl

theorem onInputDisconnected_edited (core : g.wiring.Core) (present : g.wiring.Present id i)
    (without : Without g.wiring id i cs) (acyclic : g.wiring.NoRerouteCycle) :
    ∃ g' shift, (g.setConnections cs).onInputDisconnected ⟨id, i, .input⟩ = some g' ∧
      Wiring.Edited g.wiring g'.wiring cs [] shift := by
  obtain ⟨l, here, bound⟩ := present.inputs
  obtain ⟨s, found⟩ := present
  have inside : l[i]? = some s := (socket?_self here).symm.trans found
  have cutHere : (g.setConnections cs).wiring.inputs id = some l := here
  obtain ⟨socket, input, bare⟩ := @input?_of_wiring (g.setConnections cs) ⟨id, i, .input⟩ l s here inside
  have kind : socket.isVariadicMember = s.isVariadicMember := by
    rw [← bare]
    rfl
  have rest : (g.wiring.connect (cs ++ [])).NoRerouteCycle := by
    rw [List.append_nil]
    exact noRerouteCycle_subset acyclic without.sublist.subset
  unfold onInputDisconnected
  simp only [input, Option.any_some, kind]
  by_cases member : s.isVariadicMember = true
  · obtain ⟨info, variadic, taken⟩ : ∃ info, s.variadic = some info ∧ info.placeholder = false := by
      simpa [Socket.isVariadicMember, Option.any_eq_true] using member
    have steps := core.disconnectMember (p := { s with
      name := info.base, variadic := some { info with placeholder := true } }) without here inside
      variadic taken rfl rfl
    have collapsed := @wiring_collapseVariadicMember (g.setConnections cs) ⟨id, i, .input⟩ l s info
      cutHere inside variadic taken
    dsimp only at steps collapsed
    rw [if_pos member]
    obtain ⟨shift, edited⟩ : ∃ shift, Wiring.Edited g.wiring
        ((g.setConnections cs).collapseVariadicMember ⟨id, i, .input⟩).wiring cs [] shift := by
      split at steps
      next restore =>
        rw [collapsed fun _ => steps.1, if_pos restore]
        exact ⟨_, steps.2⟩
      next keep =>
        rw [collapsed fun restore => absurd restore keep, if_neg keep]
        exact ⟨_, steps⟩
    obtain ⟨g', run, done⟩ := propagate_edited edited rest id
    exact ⟨g', shift, run, done⟩
  · have plain : s.isVariadicMember = false := by simpa using member
    rw [if_neg member]
    have edited : Wiring.Edited g.wiring ((g.setConnections cs).clearInputResolution
        ⟨id, i, .input⟩).wiring cs [] fun _ k => k := by
      rw [wiring_clearInputResolution]
      exact core.disconnectPlain without found plain
    obtain ⟨g', run, done⟩ := propagate_edited edited rest id
    exact ⟨g', _, run, done⟩

theorem without_filter (direction : target.direction = .input) :
    Without g.wiring target.node target.index (g.connections.filter fun c => c.target ≠ target) := by
  have place : target = ⟨target.node, target.index, .input⟩ := by rw [← direction]
  rw [place]
  exact ⟨List.filter_sublist, fun c inside other =>
    List.mem_filter.mpr ⟨inside, decide_eq_true other⟩, fun c inside =>
    of_decide_eq_true (List.mem_filter.mp inside).2⟩

theorem disconnectInput_edited (core : g.wiring.Core) (acyclic : g.wiring.NoRerouteCycle)
    (target : SocketId) :
    ∃ g' removed shift, g.disconnectInput target = some (g', removed) ∧
      Wiring.Edited g.wiring g'.wiring (g.connections.filter fun c => c.target ≠ target) [] shift := by
  unfold disconnectInput
  dsimp only
  by_cases some' : (g.connections.filter fun c => c.target ≠ target).length ≠ g.connections.length
  · obtain ⟨c, inside, hit⟩ : ∃ c ∈ g.connections, c.target = target := by
      by_contra none
      push Not at none
      refine some' (congrArg List.length ?_)
      rw [List.filter_eq_self]
      exact fun c inside => decide_eq_true (none c inside)
    have direction : target.direction = .input := by
      rw [← hit]
      exact (core.linked.target c inside).1
    have present : g.wiring.Present target.node target.index := by
      rw [← hit]
      exact core.linked.present inside
    have place : target = ⟨target.node, target.index, .input⟩ := by rw [← direction]
    obtain ⟨g', shift, run, edited⟩ :=
      onInputDisconnected_edited core present (without_filter direction) acyclic
    rw [← place] at run
    rw [if_pos some', run]
    exact ⟨g'.markSemanticChange, true, shift, rfl, edited⟩
  · rw [if_neg some']
    have all : (g.connections.filter fun c => c.target ≠ target) = g.connections :=
      List.filter_sublist.eq_of_length (not_not.mp some')
    rw [all]
    exact ⟨_, false, fun _ k => k, rfl, core.unedited⟩

variable {c : Connection}

theorem without_eraseIdx (linked : Linked g.wiring) {index : Nat} (at' : g.connections[index]? = some c) :
    Without g.wiring c.target.node c.target.index (g.connections.eraseIdx index) := by
  obtain ⟨before, after, split, length⟩ := split_at at'
  have erased : g.connections.eraseIdx index = before ++ after := by
    rw [split, ← length, eraseIdx_at]
  have inside : c ∈ g.wiring.connections := List.mem_of_getElem? at'
  have direction := (linked.target c inside).1
  have place : c.target = ⟨c.target.node, c.target.index, .input⟩ := by rw [← direction]
  have once : ((before ++ c :: after).map Connection.target).Nodup := by
    rw [← split]
    exact linked.once
  rw [erased]
  refine ⟨?_, ?_, ?_⟩
  · rw [connections_wiring, split]
    exact List.Sublist.append_left (List.sublist_cons_self c after) before
  · rw [connections_wiring, split, ← place]
    intro d member other
    rcases List.mem_append.mp member with member | member
    · exact List.mem_append_left _ member
    · rcases List.mem_cons.mp member with rfl | member
      · exact absurd rfl other
      · exact List.mem_append_right _ member
  · rw [← place]
    intro d member same
    rw [List.map_append, List.map_cons, List.nodup_middle] at once
    refine (List.nodup_cons.mp once).1 ?_
    rw [← same, ← List.map_append]
    exact List.mem_map_of_mem member

theorem removeConnectionAt_edited (core : g.wiring.Core) (acyclic : g.wiring.NoRerouteCycle) {index : Nat}
    (at' : g.connections[index]? = some c) :
    ∃ g' shift, g.removeConnectionAt index = some (g', c) ∧
      Wiring.Edited g.wiring g'.wiring (g.connections.eraseIdx index) [] shift := by
  have inside : c ∈ g.wiring.connections := List.mem_of_getElem? at'
  have direction := (core.linked.target c inside).1
  have place : c.target = ⟨c.target.node, c.target.index, .input⟩ := by rw [← direction]
  obtain ⟨g', shift, run, edited⟩ := onInputDisconnected_edited core (core.linked.present inside)
    (without_eraseIdx core.linked at') acyclic
  rw [← place] at run
  refine ⟨g'.markSemanticChange, shift, ?_, edited⟩
  unfold removeConnectionAt
  rw [at', Option.bind_some, run]
  rfl

theorem removeOutgoing_edited {rounds : Nat} (core : g.wiring.Core) (acyclic : g.wiring.NoRerouteCycle)
    (enough : g.connections.length ≤ rounds) :
    ∃ g' shift, removeOutgoing id rounds g = some g' ∧
      Wiring.Edited g.wiring g'.wiring (g.connections.filter fun c => c.source.node ≠ id) [] shift := by
  induction rounds generalizing g with
  | zero =>
    have none : g.connections = [] := List.eq_nil_of_length_eq_zero (by omega)
    unfold removeOutgoing
    have all : (g.connections.filter fun c => c.source.node ≠ id) = g.connections := by rw [none]; rfl
    rw [all]
    exact ⟨g, fun _ k => k, by rw [none]; rfl, core.unedited⟩
  | succ rounds ih =>
    unfold removeOutgoing
    cases position : g.connections.findIdx? fun c => c.source.node = id with
    | none =>
      have all : (g.connections.filter fun c => c.source.node ≠ id) = g.connections := by
        rw [List.filter_eq_self]
        intro c inside
        have := List.findIdx?_eq_none_iff.mp position c inside
        simpa using this
      rw [all]
      exact ⟨g, fun _ k => k, rfl, core.unedited⟩
    | some index =>
      obtain ⟨bound, hit, -⟩ := List.findIdx?_eq_some_iff_getElem.mp position
      have at' : g.connections[index]? = some g.connections[index] := List.getElem?_eq_getElem bound
      set c := g.connections[index] with isC
      have leaves : c.source.node = id := by simpa using hit
      obtain ⟨g₁, shift, run, first⟩ := removeConnectionAt_edited core acyclic at'
      have wires : g₁.connections = (g.connections.eraseIdx index).map (Connection.move shift) := by
        rw [← connections_wiring, first.connections, List.append_nil]
      have fewer : g₁.connections.length ≤ rounds := by
        rw [wires, List.length_map, List.length_eraseIdx, if_pos bound]
        omega
      have still : g₁.wiring.NoRerouteCycle := by
        refine noRerouteCycle_edited first (noRerouteCycle_subset acyclic ?_)
        rw [List.append_nil]
        exact (List.eraseIdx_sublist _ _).subset
      obtain ⟨g', shift', rest, second⟩ := @ih g₁ first.core still fewer
      have kept : (g₁.connections.filter fun c => c.source.node ≠ id) =
          (g.connections.filter fun c => c.source.node ≠ id).map (Connection.move shift) := by
        obtain ⟨before, after, split, length⟩ := split_at at'
        rw [wires, List.filter_map, split, ← length, eraseIdx_at, List.filter_append,
          List.filter_append, List.filter_cons_of_neg (by simp [leaves])]
        rfl
      rw [kept] at second
      refine ⟨g', _, ?_, first.trans ?_ second⟩
      · dsimp only
        rw [run]
        exact rest
      · intro d inside
        obtain ⟨before, after, split, length⟩ := split_at at'
        obtain ⟨inside, other⟩ := List.mem_filter.mp inside
        have other : d.source.node ≠ id := of_decide_eq_true other
        rw [split, ← length, eraseIdx_at]
        rw [split] at inside
        rcases List.mem_append.mp inside with inside | inside
        · exact List.mem_append_left _ inside
        · rcases List.mem_cons.mp inside with rfl | inside
          · exact absurd leaves other
          · exact List.mem_append_right _ inside

def inserts (g : GraphState) (target : SocketId) : Bool :=
  (g.input? target).any fun socket => socket.variadic.any fun info =>
    !info.placeholder && g.connections.any (fun c => c.target = target) &&
      decide (g.variadicMembers target.node socket.defIndex < info.max)

theorem insertVariadicConnection_edited (core : g.wiring.Core)
    (acyclic : (g.wiring.connect (g.connections ++
      if g.inserts target then [⟨source, target⟩] else [])).NoRerouteCycle) :
    ∃ g' shift, g.insertVariadicConnection source target = some (g', g.inserts target) ∧
      Wiring.Edited g.wiring g'.wiring g.connections (if g.inserts target then [⟨source, target⟩] else [])
        shift := by
  have same : g.inserts target = false → ∃ g' shift, some (g, false) = some (g', g.inserts target) ∧
      Wiring.Edited g.wiring g'.wiring g.connections (if g.inserts target then [⟨source, target⟩] else [])
        shift := by
    intro none
    rw [none]
    exact ⟨g, fun _ k => k, rfl, core.unedited⟩
  unfold insertVariadicConnection
  cases input : g.input? target with
  | none => exact same (by simp [inserts, input])
  | some socket =>
    dsimp only
    cases own : socket.variadic with
    | none => exact same (by simp [inserts, input, own])
    | some info =>
      dsimp only
      split
      next free => exact same (by simp [inserts, input, own, free])
      next taken =>
        split
        next empty => exact same (by simp [inserts, input, empty])
        next occupied =>
          split
          next full => exact same (by simp [inserts, input, own, full])
          next room =>
            have applies : g.inserts target = true := by
              have busy : (g.connections.any fun c => c.target = target) = true := not_not.mp occupied
              simp [inserts, input, own, busy, taken, Nat.lt_of_not_le room]
            rw [applies, if_pos rfl] at acyclic ⊢
            have found : g.wiring.socket? target.node target.index = some socket.bare := by
              rw [← input?_wiring, input]
              rfl
            obtain ⟨l, here, inside⟩ := Option.bind_eq_some_iff.mp found
            obtain ⟨c, wired, leads⟩ : ∃ c ∈ g.connections, c.target = target := by
              simpa using occupied
            have direction : target.direction = .input := by
              rw [← leads]
              exact (core.linked.target c wired).1
            have place : target = ⟨target.node, target.index, .input⟩ := by rw [← direction]
            have bound : target.index < l.length := (List.getElem?_eq_some_iff.mp inside).1
            have count := variadicMembers_eq here socket.defIndex
            have free : info.placeholder = false := by simpa using taken
            have fits : l.countP (isMemberOf socket.defIndex) < info.max := by
              rw [← count]
              omega
            obtain ⟨last, p, inside', isLast, steps⟩ := @Core.insertMember g.wiring target.node l
              target.index socket.bare info source core here inside own free fits socket.bare rfl rfl
            have wiring₁ : (g.insertInputSocket target.node target.index
                { socket with resolvedType := none }).wiring =
                  g.wiring.insertAt target.node l target.index socket.bare :=
              wiring_insertInputSocket here (Nat.le_of_lt bound)
            set g₁ := g.insertInputSocket target.node target.index
              { socket with resolvedType := none } with isG₁
            have wiring₂ : ((g₁.setConnections (g₁.connections ++ [⟨source, target⟩])).resolveInput source
                target).wiring = (g.wiring.insertAt target.node l target.index socket.bare).connect
                  ((g.wiring.insertAt target.node l target.index socket.bare).connections ++
                    [⟨source, target⟩]) := by
              rw [wiring_resolveInput, wiring_setConnections, ← wiring₁]
              rfl
            have longer : ((g₁.setConnections (g₁.connections ++ [⟨source, target⟩])).resolveInput source
                target).wiring.inputs target.node = some (l.insertIdx target.index socket.bare) := by
              rw [wiring₂]
              simp [Wiring.insertAt, Wiring.relabel, connect]
            have renumbered := @wiring_renumberVariadicGroup _ _ info target.node longer
              socket.defIndex last p isLast inside'
            rw [wiring₂] at renumbered
            rw [← place] at steps
            obtain ⟨shift, edited⟩ : ∃ shift, Wiring.Edited g.wiring
                (((g₁.setConnections (g₁.connections ++ [⟨source, target⟩])).resolveInput source
                  target).renumberVariadicGroup target.node socket.defIndex info).wiring g.connections
                [⟨source, target⟩] shift := by
              rw [renumbered]
              split at steps
              next full =>
                change info.max ≤ List.countP (isMemberOf socket.defIndex) _ at full
                rw [if_pos full]
                exact ⟨_, steps⟩
              next more =>
                change ¬ info.max ≤ List.countP (isMemberOf socket.defIndex) _ at more
                rw [if_neg more]
                exact ⟨_, steps⟩
            obtain ⟨g', run, done⟩ := propagate_edited edited acyclic target.node
            refine ⟨g'.markSemanticChange, shift, ?_, done⟩
            rw [isG₁, own] at run
            rw [run]
            rfl

theorem node?_eraseNode_self : (g.eraseNode id).node? id = none := AList.lookup_erase _ _

variable {n : NodeId}

theorem node?_eraseNode_ne (other : n ≠ id) : (g.eraseNode id).node? n = g.node? n :=
  AList.lookup_erase_ne other

/-- The first part of removing a node: it goes with the connections to it. -/
def cut (g : GraphState) (id : NodeId) : GraphState :=
  (g.eraseNode id).markSemanticChange.setConnections (g.connections.filter fun c => c.target.node ≠ id)

theorem cut_off (other : n ≠ id) : (g.cut id).wiring.inputs n = g.wiring.inputs n ∧
    (g.cut id).wiring.frame n = g.wiring.frame n := by
  have same : (g.cut id).node? n = g.node? n := node?_eraseNode_ne other
  simp [wiring, same]

theorem cut_gone : (g.cut id).wiring.inputs id = none ∧ (g.cut id).wiring.frame id = none := by
  have none : (g.cut id).node? id = none := node?_eraseNode_self
  simp [wiring, none]

theorem mem_cut : c ∈ (g.cut id).wiring.connections ↔ c ∈ g.connections ∧ c.target.node ≠ id := by
  rw [connections_wiring]
  exact List.mem_filter.trans (and_congr_right fun _ => decide_eq_true_iff)

theorem socket?_cut (k : Nat) (other : n ≠ id) :
    (g.cut id).wiring.socket? n k = g.wiring.socket? n k := by
  rw [socket?, socket?, (cut_off other).1]

theorem connected_cut {k : Nat} (other : n ≠ id) :
    (g.cut id).wiring.Connected n k ↔ g.wiring.Connected n k := by
  refine exists_congr fun c => ?_
  rw [mem_cut, and_assoc]
  refine and_congr_right fun _ => ⟨fun h => h.2, fun leads => ⟨?_, leads⟩⟩
  rw [leads]
  exact other

theorem cut_core (core : g.wiring.Core) (id : NodeId) : (g.cut id).wiring.Core := by
  refine ⟨⟨?_, ?_⟩, ?_, ?_, ?_⟩
  · intro c inside
    obtain ⟨inside, other⟩ := mem_cut.mp inside
    rw [(cut_off other).1]
    exact core.linked.target c inside
  · exact core.linked.once.sublist (List.filter_sublist.map _)
  · intro n k t found _
    have other : n ≠ id := by
      rintro rfl
      rw [socket?, cut_gone.1] at found
      cases found
    rw [socket?_cut k other] at found
    rw [connected_cut other]
    exact core.occupied n k t found not_false
  · intro n l here
    have other : n ≠ id := by
      rintro rfl
      rw [cut_gone.1] at here
      cases here
    rw [(cut_off other).1] at here
    exact core.grouped n l here
  · intro n outputs reroute
    have other : n ≠ id := by
      rintro rfl
      rw [cut_gone.2] at reroute
      cases reroute
    rw [(cut_off other).2] at reroute
    rw [(cut_off other).1]
    exact core.reroutes n outputs reroute

theorem cut_acyclic (acyclic : g.wiring.NoRerouteCycle) (id : NodeId) :
    (g.cut id).wiring.NoRerouteCycle := by
  refine noRerouteCycle_of_edges acyclic ?_
  rintro a b ⟨⟨n, reroute⟩, c, inside, leaves, enters⟩
  have other : a ≠ id := by
    rintro rfl
    rw [cut_gone.2] at reroute
    cases reroute
  rw [(cut_off other).2] at reroute
  exact ⟨⟨n, reroute⟩, c, (mem_cut.mp inside).1, leaves, enters⟩

section

variable (core : g.wiring.Core)
include core

theorem removeNode_edited {node : Node} (acyclic : g.wiring.NoRerouteCycle)
    (present : g.node? id = some node) :
    ∃ g' shift, g.removeNode id = some g' ∧ g'.wiring.Core ∧
      (g'.wiring.frame = fun n => if n = id then none else g.wiring.frame n) ∧
      Wiring.KeepsGroups g.wiring g'.wiring ∧
      g'.connections = (g.connections.filter fun c =>
        c.target.node ≠ id ∧ c.source.node ≠ id).map (Connection.move shift) ∧
      Wiring.Carries g.wiring g'.wiring (fun n k => g.wiring.Kept (g.connections.filter fun c =>
        c.target.node ≠ id ∧ c.source.node ≠ id) n k ∧ n ≠ id) shift := by
  obtain ⟨g', shift, run, edited⟩ :=
    @removeOutgoing_edited (g.cut id) id _ (cut_core core id) (cut_acyclic acyclic id) (Nat.le_refl _)
  have both : ((g.cut id).connections.filter fun c => c.source.node ≠ id) =
      g.connections.filter fun c => c.target.node ≠ id ∧ c.source.node ≠ id := by
    show ((g.connections.filter fun c => c.target.node ≠ id).filter fun c => c.source.node ≠ id) = _
    rw [List.filter_filter]
    congr 1
    funext c
    rw [← Bool.decide_and]
    exact decide_eq_decide.mpr and_comm
  rw [both] at edited
  have groups : Wiring.KeepsGroups g.wiring (g.cut id).wiring := by
    intro n l here
    have other : n ≠ id := by
      rintro rfl
      rw [cut_gone.1] at here
      cases here
    exact ⟨l, (cut_off other).1 ▸ here, fun _ _ _ => Iff.rfl⟩
  refine ⟨g', shift, ?_, edited.core, ?_, groups.trans edited.groups, ?_, ?_⟩
  · unfold removeNode
    rw [present]
    exact run
  · rw [edited.frame]
    funext n
    by_cases at' : n = id
    · rw [at', if_pos rfl]
      exact cut_gone.2
    · rw [if_neg at']
      exact (cut_off at').2
  · rw [← connections_wiring, edited.connections, List.append_nil]
  · have moved : Wiring.Carries g.wiring (g.cut id).wiring (fun n k => g.wiring.Kept
        (g.connections.filter fun c => c.target.node ≠ id ∧ c.source.node ≠ id) n k ∧ n ≠ id) fun _ k => k := by
      refine ⟨?_, fun _ _ _ _ _ lt => lt⟩
      rintro n k ⟨kept, other⟩
      obtain ⟨s, found⟩ := kept.present
      exact ⟨s, s, found, (socket?_cut k other).trans found, rfl⟩
    refine moved.trans edited.carries ?_
    rintro n k ⟨⟨s, found, either⟩, other⟩
    exact ⟨s, (socket?_cut k other).trans found, either⟩

theorem victim_none (id : NodeId) : ((g.node? id).bind fun node => g.victim id node.inputs) = none := by
  rw [Option.bind_eq_none_iff]
  intro node present
  unfold victim
  rw [List.find?_eq_none]
  intro k _ hit
  simp only [Bool.and_eq_true, Bool.not_eq_true', Option.any_eq_true] at hit
  obtain ⟨⟨s, found, member⟩, unconnected⟩ := hit
  have socket : g.wiring.socket? id k = some s.bare := by
    rw [Wiring.socket?]
    simp [wiring, present, found]
  obtain ⟨c, inside, leads⟩ := (core.occupied id k s.bare socket not_false).1 member
  have listed : k ∈ g.connectedIndices id := by
    refine List.mem_map.mpr ⟨c, List.mem_filter.mpr ⟨inside, decide_eq_true ?_⟩, ?_⟩
    · rw [leads]
    · rw [leads]
  rw [← List.contains_iff_mem, unconnected] at listed
  cases listed

theorem collapseUnconnected_core (id : NodeId) (rounds : Nat) :
    collapseUnconnected id rounds g = some g := by
  unfold collapseUnconnected
  rw [victim_none core]

theorem pruneUnconnectedResolutions_wiring (ids : List NodeId) :
    ∃ g', g.pruneUnconnectedResolutions ids = some g' ∧ g'.wiring = g.wiring := by
  have step : ∀ id ∈ ids, ∀ h : GraphState, h.wiring = g.wiring →
      ∃ h', ((collapseUnconnected id ((h.node? id).elim 0 fun node => node.inputs.length) h).map
        fun h => h.clearUnconnected id) = some h' ∧ h'.wiring = g.wiring := by
    intro id _ h same
    refine ⟨h.clearUnconnected id, ?_, by rw [wiring_clearUnconnected, same]⟩
    rw [collapseUnconnected_core (by rw [same]; exact core)]
    rfl
  unfold pruneUnconnectedResolutions
  obtain ⟨g', run⟩ := foldlM_some (P := fun h : GraphState => h.wiring = g.wiring) step rfl
  refine ⟨g', run, foldlM_keeps (P := fun h : GraphState => h.wiring = g.wiring) ?_ rfl run⟩
  intro id inside h h' same next
  obtain ⟨h'', next', same'⟩ := step id inside h same
  cases next.symm.trans next'
  exact same'

end

end Operations

end GraphState

end LogicConduit.Document
