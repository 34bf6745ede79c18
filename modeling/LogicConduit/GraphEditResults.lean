import LogicConduit.GraphEditRuns

namespace LogicConduit.Document

open Wiring

inductive Edit where
  | addConnection (source target : SocketId)
  | disconnectInput (target : SocketId)
  | removeConnectionAt (index : Nat)
  | insertVariadicConnection (source target : SocketId)
  | removeNode (id : NodeId)
  | pruneUnconnectedResolutions (ids : List NodeId)

def ExistingInput (g : GraphState) (socket : SocketId) : Prop :=
  socket.direction = .input ∧ ∃ node, g.node? socket.node = some node ∧ socket.index < node.inputs.length

def ExistingOutput (g : GraphState) (socket : SocketId) : Prop :=
  socket.direction = .output ∧
    ∃ node, g.node? socket.node = some node ∧ socket.index < node.outputs.length

namespace Edit

def apply (g : GraphState) : Edit → Option GraphState
  | addConnection source target => g.addConnection source target
  | disconnectInput target => (g.disconnectInput target).map Prod.fst
  | removeConnectionAt index => (g.removeConnectionAt index).map Prod.fst
  | insertVariadicConnection source target =>
    (g.insertVariadicConnection source target).map Prod.fst
  | removeNode id => g.removeNode id
  | pruneUnconnectedResolutions ids => g.pruneUnconnectedResolutions ids

def Allowed (g : GraphState) : Edit → Prop
  | addConnection source target => ExistingOutput g source ∧ ExistingInput g target
  | removeConnectionAt index => index < g.connections.length
  | insertVariadicConnection source _ => ExistingOutput g source
  | _ => True

def kept (g : GraphState) : Edit → List Connection
  | addConnection _ target => g.connections.filter fun c => c.target ≠ target
  | disconnectInput target => g.connections.filter fun c => c.target ≠ target
  | removeConnectionAt index => g.connections.eraseIdx index
  | insertVariadicConnection _ _ => g.connections
  | removeNode id => g.connections.filter fun c => c.target.node ≠ id ∧ c.source.node ≠ id
  | pruneUnconnectedResolutions _ => g.connections

def added (g : GraphState) : Edit → List Connection
  | addConnection source target => [⟨source, target⟩]
  | insertVariadicConnection source target =>
    if g.inserts target then [⟨source, target⟩] else []
  | _ => []

def removed : Edit → Option NodeId
  | removeNode id => some id
  | _ => none

end Edit

/-- A group as one run: members with their numbers, all connected, and behind them a placeholder
that is not, exactly while there are fewer than the maximum. -/
def GroupAt (connected : Nat → Prop) (inputs : List Socket) (d : Nat) (base : String) (max : Nat) :
    Prop :=
  ∃ before members tail after, inputs = before ++ (members ++ tail) ++ after ∧
    Outside d before ∧ Outside d after ∧
    (∀ j m, members[j]? = some m → m.defIndex = d ∧ m.variadic = some ⟨base, max, false⟩ ∧
      m.name = memberName base (j + 1) ∧ connected (before.length + j)) ∧
    if members.length < max then
      ∃ p : Socket, tail = [p] ∧ p.defIndex = d ∧ p.variadic = some ⟨base, max, true⟩ ∧
        ¬ connected (before.length + members.length)
    else members.length = max ∧ tail = []

/-- Links and groups of a document fit together, and every node that is left has the groups it had at
the start. -/
structure Consistent (start g : GraphState) : Prop where
  target : ∀ c ∈ g.connections, ExistingInput g c.target
  source : ∀ c ∈ g.connections, ∃ node, g.node? c.source.node = some node
  once : (g.connections.map Connection.target).Nodup
  groups : ∀ id node, g.node? id = some node → ∃ first, start.node? id = some first ∧
    SameGroups first.inputs node.inputs ∧ ∀ d base max, HasGroup first.inputs d base max →
      GroupAt (fun k => ∃ c ∈ g.connections, c.target = ⟨id, k, .input⟩) node.inputs d base max

/-- Nodes without links: every group is one placeholder under a definition of its own, and a
reroute has its sockets. -/
structure Fresh (g : GraphState) : Prop where
  unlinked : g.connections = []
  groups : ∀ id node, g.node? id = some node → ∀ (i : Nat) (s : Socket) info, node.inputs[i]? = some s →
    s.variadic = some info → info.placeholder = true ∧ 1 ≤ info.max ∧
      ∀ (j : Nat) (t : Socket), node.inputs[j]? = some t → t.defIndex = s.defIndex → j = i
  reroutes : ∀ id node, g.node? id = some node → node.kind = .reroute →
    node.inputs ≠ [] ∧ node.outputs ≠ []

/-- The documents that edits lead to, while no cycle of reroutes is closed. -/
inductive Reachable (start : GraphState) : GraphState → Prop
  | fresh : Fresh start → Reachable start start
  | edit {g g' : GraphState} {e : Edit} : Reachable start g → e.Allowed g →
    (g.wiring.connect (e.kept g ++ e.added g)).NoRerouteCycle → e.apply g = some g' → Reachable start g'

section Fresh

variable {g : GraphState}

theorem Fresh.core (fresh : Fresh g) : g.wiring.Core := by
  refine ⟨⟨?_, ?_⟩, ?_, ?_, ?_⟩
  · rw [GraphState.connections_wiring, fresh.unlinked]
    simp
  · rw [GraphState.connections_wiring, fresh.unlinked]
    exact List.nodup_nil
  · intro id k s found _
    obtain ⟨l, here, inside⟩ := Option.bind_eq_some_iff.mp found
    obtain ⟨node, present, rfl⟩ := GraphState.wiring_inputs here
    rw [List.getElem?_map] at inside
    obtain ⟨socket, at', rfl⟩ := Option.map_eq_some_iff.mp inside
    constructor
    · intro member
      obtain ⟨info, variadic, taken⟩ : ∃ info, socket.variadic = some info ∧
          info.placeholder = false := by
        simpa [Socket.isVariadicMember, Option.any_eq_true, Socket.bare] using member
      have free := (fresh.groups id node present k socket info at' variadic).1
      rw [taken] at free
      cases free
    · rintro _ ⟨c, inside, -⟩
      rw [GraphState.connections_wiring, fresh.unlinked] at inside
      cases inside
  · intro id l here
    obtain ⟨node, present, rfl⟩ := GraphState.wiring_inputs here
    refine ⟨(node.inputs.map Socket.bare).map fun s => [s], ?_, ?_, ?_⟩
    · rw [← List.flatMap_def, List.flatMap_singleton']
    · intro segment member
      obtain ⟨s, inside, rfl⟩ := List.mem_map.mp member
      obtain ⟨socket, own, rfl⟩ := List.mem_map.mp inside
      obtain ⟨i, at'⟩ := List.mem_iff_getElem?.mp own
      cases variadic : socket.variadic with
      | none => exact .plain variadic
      | some info =>
        obtain ⟨free, positive, -⟩ := fresh.groups id node present i socket info at' variadic
        have run : Run socket.defIndex info.base info.max [] [socket.bare] :=
          ⟨positive, by simp [Members], by simp [Numbered], .inl ⟨positive, _, rfl, rfl, by
            show socket.variadic = _
            rw [variadic, ← free]⟩⟩
        exact .group run
    · rw [List.pairwise_map, List.pairwise_map, List.pairwise_iff_getElem]
      intro i j hi hj lt s inside t inside' either same
      cases List.mem_singleton.mp inside
      cases List.mem_singleton.mp inside'
      have left := List.getElem?_eq_getElem hi
      have right := List.getElem?_eq_getElem hj
      rcases either with either | either
      · obtain ⟨info, variadic⟩ := Option.ne_none_iff_exists'.mp either
        have := (fresh.groups id node present i _ info left variadic).2.2 j _ right same.symm
        omega
      · obtain ⟨info, variadic⟩ := Option.ne_none_iff_exists'.mp either
        have := (fresh.groups id node present j _ info right variadic).2.2 i _ left same
        omega
  · intro id n frame
    obtain ⟨node, present, shape⟩ := Option.map_eq_some_iff.mp frame
    obtain ⟨kind, rfl⟩ := Prod.mk.inj shape
    obtain ⟨inputs, outputs⟩ := fresh.reroutes id node present kind
    refine ⟨fun none => outputs (List.eq_nil_of_length_eq_zero none),
      node.inputs.map Socket.bare, ?_, ?_⟩
    · simp [GraphState.wiring, present]
    · simpa using inputs

end Fresh

section Invariant

variable {start g g' : GraphState}

/-- Both ends of every link, the groups and the reroutes. -/
structure Sound (start g : GraphState) : Prop where
  core : g.wiring.Core
  groups : start.wiring.KeepsGroups g.wiring
  source : ∀ c ∈ g.connections, g.wiring.frame c.source.node ≠ none
  acyclic : g.wiring.NoRerouteCycle

theorem frame_ne_none {id : NodeId} : g.wiring.frame id ≠ none ↔ ∃ node, g.node? id = some node := by
  rw [Option.ne_none_iff_exists']
  constructor
  · rintro ⟨x, found⟩
    obtain ⟨node, present, -⟩ := Option.map_eq_some_iff.mp found
    exact ⟨node, present⟩
  · rintro ⟨node, present⟩
    exact ⟨_, Option.map_eq_some_iff.mpr ⟨node, present, rfl⟩⟩

theorem ExistingInput.present {socket : SocketId} (exists' : ExistingInput g socket) :
    g.wiring.Present socket.node socket.index := by
  obtain ⟨-, node, found, bound⟩ := exists'
  refine ⟨_, (@socket?_self _ _ (node.inputs.map Socket.bare) _ ?_).trans
    (List.getElem?_eq_getElem (by simpa using bound))⟩
  simp [GraphState.wiring, found]

theorem groupAt_of_core (core : g.wiring.Core) {id : NodeId} {node : Node}
    (present : g.node? id = some node) {s : Socket} (inside : s ∈ node.inputs) {info : VariadicInfo}
    (variadic : s.variadic = some info) :
    GroupAt (fun k => ∃ c ∈ g.connections, c.target = ⟨id, k, .input⟩) node.inputs s.defIndex
      info.base info.max := by
  have here : g.wiring.inputs id = some (node.inputs.map Socket.bare) := by
    simp [GraphState.wiring, present]
  obtain ⟨i, at'⟩ := List.mem_iff_getElem?.mp inside
  have found : (node.inputs.map Socket.bare)[i]? = some s.bare := by rw [List.getElem?_map, at']; rfl
  obtain ⟨before', members', tail', after', located, -, -⟩ :=
    (core.grouped id _ here).locate found (show s.bare.variadic = some info from variadic)
  obtain ⟨front, after, split, frontMap, rfl⟩ := List.map_eq_append_iff.mp located.split
  obtain ⟨before, run, rfl, rfl, runMap⟩ := List.map_eq_append_iff.mp frontMap
  obtain ⟨members, tail, rfl, rfl, rfl⟩ := List.map_eq_append_iff.mp runMap
  have occupied := core.occupied
  have stands : ∀ k t, node.inputs[k]? = some t → g.wiring.socket? id k = some t.bare := by
    intro k t there
    rw [socket?_self here, List.getElem?_map, there]
    rfl
  refine ⟨before, members, tail, after, split, ?_, ?_, ?_, ?_⟩
  · exact fun t ht => located.left t.bare (List.mem_map_of_mem ht)
  · exact fun t ht => located.right t.bare (List.mem_map_of_mem ht)
  · intro j m there
    have mapped : (members.map Socket.bare)[j]? = some m.bare := by
      rw [List.getElem?_map, there]
      rfl
    obtain ⟨index, own⟩ := located.run.uniform m.bare (List.mem_of_getElem? mapped)
    refine ⟨index, own, ?_, ?_⟩
    · have name := located.run.numbered j m.bare mapped
      rwa [Nat.zero_add] at name
    · have bound : j < members.length := (List.getElem?_eq_some_iff.mp there).1
      have global : node.inputs[before.length + j]? = some m := by
        rw [split, List.append_assoc, List.getElem?_append_right (by omega),
          List.append_assoc, List.getElem?_append_left (by omega)]
        simpa using there
      have own' : m.variadic = some ⟨info.base, info.max, false⟩ := own
      exact (occupied id _ _ (stands _ m global) not_false).1 (by
        show m.isVariadicMember = true
        simp [Socket.isVariadicMember, own'])
  · have last := located.run.last
    rw [List.length_map] at last
    split
    next room =>
      rcases last with ⟨-, p, only, index, own⟩ | ⟨full, -⟩
      · obtain ⟨q, rfl, rfl⟩ := List.map_eq_singleton_iff.mp only
        refine ⟨q, rfl, index, own, fun connected => ?_⟩
        have global : node.inputs[before.length + members.length]? = some q := by
          rw [split, List.append_assoc, List.getElem?_append_right (by omega),
            List.append_assoc, List.getElem?_append_right (by omega)]
          simp
        have own' : q.variadic = some ⟨info.base, info.max, true⟩ := own
        exact (occupied id _ _ (stands _ q global) not_false).2 (by
          show q.isVariadicPlaceholder = true
          simp [Socket.isVariadicPlaceholder, own']) connected
      · omega
    next full =>
      rcases last with ⟨room, -⟩ | ⟨full, none⟩
      · exact absurd room full
      · exact ⟨full, List.map_eq_nil_iff.mp none⟩

theorem hasGroup_bare {l : List Socket} {d : Nat} {base : String} {max : Nat} :
    HasGroup (l.map Socket.bare) d base max ↔ HasGroup l d base max := by
  constructor
  · rintro ⟨s, inside, own⟩
    obtain ⟨socket, member, rfl⟩ := List.mem_map.mp inside
    exact ⟨socket, member, own⟩
  · rintro ⟨s, inside, own⟩
    exact ⟨s.bare, List.mem_map_of_mem inside, own⟩

theorem Sound.consistent (sound : Sound start g) : Consistent start g := by
  refine ⟨fun c inside => ?_, fun c inside => frame_ne_none.mp (sound.source c inside),
    sound.core.linked.once, fun id node present => ?_⟩
  · obtain ⟨direction, l, here, bound⟩ := sound.core.linked.target c inside
    obtain ⟨node, present, rfl⟩ := GraphState.wiring_inputs here
    exact ⟨direction, node, present, by simpa using bound⟩
  · obtain ⟨l, there, bare⟩ := sound.groups id (node.inputs.map Socket.bare) (by simp [GraphState.wiring, present])
    obtain ⟨first, begun, rfl⟩ := GraphState.wiring_inputs there
    have same : SameGroups first.inputs node.inputs := fun d base max =>
      hasGroup_bare.symm.trans ((bare d base max).trans hasGroup_bare)
    refine ⟨first, begun, same, fun d base max has => ?_⟩
    obtain ⟨s, inside, rfl, placeholder, variadic⟩ := (same d base max).mpr has
    exact groupAt_of_core sound.core present inside variadic

/-- What an edit does to the rest: the other nodes stay, and each other link keeps its output and its input,
wherever the input now stands. -/
def Faithful (e : Edit) (g g' : GraphState) : Prop :=
  (∀ id, (∃ node, g'.node? id = some node) ↔ (∃ node, g.node? id = some node) ∧ e.removed ≠ some id) ∧
  ∃ shift, g'.connections = (e.kept g).map (Connection.move shift) ++ e.added g ∧
    Wiring.Carries g.wiring g'.wiring
      (fun n k => g.wiring.Kept (e.kept g) n k ∧ ∃ node, g'.node? n = some node) shift

variable {shift : NodeId → Nat → Nat}

theorem sound_of_edited {kept added : List Connection} (edited : Wiring.Edited g.wiring g'.wiring kept added shift)
    (acyclic : (g.wiring.connect (kept ++ added)).NoRerouteCycle)
    (groups : start.wiring.KeepsGroups g.wiring)
    (sources : ∀ c ∈ kept ++ added, g.wiring.frame c.source.node ≠ none) : Sound start g' := by
  refine ⟨edited.core, groups.trans edited.groups, ?_, GraphState.noRerouteCycle_edited edited acyclic⟩
  intro c inside
  rw [edited.frame]
  rw [← GraphState.connections_wiring, edited.connections] at inside
  rcases List.mem_append.mp inside with inside | inside
  · obtain ⟨d, member, rfl⟩ := List.mem_map.mp inside
    exact sources d (List.mem_append_left _ member)
  · exact sources c (List.mem_append_right _ inside)

theorem nodes_of_frame {e : Edit} (frame : g'.wiring.frame = g.wiring.frame) (stays : e.removed = none) (id : NodeId) :
    (∃ node, g'.node? id = some node) ↔ (∃ node, g.node? id = some node) ∧ e.removed ≠ some id := by
  rw [← frame_ne_none, ← frame_ne_none, frame, stays]
  simp

theorem faithful_of_edited {e : Edit} (edited : Wiring.Edited g.wiring g'.wiring (e.kept g) (e.added g) shift)
    (stays : e.removed = none) : Faithful e g g' :=
  ⟨nodes_of_frame edited.frame stays, shift, edited.connections, edited.carries.mono fun _ _ h => h.1⟩

theorem unchanged {A : NodeId → Nat → Prop} (same : g'.wiring = g.wiring) :
    ∃ shift, g'.connections = g.connections.map (Connection.move shift) ++ [] ∧
      Wiring.Carries g.wiring g'.wiring (fun n k => g.wiring.Kept g.connections n k ∧ A n k) shift := by
  refine ⟨fun _ k => k, ?_, ?_⟩
  · rw [map_move_id, List.append_nil]
    exact congrArg Wiring.connections same
  · rw [same]
    exact carries_connect (fun n k h => h.1.present) g.connections

theorem Sound.edit (sound : Sound start g) {e : Edit} (allowed : e.Allowed g)
    (acyclic : (g.wiring.connect (e.kept g ++ e.added g)).NoRerouteCycle) :
    ∃ g', e.apply g = some g' ∧ Sound start g' ∧ Faithful e g g' := by
  have fromKept : ∀ cs : List Connection, cs ⊆ g.connections →
      ∀ c ∈ cs ++ [], g.wiring.frame c.source.node ≠ none := by
    intro cs sub c inside
    rw [List.append_nil] at inside
    exact sound.source c (sub inside)
  have output : ∀ {socket : SocketId}, ExistingOutput g socket →
      g.wiring.frame socket.node ≠ none := fun exists' =>
    frame_ne_none.mpr ⟨exists'.2.choose, exists'.2.choose_spec.1⟩
  cases e with
  | addConnection source target =>
    obtain ⟨g', shift, run, edited⟩ := @GraphState.addConnection_edited g source target sound.core
      allowed.2.present allowed.2.1 acyclic
    refine ⟨g', run, sound_of_edited edited acyclic sound.groups ?_, faithful_of_edited edited rfl⟩
    intro c inside
    rcases List.mem_append.mp inside with inside | inside
    · exact sound.source c (List.mem_of_mem_filter inside)
    · cases List.mem_singleton.mp inside
      exact output allowed.1
  | disconnectInput target =>
    obtain ⟨g', removed, shift, run, edited⟩ :=
      GraphState.disconnectInput_edited sound.core sound.acyclic target
    exact ⟨g', by simp [Edit.apply, run], sound_of_edited edited acyclic sound.groups
      (fromKept _ (List.filter_sublist.subset)), faithful_of_edited edited rfl⟩
  | removeConnectionAt index =>
    have at' : g.connections[index]? = some (g.connections.get ⟨index, allowed⟩) :=
      List.getElem?_eq_getElem allowed
    obtain ⟨g', shift, run, edited⟩ :=
      GraphState.removeConnectionAt_edited sound.core sound.acyclic at'
    exact ⟨g', by simp [Edit.apply, run], sound_of_edited edited acyclic sound.groups
      (fromKept _ (List.eraseIdx_sublist _ _).subset), faithful_of_edited edited rfl⟩
  | insertVariadicConnection source target =>
    obtain ⟨g', shift, run, edited⟩ :=
      @GraphState.insertVariadicConnection_edited g source target sound.core acyclic
    refine ⟨g', by simp [Edit.apply, run], sound_of_edited edited acyclic sound.groups ?_,
      faithful_of_edited edited rfl⟩
    intro c inside
    rcases List.mem_append.mp inside with inside | inside
    · exact sound.source c inside
    · split at inside
      · cases List.mem_singleton.mp inside
        exact output allowed
      · cases inside
  | removeNode id =>
    cases present : g.node? id with
    | none =>
      have all : Edit.kept g (.removeNode id) = g.connections := by
        refine List.filter_eq_self.mpr fun c inside => decide_eq_true ⟨?_, ?_⟩
        · rintro rfl
          obtain ⟨-, node, found, -⟩ := sound.consistent.target c inside
          rw [present] at found
          cases found
        · rintro rfl
          obtain ⟨node, found⟩ := sound.consistent.source c inside
          rw [present] at found
          cases found
      refine ⟨g, by simp [Edit.apply, GraphState.removeNode, present], sound, fun n => ?_, ?_⟩
      · refine ⟨fun found => ⟨found, ?_⟩, fun found => found.1⟩
        rintro same
        cases same
        simp [present] at found
      · rw [all]
        exact unchanged rfl
    | some node =>
      obtain ⟨g', shift, run, core, frame, groups, wires, carries⟩ :=
        GraphState.removeNode_edited sound.core sound.acyclic present
      have member : ∀ c ∈ g'.connections, ∃ d ∈ g.connections, d.target.node ≠ id ∧
          d.source.node ≠ id ∧ d.move shift = c := by
        intro c inside
        rw [wires] at inside
        obtain ⟨d, kept, rfl⟩ := List.mem_map.mp inside
        obtain ⟨before, off⟩ := List.mem_filter.mp kept
        have off : d.target.node ≠ id ∧ d.source.node ≠ id := of_decide_eq_true off
        exact ⟨d, before, off.1, off.2, rfl⟩
      refine ⟨g', run, ⟨core, sound.groups.trans groups, ?_, ?_⟩, fun n => ?_, shift, by rw [wires]; exact (List.append_nil _).symm, ?_⟩
      · intro c inside
        obtain ⟨d, before, -, off, rfl⟩ := member c inside
        rw [frame]
        show (if d.source.node = id then none else g.wiring.frame d.source.node) ≠ none
        rw [if_neg off]
        exact sound.source d before
      · refine GraphState.noRerouteCycle_of_edges sound.acyclic ?_
        rintro a b ⟨⟨n, reroute⟩, c, inside, leaves, enters⟩
        obtain ⟨d, before, -, off, rfl⟩ := member c inside
        have leaves : d.source = ⟨a, 0, .output⟩ := leaves
        have other : a ≠ id := by
          rw [leaves] at off
          exact off
        have reroute : (if a = id then none else g.wiring.frame a) = some (.reroute, n) := by
          rw [← reroute, frame]
        rw [if_neg other] at reroute
        exact ⟨⟨n, reroute⟩, d, before, leaves, enters⟩
      · rw [← frame_ne_none, ← frame_ne_none, frame]
        by_cases same : n = id <;> simp [Edit.removed, same, Ne.symm]
      · refine carries.mono fun n k h => ⟨h.1, ?_⟩
        rintro rfl
        have stays := frame_ne_none.mpr h.2
        rw [frame] at stays
        exact stays (if_pos rfl)
  | pruneUnconnectedResolutions ids =>
    obtain ⟨g', run, same⟩ := GraphState.pruneUnconnectedResolutions_wiring sound.core ids
    have wires : g'.connections = g.connections := congrArg Wiring.connections same
    refine ⟨g', run, ⟨?_, ?_, ?_, ?_⟩, nodes_of_frame (by rw [same]) rfl, unchanged same⟩
    all_goals rw [same]
    · exact sound.core
    · exact sound.groups
    · rw [wires]
      exact sound.source
    · exact sound.acyclic

theorem Reachable.sound (reachable : Reachable start g) : Sound start g := by
  induction reachable with
  | fresh fresh =>
    refine ⟨fresh.core, keepsGroups_connect start.connections, by simp [fresh.unlinked], fun a cycle => ?_⟩
    obtain ⟨b, ⟨-, c, inside, -⟩, -⟩ := Relation.TransGen.head'_iff.mp cycle
    rw [GraphState.connections_wiring, fresh.unlinked] at inside
    cases inside
  | edit _ allowed acyclic run sound =>
    obtain ⟨g', run', sound', -⟩ := sound.edit allowed acyclic
    cases run.symm.trans run'
    exact sound'

/-- In every document that edits lead to, links and groups fit together, and every further edit
answers and moves each other link with its input. -/
theorem document_edits_keep_links_and_groups (start g : GraphState) (reachable : Reachable start g) :
    Consistent start g ∧ ∀ e : Edit, e.Allowed g →
      (g.wiring.connect (e.kept g ++ e.added g)).NoRerouteCycle →
        ∃ g', e.apply g = some g' ∧ Consistent start g' ∧ Faithful e g g' := by
  refine ⟨reachable.sound.consistent, fun e allowed acyclic => ?_⟩
  obtain ⟨g', run, sound, faithful⟩ := reachable.sound.edit allowed acyclic
  exact ⟨g', run, sound.consistent, faithful⟩

end Invariant

def signalSocket (info : Option VariadicInfo) : Socket := ⟨"", "Ch", "Signal", [], none, 0, info, true⟩

def twoChannels : GraphState where
  nodes := (AList.insert 0 ⟨.regular, "", "source", [], [signalSocket none, signalSocket none], false,
    .null⟩ ∅).insert 1 ⟨.regular, "", "group", [signalSocket (some ⟨"Ch", 2, true⟩)], [], false, .null⟩
  connections := []
  semanticRevision := 0

theorem twoChannels_node {id : NodeId} {node : Node} (present : twoChannels.node? id = some node) :
    id = 0 ∧ node.inputs = [] ∧ node.kind = .regular ∨
      id = 1 ∧ node.inputs = [signalSocket (some ⟨"Ch", 2, true⟩)] ∧ node.kind = .regular := by
  by_cases second : id = 1
  · subst second
    cases present
    exact .inr ⟨rfl, rfl, rfl⟩
  · by_cases first : id = 0
    · subst first
      cases present
      exact .inl ⟨rfl, rfl, rfl⟩
    · unfold GraphState.node? twoChannels at present
      rw [AList.lookup_insert_ne second, AList.lookup_insert_ne first] at present
      cases present

theorem twoChannels_fresh : Fresh twoChannels := by
  refine ⟨rfl, ?_, ?_⟩
  · intro id node present i s info found variadic
    rcases twoChannels_node present with ⟨-, inputs, -⟩ | ⟨-, inputs, -⟩
    · rw [inputs] at found
      simp at found
    · rw [inputs] at found ⊢
      have zero : ∀ (j : Nat) (t : Socket), [signalSocket (some ⟨"Ch", 2, true⟩)][j]? = some t →
          j = 0 := by
        intro j t there
        have := (List.getElem?_eq_some_iff.mp there).1
        simpa using this
      cases zero i s found
      cases found
      cases variadic
      exact ⟨rfl, by decide, fun j t there _ => zero j t there⟩
  · intro id node present kind
    rcases twoChannels_node present with ⟨-, -, regular⟩ | ⟨-, -, regular⟩ <;>
      · rw [regular] at kind
        cases kind

theorem twoChannels_noRerouteCycle (cs : List Connection) :
    (twoChannels.wiring.connect cs).NoRerouteCycle := by
  intro a cycle
  obtain ⟨b, ⟨⟨n, reroute⟩, -⟩, -⟩ := Relation.TransGen.head'_iff.mp cycle
  obtain ⟨node, present, shape⟩ := Option.map_eq_some_iff.mp reroute
  have kind := (Prod.mk.inj shape).1
  rcases twoChannels_node present with ⟨-, -, regular⟩ | ⟨-, -, regular⟩ <;>
    · rw [regular] at kind
      cases kind

def firstLink : Edit := .addConnection ⟨0, 1, .output⟩ ⟨1, 0, .input⟩

theorem document_edits_keep_links_and_groups_first_link :
    ∃ g', firstLink.apply twoChannels = some g' ∧ Consistent twoChannels g' ∧ Faithful firstLink twoChannels g' ∧
      g'.connections = [⟨⟨0, 1, .output⟩, ⟨1, 0, .input⟩⟩] := by
  obtain ⟨g', run, consistent, faithful⟩ :=
    (document_edits_keep_links_and_groups twoChannels twoChannels (.fresh twoChannels_fresh)).2 firstLink
      ⟨⟨rfl, _, rfl, by decide⟩, rfl, _, rfl, by decide⟩ (twoChannels_noRerouteCycle _)
  refine ⟨g', run, consistent, faithful, ?_⟩
  obtain ⟨-, shift, wires, -⟩ := faithful
  exact wires

end LogicConduit.Document
