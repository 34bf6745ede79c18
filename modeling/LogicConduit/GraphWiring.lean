import LogicConduit.VariadicGroups

namespace LogicConduit.Document

def Socket.logical (socket : Socket) : Socket := { socket with name := "", resolvedType := none }

def SocketId.move (shift : NodeId → Nat → Nat) (id : SocketId) : SocketId :=
  { id with index := shift id.node id.index }

def Connection.move (shift : NodeId → Nat → Nat) (c : Connection) : Connection :=
  { c with target := c.target.move shift }

def up (id : NodeId) (index : Nat) : NodeId → Nat → Nat :=
  fun n k => if n = id ∧ index ≤ k then k + 1 else k

def down (id : NodeId) (index : Nat) : NodeId → Nat → Nat :=
  fun n k => if n = id ∧ index < k then k - 1 else k

theorem shiftUp_eq (id : NodeId) (index : Nat) :
    Connection.shiftUp id index = Connection.move (up id index) := by
  funext c
  unfold Connection.shiftUp Connection.move SocketId.move up
  split <;> rfl

theorem shiftDown_eq (id : NodeId) (index : Nat) :
    Connection.shiftDown id index = Connection.move (down id index) := by
  funext c
  unfold Connection.shiftDown Connection.move SocketId.move down
  split <;> rfl

variable {id n : NodeId} {index j k : Nat}

theorem up_lt (lt : j < k) : up id index n j < up id index n k := by
  grind [up]

theorem up_inj (same : up id index n j = up id index n k) : j = k := by
  grind [up]

theorem down_lt (hj : ¬(n = id ∧ j = index)) (hk : ¬(n = id ∧ k = index)) (lt : j < k) :
    down id index n j < down id index n k := by
  grind [down]

theorem down_inj (hj : ¬(n = id ∧ j = index)) (hk : ¬(n = id ∧ k = index))
    (same : down id index n j = down id index n k) : j = k := by
  grind [down]

theorem up_ne {id : NodeId} {index k : Nat} : up id index id k ≠ index := by
  grind [up]

variable {i k : Nat} {α : Type*}

theorem getElem?_up (l : List α) (x : α) (id : NodeId) : (l.insertIdx i x)[up id i id k]? = l[k]? := by
  grind [up]

theorem exists_up {id : NodeId} (other : k ≠ i) : ∃ j, up id i id j = k := by
  by_cases below : k < i
  · exact ⟨k, by grind [up]⟩
  · exact ⟨k - 1, by grind [up]⟩

theorem getElem?_down (l : List α) (id : NodeId) (other : k ≠ i) :
    (l.eraseIdx i)[down id i id k]? = l[k]? := by
  grind [down]

theorem exists_down (id : NodeId) (i k : Nat) : ∃ j, j ≠ i ∧ down id i id j = k := by
  by_cases below : k < i
  · exact ⟨k, by grind [down]⟩
  · exact ⟨k + 1, by grind [down]⟩

/-- What edits are about: the nodes with their kind and number of outputs, their inputs without
resolved types, and the connections. -/
structure Wiring where
  frame : NodeId → Option (NodeKind × Nat)
  inputs : NodeId → Option (List Socket)
  connections : List Connection

namespace Wiring

def socket? (w : Wiring) (id : NodeId) (index : Nat) : Option Socket :=
  (w.inputs id).bind fun l => l[index]?

def Connected (w : Wiring) (id : NodeId) (index : Nat) : Prop :=
  ∃ c ∈ w.connections, c.target = ⟨id, index, .input⟩

def connect (w : Wiring) (connections : List Connection) : Wiring :=
  { w with connections := connections }

def relabel (w : Wiring) (id : NodeId) (l : List Socket) : Wiring :=
  { w with inputs := Function.update w.inputs id (some l) }

def insertAt (w : Wiring) (id : NodeId) (l : List Socket) (index : Nat) (socket : Socket) : Wiring :=
  (w.relabel id (l.insertIdx index socket)).connect
    (w.connections.map (Connection.shiftUp id index))

def removeAt (w : Wiring) (id : NodeId) (l : List Socket) (index : Nat) : Wiring :=
  (w.relabel id (l.eraseIdx index)).connect
    ((w.connections.filter fun c => ¬(c.target.node = id ∧ c.target.index = index)).map
      (Connection.shiftDown id index))

structure Linked (w : Wiring) : Prop where
  target : ∀ c ∈ w.connections, c.target.direction = .input ∧
    ∃ l, w.inputs c.target.node = some l ∧ c.target.index < l.length
  once : (w.connections.map Connection.target).Nodup

def Occupied (w : Wiring) (except : NodeId → Nat → Prop) : Prop :=
  ∀ id k s, w.socket? id k = some s → ¬ except id k →
    (s.isVariadicMember = true → w.Connected id k) ∧
      (s.isVariadicPlaceholder = true → ¬ w.Connected id k)

def spot (id : NodeId) (index : Nat) : NodeId → Nat → Prop := fun n k => n = id ∧ k = index

def nowhere : NodeId → Nat → Prop := fun _ _ => False

/-- The inputs at the places `A` stand, in their order, where `shift` says. -/
structure Carries (w w' : Wiring) (A : NodeId → Nat → Prop) (shift : NodeId → Nat → Nat) : Prop where
  same : ∀ n k, A n k → ∃ s s', w.socket? n k = some s ∧ w'.socket? n (shift n k) = some s' ∧
    s'.logical = s.logical
  ordered : ∀ n j k, A n j → A n k → j < k → shift n j < shift n k

section Places

variable {w w' w'' : Wiring} {A B : NodeId → Nat → Prop} {f g : NodeId → Nat → Nat}

theorem Carries.mono (h : Carries w w' B f) (sub : ∀ n k, A n k → B n k) : Carries w w' A f :=
  ⟨fun n k hk => h.same n k (sub n k hk),
    fun n j k hj hk => h.ordered n j k (sub n j hj) (sub n k hk)⟩

theorem Carries.trans (h : Carries w w' A f) (h' : Carries w' w'' B g)
    (into : ∀ n k, A n k → B n (f n k)) : Carries w w'' A fun n k => g n (f n k) := by
  refine ⟨fun n k hk => ?_, fun n j k hj hk lt => ?_⟩
  · obtain ⟨s, s', found, found', same⟩ := h.same n k hk
    obtain ⟨t, t', here, here', same'⟩ := h'.same n (f n k) (into n k hk)
    cases found'.symm.trans here
    exact ⟨s, t', found, here', same'.trans same⟩
  · exact h'.ordered n _ _ (into n j hj) (into n k hk) (h.ordered n j k hj hk lt)

end Places

section Primitives

variable {w : Wiring} {id : NodeId} {l l' : List Socket} {i : Nat} {s : Socket}

variable {n : NodeId} {k : Nat}

theorem socket?_relabel_ne (other : n ≠ id) : (w.relabel id l').socket? n k = w.socket? n k := by
  simp [socket?, relabel, Function.update_of_ne other]

theorem socket?_relabel : (w.relabel id l').socket? id k = l'[k]? := by
  simp [socket?, relabel]

theorem socket?_self (here : w.inputs id = some l) : w.socket? id k = l[k]? := by
  simp [socket?, here]

theorem connected_move {f : NodeId → Nat → Nat} {cs : List Connection} :
    (w.connect (cs.map (Connection.move f))).Connected n k ↔
      ∃ j, (w.connect cs).Connected n j ∧ f n j = k := by
  constructor
  · rintro ⟨c, inside, target⟩
    obtain ⟨d, member, rfl⟩ := List.mem_map.mp inside
    have parts := SocketId.mk.inj target
    obtain ⟨node, index, direction⟩ := parts
    refine ⟨d.target.index, ⟨d, member, ?_⟩, ?_⟩
    · rw [← node, ← direction]
    · rw [← node]
      exact index
  · rintro ⟨j, ⟨d, member, target⟩, rfl⟩
    refine ⟨d.move f, List.mem_map_of_mem member, ?_⟩
    simp [Connection.move, SocketId.move, target]

theorem Linked.insertAt (linked : Linked w) (here : w.inputs id = some l) (bound : i ≤ l.length) :
    Linked (w.insertAt id l i s) := by
  refine ⟨?_, ?_⟩
  · intro c inside
    obtain ⟨d, member, rfl⟩ := List.mem_map.mp inside
    obtain ⟨direction, l', found, short⟩ := linked.target d member
    rw [shiftUp_eq]
    refine ⟨direction, ?_⟩
    show ∃ l'', Function.update w.inputs id _ d.target.node = some l'' ∧
      up id i d.target.node d.target.index < l''.length
    by_cases at' : d.target.node = id
    · rw [at', Function.update_self]
      rw [at', here] at found
      cases found
      refine ⟨_, rfl, ?_⟩
      rw [List.length_insertIdx, if_pos bound]
      grind [up]
    · rw [Function.update_of_ne at']
      refine ⟨l', found, ?_⟩
      unfold up
      rw [if_neg (fun both => at' both.1)]
      exact short
  · show ((w.connections.map (Connection.shiftUp id i)).map Connection.target).Nodup
    have moved : (w.connections.map (Connection.shiftUp id i)).map Connection.target =
        (w.connections.map Connection.target).map (SocketId.move (up id i)) := by
      rw [shiftUp_eq, List.map_map, List.map_map]
      rfl
    rw [moved]
    refine linked.once.map ?_
    intro a b same
    obtain ⟨node, index, direction⟩ := SocketId.mk.inj same
    obtain ⟨n, k, dir⟩ := a
    obtain ⟨n', k', dir'⟩ := b
    cases node
    cases direction
    cases up_inj index
    rfl

theorem Linked.removeAt (linked : Linked w) (here : w.inputs id = some l) :
    Linked (w.removeAt id l i) := by
  refine ⟨?_, ?_⟩
  · intro c inside
    obtain ⟨d, member, rfl⟩ := List.mem_map.mp inside
    obtain ⟨member, other⟩ := List.mem_filter.mp member
    have other : ¬(d.target.node = id ∧ d.target.index = i) := of_decide_eq_true other
    obtain ⟨direction, l', found, short⟩ := linked.target d member
    rw [shiftDown_eq]
    refine ⟨direction, ?_⟩
    show ∃ l'', Function.update w.inputs id _ d.target.node = some l'' ∧
      down id i d.target.node d.target.index < l''.length
    by_cases at' : d.target.node = id
    · rw [at', Function.update_self]
      rw [at', here] at found
      cases found
      refine ⟨_, rfl, ?_⟩
      rw [List.length_eraseIdx]
      grind [down]
    · rw [Function.update_of_ne at']
      refine ⟨l', found, ?_⟩
      unfold down
      rw [if_neg (fun both => at' both.1)]
      exact short
  · show (List.map Connection.target (List.map (Connection.shiftDown id i) _)).Nodup
    rw [shiftDown_eq, List.map_map]
    have kept := linked.once.filter fun t => decide ¬(t.node = id ∧ t.index = i)
    rw [List.filter_map] at kept
    have moved := List.Nodup.map_on (f := SocketId.move (down id i)) (by
      intro a ha b hb same
      obtain ⟨node, index, direction⟩ := SocketId.mk.inj same
      obtain ⟨c, hc, rfl⟩ := List.mem_map.mp ha
      obtain ⟨d, hd, rfl⟩ := List.mem_map.mp hb
      have offC : ¬(c.target.node = id ∧ c.target.index = i) :=
        of_decide_eq_true (List.mem_filter.mp hc).2
      have offD : ¬(d.target.node = id ∧ d.target.index = i) :=
        of_decide_eq_true (List.mem_filter.mp hd).2
      rw [← node] at index offD
      have indices := down_inj offC offD index
      cases hct : c.target
      cases hdt : d.target
      rw [hct, hdt] at node direction indices
      cases node
      cases direction
      cases indices
      rfl) kept
    rw [List.map_map] at moved
    exact moved

theorem socket?_insertAt (here : w.inputs id = some l) (n : NodeId) (k : Nat) :
    (w.insertAt id l i s).socket? n (up id i n k) = w.socket? n k := by
  by_cases at' : n = id
  · subst at'
    exact socket?_relabel.trans ((getElem?_up l s n).trans (socket?_self here).symm)
  · have fixed : up id i n k = k := if_neg fun both => at' both.1
    rw [fixed]
    exact socket?_relabel_ne at'

theorem socket?_inserted (bound : i ≤ l.length) : (w.insertAt id l i s).socket? id i = some s := by
  refine socket?_relabel.trans ?_
  rw [List.getElem?_insertIdx_self, if_pos bound]

theorem socket?_removeAt (here : w.inputs id = some l) (off : ¬ spot id i n k) :
    (w.removeAt id l i).socket? n (down id i n k) = w.socket? n k := by
  by_cases at' : n = id
  · subst at'
    exact socket?_relabel.trans ((getElem?_down l n fun same => off ⟨rfl, same⟩).trans
      (socket?_self here).symm)
  · have fixed : down id i n k = k := if_neg fun both => at' both.1
    rw [fixed]
    exact socket?_relabel_ne at'

theorem connected_insertAt :
    (w.insertAt id l i s).Connected n k ↔ ∃ j, w.Connected n j ∧ up id i n j = k := by
  unfold Wiring.insertAt
  rw [shiftUp_eq]
  exact connected_move

theorem connected_removeAt :
    (w.removeAt id l i).Connected n k ↔
      ∃ j, w.Connected n j ∧ ¬ spot id i n j ∧ down id i n j = k := by
  unfold Wiring.removeAt
  rw [shiftDown_eq]
  refine connected_move.trans (exists_congr fun j => ?_)
  constructor
  · rintro ⟨⟨c, inside, target⟩, rfl⟩
    obtain ⟨inside, off⟩ := List.mem_filter.mp inside
    have off : ¬(c.target.node = id ∧ c.target.index = i) := of_decide_eq_true off
    rw [target] at off
    exact ⟨⟨c, inside, target⟩, off, rfl⟩
  · rintro ⟨⟨c, inside, target⟩, off, rfl⟩
    refine ⟨⟨c, List.mem_filter.mpr ⟨inside, decide_eq_true ?_⟩, target⟩, rfl⟩
    rw [target]
    exact off

theorem not_connected_inserted : ¬ (w.insertAt id l i s).Connected id i := by
  rw [connected_insertAt]
  rintro ⟨j, -, same⟩
  exact up_ne same

theorem exists_up_off (off : ¬ spot id i n k) : ∃ j, up id i n j = k := by
  by_cases at' : n = id
  · subst at'
    exact exists_up fun same => off ⟨rfl, same⟩
  · exact ⟨k, if_neg fun both => at' both.1⟩

theorem exists_down_off (id n : NodeId) (i k : Nat) : ∃ j, ¬ spot id i n j ∧ down id i n j = k := by
  by_cases at' : n = id
  · subst at'
    obtain ⟨j, other, same⟩ := exists_down n i k
    exact ⟨j, fun both => other both.2, same⟩
  · exact ⟨k, fun both => at' both.1, if_neg fun both => at' both.1⟩

theorem Occupied.insertAt (occupied : Occupied w nowhere) (here : w.inputs id = some l) :
    Occupied (w.insertAt id l i s) (spot id i) := by
  intro n k t found off
  obtain ⟨j, rfl⟩ := exists_up_off off
  rw [socket?_insertAt here] at found
  obtain ⟨member, placeholder⟩ := occupied n j t found not_false
  refine ⟨fun h => connected_insertAt.mpr ⟨j, member h, rfl⟩, fun h => ?_⟩
  rintro connected
  obtain ⟨j', connected, same⟩ := connected_insertAt.mp connected
  cases up_inj same
  exact placeholder h connected

theorem Occupied.insertPlaceholder (occupied : Occupied w nowhere) (here : w.inputs id = some l)
    (bound : i ≤ l.length) (free : s.isVariadicMember = false) :
    Occupied (w.insertAt id l i s) nowhere := by
  intro n k t found _
  by_cases at' : spot id i n k
  · obtain ⟨rfl, rfl⟩ := at'
    rw [socket?_inserted bound] at found
    cases found
    exact ⟨fun h => by simp [free] at h, fun _ => not_connected_inserted⟩
  · exact occupied.insertAt here n k t found at'

theorem Occupied.removeAt (occupied : Occupied w (spot id i)) (here : w.inputs id = some l) :
    Occupied (w.removeAt id l i) nowhere := by
  intro n k t found _
  obtain ⟨j, off, rfl⟩ := exists_down_off id n i k
  rw [socket?_removeAt here off] at found
  obtain ⟨member, placeholder⟩ := occupied n j t found off
  refine ⟨fun h => connected_removeAt.mpr ⟨j, member h, off, rfl⟩, fun h => ?_⟩
  rintro connected
  obtain ⟨j', connected, off', same⟩ := connected_removeAt.mp connected
  cases down_inj off' off same
  exact placeholder h connected

variable {A : NodeId → Nat → Prop} {a b : Socket}

theorem Occupied.weaken (occupied : Occupied w nowhere) : Occupied w A :=
  fun n k t found _ => occupied n k t found not_false

def Present (w : Wiring) (n : NodeId) (k : Nat) : Prop := ∃ s, w.socket? n k = some s

theorem Carries.insertAt (here : w.inputs id = some l) :
    Carries w (w.insertAt id l i s) w.Present (up id i) := by
  refine ⟨fun n k present => ?_, fun n j k _ _ lt => up_lt lt⟩
  obtain ⟨t, found⟩ := present
  exact ⟨t, t, found, (socket?_insertAt here n k).trans found, rfl⟩

theorem Carries.removeAt (here : w.inputs id = some l) :
    Carries w (w.removeAt id l i) (fun n k => w.Present n k ∧ ¬ spot id i n k) (down id i) := by
  refine ⟨?_, fun n j k hj hk lt => down_lt hj.2 hk.2 lt⟩
  rintro n k ⟨⟨t, found⟩, off⟩
  exact ⟨t, t, found, (socket?_removeAt here off).trans found, rfl⟩

/-- Inputs rewritten in place, apart from some places. -/
def Alike (l l' : List Socket) (except : Nat → Prop) : Prop :=
  l'.length = l.length ∧ ∀ k, ¬ except k → (l'[k]?).map Socket.logical = (l[k]?).map Socket.logical

theorem Alike.of_map (same : l'.map Socket.logical = l.map Socket.logical) (except : Nat → Prop) :
    Alike l l' except := by
  refine ⟨by simpa using congrArg List.length same, fun k _ => ?_⟩
  rw [← List.getElem?_map, same, List.getElem?_map]

theorem Linked.relabel (linked : Linked w) (here : w.inputs id = some l)
    (length : l'.length = l.length) : Linked (w.relabel id l') := by
  refine ⟨fun c inside => ?_, linked.once⟩
  obtain ⟨direction, l'', found, short⟩ := linked.target c inside
  refine ⟨direction, ?_⟩
  by_cases at' : c.target.node = id
  · rw [at', here] at found
    cases found
    exact ⟨l', by simp [Wiring.relabel, at'], by omega⟩
  · exact ⟨l'', by simp [Wiring.relabel, Function.update_of_ne at', found], short⟩

theorem logical_variadic (same : a.logical = b.logical) : a.variadic = b.variadic := by
  have infos := congrArg Socket.variadic same
  exact infos

theorem logical_member (same : a.logical = b.logical) :
    a.isVariadicMember = b.isVariadicMember ∧ a.isVariadicPlaceholder = b.isVariadicPlaceholder := by
  simp [Socket.isVariadicMember, Socket.isVariadicPlaceholder, logical_variadic same]

theorem Occupied.relabel (occupied : Occupied w A) (here : w.inputs id = some l)
    (alike : Alike l l' (A id)) : Occupied (w.relabel id l') A := by
  intro n k t found off
  by_cases at' : n = id
  · subst at'
    rw [socket?_relabel] at found
    have same := alike.2 k off
    rw [found] at same
    obtain ⟨u, before, logical⟩ := Option.map_eq_some_iff.mp same.symm
    obtain ⟨member, placeholder⟩ := logical_member logical
    rw [← member, ← placeholder]
    exact occupied n k u ((socket?_self here).trans before) off
  · rw [socket?_relabel_ne at'] at found
    exact occupied n k t found off

theorem Carries.relabel {A : Nat → Prop} (here : w.inputs id = some l) (alike : Alike l l' A) :
    Carries w (w.relabel id l') (fun n k => w.Present n k ∧ ¬(n = id ∧ A k)) fun _ k => k := by
  refine ⟨?_, fun n j k _ _ lt => lt⟩
  rintro n k ⟨⟨t, found⟩, off⟩
  by_cases at' : n = id
  · subst at'
    have same := alike.2 k fun h => off ⟨rfl, h⟩
    rw [(socket?_self here).symm.trans found] at same
    obtain ⟨u, after, logical⟩ := Option.map_eq_some_iff.mp same
    exact ⟨t, u, found, socket?_relabel.trans after, logical⟩
  · exact ⟨t, t, found, (socket?_relabel_ne at').trans found, rfl⟩

end Primitives

end Wiring

end LogicConduit.Document
