import LogicConduit.GraphEdits

namespace LogicConduit.Document

namespace Wiring

/-- What every edit keeps. -/
structure Core (w : Wiring) : Prop where
  linked : Linked w
  occupied : Occupied w nowhere
  grouped : ∀ id l, w.inputs id = some l → Grouped l
  reroutes : w.Reroutes

def Kept (w : Wiring) (kept : List Connection) (n : NodeId) (k : Nat) : Prop :=
  ∃ s, w.socket? n k = some s ∧ (s.variadic = none ∨ ∃ c ∈ kept, c.target = ⟨n, k, .input⟩)

/-- Every node of the second wiring has the groups it has in the first. -/
def KeepsGroups (w w' : Wiring) : Prop :=
  ∀ id l', w'.inputs id = some l' → ∃ l, w.inputs id = some l ∧ SameGroups l l'

/-- An edit moved the kept connections with their inputs and put others behind them. -/
structure Edited (w w' : Wiring) (kept added : List Connection) (shift : NodeId → Nat → Nat) :
    Prop where
  core : Core w'
  frame : w'.frame = w.frame
  groups : KeepsGroups w w'
  connections : w'.connections = kept.map (Connection.move shift) ++ added
  carries : Carries w w' (Kept w kept) shift

section Steps

variable {w w' : Wiring} {id : NodeId} {l : List Socket} {i : Nat} {s : Socket} {info : VariadicInfo}
  {source target : SocketId} {kept : List Connection}

variable {n : NodeId} {k : Nat}

theorem Kept.present (h : w.Kept kept n k) : w.Present n k :=
  ⟨h.choose, h.choose_spec.1⟩

theorem Kept.mono {kept' : List Connection} (h : w.Kept kept n k) (sub : kept ⊆ kept') : w.Kept kept' n k := by
  obtain ⟨s, found, plain | ⟨c, inside, target⟩⟩ := h
  · exact ⟨s, found, .inl plain⟩
  · exact ⟨s, found, .inr ⟨c, sub inside, target⟩⟩

theorem Kept.off (h : w.Kept kept n k) (found : w.socket? id i = some s) (variadic : s.variadic ≠ none)
    (free : ∀ c ∈ kept, c.target ≠ ⟨id, i, .input⟩) : ¬ spot id i n k := by
  rintro ⟨rfl, rfl⟩
  obtain ⟨t, found', plain | ⟨c, inside, target⟩⟩ := h
  · cases found.symm.trans found'
    exact variadic plain
  · exact free c inside target

theorem Present.inputs (h : w.Present n k) : ∃ l, w.inputs n = some l ∧ k < l.length := by
  obtain ⟨s, found⟩ := h
  obtain ⟨l, here, inside⟩ := Option.bind_eq_some_iff.mp found
  exact ⟨l, here, (List.getElem?_eq_some_iff.mp inside).1⟩

theorem keepsGroups_connect (cs : List Connection) : KeepsGroups w (w.connect cs) :=
  fun _ l here => ⟨l, here, fun _ _ _ => Iff.rfl⟩

theorem keepsGroups_update {x : List Socket} (here : w.inputs id = some l)
    (inputs : w'.inputs = Function.update w.inputs id (some x)) (same : SameGroups l x) : KeepsGroups w w' := by
  intro n y there
  rw [inputs] at there
  by_cases at' : n = id
  · subst at'
    rw [Function.update_self] at there
    cases there
    exact ⟨l, here, same⟩
  · rw [Function.update_of_ne at'] at there
    exact ⟨y, there, fun _ _ _ => Iff.rfl⟩

theorem Core.rewritten {x : List Socket} (core : Core w) (id : NodeId) (linked : Linked w')
    (occupied : Occupied w' nowhere) (frame : w'.frame = w.frame)
    (inputs : w'.inputs = Function.update w.inputs id (some x)) (grouped : Grouped x)
    (nonempty : x ≠ []) : Core w' := by
  refine ⟨linked, occupied, fun n y here => ?_, fun n outputs reroute => ?_⟩
  · rw [inputs] at here
    by_cases at' : n = id
    · subst at'
      rw [Function.update_self] at here
      cases here
      exact grouped
    · rw [Function.update_of_ne at'] at here
      exact core.grouped n y here
  · rw [frame] at reroute
    obtain ⟨some', y, here, nonempty'⟩ := core.reroutes n outputs reroute
    refine ⟨some', ?_⟩
    rw [inputs]
    by_cases at' : n = id
    · subst at'
      exact ⟨x, Function.update_self _ _ _, nonempty⟩
    · exact ⟨y, (Function.update_of_ne at' _ _).trans here, nonempty'⟩

variable {A : NodeId → Nat → Prop}

variable {shift : NodeId → Nat → Nat}

theorem Carries.congr {v v' : Wiring} (carries : Carries v v' A shift) (left : w.inputs = v.inputs)
    (right : w'.inputs = v'.inputs) : Carries w w' A shift := by
  refine ⟨fun n k h => ?_, carries.ordered⟩
  obtain ⟨s, s', found, found', same⟩ := carries.same n k h
  exact ⟨s, s', by rw [← found, socket?, left, socket?], by rw [← found', socket?, right, socket?],
    same⟩

theorem Carries.present (carries : Carries w w' A shift) (h : A n k) : w'.Present n (shift n k) := by
  obtain ⟨t, t', -, found, -⟩ := carries.same n k h
  exact ⟨t', found⟩

theorem ne_nil_of_length {α : Type*} {x y : List α} (length : x.length = y.length) (bound : k < y.length) : x ≠ [] := by
  intro none
  rw [none, List.length_nil] at length
  omega

theorem Linked.add (source target : SocketId) (linked : Linked w) (present : w.Present target.node target.index)
    (direction : target.direction = .input) :
    Linked (w.connect ((w.connections.filter fun c => c.target ≠ target) ++ [⟨source, target⟩])) := by
  refine ⟨?_, ?_⟩
  · intro c inside
    rcases List.mem_append.mp inside with inside | inside
    · exact linked.target c (List.mem_of_mem_filter inside)
    · cases List.mem_singleton.mp inside
      exact ⟨direction, present.inputs⟩
  · show (List.map Connection.target (_ ++ [_])).Nodup
    rw [List.map_append, List.map_singleton]
    refine List.Nodup.append (linked.once.sublist (List.filter_sublist.map _)) (List.nodup_singleton _) ?_
    intro t inside same
    cases List.mem_singleton.mp same
    obtain ⟨c, member, here⟩ := List.mem_map.mp inside
    exact of_decide_eq_true (List.mem_filter.mp member).2 here

theorem Occupied.add (source target : SocketId)
    (occupied : Occupied w (spot target.node target.index)) :
    Occupied (w.connect ((w.connections.filter fun c => c.target ≠ target) ++ [⟨source, target⟩]))
      (spot target.node target.index) := by
  intro n k t found off
  have same : (w.connect ((w.connections.filter fun c => c.target ≠ target) ++
      [⟨source, target⟩])).Connected n k ↔ w.Connected n k := by
    constructor
    · rintro ⟨c, inside, at'⟩
      rcases List.mem_append.mp inside with inside | inside
      · exact ⟨c, List.mem_of_mem_filter inside, at'⟩
      · cases List.mem_singleton.mp inside
        have at' : target = ⟨n, k, .input⟩ := at'
        exact absurd ⟨by rw [at'], by rw [at']⟩ off
    · rintro ⟨c, inside, at'⟩
      refine ⟨c, List.mem_append_left _ (List.mem_filter.mpr ⟨inside, decide_eq_true ?_⟩), at'⟩
      rintro same
      rw [at'] at same
      exact off ⟨by rw [← same], by rw [← same]⟩
  rw [same]
  exact occupied n k t found off

theorem connected_add (source target : SocketId) (direction : target.direction = .input) :
    (w.connect ((w.connections.filter fun c => c.target ≠ target) ++ [⟨source, target⟩])).Connected
      target.node target.index :=
  ⟨_, List.mem_append_right _ (List.mem_singleton_self _), by rw [← direction]⟩

theorem Occupied.settle (occupied : Occupied w (spot id i)) (found : w.socket? id i = some s)
    (connected : w.Connected id i) (taken : s.isVariadicPlaceholder = false) : Occupied w nowhere := by
  intro n k t here _
  by_cases at' : spot id i n k
  · obtain ⟨rfl, rfl⟩ := at'
    cases found.symm.trans here
    exact ⟨fun _ => connected, fun h => by simp [taken] at h⟩
  · exact occupied n k t here at'

theorem map_move_id (cs : List Connection) : cs.map (Connection.move fun _ k => k) = cs :=
  (List.map_congr_left fun _ _ => rfl).trans (List.map_id cs)

theorem carries_connect (present : ∀ n k, A n k → w.Present n k) (cs : List Connection) :
    Carries w (w.connect cs) A fun _ k => k := by
  refine ⟨fun n k h => ?_, fun _ _ _ _ _ lt => lt⟩
  obtain ⟨s, found⟩ := present n k h
  exact ⟨s, s, found, found, rfl⟩

theorem Core.unedited (core : Core w) : Edited w w w.connections [] fun _ k => k :=
  ⟨core, rfl, keepsGroups_connect w.connections, by rw [map_move_id, List.append_nil],
    carries_connect (fun _ _ h => h.present) w.connections⟩

theorem Core.addTaken (core : Core w) (found : w.socket? target.node target.index = some s)
    (direction : target.direction = .input) (taken : s.isVariadicPlaceholder = false) :
    Edited w (w.connect ((w.connections.filter fun c => c.target ≠ target) ++ [⟨source, target⟩]))
      (w.connections.filter fun c => c.target ≠ target) [⟨source, target⟩] fun _ k => k := by
  refine ⟨⟨core.linked.add source target ⟨s, found⟩ direction, ?_, core.grouped, core.reroutes⟩, rfl,
    keepsGroups_connect _, ?_, carries_connect (fun n k h => h.present) _⟩
  · exact (core.occupied.weaken.add source target).settle found (connected_add source target direction) taken
  · rw [map_move_id]
    rfl

theorem filter_target_ne {c : Connection}
    (inside : c ∈ w.connections.filter fun c => c.target ≠ target) : c.target ≠ target :=
  of_decide_eq_true (List.mem_filter.mp inside).2

theorem Core.addPlaceholder (core : Core w) (here : w.inputs id = some l) (found : l[i]? = some s)
    (variadic : s.variadic = some info) (free : info.placeholder = true) {p : Socket}
    (index : p.defIndex = s.defIndex) (own : p.variadic = some info) {number : Nat}
    (counted : number = l.countP (isMemberOf s.defIndex) + 1) :
    let kept := w.connections.filter fun c => c.target ≠ ⟨id, i, .input⟩
    let grown := l.modify i fun s => { s with
      variadic := some { info with placeholder := false }, name := memberName info.base number }
    let linked := (w.connect (kept ++ [⟨source, ⟨id, i, .input⟩⟩])).relabel id grown
    if number < info.max then
      Edited w (linked.insertAt id grown (i + 1) p) kept [⟨source, ⟨id, i, .input⟩⟩] (up id (i + 1))
    else Edited w linked kept [⟨source, ⟨id, i, .input⟩⟩] fun _ k => k := by
  have groups := (core.grouped id l here).grow found variadic free p index own number counted
  dsimp only at groups ⊢
  set grown := l.modify i fun s => { s with
    variadic := some { info with placeholder := false }, name := memberName info.base number }
    with isGrown
  set kept := w.connections.filter fun c => c.target ≠ ⟨id, i, .input⟩ with isKept
  have bound : i < l.length := (List.getElem?_eq_some_iff.mp found).1
  have size : grown.length = l.length := by simp [isGrown]
  have nonempty : grown ≠ [] := ne_nil_of_length size bound
  have place : w.socket? id i = some s := (socket?_self here).trans found
  have alike : Alike l grown (fun k => k = i) := by
    refine ⟨size, fun k other => ?_⟩
    rw [isGrown, List.getElem?_modify_ne _ _ fun same => other same.symm]
  set v := w.connect (kept ++ [⟨source, ⟨id, i, .input⟩⟩]) with isV
  have vHere : v.inputs id = some l := here
  have joined : Linked v := core.linked.add source ⟨id, i, .input⟩ ⟨s, place⟩ rfl
  have connected : v.Connected id i := connected_add source ⟨id, i, .input⟩ rfl
  have occupied : Occupied v (spot id i) :=
    Occupied.add source ⟨id, i, .input⟩ core.occupied.weaken
  have relinked : Linked (v.relabel id grown) := joined.relabel vHere size
  have settled : Occupied (v.relabel id grown) nowhere := by
    have moved : Occupied (v.relabel id grown) (spot id i) :=
      occupied.relabel vHere ⟨size, fun k off => alike.2 k fun same => off ⟨rfl, same⟩⟩
    have member : (v.relabel id grown).socket? id i = some { s with
        variadic := some { info with placeholder := false },
        name := memberName info.base number } := by
      rw [socket?_relabel, isGrown, List.getElem?_modify_eq, found]
      rfl
    exact moved.settle member connected rfl
  have off : ∀ n k, w.Kept kept n k → w.Present n k ∧ ¬(n = id ∧ k = i) := fun n k h =>
    ⟨h.present, h.off place (by simp [variadic]) fun c inside => filter_target_ne inside⟩
  have carries : Carries w (v.relabel id grown) (w.Kept kept) fun _ k => k :=
    ((Carries.relabel vHere alike).mono off).congr rfl rfl
  have grownHere : (v.relabel id grown).inputs id = some grown := by simp [Wiring.relabel]
  by_cases more : number < info.max
  · rw [if_pos more] at groups ⊢
    have free' : p.isVariadicMember = false := by simp [Socket.isVariadicMember, own, free]
    have longer : (grown.insertIdx (i + 1) p).length = l.length + 1 := by
      rw [List.length_insertIdx, if_pos (by omega), size]
    have inputs : ((v.relabel id grown).insertAt id grown (i + 1) p).inputs =
        Function.update w.inputs id (some (grown.insertIdx (i + 1) p)) := by
      simp [Wiring.insertAt, Wiring.relabel, connect, isV]
    refine ⟨core.rewritten id (relinked.insertAt grownHere (by omega))
      (settled.insertPlaceholder grownHere (by omega) free') rfl inputs groups.grouped ?_, rfl,
      keepsGroups_update here inputs groups.same, ?_, ?_⟩
    · exact fun none => by simp [none] at longer
    · show (kept ++ [_]).map (Connection.shiftUp id (i + 1)) = _
      rw [shiftUp_eq, List.map_append]
      simp [Connection.move, SocketId.move, up]
    · exact carries.trans (Carries.insertAt grownHere) fun n k h => carries.present h
  · rw [if_neg more] at groups ⊢
    refine ⟨core.rewritten id relinked settled rfl rfl groups.grouped nonempty, rfl,
      keepsGroups_update here rfl groups.same, ?_, carries⟩
    rw [map_move_id]
    rfl

theorem renumberMembers_logical (d : Nat) (base : String) (n : Nat) (x : List Socket) :
    (renumberMembers d base n x).map Socket.logical = x.map Socket.logical := by
  induction x generalizing n with
  | nil => rfl
  | cons s x ih =>
    rw [renumberMembers]
    split
    · rw [List.map_cons, List.map_cons, ih]
      rfl
    · rw [List.map_cons, List.map_cons, ih]

theorem renumberMembers_length (d : Nat) (base : String) (n : Nat) (x : List Socket) :
    (renumberMembers d base n x).length = x.length := by
  simpa using congrArg List.length (renumberMembers_logical d base n x)

theorem renumber_keeps (linked : Linked w') (occupied : Occupied w' nowhere) (here : w'.inputs id = some l)
    (d : Nat) (base : String) :
    Linked (w'.relabel id (renumberMembers d base 0 l)) ∧
      Occupied (w'.relabel id (renumberMembers d base 0 l)) nowhere ∧
      Carries w' (w'.relabel id (renumberMembers d base 0 l)) w'.Present fun _ k => k := by
  have alike := Alike.of_map (renumberMembers_logical d base 0 l) (nowhere id)
  exact ⟨linked.relabel here alike.1, occupied.relabel here alike,
    (Carries.relabel here alike).mono fun n k h => ⟨h, fun both => both.2⟩⟩

theorem Core.insertMember (core : Core w) (here : w.inputs id = some l) (found : l[i]? = some s)
    (variadic : s.variadic = some info) (taken : info.placeholder = false)
    (room : l.countP (isMemberOf s.defIndex) < info.max) {m : Socket}
    (index : m.defIndex = s.defIndex) (own : m.variadic = s.variadic) :
    let longer := l.insertIdx i m
    let renamed := renumberMembers s.defIndex info.base 0 longer
    let added : Connection := ⟨source, ⟨id, i, .input⟩⟩
    let linked := (w.insertAt id l i m).connect ((w.insertAt id l i m).connections ++ [added])
    ∃ last p, longer[last]? = some p ∧
      lastIdx (isPlaceholderOf s.defIndex) longer = some last ∧
      if info.max ≤ longer.countP (isMemberOf s.defIndex) then
        Edited w ((linked.relabel id renamed).removeAt id renamed last) w.connections [added]
          fun n k => down id last n (up id i n k)
      else Edited w (linked.relabel id renamed) w.connections [added] (up id i) := by
  obtain ⟨last, p, beyond, inside, placeholder, isLast, groups⟩ :=
    (core.grouped id l here).insertMember found variadic taken room index own
  dsimp only
  refine ⟨last, p, inside, isLast, ?_⟩
  have bound : i < l.length := (List.getElem?_eq_some_iff.mp found).1
  set longer := l.insertIdx i m with isLonger
  set renamed := renumberMembers s.defIndex info.base 0 longer with isRenamed
  set u := w.insertAt id l i m with isU
  have uHere : u.inputs id = some longer := by
    rw [isLonger]
    simp [isU, Wiring.insertAt, Wiring.relabel, connect]
  have uFound : u.socket? id i = some m := socket?_inserted (Nat.le_of_lt bound)
  have free : ¬ u.Connected id i := not_connected_inserted
  have whole : (u.connections.filter fun c => c.target ≠ ⟨id, i, .input⟩) = u.connections := by
    rw [List.filter_eq_self]
    intro c member
    exact decide_eq_true fun same => free ⟨c, member, same⟩
  have joined := (core.linked.insertAt (s := m) here (Nat.le_of_lt bound)).add source
    ⟨id, i, .input⟩ ⟨m, uFound⟩ rfl
  have occupied := (core.occupied.insertAt here (i := i) (s := m)).add source ⟨id, i, .input⟩
  have connected := @connected_add u source ⟨id, i, .input⟩ rfl
  rw [← isU, whole] at joined occupied
  rw [whole] at connected
  set v := u.connect (u.connections ++ [⟨source, ⟨id, i, .input⟩⟩]) with isV
  have vHere : v.inputs id = some longer := uHere
  have filled : Occupied v nowhere :=
    occupied.settle uFound connected (by simp [Socket.isVariadicPlaceholder, own, variadic, taken])
  obtain ⟨relinked, settled, kept⟩ :=
    renumber_keeps joined filled vHere s.defIndex info.base
  rw [← isRenamed] at relinked settled kept
  have renamedHere : (v.relabel id renamed).inputs id = some renamed := by simp [Wiring.relabel]
  have moved : Carries w v (w.Kept w.connections) (up id i) :=
    ((Carries.insertAt (i := i) (s := m) here).mono fun n k h => Kept.present h).congr rfl rfl
  have carries : Carries w (v.relabel id renamed) (w.Kept w.connections) (up id i) :=
    moved.trans kept fun n k h => moved.present h
  have length : renamed.length = longer.length := renumberMembers_length _ _ _ _
  have wires : v.connections = w.connections.map (Connection.move (up id i)) ++
      [⟨source, ⟨id, i, .input⟩⟩] := by
    rw [← shiftUp_eq]
    rfl
  by_cases full : info.max ≤ longer.countP (isMemberOf s.defIndex)
  · rw [if_pos full] at groups ⊢
    -- nothing leads to the placeholder, so removing it drops no connection
    have unlinked : ∀ c ∈ v.connections, ¬(c.target.node = id ∧ c.target.index = last) := by
      rintro c member ⟨node, place⟩
      have direction := (joined.target c member).1
      have empty := (filled id last p ((socket?_self vHere).trans inside) not_false).2
        (isPlaceholderOf_iff.mp placeholder).2
      refine empty ⟨c, member, ?_⟩
      rw [← node, ← place, ← direction]
    have shorter : (renamed.eraseIdx last).length = l.length := by
      have short : last < renamed.length := by
        rw [length]
        exact (List.getElem?_eq_some_iff.mp inside).1
      rw [List.length_eraseIdx, if_pos short, length, isLonger, List.length_insertIdx,
        if_pos (Nat.le_of_lt bound)]
      rfl
    have inputs : ((v.relabel id renamed).removeAt id renamed last).inputs =
        Function.update w.inputs id (some (renamed.eraseIdx last)) := by
      simp [Wiring.removeAt, Wiring.relabel, connect, isV, isU, Wiring.insertAt]
    refine ⟨core.rewritten id (relinked.removeAt renamedHere)
      (Occupied.removeAt settled.weaken renamedHere) rfl inputs groups.grouped
      (ne_nil_of_length shorter bound), rfl, keepsGroups_update here inputs groups.same, ?_, ?_⟩
    · show (v.connections.filter _).map (Connection.shiftDown id last) = _
      have all : (v.connections.filter fun c => ¬(c.target.node = id ∧ c.target.index = last)) =
          v.connections := by
        rw [List.filter_eq_self]
        exact fun c member => decide_eq_true (unlinked c member)
      rw [all, wires, shiftDown_eq, List.map_append, List.map_map]
      have stays : down id last id i = i := if_neg fun both => by omega
      simp only [List.map_cons, List.map_nil, Connection.move, SocketId.move, stays]
      rfl
    · refine carries.trans (Carries.removeAt renamedHere) fun n k h => ⟨carries.present h, ?_⟩
      rintro ⟨rfl, place⟩
      obtain ⟨t, t', found', moved', same⟩ := moved.same n k h
      have stands : v.socket? n last = some p := (socket?_self vHere).trans inside
      rw [place, stands] at moved'
      cases moved'
      obtain ⟨t₀, found₀, plain | ⟨c, member, leads⟩⟩ := h
      · cases found'.symm.trans found₀
        have infos : p.variadic = t.variadic := logical_variadic same
        have := (isPlaceholderOf_iff.mp placeholder).2
        simp [Socket.isVariadicPlaceholder, infos, plain] at this
      · refine (filled n last p stands not_false).2 (isPlaceholderOf_iff.mp placeholder).2 ?_
        refine ⟨c.move (up n i), ?_, ?_⟩
        · rw [wires]
          exact List.mem_append_left _ (List.mem_map_of_mem member)
        · rw [← place]
          simp [Connection.move, SocketId.move, leads]
  · rw [if_neg full] at groups ⊢
    have inputs : (v.relabel id renamed).inputs = Function.update w.inputs id (some renamed) := by
      simp [Wiring.relabel, connect, isV, isU, Wiring.insertAt]
    refine ⟨core.rewritten id relinked settled rfl inputs groups.grouped ?_, rfl,
      keepsGroups_update here inputs groups.same, wires, carries⟩
    · exact fun none => by
        have := length
        rw [none, isLonger, List.length_insertIdx, if_pos (Nat.le_of_lt bound)] at this
        simp at this

/-- Connections taken away: all the others are there, and none leads to the place. -/
structure Without (w : Wiring) (id : NodeId) (i : Nat) (cs : List Connection) : Prop where
  sublist : cs.Sublist w.connections
  others : ∀ c ∈ w.connections, c.target ≠ ⟨id, i, .input⟩ → c ∈ cs
  gone : ∀ c ∈ cs, c.target ≠ ⟨id, i, .input⟩

variable {cs : List Connection}

theorem Without.linked (without : Without w id i cs) (linked : Linked w) : Linked (w.connect cs) :=
  ⟨fun c inside => linked.target c (without.sublist.subset inside),
    linked.once.sublist (without.sublist.map _)⟩

theorem Without.occupied (without : Without w id i cs) (occupied : Occupied w nowhere) :
    Occupied (w.connect cs) (spot id i) := by
  intro n k t found off
  obtain ⟨member, placeholder⟩ := occupied n k t found not_false
  constructor
  · intro h
    obtain ⟨c, inside, leads⟩ := member h
    refine ⟨c, without.others c inside fun same => ?_, leads⟩
    rw [leads] at same
    cases same
    exact off ⟨rfl, rfl⟩
  · rintro h ⟨c, inside, leads⟩
    exact placeholder h ⟨c, without.sublist.subset inside, leads⟩

theorem Core.disconnectPlain (core : Core w) (without : Without w id i cs) (found : w.socket? id i = some s)
    (plain : s.isVariadicMember = false) : Edited w (w.connect cs) cs [] fun _ k => k := by
  refine ⟨⟨without.linked core.linked, ?_, core.grouped, core.reroutes⟩, rfl, keepsGroups_connect _, ?_,
    carries_connect (fun n k h => h.present) _⟩
  · intro n k t here _
    by_cases at' : spot id i n k
    · obtain ⟨rfl, rfl⟩ := at'
      cases found.symm.trans here
      refine ⟨fun h => by simp [plain] at h, fun _ => ?_⟩
      rintro ⟨c, inside, leads⟩
      exact without.gone c inside leads
    · exact without.occupied core.occupied n k t here at'
  · rw [map_move_id, List.append_nil]
    rfl

/-- A member goes with its connection, and a group that was full gets its placeholder back. -/
theorem Core.disconnectMember (core : Core w) (without : Without w id i cs) (here : w.inputs id = some l)
    (found : l[i]? = some s) (variadic : s.variadic = some info) (taken : info.placeholder = false) {p : Socket}
    (index : p.defIndex = s.defIndex) (own : p.variadic = some { info with placeholder := true }) :
    let rest := l.eraseIdx i
    let renamed := renumberMembers s.defIndex info.base 0 rest
    let groupEnd := (lastIdx (fun s' => s'.defIndex == s.defIndex) rest).elim i (· + 1)
    let removed := ((w.connect cs).removeAt id l i).relabel id renamed
    if ¬ rest.any (isPlaceholderOf s.defIndex) ∧ rest.countP (isMemberOf s.defIndex) < info.max then
      groupEnd ≤ rest.length ∧
        Edited w (removed.insertAt id renamed groupEnd p) cs []
          fun n k => up id groupEnd n (down id i n k)
    else Edited w removed cs [] (down id i) := by
  have groups := (core.grouped id l here).collapse found variadic taken index own
  dsimp only at groups ⊢
  set rest := l.eraseIdx i with isRest
  set renamed := renumberMembers s.defIndex info.base 0 rest with isRenamed
  set groupEnd := (lastIdx (fun s' => s'.defIndex == s.defIndex) rest).elim i (· + 1)
  set v := w.connect cs with isV
  have vHere : v.inputs id = some l := here
  have place : w.socket? id i = some s := (socket?_self here).trans found
  set u := v.removeAt id l i with isU
  have uHere : u.inputs id = some rest := by
    rw [isRest]
    simp [isU, Wiring.removeAt, Wiring.relabel, connect]
  have uLinked : Linked u := (without.linked core.linked).removeAt vHere
  have uOccupied : Occupied u nowhere := (without.occupied core.occupied).removeAt vHere
  obtain ⟨relinked, settled, kept⟩ := renumber_keeps uLinked uOccupied uHere s.defIndex info.base
  rw [← isRenamed] at relinked settled kept
  have moved : Carries w u (w.Kept cs) (down id i) :=
    ((Carries.removeAt (i := i) vHere).mono fun n k h =>
      ⟨Kept.present h, Kept.off h place (by simp [variadic]) without.gone⟩).congr rfl rfl
  have carries : Carries w (u.relabel id renamed) (w.Kept cs) (down id i) :=
    moved.trans kept fun n k h => moved.present h
  have wires : u.connections = cs.map (Connection.move (down id i)) := by
    rw [← shiftDown_eq]
    show (cs.filter _).map _ = _
    have all : (cs.filter fun c => ¬(c.target.node = id ∧ c.target.index = i)) = cs := by
      rw [List.filter_eq_self]
      intro c member
      refine decide_eq_true ?_
      rintro ⟨node, at'⟩
      have direction := (core.linked.target c (without.sublist.subset member)).1
      refine without.gone c member ?_
      rw [← node, ← at', ← direction]
    rw [all]
  have length : renamed.length = rest.length := renumberMembers_length _ _ _ _
  have renamedHere : (u.relabel id renamed).inputs id = some renamed := by simp [Wiring.relabel]
  split
  next restore =>
    rw [if_pos restore] at groups
    obtain ⟨bound, regrouped⟩ := groups
    have longer : (renamed.insertIdx groupEnd p).length = rest.length + 1 := by
      rw [List.length_insertIdx, if_pos (by omega), length]
    have inputs : ((u.relabel id renamed).insertAt id renamed groupEnd p).inputs =
        Function.update w.inputs id (some (renamed.insertIdx groupEnd p)) := by
      simp [Wiring.insertAt, Wiring.relabel, Wiring.removeAt, connect, isU, isV]
    refine ⟨bound, core.rewritten id (relinked.insertAt renamedHere (by omega))
      (settled.insertPlaceholder renamedHere (by omega)
        (by simp [Socket.isVariadicMember, own])) rfl inputs regrouped.grouped ?_, rfl,
      keepsGroups_update here inputs regrouped.same, ?_, ?_⟩
    · exact fun none => by simp [none] at longer
    · show u.connections.map (Connection.shiftUp id groupEnd) = _
      rw [wires, shiftUp_eq, List.map_map, List.append_nil]
      rfl
    · exact carries.trans (Carries.insertAt renamedHere) fun n k h => carries.present h
  next keep =>
    rw [if_neg keep] at groups
    have inputs : (u.relabel id renamed).inputs = Function.update w.inputs id (some renamed) := by
      simp [Wiring.relabel, Wiring.removeAt, connect, isU, isV]
    refine ⟨core.rewritten id relinked settled rfl inputs groups.1.grouped groups.2, rfl,
      keepsGroups_update here inputs groups.1.same, ?_, carries⟩
    · rw [List.append_nil]
      exact wires

theorem Linked.present {c : Connection} (linked : Linked w) (inside : c ∈ w.connections) :
    w.Present c.target.node c.target.index := by
  obtain ⟨-, l, here, bound⟩ := linked.target c inside
  exact ⟨_, (socket?_self here).trans (List.getElem?_eq_getElem bound)⟩

theorem KeepsGroups.trans {w'' : Wiring} (first : KeepsGroups w w') (second : KeepsGroups w' w'') :
    KeepsGroups w w'' := by
  intro id l'' here
  obtain ⟨l', there, same'⟩ := second id l'' here
  obtain ⟨l, last, same⟩ := first id l' there
  exact ⟨l, last, fun d base max => (same' d base max).trans (same d base max)⟩

theorem Edited.trans {w'' : Wiring} {kept₁ : List Connection} {shift shift' : NodeId → Nat → Nat}
    (first : Edited w w' kept₁ [] shift) (sub : kept ⊆ kept₁)
    (second : Edited w' w'' (kept.map (Connection.move shift)) [] shift') :
    Edited w w'' kept [] fun n k => shift' n (shift n k) := by
  refine ⟨second.core, second.frame.trans first.frame, first.groups.trans second.groups, ?_, ?_⟩
  · rw [second.connections, List.map_map]
    rfl
  · refine (first.carries.mono fun n k h => h.mono sub).trans second.carries fun n k h => ?_
    obtain ⟨s, s', found, found', same⟩ := first.carries.same n k (h.mono sub)
    obtain ⟨s₀, found₀, plain | ⟨c, inside, leads⟩⟩ := h
    · cases found.symm.trans found₀
      exact ⟨s', found', .inl ((logical_variadic same).trans plain)⟩
    · refine ⟨s', found', .inr ⟨c.move shift, List.mem_map_of_mem inside, ?_⟩⟩
      simp [Connection.move, SocketId.move, leads]

end Steps

end Wiring

end LogicConduit.Document
