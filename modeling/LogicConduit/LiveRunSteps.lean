import LogicConduit.LiveRunTables

namespace LogicConduit

open ProcessingGraph

/-- A list of edits that can lead from one plan to another: at most one a node, each on a node
of the right plan, a hot configuration or none at all on unchanged wiring only, and a producer
added before the nodes it feeds. -/
structure EditScript (old new : LoweredPlan) (edits : List LiveEdit) : Prop where
  nodup : (edits.map LiveEdit.node).Nodup
  remove : ∀ id, .remove id ∈ edits ↔ id ∈ old.ids ∧ id ∉ new.ids
  add : ∀ id, .add id ∈ edits ↔ id ∈ new.ids ∧ id ∉ old.ids
  configure : ∀ id config, .configure id config ∈ edits → id ∈ old.ids ∧ id ∈ new.ids ∧
    sameWiring old.toProcessingGraph new.toProcessingGraph id = true
  restart : ∀ id, .restart id ∈ edits → id ∈ old.ids ∧ id ∈ new.ids
  producers : ∀ done edit rest id, edits = done ++ edit :: rest →
    (edit = .add id ∨ edit = .restart id) → ∀ e ∈ new.edges,
      e.target.1 = id → e.source.1 ∉ old.ids → .add e.source.1 ∈ done
  unedited : ∀ id ∈ old.ids, id ∈ new.ids → (∀ edit ∈ edits, edit.node ≠ id) →
    sameWiring old.toProcessingGraph new.toProcessingGraph id = true

theorem collectEdits_nodes_sublist {f : NodeId → Except String (Option LiveEdit)}
    (own : ∀ id edit, f id = .ok (some edit) → edit.node = id) {ids : List NodeId}
    {edits : List LiveEdit} (h : collectEdits f ids = .ok edits) :
    (edits.map LiveEdit.node).Sublist ids := by
  induction ids generalizing edits with
  | nil => cases h; exact List.Sublist.slnil
  | cons id ids ih =>
    unfold collectEdits at h
    split at h
    · cases h
    next edit here =>
      split at h
      · cases h
      next rest later =>
        cases h
        cases edit with
        | none => exact (ih later).cons id
        | some edit =>
          simp only [Option.toList_some, List.singleton_append, List.map_cons, own id edit here]
          exact (ih later).cons_cons id

variable {id : NodeId}

theorem change_node {old new : ProcessingGraph} {edit : LiveEdit} (h : change old new id = .ok (some edit)) :
    edit.node = id := by
  rcases change_ok h with ⟨nothing, -⟩ | ⟨config, same, -⟩ | ⟨same, -⟩
  · cases nothing
  · cases same; rfl
  · cases same; rfl

theorem split_unique {l a b c d : List LiveEdit} {x : LiveEdit} (nodup : l.Nodup)
    (left : l = a ++ x :: b) (right : l = c ++ x :: d) : a = c := by
  have once : ∀ u v : List LiveEdit, l = u ++ x :: v → x ∉ u ∧ x ∉ v := by
    intro u v split
    rw [split, List.nodup_append, List.nodup_cons] at nodup
    exact ⟨fun h => nodup.2.2 x h x List.mem_cons_self rfl, nodup.2.1.1⟩
  obtain ⟨notA, notB⟩ := once a b left
  exact ((List.append_cons_inj_of_notMem notA notB).mp (left.symm.trans right)).1

theorem diff_editScript {old new : LoweredPlan} {edits : List LiveEdit}
    (h : diff old.toProcessingGraph new.toProcessingGraph = .ok edits) : EditScript old new edits := by
  have mem := LoweredPlan.mem_diff h
  obtain ⟨changes, shape, changed⟩ := diff_ok h
  have changeNodes := collectEdits_nodes_sublist (fun _ _ => change_node) changed
  have removals : (old.topoOrder.reverse.filter fun id => id ∉ new.ids).Nodup :=
    (List.nodup_reverse.mpr old.nodup_topoOrder).filter _
  have additions : (new.topoOrder.filter fun id => id ∉ old.ids).Nodup :=
    new.nodup_topoOrder.filter _
  have nodes : (edits.map LiveEdit.node).Nodup := by
    have ids : ∀ (f : NodeId → LiveEdit), (∀ id, (f id).node = id) → ∀ l : List NodeId,
        (l.map f).map LiveEdit.node = l := by
      intro f own l
      rw [List.map_map, show LiveEdit.node ∘ f = id from funext own, List.map_id]
    rw [shape, List.map_append, List.map_append, ids _ fun _ => rfl, ids _ fun _ => rfl,
      List.nodup_append, List.nodup_append]
    have inNew : ∀ id ∈ changes.map LiveEdit.node, id ∈ new.ids ∧ id ∈ old.ids := by
      intro id hid
      have := List.mem_filter.mp (changeNodes.subset hid)
      exact ⟨new.mem_topoOrder.mp this.1, by simpa using this.2⟩
    refine ⟨⟨removals, additions, ?_⟩, changeNodes.nodup (new.nodup_topoOrder.filter _), ?_⟩
    · intro a ha b hb same
      subst same
      have gone := (List.mem_filter.mp ha).2
      have here := new.mem_topoOrder.mp (List.mem_filter.mp hb).1
      simp_all
    · intro a ha b hb same
      subst same
      have kept := inNew a hb
      rcases List.mem_append.mp ha with ha | ha
      · have gone := (List.mem_filter.mp ha).2
        simp_all
      · have fresh := (List.mem_filter.mp ha).2
        simp_all
  have addIff : ∀ id, .add id ∈ edits ↔ id ∈ new.ids ∧ id ∉ old.ids := by
    intro id
    rw [mem]
    constructor
    · rintro (⟨i, same, -⟩ | ⟨i, same, inNew, fresh⟩ | ⟨i, -, -, answer⟩)
      · cases same
      · cases same
        exact ⟨inNew, fresh⟩
      · rcases change_ok answer with ⟨none, -⟩ | ⟨config, same, -⟩ | ⟨same, -⟩ <;> simp_all
    · rintro ⟨inNew, fresh⟩
      exact .inr (.inl ⟨id, rfl, inNew, fresh⟩)
  refine ⟨nodes, ?_, addIff, ?_, ?_, ?_, fun id inOld inNew none =>
    ((LoweredPlan.unedited_iff h inOld inNew).mp none).1⟩
  · intro id
    rw [mem]
    constructor
    · rintro (⟨i, same, inOld, gone⟩ | ⟨i, same, -⟩ | ⟨i, -, -, answer⟩)
      · cases same
        exact ⟨inOld, gone⟩
      · cases same
      · rcases change_ok answer with ⟨none, -⟩ | ⟨config, same, -⟩ | ⟨same, -⟩ <;> simp_all
    · rintro ⟨inOld, gone⟩
      exact .inl ⟨id, rfl, inOld, gone⟩
  · intro id config inside
    rcases (mem _).mp inside with ⟨i, same, -⟩ | ⟨i, same, -⟩ | ⟨i, inOld, inNew, answer⟩
    · cases same
    · cases same
    · rcases change_ok answer with ⟨none, -⟩ | ⟨config', same, wiring, -⟩ | ⟨same, -⟩
      · cases none
      · cases same
        exact ⟨inOld, inNew, wiring⟩
      · cases same
  · intro id inside
    rcases (mem _).mp inside with ⟨i, same, -⟩ | ⟨i, same, -⟩ | ⟨i, inOld, inNew, answer⟩
    · cases same
    · cases same
    · rcases change_ok answer with ⟨none, -⟩ | ⟨config', same, -⟩ | ⟨same, -⟩
      · cases none
      · cases same
      · cases same
        exact ⟨inOld, inNew⟩
  · intro done edit rest id split kind e inside target fresh
    have nodup : edits.Nodup := List.Nodup.of_map _ nodes
    have added : e.source.1 ∈ new.topoOrder.filter fun id => id ∉ old.ids :=
      List.mem_filter.mpr ⟨new.mem_topoOrder.mpr (new.closed e inside).1, by simpa using fresh⟩
    have member : edit ∈ edits := by
      rw [split]
      exact List.mem_append_right _ List.mem_cons_self
    rcases kind with rfl | rfl
    · -- the producer stands before the node in the order of the additions
      obtain ⟨inNew, notOld⟩ := (addIff id).mp member
      obtain ⟨before, after, order⟩ := List.append_of_mem (new.mem_topoOrder.mpr inNew)
      have early := new.topoOrder_before order inside target
      have := split_unique nodup split (shape.trans (by
        rw [order, List.filter_append, List.filter_cons_of_pos (by simpa using notOld),
          List.map_append, List.map_cons, ← List.append_assoc, List.append_assoc _ _ changes,
          List.cons_append]))
      rw [this]
      refine List.mem_append_right _ (List.mem_map_of_mem ?_)
      exact List.mem_filter.mpr ⟨early, by simpa using fresh⟩
    · have late : .restart id ∈ changes := by
        rw [shape] at member
        simpa using member
      obtain ⟨front, back, changeSplit⟩ := List.append_of_mem late
      have := split_unique nodup split (shape.trans (by
        rw [changeSplit, ← List.append_assoc]))
      rw [this]
      exact List.mem_append_left _ (List.mem_append_right _ (List.mem_map_of_mem added))

def finalName (t₀ : Supervisor) (old new : LoweredPlan) (id : NodeId) : Option String :=
  if id ∈ old.ids then t₀.names id else some (new.compiledNode id).runtimeName

/-- The table after the edits `done`: names follow the removals and additions, an edited node
runs as the new plan says, and every other node is as it was. -/
structure Partway (t₀ : Supervisor) (old new : LoweredPlan) (done : List LiveEdit)
    (t : Supervisor) : Prop where
  names : ∀ id, t.names id = if .remove id ∈ done then none
    else if .add id ∈ done then some (new.compiledNode id).runtimeName else t₀.names id
  running : ∀ id name, t.names id = some name → ∃ node, t.nodes name = some node ∧
    node.started = true ∧
      ((∃ edit ∈ done, edit.node = id) ∧
          RunsAs new.toProcessingGraph (finalName t₀ old new) id node ∨
        (∀ edit ∈ done, edit.node ≠ id) ∧ t₀.nodes name = some node)
  only : ∀ name, (t.nodes name).isSome → ∃ id, t.names id = some name

theorem Partway.start {t : Supervisor} {old new : LoweredPlan}
    (h : Mirrors old.toProcessingGraph t) : Partway t old new [] t where
  names := by simp
  running := by
    intro id name named
    obtain ⟨node, held, started, -⟩ := h.running id name named
    exact ⟨node, held, started, .inr ⟨by simp, held⟩⟩
  only := h.only

section Steps

variable {t₀ t t' : Supervisor} {old new : LoweredPlan} {edits done rest : List LiveEdit}
  {edit : LiveEdit} {o : Outcomes}

theorem EditScript.fresh (script : EditScript old new edits) (split : edits = done ++ edit :: rest) :
    ∀ other ∈ done, other.node ≠ edit.node := by
  intro other inside same
  have nodup := script.nodup
  rw [split, List.map_append, List.map_cons, List.nodup_append] at nodup
  exact nodup.2.2 _ (List.mem_map_of_mem inside) _ List.mem_cons_self same

theorem EditScript.mem (split : edits = done ++ edit :: rest) : edit ∈ edits := by
  rw [split]
  exact List.mem_append_right _ List.mem_cons_self

theorem EditScript.mem_done (split : edits = done ++ edit :: rest) {other : LiveEdit}
    (inside : other ∈ done) : other ∈ edits := by
  rw [split]
  exact List.mem_append_left _ inside

variable {name : String}

section

variable (mirrors : Mirrors old.toProcessingGraph t₀)
include mirrors

section

variable (script : EditScript old new edits)
include script

theorem Partway.named
    (inside : ∀ other ∈ done, other ∈ edits) (h : Partway t₀ old new done t) (named : t.names id = some name) :
    ∃ slug, name = nodeName id slug := by
  rw [h.names id] at named
  split at named
  · cases named
  · split at named
    next added =>
      cases named
      obtain ⟨inNew, -⟩ := (script.add id).mp (inside _ added)
      obtain ⟨member, same⟩ := new.compiledNode_mem inNew
      obtain ⟨slug, spelled⟩ := new.named _ member
      exact ⟨slug, by rw [spelled, same]⟩
    next => exact mirrors.named id name named

theorem Partway.name_inj
    (inside : ∀ other ∈ done, other ∈ edits) (h : Partway t₀ old new done t) {i j : NodeId}
    (left : t.names i = some name) (right : t.names j = some name) : i = j := by
  obtain ⟨s, hs⟩ := h.named mirrors script inside left
  obtain ⟨u, hu⟩ := h.named mirrors script inside right
  exact nodeName_inj (hs.symm.trans hu)

theorem Partway.final
    (inside : ∀ other ∈ done, other ∈ edits) (h : Partway t₀ old new done t) (named : t.names id = some name) :
    finalName t₀ old new id = some name := by
  unfold finalName
  rw [h.names id] at named
  split at named
  · cases named
  · split at named
    next added =>
      rw [if_neg ((script.add id).mp (inside _ added)).2]
      exact named
    next =>
      rw [if_pos ((mirrors.mem_ids id).mpr (by simp [named]))]
      exact named

end

end

theorem Partway.names_fresh (script : EditScript old new edits)
    (split : edits = done ++ edit :: rest) (h : Partway t₀ old new done t) :
    t.names edit.node = t₀.names edit.node := by
  have first := script.fresh split
  rw [h.names, if_neg fun inside => first (.remove edit.node) inside rfl,
    if_neg fun inside => first (.add edit.node) inside rfl]

theorem Partway.names_kept (script : EditScript old new edits) (inside : ∀ other ∈ done, other ∈ edits)
    (h : Partway t₀ old new done t) (inOld : id ∈ old.ids) (inNew : id ∈ new.ids) : t.names id = t₀.names id := by
  rw [h.names, if_neg fun removed => ((script.remove id).mp (inside _ removed)).2 inNew,
    if_neg fun added => ((script.add id).mp (inside _ added)).2 inOld]

theorem Partway.put (mirrors : Mirrors old.toProcessingGraph t₀) (script : EditScript old new edits)
    (split : edits = done ++ edit :: rest) (h : Partway t₀ old new done t) {node : RunningNode}
    (keeps : ∀ id, edit ≠ .remove id) (name_eq : ∀ id, edit = .add id → name = (new.compiledNode id).runtimeName)
    (held : (∀ id, edit ≠ .add id) → t.names edit.node = some name)
    (free : ∀ other, other ≠ edit.node → t.names other ≠ some name) (started : node.started = true)
    (runs : RunsAs new.toProcessingGraph (finalName t₀ old new) edit.node node) :
    Partway t₀ old new (done ++ [edit])
      ((t.setNode name (some node)).setName edit.node (some name)) := by
  have first := script.fresh split
  refine ⟨?_, ?_, ?_⟩
  · intro id
    by_cases same : id = edit.node
    · subst same
      have notRemoved : .remove edit.node ∉ done ++ [edit] := by
        intro inside
        rcases List.mem_append.mp inside with inside | inside
        · exact first _ inside rfl
        · exact keeps _ (List.mem_singleton.mp inside).symm
      rw [if_neg notRemoved]
      simp only [Supervisor.setName, Function.update_self]
      by_cases isAdd : edit = .add edit.node
      · rw [if_pos (List.mem_append_right _ (by rw [← isAdd]; exact List.mem_singleton_self _)),
          name_eq _ isAdd]
      · have notAdded : .add edit.node ∉ done ++ [edit] := by
          intro inside
          rcases List.mem_append.mp inside with inside | inside
          · exact first _ inside rfl
          · exact isAdd (List.mem_singleton.mp inside).symm
        have others : ∀ id, edit ≠ .add id := by
          intro id same
          exact isAdd (by rw [same]; rfl)
        rw [if_neg notAdded, ← held others, h.names_fresh script split]
    · simp only [Supervisor.setName, Function.update_of_ne same]
      have other : ∀ f : NodeId → LiveEdit, (∀ i, (f i).node = i) →
          (f id ∈ done ++ [edit] ↔ f id ∈ done) := by
        intro f own
        rw [List.mem_append, List.mem_singleton]
        refine ⟨fun inside => inside.resolve_right fun eq => same ?_, .inl⟩
        rw [← eq, own id]
      rw [show (t.setNode name (some node)).names id = t.names id from rfl, h.names id]
      simp only [other .remove (fun _ => rfl), other .add (fun _ => rfl)]
  · intro id n named
    by_cases same : id = edit.node
    · subst same
      simp only [Supervisor.setName, Function.update_self, Option.some.injEq] at named
      subst named
      refine ⟨node, ?_, started, .inl ⟨⟨edit, by simp, rfl⟩, runs⟩⟩
      simp [Supervisor.setName, Supervisor.setNode]
    · simp only [Supervisor.setName, Function.update_of_ne same] at named
      have apart : n ≠ name := by
        rintro rfl
        exact free id same named
      obtain ⟨old, holds, oldStarted, state⟩ := h.running id n named
      refine ⟨old, ?_, oldStarted, ?_⟩
      · simpa [Supervisor.setName, Supervisor.setNode, Function.update_of_ne apart] using holds
      · rcases state with ⟨⟨e, inside, node_eq⟩, runs⟩ | ⟨untouched, kept⟩
        · exact .inl ⟨⟨e, List.mem_append_left _ inside, node_eq⟩, runs⟩
        · refine .inr ⟨?_, kept⟩
          intro e inside
          rcases List.mem_append.mp inside with inside | inside
          · exact untouched e inside
          · rw [List.mem_singleton.mp inside]
            exact fun eq => same eq.symm
  · intro n present
    by_cases apart : n = name
    · subst apart
      exact ⟨edit.node, by simp [Supervisor.setName]⟩
    · have before : (t.nodes n).isSome := by
        simpa [Supervisor.setName, Supervisor.setNode, Function.update_of_ne apart] using present
      obtain ⟨id, named⟩ := h.only n before
      refine ⟨id, ?_⟩
      have same : id ≠ edit.node := by
        rintro rfl
        by_cases isAdd : ∃ i, edit = .add i
        · obtain ⟨i, isAdd⟩ := isAdd
          -- a node about to be added has no name yet
          have absent := ((script.add i).mp (isAdd ▸ EditScript.mem split)).2
          rw [h.names_fresh script split, isAdd] at named
          exact absent ((mirrors.mem_ids i).mpr (Option.isSome_iff_exists.mpr ⟨n, named⟩))
        · have := held fun i same => isAdd ⟨i, same⟩
          rw [this] at named
          exact apart (Option.some.inj named).symm
      simpa [Supervisor.setName, Supervisor.setNode, Function.update_of_ne same] using named

theorem Partway.drop (mirrors : Mirrors old.toProcessingGraph t₀) (script : EditScript old new edits)
    (split : edits = done ++ .remove id :: rest) (h : Partway t₀ old new done t) (named : t.names id = some name) :
    Partway t₀ old new (done ++ [.remove id]) ((t.setName id none).setNode name none) := by
  have inside : ∀ other ∈ done, other ∈ edits := fun _ => EditScript.mem_done split
  have keep : ∀ f : NodeId → LiveEdit, (∀ i, (f i).node = i) → ∀ j, j ≠ id →
      (f j ∈ done ++ [.remove id] ↔ f j ∈ done) := by
    intro f own j apart
    rw [List.mem_append, List.mem_singleton]
    refine ⟨fun inside => inside.resolve_right fun eq => apart ?_, .inl⟩
    rw [← own j, eq]
    rfl
  refine ⟨?_, ?_, ?_⟩
  · intro j
    by_cases same : j = id
    · subst same
      simp [Supervisor.setName, Supervisor.setNode]
    · simp only [Supervisor.setName, Supervisor.setNode, Function.update_of_ne same,
        keep .remove (fun _ => rfl) j same, keep .add (fun _ => rfl) j same]
      exact h.names j
  · intro j n namedJ
    have same : j ≠ id := by
      rintro rfl
      simp [Supervisor.setName, Supervisor.setNode] at namedJ
    simp only [Supervisor.setName, Supervisor.setNode, Function.update_of_ne same] at namedJ
    have apart : n ≠ name := by
      rintro rfl
      exact same (h.name_inj mirrors script inside namedJ named)
    obtain ⟨node, held, started, state⟩ := h.running j n namedJ
    refine ⟨node, ?_, started, ?_⟩
    · simpa [Supervisor.setName, Supervisor.setNode, Function.update_of_ne apart] using held
    · rcases state with ⟨⟨e, inDone, own⟩, runs⟩ | ⟨untouched, kept⟩
      · exact .inl ⟨⟨e, List.mem_append_left _ inDone, own⟩, runs⟩
      · refine .inr ⟨?_, kept⟩
        intro e inDone
        rcases List.mem_append.mp inDone with inDone | inDone
        · exact untouched e inDone
        · rw [List.mem_singleton.mp inDone]
          exact fun eq => same eq.symm
  · intro n present
    have apart : n ≠ name := by
      rintro rfl
      simp [Supervisor.setName, Supervisor.setNode] at present
    have before : (t.nodes n).isSome := by
      simpa [Supervisor.setName, Supervisor.setNode, Function.update_of_ne apart] using present
    obtain ⟨j, namedJ⟩ := h.only n before
    have same : j ≠ id := by
      rintro rfl
      exact apart (Option.some.inj (namedJ.symm.trans named))
    exact ⟨j, by simpa [Supervisor.setName, Supervisor.setNode, Function.update_of_ne same] using namedJ⟩

theorem setNode_setName {node : Option RunningNode} (named : t.names id = some name) :
    (t.setNode name node).setName id (some name) = t.setNode name node := by
  simp only [Supervisor.setName, Supervisor.setNode, ← named, Function.update_eq_self]

theorem EditScript.held (mirrors : Mirrors old.toProcessingGraph t₀) (script : EditScript old new edits)
    (split : edits = done ++ edit :: rest) (h : Partway t₀ old new done t) (inOld : id ∈ old.ids)
    (own : edit.node = id) :
    ∃ name node, t.names id = some name ∧ t₀.names id = some name ∧ t.nodes name = some node := by
  obtain rfl := own
  have same := h.names_fresh script split
  obtain ⟨name, before⟩ := Option.isSome_iff_exists.mp ((mirrors.mem_ids _).mp inOld)
  obtain ⟨node, held, -⟩ := h.running _ name (same.trans before)
  exact ⟨name, node, same.trans before, before, held⟩

theorem Partway.step (mirrors : Mirrors old.toProcessingGraph t₀) (script : EditScript old new edits)
    (split : edits = done ++ edit :: rest) (h : Partway t₀ old new done t)
    (ok : applyEdit o new.toProcessingGraph t edit = (t', none)) :
    Partway t₀ old new (done ++ [edit]) t' := by
  have inside : ∀ other ∈ done, other ∈ edits := fun _ => EditScript.mem_done split
  have member := EditScript.mem split
  have final : ∀ e ∈ new.edges, ∀ n, t.names e.source.1 = some n →
      finalName t₀ old new e.source.1 = some n := fun e _ n named => h.final mirrors script inside named
  have apart : ∀ {id name}, t.names id = some name → ∀ other, other ≠ id →
      t.names other ≠ some name := by
    intro id name named other ne same
    exact ne (h.name_inj mirrors script inside same named)
  cases edit with
  | remove id =>
    obtain ⟨name, node, named, -, held⟩ := EditScript.held mirrors script split h ((script.remove id).mp member).1 rfl
    simp only [applyEdit, named, removeNode] at ok
    rw [if_pos (by simp [Supervisor.setName, held])] at ok
    cases ok
    exact h.drop mirrors script split named
  | add id =>
    simp only [applyEdit] at ok
    split at ok
    · cases ok
    next ports built =>
      split at ok
      · cases ok
      next subs wired =>
        unfold addNode at ok
        split at ok
        next failure => split at failure <;> cases ok
        next success =>
          split at success
          · cases success
          next unused =>
            split at success
            · cases success
            · split at success <;> cases success
              cases ok
              refine h.put mirrors script split (fun _ => by simp) (fun i same => by cases same; rfl)
                (fun others => absurd rfl (others id)) ?_ rfl ((wiredNode_runsAs wired).mono final)
              intro other _ named
              obtain ⟨node, held, -⟩ := h.running other _ named
              simp [held] at unused
  | configure id config =>
    obtain ⟨inOld, inNew, wiring⟩ := script.configure id config member
    obtain ⟨name, -, named, before, -⟩ := EditScript.held mirrors script split h inOld rfl
    obtain ⟨node, held, started, state⟩ := h.running id name named
    have untouched : t₀.nodes name = some node := by
      rcases state with ⟨⟨e, inDone, own⟩, -⟩ | ⟨-, kept⟩
      · exact absurd own (script.fresh split e inDone)
      · exact kept
    simp only [applyEdit, named, reconfigure, held] at ok
    split at ok
    · cases ok
      obtain ⟨node', held', -, wired⟩ := mirrors.running id name before
      cases Option.some.inj (held'.symm.trans untouched)
      have agree : ∀ e ∈ new.edges, ∀ n, t₀.names e.source.1 = some n →
          t.names e.source.1 = some n := by
        intro e he n namedE
        rw [h.names_kept script inside ((mirrors.mem_ids _).mpr (by simp [namedE]))
          (new.closed e he).1]
        exact namedE
      have fresh := @reconfigured_runsAs _ id t.names node ((wired.of_sameWiring wiring).mono agree)
      rw [← setNode_setName named]
      exact h.put mirrors script split (fun _ => by simp) (fun _ same => by cases same)
        (fun _ => named) (apart named) started (fresh.mono final)
    · cases ok
  | restart id =>
    obtain ⟨inOld, inNew⟩ := script.restart id member
    obtain ⟨name, node, named, -, held⟩ := EditScript.held mirrors script split h inOld rfl
    simp only [applyEdit, named] at ok
    split at ok
    · cases ok
    next ports built =>
      split at ok
      · cases ok
      next subs wired =>
        simp only [restartNode, held, Option.isNone_some, Bool.false_eq_true, if_false] at ok
        split at ok
        · simp at ok
        · split at ok
          · simp at ok
          · simp at ok
          · cases ok
            rw [← setNode_setName named]
            exact h.put mirrors script split (fun _ => by simp) (fun _ same => by cases same)
              (fun _ => named) (apart named) rfl ((wiredNode_runsAs wired).mono final)

theorem Partway.names_final (script : EditScript old new edits) (h : Partway t₀ old new edits t) (inNew : id ∈ new.ids) :
    t.names id = finalName t₀ old new id := by
  unfold finalName
  split
  next inOld => exact h.names_kept script (fun _ inside => inside) inOld inNew
  next fresh =>
    rw [h.names, if_neg fun removed => ((script.remove id).mp removed).2 inNew,
      if_pos ((script.add id).mpr ⟨inNew, fresh⟩)]

theorem Partway.mem_ids (mirrors : Mirrors old.toProcessingGraph t₀)
    (script : EditScript old new edits) (h : Partway t₀ old new edits t) (id : NodeId) :
    id ∈ new.ids ↔ (t.names id).isSome := by
  constructor
  · intro inNew
    rw [h.names_final script inNew]
    unfold finalName
    split
    next inOld => exact (mirrors.mem_ids id).mp inOld
    next => rfl
  · intro named
    rw [h.names id] at named
    split at named
    · cases named
    · split at named
      next added => exact ((script.add id).mp added).1
      next kept _ =>
        by_contra gone
        exact kept ((script.remove id).mpr ⟨(mirrors.mem_ids id).mpr named, gone⟩)

theorem Partway.mirrors (mirrors : Mirrors old.toProcessingGraph t₀)
    (script : EditScript old new edits) (h : Partway t₀ old new edits t) :
    Mirrors new.toProcessingGraph t where
  mem_ids := h.mem_ids mirrors script
  named := fun id name named => h.named mirrors script (fun _ inside => inside) named
  only := h.only
  running := by
    intro id name named
    have inNew : id ∈ new.ids := (h.mem_ids mirrors script id).mpr (by simp [named])
    obtain ⟨node, held, started, state⟩ := h.running id name named
    refine ⟨node, held, started, ?_⟩
    rcases state with ⟨-, runs⟩ | ⟨untouched, kept⟩
    · refine runs.subscribed.mono fun e he n final => ?_
      rw [h.names_final script (new.closed e he).1]
      exact final
    · have inOld : id ∈ old.ids := by
        by_contra fresh
        exact untouched _ ((script.add id).mpr ⟨inNew, fresh⟩) rfl
      obtain ⟨node', held', -, wired⟩ := mirrors.running id name
        ((h.names_kept script (fun _ inside => inside) inOld inNew).symm.trans named)
      cases Option.some.inj (held'.symm.trans kept)
      refine (wired.of_sameWiring (script.unedited id inOld inNew untouched)).mono ?_
      intro e he n namedE
      rw [h.names_kept script (fun _ inside => inside) ((mirrors.mem_ids _).mpr (by simp [namedE]))
        (new.closed e he).1]
      exact namedE

end Steps

end LogicConduit
