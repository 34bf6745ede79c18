import LogicConduit.LiveRunSteps

namespace LogicConduit

open ProcessingGraph

def EditFails (o : Outcomes) (new : ProcessingGraph) (names : NodeId → Option String) :
    LiveEdit → Prop
  | .remove _ => False
  | .add id =>
    (∃ source, o.build (new.compiledNode id) (new.compiledNode id).runtimeName = .error source) ∨
      o.manager id ≠ .done
  | .configure id _ => o.manager id ≠ .done
  | .restart id =>
    (∃ name source, names id = some name ∧ o.build (new.compiledNode id) name = .error source) ∨
      o.manager id ≠ .done

/-- The failure comes before the manager has touched the node, or from a call of it that
leaves the node as it is. -/
def FailsCleanly (o : Outcomes) (new : ProcessingGraph) (names : NodeId → Option String) :
    LiveEdit → Prop
  | .remove _ => True
  | .add id =>
    (∃ source, o.build (new.compiledNode id) (new.compiledNode id).runtimeName = .error source) ∨
      o.manager id = .rejected
  | .configure _ _ => True
  | .restart id =>
    ∃ name source, names id = some name ∧ o.build (new.compiledNode id) name = .error source

/-- An edit that changes neither the set of nodes nor a subscription. -/
def KeepsWiring (old new : ProcessingGraph) : LiveEdit → Prop
  | .remove _ => False
  | .add _ => False
  | .configure _ _ => True
  | .restart id => sameWiring old new id = true

/-- If one of the edits fails, all before it keep the wiring and it fails cleanly itself. -/
def Recoverable (o : Outcomes) (new : LoweredPlan) (run : LiveRun) : Prop :=
  ∀ edits, diff run.compiled.toProcessingGraph new.toProcessingGraph = .ok edits →
    ∀ done edit rest, edits = done ++ edit :: rest →
      (∀ e ∈ done, ¬ EditFails o new.toProcessingGraph run.table.names e) →
      EditFails o new.toProcessingGraph run.table.names edit →
      (∀ e ∈ done, KeepsWiring run.compiled.toProcessingGraph new.toProcessingGraph e) ∧
        FailsCleanly o new.toProcessingGraph run.table.names edit

section Edits

variable {t₀ t t' : Supervisor} {old new : LoweredPlan} {edits done rest : List LiveEdit}
  {edit : LiveEdit} {o : Outcomes} {error : ApplyError}

theorem not_editFails_of_ok (mirrors : Mirrors old.toProcessingGraph t₀)
    (script : EditScript old new edits) (split : edits = done ++ edit :: rest)
    (h : Partway t₀ old new done t) (ok : applyEdit o new.toProcessingGraph t edit = (t', none)) :
    ¬ EditFails o new.toProcessingGraph t₀.names edit := by
  have member := EditScript.mem split
  cases edit with
  | remove id => exact fun fails => fails
  | add id =>
    simp only [applyEdit] at ok
    split at ok
    · cases ok
    next ports built =>
      split at ok
      · cases ok
      · unfold addNode at ok
        split at ok
        next failure => split at failure <;> cases ok
        next success =>
          split at success
          · cases success
          · split at success
            · cases success
            · split at success <;> cases success
              rintro (⟨source, broken⟩ | refused)
              · cases built.symm.trans broken
              next accepted => exact refused accepted
  | configure id config =>
    obtain ⟨name, node, named, -, held⟩ :=
      EditScript.held mirrors script split h (script.configure id config member).1 rfl
    simp only [applyEdit, named, reconfigure, held] at ok
    split at ok
    next accepted => exact fun refused => refused accepted
    · cases ok
  | restart id =>
    obtain ⟨name, node, named, before, held⟩ := EditScript.held mirrors script split h (script.restart id member).1 rfl
    simp only [applyEdit, named] at ok
    split at ok
    · cases ok
    next ports built =>
      split at ok
      · cases ok
      · simp only [restartNode, held, Option.isNone_some, Bool.false_eq_true, if_false] at ok
        split at ok
        · simp at ok
        · split at ok
          · simp at ok
          · simp at ok
          next accepted =>
            rintro (⟨name', source, named', broken⟩ | refused)
            · cases Option.some.inj (named'.symm.trans before)
              cases built.symm.trans broken
            · exact refused accepted

theorem producers_known (mirrors : Mirrors old.toProcessingGraph t₀)
    (script : EditScript old new edits) (split : edits = done ++ edit :: rest)
    (h : Partway t₀ old new done t) {id : NodeId} (kind : edit = .add id ∨ edit = .restart id) :
    ∀ e ∈ new.edges, e.target.1 = id → (t.names e.source.1).isSome := by
  intro e inside target
  have inNew := (new.closed e inside).1
  by_cases inOld : e.source.1 ∈ old.ids
  · rw [h.names_kept script (fun _ => EditScript.mem_done split) inOld inNew]
    exact (mirrors.mem_ids _).mp inOld
  · have added := script.producers done edit rest id split kind e inside target inOld
    rw [h.names, if_neg fun removed =>
      ((script.remove _).mp (EditScript.mem_done split removed)).2 inNew, if_pos added]
    rfl

theorem missingProducer_inputSubs {id : NodeId} {ports : List String}
    {subs : List (Option Live.InputSub)} (h : Partway t₀ old new done t)
    {nodes : String → Option RunningNode}
    (same : ∀ e ∈ new.edges, e.target.1 = id → ∀ n, t.names e.source.1 = some n → nodes n = t.nodes n)
    (wired : new.inputSubs id t.names ports = .ok subs) : missingProducer nodes subs = none := by
  refine missingProducer_none fun s hs => ?_
  obtain ⟨e, inside, target, named⟩ := inputSubs_source wired hs
  obtain ⟨node, held, -⟩ := h.running _ _ named
  rw [same e inside target _ named, held]
  rfl

theorem build_ok {node : ProcessingNode} {name : String}
    (builds : ∀ source, o.build node name ≠ .error source) : ∃ ports, o.build node name = .ok ports := by
  cases built : o.build node name with
  | error source => exact absurd built (builds source)
  | ok ports => exact ⟨ports, rfl⟩

section

variable (mirrors : Mirrors old.toProcessingGraph t₀)
include mirrors

section

variable (script : EditScript old new edits)
include script

theorem applyEdit_ok (split : edits = done ++ edit :: rest) (h : Partway t₀ old new done t)
    (fine : ¬ EditFails o new.toProcessingGraph t₀.names edit) :
    ∃ t', applyEdit o new.toProcessingGraph t edit = (t', none) := by
  have member := EditScript.mem split
  cases edit with
  | remove id =>
    obtain ⟨name, node, named, -, held⟩ := EditScript.held mirrors script split h ((script.remove id).mp member).1 rfl
    simp only [applyEdit, named, removeNode]
    rw [if_pos (by simp [Supervisor.setName, held])]
    exact ⟨_, rfl⟩
  | add id =>
    simp only [EditFails, not_or, not_exists, not_not] at fine
    obtain ⟨builds, accepted⟩ := fine
    obtain ⟨ports, built⟩ := build_ok builds
    obtain ⟨subs, wired⟩ := inputSubs_ok (producers_known mirrors script split h (.inl rfl)) ports
    have free : t.nodes (new.compiledNode id).runtimeName = none := by
      by_contra taken
      obtain ⟨other, named⟩ := h.only _ (Option.isSome_iff_ne_none.mpr taken)
      obtain ⟨inNew, notOld⟩ := (script.add id).mp member
      obtain ⟨inPlan, own⟩ := new.compiledNode_mem inNew
      obtain ⟨slug, spelled⟩ := new.named _ inPlan
      obtain ⟨slug', spelled'⟩ := h.named mirrors script (fun _ => EditScript.mem_done split) named
      rw [own] at spelled
      cases nodeName_inj (spelled.symm.trans spelled')
      have before := (h.names_fresh script split).symm.trans named
      exact notOld ((mirrors.mem_ids id).mpr (Option.isSome_iff_exists.mpr ⟨_, before⟩))
    have known := missingProducer_inputSubs h (fun _ _ _ _ _ => rfl) wired
    simp only [applyEdit, built, wired, addNode, free, known, accepted, Option.isSome_none,
      Bool.false_eq_true, if_false]
    exact ⟨_, rfl⟩
  | configure id config =>
    obtain ⟨name, node, named, -, held⟩ :=
      EditScript.held mirrors script split h (script.configure id config member).1 rfl
    have accepted : o.manager id = .done := not_not.mp fine
    simp only [applyEdit, named, reconfigure, held, accepted]
    exact ⟨_, rfl⟩
  | restart id =>
    obtain ⟨name, node, named, before, held⟩ := EditScript.held mirrors script split h (script.restart id member).1 rfl
    simp only [EditFails, not_or, not_exists, not_not, not_and] at fine
    obtain ⟨builds, accepted⟩ := fine
    obtain ⟨ports, built⟩ := build_ok fun source => builds name source before
    obtain ⟨subs, wired⟩ := inputSubs_ok (producers_known mirrors script split h (.inr rfl)) ports
    -- taking the old instance out hides no producer: the plan has no loop
    have known : missingProducer (t.setNode name none).nodes subs = none := by
      refine missingProducer_inputSubs h (fun e inside target n namedE => ?_) wired
      have apart : n ≠ name := by
        rintro rfl
        have loop := h.name_inj mirrors script (fun _ => EditScript.mem_done split) namedE named
        refine new.acyclic id (.single (List.mem_map.mpr ⟨e, inside, ?_⟩))
        rw [loop, target]
      simp [Supervisor.setNode, Function.update_of_ne apart]
    simp only [applyEdit, named, built, wired, restartNode, held, known, accepted,
      Option.isNone_some, Bool.false_eq_true, if_false]
    exact ⟨_, rfl⟩

theorem applyEdit_clean (split : edits = done ++ edit :: rest) (h : Partway t₀ old new done t)
    (clean : FailsCleanly o new.toProcessingGraph t₀.names edit)
    (failed : applyEdit o new.toProcessingGraph t edit = (t', some error)) : t' = t := by
  have member := EditScript.mem split
  cases edit with
  | remove id =>
    obtain ⟨t'', ok⟩ := applyEdit_ok mirrors script split h (fun fails => fails)
    cases ok.symm.trans failed
  | add id =>
    simp only [applyEdit] at failed
    split at failed
    · cases failed
      rfl
    next ports built =>
      have rejected : o.manager id = .rejected := by
        rcases clean with ⟨source, broken⟩ | rejected
        · cases built.symm.trans broken
        · exact rejected
      split at failed
      · cases failed
        rfl
      · unfold addNode at failed
        rw [rejected] at failed
        split at failed
        next failure =>
          cases failed
          split at failure
          · cases failure
            rfl
          · split at failure <;> cases failure <;> rfl
        · cases failed
  | configure id config =>
    simp only [applyEdit, reconfigure] at failed
    split at failed
    · cases failed
      rfl
    · split at failed
      · cases failed
        rfl
      · split at failed
        · cases failed
        · cases failed
          rfl
  | restart id =>
    obtain ⟨name, -, named, before, -⟩ := EditScript.held mirrors script split h (script.restart id member).1 rfl
    obtain ⟨name', source, named', broken⟩ := clean
    cases Option.some.inj (named'.symm.trans before)
    simp only [applyEdit, named, broken] at failed
    cases failed
    rfl

/-- A run of the edits goes through all of them, or stops at the first bad outcome. -/
theorem applyEdits_cases (split : edits = done ++ rest) (h : Partway t₀ old new done t)
    (fine : ∀ e ∈ done, ¬ EditFails o new.toProcessingGraph t₀.names e) :
    (∃ t', applyEdits o new.toProcessingGraph t rest = (t', none) ∧ Partway t₀ old new edits t' ∧
      ∀ e ∈ edits, ¬ EditFails o new.toProcessingGraph t₀.names e) ∨
    (∃ front edit back mid t' error, edits = front ++ edit :: back ∧ Partway t₀ old new front mid ∧
      (∀ e ∈ front, ¬ EditFails o new.toProcessingGraph t₀.names e) ∧
      EditFails o new.toProcessingGraph t₀.names edit ∧
      applyEdit o new.toProcessingGraph mid edit = (t', some error) ∧
      applyEdits o new.toProcessingGraph t rest = (t', some error)) := by
  induction rest generalizing done t with
  | nil =>
    rw [List.append_nil] at split
    subst split
    exact .inl ⟨t, rfl, h, fine⟩
  | cons edit rest ih =>
    rcases result : applyEdit o new.toProcessingGraph t edit with ⟨t', error⟩
    cases error with
    | some error =>
      have fails : EditFails o new.toProcessingGraph t₀.names edit := by
        by_contra none
        obtain ⟨t'', ok⟩ := applyEdit_ok mirrors script split h none
        cases ok.symm.trans result
      refine .inr ⟨done, edit, rest, t, t', error, split, h, fine, fails, result, ?_⟩
      simp only [applyEdits, result]
    | none =>
      have fine' : ∀ e ∈ done ++ [edit], ¬ EditFails o new.toProcessingGraph t₀.names e := by
        intro e inside
        rcases List.mem_append.mp inside with inside | inside
        · exact fine e inside
        · rw [List.mem_singleton.mp inside]
          exact not_editFails_of_ok mirrors script split h result
      have next : applyEdits o new.toProcessingGraph t (edit :: rest) =
          applyEdits o new.toProcessingGraph t' rest := by
        simp only [applyEdits, result]
      rw [next]
      exact ih (split.trans (List.append_cons done edit rest)) (h.step mirrors script split result) fine'

theorem Partway.mirrors_old (inside : ∀ e ∈ done, e ∈ edits) (h : Partway t₀ old new done t)
    (keeps : ∀ e ∈ done, KeepsWiring old.toProcessingGraph new.toProcessingGraph e) :
    Mirrors old.toProcessingGraph t := by
  have names : ∀ id, t.names id = t₀.names id := by
    intro id
    rw [h.names, if_neg fun removed => keeps (.remove id) removed,
      if_neg fun added => keeps (.add id) added]
  refine ⟨fun id => by rw [names id]; exact mirrors.mem_ids id,
    fun id name named => mirrors.named id name ((names id).symm.trans named), ?_, h.only⟩
  intro id name named
  obtain ⟨node, held, started, state⟩ := h.running id name named
  refine ⟨node, held, started, ?_⟩
  rcases state with ⟨⟨edit, inDone, own⟩, runs⟩ | ⟨-, kept⟩
  · have wiring : sameWiring new.toProcessingGraph old.toProcessingGraph id = true := by
      rw [sameWiring_iff]
      have forward : sameWiring old.toProcessingGraph new.toProcessingGraph id = true := by
        cases edit with
        | remove i => exact absurd (keeps _ inDone) fun no => no
        | add i => exact absurd (keeps _ inDone) fun no => no
        | configure i config =>
          cases own
          exact (script.configure i config (inside _ inDone)).2.2
        | restart i =>
          cases own
          exact keeps _ inDone
      exact fun w => (sameWiring_iff.mp forward w).symm
    refine (runs.subscribed.of_sameWiring wiring).mono fun e he n final => ?_
    rw [names, ← final, finalName, if_pos (show e.source.1 ∈ old.ids from (old.closed e he).1)]
  · obtain ⟨node', held', -, wired⟩ := mirrors.running id name ((names id).symm.trans named)
    cases Option.some.inj (held'.symm.trans kept)
    exact wired.mono fun e _ n namedE => (names _).trans namedE

end

end

end Edits

def emptyPlan : LoweredPlan where
  nodes := []
  edges := []
  nodup := List.nodup_nil
  closed := by simp
  acyclic := Kahn.acyclic_of_rank id (by simp)
  named := by simp

theorem mirrors_empty : Mirrors emptyPlan.toProcessingGraph Supervisor.empty where
  mem_ids := by simp [emptyPlan, ProcessingGraph.ids, Supervisor.empty]
  named := by simp [Supervisor.empty]
  running := by simp [Supervisor.empty]
  only := by simp [Supervisor.empty]

theorem start_editScript (plan : LoweredPlan) :
    EditScript emptyPlan plan (plan.topoOrder.map LiveEdit.add) where
  nodup := by
    rw [List.map_map, show LiveEdit.node ∘ LiveEdit.add = id from rfl, List.map_id]
    exact plan.nodup_topoOrder
  remove := by simp [emptyPlan, ProcessingGraph.ids]
  add := by
    intro id
    simp [plan.mem_topoOrder, emptyPlan, ProcessingGraph.ids]
  configure := by simp
  restart := by simp
  producers := by
    intro done edit rest id split kind e inside target _
    obtain ⟨before, later, order, rfl, after⟩ := List.map_eq_append_iff.mp split
    obtain ⟨i, tail, rfl, rfl, -⟩ := List.map_eq_cons_iff.mp after
    rcases kind with same | same
    · cases same
      exact List.mem_map_of_mem (plan.topoOrder_before order inside target)
    · cases same
  unedited := by simp [emptyPlan, ProcessingGraph.ids]

variable {lookup : List UInt8 → Bool}

theorem prepareExecution_full {plan : ProcessingGraph} (full : (prepareExecution lookup plan).2 = false) :
    prepareExecution lookup plan = (plan, false) := by
  unfold prepareExecution at full ⊢
  dsimp only at full ⊢
  split
  · rfl
  next cached => simp [cached] at full

theorem startLive_partway {o : Outcomes} {plan : LoweredPlan} {run : LiveRun}
    (started : startLive o lookup plan = .ok run) (full : run.cachePruned = false) :
    run.compiled = plan ∧ Partway Supervisor.empty emptyPlan plan (plan.topoOrder.map LiveEdit.add)
      run.table := by
  unfold startLive at started
  rcases execution : prepareExecution lookup plan.toProcessingGraph with ⟨graph, pruned⟩
  rw [execution] at started
  dsimp only at started
  split at started
  · cases started
  next table applied =>
    cases started
    have same := prepareExecution_full (by rw [execution]; exact full)
    rw [execution] at same
    cases same
    refine ⟨rfl, ?_⟩
    rcases applyEdits_cases (o := o) mirrors_empty (start_editScript plan)
        (List.nil_append _).symm (Partway.start mirrors_empty) (by simp) with
      ⟨t, run, partway, -⟩ | ⟨_, _, _, _, _, _, _, _, _, _, _, run⟩
    · cases run.symm.trans applied
      exact partway
    · cases run.symm.trans applied

end LogicConduit
