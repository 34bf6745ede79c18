import LogicConduit.EditSchedules
import LogicConduit.ExecutionPlan

namespace LogicConduit

open ProcessingGraph

/-- `ResolvedInputs::get` of a member of the first input. -/
def collectedInput (inputs : ResolvedInputs) (member : Nat) : Option ResolvedInput :=
  (inputs.find? fun entry => entry.1 = (0, member)).map Prod.snd

/-- `default_lane_names`; `seen` holds the sources of the members in front. -/
def defaultLaneNames (seen : List String) : List (Nat × ResolvedInput) → List (Nat × String)
  | [] => []
  | (member, input) :: inputs =>
    let count := seen.count input.source + 1
    (member, if count = 1 then input.source else input.source ++ " (" ++ toString count ++ ")") ::
      defaultLaneNames (input.source :: seen) inputs

structure CollectedOutputLane where
  member : Nat
  laneName : String
  sourceLabel : String
  input : ResolvedInput

/-- A plan with what reporting reads of it: the labels of the collected lanes, which of them are columns of a decoder
table, the retained outputs, and the sampling overlays with their stores, at most one a node. -/
structure ReportedPlan (σ : Type) extends LoweredPlan where
  collectedSourceLabels : NodeId → List (Nat × String)
  decoderTableColumn : NodeId → Nat → Bool
  retainedOutputs : List (NodeId × Nat)
  samplingOverlays : List (NodeId × σ)
  overlays_nodup : (samplingOverlays.map Prod.fst).Nodup
  overlays_nodes : ∀ overlay ∈ samplingOverlays, overlay.1 ∈ nodes.map ProcessingNode.id

namespace ReportedPlan

variable {σ : Type}

def outputLanes (plan : ReportedPlan σ) (node : ProcessingNode) : List CollectedOutputLane :=
  node.collectedLaneNames.filterMap fun lane =>
    (collectedInput node.resolved lane.1).bind fun input =>
      if (input.sourceNode, input.sourceOutput) ∈ plan.retainedOutputs then
        some ⟨lane.1, lane.2, (((plan.collectedSourceLabels node.id).find? fun label =>
          label.1 = lane.1).map Prod.snd).getD input.sourceNodeTitle, input⟩
      else none

def tableLanes (plan : ReportedPlan σ) (node : ProcessingNode) : List CollectedOutputLane :=
  node.collectedLaneNames.filterMap fun lane =>
    (collectedInput node.resolved lane.1).bind fun input =>
      if plan.decoderTableColumn node.id lane.1 then some ⟨lane.1, lane.2, input.sourceNodeTitle, input⟩ else none

def collected {κ : Type} (plan : ReportedPlan σ) (key : ProcessingNode → κ)
    (lanes : ProcessingNode → List CollectedOutputLane) : List (κ × List CollectedOutputLane) :=
  (plan.nodes.filter ProcessingNode.dataCollector).filterMap fun node =>
    if (lanes node).isEmpty then none else some (key node, lanes node)

def collectedOutputSubscriptions (plan : ReportedPlan σ) : List (String × List CollectedOutputLane) :=
  plan.collected ProcessingNode.runtimeName plan.outputLanes

def collectedTableSubscriptions (plan : ReportedPlan σ) : List (NodeId × List CollectedOutputLane) :=
  plan.collected ProcessingNode.id plan.tableLanes

theorem runtimeName_inj (plan : LoweredPlan) {first second : ProcessingNode} (hfirst : first ∈ plan.nodes)
    (hsecond : second ∈ plan.nodes) (same : first.runtimeName = second.runtimeName) : first = second := by
  obtain ⟨s, hs⟩ := plan.named first hfirst
  obtain ⟨t, ht⟩ := plan.named second hsecond
  rw [hs, ht] at same
  exact List.inj_on_of_nodup_map plan.nodup hfirst hsecond (nodeName_inj same)

theorem mem_collected {κ : Type} {plan : ReportedPlan σ} {key : ProcessingNode → κ}
    {lanes : ProcessingNode → List CollectedOutputLane} {entry : κ × List CollectedOutputLane} :
    entry ∈ plan.collected key lanes ↔
      ∃ node ∈ plan.nodes, node.dataCollector = true ∧ lanes node ≠ [] ∧ (key node, lanes node) = entry := by
  simp only [collected, List.mem_filterMap, List.mem_filter, Option.ite_none_left_eq_some, List.isEmpty_iff,
    Option.some.injEq, and_assoc, ne_eq]

end ReportedPlan

def ProcessingNode.builtLanes (node : ProcessingNode) : List (Nat × String) :=
  if node.dataCollector then node.collectedLaneNames else []

def registerEdit (new : ProcessingGraph) (registered : NodeId → List (Nat × String)) :
    LiveEdit → NodeId → List (Nat × String)
  | .remove id => Function.update registered id []
  | .add id | .restart id => Function.update registered id (new.compiledNode id).builtLanes
  | .configure _ _ => registered

/-- A live run with the overlays and lanes that it reports and the lanes that its collectors registered. -/
structure ReportingRun (σ : Type) where
  live : LiveRun
  samplingOverlays : List (NodeId × σ)
  outputs : List (String × List CollectedOutputLane)
  tables : List (NodeId × List CollectedOutputLane)
  registered : NodeId → List (Nat × String)

def reuseSamplingPoints {σ : Type} (previous next : List (NodeId × σ)) : List (NodeId × σ) :=
  next.map fun overlay =>
    (overlay.1, ((previous.find? fun old => old.1 = overlay.1).map Prod.snd).getD overlay.2)

def samplingPointMap {σ : Type} (plan : ProcessingGraph) (overlays : List (NodeId × σ)) (name : String) : Option σ :=
  (overlays.reverse.find? fun overlay => (plan.compiledNode overlay.1).runtimeName = name).map Prod.snd

def builtName (new : ProcessingGraph) (names : NameTable) : LiveEdit → List (NodeId × String)
  | .add id => [(id, (new.compiledNode id).runtimeName)]
  | .restart id => ((names id).map fun name => (id, name)).toList
  | .remove _ | .configure _ _ => []

def builtNames (new : ProcessingGraph) : NameTable → List LiveEdit → List (NodeId × String)
  | _, [] => []
  | names, edit :: edits => builtName new names edit ++ builtNames new (performEdit new names edit) edits

namespace ReportingRun

variable {σ : Type}

def start (o : Outcomes) (lookup : List UInt8 → Bool) (plan : ReportedPlan σ) : Option (ReportingRun σ) :=
  match startLive o lookup plan.toLoweredPlan with
  | .error _ => none
  | .ok live =>
    let execution := (prepareExecution lookup plan.toProcessingGraph).1
    some ⟨live, plan.samplingOverlays, plan.collectedOutputSubscriptions, plan.collectedTableSubscriptions,
      (execution.topoOrder.map LiveEdit.add).foldl (registerEdit execution) fun _ => []⟩

/-- A call that succeeds, with the edits that it made. -/
def apply (o : Outcomes) (new : ReportedPlan σ) (run : ReportingRun σ) : Option (ReportingRun σ × List LiveEdit) :=
  match applyCompiled o new.toLoweredPlan run.live, diff run.live.compiled.toProcessingGraph new.toProcessingGraph with
  | (live, .ok _), .ok edits =>
    some (⟨live, reuseSamplingPoints run.samplingOverlays new.samplingOverlays, new.collectedOutputSubscriptions,
      new.collectedTableSubscriptions, edits.foldl (registerEdit new.toProcessingGraph) run.registered⟩, edits)
  | _, _ => none

/-- The runs whose calls succeed and were all made as `allowed`. -/
inductive Reached (allowed : ReportingRun σ → ReportedPlan σ → Prop) : ReportingRun σ → Prop
  | start {o : Outcomes} {lookup : List UInt8 → Bool} {plan : ReportedPlan σ} {run : ReportingRun σ} :
    start o lookup plan = some run → Reached allowed run
  | apply {o : Outcomes} {new : ReportedPlan σ} {run run' : ReportingRun σ} {edits : List LiveEdit} :
    Reached allowed run → allowed run new → run.apply o new = some (run', edits) → Reached allowed run'

/-- The runs of calls that succeed, with the plans that they were given, the last one first; each call was made as
`allowed` says of the plans before it. -/
inductive Follows (allowed : List (ReportedPlan σ) → ReportedPlan σ → Prop) :
    List (ReportedPlan σ) → ReportingRun σ → Prop
  | start {o : Outcomes} {lookup : List UInt8 → Bool} {plan : ReportedPlan σ} {run : ReportingRun σ} :
    start o lookup plan = some run → Follows allowed [plan] run
  | apply {o : Outcomes} {plans : List (ReportedPlan σ)} {new : ReportedPlan σ} {run run' : ReportingRun σ}
    {edits : List LiveEdit} : Follows allowed plans run → allowed plans new → run.apply o new = some (run', edits) →
    Follows allowed (new :: plans) run'

/-- The change from one plan to the other builds the node, anew or again. -/
def rebuilds (old new : ProcessingGraph) (id : NodeId) : Bool :=
  (diff old new).toOption.any fun edits => .add id ∈ edits || .restart id ∈ edits

/-- The lane names that a node has in the last of the plans that it was built for. -/
def lastBuiltLanes (id : NodeId) : List (ReportedPlan σ) → List (Nat × String)
  | [] => []
  | [plan] => (plan.compiledNode id).builtLanes
  | new :: old :: plans =>
    if rebuilds old.toProcessingGraph new.toProcessingGraph id then (new.compiledNode id).builtLanes
    else lastBuiltLanes id (old :: plans)

def LanesRegistered (run : ReportingRun σ) : Prop :=
  (∀ entry ∈ run.outputs, ∃ node ∈ run.live.compiled.nodes, node.runtimeName = entry.1 ∧
    ∀ lane ∈ entry.2, (lane.member, lane.laneName) ∈ run.registered node.id) ∧
  ∀ entry ∈ run.tables, ∀ lane ∈ entry.2, (lane.member, lane.laneName) ∈ run.registered entry.1

/-- Where the new plan does not build a collector again, each lane that it reports of the collector has the name that
it had in the plan the collector was last built for. -/
def KeepsNames (plans : List (ReportedPlan σ)) (new : ReportedPlan σ) : Prop :=
  ∀ old ∈ plans.head?, ∀ node ∈ new.nodes, node.dataCollector = true →
    rebuilds old.toProcessingGraph new.toProcessingGraph node.id = false →
      ∀ lane ∈ new.outputLanes node ++ new.tableLanes node, (lane.member, lane.laneName) ∈ lastBuiltLanes node.id plans

section Lanes

variable {new : ReportedPlan σ} {run run' : ReportingRun σ} {o : Outcomes} {edits : List LiveEdit}

theorem registerEdits_eq {graph : ProcessingGraph} {registered : NodeId → List (Nat × String)} {id : NodeId}
    (nodup : (edits.map LiveEdit.node).Nodup) (kept : .remove id ∉ edits) :
    edits.foldl (registerEdit graph) registered id =
      if .add id ∈ edits ∨ .restart id ∈ edits then (graph.compiledNode id).builtLanes else registered id := by
  induction edits generalizing registered with
  | nil => simp
  | cons edit rest ih =>
    obtain ⟨once, nodup⟩ := nodup_edits nodup
    rw [List.mem_cons, not_or] at kept
    rw [List.foldl_cons, ih nodup kept.2]
    by_cases same : edit.node = id
    · subst same
      have first : .add edit.node ∉ rest ∧ .restart edit.node ∉ rest :=
        ⟨fun inside => once _ inside rfl, fun inside => once _ inside rfl⟩
      cases edit with
      | remove i => exact absurd rfl kept.1
      | add i | restart i => simp_all [registerEdit, LiveEdit.node]
      | configure i config => simp_all [registerEdit, LiveEdit.node]
    · have other : registerEdit graph registered edit id = registered id := by
        cases edit with
        | configure i config => rfl
        | remove i | add i | restart i => exact Function.update_of_ne (Ne.symm same) _ _
      have unlike : .add id ≠ edit ∧ .restart id ≠ edit :=
        ⟨fun h => same (h ▸ rfl), fun h => same (h ▸ rfl)⟩
      simp only [List.mem_cons, unlike.1, unlike.2, false_or, other]

theorem lanesRegistered_iff {live : LiveRun} {overlays : List (NodeId × σ)}
    {registered : NodeId → List (Nat × String)} (holds : live.compiled = new.toLoweredPlan) :
    LanesRegistered ⟨live, overlays, new.collectedOutputSubscriptions, new.collectedTableSubscriptions, registered⟩ ↔
      ∀ node ∈ new.nodes, node.dataCollector = true →
        ∀ lane ∈ new.outputLanes node ++ new.tableLanes node, (lane.member, lane.laneName) ∈ registered node.id := by
  simp only [LanesRegistered, holds]
  constructor
  · rintro ⟨outputs, tables⟩ node inside collector lane reported
    rcases List.mem_append.mp reported with output | table
    · obtain ⟨other, hother, name, lanes⟩ := outputs (node.runtimeName, new.outputLanes node)
        (ReportedPlan.mem_collected.mpr ⟨node, inside, collector, List.ne_nil_of_mem output, rfl⟩)
      rw [← ReportedPlan.runtimeName_inj new.toLoweredPlan hother inside name]
      exact lanes lane output
    · exact tables (node.id, new.tableLanes node)
        (ReportedPlan.mem_collected.mpr ⟨node, inside, collector, List.ne_nil_of_mem table, rfl⟩) lane table
  · intro all
    constructor
    · intro entry reported
      obtain ⟨node, inside, collector, -, rfl⟩ := ReportedPlan.mem_collected.mp reported
      exact ⟨node, inside, rfl, fun lane hlane => all node inside collector lane (List.mem_append_left _ hlane)⟩
    · intro entry reported
      obtain ⟨node, inside, collector, -, rfl⟩ := ReportedPlan.mem_collected.mp reported
      exact fun lane hlane => all node inside collector lane (List.mem_append_right _ hlane)

theorem reported_builtLanes {node : ProcessingNode} (collector : node.dataCollector = true)
    {lane : CollectedOutputLane} (reported : lane ∈ new.outputLanes node ++ new.tableLanes node) :
    (lane.member, lane.laneName) ∈ node.builtLanes := by
  rw [ProcessingNode.builtLanes, if_pos collector]
  rcases List.mem_append.mp reported with hlane | hlane
  all_goals
    obtain ⟨named, inside, found⟩ := List.mem_filterMap.mp hlane
    obtain ⟨input, -, chosen⟩ := Option.bind_eq_some_iff.mp found
    split at chosen
    · cases chosen; exact inside
    · cases chosen

theorem compiledNode_eq (plan : LoweredPlan) {node : ProcessingNode} (inside : node ∈ plan.nodes) :
    plan.compiledNode node.id = node := by
  have found := plan.compiledNode_mem (List.mem_map_of_mem inside)
  exact List.inj_on_of_nodup_map plan.nodup found.1 inside found.2

theorem apply_ok (applied : run.apply o new = some (run', edits)) :
    ∃ summary, applyCompiled o new.toLoweredPlan run.live = (run'.live, .ok summary) ∧
      diff run.live.compiled.toProcessingGraph new.toProcessingGraph = .ok edits ∧
      run' = ⟨run'.live, reuseSamplingPoints run.samplingOverlays new.samplingOverlays,
        new.collectedOutputSubscriptions, new.collectedTableSubscriptions,
        edits.foldl (registerEdit new.toProcessingGraph) run.registered⟩ := by
  unfold apply at applied
  split at applied
  next _ live summary edits' called difference =>
    cases applied
    exact ⟨summary, called, difference, rfl⟩
  next => cases applied

/-- A call that succeeds puts the new plan in force; a run that reuses cached lanes makes no edit. -/
theorem applyCompiled_compiled {plan : LoweredPlan} {live live' : LiveRun} {summary : ApplySummary}
    (ok : applyCompiled o plan live = (live', .ok summary)) :
    live'.compiled = plan ∧ live'.cachePruned = live.cachePruned ∧
      (live.cachePruned = true → diff live.compiled.toProcessingGraph plan.toProcessingGraph = .ok []) := by
  unfold applyCompiled at ok
  split at ok
  · cases ok
  next unchanged =>
    cases ok
    exact ⟨rfl, rfl, fun _ => unchanged⟩
  · split at ok
    · cases ok
    next whole =>
      split at ok
      · cases ok
      · cases ok
        exact ⟨rfl, rfl, fun pruned => absurd pruned whole⟩

/-- A call registers the lanes of what it builds anew and leaves the others. -/
theorem apply_registered (applied : run.apply o new = some (run', edits)) {node : ProcessingNode}
    (inside : node ∈ new.nodes) : run'.registered node.id =
      if rebuilds run.live.compiled.toProcessingGraph new.toProcessingGraph node.id then node.builtLanes
      else run.registered node.id := by
  obtain ⟨summary, called, difference, result⟩ := apply_ok applied
  have script := diff_editScript difference
  have stays : .remove node.id ∉ edits := fun gone => ((script.remove _).mp gone).2 (List.mem_map_of_mem inside)
  have builds : rebuilds run.live.compiled.toProcessingGraph new.toProcessingGraph node.id = true ↔
      .add node.id ∈ edits ∨ .restart node.id ∈ edits := by
    simp [rebuilds, difference, Except.toOption]
  rw [result]
  show edits.foldl (registerEdit new.toProcessingGraph) run.registered node.id = _
  rw [registerEdits_eq script.nodup stays, compiledNode_eq new.toLoweredPlan inside]
  exact if_congr builds.symm rfl rfl

end Lanes

/-- The lanes of every node of the plan are registered, also where cached lanes are left out: no collector is. -/
theorem start_registered {o : Outcomes} {lookup : List UInt8 → Bool} {plan : ReportedPlan σ}
    {run : ReportingRun σ} (started : start o lookup plan = some run) : run.live.compiled = plan.toLoweredPlan ∧
      run.outputs = plan.collectedOutputSubscriptions ∧ run.tables = plan.collectedTableSubscriptions ∧
      ∀ node ∈ plan.nodes, run.registered node.id = node.builtLanes := by
  unfold start at started
  split at started
  · cases started
  next live running =>
    have holds : live.compiled = plan.toLoweredPlan := by
      unfold startLive at running
      dsimp only at running
      split at running <;> cases running
      rfl
    cases started
    refine ⟨holds, rfl, rfl, fun node inside => ?_⟩
    obtain ⟨within, -, kept, -⟩ := prepareExecution_within lookup plan.toLoweredPlan
    have script := start_editScript (executionPlan lookup plan.toLoweredPlan)
    have built := @registerEdits_eq _ (executionPlan lookup plan.toLoweredPlan).toProcessingGraph (fun _ => [])
      node.id script.nodup (by simp)
    show ((executionPlan lookup plan.toLoweredPlan).topoOrder.map LiveEdit.add).foldl (registerEdit
      (executionPlan lookup plan.toLoweredPlan).toProcessingGraph) (fun _ => []) node.id = _
    rw [built]
    by_cases executed : node ∈ (executionPlan lookup plan.toLoweredPlan).nodes
    · have added := (executionPlan lookup plan.toLoweredPlan).mem_topoOrder.mpr (List.mem_map_of_mem executed)
      rw [if_pos (.inl (List.mem_map_of_mem added)), compiledNode_eq _ executed]
    · have out : .add node.id ∉ (executionPlan lookup plan.toLoweredPlan).topoOrder.map LiveEdit.add := by
        intro added
        obtain ⟨id, ordered, same⟩ := List.mem_map.mp added
        cases same
        obtain ⟨other, hother, same⟩ :=
          List.mem_map.mp ((executionPlan lookup plan.toLoweredPlan).mem_topoOrder.mp ordered)
        exact executed (List.inj_on_of_nodup_map plan.nodup (within.subset hother) inside same ▸ hother)
      have plain : node.dataCollector ≠ true := fun collector => executed (kept node inside (by rw [collector]; rfl))
      rw [if_neg (by simpa using out), ProcessingNode.builtLanes, if_neg plain]

/-- What a run has registered of a node of its plan are the lanes that it was last built with. -/
theorem Follows.registered {allowed : List (ReportedPlan σ) → ReportedPlan σ → Prop} {plans : List (ReportedPlan σ)}
    {run : ReportingRun σ} (follows : Follows allowed plans run) : ∃ plan rest, plans = plan :: rest ∧
      run.live.compiled = plan.toLoweredPlan ∧ run.outputs = plan.collectedOutputSubscriptions ∧
      run.tables = plan.collectedTableSubscriptions ∧
      ∀ node ∈ plan.nodes, run.registered node.id = lastBuiltLanes node.id plans := by
  induction follows with
  | @start o lookup plan run started =>
    obtain ⟨holds, outputs, tables, lanes⟩ := start_registered started
    refine ⟨plan, [], rfl, holds, outputs, tables, fun node inside => ?_⟩
    rw [lanes node inside, lastBuiltLanes, compiledNode_eq plan.toLoweredPlan inside]
  | @apply o plans new run run' edits _ _ applied ih =>
    obtain ⟨old, rest, rfl, holds, -, -, lanes⟩ := ih
    obtain ⟨summary, called, difference, result⟩ := apply_ok applied
    refine ⟨new, old :: rest, rfl, (applyCompiled_compiled called).1, ?_, ?_, fun node inside => ?_⟩
    · rw [result]
    · rw [result]
    rw [apply_registered applied inside, lastBuiltLanes, compiledNode_eq new.toLoweredPlan inside, holds]
    split
    · rfl
    next passed =>
      -- What the change passes over was in the old plan: all else is added.
      have present : node.id ∈ old.ids := by
        by_contra absent
        rw [holds] at difference
        refine passed ?_
        have added := ((diff_editScript difference).add node.id).mpr ⟨List.mem_map_of_mem inside, absent⟩
        simp [rebuilds, difference, Except.toOption, added]
      obtain ⟨other, hother, same⟩ := List.mem_map.mp present
      rw [← same, lanes other hother]

theorem Follows.lanesRegistered_iff {allowed : List (ReportedPlan σ) → ReportedPlan σ → Prop}
    {plans : List (ReportedPlan σ)} {plan : ReportedPlan σ} {run : ReportingRun σ}
    (follows : Follows allowed (plan :: plans) run) : run.LanesRegistered ↔
      ∀ node ∈ plan.nodes, node.dataCollector = true → ∀ lane ∈ plan.outputLanes node ++ plan.tableLanes node,
        (lane.member, lane.laneName) ∈ lastBuiltLanes node.id (plan :: plans) := by
  obtain ⟨last, rest, same, holds, outputs, tables, lanes⟩ := follows.registered
  obtain ⟨rfl, rfl⟩ := List.cons.inj same
  obtain ⟨live, overlays, _, _, registered⟩ := run
  dsimp only at holds outputs tables lanes
  rw [outputs, tables, ReportingRun.lanesRegistered_iff holds]
  exact forall₂_congr fun node inside => by rw [lanes node inside]

theorem keepsNames_iff {plans : List (ReportedPlan σ)} {old new : ReportedPlan σ} :
    KeepsNames (old :: plans) new ↔ ∀ node ∈ new.nodes, node.dataCollector = true →
      ∀ lane ∈ new.outputLanes node ++ new.tableLanes node,
        (lane.member, lane.laneName) ∈ lastBuiltLanes node.id (new :: old :: plans) := by
  have each : ∀ node ∈ new.nodes, node.dataCollector = true →
      ((rebuilds old.toProcessingGraph new.toProcessingGraph node.id = false →
        ∀ lane ∈ new.outputLanes node ++ new.tableLanes node,
          (lane.member, lane.laneName) ∈ lastBuiltLanes node.id (old :: plans)) ↔
      ∀ lane ∈ new.outputLanes node ++ new.tableLanes node,
        (lane.member, lane.laneName) ∈ lastBuiltLanes node.id (new :: old :: plans)) := by
    intro node inside collector
    rw [lastBuiltLanes, compiledNode_eq new.toLoweredPlan inside]
    cases rebuilds old.toProcessingGraph new.toProcessingGraph node.id with
    | false => simp
    | true => simpa using fun lane reported =>
        reported_builtLanes collector (List.mem_append.mpr reported)
  simp only [KeepsNames, List.head?_cons, Option.mem_some_iff, forall_eq']
  exact forall_congr' fun node => forall₂_congr (each node)

/-- The reported lanes are the registered ones while every call keeps the names of the collectors that it does not
build, and a call that does not ends it. -/
theorem reported_lanes_registered_iff :
    (∀ (plans : List (ReportedPlan σ)) (run : ReportingRun σ), Follows KeepsNames plans run → run.LanesRegistered) ∧
    ∀ (o : Outcomes) (plans : List (ReportedPlan σ)) (new : ReportedPlan σ) (run run' : ReportingRun σ)
      (edits : List LiveEdit), Follows (fun _ _ => True) plans run → run.apply o new = some (run', edits) →
      (run'.LanesRegistered ↔ KeepsNames plans new) := by
  constructor
  · intro plans run follows
    cases follows with
    | @start o lookup plan run started =>
      rw [(Follows.start started : Follows KeepsNames [plan] run).lanesRegistered_iff]
      intro node inside collector lane reported
      rw [lastBuiltLanes, compiledNode_eq plan.toLoweredPlan inside]
      exact reported_builtLanes collector reported
    | @apply o plans new run run' edits follows keeps applied =>
      obtain ⟨old, rest, rfl, -⟩ := follows.registered
      exact (Follows.apply follows keeps applied).lanesRegistered_iff.mpr (keepsNames_iff.mp keeps)
  · intro o plans new run run' edits follows applied
    obtain ⟨old, rest, rfl, -⟩ := follows.registered
    exact (Follows.apply follows trivial applied).lanesRegistered_iff.trans keepsNames_iff.symm

section Stores

/-- The nodes that edits of different nodes build: an added one under its own name, a restarted one under the name
that it has. -/
theorem mem_builtNames {new : ProcessingGraph} {names : NameTable} {edits : List LiveEdit}
    (nodup : (edits.map LiveEdit.node).Nodup) {id : NodeId} {name : String} :
    (id, name) ∈ builtNames new names edits ↔
      .add id ∈ edits ∧ name = (new.compiledNode id).runtimeName ∨ .restart id ∈ edits ∧ names id = some name := by
  induction edits generalizing names with
  | nil => simp [builtNames]
  | cons edit rest ih =>
    obtain ⟨once, nodup⟩ := nodup_edits nodup
    have later : (.restart id ∈ rest ∧ performEdit new names edit id = some name) ↔
        (.restart id ∈ rest ∧ names id = some name) := by
      refine and_congr_right fun inside => ?_
      have other : id ≠ edit.node := once _ inside
      cases edit with
      | remove i | add i => rw [performEdit, Function.update_of_ne (show id ≠ i from other)]
      | configure i config | restart i => rfl
    rw [builtNames, List.mem_append, ih nodup, later]
    cases edit with
    | add i =>
      simp only [builtName, Prod.mk.injEq, List.mem_cons, List.not_mem_nil, or_false, LiveEdit.add.injEq,
        reduceCtorEq, false_or]
      constructor
      · rintro (⟨rfl, same⟩ | other | other)
        exacts [.inl ⟨.inl rfl, same⟩, .inl ⟨.inr other.1, other.2⟩, .inr other]
      · rintro (⟨rfl | other, same⟩ | other)
        exacts [.inl ⟨rfl, same⟩, .inr (.inl ⟨other, same⟩), .inr (.inr other)]
    | restart i =>
      simp only [builtName, Option.mem_toList, Option.map_eq_some_iff, Prod.mk.injEq, List.mem_cons,
        LiveEdit.restart.injEq, reduceCtorEq, false_or]
      constructor
      · rintro (⟨_, named, rfl, rfl⟩ | other | other)
        exacts [.inr ⟨.inl rfl, named⟩, .inl other, .inr ⟨.inr other.1, other.2⟩]
      · rintro (other | ⟨rfl | other, named⟩)
        exacts [.inr (.inl other), .inl ⟨name, named, rfl, rfl⟩, .inr (.inr ⟨other, named⟩)]
    | remove i => simp [builtName]
    | configure i config => simp [builtName]

variable {plan : LoweredPlan} {overlays : List (NodeId × σ)} {id : NodeId} {store : σ}

theorem samplingPointMap_own (nodup : (overlays.map Prod.fst).Nodup)
    (within : ∀ overlay ∈ overlays, overlay.1 ∈ plan.ids) (inside : (id, store) ∈ overlays) :
    samplingPointMap plan.toProcessingGraph overlays (plan.compiledNode id).runtimeName = some store := by
  unfold samplingPointMap
  cases found : overlays.reverse.find? fun overlay =>
      (plan.compiledNode overlay.1).runtimeName = (plan.compiledNode id).runtimeName with
  | none => exact absurd (List.find?_eq_none.mp found _ (List.mem_reverse.mpr inside)) (by simp)
  | some overlay =>
    have member := List.mem_reverse.mp (List.mem_of_find?_eq_some found)
    have first := plan.compiledNode_mem (within _ member)
    have second := plan.compiledNode_mem (within _ inside)
    have same := congrArg ProcessingNode.id
      (ReportedPlan.runtimeName_inj plan first.1 second.1 (by simpa using List.find?_some found))
    rw [first.2, second.2] at same
    rw [List.inj_on_of_nodup_map nodup member inside same]
    rfl

theorem samplingPointMap_name (within : ∀ overlay ∈ overlays, overlay.1 ∈ plan.ids) {slug : String}
    (found : samplingPointMap plan.toProcessingGraph overlays (nodeName id slug) = some store) :
    nodeName id slug = (plan.compiledNode id).runtimeName := by
  obtain ⟨overlay, hfound, -⟩ := Option.map_eq_some_iff.mp found
  have name := List.find?_some hfound
  rw [decide_eq_true_eq] at name
  have node := plan.compiledNode_mem (within _ (List.mem_reverse.mp (List.mem_of_find?_eq_some hfound)))
  obtain ⟨other, named⟩ := plan.named _ node.1
  rw [node.2] at named
  rw [← nodeName_inj (named.symm.trans name), name, nodeName_inj (named.symm.trans name)]

/-- A run that reuses no cached lane has the nodes of its plan, each under a name with its number. -/
theorem Reached.mirrors {allowed : ReportingRun σ → ReportedPlan σ → Prop} {run : ReportingRun σ}
    (h : Reached allowed run) (full : run.live.cachePruned = false) :
    Mirrors run.live.compiled.toProcessingGraph run.live.table := by
  induction h with
  | start started =>
    unfold ReportingRun.start at started
    split at started
    · cases started
    next live running =>
      cases started
      obtain ⟨holds, partway⟩ := startLive_partway running full
      have mirrors := partway.mirrors mirrors_empty (start_editScript _)
      rwa [← holds] at mirrors
  | apply _ _ applied ih =>
    obtain ⟨summary, called, -, -⟩ := apply_ok applied
    have before := (applyCompiled_compiled called).2.1.symm.trans full
    obtain ⟨same, -, mirrors, -⟩ := applyCompiled_ok (ih before) before called
    exact same ▸ mirrors

/-- A call builds each node with an overlay for the store that the overlay shows, just when the ones that it restarts
still have the names that they run under. -/
theorem sampling_stores_survive_iff {o : Outcomes} {new : ReportedPlan σ} {run run' : ReportingRun σ}
    {edits : List LiveEdit} (reached : Reached (fun _ _ => True) run) (applied : run.apply o new = some (run', edits)) :
    (∀ id name store, (id, name) ∈ builtNames new.toProcessingGraph run.live.table.names edits →
      (id, store) ∈ run'.samplingOverlays →
        samplingPointMap new.toProcessingGraph run'.samplingOverlays name = some store) ↔
    ∀ id, .restart id ∈ edits → id ∈ new.samplingOverlays.map Prod.fst →
      run.live.table.names id = some (new.compiledNode id).runtimeName := by
  obtain ⟨summary, called, difference, result⟩ := apply_ok applied
  have script := diff_editScript difference
  have shown : run'.samplingOverlays.map Prod.fst = new.samplingOverlays.map Prod.fst := by
    rw [result]
    simp [reuseSamplingPoints, Function.comp_def]
  have within : ∀ overlay ∈ run'.samplingOverlays, overlay.1 ∈ new.ids := by
    intro overlay inside
    obtain ⟨other, hother, same⟩ := List.mem_map.mp (shown ▸ List.mem_map_of_mem inside)
    exact same ▸ new.overlays_nodes other hother
  have own := @samplingPointMap_own σ new.toLoweredPlan run'.samplingOverlays
  constructor
  · intro all id restarted overlay
    have full : run.live.cachePruned = false := by
      cases pruned : run.live.cachePruned with
      | false => rfl
      | true =>
        cases difference.symm.trans ((applyCompiled_compiled called).2.2 pruned)
        cases restarted
    have mirrors := reached.mirrors full
    obtain ⟨name, named⟩ := Option.isSome_iff_exists.mp ((mirrors.mem_ids id).mp (script.restart id restarted).1)
    obtain ⟨⟨_, store⟩, inside, rfl⟩ := List.mem_map.mp (shown ▸ overlay)
    have found := all _ name store ((mem_builtNames script.nodup).mpr (.inr ⟨restarted, named⟩)) inside
    obtain ⟨slug, rfl⟩ := mirrors.named _ name named
    rw [named, ← samplingPointMap_name within found]
  · intro keeps id name store built inside
    have overlay : id ∈ new.samplingOverlays.map Prod.fst := shown ▸ List.mem_map_of_mem inside
    have called : name = (new.compiledNode id).runtimeName := by
      rcases (mem_builtNames script.nodup).mp built with added | restarted
      · exact added.2
      · exact Option.some.inj (restarted.2.symm.trans (keeps id restarted.1 overlay))
    rw [called]
    exact own (shown ▸ new.overlays_nodup) within inside

end Stores

end ReportingRun

def decoderTitle (renamed : Bool) : String := if renamed then "gps" else "spi"

/-- A source, a line filter, a decoder that shows where it samples, and a collector of its words; the decoder may have
another title and another state. -/
def decoderPlan (renamed edited : Bool) : ReportedPlan Nat where
  nodes :=
    let title := decoderTitle renamed
    let input := ⟨.word, title ++ ".Words", 3, 0, title, "Words"⟩
    [simpleNode 1 "capture_source" .null true, simpleNode 2 "line_filter" .null false,
      { simpleNode 3 "spi_decoder" (.bool edited) false with runtimeName := nodeName 3 title },
      { simpleNode 4 "viewer" .null false with
        dataCollector := true, collectedLaneNames := defaultLaneNames [] [(0, input)], resolved := [((0, 0), input)] }]
  edges := [⟨(1, "ch0"), (2, "in"), 1000, PortKind.sample⟩, ⟨(2, "out"), (3, "clk"), 1000, PortKind.sample⟩,
    ⟨(3, "words"), (4, "in0"), 100, PortKind.word⟩]
  nodup := by cases renamed <;> cases edited <;> decide
  closed := by cases renamed <;> cases edited <;> decide
  acyclic := Kahn.acyclic_of_rank id (by decide)
  named := by
    intro node inside
    simp only [List.mem_cons, List.not_mem_nil, or_false] at inside
    rcases inside with rfl | rfl | rfl | rfl
    exacts [⟨"node", rfl⟩, ⟨"node", rfl⟩, ⟨decoderTitle renamed, rfl⟩, ⟨"node", rfl⟩]
  collectedSourceLabels _ := []
  decoderTableColumn _ _ := false
  retainedOutputs := [(3, 0)]
  samplingOverlays := [(3, 7)]
  overlays_nodup := by decide
  overlays_nodes := by cases renamed <;> cases edited <;> decide

def decoderOutcomes : Outcomes where
  build := fun node _ => .ok (if node.id = 1 then [] else if node.id = 2 then ["in"]
    else if node.id = 3 then ["clk"] else ["in0"])
  manager := fun _ => .done

def spiRun : ReportingRun Nat :=
  (ReportingRun.start decoderOutcomes (fun _ => false) (decoderPlan false false)).getD
    ⟨⟨Supervisor.empty, emptyPlan, false⟩, [], [], [], fun _ => []⟩

theorem spiRun_reached {allowed : ReportingRun Nat → ReportedPlan Nat → Prop} : ReportingRun.Reached allowed spiRun :=
  .start (show ReportingRun.start decoderOutcomes (fun _ => false) (decoderPlan false false) = some spiRun from rfl)

theorem spiRun_follows {allowed : List (ReportedPlan Nat) → ReportedPlan Nat → Prop} :
    ReportingRun.Follows allowed [decoderPlan false false] spiRun :=
  .start (show ReportingRun.start decoderOutcomes (fun _ => false) (decoderPlan false false) = some spiRun from rfl)

/-- The decoder gets another state and is restarted. -/
theorem reported_lanes_registered_restarted : spiRun.LanesRegistered ∧
    ∃ run, spiRun.apply decoderOutcomes (decoderPlan false true) = some (run, [.restart 3]) ∧
      (run.LanesRegistered ↔ ReportingRun.KeepsNames [decoderPlan false false] (decoderPlan false true)) :=
  ⟨ReportingRun.reported_lanes_registered_iff.1 _ spiRun spiRun_follows, _, rfl,
    ReportingRun.reported_lanes_registered_iff.2 decoderOutcomes _ _ spiRun _ _ spiRun_follows rfl⟩

/-- It gets another title: nothing is built, and the lane is reported under a name that none is registered by. -/
theorem renamed_lane_unregistered :
    ∃ (plans : List (ReportedPlan Nat)) (run : ReportingRun Nat),
      ReportingRun.Follows (fun _ _ => True) plans run ∧ ¬run.LanesRegistered := by
  refine ⟨_, _, @ReportingRun.Follows.apply _ _ decoderOutcomes _ (decoderPlan true false) _ _ _ spiRun_follows
    trivial rfl, ?_⟩
  rw [ReportingRun.lanesRegistered_iff rfl]
  intro all
  have lane := all _ (List.mem_cons_of_mem _ (List.mem_cons_of_mem _ (List.mem_cons_of_mem _ List.mem_cons_self))) rfl
    ⟨0, "gps.Words", "gps", ⟨.word, "gps.Words", 3, 0, "gps", "Words"⟩⟩ List.mem_cons_self
  exact absurd lane (by decide)

theorem sampling_stores_survive_restarted :
    ∃ run, spiRun.apply decoderOutcomes (decoderPlan false true) = some (run, [.restart 3]) ∧
      ∀ id name store, (id, name) ∈ builtNames (decoderPlan false true).toProcessingGraph spiRun.live.table.names
          [.restart 3] → (id, store) ∈ run.samplingOverlays →
        samplingPointMap (decoderPlan false true).toProcessingGraph run.samplingOverlays name = some store := by
  have applied : spiRun.apply decoderOutcomes (decoderPlan false true) = some (_, [.restart 3]) := rfl
  refine ⟨_, applied, (ReportingRun.sampling_stores_survive_iff spiRun_reached applied).mpr fun id restarted _ => ?_⟩
  cases LiveEdit.restart.inj (List.mem_singleton.mp restarted)
  rfl

/-- It gets another title and another state: it is restarted under its old name, which leads to no store. -/
theorem renamed_restart_loses_store :
    ∃ (run run' : ReportingRun Nat) (o : Outcomes) (new : ReportedPlan Nat) (edits : List LiveEdit) (id : NodeId)
      (name : String) (store : Nat), ReportingRun.Reached (fun _ _ => True) run ∧
        run.apply o new = some (run', edits) ∧
        (id, name) ∈ builtNames new.toProcessingGraph run.live.table.names edits ∧
        (id, store) ∈ run'.samplingOverlays ∧
        samplingPointMap new.toProcessingGraph run'.samplingOverlays name ≠ some store :=
  ⟨spiRun, _, decoderOutcomes, decoderPlan true true, [.restart 3], 3, nodeName 3 "spi", 7, spiRun_reached, rfl,
    List.mem_cons_self, List.mem_cons_self, by decide⟩

end LogicConduit
