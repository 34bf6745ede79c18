import LogicConduit.LiveRun
import LogicConduit.Reachability
import LogicConduit.StableSort

namespace LogicConduit

open ProcessingGraph

section Feeding

variable {stack reachable : List NodeId} {edges : List ProcessingEdge} {fuel : Nat}

theorem push_fresh (incoming : List ProcessingEdge) (stack reachable : List NodeId) :
    ∃ fresh, incoming.foldl (fun (state : List NodeId × List NodeId) e =>
        if e.source.1 ∈ state.2 then state else (e.source.1 :: state.1, e.source.1 :: state.2)) (stack, reachable) =
          (fresh ++ stack, fresh ++ reachable) ∧
      fresh ⊆ incoming.map (·.source.1) ∧ incoming.map (·.source.1) ⊆ fresh ++ reachable ∧
      (reachable.Nodup → (fresh ++ reachable).Nodup) := by
  induction incoming generalizing stack reachable with
  | nil => exact ⟨[], rfl, List.nil_subset _, List.nil_subset _, id⟩
  | cons e rest ih =>
    rw [List.foldl_cons, List.map_cons]
    split
    · next met =>
      obtain ⟨fresh, pushed, came, all, nodup⟩ := ih stack reachable
      exact ⟨fresh, pushed, List.subset_cons_of_subset _ came,
        List.cons_subset.mpr ⟨List.mem_append_right _ met, all⟩, nodup⟩
    · next unmet =>
      obtain ⟨fresh, pushed, came, all, nodup⟩ := ih (e.source.1 :: stack) (e.source.1 :: reachable)
      refine ⟨fresh ++ [e.source.1], by simpa using pushed, ?_, by simpa using all, fun h => ?_⟩
      · exact List.append_subset.mpr ⟨List.subset_cons_of_subset _ came, by simp⟩
      · simpa using nodup (List.nodup_cons.mpr ⟨unmet, h⟩)

theorem feeding_keeps {id : NodeId} (h : id ∈ reachable) : id ∈ feeding edges fuel stack reachable := by
  induction fuel generalizing stack reachable with
  | zero => exact h
  | succ fuel ih =>
    cases stack with
    | nil => exact h
    | cons top stack =>
      obtain ⟨fresh, pushed, -⟩ := push_fresh (edges.filter fun e => e.target.1 = top) stack reachable
      simp only [feeding, pushed]
      exact ih (List.mem_append_right _ h)

theorem feeding_sound {id : NodeId} (top : ∀ id ∈ stack, id ∈ reachable) (h : id ∈ feeding edges fuel stack reachable) :
    ∃ met ∈ reachable, Reachability.Path (edges.map fun e => (e.source.1, e.target.1)) id met := by
  induction fuel generalizing stack reachable with
  | zero => exact ⟨id, h, .refl⟩
  | succ fuel ih =>
    cases stack with
    | nil => exact ⟨id, h, .refl⟩
    | cons v stack =>
      obtain ⟨fresh, pushed, came, -⟩ := push_fresh (edges.filter fun e => e.target.1 = v) stack reachable
      simp only [feeding, pushed] at h
      obtain ⟨met, inside, path⟩ := ih (fun u inside => List.mem_append.mpr ((List.mem_append.mp inside).imp_right
        fun h => top u (List.mem_cons_of_mem _ h))) h
      rcases List.mem_append.mp inside with new | old
      · obtain ⟨e, he, rfl⟩ := List.mem_map.mp (came new)
        obtain ⟨he, target⟩ := List.mem_filter.mp he
        refine ⟨v, top v List.mem_cons_self, path.tail (List.mem_map.mpr ⟨e, he, ?_⟩)⟩
        rw [of_decide_eq_true target]
      · exact ⟨met, old, path⟩

theorem feeding_closed (ids : List NodeId) (known : ∀ e ∈ edges, e.source.1 ∈ ids) (nodup : reachable.Nodup)
    (inside : reachable ⊆ ids) (enough : stack.length + ids.length ≤ fuel + reachable.length)
    (done : ∀ e ∈ edges, e.target.1 ∈ reachable → e.target.1 ∈ stack ∨ e.source.1 ∈ reachable) :
    ∀ e ∈ edges, e.target.1 ∈ feeding edges fuel stack reachable → e.source.1 ∈ feeding edges fuel stack reachable := by
  induction fuel generalizing stack reachable with
  | zero =>
    have few := (nodup.subperm inside).length_le
    rw [List.eq_nil_of_length_eq_zero (show stack.length = 0 by omega)] at done
    exact fun e he h => (done e he h).resolve_left List.not_mem_nil
  | succ fuel ih =>
    cases stack with
    | nil => exact fun e he h => (done e he h).resolve_left List.not_mem_nil
    | cons v stack =>
      obtain ⟨fresh, pushed, came, all, distinct⟩ := push_fresh (edges.filter fun e => e.target.1 = v) stack reachable
      rw [List.length_cons] at enough
      simp only [feeding, pushed]
      refine ih (distinct nodup) (List.append_subset.mpr ⟨fun u new => ?_, inside⟩)
        (by simp only [List.length_append]; omega) fun e he met => ?_
      · obtain ⟨e, he, rfl⟩ := List.mem_map.mp (came new)
        exact known e (List.mem_filter.mp he).1
      · by_cases here : e.target.1 = v
        · exact Or.inr (all (List.mem_map_of_mem (List.mem_filter.mpr ⟨he, by simpa using here⟩)))
        · rcases List.mem_append.mp met with new | old
          · exact Or.inl (List.mem_append_left _ new)
          · exact (done e he old).imp (fun waits => List.mem_append_right _ ((List.mem_cons.mp waits).resolve_left here))
              (List.mem_append_right _)

end Feeding

/-- The nodes and edges of what is executed are of the plan, with all of its sinks and collectors, and each edge
joins nodes that are executed. -/
theorem prepareExecution_within (lookup : List UInt8 → Bool) (plan : LoweredPlan) :
    (prepareExecution lookup plan.toProcessingGraph).1.nodes.Sublist plan.nodes ∧
    (prepareExecution lookup plan.toProcessingGraph).1.edges.Sublist plan.edges ∧
    (∀ node ∈ plan.nodes, (node.dataCollector || node.sink) = true →
      node ∈ (prepareExecution lookup plan.toProcessingGraph).1.nodes) ∧
    ∀ e ∈ (prepareExecution lookup plan.toProcessingGraph).1.edges,
      e.source.1 ∈ (prepareExecution lookup plan.toProcessingGraph).1.ids ∧
      e.target.1 ∈ (prepareExecution lookup plan.toProcessingGraph).1.ids := by
  unfold prepareExecution
  dsimp only
  split
  · exact ⟨List.Sublist.refl _, List.Sublist.refl _, fun node inside _ => inside, plan.closed⟩
  · refine ⟨List.filter_sublist, List.filter_sublist.trans List.filter_sublist, ?_, ?_⟩
    · intro node inside kind
      refine List.mem_filter.mpr ⟨inside, decide_eq_true (feeding_keeps ?_)⟩
      exact List.mem_map_of_mem (List.mem_filter.mpr ⟨inside, kind⟩)
    · intro e inside
      obtain ⟨uncached, ends⟩ := List.mem_filter.mp inside
      simp only [Bool.and_eq_true, decide_eq_true_eq] at ends
      have closed := plan.closed e (List.mem_filter.mp uncached).1
      constructor
      · obtain ⟨node, member, same⟩ := List.mem_map.mp closed.1
        exact List.mem_map.mpr ⟨node, List.mem_filter.mpr ⟨member, by simpa [same] using ends.1⟩, same⟩
      · obtain ⟨node, member, same⟩ := List.mem_map.mp closed.2
        exact List.mem_map.mpr ⟨node, List.mem_filter.mpr ⟨member, by simpa [same] using ends.2⟩, same⟩

def executionPlan (lookup : List UInt8 → Bool) (plan : LoweredPlan) : LoweredPlan where
  toProcessingGraph := (prepareExecution lookup plan.toProcessingGraph).1
  nodup := plan.nodup.sublist ((prepareExecution_within lookup plan).1.map _)
  closed := (prepareExecution_within lookup plan).2.2.2
  acyclic := fun v cycle => plan.acyclic v
    (Relation.TransGen.mono (fun _ _ link => ((prepareExecution_within lookup plan).2.1.map _).subset link) v v cycle)
  named := fun node inside => plan.named node ((prepareExecution_within lookup plan).1.subset inside)

/-- A chain of edges that are not read from the repository leads from the node to a sink or a collector. -/
inductive Needed (lookup : List UInt8 → Bool) (plan : ProcessingGraph) : NodeId → Prop
  | seed {node : ProcessingNode} : node ∈ plan.nodes → (node.dataCollector || node.sink) = true →
      Needed lookup plan node.id
  | feeds {e : ProcessingEdge} : e ∈ plan.edges → e.target ∉ cachedInputs lookup plan →
      Needed lookup plan e.target.1 → Needed lookup plan e.source.1

theorem mem_feeding_iff (lookup : List UInt8 → Bool) (plan : LoweredPlan) {id : NodeId} :
    id ∈ feeding (plan.edges.filter fun e => e.target ∉ cachedInputs lookup plan.toProcessingGraph) plan.nodes.length
      ((plan.nodes.filter fun node => node.dataCollector || node.sink).map ProcessingNode.id).reverse
      ((plan.nodes.filter fun node => node.dataCollector || node.sink).map ProcessingNode.id) ↔
    Needed lookup plan.toProcessingGraph id := by
  have within : ((plan.nodes.filter fun node => node.dataCollector || node.sink).map ProcessingNode.id).Sublist plan.ids :=
    List.filter_sublist.map _
  constructor
  · intro h
    obtain ⟨met, seed, path⟩ := feeding_sound (fun _ => List.mem_reverse.mp) h
    clear h
    induction path using Relation.ReflTransGen.head_induction_on with
    | refl =>
      obtain ⟨sink, kept, rfl⟩ := List.mem_map.mp seed
      obtain ⟨inside, kind⟩ := List.mem_filter.mp kept
      exact .seed inside kind
    | head link _ ih =>
      obtain ⟨e, he, ends⟩ := List.mem_map.mp link
      obtain ⟨inside, uncached⟩ := List.mem_filter.mp he
      cases ends
      exact .feeds inside (by simpa using uncached) ih
  · intro h
    induction h with
    | seed inside kind => exact feeding_keeps (List.mem_map_of_mem (List.mem_filter.mpr ⟨inside, kind⟩))
    | feeds inside uncached _ ih =>
      refine feeding_closed plan.ids (fun e he => (plan.closed e (List.mem_filter.mp he).1).1)
        (plan.nodup.sublist within) within.subset ?_ (fun _ _ h => Or.inl (List.mem_reverse.mpr h)) _
        (List.mem_filter.mpr ⟨inside, by simpa using uncached⟩) ih
      simp [ProcessingGraph.ids, Nat.add_comm]

open Classical in
/-- Where some lane is read from the repository, the nodes that are needed without it are executed, each with all
of its edges that are not read, in the plan's order. -/
theorem execution_keeps_needed (lookup : List UInt8 → Bool) (plan : LoweredPlan) :
    prepareExecution lookup plan.toProcessingGraph =
      if cachedInputs lookup plan.toProcessingGraph = [] then (plan.toProcessingGraph, false)
      else ({ nodes := plan.nodes.filter fun node => Needed lookup plan.toProcessingGraph node.id
              edges := plan.edges.filter fun e => e.target ∉ cachedInputs lookup plan.toProcessingGraph ∧
                Needed lookup plan.toProcessingGraph e.target.1 }, true) := by
  rw [prepareExecution]
  split
  · rfl
  · simp only [mem_feeding_iff, List.filter_filter, Prod.mk.injEq, ProcessingGraph.mk.injEq, and_true, true_and]
    refine List.filter_congr fun e he => ?_
    rw [Bool.eq_iff_iff]
    simp only [Bool.and_eq_true, decide_eq_true_eq]
    exact ⟨fun h => ⟨h.2, h.1.2⟩, fun h => ⟨⟨.feeds he (by simpa using h.1) h.2, h.2⟩, h.1⟩⟩

section Preview

variable {lookup : List UInt8 → Bool} {node : ProcessingNode}

def members (inputs : ResolvedInputs) (definition : Nat) : List (Nat × ResolvedInput) :=
  sortBy Prod.fst ((inputs.filter fun input => input.1.1 = definition).map fun input => (input.1.2, input.2))

def laneName (node : ProcessingNode) (member : Nat) : Option String :=
  (node.collectedLaneNames.find? fun name => name.1 = member).map Prod.snd

def retainedLanes (lookup : List UInt8 → Bool) (node : ProcessingNode) : List ((Nat × ResolvedInput) × List UInt8) :=
  (members node.resolved 0).filterMap fun lane =>
    (node.derivedWordCaches[lane.1]?.join.filter lookup).map (lane, ·)

def previewNode (lookup : List UInt8 → Bool) (node : ProcessingNode) : Option ProcessingNode :=
  let retained := retainedLanes lookup node
  if node.dataCollector && !retained.isEmpty then
    some { node with
      resolved := retained.zipIdx.map fun lane => ((0, lane.2), lane.1.1.2)
      collectedLaneNames := retained.zipIdx.filterMap fun lane => (laneName node lane.1.1.1).map (lane.2, ·)
      derivedWordCaches := retained.map (some ·.2) }
  else none

/-- What is shown before a run: the lanes that can be read from the repository, numbered anew. -/
def prepareCachedPreview (lookup : List UInt8 → Bool) (plan : ProcessingGraph) : Option ProcessingGraph :=
  let nodes := plan.nodes.filterMap (previewNode lookup)
  if nodes.isEmpty then none else some ⟨nodes, []⟩

/-- The lanes of a collector: the input, the name and the cache of each. -/
def collectorLanes (node : ProcessingNode) : List (ResolvedInput × Option String × Option (List UInt8)) :=
  (members node.resolved 0).map fun lane => (lane.2, laneName node lane.1, node.derivedWordCaches[lane.1]?.join)

theorem find?_renumbered {α : Type} (name : α → Option String) {lanes : List α} {lane : α × Nat} (h : lane ∈ lanes.zipIdx) :
    ((lanes.zipIdx.filterMap fun lane => (name lane.1).map (lane.2, ·)).find? (·.1 = lane.2)).map Prod.snd = name lane.1 := by
  rw [List.find?_filterMap]
  cases found : lanes.zipIdx.find? fun other => ((name other.1).map (other.2, ·)).any (·.1 = lane.2) with
  | none =>
    have missing := List.find?_eq_none.mp found lane h
    cases here : name lane.1 <;> simp_all
  | some other =>
    have hit := List.find?_some found
    simp only [Option.any_map, Option.any_eq_true, decide_eq_true_eq] at hit
    have here := List.mem_zipIdx_iff_getElem?.mp (List.mem_of_find?_eq_some found)
    obtain ⟨_, -, member⟩ := hit
    rw [member, List.mem_zipIdx_iff_getElem?.mp h] at here
    rw [Option.bind_some, Option.map_map, ← Option.some.inj here]
    exact Option.map_id_apply ..

theorem collectorLanes_cached : (collectorLanes node).filter (·.2.2.any lookup) =
    (retainedLanes lookup node).map fun lane => (lane.1.2, laneName node lane.1.1, some lane.2) := by
  rw [retainedLanes, collectorLanes]
  induction members node.resolved 0 with
  | nil => rfl
  | cons lane rest ih =>
    rw [List.filterMap_cons, List.map_cons, List.filter_cons]
    cases node.derivedWordCaches[lane.1]?.join with
    | none => simpa using ih
    | some config => by_cases hit : lookup config = true <;> simp [Option.filter_some, hit, ih]

theorem collectorLanes_preview : (previewNode lookup node).map (fun kept => (kept.id, collectorLanes kept)) =
    let cached := (collectorLanes node).filter (·.2.2.any lookup)
    if node.dataCollector && !cached.isEmpty then some (node.id, cached) else none := by
  simp only [collectorLanes_cached, previewNode, List.isEmpty_map]
  generalize retainedLanes lookup node = retained
  split
  · have numbered : members (retained.zipIdx.map fun lane => ((0, lane.2), lane.1.1.2)) 0 =
        retained.zipIdx.map fun lane => (lane.2, lane.1.1.2) := by
      simp only [members, List.filter_map, List.map_map, Function.comp_def, decide_true, List.filter_true]
      refine List.Pairwise.insertionSort_eq (List.pairwise_map.mpr (List.pairwise_map.mp ?_))
      rw [List.zipIdx_map_snd]
      exact List.pairwise_le_range'
    rw [Option.map_some, collectorLanes, numbered, List.map_map]
    conv_rhs => rw [← List.zipIdx_map_fst 0 retained, List.map_map]
    refine congrArg (fun lanes => some (node.id, lanes)) (List.map_congr_left fun lane inside => ?_)
    have named := find?_renumbered (fun lane => laneName node lane.1.1) inside
    rw [Function.comp_apply, Function.comp_apply, laneName, named, List.getElem?_map, List.mem_zipIdx_iff_getElem?.mp inside]
    rfl
  · rfl

/-- A preview shows the lanes that can be read from the repository, each with its own input, name and cache. -/
theorem preview_shows_cached (lookup : List UInt8 → Bool) (plan : ProcessingGraph) :
    (prepareCachedPreview lookup plan).elim [] (·.nodes.map fun node => (node.id, collectorLanes node)) =
      plan.nodes.filterMap fun node =>
        let cached := (collectorLanes node).filter (·.2.2.any lookup)
        if node.dataCollector && !cached.isEmpty then some (node.id, cached) else none := by
  simp only [← collectorLanes_preview]
  rw [← List.map_filterMap, prepareCachedPreview]
  cases plan.nodes.filterMap (previewNode lookup) <;> rfl

end Preview

end LogicConduit
