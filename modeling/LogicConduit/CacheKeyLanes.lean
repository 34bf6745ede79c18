import LogicConduit.CacheKeyIdentity

namespace LogicConduit

open ProcessingGraph

/-- `map` takes the upstream graph of `id` in `old` to the one of `map id` in `new`. Ids, titles and
the rest of either plan are free, and so is the order of edges with different labels. -/
structure UpstreamCopy (old new : ProcessingGraph) (map : NodeId → NodeId) (id : NodeId) : Prop where
  inside : ∀ j, old.Upstream id j → map j ∈ new.ids
  builder : ∀ j, old.Upstream id j → (new.compiledNode (map j)).builder = (old.compiledNode j).builder
  state : ∀ j, old.Upstream id j → canonicalJsonBytes (new.compiledNode (map j)).state =
    canonicalJsonBytes (old.compiledNode j).state
  identity : ∀ j, old.Upstream id j → (new.compiledNode (map j)).captureCacheIdentity =
    (old.compiledNode j).captureCacheIdentity
  edges : ∀ j, old.Upstream id j → ∀ label : EdgeLabel,
    ((new.incoming (map j)).filter fun e => e.label = label).map (fun e => e.source.1) =
      ((old.incoming j).filter fun e => e.label = label).map fun e => map e.source.1

theorem UpstreamCopy.above {old new : ProcessingGraph} {map : NodeId → NodeId} {id j : NodeId}
    (copy : UpstreamCopy old new map id) (up : old.Upstream id j) : UpstreamCopy old new map j :=
  ⟨fun k h => copy.inside k (up.trans h), fun k h => copy.builder k (up.trans h),
    fun k h => copy.state k (up.trans h), fun k h => copy.identity k (up.trans h),
    fun k h => copy.edges k (up.trans h)⟩

variable {old new : LoweredPlan}

theorem UpstreamCopy.upstreamTree {map : NodeId → NodeId} {id : NodeId}
    (copy : UpstreamCopy old.toProcessingGraph new.toProcessingGraph map id) (inside : id ∈ old.ids) :
    new.upstreamTree (map id) = old.upstreamTree id := by
  induction rank : old.rank id using Nat.strong_induction_on generalizing id with
  | _ r ih =>
    rw [upstreamTree_eq new (copy.inside id .refl), upstreamTree_eq old inside,
      copy.builder id .refl, copy.state id .refl, copy.identity id .refl]
    congr 1
    unfold sortedIncoming
    refine map_sortBy_congr fun label => ?_
    have sources := congrArg (List.map new.upstreamTree) (copy.edges id .refl label)
    rw [List.map_map, List.map_map] at sources
    refine sources.trans (List.map_congr_left fun e member => ?_)
    obtain ⟨member, target⟩ := mem_incoming.mp (List.mem_of_mem_filter member)
    have below := old.rank_lt member
    rw [target, rank] at below
    exact ih _ below (copy.above (.single ⟨e, member, target, rfl⟩)) (old.closed e member).1 rfl

structure CacheLane (plan : LoweredPlan) where
  collector : NodeId
  member : Nat
  edge : ProcessingEdge
  inside : edge ∈ plan.edges
  target : edge.target = (collector, "in" ++ toString member)
  indexed : member < 2 ^ 64

namespace CacheLane

variable {plan : LoweredPlan}

theorem collected (lane : CacheLane plan) : lane.collector ∈ plan.ids := by
  have closed := (plan.closed lane.edge lane.inside).2
  rwa [lane.target] at closed

def producer (lane : CacheLane plan) : NodeId := lane.edge.source.1

def state (lane : CacheLane plan) : Bytes :=
  canonicalJsonBytes (plan.compiledNode lane.collector).state

def tree (lane : CacheLane plan) : UpstreamTree := plan.upstreamTree lane.producer

def key (hash : Bytes → Bytes) (lane : CacheLane plan) : Option Bytes :=
  persistentLaneKey hash plan.toProcessingGraph lane.collector lane.member lane.edge

def fields (lane : CacheLane plan) (upstream : Bytes) : List Bytes :=
  laneFields lane.state lane.member lane.edge.source.2 lane.edge.kind.name upstream

def Hashed (hash : Bytes → Bytes) (lane : CacheLane plan) : Set Bytes :=
  {bytes | (∃ j, plan.Upstream lane.producer j ∧ (plan.upstreamTree j).hashed hash = some bytes) ∨
    ∃ upstream, lane.tree.key hash = some upstream ∧
      bytes = (lane.fields upstream).flatMap hashField}

/-- What a lane key is an identity of. -/
structure Same {old new : LoweredPlan} (l : CacheLane old) (m : CacheLane new) : Prop where
  state : l.state = m.state
  member : l.member = m.member
  output : l.edge.source.2 = m.edge.source.2
  kind : l.edge.kind.name = m.edge.kind.name
  tree : l.tree = m.tree

theorem key_eq (hash : Bytes → Bytes) (lane : CacheLane plan) :
    lane.key hash = (lane.tree.key hash).map fun upstream =>
      hash ((lane.fields upstream).flatMap hashField) :=
  persistentLaneKey_eq lane.inside

theorem key_none_iff (hash : Bytes → Bytes) (lane : CacheLane plan) :
    lane.key hash = none ↔
      ∃ j, plan.Upstream lane.producer j ∧ (plan.compiledNode j).captureCacheIdentity = .dynamic := by
  rw [key_eq, Option.map_eq_none_iff, UpstreamTree.key, Option.map_eq_none_iff]
  exact upstreamTree_none_iff (plan.closed lane.edge lane.inside).1

theorem Same.key {l : CacheLane old} {m : CacheLane new} (same : l.Same m) (hash : Bytes → Bytes) :
    l.key hash = m.key hash := by
  simp only [key_eq, fields, same.state, same.member, same.output, same.kind, same.tree]

variable {hash : Bytes → Bytes}

theorem fields_short (digest : ∀ bytes, (hash bytes).length = 32)
    (fits : Addressable plan.toProcessingGraph) (lane : CacheLane plan) (bytes : Bytes) :
    ∀ f ∈ lane.fields (hash bytes), f.length < 2 ^ 64 := by
  have labels := fits.label lane.edge lane.inside
  intro f inside
  simp only [fields, laneFields, List.mem_cons, List.not_mem_nil, or_false] at inside
  rcases inside with rfl | rfl | rfl | rfl | rfl | rfl | rfl | rfl
  · decide
  · decide
  · decide
  · exact fits.state _ (plan.compiledNode_mem lane.collected).1
  · rw [leBytes_length]
    decide
  · exact labels _ (by simp [labelFields, ProcessingEdge.label])
  · exact labels _ (by simp [labelFields, ProcessingEdge.label])
  · rw [digest]
    decide

theorem tree_sound (fits : Addressable plan.toProcessingGraph) (lane : CacheLane plan)
    {S : Set Bytes} (inside : lane.Hashed hash ⊆ S) : lane.tree.Sound hash S :=
  upstreamTree_sound fits (plan.closed lane.edge lane.inside).1
    fun j up _ h => inside (.inl ⟨j, up, h⟩)

/-- Lanes with one key are the same, as long as the hash has no collision on what is hashed for
the two. -/
theorem same_of_key (digest : ∀ bytes, (hash bytes).length = 32)
    (fitsOld : Addressable old.toProcessingGraph) (fitsNew : Addressable new.toProcessingGraph)
    {l : CacheLane old} {m : CacheLane new} (inj : Set.InjOn hash (l.Hashed hash ∪ m.Hashed hash))
    {key : Bytes} (left : l.key hash = some key) (right : m.key hash = some key) : l.Same m := by
  rw [key_eq] at left right
  obtain ⟨upstream, known, first⟩ := Option.map_eq_some_iff.mp left
  obtain ⟨upstream', known', second⟩ := Option.map_eq_some_iff.mp right
  have preimages := inj (.inl (.inr ⟨upstream, known, rfl⟩)) (.inr (.inr ⟨upstream', known', rfl⟩))
    (first.trans second.symm)
  obtain ⟨bytes, hashed, rfl⟩ := Option.map_eq_some_iff.mp known
  obtain ⟨bytes', hashed', rfl⟩ := Option.map_eq_some_iff.mp known'
  have parts := flatMap_hashField_inj (fields_short digest fitsOld l bytes)
    (fields_short digest fitsNew m bytes') preimages
  simp only [fields, laneFields, List.cons.injEq, true_and, and_true] at parts
  obtain ⟨states, members, outputs, kinds, upstreams⟩ := parts
  have trees : bytes = bytes' :=
    inj (.inl (.inl ⟨_, .refl, hashed⟩)) (.inr (.inl ⟨_, .refl, hashed'⟩)) upstreams
  subst trees
  refine ⟨states, ?_, utf8Bytes_inj outputs, utf8Bytes_inj kinds, ?_⟩
  · rw [← @ofLeBytes_leBytes 8 l.member l.indexed, members, @ofLeBytes_leBytes 8 m.member m.indexed]
  · exact hashed_inj digest inj _ _ bytes (tree_sound fitsOld l Set.subset_union_left)
      (tree_sound fitsNew m Set.subset_union_right) hashed hashed'

end CacheLane

section Assignment

variable {hash : Bytes → Bytes} {usesPersistentCache : PortKind → Bool} {plan : LoweredPlan}

theorem assignDerivedWordCaches_member (lane : CacheLane plan)
    (collects : (plan.compiledNode lane.collector).dataCollector = true)
    (counted : lane.member < ((plan.compiledNode lane.collector).resolved.filter
      fun input => input.1.1 = 0).length)
    (first : plan.edges.find? (fun e => e.target = (lane.collector, "in" ++ toString lane.member) &&
      usesPersistentCache e.kind) = some lane.edge) :
    ∃ node ∈ (assignDerivedWordCaches hash usesPersistentCache plan.toProcessingGraph).nodes,
      node.id = lane.collector ∧ node.derivedWordCaches[lane.member]? = some (lane.key hash) := by
  obtain ⟨member, same⟩ := plan.compiledNode_mem lane.collected
  refine ⟨_, List.mem_map.mpr ⟨_, member, rfl⟩, ?_⟩
  rw [if_pos collects]
  refine ⟨same, ?_⟩
  simp only [List.getElem?_map, List.getElem?_range counted, Option.map_some, same]
  rw [first]
  rfl

end Assignment

def laneNode (id : NodeId) (builder : String) (identity : CaptureCacheIdentity) : ProcessingNode :=
  { (default : ProcessingNode) with
    id := id, builder := builder, runtimeName := nodeName id builder, captureCacheIdentity := identity }

def laneEdge (source target : NodeId) (port : String) : ProcessingEdge :=
  ⟨(source, "out"), (target, port), 100, .word⟩

/-- Two captures merge at one input port of node 3, which feeds the collector 4. -/
def mergePlan (swapped : Bool) : LoweredPlan where
  nodes := [laneNode 1 "left" (.stable [1]), laneNode 2 "right" (.stable [2]),
    laneNode 3 "merge" .notCapture, laneNode 4 "collector" .notCapture]
  edges := if swapped then [laneEdge 2 3 "in", laneEdge 1 3 "in", laneEdge 3 4 "in0"]
    else [laneEdge 1 3 "in", laneEdge 2 3 "in", laneEdge 3 4 "in0"]
  nodup := by decide
  closed := by cases swapped <;> decide
  acyclic := Kahn.acyclic_of_rank id (by cases swapped <;> decide)
  named := by simp [laneNode]

def mergeLane (swapped : Bool) : CacheLane (mergePlan swapped) where
  collector := 4
  member := 0
  edge := laneEdge 3 4 "in0"
  inside := by cases swapped <;> decide
  target := by decide
  indexed := by decide

/-- Two plans that differ in the order of two edges into one port have different keys. -/
theorem lane_key_depends_on_tied_edge_order :
    (mergePlan false).nodes = (mergePlan true).nodes ∧
      (mergePlan false).edges.Perm (mergePlan true).edges ∧ Function.Injective (id : Bytes → Bytes) ∧
      (mergeLane false).key id ≠ (mergeLane true).key id ∧ (mergeLane false).key id ≠ none := by
  refine ⟨rfl, ?_, Function.injective_id, ?_, ?_⟩
  · exact List.Perm.swap _ _ _
  · decide +kernel
  · decide +kernel

/-- The identity of a derived lane. A lane has no key exactly when an upstream node has a dynamic
identity; lanes that have one have the same key exactly when they agree in collector state,
member, output port, kind name and upstream tree; and a lane whose upstream graph is a copy of
another's has its key. -/
theorem persistent_lane_key_identifies (hash : Bytes → Bytes)
    (digest : ∀ bytes, (hash bytes).length = 32) (old new : LoweredPlan)
    (fitsOld : Addressable old.toProcessingGraph) (fitsNew : Addressable new.toProcessingGraph)
    (l : CacheLane old) (m : CacheLane new) (inj : Set.InjOn hash (l.Hashed hash ∪ m.Hashed hash)) :
    (l.key hash = none ↔ ∃ j, old.Upstream l.producer j ∧
        (old.compiledNode j).captureCacheIdentity = .dynamic) ∧
      (l.key hash ≠ none → (l.key hash = m.key hash ↔ l.Same m)) ∧
      ∀ map : NodeId → NodeId,
        UpstreamCopy old.toProcessingGraph new.toProcessingGraph map l.producer →
        map l.producer = m.producer → l.state = m.state → l.member = m.member →
        l.edge.source.2 = m.edge.source.2 → l.edge.kind.name = m.edge.kind.name →
        l.key hash = m.key hash := by
  refine ⟨l.key_none_iff hash, fun some => ⟨fun same => ?_, fun same => same.key hash⟩, ?_⟩
  · obtain ⟨key, left⟩ := Option.ne_none_iff_exists'.mp some
    exact CacheLane.same_of_key digest fitsOld fitsNew inj left (same.symm.trans left)
  · intro map copy producers states members outputs kinds
    have trees : l.tree = m.tree := by
      unfold CacheLane.tree
      rw [← producers]
      exact (copy.upstreamTree (old.closed l.edge l.inside).1).symm
    exact CacheLane.Same.key ⟨states, members, outputs, kinds, trees⟩ hash

def capturePlan (moved : Bool) : LoweredPlan where
  nodes := if moved then [laneNode 12 "collector" .notCapture, laneNode 11 "capture" (.stable [7])]
    else [laneNode 1 "capture" (.stable [7]), laneNode 2 "collector" .notCapture]
  edges := if moved then [laneEdge 11 12 "in0"] else [laneEdge 1 2 "in0"]
  nodup := by cases moved <;> decide
  closed := by cases moved <;> decide
  acyclic := Kahn.acyclic_of_rank id (by cases moved <;> decide)
  named := by cases moved <;> simp [laneNode]

def captureLane (moved : Bool) : CacheLane (capturePlan moved) where
  collector := if moved then 12 else 2
  member := 0
  edge := if moved then laneEdge 11 12 "in0" else laneEdge 1 2 "in0"
  inside := by cases moved <;> decide
  target := by cases moved <;> decide
  indexed := by decide

def lengthDigest (bytes : Bytes) : Bytes := leBytes 32 bytes.length

theorem capturePlan_upstream {moved : Bool} {j : NodeId}
    (up : (capturePlan moved).Upstream (captureLane moved).producer j) :
    j = (captureLane moved).producer := by
  rcases Relation.ReflTransGen.cases_head up with same | ⟨k, ⟨e, he, target, -⟩, -⟩
  · exact same.symm
  · cases moved <;> cases List.mem_singleton.mp he <;> exact absurd target (by decide)

theorem capturePlan_addressable (moved : Bool) : Addressable (capturePlan moved).toProcessingGraph := by
  have stable : ∀ fields, identityFields (.stable [7]) = some fields → ∀ f ∈ fields,
      f.length < 2 ^ 64 := by
    rintro fields ⟨⟩
    decide
  have absent : ∀ fields, identityFields .notCapture = some fields → ∀ f ∈ fields,
      f.length < 2 ^ 64 := by
    rintro fields ⟨⟩
    decide
  cases moved
  · refine ⟨by decide, by decide +kernel, ?_, by decide⟩
    rintro node inside
    rcases List.mem_cons.mp inside with rfl | inside
    · exact stable
    · cases List.mem_singleton.mp inside
      exact absent
  · refine ⟨by decide, by decide +kernel, ?_, by decide⟩
    rintro node inside
    rcases List.mem_cons.mp inside with rfl | inside
    · exact absent
    · cases List.mem_singleton.mp inside
      exact stable

def captureBytes : List Bytes :=
  let node := (nodeFields "capture" (canonicalJsonBytes .null) [[7]] []).flatMap hashField
  [node, (laneFields (canonicalJsonBytes .null) 0 "out" "Word" (lengthDigest node)).flatMap hashField]

theorem captureLane_tree (moved : Bool) :
    (captureLane moved).tree = .node "capture" (canonicalJsonBytes .null) (.stable [7]) [] := by
  cases moved <;> rfl

theorem captureLane_hashed {moved : Bool} {bytes : Bytes}
    (h : bytes ∈ (captureLane moved).Hashed lengthDigest) : bytes ∈ captureBytes := by
  have node : (captureLane moved).tree.hashed lengthDigest = some captureBytes.head! := by
    rw [captureLane_tree]
    rfl
  rcases h with ⟨j, up, h⟩ | ⟨upstream, h, rfl⟩
  · rw [capturePlan_upstream up] at h
    cases node.symm.trans h
    exact List.mem_cons_self
  · rw [UpstreamTree.key, node] at h
    cases h
    refine List.mem_cons_of_mem _ (List.mem_singleton.mpr ?_)
    cases moved <;> rfl

theorem lengthDigest_inj : Set.InjOn lengthDigest
    ((captureLane false).Hashed lengthDigest ∪ (captureLane true).Hashed lengthDigest) := by
  have apart : ∀ x ∈ captureBytes, ∀ y ∈ captureBytes, lengthDigest x = lengthDigest y → x = y := by
    decide +kernel
  rintro x (hx | hx) y (hy | hy) same <;>
    exact apart x (captureLane_hashed hx) y (captureLane_hashed hy) same

theorem persistent_lane_key_identifies_moved_capture :
    (captureLane false).key lengthDigest ≠ none ∧
      (captureLane false).key lengthDigest = (captureLane true).key lengthDigest := by
  obtain ⟨absent, same, -⟩ := persistent_lane_key_identifies lengthDigest (fun _ => leBytes_length _ _)
    (capturePlan false) (capturePlan true) (capturePlan_addressable false)
    (capturePlan_addressable true) (captureLane false) (captureLane true) lengthDigest_inj
  have some : (captureLane false).key lengthDigest ≠ none := by
    rw [Ne, absent]
    rintro ⟨j, up, dynamic⟩
    cases capturePlan_upstream up
    cases dynamic
  refine ⟨some, (same some).mpr ⟨rfl, rfl, rfl, rfl, ?_⟩⟩
  rw [captureLane_tree, captureLane_tree]

end LogicConduit
