import LogicConduit.CheckedRuns
import LogicConduit.LoweringChains

namespace LogicConduit.Document

theorem insertionSort_lt {l : List Nat} (h : l.Nodup) : (l.insertionSort (· ≤ ·)).Pairwise (· < ·) := by
  have hsorted := List.pairwise_insertionSort (· ≤ ·) l
  have hnodup : (l.insertionSort (· ≤ ·)).Nodup := (List.perm_insertionSort _ l).nodup_iff.mpr h
  exact hsorted.imp₂ (fun _ _ hle hne => Nat.lt_of_le_of_ne hle hne) hnodup

namespace GraphState

variable {g : GraphState} {registry : GraphRegistry}

def IsSink (g : GraphState) (registry : GraphRegistry) (id : NodeId) : Prop :=
  ∃ node, g.node? id = some node ∧ isSinkNode registry node = true

/-- A connection ends at a regular node that is not muted, and its source resolves to a live output. -/
def IsWire (g : GraphState) (c : Connection) (source : SocketId) : Prop :=
  (∃ node, g.node? c.target.node = some node ∧ isLive node = true) ∧ g.Resolves c.source source

def Feeds (g : GraphState) (a b : NodeId) : Prop :=
  ∃ c ∈ g.connections, ∃ source, g.IsWire c source ∧ source.node = a ∧ c.target.node = b

def FeedsSink (g : GraphState) (registry : GraphRegistry) (id : NodeId) : Prop :=
  ∃ sink, g.IsSink registry sink ∧ Relation.ReflTransGen g.Feeds id sink

theorem mem_wires {wire : Wire} : wire ∈ g.resolveRerouteEdges.1 ↔
    ∃ c ∈ g.connections, g.IsWire c wire.source ∧ wire.target = c.target := by
  rw [resolveRerouteEdges_wires, List.mem_filterMap]
  exact exists_congr fun c => and_congr_right fun _ => wireOf_eq_some.trans and_assoc.symm

variable {a b : NodeId}

theorem mem_links : (a, b) ∈ links g.resolveRerouteEdges.1 ↔ g.Feeds a b := by
  rw [links, List.mem_map]
  constructor
  · rintro ⟨wire, hwire, heq⟩
    obtain ⟨c, hc, hiswire, htarget⟩ := mem_wires.mp hwire
    obtain ⟨ha, hb⟩ := Prod.mk.inj heq
    exact ⟨c, hc, wire.source, hiswire, ha, htarget ▸ hb⟩
  · rintro ⟨c, hc, source, hiswire, rfl, rfl⟩
    exact ⟨⟨source, c.target⟩, mem_wires.mpr ⟨c, hc, hiswire, rfl⟩, rfl⟩

theorem mem_sinks {id : NodeId} : id ∈ g.sinks registry ↔ g.IsSink registry id := by
  rw [sinks, List.mem_map]
  constructor
  · rintro ⟨⟨key, node⟩, hentry, rfl⟩
    obtain ⟨hmem, hsink⟩ := List.mem_filter.mp hentry
    exact ⟨node, AList.mem_lookup_iff.mpr hmem, hsink⟩
  · rintro ⟨node, hnode, hsink⟩
    exact ⟨⟨id, node⟩, List.mem_filter.mpr ⟨AList.mem_lookup_iff.mp hnode, hsink⟩, rfl⟩

theorem mem_kept {id : NodeId} : id ∈ g.kept registry g.resolveRerouteEdges.1 ↔ g.FeedsSink registry id := by
  have henough : (g.sinks registry).reverse.length + (links g.resolveRerouteEdges.1).length ≤
      (g.sinks registry).length + g.resolveRerouteEdges.1.length := by
    simp [links]
  have hpath : (fun a b => (a, b) ∈ links g.resolveRerouteEdges.1) = g.Feeds := by
    funext a b
    exact propext mem_links
  rw [kept, (List.perm_insertionSort _ _).mem_iff, Reachability.mem_gather_iff henough, Reachability.Path, hpath]
  exact exists_congr fun sink => and_congr_left fun _ => List.mem_reverse.trans mem_sinks

theorem kept_sorted (wires : List Wire) : (g.kept registry wires).Pairwise (· < ·) :=
  insertionSort_lt (Reachability.gather_nodup List.nodup_nil)

theorem FeedsSink.of_feeds (h : g.Feeds a b) (hb : g.FeedsSink registry b) : g.FeedsSink registry a := by
  obtain ⟨sink, hsink, hpath⟩ := hb
  exact ⟨sink, hsink, .head h hpath⟩

/-- An edge carries a wire: the first kind that its producer offers and its consumer takes, between the ports that
both name for that kind. -/
def CarriesWire (g : GraphState) (registry : GraphRegistry) (source target : SocketId) (e : ProcessingEdge) : Prop :=
  ∃ producer consumer, g.wireEnd registry source .output = some producer ∧ g.wireEnd registry target .input = some consumer ∧
    ((producer.semantics.offeredKinds producer.reference producer.node.state).find? fun kind =>
      kind.isIn (consumer.accepted registry)) = some e.kind ∧
    producer.semantics.outputPort producer.reference producer.node.state e.kind = some e.source.2 ∧
    consumer.semantics.inputPort consumer.reference consumer.node.state e.kind = some e.target.2 ∧
    e.source.1 = source.node ∧ e.target.1 = target.node

def Carries (g : GraphState) (registry : GraphRegistry) (c : Connection) (e : ProcessingEdge) : Prop :=
  ∃ source, g.IsWire c source ∧ g.CarriesWire registry source c.target e

theorem wireEnd_id {socket : SocketId} {direction : SocketDirection} {found : WireEnd}
    (h : g.wireEnd registry socket direction = some found) : found.id = socket.node := by
  unfold wireEnd at h
  obtain ⟨node, -, h⟩ := Option.bind_eq_some_iff.mp h
  obtain ⟨semantics, -, h⟩ := Option.bind_eq_some_iff.mp h
  obtain ⟨inner, -, h⟩ := Option.bind_eq_some_iff.mp h
  obtain ⟨reference, -, h⟩ := Option.bind_eq_some_iff.mp h
  cases h
  rfl

theorem negotiateEdge_carries {source target : SocketId} {producer consumer : WireEnd} {negotiated : NegotiatedEdge}
    (hp : g.wireEnd registry source .output = some producer) (hc : g.wireEnd registry target .input = some consumer)
    (h : negotiateEdge registry producer consumer = .ok negotiated) :
    g.CarriesWire registry source target negotiated.edge := by
  unfold negotiateEdge at h
  split at h
  · cases h
  · next kind hkind =>
    dsimp only at h
    split at h
    · split at h
      · cases h
      · next outPort hout =>
        split at h
        · cases h
        · next inPort hin =>
          cases h
          exact ⟨producer, consumer, hp, hc, hkind, hout, hin, wireEnd_id hp, wireEnd_id hc⟩
    · cases h

section Negotiate

variable {keep : List NodeId} {n : Negotiation} {wire : Wire}

theorem negotiateWire_skip (h : wire.target.node ∉ keep) : g.negotiateWire registry keep n wire = n := by
  rw [negotiateWire, if_pos (by simp [h])]

theorem negotiateWire_kept (hs : wire.source.node ∈ keep) (ht : wire.target.node ∈ keep)
    (hss : g.semanticsOf registry wire.source.node ≠ none) (hts : g.semanticsOf registry wire.target.node ≠ none) :
    (∃ error, (g.negotiateWire registry keep n wire).errors = n.errors ++ [error]) ∨
      (g.negotiateWire registry keep n wire).errors = n.errors ∧
      ∃ e, (g.negotiateWire registry keep n wire).edges = n.edges ++ [e] ∧
        g.CarriesWire registry wire.source wire.target e := by
  have hsource : (g.semanticsOf registry wire.source.node).isNone = false :=
    Option.isNone_eq_false_iff.mpr (Option.isSome_iff_ne_none.mpr hss)
  have htarget : (g.semanticsOf registry wire.target.node).isNone = false :=
    Option.isNone_eq_false_iff.mpr (Option.isSome_iff_ne_none.mpr hts)
  rw [negotiateWire, if_neg (by simp [hs, ht]), if_neg (by simp [hsource, htarget])]
  split
  · next producer consumer hp hc =>
    cases hn : negotiateEdge registry producer consumer with
    | error error => exact Or.inl ⟨error, rfl⟩
    | ok negotiated => exact Or.inr ⟨rfl, negotiated.edge, rfl, negotiateEdge_carries hp hc hn⟩
  · exact Or.inl ⟨_, rfl⟩

/-- When the loop has reported nothing, each wire into a kept node has its edge, in order. -/
theorem negotiate_edges {wires : List Wire}
    (closed : ∀ wire ∈ wires, wire.target.node ∈ keep → wire.source.node ∈ keep)
    (known : ∀ id ∈ keep, g.semanticsOf registry id ≠ none)
    (h : (wires.foldl (g.negotiateWire registry keep) n).errors = []) :
    n.errors = [] ∧ ∃ edges, (wires.foldl (g.negotiateWire registry keep) n).edges = n.edges ++ edges ∧
      List.Forall₂ (fun wire e => g.CarriesWire registry wire.source wire.target e)
        (wires.filter fun wire => wire.target.node ∈ keep) edges := by
  induction wires generalizing n with
  | nil => exact ⟨h, [], (List.append_nil _).symm, .nil⟩
  | cons wire wires ih =>
    rw [List.foldl_cons] at h ⊢
    obtain ⟨hnext, edges, hedges, hcarried⟩ := ih (fun w hw => closed w (List.mem_cons_of_mem _ hw)) h
    by_cases ht : wire.target.node ∈ keep
    · have hs := closed wire List.mem_cons_self ht
      rcases negotiateWire_kept (n := n) hs ht (known _ hs) (known _ ht) with ⟨error, herror⟩ | ⟨hsame, e, he, hcarry⟩
      · rw [herror] at hnext
        simp at hnext
      · refine ⟨hsame ▸ hnext, e :: edges, ?_, ?_⟩
        · rw [hedges, he, List.append_assoc]
          rfl
        · rw [List.filter_cons_of_pos (by simpa using ht)]
          exact .cons hcarry hcarried
    · rw [negotiateWire_skip ht] at hnext hedges ⊢
      rw [List.filter_cons_of_neg (by simpa using ht)]
      exact ⟨hnext, edges, hedges, hcarried⟩

end Negotiate

/-- The connections that end at a regular node of the list that is not muted, and whose source resolves. -/
def EntersNodes (g : GraphState) (ids : List NodeId) (c : Connection) : Prop :=
  c.target.node ∈ ids ∧ ∃ source, g.IsWire c source

open Classical in
theorem carries_connections {ids : List NodeId} {connections : List Connection} {edges : List ProcessingEdge}
    (h : List.Forall₂ (fun wire e => g.CarriesWire registry wire.source wire.target e)
      ((connections.filterMap g.wireOf).filter fun wire => wire.target.node ∈ ids) edges) :
    List.Forall₂ (g.Carries registry) (connections.filter fun c => g.EntersNodes ids c) edges := by
  induction connections generalizing edges with
  | nil =>
    cases h
    exact .nil
  | cons c connections ih =>
    cases hw : g.wireOf c with
    | none =>
      have hnot : ¬g.EntersNodes ids c := by
        rintro ⟨-, source, hlive, hresolves⟩
        have hsome : g.wireOf c = some ⟨source, c.target⟩ := wireOf_eq_some.mpr ⟨hlive, hresolves, rfl⟩
        rw [hw] at hsome
        cases hsome
      rw [List.filterMap_cons_none hw] at h
      rw [List.filter_cons_of_neg (by simpa using hnot)]
      exact ih h
    | some wire =>
      obtain ⟨hlive, hresolves, htarget⟩ := wireOf_eq_some.mp hw
      rw [List.filterMap_cons_some hw] at h
      by_cases hin : wire.target.node ∈ ids
      · rw [List.filter_cons_of_pos (by simpa using hin)] at h
        have henters : g.EntersNodes ids c := ⟨htarget ▸ hin, wire.source, hlive, hresolves⟩
        rw [List.filter_cons_of_pos (by simpa using henters)]
        cases h with
        | cons hcarry hrest => exact .cons ⟨wire.source, ⟨hlive, hresolves⟩, htarget ▸ hcarry⟩ (ih hrest)
      · have hnot : ¬g.EntersNodes ids c := fun henters => hin (htarget ▸ henters.1)
        rw [List.filter_cons_of_neg (by simpa using hin)] at h
        rw [List.filter_cons_of_neg (by simpa using hnot)]
        exact ih h

theorem hasCycle_iff {nodes : List NodeId} {edges : List (NodeId × NodeId)} (hnodup : nodes.Nodup)
    (closed : ∀ e ∈ edges, e.1 ∈ nodes ∧ e.2 ∈ nodes) : hasCycle nodes edges = false ↔ Kahn.Acyclic edges := by
  have hstack : ((nodes.filter fun id => Kahn.indegree edges id = 0).reverse).Nodup :=
    List.nodup_reverse.mpr (hnodup.filter _)
  have hmem : ∀ v, v ∈ (nodes.filter fun id => Kahn.indegree edges id = 0).reverse ↔ v ∈ nodes ∧ Kahn.indegree edges v = 0 := by
    intro v
    rw [List.mem_reverse, List.mem_filter, decide_eq_true_eq]
  obtain ⟨final, hvisit⟩ := Kahn.loop_visits (fun e he => (closed e he).2) (Kahn.Visiting.start hstack hmem)
    (by simp : nodes.length ≤ nodes.length + ([] : List NodeId).length)
  have hvisited : (Kahn.loop edges nodes.length (nodes.filter fun id => Kahn.indegree edges id = 0).reverse
      (Kahn.indegree edges) []).Nodup := by
    have := hvisit.nodup
    rwa [List.nil_append] at this
  have hinside : ∀ v ∈ Kahn.loop edges nodes.length (nodes.filter fun id => Kahn.indegree edges id = 0).reverse
      (Kahn.indegree edges) [], v ∈ nodes := fun v hv => hvisit.inside v (List.mem_append_right _ hv)
  rw [← Kahn.loop_complete_iff closed hstack hmem (Nat.le_refl _), hasCycle]
  simp only [ne_eq, decide_eq_false_iff_not, Decidable.not_not]
  constructor
  · intro hlength v hv
    exact (hvisited.subperm hinside).perm_of_length_le hlength.ge |>.mem_iff.mpr hv
  · intro hall
    exact Nat.le_antisymm (hvisited.subperm hinside).length_le (hnodup.subperm hall).length_le

variable {resolved : NodeId → ResolvedInputs}

theorem processingNode_ok {id : NodeId} {node : ProcessingNode} (h : g.processingNode registry resolved id = .ok node) :
    node.id = id ∧ g.semanticsOf registry id ≠ none ∧ ∃ slug, node.runtimeName = nodeName node.id slug := by
  unfold processingNode at h
  split at h
  · cases h
  · next found hfound =>
    split at h
    · cases h
    · cases h
    · next semantics hotConfig hsemantics hmaterializer =>
      cases h
      refine ⟨rfl, ?_, found.slug, rfl⟩
      rw [semanticsOf, hfound, Option.bind_some, hsemantics]
      exact Option.some_ne_none _

theorem processingNodes_ok {ids : List NodeId} {nodes : List ProcessingNode}
    (h : List.Forall₂ (fun id node => g.processingNode registry resolved id = .ok node) ids nodes) :
    nodes.map ProcessingNode.id = ids ∧ (∀ id ∈ ids, g.semanticsOf registry id ≠ none) ∧
      ∀ node ∈ nodes, ∃ slug, node.runtimeName = nodeName node.id slug := by
  induction h with
  | nil => exact ⟨rfl, fun _ h => absurd h List.not_mem_nil, fun _ h => absurd h List.not_mem_nil⟩
  | cons hnode _ ih =>
    obtain ⟨hid, hknown, hname⟩ := processingNode_ok hnode
    obtain ⟨hids, hrest, hnames⟩ := ih
    refine ⟨by rw [List.map_cons, hid, hids], fun id hin => ?_, fun node hin => ?_⟩
    · rcases List.mem_cons.mp hin with rfl | hin
      · exact hknown
      · exact hrest id hin
    · rcases List.mem_cons.mp hin with rfl | hin
      · exact hname
      · exact hnames node hin

structure Lowered (g : GraphState) (registry : GraphRegistry) (plan : ProcessingGraph) : Prop where
  ids : plan.ids = g.kept registry g.resolveRerouteEdges.1
  known : ∀ id ∈ plan.ids, g.semanticsOf registry id ≠ none
  named : ∀ node ∈ plan.nodes, ∃ slug, node.runtimeName = nodeName node.id slug
  edges : List.Forall₂ (fun wire e => g.CarriesWire registry wire.source wire.target e)
    (g.resolveRerouteEdges.1.filter fun wire => wire.target.node ∈ plan.ids) plan.edges
  acyclic : hasCycle plan.ids plan.links = false

theorem wires_closed {wire : Wire} (hwire : wire ∈ g.resolveRerouteEdges.1)
    (ht : wire.target.node ∈ g.kept registry g.resolveRerouteEdges.1) :
    wire.source.node ∈ g.kept registry g.resolveRerouteEdges.1 := by
  have hfeeds : g.Feeds wire.source.node wire.target.node :=
    mem_links.mp (List.mem_map_of_mem (f := fun wire : Wire => (wire.source.node, wire.target.node)) hwire)
  exact mem_kept.mpr (.of_feeds hfeeds (mem_kept.mp ht))

variable {plan : ProcessingGraph}

theorem lower_ok (h : g.lower registry = .ok plan) : g.Lowered registry plan := by
  have hclosed := fun wire => @wires_closed g registry wire
  unfold lower at h
  rcases hwires : g.resolveRerouteEdges with ⟨wires, mutedErrors⟩
  rw [hwires] at h hclosed
  dsimp only at h hclosed
  generalize hn : g.negotiate registry (g.kept registry wires) wires
    (mutedErrors ++ g.sourceErrors registry (g.kept registry wires)) = n at h
  split at h
  · cases h
  · split at h
    · next hempty =>
      rw [List.isEmpty_iff, List.append_eq_nil_iff, graphErrors, List.append_eq_nil_iff] at hempty
      obtain ⟨herrors, -, hcycle⟩ := hempty
      cases hnodes : (g.kept registry wires).mapM (g.processingNode registry n.resolved) with
      | error failure =>
        rw [hnodes] at h
        cases h
      | ok nodes =>
        rw [hnodes] at h
        cases h
        obtain ⟨hids, hknown, hnamed⟩ := processingNodes_ok (forall₂_of_mapM_ok hnodes)
        subst hn
        obtain ⟨-, edges, hedges, hcarried⟩ := negotiate_edges (fun wire hwire => hclosed wire hwire) hknown herrors
        have hall : (g.negotiate registry (g.kept registry wires) wires
            (mutedErrors ++ g.sourceErrors registry (g.kept registry wires))).edges = edges := hedges
        refine ⟨?_, ?_, hnamed, ?_, ?_⟩
        · show nodes.map ProcessingNode.id = _
          rw [hwires]
          exact hids
        · show ∀ id ∈ nodes.map ProcessingNode.id, _
          rw [hids]
          exact hknown
        · show List.Forall₂ _ (List.filter (fun wire : Wire => wire.target.node ∈ nodes.map ProcessingNode.id) _) _
          rw [hids, hwires, hall]
          exact hcarried
        · show hasCycle (nodes.map ProcessingNode.id) (List.map _ _) = false
          rw [hids]
          by_contra hne
          rw [if_pos (by simpa using hne)] at hcycle
          cases hcycle
    · cases h

section

variable (h : g.Lowered registry plan)
include h

theorem Lowered.closed : ∀ e ∈ plan.links, e.1 ∈ plan.ids ∧ e.2 ∈ plan.ids := by
  intro link hlink
  obtain ⟨e, he, rfl⟩ := List.mem_map.mp hlink
  obtain ⟨wire, hwire, producer, consumer, -, -, -, -, -, hsource, htarget⟩ := exists_left_of_forall₂ h.edges he
  obtain ⟨hwire, hin⟩ := List.mem_filter.mp hwire
  have ht : wire.target.node ∈ plan.ids := by simpa using hin
  dsimp only
  rw [hsource, htarget]
  refine ⟨?_, ht⟩
  rw [h.ids] at ht ⊢
  exact wires_closed hwire ht

theorem Lowered.sorted : plan.ids.Pairwise (· < ·) := by
  rw [h.ids]
  exact kept_sorted _

theorem Lowered.nodup : plan.ids.Nodup :=
  h.sorted.imp fun hlt => Nat.ne_of_lt hlt

theorem Lowered.acyclic_links : Kahn.Acyclic plan.links :=
  (hasCycle_iff h.nodup h.closed).mp h.acyclic

end

theorem lowered_plan (h : g.lower registry = .ok plan) :
    ∃ lowered : LoweredPlan, lowered.toProcessingGraph = plan := by
  have hl := lower_ok h
  refine ⟨⟨plan, hl.nodup, fun e he => ?_, hl.acyclic_links, hl.named⟩, rfl⟩
  exact hl.closed _ (List.mem_map_of_mem (f := fun e : ProcessingEdge => (e.source.1, e.target.1)) he)

open Classical in
/-- A plan that lowering returns is faithful to the document with its collectors. Its nodes are those that feed a
sink, by rising id; its edges are, one by one and in order, the connections into regular nodes of the plan that are
not muted and whose source resolves through a finite chain of reroutes and muted pass-through pairs to a live
output; each edge carries the first kind offered that its consumer takes, between the ports both sides name for it;
there is no cycle; and the guard of the resolution cuts no chain off. Where no input has two connections, a step of
a chain is a connection into a reroute or into the input that a muted node passes through. -/
theorem lowering_faithful (g : GraphState) (registry : GraphRegistry) (subscriptions : OutputSubscriptionPlan)
    (plan : ProcessingGraph) (h : g.lowerWithSubscriptions registry subscriptions = .ok plan) :
    plan.ids.Pairwise (· < ·) ∧
    (∀ id, id ∈ plan.ids ↔ (g.withOutputCollectors registry subscriptions).FeedsSink registry id) ∧
    List.Forall₂ ((g.withOutputCollectors registry subscriptions).Carries registry)
      ((g.withOutputCollectors registry subscriptions).connections.filter fun c =>
        (g.withOutputCollectors registry subscriptions).EntersNodes plan.ids c) plan.edges ∧
    Kahn.Acyclic plan.links ∧
    (∀ source target hops, (g.withOutputCollectors registry subscriptions).hopLimit ≤ hops →
      ((g.withOutputCollectors registry subscriptions).resolveWireSource hops source = .found target ↔
        (g.withOutputCollectors registry subscriptions).Resolves source target)) ∧
    (g.OneConnectionPerInput → ∀ s t, (g.withOutputCollectors registry subscriptions).upstream s = some t ↔
      (g.withOutputCollectors registry subscriptions).Hop s t) := by
  have hl := lower_ok h
  refine ⟨hl.sorted, fun id => ?_, ?_, hl.acyclic_links, fun source target hops => resolveWireSource_found_iff,
    fun hone s t => (hone.singleHops.withOutputCollectors registry subscriptions).upstream_iff⟩
  · rw [hl.ids]
    exact mem_kept
  · refine carries_connections ?_
    have hedges := hl.edges
    rwa [resolveRerouteEdges_wires] at hedges

def wordSocket (name : String) : Socket := ⟨"", name, "Any", [], none, 0, none, true⟩

def wordSemantics : GraphNodeSemantics where
  executionState := id
  isSource := false
  isTimeDomainSource := false
  isSink := false
  isDataSubscription := false
  isDataCollector := false
  collectedLaneNames _ _ := []
  acceptedKinds _ _ := [.word]
  offeredKinds _ _ := [.text, .word]
  offeredConnectionContracts _ _ := []
  acceptedConnectionContracts _ _ := []
  inputPort _ _ _ := some "in"
  outputPort _ _ _ := some "out"
  inputRequired _ _ := true
  inputBufferOverride _ _ := none

def wordRegistry : GraphRegistry where
  semantics name :=
    if name = "source" then some { wordSemantics with isSource := true, isTimeDomainSource := true }
    else if name = "sink" then some { wordSemantics with isSink := true }
    else if name = "filter" then some wordSemantics
    else none
  presentation _ := none
  materializer _ := some fun _ => none
  captureSource _ := none
  subscribablePayloadKinds := []

def bypassGraph : GraphState where
  nodes := ((((∅ : AList fun _ : NodeId => Node).insert 1 ⟨.regular, "Source", "source", [], [wordSocket "Out"], false,
    .null⟩).insert 2 ⟨.reroute, "", "", [wordSocket ""], [wordSocket ""], false, .null⟩).insert 3
    ⟨.regular, "Filter", "filter", [wordSocket "In"], [wordSocket "Out"], true, .null⟩).insert 4
    ⟨.regular, "Sink", "sink", [wordSocket "In"], [], false, .null⟩
  connections := [⟨⟨1, 0, .output⟩, ⟨2, 0, .input⟩⟩, ⟨⟨2, 0, .output⟩, ⟨3, 0, .input⟩⟩, ⟨⟨3, 0, .output⟩, ⟨4, 0, .input⟩⟩]
  semanticRevision := 0

theorem bypassGraph_lowers :
    ∃ plan, bypassGraph.lowerWithSubscriptions wordRegistry ⟨[]⟩ = .ok plan ∧ plan.ids = [1, 4] ∧
      plan.edges = [⟨(1, "out"), (4, "in"), 100, .word⟩] := by
  have hids : (bypassGraph.lowerWithSubscriptions wordRegistry ⟨[]⟩).map (fun plan => (plan.ids, plan.edges)) =
      .ok ([1, 4], [⟨(1, "out"), (4, "in"), 100, .word⟩]) := by decide +kernel
  cases h : bypassGraph.lowerWithSubscriptions wordRegistry ⟨[]⟩ with
  | error failure =>
    rw [h] at hids
    cases hids
  | ok plan =>
    rw [h] at hids
    obtain ⟨hids, hedges⟩ := Prod.mk.inj (Except.ok.inj hids)
    exact ⟨plan, rfl, hids, hedges⟩

theorem lowering_faithful_bypass :
    ∃ plan, bypassGraph.lowerWithSubscriptions wordRegistry ⟨[]⟩ = .ok plan ∧ plan.ids = [1, 4] ∧
      plan.edges = [⟨(1, "out"), (4, "in"), 100, .word⟩] ∧ Kahn.Acyclic plan.links := by
  obtain ⟨plan, h, hids, hedges⟩ := bypassGraph_lowers
  exact ⟨plan, h, hids, hedges, (lowering_faithful bypassGraph wordRegistry ⟨[]⟩ plan h).2.2.2.1⟩

def Stays (g : GraphState) (registry : GraphRegistry) (subscriptions : OutputSubscriptionPlan) (id : NodeId)
    (node : Node) : Prop :=
  g.node? id = some node ∧ (g.withOutputCollectors registry subscriptions).node? id = some node

theorem Feeds.live (h : g.Feeds a b) : ∃ node, g.node? a = some node ∧ isLive node = true := by
  obtain ⟨c, -, source, ⟨-, hresolves⟩, rfl, -⟩ := h
  exact (resolves_iff.mp hresolves).2

/-- The nodes that a plan builds are live exactly when no sink of the document is muted. -/
theorem built_nodes_live_iff {g : GraphState} {subscriptions : OutputSubscriptionPlan} {plan : ProcessingGraph}
    (h : g.lowerWithSubscriptions registry subscriptions = .ok plan) :
    (∀ id ∈ plan.ids, ∀ node, g.Stays registry subscriptions id node → isLive node = true) ↔
      ∀ id node, g.Stays registry subscriptions id node → isSinkNode registry node = true → node.muted = false := by
  have hids : ∀ id, id ∈ plan.ids ↔ (g.withOutputCollectors registry subscriptions).FeedsSink registry id := by
    intro id
    rw [(lower_ok h).ids]
    exact mem_kept
  constructor
  · intro hlive id node hstays hsink
    have hin : id ∈ plan.ids := (hids id).mpr ⟨id, ⟨node, hstays.2, hsink⟩, .refl⟩
    have hnode := hlive id hin node hstays
    rw [isLive, Bool.and_eq_true, Bool.not_eq_true'] at hnode
    exact hnode.2
  · intro hmuted id hin node hstays
    obtain ⟨sink, ⟨found, hfound, hsink⟩, hpath⟩ := (hids id).mp hin
    -- the first step of the path, or the sink itself
    rcases hpath.cases_head with rfl | ⟨next, hfeeds, -⟩
    · obtain rfl : found = node := Option.some.inj (hfound.symm.trans hstays.2)
      have hregular := hsink
      rw [isSinkNode, Bool.and_eq_true] at hregular
      rw [isLive, hmuted id found hstays hsink, hregular.1]
      rfl
    · obtain ⟨producer, hproducer, hlive⟩ := hfeeds.live
      obtain rfl : producer = node := Option.some.inj (hproducer.symm.trans hstays.2)
      exact hlive

theorem built_nodes_live_bypass :
    ∃ plan, bypassGraph.lowerWithSubscriptions wordRegistry ⟨[]⟩ = .ok plan ∧
      ((∀ id ∈ plan.ids, ∀ node, bypassGraph.Stays wordRegistry ⟨[]⟩ id node → isLive node = true) ↔
        ∀ id node, bypassGraph.Stays wordRegistry ⟨[]⟩ id node → isSinkNode wordRegistry node = true →
          node.muted = false) := by
  obtain ⟨plan, h, -⟩ := bypassGraph_lowers
  exact ⟨plan, h, built_nodes_live_iff h⟩

/-- Sinks that run without their input. -/
def optionalRegistry : GraphRegistry :=
  { wordRegistry with
    semantics := fun name => (wordRegistry.semantics name).map fun semantics =>
      { semantics with inputRequired := fun _ _ => false } }

def mutedSinkGraph : GraphState where
  nodes := (((∅ : AList fun _ : NodeId => Node).insert 1 ⟨.regular, "Source", "source", [], [wordSocket "Out"], false,
    .null⟩).insert 2 ⟨.regular, "Sink", "sink", [wordSocket "In"], [], false, .null⟩).insert 3
    ⟨.regular, "Sink", "sink", [wordSocket "In"], [], true, .null⟩
  connections := [⟨⟨1, 0, .output⟩, ⟨2, 0, .input⟩⟩, ⟨⟨1, 0, .output⟩, ⟨3, 0, .input⟩⟩]
  semanticRevision := 0

theorem withOutputCollectors_none {g : GraphState} {subscriptions : OutputSubscriptionPlan}
    (hwatched : g.outputsWhere (g.isWatched registry subscriptions) = [])
    (htabled : g.outputsWhere (g.isTabled registry []) = []) : g.withOutputCollectors registry subscriptions = g := by
  unfold withOutputCollectors
  rw [hwatched]
  dsimp only
  rw [htabled]
  rfl

/-- The muted sink is built. -/
theorem muted_sink_is_built :
    ∃ plan, mutedSinkGraph.lowerWithSubscriptions optionalRegistry ⟨[]⟩ = .ok plan ∧
      ∃ id ∈ plan.ids, ∃ node, mutedSinkGraph.Stays optionalRegistry ⟨[]⟩ id node ∧ node.muted = true := by
  have hids : (mutedSinkGraph.lowerWithSubscriptions optionalRegistry ⟨[]⟩).map ProcessingGraph.ids = .ok [1, 2, 3] := by
    decide +kernel
  have hsame : mutedSinkGraph.withOutputCollectors optionalRegistry ⟨[]⟩ = mutedSinkGraph :=
    withOutputCollectors_none (by decide +kernel) (by decide +kernel)
  cases h : mutedSinkGraph.lowerWithSubscriptions optionalRegistry ⟨[]⟩ with
  | error failure =>
    rw [h] at hids
    cases hids
  | ok plan =>
    rw [h] at hids
    refine ⟨plan, rfl, 3, ?_, _, ⟨rfl, ?_⟩, rfl⟩
    · rw [Except.ok.inj hids]
      decide
    · rw [hsame]
      rfl

end GraphState

end LogicConduit.Document
