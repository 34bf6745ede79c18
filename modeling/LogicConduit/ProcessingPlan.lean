import LogicConduit.KahnOrder

namespace LogicConduit

/-- A saved state value; a number is kept as the text it prints as. -/
inductive Json where
  | null
  | bool (value : Bool)
  | number (text : String)
  | string (value : String)
  | array (items : List Json)
  | object (fields : List (String × Json))
deriving Inhabited

namespace Json

mutual
def beq : Json → Json → Bool
  | null, null => true
  | bool a, bool b => a == b
  | number a, number b => a == b
  | string a, string b => a == b
  | array a, array b => beqItems a b
  | object a, object b => beqFields a b
  | _, _ => false

def beqItems : List Json → List Json → Bool
  | [], [] => true
  | a :: as, b :: bs => beq a b && beqItems as bs
  | _, _ => false

def beqFields : List (String × Json) → List (String × Json) → Bool
  | [], [] => true
  | (k, a) :: as, (l, b) :: bs => k == l && beq a b && beqFields as bs
  | _, _ => false
end

mutual
theorem beq_iff : ∀ a b : Json, beq a b = true ↔ a = b
  | null, b => by cases b <;> simp [beq]
  | bool a, b => by cases b <;> simp [beq]
  | number a, b => by cases b <;> simp [beq]
  | string a, b => by cases b <;> simp [beq]
  | array a, b => by cases b <;> simp [beq, beqItems_iff a]
  | object a, b => by cases b <;> simp [beq, beqFields_iff a]

theorem beqItems_iff : ∀ a b : List Json, beqItems a b = true ↔ a = b
  | [], b => by cases b <;> simp [beqItems]
  | a :: as, b => by cases b <;> simp [beqItems, beq_iff a, beqItems_iff as]

theorem beqFields_iff : ∀ a b : List (String × Json), beqFields a b = true ↔ a = b
  | [], b => by cases b <;> simp [beqFields]
  | (k, a) :: as, b => by
    cases b with
    | nil => simp [beqFields]
    | cons field bs => cases field; simp [beqFields, beq_iff a, beqFields_iff as]
end

instance : DecidableEq Json := fun a b => decidable_of_iff (beq a b = true) (beq_iff a b)

end Json

/-- The `u32` identity of a document node. -/
abbrev NodeId := Nat

/-- The Rust type behind a port kind, as its `TypeId` tells types apart. -/
inductive PayloadType where
  | sample
  | sampleBlock
  | word
  | numberSample
  | textSample
  | timestampEvent
  | other (id : Nat)
deriving DecidableEq, Inhabited

/-- A payload kind: its type identity, its stable name and its channel capacities for a
producer that is a source and for one that is not. -/
structure PortKind where
  typeId : PayloadType
  name : String
  sourceBuffer : Nat
  streamBuffer : Nat
deriving DecidableEq, Inhabited

namespace PortKind

def bufferSize (kind : PortKind) (producerIsSource : Bool) : Nat :=
  if producerIsSource then kind.sourceBuffer else kind.streamBuffer

/-- Kinds are compared by their type alone. -/
def same (a b : PortKind) : Bool := a.typeId == b.typeId

def sample : PortKind := ⟨.sample, "SampleEdge", 10000000, 1000⟩
def word : PortKind := ⟨.word, "Word", 100, 100⟩
def text : PortKind := ⟨.textSample, "Text", 100, 100⟩

end PortKind

inductive CaptureCacheIdentity where
  | notCapture
  | dynamic
  | stable (identity : List UInt8)
deriving DecidableEq, Inhabited

/-- What lowering keeps about the producer of one input. -/
structure ResolvedInput where
  kind : PortKind
  source : String
  sourceNode : NodeId
  sourceOutput : Nat
  sourceNodeTitle : String
  sourceOutputTitle : String
deriving DecidableEq, Inhabited

abbrev ResolvedInputs := List ((Nat × Nat) × ResolvedInput)

structure ProcessingNode where
  id : NodeId
  builder : String
  /-- The materializer's in-place configuration for a state, when it has one. -/
  hotConfig : Json → Option Json
  executionState : Json
  timeDomainSource : Bool
  sink : Bool
  state : Json
  runtimeName : String
  dataCollector : Bool
  collectedLaneNames : List (Nat × String)
  resolved : ResolvedInputs
  captureCacheIdentity : CaptureCacheIdentity
  derivedWordCaches : List (Option (List UInt8))
deriving Inhabited

structure ProcessingEdge where
  source : NodeId × String
  target : NodeId × String
  buffer : Nat
  kind : PortKind
deriving DecidableEq, Inhabited

structure ProcessingGraph where
  nodes : List ProcessingNode
  edges : List ProcessingEdge
deriving Inhabited

namespace ProcessingGraph

def ids (plan : ProcessingGraph) : List NodeId := plan.nodes.map ProcessingNode.id

def links (plan : ProcessingGraph) : List (NodeId × NodeId) :=
  plan.edges.map fun e => (e.source.1, e.target.1)

def compiledNode (plan : ProcessingGraph) (id : NodeId) : ProcessingNode :=
  (plan.nodes.find? (fun node => node.id = id)).getD default

def incoming (plan : ProcessingGraph) (id : NodeId) : List ProcessingEdge :=
  plan.edges.filter fun e => e.target.1 = id

/-- Producers before consumers. The queue is a `Vec` popped at its end: it starts with the
nodes nothing feeds, by rising id. -/
def topoOrder (plan : ProcessingGraph) : List NodeId :=
  let queue := (plan.ids.filter fun id => Kahn.indegree plan.links id = 0).insertionSort (· ≤ ·)
  Kahn.loop plan.links (plan.nodes.length + plan.edges.length) queue.reverse
    (Kahn.indegree plan.links) []

def signature (e : ProcessingEdge) : String × NodeId × String × Nat :=
  (e.target.2, e.source.1, e.source.2, e.buffer)

def wiringOf (plan : ProcessingGraph) (id : NodeId) : List (String × NodeId × String × Nat) :=
  (plan.incoming id).map signature

/-- Two nodes' signatures compared as sets. -/
def sameWiring (old new : ProcessingGraph) (id : NodeId) : Bool :=
  (old.wiringOf id).all (· ∈ new.wiringOf id) && (new.wiringOf id).all (· ∈ old.wiringOf id)

end ProcessingGraph

def nodeName (id : NodeId) (slug : String) : String := "n" ++ toString id ++ "_" ++ slug

/-- A plan as lowering hands it on: distinct nodes under names that hold their ids, edges
between its own nodes, and no cycle. -/
structure LoweredPlan extends ProcessingGraph where
  nodup : (nodes.map ProcessingNode.id).Nodup
  closed : ∀ e ∈ edges, e.source.1 ∈ nodes.map ProcessingNode.id ∧
    e.target.1 ∈ nodes.map ProcessingNode.id
  acyclic : Kahn.Acyclic (edges.map fun e => (e.source.1, e.target.1))
  named : ∀ node ∈ nodes, ∃ slug, node.runtimeName = nodeName node.id slug

theorem nodeName_inj {i j : NodeId} {s t : String} (same : nodeName i s = nodeName j t) : i = j := by
  have chars := congrArg String.toList same
  simp only [nodeName, String.toList_append] at chars
  have tails : Nat.toDigits 10 i ++ '_' :: s.toList = Nat.toDigits 10 j ++ '_' :: t.toList := by
    simpa [Nat.toString_eq_ofList_toDigits] using chars
  have leading : ∀ (n : NodeId) (rest : List Char),
      (Nat.toDigits 10 n ++ '_' :: rest).takeWhile Char.isDigit = Nat.toDigits 10 n := by
    intro n rest
    rw [List.takeWhile_append_of_pos fun c hc =>
      Nat.isDigit_of_mem_toDigits (by decide) (by decide) hc]
    simp [show Char.isDigit '_' = false by decide]
  have digits : Nat.toDigits 10 i = Nat.toDigits 10 j := by
    rw [← leading i s.toList, tails, leading j t.toList]
  calc
    i = Nat.ofDigitChars 10 (Nat.toDigits 10 i) 0 := Nat.ofDigitChars_ten_toDigits.symm
    _ = j := by rw [digits, Nat.ofDigitChars_ten_toDigits]

namespace ProcessingGraph

variable {id : NodeId}

theorem mem_incoming {plan : ProcessingGraph} {e : ProcessingEdge} :
    e ∈ plan.incoming id ↔ e ∈ plan.edges ∧ e.target.1 = id := by
  simp [incoming]

theorem mem_wiringOf {plan : ProcessingGraph} {w : String × NodeId × String × Nat} :
    w ∈ plan.wiringOf id ↔ ∃ e ∈ plan.edges, e.target.1 = id ∧ signature e = w := by
  simp only [wiringOf, List.mem_map, mem_incoming, and_assoc]

theorem sameWiring_iff {old new : ProcessingGraph} :
    sameWiring old new id = true ↔ ∀ w, w ∈ old.wiringOf id ↔ w ∈ new.wiringOf id := by
  simp only [sameWiring, Bool.and_eq_true, List.all_eq_true, decide_eq_true_eq]
  constructor
  · rintro ⟨left, right⟩ w
    exact ⟨left w, right w⟩
  · intro both
    exact ⟨fun w => (both w).mp, fun w => (both w).mpr⟩

end ProcessingGraph

namespace LoweredPlan

variable (plan : LoweredPlan)

theorem topoOrder_spec : plan.topoOrder.Nodup ∧ (∀ id, id ∈ plan.topoOrder ↔ id ∈ plan.ids) ∧
    Kahn.Topological plan.links plan.topoOrder := by
  have closed : ∀ e ∈ plan.links, e.1 ∈ plan.ids ∧ e.2 ∈ plan.ids := by
    intro e he
    obtain ⟨edge, inside, rfl⟩ := List.mem_map.mp he
    exact plan.closed edge inside
  have nodup : ((plan.ids.filter fun id => Kahn.indegree plan.links id = 0).insertionSort
      (· ≤ ·)).reverse.Nodup := by
    rw [List.nodup_reverse, (List.perm_insertionSort _ _).nodup_iff]
    exact plan.nodup.filter _
  have mem : ∀ id, id ∈ ((plan.ids.filter fun id => Kahn.indegree plan.links id = 0).insertionSort
      (· ≤ ·)).reverse ↔ id ∈ plan.ids ∧ Kahn.indegree plan.links id = 0 := by
    intro id
    rw [List.mem_reverse, (List.perm_insertionSort _ _).mem_iff, List.mem_filter]
    simp
  have enough : plan.ids.length ≤ plan.nodes.length + plan.edges.length := by
    simp [ProcessingGraph.ids]
  obtain ⟨final, h⟩ := Kahn.loop_visits (fun e he => (closed e he).2)
    (Kahn.Visiting.start nodup mem) (by simpa using enough)
  have all := (Kahn.loop_complete_iff closed nodup mem enough).mpr plan.acyclic
  refine ⟨?_, fun id => ⟨fun hid => ?_, all id⟩, h.topological⟩
  · have := h.nodup
    rwa [List.nil_append] at this
  · exact h.inside id (List.mem_append_right _ hid)

theorem nodup_topoOrder : plan.topoOrder.Nodup := plan.topoOrder_spec.1

variable {id : NodeId}

theorem mem_topoOrder : id ∈ plan.topoOrder ↔ id ∈ plan.ids :=
  plan.topoOrder_spec.2.1 id

variable {e : ProcessingEdge}

theorem topoOrder_before {before after : List NodeId}
    (split : plan.topoOrder = before ++ id :: after) (inside : e ∈ plan.edges)
    (target : e.target.1 = id) : e.source.1 ∈ before := by
  refine plan.topoOrder_spec.2.2 before id after split e.source.1 ?_
  exact List.mem_map.mpr ⟨e, inside, by rw [target]⟩

def rank (id : NodeId) : Nat := plan.topoOrder.idxOf id

theorem rank_lt (inside : e ∈ plan.edges) : plan.rank e.source.1 < plan.rank e.target.1 :=
  plan.topoOrder_spec.2.2.idxOf_lt plan.nodup_topoOrder (List.mem_map.mpr ⟨e, inside, rfl⟩)
    (plan.mem_topoOrder.mpr (plan.closed e inside).2)

theorem rank_lt_length (inside : id ∈ plan.ids) : plan.rank id < plan.nodes.length := by
  have perm : plan.topoOrder.Perm plan.ids :=
    (List.perm_ext_iff_of_nodup plan.nodup_topoOrder plan.nodup).mpr fun _ => plan.mem_topoOrder
  have length : plan.topoOrder.length = plan.nodes.length := by
    rw [perm.length_eq, ProcessingGraph.ids, List.length_map]
  rw [← length]
  exact List.idxOf_lt_length_of_mem (plan.mem_topoOrder.mpr inside)

theorem compiledNode_mem (inside : id ∈ plan.ids) :
    plan.compiledNode id ∈ plan.nodes ∧ (plan.compiledNode id).id = id := by
  obtain ⟨node, member, rfl⟩ := List.mem_map.mp inside
  unfold ProcessingGraph.compiledNode
  cases found : plan.nodes.find? (fun candidate => candidate.id = node.id) with
  | none => exact absurd (List.find?_eq_none.mp found node member) (by simp)
  | some candidate =>
    have same := List.find?_some found
    exact ⟨List.mem_of_find?_eq_some found, by simpa using same⟩

end LoweredPlan

end LogicConduit
