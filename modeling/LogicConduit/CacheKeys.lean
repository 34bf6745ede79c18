import Mathlib.Data.String.Basic
import LogicConduit.StableSort
import LogicConduit.CaptureChunkFormat
import LogicConduit.ProcessingPlan

namespace LogicConduit

def hashField (bytes : Bytes) : Bytes := leBytes 8 bytes.length ++ bytes

mutual
def canonicalJsonBytes : Json → Bytes
  | .null => [0x6e]
  | .bool value => [if value then 0x74 else 0x66]
  | .number text => 0x23 :: hashField (utf8Bytes text)
  | .string value => 0x22 :: hashField (utf8Bytes value)
  | .array items => 0x5b :: canonicalItems items ++ [0x5d]
  | .object fields =>
    0x7b :: (sortBy Prod.fst (canonicalFields fields)).flatMap
      (fun field => hashField (utf8Bytes field.1) ++ field.2) ++ [0x7d]

def canonicalItems : List Json → Bytes
  | [] => []
  | item :: items => canonicalJsonBytes item ++ canonicalItems items

def canonicalFields : List (String × Json) → List (String × Bytes)
  | [] => []
  | (name, value) :: fields => (name, canonicalJsonBytes value) :: canonicalFields fields
end

/-- Input port, output port and kind name of an edge, in the order they are compared. -/
abbrev EdgeLabel := String ×ₗ String ×ₗ String

def ProcessingEdge.label (e : ProcessingEdge) : EdgeLabel :=
  toLex (e.target.2, toLex (e.source.2, e.kind.name))

def labelFields (label : EdgeLabel) : List Bytes :=
  [utf8Bytes (ofLex label).1, utf8Bytes (ofLex (ofLex label).2).1, utf8Bytes (ofLex (ofLex label).2).2]

def ProcessingGraph.sortedIncoming (plan : ProcessingGraph) (id : NodeId) : List ProcessingEdge :=
  sortBy ProcessingEdge.label (plan.incoming id)

def identityFields : CaptureCacheIdentity → Option (List Bytes)
  | .notCapture => some []
  | .dynamic => none
  | .stable identity => some [identity]

def nodeFields (builder : String) (state : Bytes) (identity inputs : List Bytes) : List Bytes :=
  [utf8Bytes "node", utf8Bytes builder, state] ++ identity ++ inputs

abbrev KeyMemo := NodeId → Option Bytes

def persistentUpstreamKey (hash : Bytes → Bytes) (plan : ProcessingGraph) :
    Nat → NodeId → KeyMemo → Option (Bytes × KeyMemo)
  | 0, _, _ => none
  | fuel + 1, id, memo =>
    match memo id with
    | some key => some (key, memo)
    | none =>
      let node := plan.compiledNode id
      match identityFields node.captureCacheIdentity with
      | none => none
      | some identity =>
        match (plan.sortedIncoming id).foldlM
            (fun (acc : List Bytes × KeyMemo) e =>
              (persistentUpstreamKey hash plan fuel e.source.1 acc.2).map fun upstream =>
                (acc.1 ++ (labelFields e.label ++ [upstream.1]), upstream.2)) ([], memo) with
        | none => none
        | some (inputs, memo') =>
          let key := hash ((nodeFields node.builder (canonicalJsonBytes node.state) identity
            inputs).flatMap hashField)
          some (key, Function.update memo' id (some key))

/-- `env!("CARGO_PKG_VERSION")` of the workspace. -/
def packageVersion : String := "0.1.0"

def derivedCacheAbiVersion : Nat := 2

def laneFields (collectorState : Bytes) (member : Nat) (output kind : String) (upstream : Bytes) :
    List Bytes :=
  [utf8Bytes "dsl-derived-lane-cache-v1", utf8Bytes packageVersion, leBytes 4 derivedCacheAbiVersion,
    collectorState, leBytes 8 member, utf8Bytes output, utf8Bytes kind, upstream]

/-- `persistent_lane_key`: no chain of producers is longer than the plan has nodes. -/
def persistentLaneKey (hash : Bytes → Bytes) (plan : ProcessingGraph) (collectorId : NodeId)
    (member : Nat) (edge : ProcessingEdge) : Option Bytes :=
  (persistentUpstreamKey hash plan (plan.nodes.length + 1) edge.source.1 fun _ => none).map
    fun upstream => hash ((laneFields (canonicalJsonBytes (plan.compiledNode collectorId).state)
      member edge.source.2 edge.kind.name upstream.1).flatMap hashField)

def assignDerivedWordCaches (hash : Bytes → Bytes) (usesPersistentCache : PortKind → Bool)
    (plan : ProcessingGraph) : ProcessingGraph :=
  { plan with
    nodes := plan.nodes.map fun node =>
      if node.dataCollector then
        { node with
          derivedWordCaches :=
            (List.range (node.resolved.filter fun input => input.1.1 = 0).length).map fun member =>
              (plan.edges.find? fun e => e.target = (node.id, "in" ++ toString member) &&
                usesPersistentCache e.kind).bind (persistentLaneKey hash plan node.id member) }
      else node }

/-- What a node's key is taken of, unfolded: builder, canonical state, capture identity and, for
each incoming edge in the order of the labels, its label and the tree behind it. -/
inductive UpstreamTree where
  | node (builder : String) (state : Bytes) (identity : CaptureCacheIdentity)
    (inputs : List (EdgeLabel × UpstreamTree))

def ProcessingGraph.unfold (plan : ProcessingGraph) : Nat → NodeId → UpstreamTree
  | 0, id =>
    let node := plan.compiledNode id
    .node node.builder (canonicalJsonBytes node.state) node.captureCacheIdentity []
  | depth + 1, id =>
    let node := plan.compiledNode id
    .node node.builder (canonicalJsonBytes node.state) node.captureCacheIdentity
      ((plan.sortedIncoming id).map fun e => (e.label, plan.unfold depth e.source.1))

def ProcessingGraph.upstreamTree (plan : ProcessingGraph) (id : NodeId) : UpstreamTree :=
  plan.unfold plan.nodes.length id

mutual
def UpstreamTree.hashed (hash : Bytes → Bytes) : UpstreamTree → Option Bytes
  | .node builder state identity inputs =>
    match identityFields identity with
    | none => none
    | some identity => (inputFields hash inputs).map fun fields =>
        (nodeFields builder state identity fields).flatMap hashField

def UpstreamTree.inputFields (hash : Bytes → Bytes) :
    List (EdgeLabel × UpstreamTree) → Option (List Bytes)
  | [] => some []
  | (label, tree) :: inputs =>
    match tree.hashed hash, inputFields hash inputs with
    | some bytes, some fields => some (labelFields label ++ [hash bytes] ++ fields)
    | _, _ => none
end

def UpstreamTree.key (hash : Bytes → Bytes) (tree : UpstreamTree) : Option Bytes :=
  (tree.hashed hash).map hash

end LogicConduit
