import LogicConduit.GraphDocument
import LogicConduit.Reachability
import LogicConduit.StableSort

namespace LogicConduit

/-- `contains` compares kinds as kinds are compared. -/
def PortKind.isIn (kind : PortKind) (kinds : List PortKind) : Bool := kinds.any kind.same

namespace Document

/-- What a node definition is told about one of its sockets. -/
structure SocketReference where
  schemaId : String
  definitionIndex : Nat
  memberIndex : Nat
  direction : SocketDirection
deriving DecidableEq

def Socket.reference (socket : Socket) (direction : SocketDirection) (memberIndex : Nat) : SocketReference :=
  ⟨socket.schemaId, socket.defIndex, memberIndex, direction⟩

namespace Node

def defName (node : Node) : String := if node.typeName.isEmpty then node.title else node.typeName

def sockets (node : Node) (direction : SocketDirection) : List Socket :=
  match direction with
  | .input => node.inputs
  | .output => node.outputs

def socketReference (node : Node) (direction : SocketDirection) (index : Nat) : Option SocketReference :=
  (node.sockets direction)[index]?.map fun socket =>
    socket.reference direction
      (if socket.isVariadicMember then (((node.sockets direction).take index).filter (isMemberOf socket.defIndex)).length
      else 0)

/-- The inputs that the outputs from `outIdx` on pass through, when those in `used` are taken. -/
def passThroughFrom (inputs : List Socket) : Nat → List Nat → List Socket → List (Nat × Nat)
  | _, _, [] => []
  | outIdx, used, output :: outputs =>
    match inputs.zipIdx.find? fun input => !used.contains input.2 && input.1.accepts output.effectiveType with
    | none => passThroughFrom inputs (outIdx + 1) used outputs
    | some input => (outIdx, input.2) :: passThroughFrom inputs (outIdx + 1) (input.2 :: used) outputs

def mutePassThroughPairs (node : Node) : List (Nat × Nat) := passThroughFrom node.inputs 0 [] node.outputs

/-- A lower-case title character of a slug. Besides the ASCII letters two characters have an ASCII letter in
their lower case. -/
def slugChars (c : Char) : List Char :=
  if c = Char.ofNat 0x212A then ['k']
  else if c = Char.ofNat 0x130 then ['i', '_']
  else if c.isAlphanum then [c.toLower]
  else ['_']

def slug (node : Node) : String :=
  let chars := node.title.toList.flatMap slugChars
  String.ofList (((chars.dropWhile (· == '_')).reverse.dropWhile (· == '_')).reverse)

end Node

/-- What lowering asks a node definition. -/
structure GraphNodeSemantics where
  executionState : Json → Json
  isSource : Bool
  isTimeDomainSource : Bool
  isSink : Bool
  isDataSubscription : Bool
  isDataCollector : Bool
  collectedLaneNames : Json → ResolvedInputs → List (Nat × String)
  acceptedKinds : SocketReference → Json → List PortKind
  offeredKinds : SocketReference → Json → List PortKind
  offeredConnectionContracts : SocketReference → Json → List String
  acceptedConnectionContracts : SocketReference → Json → List String
  inputPort : SocketReference → Json → PortKind → Option String
  outputPort : SocketReference → Json → PortKind → Option String
  inputRequired : SocketReference → Json → Bool
  inputBufferOverride : SocketReference → Json → Option Nat

namespace GraphNodeSemantics

/-- Inputs of these take every payload kind that has a registered subscription contract. -/
def registeredCollection (semantics : GraphNodeSemantics) : Bool :=
  semantics.isDataSubscription || semantics.isDataCollector

end GraphNodeSemantics

/-- Whether a node definition shows an output as a channel of the viewer, and as a column of the table. -/
structure GraphNodePresentation where
  hasViewerChannelOrigin : SocketReference → Json → Bool
  hasDecoderTableColumn : SocketReference → Json → Bool

/-- The registered node definitions by name, and the payload kinds with a subscription contract. -/
structure GraphRegistry where
  semantics : String → Option GraphNodeSemantics
  presentation : String → Option GraphNodePresentation
  /-- The in-place configuration of a materializer for a state. -/
  materializer : String → Option (Json → Option Json)
  captureSource : String → Option (Json → ResolvedInputs → CaptureCacheIdentity)
  subscribablePayloadKinds : List PortKind

structure OutputSubscriptionPlan where
  retainedOutputs : List (NodeId × Nat)

def OutputSubscriptionPlan.isRetained (plan : OutputSubscriptionPlan) (node : NodeId) (output : Nat) : Bool :=
  plan.retainedOutputs.contains (node, output)

structure CompileError where
  node : Option NodeId
  message : String
deriving DecidableEq

namespace CompileError

def onNode (node : NodeId) (message : String) : CompileError := ⟨some node, message⟩

def onGraph (message : String) : CompileError := ⟨none, message⟩

end CompileError

/-- How lowering ends without a plan. -/
inductive LoweringFailure where
  | errors (errors : List CompileError)
  /-- A failed `expect`. -/
  | panicked (text : String)
deriving DecidableEq

/-- A connection with reroutes and muted nodes collapsed away. -/
structure Wire where
  source : SocketId
  target : SocketId
deriving DecidableEq

inductive WireSource where
  | found (socket : SocketId)
  | dangling
  | mutedBlocked (output : SocketId)
deriving DecidableEq

namespace GraphState

/-- The connection that a reroute forwards. -/
def intoNode (g : GraphState) (id : NodeId) : Option Connection := g.connections.find? fun c => c.target.node = id

def intoInput (g : GraphState) (target : SocketId) : Option Connection := g.connections.find? fun c => c.target = target

/-- `resolve_wire_source`, with the number of hops that its guard still allows. -/
def resolveWireSource (g : GraphState) : Nat → SocketId → WireSource
  | 0, _ => .dangling
  | hops + 1, source =>
    match g.node? source.node with
    | none => .dangling
    | some node =>
      if node.kind = .reroute then
        match g.intoNode source.node with
        | some upstream => g.resolveWireSource hops upstream.source
        | none => .dangling
      else if node.muted then
        match node.mutePassThroughPairs.find? fun pair => pair.1 = source.index with
        | none => .mutedBlocked source
        | some pair =>
          match g.intoInput ⟨source.node, pair.2, .input⟩ with
          | some upstream => g.resolveWireSource hops upstream.source
          | none => .mutedBlocked source
      else .found source

def hopLimit (g : GraphState) : Nat := g.connections.length + g.nodes.entries.length + 1

/-- Nodes that wires end at: the others are handled when the wire leaving them is resolved. -/
def isLive (node : Node) : Bool := node.kind = .regular && !node.muted

def mutedError (g : GraphState) (output target : SocketId) : CompileError :=
  let outputName := (((g.node? output.node).bind fun node => node.outputs[output.index]?).map Socket.name).getD "?"
  let toLabel := ((g.node? target.node).bind fun node =>
    node.inputs[target.index]?.map fun socket => node.title ++ "." ++ socket.name).getD "?"
  .onNode output.node ("Muted: '" ++ outputName ++ "' has no type-matching input to pass through — '" ++ toLabel ++
    "' loses its input")

/-- The loop of `resolve_reroute_edges`; each blocked output is reported once. -/
def resolveConnections (g : GraphState) (blocked : List SocketId) : List Connection → List Wire × List CompileError
  | [] => ([], [])
  | connection :: rest =>
    match g.node? connection.target.node with
    | none => g.resolveConnections blocked rest
    | some node =>
      if isLive node then
        match g.resolveWireSource g.hopLimit connection.source with
        | .found source =>
          let (wires, errors) := g.resolveConnections blocked rest
          (⟨source, connection.target⟩ :: wires, errors)
        | .dangling => g.resolveConnections blocked rest
        | .mutedBlocked output =>
          if blocked.contains output then g.resolveConnections blocked rest
          else
            let (wires, errors) := g.resolveConnections (output :: blocked) rest
            (wires, g.mutedError output connection.target :: errors)
      else g.resolveConnections blocked rest

def resolveRerouteEdges (g : GraphState) : List Wire × List CompileError := g.resolveConnections [] g.connections

end GraphState

def outputSubscriptionBuilderName : String := "Output Subscription Collector"
def dataCollectorBuilderName : String := "Derived Data Collector"

/-- `u32::MAX - 1`. -/
def autoDataCollectorNodeId : NodeId := 2 ^ 32 - 2

def wrappingSub (a b : Nat) : Nat := (a + (2 ^ 32 - b % 2 ^ 32)) % 2 ^ 32

def collectorSocket (members : Nat) (label : String) : Socket where
  schemaId := ""
  name := label
  typeName := "Any"
  allowed := []
  resolvedType := none
  defIndex := 0
  variadic := some ⟨"In", members, false⟩
  visible := false

def collectorNode (title builder : String) (outputs : List (SocketId × String)) : Node where
  kind := .regular
  title := title
  typeName := builder
  inputs := outputs.map fun output => collectorSocket outputs.length output.2
  outputs := []
  muted := false
  state := .null

def collectorConnections (id : NodeId) (outputs : List (SocketId × String)) : List Connection :=
  outputs.zipIdx.map fun output => ⟨output.1.1, ⟨id, output.2, .input⟩⟩

namespace GraphState

def addCollector (g : GraphState) (id : NodeId) (title builder : String) (outputs : List (SocketId × String)) :
    GraphState :=
  { g.setNode id (collectorNode title builder outputs) with
    connections := g.connections ++ collectorConnections id outputs }

/-- The first free identity at or below a candidate. Among one more candidate than there are nodes and the
reserved identity one is free. -/
def freeNodeId (g : GraphState) : Nat → NodeId → NodeId
  | 0, candidate => candidate
  | rounds + 1, candidate =>
    if candidate ≠ autoDataCollectorNodeId ∧ (g.node? candidate).isNone then candidate
    else g.freeNodeId rounds (wrappingSub candidate 1)

def autoOutputCollectorNodeId (g : GraphState) (producer : NodeId) : NodeId :=
  g.freeNodeId (g.nodes.entries.length + 2) (wrappingSub (wrappingSub (2 ^ 32 - 1) 2) producer)

/-- A connection leads from an output to a node that collects or subscribes to data. -/
def alreadyCollected (g : GraphState) (registry : GraphRegistry) (id : NodeId) (index : Nat) : Bool :=
  g.connections.any fun c => decide (c.source.node = id) && decide (c.source.index = index) &&
    ((g.node? c.target.node).bind fun target => registry.semantics target.defName).any
      GraphNodeSemantics.registeredCollection

def isConnected (g : GraphState) (id : NodeId) (index : Nat) : Bool :=
  g.connections.any fun c => decide (c.source.node = id) && decide (c.source.index = index)

def isWatched (g : GraphState) (registry : GraphRegistry) (subscriptions : OutputSubscriptionPlan) (id : NodeId)
    (node : Node) (index : Nat) (output : Socket) : Bool :=
  match registry.semantics node.defName with
  | none => false
  | some semantics =>
    let reference := output.reference .output 0
    (g.isConnected id index || subscriptions.isRetained id index) && !g.alreadyCollected registry id index &&
      !(registry.presentation node.defName).any (fun features => features.hasViewerChannelOrigin reference node.state) &&
      (semantics.offeredKinds reference node.state).any fun kind =>
        kind.isIn registry.subscribablePayloadKinds && (semantics.outputPort reference node.state kind).isSome

def isTabled (g : GraphState) (registry : GraphRegistry) (watched : List (SocketId × String)) (id : NodeId)
    (node : Node) (index : Nat) (output : Socket) : Bool :=
  match registry.semantics node.defName with
  | none => false
  | some semantics =>
    let reference := output.reference .output 0
    !(watched.any fun w => decide (w.1.node = id) && decide (w.1.index = index)) &&
      !g.alreadyCollected registry id index &&
      (registry.presentation node.defName).any (fun features => features.hasDecoderTableColumn reference node.state) &&
      (semantics.offeredKinds reference node.state).any fun kind =>
        (semantics.outputPort reference node.state kind).isSome

/-- The outputs of the regular nodes that are chosen, under their labels, by node and index. -/
def outputsWhere (g : GraphState) (chosen : NodeId → Node → Nat → Socket → Bool) : List (SocketId × String) :=
  sortBy (fun output => toLex (output.1.node, output.1.index)) <|
    (g.nodes.entries.filter fun entry => entry.2.kind = .regular).flatMap fun entry =>
      (entry.2.outputs.zipIdx.filter fun output => chosen entry.1 entry.2 output.2 output.1).map fun output =>
        (⟨entry.1, output.2, .output⟩, entry.2.title ++ "." ++ output.1.name)

def addOutputCollectors (g : GraphState) (watched : List (SocketId × String)) : GraphState :=
  (watched.splitBy fun a b => a.1.node == b.1.node).foldl (fun g retained =>
    match retained.head? with
    | none => g
    | some first =>
      g.addCollector (g.autoOutputCollectorNodeId first.1.node) "Retained Output Collector"
        outputSubscriptionBuilderName retained) g

def withOutputCollectors (g : GraphState) (registry : GraphRegistry) (subscriptions : OutputSubscriptionPlan) :
    GraphState :=
  let watched := g.outputsWhere (g.isWatched registry subscriptions)
  let tabled := g.outputsWhere (g.isTabled registry watched)
  let collected := g.addOutputCollectors watched
  if tabled.isEmpty then collected
  else collected.addCollector autoDataCollectorNodeId "Derived Data Collector" dataCollectorBuilderName tabled

end GraphState

/-- What one wire is lowered to: the edge, and what its target is told about the input. -/
structure NegotiatedEdge where
  edge : ProcessingEdge
  defIndex : Nat
  member : Nat
  input : ResolvedInput

def connectionContractsOverlap (offered accepted : List String) : Bool :=
  offered.isEmpty || accepted.isEmpty || offered.any accepted.contains

/-- One end of a wire: its node, what lowering asks about it, and its socket. -/
structure WireEnd where
  id : NodeId
  node : Node
  semantics : GraphNodeSemantics
  socket : Socket
  index : Nat
  reference : SocketReference

def WireEnd.accepted (target : WireEnd) (registry : GraphRegistry) : List PortKind :=
  if target.semantics.registeredCollection then registry.subscribablePayloadKinds
  else target.semantics.acceptedKinds target.reference target.node.state

def negotiatedKind (registry : GraphRegistry) (source target : WireEnd) : Option PortKind :=
  (source.semantics.offeredKinds source.reference source.node.state).find? fun kind =>
    kind.isIn (target.accepted registry)

def negotiateEdge (registry : GraphRegistry) (source target : WireEnd) : Except CompileError NegotiatedEdge :=
  match negotiatedKind registry source target with
  | none =>
    .error (.onNode target.id
      (if target.semantics.registeredCollection then
        "collected-data input cannot retain '" ++ source.socket.name ++
          "' because its payload has no registered subscription contract"
      else
        "'" ++ target.socket.name ++ "' cannot consume what '" ++ source.node.title ++ "' produces on '" ++
          source.socket.name ++ "'"))
  | some kind =>
    let offered := source.semantics.offeredConnectionContracts source.reference source.node.state
    let accepted := target.semantics.acceptedConnectionContracts target.reference target.node.state
    if connectionContractsOverlap offered accepted then
      match source.semantics.outputPort source.reference source.node.state kind with
      | none => .error (.onNode source.id ("No runtime port for output '" ++ source.socket.name ++ "'"))
      | some outPort =>
        match target.semantics.inputPort target.reference target.node.state kind with
        | none => .error (.onNode target.id ("No runtime port for input '" ++ target.socket.name ++ "'"))
        | some inPort =>
          .ok {
            edge := {
              source := (source.id, outPort)
              target := (target.id, inPort)
              buffer := (target.semantics.inputBufferOverride target.reference target.node.state).getD
                (kind.bufferSize source.semantics.isSource)
              kind := kind }
            defIndex := target.socket.defIndex
            member := target.reference.memberIndex
            input := ⟨kind, source.node.title ++ "." ++ source.socket.name, source.id, source.index, source.node.title,
              source.socket.name⟩ }
    else
      .error (.onNode target.id ("'" ++ target.socket.name ++ "' accepts contracts [" ++
        String.intercalate ", " accepted ++ "], but '" ++ source.socket.name ++ "' offers [" ++
        String.intercalate ", " offered ++ "]"))

/-- What the loop over the wires has gathered. -/
structure Negotiation where
  errors : List CompileError
  resolved : NodeId → ResolvedInputs
  edges : List ProcessingEdge
  connected : List (NodeId × Nat)

def insertInput (inputs : ResolvedInputs) (key : Nat × Nat) (input : ResolvedInput) : ResolvedInputs :=
  inputs.filter (fun old => old.1 ≠ key) ++ [(key, input)]

namespace Negotiation

def report (n : Negotiation) (error : CompileError) : Negotiation := { n with errors := n.errors ++ [error] }

def connect (n : Negotiation) (target : SocketId) : Negotiation :=
  { n with connected := n.connected ++ [(target.node, target.index)] }

def add (n : Negotiation) (negotiated : NegotiatedEdge) : Negotiation :=
  { n with
    resolved := Function.update n.resolved negotiated.edge.target.1
      (insertInput (n.resolved negotiated.edge.target.1) (negotiated.defIndex, negotiated.member) negotiated.input)
    edges := n.edges ++ [negotiated.edge] }

end Negotiation

namespace GraphState

def semanticsOf (g : GraphState) (registry : GraphRegistry) (id : NodeId) : Option GraphNodeSemantics :=
  (g.node? id).bind fun node => registry.semantics node.defName

def wireEnd (g : GraphState) (registry : GraphRegistry) (socket : SocketId) (direction : SocketDirection) :
    Option WireEnd := do
  let node ← g.node? socket.node
  let semantics ← registry.semantics node.defName
  let found ← (node.sockets direction)[socket.index]?
  let reference ← node.socketReference direction socket.index
  pure ⟨socket.node, node, semantics, found, socket.index, reference⟩

def negotiateWire (g : GraphState) (registry : GraphRegistry) (keep : List NodeId) (n : Negotiation) (wire : Wire) :
    Negotiation :=
  if !keep.contains wire.source.node || !keep.contains wire.target.node then n
  else if (g.semanticsOf registry wire.source.node).isNone || (g.semanticsOf registry wire.target.node).isNone then n
  else
    match g.wireEnd registry wire.source .output, g.wireEnd registry wire.target .input with
    | some source, some target =>
      match negotiateEdge registry source target with
      | .error error => (n.connect wire.target).report error
      | .ok negotiated => (n.connect wire.target).add negotiated
    | _, _ => n.report (.onNode wire.target.node "Dangling connection")

def isSinkNode (registry : GraphRegistry) (node : Node) : Bool :=
  decide (node.kind = .regular) &&
    (registry.semantics node.defName).any fun semantics => semantics.isSink || semantics.isDataSubscription

def sinks (g : GraphState) (registry : GraphRegistry) : List NodeId :=
  (g.nodes.entries.filter fun entry => isSinkNode registry entry.2).map fun entry => entry.1

def links (wires : List Wire) : List (NodeId × NodeId) := wires.map fun wire => (wire.source.node, wire.target.node)

def kept (g : GraphState) (registry : GraphRegistry) (wires : List Wire) : List NodeId :=
  (Reachability.gather (links wires) ((g.sinks registry).length + wires.length) (g.sinks registry).reverse []).insertionSort
    (· ≤ ·)

def sourceErrors (g : GraphState) (registry : GraphRegistry) (kept : List NodeId) : List CompileError :=
  let timeDomain := fun id => (g.semanticsOf registry id).any fun semantics => semantics.isTimeDomainSource
  let isSource := fun id => (g.semanticsOf registry id).any fun semantics => semantics.isSource
  let missing := kept.filterMap fun id =>
    match g.node? id with
    | none => none
    | some node =>
      if (registry.semantics node.defName).isNone then
        some (.onNode id ("'" ++ node.defName ++ "' has no runtime implementation"))
      else none
  missing ++
    if (kept.filter isSource).isEmpty then [.onGraph "Graph has no data source"]
    else if 1 < (kept.filter fun id => isSource id && timeDomain id).length then
      (kept.filter timeDomain).map fun id => .onNode id "Multiple sources: a graph has exactly one time domain"
    else []

def requiredErrors (g : GraphState) (registry : GraphRegistry) (connected : List (NodeId × Nat)) (id : NodeId) :
    List CompileError :=
  match g.node? id with
  | none => []
  | some node =>
    match registry.semantics node.defName with
    | none => []
    | some semantics =>
      node.inputs.zipIdx.filterMap fun input =>
        let (socket, index) := input
        let required := (node.socketReference .input index).any fun reference => semantics.inputRequired reference node.state
        if !socket.visible then none
        else if socket.isVariadicPlaceholder then
          if !(node.inputs.any fun other => isMemberOf socket.defIndex other) && required then
            some (.onNode id ("Input '" ++ socket.name ++ "' needs at least one connection"))
          else none
        else if !socket.isVariadicMember && !connected.contains (id, index) && required then
          some (.onNode id ("Input '" ++ socket.name ++ "' is not connected"))
        else none

/-- `has_cycle`, by the number of nodes that Kahn's loop visits. -/
def hasCycle (nodes : List NodeId) (edges : List (NodeId × NodeId)) : Bool :=
  let queue := nodes.filter fun id => Kahn.indegree edges id = 0
  (Kahn.loop edges nodes.length queue.reverse (Kahn.indegree edges) []).length ≠ nodes.length

def processingNode (g : GraphState) (registry : GraphRegistry) (resolved : NodeId → ResolvedInputs) (id : NodeId) :
    Except LoweringFailure ProcessingNode :=
  match g.node? id with
  | none => .error (.panicked "no entry found for key")
  | some node =>
    match registry.semantics node.defName, registry.materializer node.defName with
    | none, _ => .error (.panicked "retained node has registered semantics")
    | _, none => .error (.panicked "retained node has a registered materializer")
    | some semantics, some hotConfig =>
      .ok {
        id := id
        builder := node.defName
        hotConfig := hotConfig
        executionState := semantics.executionState node.state
        timeDomainSource := semantics.isTimeDomainSource
        sink := semantics.isSink
        state := node.state
        runtimeName := nodeName id node.slug
        dataCollector := semantics.registeredCollection
        collectedLaneNames := semantics.collectedLaneNames node.state (resolved id)
        resolved := resolved id
        captureCacheIdentity := match registry.captureSource node.defName with
          | none => .notCapture
          | some identity => identity node.state (resolved id)
        derivedWordCaches := [] }

def negotiate (g : GraphState) (registry : GraphRegistry) (kept : List NodeId) (wires : List Wire)
    (errors : List CompileError) : Negotiation :=
  wires.foldl (g.negotiateWire registry kept) ⟨errors, fun _ => [], [], []⟩

/-- What is checked once all wires are negotiated. -/
def graphErrors (g : GraphState) (registry : GraphRegistry) (kept : List NodeId) (n : Negotiation) : List CompileError :=
  kept.flatMap (g.requiredErrors registry n.connected) ++
    if hasCycle kept (n.edges.map fun e => (e.source.1, e.target.1)) then [.onGraph "Graph contains a cycle"] else []

/-- The part of `lower_with_subscriptions` behind the collectors. -/
def lower (g : GraphState) (registry : GraphRegistry) : Except LoweringFailure ProcessingGraph :=
  let (wires, mutedErrors) := g.resolveRerouteEdges
  if (g.sinks registry).isEmpty then .error (.errors [.onGraph "Graph has no sink (add a File Writer)"])
  else
    let kept := g.kept registry wires
    let n := g.negotiate registry kept wires (mutedErrors ++ g.sourceErrors registry kept)
    let errors := n.errors ++ g.graphErrors registry kept n
    if errors.isEmpty then
      (kept.mapM (g.processingNode registry n.resolved)).map fun nodes => ⟨nodes, n.edges⟩
    else .error (.errors errors)

def lowerWithSubscriptions (g : GraphState) (registry : GraphRegistry) (subscriptions : OutputSubscriptionPlan) :
    Except LoweringFailure ProcessingGraph :=
  (g.withOutputCollectors registry subscriptions).lower registry

end GraphState

end Document

end LogicConduit
