import Mathlib.Data.List.AList
import LogicConduit.ProcessingPlan

namespace LogicConduit.Document

inductive SocketDirection where
  | input
  | output
deriving DecidableEq

structure SocketId where
  node : NodeId
  index : Nat
  direction : SocketDirection
deriving DecidableEq

structure Connection where
  source : SocketId
  target : SocketId
deriving DecidableEq

structure VariadicInfo where
  base : String
  max : Nat
  placeholder : Bool
deriving DecidableEq

structure Socket where
  schemaId : String
  name : String
  typeName : String
  allowed : List String
  resolvedType : Option String
  defIndex : Nat
  variadic : Option VariadicInfo
  visible : Bool
deriving DecidableEq

inductive NodeKind where
  | regular
  | reroute
deriving DecidableEq

structure Node where
  kind : NodeKind
  title : String
  typeName : String
  inputs : List Socket
  outputs : List Socket
  muted : Bool
  state : Json

/-- A graph document. The revision is a `u64`. -/
structure GraphState where
  nodes : AList fun _ : NodeId => Node
  connections : List Connection
  semanticRevision : Nat

namespace Socket

def effectiveType (socket : Socket) : String := socket.resolvedType.getD socket.typeName

def accepts (socket : Socket) (incoming : String) : Bool :=
  incoming == "Any" || socket.typeName == "Any" || incoming == socket.typeName ||
    socket.allowed.any (· == incoming)

def isVariadicPlaceholder (socket : Socket) : Bool := socket.variadic.any fun info => info.placeholder

def isVariadicMember (socket : Socket) : Bool := socket.variadic.any fun info => !info.placeholder

end Socket

def memberName (base : String) (number : Nat) : String := base ++ " " ++ toString number

/-- The last index at which the predicate holds, as a scan that overwrites it keeps it. -/
def lastIdx {α : Type*} (p : α → Bool) : List α → Option Nat
  | [] => none
  | a :: l =>
    match lastIdx p l with
    | some index => some (index + 1)
    | none => if p a then some 0 else none

def isMemberOf (defIndex : Nat) (socket : Socket) : Bool :=
  socket.defIndex == defIndex && socket.isVariadicMember

def isPlaceholderOf (defIndex : Nat) (socket : Socket) : Bool :=
  socket.defIndex == defIndex && socket.isVariadicPlaceholder

def renumberMembers (defIndex : Nat) (base : String) (members : Nat) : List Socket → List Socket
  | [] => []
  | socket :: sockets =>
    if isMemberOf defIndex socket then
      { socket with name := memberName base (members + 1) } ::
        renumberMembers defIndex base (members + 1) sockets
    else socket :: renumberMembers defIndex base members sockets

def resolution (outType : Option String) (socket : Socket) : Option String :=
  outType.bind fun t => if t ≠ "Any" ∧ t ≠ socket.typeName then some t else none

namespace Connection

def shiftUp (id : NodeId) (index : Nat) (c : Connection) : Connection :=
  if c.target.node = id ∧ index ≤ c.target.index then
    { c with target := { c.target with index := c.target.index + 1 } }
  else c

def shiftDown (id : NodeId) (index : Nat) (c : Connection) : Connection :=
  if c.target.node = id ∧ index < c.target.index then
    { c with target := { c.target with index := c.target.index - 1 } }
  else c

end Connection

namespace GraphState

def node? (g : GraphState) (id : NodeId) : Option Node := g.nodes.lookup id

def input? (g : GraphState) (target : SocketId) : Option Socket :=
  (g.node? target.node).bind fun node => node.inputs[target.index]?

def setNode (g : GraphState) (id : NodeId) (node : Node) : GraphState :=
  { g with nodes := g.nodes.insert id node }

def eraseNode (g : GraphState) (id : NodeId) : GraphState :=
  { g with nodes := g.nodes.erase id }

def setConnections (g : GraphState) (connections : List Connection) : GraphState :=
  { g with connections := connections }

/-- An edit of the inputs of a node through `get_mut`. -/
def modifyInputs (g : GraphState) (id : NodeId) (f : List Socket → List Socket) : GraphState :=
  match g.node? id with
  | none => g
  | some node => g.setNode id { node with inputs := f node.inputs }

def markSemanticChange (g : GraphState) : GraphState :=
  { g with semanticRevision := min (g.semanticRevision + 1) (2 ^ 64 - 1) }

def resolveInput (g : GraphState) (source target : SocketId) : GraphState :=
  let outType := ((g.node? source.node).bind fun node => node.outputs[source.index]?).map
    Socket.effectiveType
  g.modifyInputs target.node fun inputs =>
    inputs.modify target.index fun socket => { socket with resolvedType := resolution outType socket }

def clearInputResolution (g : GraphState) (target : SocketId) : GraphState :=
  g.modifyInputs target.node fun inputs =>
    inputs.modify target.index fun socket => { socket with resolvedType := none }

/-- `propagate_reroute_output`, to a depth of nested calls. Without an answer the recursion went
deeper, or a reroute had no socket to read. -/
def propagateRerouteOutput : Nat → GraphState → NodeId → Option GraphState
  | 0, _, _ => none
  | depth + 1, g, id =>
    match g.node? id with
    | none => some g
    | some node =>
      if node.kind ≠ .reroute then some g
      else
        match node.inputs[0]?, node.outputs[0]? with
        | some input, some output =>
          let inputType := input.effectiveType
          let resolved := if inputType ≠ "Any" then some inputType else none
          let g := g.setNode id
            { node with outputs := node.outputs.set 0 { output with resolvedType := resolved } }
          let outputId : SocketId := ⟨id, 0, .output⟩
          let downstream := (g.connections.filter fun c => c.source = outputId).map
            Connection.target
          downstream.foldlM (fun g target =>
            propagateRerouteOutput depth (g.resolveInput outputId target) target.node) g
        | _, _ => none

/-- A chain of reroutes that does not close takes each connection at most once. -/
def propagate (g : GraphState) (id : NodeId) : Option GraphState :=
  g.propagateRerouteOutput (g.connections.length + 1) id

def insertInputSocket (g : GraphState) (id : NodeId) (index : Nat) (socket : Socket) : GraphState :=
  match g.node? id with
  | none => g
  | some node =>
    let index := min index node.inputs.length
    (g.setNode id { node with inputs := node.inputs.insertIdx index socket }).setConnections
      (g.connections.map (Connection.shiftUp id index))

def removeInputSocket (g : GraphState) (id : NodeId) (index : Nat) : Option (Socket × GraphState) :=
  (g.node? id).bind fun node =>
    node.inputs[index]?.map fun socket =>
      (socket, (g.setNode id { node with inputs := node.inputs.eraseIdx index }).setConnections
        ((g.connections.filter fun c => ¬(c.target.node = id ∧ c.target.index = index)).map
          (Connection.shiftDown id index)))

def variadicMembers (g : GraphState) (id : NodeId) (defIndex : Nat) : Nat :=
  (g.node? id).elim 0 fun node => node.inputs.countP (isMemberOf defIndex)

def growVariadicGroup (g : GraphState) (target : SocketId) : GraphState :=
  match g.input? target with
  | none => g
  | some socket =>
    match socket.variadic with
    | none => g
    | some info =>
      if ¬ info.placeholder then g
      else
        let number := g.variadicMembers target.node socket.defIndex + 1
        let g := g.modifyInputs target.node fun inputs => inputs.modify target.index fun s =>
          { s with variadic := some { info with placeholder := false },
                   name := memberName info.base number }
        if number < info.max then
          g.insertInputSocket target.node (target.index + 1)
            { socket with resolvedType := none, name := info.base }
        else g

def renumberVariadicGroup (g : GraphState) (id : NodeId) (defIndex : Nat) (info : VariadicInfo) :
    GraphState :=
  match g.node? id with
  | none => g
  | some node =>
    let members := node.inputs.countP (isMemberOf defIndex)
    let g := g.modifyInputs id (renumberMembers defIndex info.base 0)
    match lastIdx (isPlaceholderOf defIndex) node.inputs with
    | none => g
    | some index =>
      if info.max ≤ members then ((g.removeInputSocket id index).map Prod.snd).getD g else g

def collapseVariadicMember (g : GraphState) (target : SocketId) : GraphState :=
  match g.input? target with
  | none => g
  | some socket =>
    match socket.variadic with
    | none => g
    | some info =>
      if info.placeholder then g
      else
        match g.removeInputSocket target.node target.index with
        | none => g
        | some (removed, g) =>
          match g.node? target.node with
          | none => g
          | some node =>
            let members := node.inputs.countP (isMemberOf socket.defIndex)
            let groupEnd := lastIdx (fun s => s.defIndex == socket.defIndex) node.inputs
            let hasPlaceholder := node.inputs.any (isPlaceholderOf socket.defIndex)
            let g := g.modifyInputs target.node (renumberMembers socket.defIndex info.base 0)
            if ¬ hasPlaceholder ∧ members < info.max then
              g.insertInputSocket target.node (groupEnd.elim target.index (· + 1))
                { removed with resolvedType := none, name := info.base,
                               variadic := some { info with placeholder := true } }
            else g

def onInputDisconnected (g : GraphState) (target : SocketId) : Option GraphState :=
  let g := if (g.input? target).any Socket.isVariadicMember then g.collapseVariadicMember target
    else g.clearInputResolution target
  g.propagate target.node

def addConnection (g : GraphState) (source target : SocketId) : Option GraphState :=
  let g := g.setConnections ((g.connections.filter fun c => c.target ≠ target) ++ [⟨source, target⟩])
  (((g.resolveInput source target).growVariadicGroup target).propagate target.node).map markSemanticChange

def disconnectInput (g : GraphState) (target : SocketId) : Option (GraphState × Bool) :=
  let kept := g.connections.filter fun c => c.target ≠ target
  if kept.length ≠ g.connections.length then
    ((g.setConnections kept).onInputDisconnected target).map fun g => (g.markSemanticChange, true)
  else some (g.setConnections kept, false)

def removeConnectionAt (g : GraphState) (index : Nat) : Option (GraphState × Connection) :=
  g.connections[index]?.bind fun c =>
    ((g.setConnections (g.connections.eraseIdx index)).onInputDisconnected c.target).map
      fun g => (g.markSemanticChange, c)

def removeOutgoing (id : NodeId) : Nat → GraphState → Option GraphState
  | rounds, g =>
    match g.connections.findIdx? fun c => c.source.node = id with
    | none => some g
    | some position =>
      match rounds with
      | 0 => none
      | rounds + 1 => (g.removeConnectionAt position).bind fun next => removeOutgoing id rounds next.1

def removeNode (g : GraphState) (id : NodeId) : Option GraphState :=
  match g.node? id with
  | none => some g
  | some _ =>
    let g := (g.eraseNode id).markSemanticChange
    let kept := g.connections.filter fun c => c.target.node ≠ id
    removeOutgoing id kept.length (g.setConnections kept)

/-- Whether the insertion applied. -/
def insertVariadicConnection (g : GraphState) (source target : SocketId) :
    Option (GraphState × Bool) :=
  match g.input? target with
  | none => some (g, false)
  | some socket =>
    match socket.variadic with
    | none => some (g, false)
    | some info =>
      if info.placeholder then some (g, false)
      else if ¬ g.connections.any fun c => c.target = target then some (g, false)
      else if info.max ≤ g.variadicMembers target.node socket.defIndex then some (g, false)
      else
        let g := g.insertInputSocket target.node target.index { socket with resolvedType := none }
        let g := g.setConnections (g.connections ++ [⟨source, target⟩])
        let g := (g.resolveInput source target).renumberVariadicGroup target.node socket.defIndex info
        (g.propagate target.node).map fun g => (g.markSemanticChange, true)

def connectedIndices (g : GraphState) (id : NodeId) : List Nat :=
  (g.connections.filter fun c => c.target.node = id).map fun c => c.target.index

def victim (g : GraphState) (id : NodeId) (inputs : List Socket) : Option Nat :=
  (List.range inputs.length).find? fun index =>
    inputs[index]?.any Socket.isVariadicMember && !(g.connectedIndices id).contains index

def collapseUnconnected (id : NodeId) : Nat → GraphState → Option GraphState
  | rounds, g =>
    match (g.node? id).bind fun node => g.victim id node.inputs with
    | none => some g
    | some index =>
      match rounds with
      | 0 => none
      | rounds + 1 => collapseUnconnected id rounds (g.collapseVariadicMember ⟨id, index, .input⟩)

def clearUnconnected (g : GraphState) (id : NodeId) : GraphState :=
  g.modifyInputs id fun inputs => inputs.mapIdx fun index socket =>
    if socket.resolvedType.isSome && !(g.connectedIndices id).contains index then
      { socket with resolvedType := none }
    else socket

def pruneUnconnectedResolutions (g : GraphState) (ids : List NodeId) : Option GraphState :=
  ids.foldlM (fun g id =>
    (collapseUnconnected id ((g.node? id).elim 0 fun node => node.inputs.length) g).map
      fun g => g.clearUnconnected id) g

end GraphState

end LogicConduit.Document
