import LogicConduit.LiveEdits

namespace LogicConduit

open ProcessingGraph

/-- A subscription request: producer, output port, channel capacity (always blocking). -/
structure Live.InputSub where
  fromNode : String
  fromPort : String
  buffer : Nat
deriving DecidableEq

/-- One declared input of a running node, its subscription and the payload it was typed for. -/
structure RunningInput where
  port : String
  sub : Option Live.InputSub
  kind : Option PayloadType
deriving DecidableEq

/-- A node as the manager holds it; the schema names the inputs that the built process declares. -/
structure RunningNode where
  builder : String
  configuration : Json
  schema : List String
  inputs : List RunningInput
  started : Bool
deriving DecidableEq

inductive PipelineError where
  | nodeAlreadyExists (node : String)
  | nodeNotRunning (node : String)
  | producerNotRunning (producer : String)
  | rejected (node : String)
  | nodeTaskStart (node : String)
  | configurationClosed (node : String)
deriving DecidableEq

inductive ApplyError where
  | needsFullRestart (message : String)
  | materialization (node : NodeId) (source : String)
  | apply (message : String)
  | runtime (error : PipelineError)
deriving DecidableEq

/-- How one call of the manager ends: as asked, refused for its ports or payloads, or wired
but without a task to run it. -/
inductive ManagerOutcome where
  | done
  | rejected
  | notStarted
deriving DecidableEq

/-- What the outside decides during one call: whether a node can be built and which inputs it
then declares, and how the manager's calls end. -/
structure Outcomes where
  build : ProcessingNode → String → Except String (List String)
  manager : NodeId → ManagerOutcome

/-- The manager's node table and the supervisor name of each document node. -/
structure Supervisor where
  nodes : String → Option RunningNode
  names : NodeId → Option String

namespace Supervisor

def empty : Supervisor := ⟨fun _ => none, fun _ => none⟩

def setNode (t : Supervisor) (name : String) (node : Option RunningNode) : Supervisor :=
  { t with nodes := Function.update t.nodes name node }

def setName (t : Supervisor) (id : NodeId) (name : Option String) : Supervisor :=
  { t with names := Function.update t.names id name }

end Supervisor

namespace ProcessingGraph

def edgeInto (plan : ProcessingGraph) (id : NodeId) (port : String) : Option ProcessingEdge :=
  plan.edges.find? fun e => e.target = (id, port)

def inputSubs (plan : ProcessingGraph) (id : NodeId) (names : NodeId → Option String) :
    List String → Except String (List (Option Live.InputSub))
  | [] => .ok []
  | port :: ports =>
    match plan.edgeInto id port with
    | none => (inputSubs plan id names ports).map (none :: ·)
    | some e =>
      match names e.source.1 with
      | none => .error ("producer n" ++ toString e.source.1 ++ " not materialized")
      | some fromNode =>
        (inputSubs plan id names ports).map (some ⟨fromNode, e.source.2, e.buffer⟩ :: ·)

/-- Whether a plan's edge is the wire behind a subscription. -/
def carries (names : NodeId → Option String) (id : NodeId) (port : String) (s : Live.InputSub)
    (e : ProcessingEdge) : Bool :=
  e.target = (id, port) && names e.source.1 = some s.fromNode && e.source.2 = s.fromPort &&
    e.buffer = s.buffer

def wireKind (plan : ProcessingGraph) (names : NodeId → Option String) (id : NodeId)
    (port : String) : Option Live.InputSub → Option PayloadType
  | none => none
  | some s => (plan.edges.find? (carries names id port s)).map fun e => e.kind.typeId

def wiredNode (plan : ProcessingGraph) (names : NodeId → Option String) (id : NodeId)
    (ports : List String) (subs : List (Option Live.InputSub)) (started : Bool) : RunningNode where
  builder := (plan.compiledNode id).builder
  configuration := (plan.compiledNode id).executionState
  schema := ports
  inputs := (ports.zip subs).map fun input =>
    ⟨input.1, input.2, plan.wireKind names id input.1 input.2⟩
  started := started

/-- A hot configuration is taken to leave the process as a rebuild for the plan would; the
subscriptions stay. -/
def reconfigured (plan : ProcessingGraph) (names : NodeId → Option String) (id : NodeId)
    (node : RunningNode) : RunningNode :=
  { node with
    builder := (plan.compiledNode id).builder
    configuration := (plan.compiledNode id).executionState
    inputs := node.inputs.map fun input =>
      { input with kind := plan.wireKind names id input.port input.sub } }

end ProcessingGraph

def missingProducer (nodes : String → Option RunningNode) (subs : List (Option Live.InputSub)) :
    Option String :=
  subs.findSome? fun
    | some s => if (nodes s.fromNode).isNone then some s.fromNode else none
    | none => none

/-- `add_node`: nothing is registered unless the wiring goes through. -/
def addNode (outcome : ManagerOutcome) (t : Supervisor) (name : String)
    (node : Bool → RunningNode) (subs : List (Option Live.InputSub)) :
    Supervisor × Option PipelineError :=
  if (t.nodes name).isSome then (t, some (.nodeAlreadyExists name))
  else
    match missingProducer t.nodes subs with
    | some producer => (t, some (.producerNotRunning producer))
    | none =>
      match outcome with
      | .rejected => (t, some (.rejected name))
      | .notStarted => (t.setNode name (some (node false)), some (.nodeTaskStart name))
      | .done => (t.setNode name (some (node true)), none)

def removeNode (t : Supervisor) (name : String) : Supervisor × Option PipelineError :=
  if (t.nodes name).isSome then (t.setNode name none, none)
  else (t, some (.nodeNotRunning name))

/-- `restart_node`: the old instance is taken out before the new wiring is looked at. -/
def restartNode (outcome : ManagerOutcome) (t : Supervisor) (name : String)
    (node : Bool → RunningNode) (subs : List (Option Live.InputSub)) :
    Supervisor × Option PipelineError :=
  if (t.nodes name).isNone then (t, some (.nodeNotRunning name))
  else
    let detached := t.setNode name none
    match missingProducer detached.nodes subs with
    | some producer => (detached, some (.producerNotRunning producer))
    | none =>
      match outcome with
      | .rejected => (detached, some (.rejected name))
      | .notStarted => (t.setNode name (some (node false)), some (.nodeTaskStart name))
      | .done => (t.setNode name (some (node true)), none)

def reconfigure (outcome : ManagerOutcome) (t : Supervisor) (name : String)
    (f : RunningNode → RunningNode) : Supervisor × Option PipelineError :=
  match t.nodes name with
  | none => (t, some (.nodeNotRunning name))
  | some node =>
    match outcome with
    | .done => (t.setNode name (some (f node)), none)
    | _ => (t, some (.configurationClosed name))

/-- One edit; on an error the table is what the edit had made of it by then. -/
def applyEdit (o : Outcomes) (new : ProcessingGraph) (t : Supervisor) :
    LiveEdit → Supervisor × Option ApplyError
  | .remove id =>
    match t.names id with
    | none => (t.setName id none, none)
    | some name =>
      let result := removeNode (t.setName id none) name
      (result.1, result.2.map .runtime)
  | .add id =>
    let node := new.compiledNode id
    match o.build node node.runtimeName with
    | .error source => (t, some (.materialization id source))
    | .ok ports =>
      match new.inputSubs id t.names ports with
      | .error message => (t, some (.apply message))
      | .ok subs =>
        match addNode (o.manager id) t node.runtimeName (new.wiredNode t.names id ports subs)
            subs with
        | (t', some error) => (t', some (.runtime error))
        | (t', none) => (t'.setName id (some node.runtimeName), none)
  | .configure id _ =>
    match t.names id with
    | none => (t, some (.apply ("n" ++ toString id ++ " not running")))
    | some name =>
      let result := reconfigure (o.manager id) t name (new.reconfigured t.names id)
      (result.1, result.2.map .runtime)
  | .restart id =>
    match t.names id with
    | none => (t, some (.apply ("n" ++ toString id ++ " not running")))
    | some name =>
      match o.build (new.compiledNode id) name with
      | .error source => (t, some (.materialization id source))
      | .ok ports =>
        match new.inputSubs id t.names ports with
        | .error message => (t, some (.apply message))
        | .ok subs =>
          let result := restartNode (o.manager id) t name (new.wiredNode t.names id ports subs) subs
          (result.1, result.2.map .runtime)

def applyEdits (o : Outcomes) (new : ProcessingGraph) :
    Supervisor → List LiveEdit → Supervisor × Option ApplyError
  | t, [] => (t, none)
  | t, edit :: edits =>
    match applyEdit o new t edit with
    | (t', some error) => (t', some error)
    | (t', none) => applyEdits o new t' edits

structure ApplySummary where
  added : Nat
  removed : Nat
  configured : Nat
  restarted : Nat
deriving DecidableEq

def summarize (edits : List LiveEdit) : ApplySummary where
  added := edits.countP fun | .add _ => true | _ => false
  removed := edits.countP fun | .remove _ => true | _ => false
  configured := edits.countP fun | .configure _ _ => true | _ => false
  restarted := edits.countP fun | .restart _ => true | _ => false

structure LiveRun where
  table : Supervisor
  compiled : LoweredPlan
  cachePruned : Bool

/-- Diffs the edited plan against the one the run holds and applies the edits; the run holds
the new plan only once all of them went through. -/
def applyCompiled (o : Outcomes) (new : LoweredPlan) (run : LiveRun) :
    LiveRun × Except ApplyError ApplySummary :=
  match diff run.compiled.toProcessingGraph new.toProcessingGraph with
  | .error message => (run, .error (.needsFullRestart message))
  | .ok [] => ({ run with compiled := new }, .ok (summarize []))
  | .ok edits =>
    if run.cachePruned then
      (run, .error (.needsFullRestart
        "the running graph reused persistent derived data; stop and rerun to apply edits"))
    else
      match applyEdits o new.toProcessingGraph run.table edits with
      | (table, some error) => ({ run with table := table }, .error error)
      | (table, none) => ({ run with table := table, compiled := new }, .ok (summarize edits))

def cachedInputs (lookup : List UInt8 → Bool) (plan : ProcessingGraph) : List (NodeId × String) :=
  (plan.nodes.filter ProcessingNode.dataCollector).flatMap fun collector =>
    collector.derivedWordCaches.zipIdx.filterMap fun (config, member) =>
      if config.any lookup then some (collector.id, "in" ++ toString member) else none

def feeding (edges : List ProcessingEdge) : Nat → List NodeId → List NodeId → List NodeId
  | 0, _, reachable => reachable
  | _ + 1, [], reachable => reachable
  | fuel + 1, id :: stack, reachable =>
    let next := (edges.filter fun e => e.target.1 = id).foldl
      (fun (state : List NodeId × List NodeId) e =>
        if e.source.1 ∈ state.2 then state else (e.source.1 :: state.1, e.source.1 :: state.2))
      (stack, reachable)
    feeding edges fuel next.1 next.2

/-- What is executed: everything, unless some lane can be read from the repository; then the
cached inputs and all that only fed them are left out. -/
def prepareExecution (lookup : List UInt8 → Bool) (plan : ProcessingGraph) :
    ProcessingGraph × Bool :=
  let cached := cachedInputs lookup plan
  if cached = [] then (plan, false)
  else
    let edges := plan.edges.filter fun e => e.target ∉ cached
    let sinks := (plan.nodes.filter fun node => node.dataCollector || node.sink).map
      ProcessingNode.id
    let reachable := feeding edges plan.nodes.length sinks.reverse sinks
    ({ nodes := plan.nodes.filter fun node => node.id ∈ reachable
       edges := edges.filter fun e => e.source.1 ∈ reachable && e.target.1 ∈ reachable }, true)

/-- Starts a run: every node of the execution plan is added, producers first. -/
def startLive (o : Outcomes) (lookup : List UInt8 → Bool) (compiled : LoweredPlan) :
    Except ApplyError LiveRun :=
  let (execution, cachePruned) := prepareExecution lookup compiled.toProcessingGraph
  match applyEdits o execution Supervisor.empty (execution.topoOrder.map LiveEdit.add) with
  | (_, some error) => .error error
  | (table, none) => .ok ⟨table, compiled, cachePruned⟩

end LogicConduit
