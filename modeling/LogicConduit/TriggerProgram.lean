import LogicConduit.CaptureChunks

namespace LogicConduit

inductive SimpleTriggerCondition
  | ignore
  | low
  | high
  | rising
  | falling
  | either
  deriving DecidableEq

def SimpleTriggerCondition.debug : SimpleTriggerCondition → String
  | .ignore => "Ignore"
  | .low => "Low"
  | .high => "High"
  | .rising => "Rising"
  | .falling => "Falling"
  | .either => "Either"

inductive TriggerSchemaError
  | emptyIdentifier
  | invalidIdentifierCharacters (value : String)
  | emptyCountModes
  | duplicateCountModes
  | invalidCountRange
  | zeroSchemaRevision
  | zeroSchemaLimits
  | emptyLogicOperators
  | duplicateLogicOperators
  | explicitIgnoreCondition
  | duplicateDigitalConditions
  | duplicateRegisteredPredicates
  | unsupportedSimpleProgram
  deriving DecidableEq

def identifierCharacter (c : Char) : Bool := c.isAlphanum || c == '.' || c == '_' || c == '-'

structure TriggerIdentifier where
  text : String
  nonempty : text ≠ ""
  characters : text.toList.all identifierCharacter = true

instance : DecidableEq TriggerIdentifier := fun a b =>
  decidable_of_iff (a.text = b.text) ⟨fun h => by cases a; cases b; congr, congrArg _⟩

def TriggerIdentifier.new (value : String) : Except TriggerSchemaError TriggerIdentifier :=
  if nonempty : value = "" then .error .emptyIdentifier
  else if characters : value.toList.all identifierCharacter = true then .ok ⟨value, nonempty, characters⟩
  else .error (.invalidIdentifierCharacters value)

inductive TriggerLogicOperator
  | and
  | or
  | xor
  | nand
  | nor
  deriving DecidableEq

def TriggerLogicOperator.debug : TriggerLogicOperator → String
  | .and => "And"
  | .or => "Or"
  | .xor => "Xor"
  | .nand => "Nand"
  | .nor => "Nor"

inductive TriggerCountMode
  | occurrences
  | consecutive
  deriving DecidableEq

def TriggerCountMode.debug : TriggerCountMode → String
  | .occurrences => "Occurrences"
  | .consecutive => "Consecutive"

structure TriggerCountCapabilities where
  modes : List TriggerCountMode
  minimum : UInt64
  maximum : UInt64
  step : UInt64
  modes_ne : modes ≠ []
  modes_nodup : modes.Nodup
  range : minimum ≤ maximum ∧ step ≠ 0

def TriggerCountCapabilities.new (modes : List TriggerCountMode) (minimum maximum step : UInt64) :
    Except TriggerSchemaError TriggerCountCapabilities :=
  if modes_ne : modes = [] then .error .emptyCountModes
  else if modes_nodup : modes.Nodup then
    if range : minimum ≤ maximum ∧ step ≠ 0 then .ok ⟨modes, minimum, maximum, step, modes_ne, modes_nodup, range⟩
    else .error .invalidCountRange
  else .error .duplicateCountModes

/-- The values of an operand that a program may give. The labels and the defaults are for the editor. -/
inductive TriggerOperandKind
  | boolean
  | unsigned (minimum maximum step : UInt64)
  | signed (minimum maximum : Int64) (step : UInt64)
  | durationNs (minimum maximum step : UInt64)
  | choice (choices : List TriggerIdentifier)
  | channel
  | bytes (minimumLength maximumLength : Nat)

structure TriggerOperandSchema where
  id : TriggerIdentifier
  kind : TriggerOperandKind

structure RegisteredTriggerPredicateSchema where
  id : TriggerIdentifier
  operands : List TriggerOperandSchema

inductive TriggerOperandValue
  | boolean (value : Bool)
  | unsigned (value : UInt64)
  | signed (value : Int64)
  | durationNs (value : UInt64)
  | choice (value : TriggerIdentifier)
  | channel (value : CaptureChannelId)
  | bytes (value : Bytes)

inductive TriggerPredicate
  | digital (channel : CaptureChannelId) (condition : SimpleTriggerCondition)
  /-- The operands by the text of their identifier. -/
  | registered (predicate : TriggerIdentifier) (operands : Std.ExtTreeMap String TriggerOperandValue)

structure TriggerCount where
  mode : TriggerCountMode
  value : UInt64

structure TriggerStage where
  predicates : List TriggerPredicate
  logic : TriggerLogicOperator
  inverted : Bool
  count : Option TriggerCount

def triggerProgramFormatVersion : UInt16 := 1

structure TriggerProgram where
  formatVersion : UInt16
  schemaId : TriggerIdentifier
  schemaRevision : UInt32
  stages : List TriggerStage

def TriggerProgram.new (schemaId : TriggerIdentifier) (schemaRevision : UInt32) (stages : List TriggerStage) :
    TriggerProgram :=
  ⟨triggerProgramFormatVersion, schemaId, schemaRevision, stages⟩

/-- A schema that its constructors accept. -/
structure TriggerEditorSchema where
  id : TriggerIdentifier
  revision : UInt32
  maximumStages : Nat
  maximumPredicatesPerStage : Nat
  logicOperators : List TriggerLogicOperator
  digitalConditions : List SimpleTriggerCondition
  stageInversion : Bool
  count : Option TriggerCountCapabilities
  predicates : List RegisteredTriggerPredicateSchema
  revision_ne : revision ≠ 0
  limits : maximumStages ≠ 0 ∧ maximumPredicatesPerStage ≠ 0
  operators_ne : logicOperators ≠ []
  operators_nodup : logicOperators.Nodup
  not_ignore : .ignore ∉ digitalConditions
  conditions_nodup : digitalConditions.Nodup
  predicates_nodup : (predicates.map fun predicate => predicate.id).Nodup

inductive TriggerValidationCode
  | schemaUnavailable
  | formatVersion
  | schemaIdentity
  | schemaRevision
  | stageLimit
  | predicateLimit
  | unsupportedLogic
  | unsupportedInversion
  | unsupportedCount
  | unsupportedCountMode
  | countRange
  | unknownChannel
  | duplicateChannel
  | unsupportedDigitalCondition
  | unknownPredicate
  | missingOperand
  | unexpectedOperand
  | operandType
  | operandRange
  | operandStep
  | unknownChoice
  | byteLength
  deriving DecidableEq

structure TriggerValidationDiagnostic where
  path : String
  code : TriggerValidationCode
  message : String
  deriving DecidableEq

structure TriggerValidationErrors where
  diagnostics : List TriggerValidationDiagnostic
  deriving DecidableEq

inductive TriggerProgramForm
  | freeRun
  | commonDigital (conditions : Std.ExtTreeMap CaptureChannelId SimpleTriggerCondition)
  | advanced

inductive TriggerProgramEditError
  | validation (errors : TriggerValidationErrors)
  | advancedProgram
  | unknownChannel (channel : CaptureChannelId)
  | schema (error : TriggerSchemaError)

namespace TriggerEditorSchema

section Builder

def new (id : TriggerIdentifier) (revision : UInt32) (maximumStages maximumPredicatesPerStage : Nat)
    (logicOperators : List TriggerLogicOperator) : Except TriggerSchemaError TriggerEditorSchema :=
  if revision_ne : revision = 0 then .error .zeroSchemaRevision
  else if limits : maximumStages ≠ 0 ∧ maximumPredicatesPerStage ≠ 0 then
    if operators_ne : logicOperators = [] then .error .emptyLogicOperators
    else if operators_nodup : logicOperators.Nodup then
      .ok ⟨id, revision, maximumStages, maximumPredicatesPerStage, logicOperators, [], false, none, [], revision_ne,
        limits, operators_ne, operators_nodup, List.not_mem_nil, List.nodup_nil, List.nodup_nil⟩
    else .error .duplicateLogicOperators
  else .error .zeroSchemaLimits

variable (schema : TriggerEditorSchema)

def withDigitalConditions (conditions : List SimpleTriggerCondition) :
    Except TriggerSchemaError TriggerEditorSchema :=
  if not_ignore : .ignore ∈ conditions then .error .explicitIgnoreCondition
  else if conditions_nodup : conditions.Nodup then
    .ok { schema with digitalConditions := conditions, not_ignore, conditions_nodup }
  else .error .duplicateDigitalConditions

def withStageInversion (enabled : Bool) : TriggerEditorSchema := { schema with stageInversion := enabled }

def withCount (count : TriggerCountCapabilities) : TriggerEditorSchema := { schema with count := some count }

def withRegisteredPredicates (predicates : List RegisteredTriggerPredicateSchema) :
    Except TriggerSchemaError TriggerEditorSchema :=
  if predicates_nodup : (predicates.map fun predicate => predicate.id).Nodup then
    .ok { schema with predicates, predicates_nodup }
  else .error .duplicateRegisteredPredicates

end Builder

end TriggerEditorSchema

def validateUnsignedValue (minimum maximum step value : UInt64) (path : String) : List TriggerValidationDiagnostic :=
  if value < minimum ∨ maximum < value then
    [⟨path, .operandRange, s!"trigger operand must be {minimum}..={maximum}"⟩]
  else if step.toNat ∣ value.toNat - minimum.toNat then []
  else [⟨path, .operandStep, s!"trigger operand must use step {step} from {minimum}"⟩]

def validateSignedValue (minimum maximum : Int64) (step : UInt64) (value : Int64) (path : String) :
    List TriggerValidationDiagnostic :=
  if value < minimum ∨ maximum < value then
    [⟨path, .operandRange, s!"trigger operand must be {minimum}..={maximum}"⟩]
  else if (step.toNat : Int) ∣ value.toInt - minimum.toInt then []
  else [⟨path, .operandStep, s!"trigger operand must use step {step} from {minimum}"⟩]

def validateOperand (kind : TriggerOperandKind) (value : TriggerOperandValue) (path : String)
    (channels : List CaptureChannelId) : List TriggerValidationDiagnostic :=
  match kind, value with
  | .boolean, .boolean _ => []
  | .unsigned minimum maximum step, .unsigned value | .durationNs minimum maximum step, .durationNs value =>
    validateUnsignedValue minimum maximum step value path
  | .signed minimum maximum step, .signed value => validateSignedValue minimum maximum step value path
  | .choice choices, .choice value =>
    if value ∈ choices then [] else [⟨path, .unknownChoice, s!"trigger choice '{value.text}' is not registered"⟩]
  | .channel, .channel channel =>
    if channel ∈ channels then [] else [⟨path, .unknownChannel, s!"capture channel '{channel}' is not enabled"⟩]
  | .bytes minimumLength maximumLength, .bytes value =>
    if value.length < minimumLength ∨ maximumLength < value.length then
      [⟨path, .byteLength, s!"trigger byte value requires {minimumLength}..={maximumLength} bytes"⟩]
    else []
  | _, _ => [⟨path, .operandType, "trigger operand value has the wrong type"⟩]

namespace TriggerEditorSchema

variable (schema : TriggerEditorSchema) (channels : List CaptureChannelId)

def validateCount (count : Option TriggerCount) (stagePath : String) : List TriggerValidationDiagnostic :=
  match count, schema.count with
  | none, _ => []
  | some _, none => [⟨s!"{stagePath}.count", .unsupportedCount, "trigger stage counting is unsupported"⟩]
  | some count, some capabilities =>
    (if count.mode ∈ capabilities.modes then []
      else [⟨s!"{stagePath}.count.mode", .unsupportedCountMode,
        s!"trigger count mode {count.mode.debug} is unsupported"⟩]) ++
    if count.value < capabilities.minimum ∨ capabilities.maximum < count.value ∨
        ¬capabilities.step.toNat ∣ count.value.toNat - capabilities.minimum.toNat then
      [⟨s!"{stagePath}.count.value", .countRange,
        s!"trigger count must be {capabilities.minimum}..={capabilities.maximum} in steps of {capabilities.step}"⟩]
    else []

def validatePredicate (predicate : TriggerPredicate) (path : String) : List TriggerValidationDiagnostic :=
  match predicate with
  | .digital channel condition =>
    (if channel ∈ channels then []
      else [⟨s!"{path}.channel", .unknownChannel, s!"capture channel '{channel}' is not enabled"⟩]) ++
    if condition = .ignore ∨ condition ∉ schema.digitalConditions then
      [⟨s!"{path}.condition", .unsupportedDigitalCondition,
        s!"digital trigger condition {condition.debug} is unsupported"⟩]
    else []
  | .registered predicate operands =>
    match schema.predicates.find? fun registered => registered.id = predicate with
    | none =>
      [⟨s!"{path}.predicate", .unknownPredicate, s!"registered trigger predicate '{predicate.text}' is unknown"⟩]
    | some registered =>
      (registered.operands.flatMap fun operand =>
        match operands[operand.id.text]? with
        | some value => validateOperand operand.kind value s!"{path}.operands.{operand.id.text}" channels
        | none => [⟨s!"{path}.operands.{operand.id.text}", .missingOperand,
            s!"trigger operand '{operand.id.text}' is required"⟩]) ++
      operands.keys.flatMap fun operand =>
        if registered.operands.any fun known => known.id.text = operand then []
        else [⟨s!"{path}.operands.{operand}", .unexpectedOperand, s!"trigger operand '{operand}' is not registered"⟩]

def validatePredicates (stagePath : String) :
    Nat → List CaptureChannelId → List TriggerPredicate → List TriggerValidationDiagnostic
  | _, _, [] => []
  | index, seen, predicate :: rest =>
    let path := s!"{stagePath}.predicates[{index}]"
    let (duplicate, seen) := match predicate with
      | .digital channel _ =>
        if channel ∈ seen then
          ([⟨s!"{path}.channel", .duplicateChannel,
            s!"capture channel '{channel}' appears more than once in this trigger stage"⟩], seen)
        else ([], channel :: seen)
      | .registered _ _ => ([], seen)
    duplicate ++ schema.validatePredicate channels predicate path ++ validatePredicates stagePath (index + 1) seen rest

def validateStage (stage : TriggerStage) (stagePath : String) : List TriggerValidationDiagnostic :=
  (if stage.predicates = [] ∨ schema.maximumPredicatesPerStage < stage.predicates.length then
    [⟨s!"{stagePath}.predicates", .predicateLimit,
      s!"trigger stage requires 1..={schema.maximumPredicatesPerStage} predicates"⟩] else []) ++
  (if stage.logic ∈ schema.logicOperators then []
    else [⟨s!"{stagePath}.logic", .unsupportedLogic, s!"trigger stage logic {stage.logic.debug} is unsupported"⟩]) ++
  (if stage.inverted && !schema.stageInversion then
    [⟨s!"{stagePath}.inverted", .unsupportedInversion, "trigger stage inversion is unsupported"⟩] else []) ++
  schema.validateCount stage.count stagePath ++ schema.validatePredicates channels stagePath 0 [] stage.predicates

def programDiagnostics (program : TriggerProgram) : List TriggerValidationDiagnostic :=
  (if program.formatVersion = triggerProgramFormatVersion then []
    else [⟨"program.format_version", .formatVersion,
      s!"trigger program format {program.formatVersion} is unsupported"⟩]) ++
  (if program.schemaId = schema.id then []
    else [⟨"program.schema_id", .schemaIdentity,
      s!"trigger program targets schema '{program.schemaId.text}', expected '{schema.id.text}'"⟩]) ++
  (if program.schemaRevision = schema.revision then []
    else [⟨"program.schema_revision", .schemaRevision,
      s!"trigger program targets schema revision {program.schemaRevision}, expected {schema.revision}"⟩]) ++
  (if program.stages = [] ∨ schema.maximumStages < program.stages.length then
    [⟨"program.stages", .stageLimit, s!"trigger program requires 1..={schema.maximumStages} stages"⟩] else []) ++
  program.stages.zipIdx.flatMap fun (stage, index) => schema.validateStage channels stage s!"program.stages[{index}]"

/-- The program itself is the `ValidatedTriggerProgram`. -/
def validateProgram (program : TriggerProgram) : Except TriggerValidationErrors TriggerProgram :=
  if schema.programDiagnostics channels program = [] then .ok program
  else .error ⟨schema.programDiagnostics channels program⟩

/-- The single-stage digital program of some conditions, or none for free run. -/
def simpleProgram (conditions : List (CaptureChannelId × SimpleTriggerCondition)) :
    Except TriggerSchemaError (Option TriggerProgram) :=
  if .and ∈ schema.logicOperators then
    let predicates := (conditions.filter fun (_, condition) => condition ≠ .ignore).map fun (channel, condition) =>
      TriggerPredicate.digital channel condition
    .ok (if predicates = [] then none
      else some (.new schema.id schema.revision [⟨predicates, .and, false, none⟩]))
  else .error .unsupportedSimpleProgram

/-- The conditions of digital predicates, if every predicate is one and none repeats a channel. -/
def collectConditions : List TriggerPredicate → Std.ExtTreeMap CaptureChannelId SimpleTriggerCondition →
    Option (Std.ExtTreeMap CaptureChannelId SimpleTriggerCondition)
  | [], conditions => some conditions
  | .digital channel condition :: rest, conditions =>
    if channel ∈ conditions then none else collectConditions rest (conditions.insert channel condition)
  | .registered _ _ :: _, _ => none

def stageForm (stage : TriggerStage) : TriggerProgramForm :=
  if stage.logic ≠ .and ∨ stage.inverted = true ∨ stage.count.isSome = true then .advanced
  else match collectConditions stage.predicates ∅ with
    | some conditions => .commonDigital conditions
    | none => .advanced

def programForm (program : Option TriggerProgram) : Except TriggerValidationErrors TriggerProgramForm :=
  match program with
  | none => .ok .freeRun
  | some program =>
    match schema.validateProgram channels program with
    | .error errors => .error errors
    | .ok _ =>
      match program.stages with
      | [stage] => .ok (stageForm stage)
      | _ => .ok .advanced

def editableConditions (program : Option TriggerProgram) :
    Except TriggerProgramEditError (Std.ExtTreeMap CaptureChannelId SimpleTriggerCondition) :=
  match schema.programForm channels program with
  | .error errors => .error (.validation errors)
  | .ok .freeRun => .ok ∅
  | .ok (.commonDigital conditions) => .ok conditions
  | .ok .advanced => .error .advancedProgram

def conditionsProgram (conditions : Std.ExtTreeMap CaptureChannelId SimpleTriggerCondition) :
    Except TriggerProgramEditError (Option TriggerProgram) :=
  match schema.simpleProgram conditions.toList with
  | .error error => .error (.schema error)
  | .ok program =>
    match program.filter fun program => !program.stages.isEmpty with
    | none => .ok none
    | some program =>
      match schema.validateProgram channels program with
      | .error errors => .error (.validation errors)
      | .ok _ => .ok (some program)

/-- A condition of one lane, of which `Ignore` takes the lane out. -/
def editConditions (conditions : Std.ExtTreeMap CaptureChannelId SimpleTriggerCondition) (channel : CaptureChannelId)
    (condition : SimpleTriggerCondition) : Std.ExtTreeMap CaptureChannelId SimpleTriggerCondition :=
  if condition = .ignore then conditions.erase channel else conditions.insert channel condition

def withSimpleCondition (program : Option TriggerProgram) (channel : CaptureChannelId)
    (condition : SimpleTriggerCondition) : Except TriggerProgramEditError (Option TriggerProgram) :=
  if channel ∈ channels then
    match schema.editableConditions channels program with
    | .error error => .error error
    | .ok conditions => schema.conditionsProgram channels (editConditions conditions channel condition)
  else .error (.unknownChannel channel)

end TriggerEditorSchema

end LogicConduit
