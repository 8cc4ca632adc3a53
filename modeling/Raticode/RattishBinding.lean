import Raticode.PyText
import Raticode.RattishAst
import Raticode.RattishIR
import Raticode.RattishSchemaCompat

/-! Bindings of a node: how the compiler checks and lowers them, and how the
runtime resolves them. A declaration that names a removed reference root is
reported and has no lowered form. -/
namespace Raticode.Rattish
open OrderedDict

inductive Severity where
  | error | warning
  deriving DecidableEq, Repr

structure Diagnostic where
  code : String
  severity : Severity := .error
  message : String
  span : SourceSpan
  details : List (String × String) := []

/-- Regular expressions as the compiler uses them: `re.search(p, s) is not None`,
and the message of `re.error` where a pattern does not compile. -/
structure Regex where
  search : String → String → Bool
  compileError : String → Option String

inductive PortDelivery where
  | stdin | localBinding | environment
  deriving DecidableEq, Repr

structure InputPort where
  schema : Keywords Schema
  delivery : PortDelivery

inductive PortMode where
  | closed
  | open (additionalSchema : Keywords Schema) (additionalDelivery : PortDelivery)
  | referencedWorkflow

structure InputPorts where
  mode : PortMode
  ports : Dict String InputPort

structure Draft where
  nodeId : NodeId
  inputPorts : InputPorts
  workflowInputPorts : Dict String InputPort
  workflowInputs : Dict String (Keywords Schema)
  outputSchema : Keywords Schema
  allowFail : Bool
  guaranteedSources : List NodeId

def jsonSchemaId : String := "https://json-schema.org/draft/2020-12/schema"

def bareSchema : Keywords Schema := { dollarSchema := some jsonSchemaId }

/-- `{"$schema": JSON_SCHEMA_ID, **schema}`. -/
def withSchemaId (k : Keywords Schema) : Keywords Schema :=
  { k with dollarSchema := some (k.dollarSchema.getD jsonSchemaId) }

def memberSchema (k : Keywords Schema) (member : String) : Keywords Schema :=
  match Dict.get (k.properties.getD []) member with
  | some (.obj p) => withSchemaId p
  | _ => bareSchema

def itemSchema (k : Keywords Schema) : Keywords Schema :=
  match k.items with
  | some (.obj p) => withSchemaId p
  | _ => bareSchema

mutual
def inferSchema : Value → Keywords Schema
  | .null => { bareSchema with type := some (.single .null) }
  | .bool _ => { bareSchema with type := some (.single .boolean) }
  | .int _ => { bareSchema with type := some (.single .integer) }
  | .float _ => { bareSchema with type := some (.single .number) }
  | .str _ => { bareSchema with type := some (.single .string) }
  | .arr items => { bareSchema with
      type := some (.single .array)
      items := some (match items with
        | [] => .obj {}
        | first :: _ => .obj (inferSchema first)) }
  | .obj fields => { bareSchema with
      type := some (.single .object)
      properties := some (inferProperties fields)
      required := some (fields.map Prod.fst)
      additionalProperties := some (.bool false) }

def inferProperties : List (String × Value) → List (String × Schema)
  | [] => []
  | (name, value) :: fields => (name, .obj (inferSchema value)) :: inferProperties fields
end

namespace Ast

/-- `selector.get("canonical") or selector.get("source")`. -/
def RefSelector.symbol : RefSelector → String
  | .dot source .identifier _ => String.ofList (PyText.lower source)
  | .dot source .jsonMember _ => String.ofList source
  | .bracket source _ => String.ofList source
  | .index source _ _ => String.ofList source

def RefSelector.source : RefSelector → String
  | .dot source _ _ => String.ofList source
  | .bracket source _ => String.ofList source
  | .index source _ _ => String.ofList source

def RefSelector.span : RefSelector → SourceSpan
  | .dot _ _ span => span
  | .bracket _ span => span
  | .index _ _ span => span

def RefSelector.toSelector : RefSelector → Selector
  | .dot source _ _ => .member (String.ofList source)
  | .bracket source _ => .member (String.ofList source)
  | .index _ value _ => .index value

def Val.span : Val → SourceSpan
  | .identifierValue _ _ span => span
  | .string _ _ _ span => span
  | .json _ _ span => span
  | .boolean _ _ span => span
  | .none _ span => span
  | .null _ span => span
  | .duration _ _ _ _ span => span
  | .integer _ _ span => span
  | .number _ _ span => span
  | .reference r => r.span
  | .expression _ span => span
  | .list _ span => span
  | .map _ span => span

def MapKey.text : MapKey → String
  | .identifier i => String.ofList i.canonical
  | .string _ value _ => String.ofList value

mutual
/-- `_value`: the literal an AST value denotes, `none` where it raises. A double
that overflows has no JSON value. -/
def Val.literal : Val → Option Value
  | .string _ _ value _ => some (.str (String.ofList value))
  | .integer _ z _ => some (.int z)
  | .number _ q _ => q.map .float
  | .boolean _ b _ => some (.bool b)
  | .json _ value _ => value
  | .null _ _ => some .null
  | .none _ _ => some .null
  | .identifierValue _ canonical _ => some (.str (String.ofList canonical))
  | .duration source _ _ _ _ => some (.str (String.ofList source))
  | .list items _ => (literalItems items).map .arr
  | .map entries _ => (literalEntries entries).map .obj
  | .reference _ => none
  | .expression _ _ => none

def literalItems : List Val → Option (List Value)
  | [] => some []
  | v :: vs => do return (← v.literal) :: (← literalItems vs)

-- A later entry of the same key replaces the value, not the position.
def literalEntries : List (MapKey × Val × SourceSpan) → Option (Dict String Value)
  | [] => some []
  | (key, v, _) :: es => do
    let value ← v.literal
    let rest ← literalEntries es
    return Dict.merge [(key.text, value)] rest
end

end Ast

section Lowering
variable (consumer : Draft) (drafts : Dict NodeId Draft)

def lowerPath (schema : Keywords Schema) : List Ast.RefSelector → List Selector × Keywords Schema
  | [] => ([], schema)
  | selector :: rest =>
    let next := match selector.toSelector with
      | .member name => memberSchema schema name
      | .index _ => itemSchema schema
    let lowered := lowerPath next rest
    (selector.toSelector :: lowered.1, lowered.2)

def statusSchema : Keywords Schema :=
  { bareSchema with enum := some [.str "success", .str "failure", .str "cancelled"] }

def errorSchema : Keywords Schema :=
  { bareSchema with
    type := some (.single .object)
    properties := some [("kind", .obj { type := some (.single .string) }),
      ("code", .obj { type := some (.single .string) }),
      ("message", .obj { type := some (.single .string) }), ("details", .obj {})]
    required := some ["kind", "code", "message"]
    additionalProperties := some (.bool false) }

def eventsSchema : Keywords Schema :=
  { bareSchema with
    type := some (.single .array)
    items := some (.obj { type := some (.single .object) }) }

def channelOf : Option String → Option Channel
  | some "output" => some .output
  | some "status" => some .status
  | some "error" => some .error
  | _ => none

/-- `_lower_reference` for the roots the IR has: the reference and its schema,
`none` where a selector has no canonical spelling to read. -/
def lowerReference (reference : Ast.Reference) : Option (Reference × Keywords Schema) :=
  match String.ofList reference.root.canonical, reference.selectors with
  | "node", first :: second :: rest => do
    let symbol ← first.canonical?
    let channel ← second.canonical?
    match channelOf channel, symbol.bind (Dict.get drafts ·) with
    | some .output, some producer =>
      let (path, schema) := lowerPath producer.outputSchema rest
      let optional := !consumer.guaranteedSources.contains (symbol.getD "") || producer.allowFail
      return (⟨.node, symbol, some .output, path, optional⟩, schema)
    | some .status, _ =>
      let optional := !symbol.any (consumer.guaranteedSources.contains ·)
      return (⟨.node, symbol, some .status, [], optional⟩, statusSchema)
    | some .error, _ =>
      let (path, schema) := lowerPath errorSchema rest
      return (⟨.node, symbol, some .error, path, true⟩, schema)
    | channel, _ => return (⟨.node, symbol, channel, [], false⟩, bareSchema)
  | "input", first :: rest =>
    let (path, schema) :=
      lowerPath ((Dict.get consumer.workflowInputs first.symbol).getD bareSchema) rest
    some (⟨.input, some first.symbol, none, path, false⟩, schema)
  | "trigger", first :: rest =>
    let (path, schema) := lowerPath (if first.symbol = "events" then eventsSchema else bareSchema) rest
    some (⟨.trigger, some first.symbol, none, path, false⟩, schema)
  | "secret", first :: _ =>
    some (⟨.secret, some first.source, none, [], false⟩,
      { bareSchema with type := some (.single .string) })
  | "node", _ => some (⟨.node, none, none, [], false⟩, bareSchema)
  | "input", _ => some (⟨.input, none, none, [], false⟩, bareSchema)
  | "trigger", _ => some (⟨.trigger, none, none, [], false⟩, bareSchema)
  | "secret", _ => some (⟨.secret, none, none, [], false⟩, bareSchema)
  | _, _ => none

def allowsObject (k : Keywords Schema) : Bool :=
  match k.type with
  | none => true
  | some (.single name) => name = .object
  | some (.union first rest) => (first :: rest).contains .object

/-- The walk of `_validate_reference` along an output schema. -/
def validatePath (producer : NodeId) (schema : Keywords Schema) :
    List Ast.RefSelector → List Diagnostic
  | [] => []
  | selector :: rest =>
    let report (message : String) : List Diagnostic :=
      [{ code := "RATTISH_INVALID_JSON_SELECTOR", message := message, span := selector.span,
         details := [("consumer", consumer.nodeId), ("node", producer)] }]
    match selector.toSelector with
    | .member member =>
      match Dict.get (schema.properties.getD []) member with
      | some (.obj child) => validatePath producer child rest
      | some (.bool _) => validatePath producer {} rest
      | none =>
        if !allowsObject schema then
          report ("Output selector reads member " ++ quoted member ++
            " from non-object output of node " ++ quoted producer ++ ".")
        else match schema.additionalProperties with
          | some (.bool false) =>
            report ("Output of node " ++ quoted producer ++ " has no member " ++ quoted member ++ ".")
          | some (.obj additional) => validatePath producer additional rest
          | _ => validatePath producer {} rest
    | .index _ =>
      match schema.type, schema.items with
      | some (.single .array), some (.obj items) => validatePath producer items rest
      | _, _ =>
        report ("Output selector indexes a non-array value from node " ++ quoted producer ++ ".")

/-- `_validate_reference`: the diagnostics it adds, `none` where it raises
`KeyError` for a selector without a canonical spelling. -/
def validateReference (reference : Ast.Reference) : Option (List Diagnostic) :=
  let root := String.ofList reference.root.canonical
  let selectors := reference.selectors
  let report (code message : String) (span : SourceSpan) (details : List (String × String)) :
      Option (List Diagnostic) :=
    some [{ code := code, message := message, span := span,
            details := ("consumer", consumer.nodeId) :: details }]
  if root = "workflow" || root = "loop" then
    report "RATTISH_REFERENCE_ROOT_REMOVED" ("Reference root " ++ quoted root ++
      " is not part of Rattish 1; use " ++
      (if root = "workflow" then "input" else "node.<loop-id>.output") ++ ".")
      reference.span [("root", root)]
  else if root ≠ "node" then
    match selectors with
    | [] => report "RATTISH_UNRESOLVED_REFERENCE" ("Reference root " ++ quoted root ++
        " requires a symbol or channel.") reference.span [("root", root)]
    | first :: rest =>
      match root with
      | "input" =>
        if (Dict.get consumer.workflowInputs first.symbol).isSome then some []
        else report "RATTISH_UNRESOLVED_REFERENCE" ("Reference names unknown workflow input " ++
          quoted first.symbol ++ ".") first.span [("input", first.symbol)]
      | "trigger" =>
        if first.symbol = "events" then some []
        else report "RATTISH_UNRESOLVED_REFERENCE"
          "Rattish 1 exposes trigger data through trigger.events." first.span
          [("trigger_field", first.symbol)]
      | "secret" =>
        match first with
        | .bracket source _ =>
          if source = [] then report "RATTISH_WRONG_REFERENCE_KIND"
            "Secret references require a nonempty environment name." reference.span []
          else if rest ≠ [] then report "RATTISH_WRONG_REFERENCE_KIND"
            "Secret references cannot contain value selectors." reference.span []
          else some []
        | _ => report "RATTISH_WRONG_REFERENCE_KIND"
            "Secret references require exact bracket notation, such as secret[\"API_KEY\"]."
            reference.span []
      | _ => some []
  else
    match selectors with
    | first :: second :: rest =>
      match first.canonical? with
      | none => none
      | some symbol =>
        match symbol.bind (Dict.get drafts ·) with
        | none => report "RATTISH_UNRESOLVED_REFERENCE" ("Reference names unknown node " ++
            quoted (symbol.getD "None") ++ ".") first.span [("node", symbol.getD "None")]
        | some producer =>
          match second.canonical? with
          | none => none
          | some channel =>
            match channelOf channel with
            | none => report "RATTISH_WRONG_REFERENCE_KIND" ("Node reference channel " ++
                quoted (channel.getD "None") ++ " is not output, status, or error.") second.span
                [("node", symbol.getD "None")]
            | some .output =>
              some (validatePath consumer (symbol.getD "None") producer.outputSchema rest)
            | some _ => some []
    | _ => report "RATTISH_WRONG_REFERENCE_KIND"
        "Node references require a node ID and output, status, or error channel." reference.span []

def lowerLogical : Ast.LogicalOperator → LogicalOperator
  | .and => .and
  | .or => .or

def lowerComparison : Ast.Comparison → Comparison
  | .eq => .eq
  | .ne => .ne
  | .lt => .lt
  | .le => .le
  | .gt => .gt
  | .ge => .ge
  | .contains => .contains
  | .matches => .matches

/-- The literal of an operand, `none` for a double that overflows. -/
def operandLiteral : Ast.Comparable → Option Value
  | .reference _ => none
  | .string _ value _ => some (.str (String.ofList value))
  | .boolean _ b _ => some (.bool b)
  | .null _ _ => some .null
  | .integer _ z _ => some (.int z)
  | .number _ q _ => q.map .float

/-- `_lower_operand`, with the schema of the operand. -/
def lowerOperand : Ast.Comparable → Option (Operand × Keywords Schema)
  | .reference reference =>
    (lowerReference consumer drafts reference).map (fun p => (.reference p.1, p.2))
  | operand => (operandLiteral operand).map (fun v => (.literal v, inferSchema v))

def lowerPredicate : Ast.Predicate → Option Predicate
  | .group operand _ => lowerPredicate operand
  | .logical operator _ left right _ => do
    return .logical (lowerLogical operator) (← lowerPredicate left) (← lowerPredicate right)
  | .not _ operand _ => do return .not (← lowerPredicate operand)
  | .status _ succeeded _ => some (.status succeeded)
  | .comparison operator _ left right _ => do
    return .comparison (lowerComparison operator) (← lowerOperand consumer drafts left).1
      (← lowerOperand consumer drafts right).1
  | .exists _ reference _ => do return .exists (← lowerReference consumer drafts reference).1
  | .nullTest reference isNull _ _ => do
    return .nullTest isNull (← lowerReference consumer drafts reference).1
  | .reference reference _ => do return .reference (← lowerReference consumer drafts reference).1

def jsonType : Value → TypeName
  | .null => .null
  | .bool _ => .boolean
  | .int _ => .integer
  | .float _ => .number
  | .str _ => .string
  | .arr _ => .array
  | .obj _ => .object

def schemaTypes (k : Keywords Schema) : List TypeName :=
  match k.type, k.enum with
  | some (.single name), _ => [name]
  | some (.union first rest), _ => first :: rest
  | none, some values => values.map jsonType
  | none, none => []

def meets (a b : List TypeName) : Bool := a.any (b.contains ·)

def within (a b : List TypeName) : Bool := a.all (b.contains ·)

def comparisonProblem (operator : Ast.Comparison) (left right : List TypeName) : Option String :=
  let numeric : List TypeName := [.integer, .number]
  let spelled := match operator with
    | .eq => "=="
    | .ne => "!="
    | .lt => "<"
    | .le => "<="
    | .gt => ">"
    | .ge => ">="
    | .contains => "contains"
    | .matches => "matches"
  match operator with
  | .eq | .ne =>
    if meets left right || (meets left numeric && meets right numeric) then none
    else some ("Predicate operator " ++ spelled ++ " compares incompatible schemas.")
  | .lt | .le | .gt | .ge =>
    if (within left numeric && within right numeric) ||
        (left ≠ [] && right ≠ [] && within left [.string] && within right [.string]) then none
    else some ("Predicate operator " ++ spelled ++ " requires two Numbers or two Strings.")
  | .contains =>
    if meets left [.string, .array, .object] then none
    else some "Predicate operator contains requires a String, List, or Object on the left."
  | .matches =>
    if left ≠ [] && right ≠ [] && within left [.string] && within right [.string] then none
    else some "Predicate operator matches requires String operands."

/-- `_validate_lowered_predicate`, on the predicate before lowering: groups are
transparent and the schema of an operand is the one lowering gives. -/
def validatePredicate (regex : Regex) (span : SourceSpan) : Ast.Predicate → List Diagnostic
  | .group operand _ => validatePredicate regex span operand
  | .logical _ _ left right _ =>
    validatePredicate regex span left ++ validatePredicate regex span right
  | .not _ operand _ => validatePredicate regex span operand
  | .reference reference _ =>
    match lowerReference consumer drafts reference with
    | some (_, schema) =>
      if (schemaTypes schema).contains .boolean then []
      else [{ code := "RATTISH_PREDICATE_TYPE_MISMATCH", span := span,
              message := "A standalone route reference must have Boolean schema." }]
    | none => []
  | .comparison operator _ left right _ =>
    match lowerOperand consumer drafts left, lowerOperand consumer drafts right with
    | some (_, leftSchema), some (lowered, rightSchema) =>
      (match comparisonProblem operator (schemaTypes leftSchema) (schemaTypes rightSchema) with
        | some message => [{ code := "RATTISH_PREDICATE_TYPE_MISMATCH", message := message,
                             span := span }]
        | none => []) ++
      (match operator, lowered with
        | .matches, .literal (.str pattern) =>
          match regex.compileError pattern with
          | some message => [{ code := "RATTISH_INVALID_REGEX", span := span,
                               message := "Route regular expression is invalid: " ++ message }]
          | none => []
        | _, _ => [])
    | _, _ => []
  | _ => []

def validateExpressionReferences : Ast.Predicate → Option (List Diagnostic)
  | .logical _ _ left right _ => do
    return (← validateExpressionReferences left) ++ (← validateExpressionReferences right)
  | .not _ operand _ => validateExpressionReferences operand
  | .group operand _ => validateExpressionReferences operand
  | .exists _ reference _ => validateReference consumer drafts reference
  | .nullTest reference _ _ _ => validateReference consumer drafts reference
  | .reference reference _ => validateReference consumer drafts reference
  | .comparison _ _ left right _ => do
    let check : Ast.Comparable → Option (List Diagnostic)
      | .reference reference => validateReference consumer drafts reference
      | _ => some []
    return (← check left) ++ (← check right)
  | .status _ _ _ => some []

end Lowering

inductive BindingSource where
  | literal (value : Value)
  | expression (expression : Predicate)
  | reference (reference : Reference)

inductive Delivery where
  | workflowInput (name : String)
  | stdin
  | localBinding (name : String)
  | environment (name : String)
  deriving DecidableEq, Repr

structure Binding where
  name : String
  source : BindingSource
  sourceSchema : Keywords Schema
  destinationSchema : Keywords Schema
  default : Option Value
  delivery : Delivery

namespace Ast

def Binding.name : Binding → Identifier
  | .compact name _ _ => name
  | .expanded name _ _ => name

def Binding.span : Binding → SourceSpan
  | .compact _ _ span => span
  | .expanded _ _ span => span

def BindingEntry.reference? : BindingEntry → Option Reference
  | .source _ reference _ => some reference
  | .default _ _ _ => none

def BindingEntry.default? : BindingEntry → Option Val
  | .source _ _ _ => none
  | .default _ value _ => some value

/-- The source of a binding; an expanded one must have exactly one `from`. -/
def Binding.sourceAst : Binding → Val × List Diagnostic
  | .compact _ value _ => (value, [])
  | .expanded name entries span =>
    let missing : Diagnostic :=
      { code := "RATTISH_MISSING_FIELD"
        message := "Binding " ++ quoted (String.ofList name.canonical) ++
          " requires exactly one from field."
        span := span }
    match entries.filterMap BindingEntry.reference? with
    | [reference] => (.reference reference, [])
    | _ => (.null [] span, [missing])

def Binding.defaultAst : Binding → Option Val
  | .compact _ _ _ => none
  | .expanded _ entries _ => (entries.filterMap BindingEntry.default?).head?

end Ast

/-- `_LOOKS_LIKE_REFERENCE`: a root and dotted segments without whitespace. -/
def looksLikeReference (text : Text) : Bool :=
  let roots := ["node", "input", "loop", "trigger", "secret", "workflow"]
  roots.any (fun root =>
    (text.take root.length).map PyText.foldChar = root.toList &&
      (match text.drop root.length with
        | '.' :: rest => (rest.splitOn '.').all (fun segment =>
            segment ≠ [] && segment.all (fun c => !PyText.isSpace c))
        | _ => false))

def destination (consumer : Draft) (name : String) (sourceSchema : Keywords Schema) :
    Keywords Schema × Delivery :=
  match consumer.inputPorts.mode with
  | .referencedWorkflow =>
    match Dict.get consumer.workflowInputPorts name with
    | some port => (port.schema, .workflowInput name)
    | none => (sourceSchema, .localBinding name)
  | mode =>
    match Dict.get consumer.inputPorts.ports name, mode with
    | some port, _ => (port.schema, if port.delivery = .stdin then .stdin else .localBinding name)
    | none, .open schema delivery =>
      (schema, if delivery = .environment
        then .environment (String.ofList ((name.toList.map (fun c => if c = '-' then '_' else c)).map
          Char.toUpper))
        else .localBinding name)
    | none, _ => (sourceSchema, .localBinding name)

section LowerBinding
variable (regex : Regex) (consumer : Draft) (drafts : Dict NodeId Draft)

def lowerSource (name : String) (span : SourceSpan) (hasDefault : Bool) :
    Ast.Val → Option (Option (BindingSource × Keywords Schema) × List Diagnostic)
  | .reference reference => do
    let problems ← validateReference consumer drafts reference
    match lowerReference consumer drafts reference with
    | none => return (none, problems)
    | some (lowered, schema) =>
      let missing : List Diagnostic := if lowered.optional && !hasDefault then
        [{ code := "RATTISH_BINDING_DEFAULT_REQUIRED", span := span,
           message := "Binding " ++ quoted name ++ " may be absent and requires a default." }] else []
      return (some (.reference lowered, schema), problems ++ missing)
  | .expression expression exprSpan => do
    let problems ← validateExpressionReferences consumer drafts expression
    let types := validatePredicate consumer drafts regex exprSpan expression
    match lowerPredicate consumer drafts expression with
    | none => return (none, problems ++ types)
    | some lowered =>
      return (some (.expression lowered, { bareSchema with type := some (.single .boolean) }),
        problems ++ types)
  | value => do
    let literal ← value.literal
    let warning (text : String) : Diagnostic :=
      { code := "RATTISH_BINDING_LITERAL_LOOKS_LIKE_REFERENCE"
        severity := .warning
        message := "Binding " ++ quoted name ++ " is the literal text " ++ quoted text ++
          ", not a reference. Part of it is not a valid selector."
        span := value.span
        details := [("node", consumer.nodeId), ("binding", name)] }
    let warnings := match value with
      | .string .bare _ text _ =>
        if looksLikeReference text then [warning (String.ofList text)] else []
      | _ => []
    return (some (.literal literal, inferSchema literal), warnings)

/-- `_lower_binding`: the binding of the IR and the diagnostics, `none` where the
compiler raises another exception. -/
def lowerBinding (binding : Ast.Binding) : Option (Option Binding × List Diagnostic) := do
  let name := String.ofList binding.name.canonical
  let (sourceAst, missing) := binding.sourceAst
  let defaultAst := binding.defaultAst
  let (lowered, problems) ← lowerSource regex consumer drafts name binding.span defaultAst.isSome
    sourceAst
  match lowered with
  | none => return (none, missing ++ problems)
  | some (source, sourceSchema) =>
    let (destinationSchema, delivery) := destination consumer name sourceSchema
    let accepted ← schemaAcceptsSchema regex.search destinationSchema sourceSchema
    let mismatch : List Diagnostic := if accepted then [] else
      [{ code := "RATTISH_BINDING_TYPE_MISMATCH", span := sourceAst.span,
         message := "Binding " ++ quoted name ++ " is not assignable to node " ++
           quoted consumer.nodeId ++ " input.",
         details := [("node", consumer.nodeId), ("input", name)] }]
    match defaultAst with
    | none =>
      return (some ⟨name, source, sourceSchema, destinationSchema, none, delivery⟩,
        missing ++ problems ++ mismatch)
    | some ast =>
      let value ← ast.literal
      let unfit : List Diagnostic :=
        if Schema.valid regex.search (.obj destinationSchema) value then [] else
        [{ code := "RATTISH_BINDING_TYPE_MISMATCH", span := ast.span,
           message := "Default for binding " ++ quoted name ++
             " does not match its destination schema.",
           details := [("node", consumer.nodeId), ("input", name)] }]
      return (some ⟨name, source, sourceSchema, destinationSchema, some value, delivery⟩,
        missing ++ problems ++ mismatch ++ unfit)

def Compiles (binding : Ast.Binding) (lowered : Binding) : Prop :=
  ∃ diagnostics, lowerBinding regex consumer drafts binding = some (some lowered, diagnostics) ∧
    ∀ d ∈ diagnostics, d.severity ≠ .error

end LowerBinding

structure InputDeclaration where
  name : String
  required : Bool
  schema : Keywords Schema
  default : Option Value

section Runtime

/-- `_prepare_workflow_inputs`: the declared inputs are filled in one by one, and
each value present is checked against its schema. -/
def prepareInputs (search : String → String → Bool) :
    List InputDeclaration → Dict String Value → Option (Dict String Value)
  | [], prepared => some prepared
  | d :: ds, prepared =>
    match Dict.get prepared d.name, d.default with
    | some v, _ =>
      if Schema.valid search (.obj d.schema) v then prepareInputs search ds prepared else none
    | none, some v =>
      if Schema.valid search (.obj d.schema) v then prepareInputs search ds (prepared.set d.name v)
      else none
    | none, none => if d.required then none else prepareInputs search ds prepared

def prepareWorkflowInputs (search : String → String → Bool) (declarations : List InputDeclaration)
    (supplied : Dict String Value) : Option (Dict String Value) :=
  if supplied.keys.all (fun name => declarations.any (·.name = name))
  then prepareInputs search declarations supplied
  else none

/-- `_binding_value`, `none` where it raises one of the lookup errors that
`_resolve_bindings` reports as a source it could not resolve. -/
def bindingValue (env : Env) (scope : Scope) (binding : Binding) : Option Value :=
  match binding.source with
  | .literal value => some value
  | .expression expression => some (.bool (evaluatePredicate env scope .success expression))
  | .reference reference =>
    match referenceValue env scope reference with
    | some value => some value
    | none =>
      match binding.default with
      | some value => some value
      | none => if reference.optional then some .null else none

end Runtime

end Raticode.Rattish
