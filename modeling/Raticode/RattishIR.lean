import Raticode.RattishSchema

/-! The part of the compiled IR the scheduler reads: nodes with their needs,
routes and execution settings, the references and predicates of the routes, and
the public outputs. -/
namespace Raticode.Rattish
open OrderedDict

abbrev NodeId := String

inductive Outcome where
  | success
  | allowedFailure
  | failure
  deriving DecidableEq, Repr

structure NodeExecutionResult where
  nodeId : NodeId
  outcome : Outcome
  output : Value
  error : Option RuntimeErrorInfo

inductive Channel where
  | output | status | error | item
  deriving DecidableEq, Repr

inductive ReferenceRoot where
  | input | node | secret | trigger
  deriving DecidableEq, Repr

structure Reference where
  root : ReferenceRoot
  symbol : Option String
  channel : Option Channel
  path : List Selector
  optional : Bool

inductive Operand where
  | reference (reference : Reference)
  | literal (value : Value)

inductive LogicalOperator where
  | and | or
  deriving DecidableEq, Repr

inductive Comparison where
  | eq | ne | lt | le | gt | ge | contains | matches
  deriving DecidableEq, Repr

inductive Predicate where
  | logical (operator : LogicalOperator) (left right : Predicate)
  | not (operand : Predicate)
  | status (succeeded : Bool)
  | exists (reference : Reference)
  | nullTest (isNull : Bool) (reference : Reference)
  | reference (reference : Reference)
  | comparison (operator : Comparison) (left right : Operand)

inductive RouteMode where
  | unconditional
  | conditional (predicate : Predicate)
  | otherwise

structure Route where
  target : NodeId
  mode : RouteMode
  eligibleOutcomes : List Outcome

inductive NodeType where
  | loop
  | break
  | other (name : String)
  deriving DecidableEq, Repr

inductive Finish where
  | pass
  | fail
  deriving DecidableEq, Repr

structure Node where
  id : NodeId
  type : NodeType
  needs : List NodeId
  initialActivation : Bool
  maxConcurrency : ℕ
  maxRuns : Option ℕ := none
  finish : Option Finish := none
  allowFail : Bool := false
  routes : List Route
  /-- `control["loop_node_id"]`. -/
  loopNodeId : Option NodeId := none

structure WorkflowOutput where
  name : String
  source : Reference
  schema : Keywords Schema

structure IR where
  nodes : List Node
  maxRuns : Option ℕ := none
  timeoutMs : Option ℕ := none
  outputs : List WorkflowOutput := []

/-- `self.nodes[node_id]`. The ids the scheduler holds all come from a validated
IR, where the lookup cannot fail. -/
def IR.node (ir : IR) (id : NodeId) : Node :=
  (ir.nodes.find? (·.id = id)).getD
    { id := id, type := .other "", needs := [], initialActivation := false, maxConcurrency := 1,
      routes := [] }

/-- What `_require_validated_ir` and `validate_ir_invariants` guarantee about the
part of the IR above. -/
structure IR.Valid (ir : IR) : Prop where
  nodup_ids : (ir.nodes.map (·.id)).Nodup
  -- the identifier pattern of the IR schema
  colon_free : ∀ n ∈ ir.nodes, ':' ∉ n.id.toList
  needs_known : ∀ n ∈ ir.nodes, ∀ m ∈ n.needs, m ∈ ir.nodes.map (·.id)
  targets_known : ∀ n ∈ ir.nodes, ∀ r ∈ n.routes, r.target ∈ ir.nodes.map (·.id)
  initial_iff : ∀ n ∈ ir.nodes, n.initialActivation = true ↔ n.needs = []
  finish_routes : ∀ n ∈ ir.nodes, n.finish.isSome → n.routes = []
  finish_fail : ∀ n ∈ ir.nodes, n.finish = some .fail → n.allowFail = false
  eligible : ∀ n ∈ ir.nodes, ∀ r ∈ n.routes, .failure ∉ r.eligibleOutcomes
  max_concurrency : ∀ n ∈ ir.nodes, 1 ≤ n.maxConcurrency
  control : ∀ n ∈ ir.nodes, n.type = .break →
    ∃ l ∈ ir.nodes, n.loopNodeId = some l.id ∧ l.type = .loop

/-- The library that a run relies on: `search` is `re.search(p, s) is not None`, `reSearch` the
same on `str` of two values (false on `re.error`), `intOfStr` is `int` of a string. -/
structure Engine where
  search : String → String → Bool
  reSearch : Value → Value → Bool
  intOfStr : String → Option ℤ

/-- What a run reads from outside the IR. -/
structure Env extends Engine where
  workflowInputs : Dict String Value
  triggerEvents : List Value
  environ : String → Option String

structure Scope where
  outputs : Dict NodeId Value
  statuses : Dict NodeId Value
  errors : Dict NodeId Value

/-- `_reference_value`, `none` for `_MISSING`. -/
def referenceValue (env : Env) (scope : Scope) (ref : Reference) : Option Value :=
  let base : Option Value :=
    match ref.root, ref.symbol, ref.channel with
    | .input, some symbol, _ => Dict.get env.workflowInputs symbol
    | .trigger, some "events", _ => some (.arr env.triggerEvents)
    | .secret, some symbol, _ => (env.environ symbol).map .str
    | .node, some symbol, some .output => Dict.get scope.outputs symbol
    | .node, some symbol, some .status => Dict.get scope.statuses symbol
    | .node, some symbol, some .error => Dict.get scope.errors symbol
    | _, _, _ => none
  ref.path.foldl (fun value selector => value.bind (Value.select · selector)) base

def operandValue (env : Env) (scope : Scope) : Operand → Option Value
  | .literal value => some value
  | .reference ref => referenceValue env scope ref

/-- One comparison, false where it raises `TypeError`. -/
def compare (env : Env) (operator : Comparison) (left right : Value) : Bool :=
  match operator with
  | .eq => Value.pyEq left right
  | .ne => !Value.pyEq left right
  | .lt => (Value.pyLt left right).getD false
  | .le => (Value.pyLe left right).getD false
  | .gt => (Value.pyLt right left).getD false
  | .ge => (Value.pyLe right left).getD false
  | .contains => Value.contains left right
  | .matches => env.reSearch right left

def evaluatePredicate (env : Env) (scope : Scope) (outcome : Outcome) : Predicate → Bool
  | .logical .and left right =>
    evaluatePredicate env scope outcome left && evaluatePredicate env scope outcome right
  | .logical .or left right =>
    evaluatePredicate env scope outcome left || evaluatePredicate env scope outcome right
  | .not operand => !evaluatePredicate env scope outcome operand
  | .status succeeded => succeeded == (outcome == .success)
  | .exists ref => (referenceValue env scope ref).isSome
  | .nullTest isNull ref =>
    let null := match referenceValue env scope ref with
      | some .null => true
      | _ => false
    if isNull then null else !null
  | .reference ref => (referenceValue env scope ref).any Value.truthy
  | .comparison operator left right =>
    match operandValue env scope left, operandValue env scope right with
    | some l, some r => compare env operator l r
    | _, _ => false

def Reference.isNodeOutput (ref : Reference) : Bool :=
  ref.root = .node && ref.channel = some .output

def Operand.usesOutput : Operand → Bool
  | .reference ref => ref.isNodeOutput
  | .literal _ => false

def predicateUsesOutput : Predicate → Bool
  | .logical _ left right => predicateUsesOutput left || predicateUsesOutput right
  | .not operand => predicateUsesOutput operand
  | .exists ref => ref.isNodeOutput
  | .nullTest _ ref => ref.isNodeOutput
  | .reference ref => ref.isNodeOutput
  | .comparison _ left right => left.usesOutput || right.usesOutput
  | .status _ => false

def matchedConditionals (env : Env) (scope : Scope) (outcome : Outcome) (routes : List Route) :
    List Route :=
  routes.filter (fun route =>
    match route.mode with
    | .conditional predicate =>
      route.eligibleOutcomes.contains outcome &&
        !(outcome = .allowedFailure && predicateUsesOutput predicate) &&
        evaluatePredicate env scope outcome predicate
    | _ => false)

def matchingRoutes (env : Env) (scope : Scope) (outcome : Outcome) (routes : List Route) :
    List Route :=
  let conditionals := matchedConditionals env scope outcome routes
  let unconditional := routes.filter (fun route =>
    match route.mode with
    | .unconditional => route.eligibleOutcomes.contains outcome
    | _ => false)
  let otherwise := routes.filter (fun route =>
    match route.mode with
    | .otherwise => route.eligibleOutcomes.contains outcome
    | _ => false)
  unconditional ++ conditionals ++ (if conditionals.isEmpty then otherwise else [])

theorem mem_of_mem_matchingRoutes {env : Env} {scope : Scope} {outcome : Outcome}
    {routes : List Route} {r : Route} (h : r ∈ matchingRoutes env scope outcome routes) :
    r ∈ routes := by
  unfold matchingRoutes matchedConditionals at h
  simp only [List.mem_append] at h
  rcases h with (h | h) | h
  · exact (List.mem_filter.mp h).1
  · exact (List.mem_filter.mp h).1
  · split at h
    · exact (List.mem_filter.mp h).1
    · simp at h

theorem IR.Valid.node_eq {ir : IR} (hv : ir.Valid) {n : Node} (h : n ∈ ir.nodes) :
    ir.node n.id = n := by
  obtain ⟨nodes, maxRuns, timeoutMs, outputs⟩ := ir
  have hnd : (nodes.map (·.id)).Nodup := hv.nodup_ids
  have hfind : nodes.find? (·.id = n.id) = some n := by
    clear hv
    replace h : n ∈ nodes := h
    induction nodes with
    | nil => simp at h
    | cons a l ih =>
      simp only [List.map_cons, List.nodup_cons, List.mem_map, not_exists, not_and] at hnd
      rcases List.mem_cons.mp h with rfl | hm
      · simp
      · have hne : a.id ≠ n.id := fun he => hnd.1 n hm he.symm
        simp [hne, ih hnd.2 hm]
  simp [IR.node, hfind]

theorem IR.forall_node {ir : IR} {P : Node → Prop} (hall : ∀ n ∈ ir.nodes, P n)
    (hdefault : ∀ id, P
      { id := id, type := .other "", needs := [], initialActivation := false, maxConcurrency := 1,
        routes := [] }) (id : NodeId) : P (ir.node id) := by
  unfold IR.node
  cases hf : ir.nodes.find? (·.id = id) with
  | none => exact hdefault id
  | some n => exact hall n (List.mem_of_find?_eq_some hf)

theorem IR.node_mem {ir : IR} {id : NodeId} (h : id ∈ ir.nodes.map (·.id)) :
    ir.node id ∈ ir.nodes ∧ (ir.node id).id = id := by
  obtain ⟨n, hn, rfl⟩ := List.mem_map.mp h
  have hsome : (ir.nodes.find? (·.id = n.id)).isSome := by
    simp only [List.find?_isSome]
    exact ⟨n, hn, by simp⟩
  obtain ⟨m, hm⟩ := Option.isSome_iff_exists.mp hsome
  have hid : m.id = n.id := by simpa using List.find?_some hm
  simp [IR.node, hm, hid, List.mem_of_find?_eq_some hm]

end Raticode.Rattish
