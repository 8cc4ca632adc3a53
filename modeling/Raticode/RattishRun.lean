import Mathlib.Logic.Relation
import Raticode.RattishScheduler

/-! `run` as a machine. Between two awaits the source runs alone, so one step is
one turn of its loop, one handler that finishes, or one completion received. -/
namespace Raticode.Rattish
open OrderedDict

inductive Phase where
  | head
  | awaiting
  | done
  deriving DecidableEq, Repr

structure Machine where
  phase : Phase
  sched : Sched

namespace Sched

def fresh (job : Job) : Sched := { replaying := !job.replay.isEmpty }

def enqueueInitial (ir : IR) (st : Sched) : Sched :=
  (sortedStrings (ir.nodes.map (·.id))).foldl (fun st id =>
    if (ir.node id).initialActivation then
      st.enqueue id ("initial:" ++ id) rootLineage [] [] []
    else st) st

/-- `run` up to its loop. -/
def boot (job : Job) : Sched := ((fresh job).enqueueInitial job.ir).startRunnable job

def resume (job : Job) (st : Sched) : Sched :=
  if st.error.isSome then st else st.startRunnable job

/-- One turn of the loop of `run`, up to its next `receive`. -/
def turn (job : Job) (st : Sched) : Except Fault Machine :=
  if st.running.isEmpty && !st.hasRunnablePending job.ir then .ok ⟨.done, st⟩
  else if st.error.isSome then .ok ⟨.done, st⟩
  else
    match popEarliest st.replayReady with
    | some (e, others) => (st.replayNext job e others).map (fun st => ⟨.head, st.resume job⟩)
    | none =>
      let st := if st.replaying then st.finishReplay else st
      if st.running.isEmpty then
        let st := st.startRunnable job
        if st.error.isSome || st.running.isEmpty then .ok ⟨.done, st⟩ else .ok ⟨.awaiting, st⟩
      else .ok ⟨.awaiting, st⟩

/-- `receive.receive()` and the rest of the turn. -/
def receive (job : Job) (st : Sched) (c : Completion) (rest : List Completion) :
    Except Fault Machine :=
  (processCompletion job { st with channel := rest } c).map (fun st =>
    if st.error.isSome then ⟨.done, st⟩ else ⟨.head, st.startRunnable job⟩)

end Sched

def Task.completion (t : Task) (result : NodeExecutionResult) : Completion :=
  ⟨t.activation, { nodeId := t.node, runNumber := t.runNumber
                   lineageId := t.activation.lineageId, groupId := t.activation.groupId
                   result := result, reusedFrom := none }⟩

/-- `execute_node` reports an unsuccessful node as an allowed failure exactly
when the node allows it. -/
def allowedResult (ir : IR) (node : NodeId) (result : NodeExecutionResult) : Bool :=
  result.nodeId = node &&
  match result.outcome with
  | .success => true
  | .allowedFailure => (ir.node node).allowFail
  | .failure => !(ir.node node).allowFail

/-- The task `i` of the task group sends its completion. -/
def Machine.finishTask (m : Machine) (i : ℕ) (t : Task) (result : NodeExecutionResult) :
    Machine :=
  { m with sched := { m.sched with
      tasks := m.sched.tasks.eraseIdx i
      channel := m.sched.channel ++ [t.completion result] } }

inductive Step (job : Job) : Machine → Machine → Prop
  | turn {st : Sched} {m : Machine} : st.turn job = .ok m → Step job ⟨.head, st⟩ m
  | finishTask {m : Machine} {i : ℕ} {t : Task} {result : NodeExecutionResult} :
      m.phase ≠ .done → m.sched.tasks[i]? = some t → allowedResult job.ir t.node result = true →
      Step job m (m.finishTask i t result)
  | receive {st : Sched} {c : Completion} {rest : List Completion} {m : Machine} :
      st.channel = c :: rest → st.receive job c rest = .ok m → Step job ⟨.awaiting, st⟩ m

def bootMachine (job : Job) : Machine := ⟨.head, Sched.boot job⟩

def Reach (job : Job) : Machine → Prop := Relation.ReflTransGen (Step job) (bootMachine job)

inductive WorkflowOutcome where
  | pass
  | failure
  deriving DecidableEq, Repr

structure WorkflowExecutionResult where
  outcome : WorkflowOutcome
  records : List NodeRunRecord
  outputs : Dict String Value
  nodeOutputs : Dict NodeId Value
  error : Option RuntimeErrorInfo

namespace Sched

def unresolved (ir : IR) (st : Sched) : List Signal :=
  (sortedStrings (ir.nodes.map (·.id))).flatMap (fun id =>
    (st.pendingOf id).filter (fun s => !st.isUnlocked ir id s.activation))

def names (l : List NodeId) : Value := .arr (l.map .str)

/-- One entry of `joins`. -/
def joinDocument (ir : IR) (st : Sched) (s : Signal) : Value :=
  let needs := (ir.node s.node).needs.dedup
  let satisfied := st.satisfied s.activation.lineageId
  let missing := sortedStrings (needs.filter (fun m => !satisfied.contains m))
  .obj [("node_id", .str s.node), ("activation_lineage_id", .str s.activation.lineageId),
    ("received_predecessors", names (sortedStrings (needs.filter (satisfied.contains ·)))),
    ("missing_predecessors", names missing),
    ("missing_states", .obj (missing.map (fun name =>
      (name, ((st.statuses s.activation.lineageId).get name).getD (.str "not_completed")))))]

def unresolvedJoinError (ir : IR) (st : Sched) : Option RuntimeErrorInfo :=
  if (st.unresolved ir).isEmpty then none
  else some
    { kind := "workflow_control", code := "RATTISH_JOIN_UNRESOLVED"
      message := "The workflow reached quiescence with an unresolved join."
      details := [("joins", .arr ((st.unresolved ir).map (st.joinDocument ir)))] }

def ReferenceRoot.document : ReferenceRoot → Value
  | .input => .str "input"
  | .node => .str "node"
  | .secret => .str "secret"
  | .trigger => .str "trigger"

def Channel.document : Option Channel → Value
  | none => .null
  | some .output => .str "output"
  | some .status => .str "status"
  | some .error => .str "error"
  | some .item => .str "item"

def outputMissing (o : WorkflowOutput) : RuntimeErrorInfo :=
  { kind := "output_validation", code := "RATTISH_WORKFLOW_OUTPUT_MISSING"
    message := "Public workflow output " ++ quoted o.name ++ " has no value."
    details := [("output", .str o.name), ("root", ReferenceRoot.document o.source.root),
      ("symbol", (o.source.symbol.map .str).getD .null),
      ("channel", Channel.document o.source.channel)] }

def outputInvalid (o : WorkflowOutput) : RuntimeErrorInfo :=
  { kind := "output_validation", code := "RATTISH_WORKFLOW_OUTPUT_INVALID"
    message := "Public workflow output " ++ quoted o.name ++ " violates its schema."
    details := [("output", .str o.name)] }

def latestScope (st : Sched) : Scope := ⟨st.latestOutputs, st.latestStatuses, st.latestErrors⟩

/-- The loop of `_workflow_outputs`. -/
def collectOutputs (env : Env) (scope : Scope) :
    List WorkflowOutput → Dict String Value → Except RuntimeErrorInfo (Dict String Value)
  | [], outputs => .ok outputs
  | o :: rest, outputs =>
    match referenceValue env scope o.source with
    | none => .error (outputMissing o)
    | some value =>
      if Schema.valid env.search (.obj o.schema) value then
        collectOutputs env scope rest (outputs.set o.name value)
      else .error (outputInvalid o)

/-- The error `run` ends with before the public outputs are collected. -/
def finalError (ir : IR) (st : Sched) : Option RuntimeErrorInfo :=
  match st.error, st.deferredLoopFailures with
  | some e, _ => some e
  | none, e :: _ => some e
  | none, [] => st.unresolvedJoinError ir

/-- The end of `run`. -/
def result (job : Job) (st : Sched) : WorkflowExecutionResult :=
  match st.finalError job.ir with
  | some e => ⟨.failure, st.records, [], st.latestOutputs, some e⟩
  | none =>
    match collectOutputs job.env st.latestScope job.ir.outputs [] with
    | .error e => ⟨.failure, st.records, [], st.latestOutputs, some e⟩
    | .ok outputs => ⟨.pass, st.records, outputs, st.latestOutputs, none⟩

end Sched

/-- `run` returned this result. -/
def Returns (job : Job) (r : WorkflowExecutionResult) : Prop :=
  ∃ st, Reach job ⟨.done, st⟩ ∧ r = st.result job

def workflowTimeout (ms : ℕ) : RuntimeErrorInfo :=
  { kind := "timeout", code := "RATTISH_TIMEOUT"
    message := "The workflow active-processing timeout was reached."
    details := [("scope", .str "workflow"), ("timeout_ms", .int ms)] }

/-- What `execute_workflow` returns for a workflow that has nodes: the result of
`run`, or, when the time is up while `run` waits for a completion, a failure with the
records made so far. -/
inductive Executes (job : Job) : WorkflowExecutionResult → Prop
  | returned {st : Sched} : job.ir.nodes ≠ [] → Reach job ⟨.done, st⟩ →
      Executes job (st.result job)
  | timedOut {st : Sched} {ms : ℕ} : job.ir.nodes ≠ [] → job.ir.timeoutMs = some ms →
      Reach job ⟨.awaiting, st⟩ →
      Executes job ⟨.failure, st.records, [], st.latestOutputs, some (workflowTimeout ms)⟩

inductive Choice where
  | turn
  | finish (i : ℕ) (outcome : Outcome) (output : Value)
  | receive

def Machine.next (job : Job) (m : Machine) : Choice → Option Machine
  | .turn =>
    match m.phase with
    | .head => (m.sched.turn job).toOption
    | _ => none
  | .finish i outcome output =>
    match m.phase, m.sched.tasks[i]? with
    | .done, _ => none
    | _, none => none
    | _, some t =>
      let result : NodeExecutionResult := ⟨t.node, outcome, output, none⟩
      if allowedResult job.ir t.node result then some (m.finishTask i t result) else none
  | .receive =>
    match m.phase, m.sched.channel with
    | .awaiting, c :: rest => (m.sched.receive job c rest).toOption
    | _, _ => none

def Machine.runScript (job : Job) : List Choice → Machine → Option Machine
  | [], m => some m
  | c :: rest, m => (m.next job c).bind (Machine.runScript job rest)

theorem Machine.step_of_next {job : Job} {m m' : Machine} {c : Choice}
    (h : m.next job c = some m') : Step job m m' := by
  obtain ⟨phase, st⟩ := m
  cases c with
  | turn =>
    cases phase <;> simp only [Machine.next, reduceCtorEq] at h
    cases ht : st.turn job with
    | error f => simp [ht, Except.toOption] at h
    | ok m'' =>
      obtain rfl : m'' = m' := by simpa [ht, Except.toOption] using h
      exact .turn ht
  | finish i outcome output =>
    simp only [Machine.next] at h
    split at h
    · simp at h
    · simp at h
    next t hdone ht =>
      split at h
      next hallow =>
        obtain rfl := Option.some.inj h
        exact .finishTask hdone ht hallow
      · simp at h
  | receive =>
    cases phase <;> simp only [Machine.next, reduceCtorEq] at h
    cases hc : st.channel with
    | nil => simp [hc] at h
    | cons c rest =>
      simp only [hc] at h
      cases hr : st.receive job c rest with
      | error f => simp [hr, Except.toOption] at h
      | ok m'' =>
        obtain rfl : m'' = m' := by simpa [hr, Except.toOption] using h
        exact .receive hc hr

theorem Machine.reach_of_runScript {job : Job} {script : List Choice} {m m' : Machine}
    (h : m.runScript job script = some m') : Relation.ReflTransGen (Step job) m m' := by
  induction script generalizing m with
  | nil =>
    obtain rfl := Option.some.inj h
    exact .refl
  | cons c rest ih =>
    obtain ⟨m₁, h₁, h₂⟩ := Option.bind_eq_some_iff.mp h
    exact .head (Machine.step_of_next h₁) (ih h₂)

/-! Small workflows for the statements that need an instance. -/
namespace Sample

def env : Env := ⟨⟨fun _ _ => false, fun _ _ => false, fun _ => none⟩, [], [], fun _ => none⟩

def route (target : NodeId) : Route := ⟨target, .unconditional, [.success, .allowedFailure]⟩

def node (id : NodeId) (type : NodeType) (needs : List NodeId) (targets : List NodeId) : Node :=
  { id := id, type := type, needs := needs, initialActivation := needs.isEmpty,
    maxConcurrency := 1, routes := targets.map route }

/-- The output of a loop node with `n` items, one at a time. -/
def items (n : ℕ) : Value :=
  .obj [("items", .arr (List.replicate n (.obj []))), ("max_concurrency", .int 1)]

def nested : Job where
  ir := { nodes := [node "outer" .loop [] ["inner"], node "inner" .loop ["outer"] ["body"],
    node "body" (.other "shell") ["inner"] []] }
  env := env

def finish (output : Value) : List Choice := [.turn, .finish 0 .success output, .receive]

def after (job : Job) (script : List Choice) : Option Machine :=
  (bootMachine job).runScript job script

theorem reach_after {job : Job} {script : List Choice} {m : Machine}
    (h : after job script = some m) : Reach job m := Machine.reach_of_runScript h

def chain : Job where
  ir := { nodes := [node "first" (.other "shell") [] ["second"],
    node "second" (.other "shell") ["first"] []], timeoutMs := some 1000 }
  env := env

theorem chain_valid : chain.ir.Valid := by
  constructor <;> simp [chain, node, route]

def resumed : Job where
  ir := { nodes := [node "first" (.other "shell") [] ["second"],
    node "second" (.other "shell") ["first"] []] }
  env := env
  replay := [{ nodeId := "first", runNumber := 1, lineageId := rootLineage
               groupId := "initial:first"
               result := ⟨"first", .success, .null, none⟩, reusedFrom := none }]
  replaySource := some "earlier"

theorem resumed_valid : resumed.ir.Valid := by
  constructor <;> simp [resumed, node, route]

theorem nested_valid : nested.ir.Valid := by
  constructor <;> simp [nested, node, route]

end Sample

end Raticode.Rattish
