import Mathlib.Data.List.Sort
import Raticode.RattishIR
import Raticode.Components

/-! The state of `_WorkflowScheduler` and its operations, in the order of the
source. Dictionaries over lineages that are only read with an empty default are
total functions; a per-node dictionary of activations is one list in insertion
order, from which the node's own entries are filtered. -/
namespace Raticode.Rattish
open OrderedDict Components

abbrev LineageId := String
abbrev GroupId := String

def rootLineage : LineageId := "root"

structure Activation where
  groupId : GroupId
  sequence : ℕ
  lineageId : LineageId
  scopedOutputs : Dict NodeId Value
  loopLineages : Dict NodeId LineageId

structure NodeRunRecord where
  nodeId : NodeId
  runNumber : ℕ
  lineageId : LineageId
  groupId : GroupId
  result : NodeExecutionResult
  reusedFrom : Option String

structure Completion where
  activation : Activation
  record : NodeRunRecord

abbrev RunId := NodeId × ℕ

/-- A pending activation of a node. `origins` is history: the runs whose routes
produced it. -/
structure Signal where
  node : NodeId
  activation : Activation
  origins : List RunId

/-- The arguments of `_run_activation`. -/
structure Task where
  node : NodeId
  activation : Activation
  runNumber : ℕ
  outputs : Dict NodeId Value
  statuses : Dict NodeId Value
  errors : Dict NodeId Value

structure Start where
  task : Task
  recordsBefore : ℕ
  origins : List RunId

/-- An entry of `replay_ready`. -/
structure ReadyEntry where
  index : ℕ
  node : NodeId
  activation : Activation
  runNumber : ℕ
  prior : NodeRunRecord

/-- `_LoopState`; `runNumber` is the run of the loop node that opened it. -/
structure LoopState where
  nodeId : NodeId
  runNumber : ℕ
  lineageId : LineageId
  items : List (Dict String Value)
  infinite : Bool
  maxConcurrency : ℤ
  failFast : Bool
  routes : List Route
  parentOutputs : Dict NodeId Value
  parentLineages : Dict NodeId LineageId
  parentLineageId : LineageId
  nextIndex : ℕ := 0
  closed : Bool := false
  activeGroups : List GroupId := []

structure Sched where
  satisfied : LineageId → List NodeId := fun _ => []
  outputs : LineageId → Dict NodeId Value := fun _ => []
  statuses : LineageId → Dict NodeId Value := fun _ => []
  errors : LineageId → Dict NodeId Value := fun _ => []
  latestOutputs : Dict NodeId Value := []
  latestStatuses : Dict NodeId Value := []
  latestErrors : Dict NodeId Value := []
  pending : List Signal := []
  running : List (NodeId × GroupId) := []
  runCounts : NodeId → ℕ := fun _ => 0
  totalRuns : ℕ := 0
  sequence : ℕ := 0
  /-- `records`, each with the activation that completed. -/
  completions : List Completion := []
  error : Option RuntimeErrorInfo := none
  loops : Dict LineageId LoopState := []
  deferredLoopFailures : List RuntimeErrorInfo := []
  replaying : Bool := false
  dirtyLineages : List LineageId := []
  replayStarts : NodeId × GroupId × LineageId → ℕ := fun _ => 0
  replayReady : List ReadyEntry := []
  replayHeld : List Task := []
  reused : ℕ := 0
  tasks : List Task := []
  channel : List Completion := []
  starts : List Start := []

def Sched.records (st : Sched) : List NodeRunRecord := st.completions.map (·.record)

structure Job where
  ir : IR
  env : Env
  replay : List NodeRunRecord := []
  replaySource : Option String := none

/-- The ways `run` can end without a result: a loop of the source that never
ends, and the exceptions of `_open_loop`. -/
inductive Fault where
  | hang
  | invalidControlOutput
  deriving DecidableEq, Repr

def update {κ α : Type} [DecidableEq κ] (f : κ → α) (k : κ) (v : α) : κ → α :=
  fun x => if x = k then v else f x

@[simp] theorem update_same {κ α : Type} [DecidableEq κ] (f : κ → α) (k : κ) (v : α) :
    update f k v k = v := by simp [update]

theorem update_ne {κ α : Type} [DecidableEq κ] (f : κ → α) {k x : κ} (v : α) (h : x ≠ k) :
    update f k v x = f x := by simp [update, h]

namespace Sched

/-- `group_id in self.running_groups[node_id] or group_id in self.pending[node_id]`. -/
def isQueued (st : Sched) (node : NodeId) (group : GroupId) : Bool :=
  st.running.contains (node, group) ||
    st.pending.any (fun s => s.node = node && s.activation.groupId = group)

def enqueue (st : Sched) (node : NodeId) (group : GroupId) (lineage : LineageId)
    (outputs : Dict NodeId Value) (loops : Dict NodeId LineageId) (origins : List RunId) : Sched :=
  if st.isQueued node group then st
  else
    { st with
      sequence := st.sequence + 1
      pending := st.pending ++ [⟨node, ⟨group, st.sequence + 1, lineage, outputs, loops⟩, origins⟩] }

def pendingOf (st : Sched) (node : NodeId) : List Signal := st.pending.filter (·.node = node)

def runningOf (st : Sched) (node : NodeId) : List (NodeId × GroupId) :=
  st.running.filter (·.1 = node)

def lineageIsUnlocked (ir : IR) (st : Sched) (node : NodeId) (lineage : LineageId) : Bool :=
  (ir.node node).needs.all ((st.satisfied lineage).contains ·)

def isUnlocked (ir : IR) (st : Sched) (node : NodeId) (activation : Activation) : Bool :=
  st.lineageIsUnlocked ir node activation.lineageId

def hasRunnablePending (ir : IR) (st : Sched) : Bool :=
  ir.nodes.any (fun n => (st.pendingOf n.id).any (fun s => st.isUnlocked ir n.id s.activation))

/-- The error `_reserve_run` records instead of reserving a run. -/
def budgetError? (ir : IR) (st : Sched) (node : NodeId) : Option RuntimeErrorInfo :=
  match ir.maxRuns with
  | some limit =>
    if limit ≤ st.totalRuns then
      some { kind := "budget", code := "RATTISH_RUN_LIMIT_EXCEEDED",
             message := "The workflow max-runs limit was reached.",
             details := [("scope", .str "workflow"), ("max_runs", .int limit),
               ("next_node", .str node)] }
    else nodeBudgetError? ir st node
  | none => nodeBudgetError? ir st node
where
  nodeBudgetError? (ir : IR) (st : Sched) (node : NodeId) : Option RuntimeErrorInfo :=
    match (ir.node node).maxRuns with
    | some limit =>
      if limit ≤ st.runCounts node then
        some { kind := "budget", code := "RATTISH_RUN_LIMIT_EXCEEDED",
               message := "Node " ++ quoted node ++ " reached its max-runs limit.",
               details := [("scope", .str "node"), ("max_runs", .int limit),
                 ("node_id", .str node)] }
      else none
    | none => none

end Sched

def Outcome.reusable : Outcome → Bool
  | .failure => false
  | _ => true

abbrev ReplayKey := NodeId × GroupId × LineageId

def Activation.key (node : NodeId) (a : Activation) : ReplayKey := (node, a.groupId, a.lineageId)

def NodeRunRecord.key (r : NodeRunRecord) : ReplayKey := (r.nodeId, r.groupId, r.lineageId)

namespace Job

/-- `self.replay_records.get(key, [])`: the saved records of a key with their
positions. -/
def replayRecords (job : Job) (key : ReplayKey) : List (ℕ × NodeRunRecord) :=
  (job.replay.zipIdx.filter (fun p => p.1.key = key)).map (fun p => (p.2, p.1))

def reusable (job : Job) : ℕ := (job.replay.filter (·.result.outcome.reusable)).length

end Job

namespace Sched

/-- `_replayed`: the saved result of this start is queued, if there is one to
reuse. The count of the key's starts moves on either way. -/
def replayed (job : Job) (st : Sched) (node : NodeId) (a : Activation) (runNumber : ℕ) :
    Sched × Bool :=
  if job.replaySource.isNone || job.reusable ≤ st.reused then (st, false)
  else
    let key := a.key node
    let occurrence := st.replayStarts key
    let st := { st with replayStarts := update st.replayStarts key (occurrence + 1) }
    match (job.replayRecords key)[occurrence]? with
    | none => (st, false)
    | some (index, prior) =>
      if st.dirtyLineages.contains a.lineageId || !prior.result.outcome.reusable then (st, false)
      else
        ({ st with replayReady := st.replayReady ++ [⟨index, node, a, runNumber, prior⟩] }, true)

def begin (st : Sched) (s : Signal) : Sched :=
  { st with
    totalRuns := st.totalRuns + 1
    runCounts := update st.runCounts s.node (st.runCounts s.node + 1)
    pending := st.pending.filter (fun p =>
      !(p.node = s.node && p.activation.groupId = s.activation.groupId))
    running := st.running ++ [(s.node, s.activation.groupId)] }

def taskOf (st : Sched) (s : Signal) : Task :=
  { node := s.node, activation := s.activation, runNumber := st.runCounts s.node + 1
    outputs := (st.outputs s.activation.lineageId).merge s.activation.scopedOutputs
    statuses := st.statuses s.activation.lineageId
    errors := st.errors s.activation.lineageId }

def dispatch (job : Job) (st : Sched) (t : Task) : Sched :=
  let (st, reused) := st.replayed job t.node t.activation t.runNumber
  if reused then st
  else if st.replaying then { st with replayHeld := st.replayHeld ++ [t] }
  else { st with tasks := st.tasks ++ [t] }

/-- The body of the inner loop of `_start_runnable` for one candidate. -/
def startOne (job : Job) (st : Sched) (s : Signal) : Sched :=
  if !st.pending.any (fun p => p.node = s.node && p.activation.groupId = s.activation.groupId)
  then st
  else
    match st.budgetError? job.ir s.node with
    | some e => { st with error := some e }
    | none =>
      let t := st.taskOf s
      dispatch job
        { st.begin s with
          starts := st.starts ++ [⟨t, st.completions.length, s.origins⟩] } t

/-- The inner loop; a refused run returns from `_start_runnable`. -/
def startEach (job : Job) : List Signal → Sched → Sched
  | [], st => st
  | s :: rest, st =>
    let st' := st.startOne job s
    if st'.error.isSome then st' else startEach job rest st'

def runnableOf (ir : IR) (st : Sched) (n : Node) : List Signal :=
  ((st.pendingOf n.id).filter (fun s => st.isUnlocked ir n.id s.activation)).take
    (n.maxConcurrency - (st.runningOf n.id).length)

def startsBefore (a b : Signal) : Prop :=
  a.activation.sequence < b.activation.sequence ∨
    (a.activation.sequence = b.activation.sequence ∧ a.node ≤ b.node)

instance : DecidableRel startsBefore := fun _ _ =>
  inferInstanceAs (Decidable (_ ∨ (_ ∧ _)))

/-- `sorted(candidates)`. -/
def candidates (ir : IR) (st : Sched) : List Signal :=
  (ir.nodes.flatMap (st.runnableOf ir)).insertionSort startsBefore

/-- `_start_runnable`: passes over the candidates as long as one makes progress. -/
def startPasses (job : Job) : ℕ → Sched → Sched
  | 0, st => st
  | fuel + 1, st =>
    let st' := startEach job (st.candidates job.ir) st
    if st'.error.isNone && st.totalRuns < st'.totalRuns then startPasses job fuel st' else st'

def startRunnable (job : Job) (st : Sched) : Sched :=
  if st.error.isSome then st else startPasses job (st.pending.length + 1) st

/-- `satisfied.add(node_id)`. -/
def latch (st : Sched) (lineage : LineageId) (node : NodeId) : Sched :=
  { st with satisfied := update st.satisfied lineage ((st.satisfied lineage).insert node) }

end Sched

/-- `f"{state.lineage_id}:iteration:{index}"`. -/
def iterationGroup (lineage : LineageId) (index : ℕ) : GroupId :=
  lineage ++ ":iteration:" ++ toString index

/-- `f"{group_id}:loop:{node_id}:{run_number}"`. -/
def loopLineage (group : GroupId) (node : NodeId) (runNumber : ℕ) : LineageId :=
  group ++ ":loop:" ++ node ++ ":" ++ toString runNumber

namespace LoopState

def hasNext (ls : LoopState) : Bool :=
  !ls.closed && (ls.infinite || ls.nextIndex < ls.items.length)

/-- The item the iteration `nextIndex` runs on. -/
def item (ls : LoopState) : Value :=
  let item : Dict String Value :=
    if ls.infinite then [("index", .int ls.nextIndex)] else (ls.items[ls.nextIndex]?).getD []
  .obj (item.setDefault "index" (.int ls.nextIndex))

def nextGroup (ls : LoopState) : GroupId := iterationGroup ls.lineageId ls.nextIndex

def hasCapacity (ls : LoopState) : Bool := ls.activeGroups.length < ls.maxConcurrency

def counted (ls : LoopState) : LoopState :=
  { ls with
    nextIndex := ls.nextIndex + 1
    activeGroups := if ls.routes.isEmpty then ls.activeGroups
      else ls.activeGroups.insert ls.nextGroup }

end LoopState

namespace Sched

def openIteration (st : Sched) (ls : LoopState) : Sched :=
  let group := ls.nextGroup
  let parent := ls.parentLineageId
  { st with
    dirtyLineages := if st.dirtyLineages.contains parent then st.dirtyLineages.insert group
      else st.dirtyLineages
    satisfied := update st.satisfied group ((st.satisfied parent).insert ls.nodeId)
    outputs := update st.outputs group ((st.outputs parent).set ls.nodeId ls.item)
    statuses := update st.statuses group (st.statuses parent)
    errors := update st.errors group (st.errors parent)
    loops := st.loops.set ls.lineageId ls.counted }

def enqueueIteration (st : Sched) (ls : LoopState) : Sched :=
  ls.routes.foldl (fun st route =>
    st.enqueue route.target ls.nextGroup ls.nextGroup
      (ls.parentOutputs.set ls.nodeId ls.item) (ls.parentLineages.set ls.nodeId ls.lineageId)
      [(ls.nodeId, ls.runNumber)]) st

/-- The loop of `_fill_loop_capacity`. Out of fuel is a loop that never ends:
an infinite loop node whose iterations have no routes. -/
def fill : ℕ → LineageId → Sched → Except Fault Sched
  | 0, _, _ => .error .hang
  | fuel + 1, lineage, st =>
    match st.loops.get lineage with
    | none => .ok st
    | some ls =>
      if ls.hasNext && ls.hasCapacity then
        fill fuel lineage ((st.openIteration ls).enqueueIteration ls)
      else .ok st

/-- `_fill_loop_capacity`. A finite loop opens at most its items; an infinite one
stops when its capacity is used up. -/
def fillLoopCapacity (st : Sched) (lineage : LineageId) : Except Fault Sched :=
  match st.loops.get lineage with
  | none => .ok st
  | some ls => fill (ls.items.length + ls.maxConcurrency.toNat + 1) lineage st

/-- `live == group or live.startswith(f"{group}:")`. -/
def under (live group : GroupId) : Bool := live = group || startsWith live (group ++ ":")

/-- `pending_groups | running_groups`. -/
def liveGroups (st : Sched) : List GroupId :=
  st.pending.map (·.activation.groupId) ++ st.running.map (·.2)

def prune (st : Sched) (live : List GroupId) (lineage : LineageId) : Sched :=
  match st.loops.get lineage with
  | none => st
  | some ls =>
    let ls := { ls with activeGroups := ls.activeGroups.filter (fun g => live.any (under · g)) }
    { st with loops := st.loops.set lineage ls }

/-- `_settle_loop_groups`: the live groups are computed once, before the loops
are visited in the order they were opened. -/
def settleLoopGroups (st : Sched) : Except Fault Sched :=
  let live := st.liveGroups
  st.loops.keys.foldlM (fun st lineage => (st.prune live lineage).fillLoopCapacity lineage) st

end Sched

/-- `int(value)`, `none` for `TypeError` and `ValueError`. -/
def Value.toInt (env : Env) : Value → Option ℤ
  | .int z => some z
  | .bool b => some (if b then 1 else 0)
  | .float q => some (if q < 0 then -(-q).floor else q.floor)
  | .str s => env.intOfStr s
  | _ => none

def Value.asObject : Value → Option (Dict String Value)
  | .obj fields => some fields
  | _ => none

namespace Sched

/-- The `items` that are mappings; a value that is not iterable raises. -/
def loopItems : Option Value → Option (List (Dict String Value))
  | none => some []
  | some (.arr xs) => some (xs.filterMap Value.asObject)
  | some (.obj _) => some []
  | some (.str _) => some []
  | _ => none

/-- The `_LoopState` that `_open_loop` builds from a control output. -/
def loopStateOf (job : Job) (st : Sched) (c : Completion) : Option LoopState := do
  let output ← c.record.result.output.asObject
  let items ← loopItems (Dict.get output "items")
  let maxConcurrency ← ((Dict.get output "max_concurrency").getD (.int 1)).toInt job.env
  let lineage := c.activation.lineageId
  return {
    nodeId := c.record.nodeId
    runNumber := c.record.runNumber
    lineageId := loopLineage c.activation.groupId c.record.nodeId c.record.runNumber
    items := items
    infinite := ((Dict.get output "infinite").getD (.bool false)).truthy
    maxConcurrency := maxConcurrency
    failFast := ((Dict.get output "fail_fast").getD (.bool false)).truthy
    routes := matchingRoutes job.env ⟨st.outputs lineage, st.statuses lineage, st.errors lineage⟩
      c.record.result.outcome (job.ir.node c.record.nodeId).routes
    parentOutputs := c.activation.scopedOutputs
    parentLineages := c.activation.loopLineages
    parentLineageId := lineage }

def openLoop (job : Job) (st : Sched) (c : Completion) : Except Fault Sched :=
  match st.loopStateOf job c with
  | none => .error .invalidControlOutput
  | some ls => fillLoopCapacity { st with loops := st.loops.set ls.lineageId ls } ls.lineageId

def breakOutsideLoop (node loopId : NodeId) : RuntimeErrorInfo :=
  { kind := "workflow_control", code := "RATTISH_BREAK_OUTSIDE_LOOP",
    message := "Break node " ++ quoted node ++ " ran outside loop " ++ quoted loopId ++ "." }

def closeLoop (st : Sched) (a : Activation) (node : Node) : Sched :=
  let loopId := node.loopNodeId.getD ""
  match a.loopLineages.get loopId with
  | none =>
    { st with error := some (breakOutsideLoop node.id loopId) }
  | some lineage =>
    match st.loops.get lineage with
    | none => st
    | some ls =>
      if ls.closed then st
      else
        { st with
          loops := st.loops.set lineage { ls with closed := true }
          pending := st.pending.filter (fun s =>
            !(s.activation.loopLineages.get loopId = some lineage)) }

/-- `_defer_loop_failure`: the first enclosing loop that does not fail fast. -/
def deferLoopFailure (st : Sched) (a : Activation) (error : Option RuntimeErrorInfo) :
    Option Sched :=
  match a.loopLineages.values.findSome? (fun lineage =>
    match st.loops.get lineage with
    | some ls => if ls.failFast then none else some ls
    | none => none) with
  | none => none
  | some ls =>
    let failure := error.getD
      { kind := "internal", code := "RATTISH_NODE_FAILED",
        message := "A loop iteration branch failed.",
        details := [("loop", .str ls.nodeId), ("lineage", .str ls.lineageId)] }
    some { st with deferredLoopFailures := st.deferredLoopFailures ++ [failure] }

/-- `sorted` on strings. -/
def sortedStrings (names : List String) : List String := names.insertionSort (· ≤ ·)

def mergedGroup (signals : List Signal) : GroupId :=
  "merged:" ++ String.intercalate "+" (sortedStrings (signals.map (·.activation.groupId)))

def mergeLockedSignals (st : Sched) (node : NodeId) (lineage : LineageId) : Sched :=
  match (st.pendingOf node).filter (·.activation.lineageId = lineage) with
  | [] => st
  | [_] => st
  | first :: rest =>
    let merged : Signal :=
      { node := node
        activation :=
          { groupId := mergedGroup (first :: rest)
            sequence := rest.foldl (fun m s => min m s.activation.sequence)
              first.activation.sequence
            lineageId := lineage
            scopedOutputs := first.activation.scopedOutputs
            loopLineages := first.activation.loopLineages }
        origins := (first :: rest).flatMap (·.origins) }
    { st with
      pending := st.pending.filter (fun s =>
        !(s.node = node && s.activation.lineageId = lineage)) ++ [merged] }

def recordOutput (result : NodeExecutionResult) (node : NodeId) (d : Dict NodeId Value) :
    Dict NodeId Value :=
  if result.outcome = .success then d.set node result.output else d

def recordStatus (result : NodeExecutionResult) (node : NodeId) (d : Dict NodeId Value) :
    Dict NodeId Value :=
  d.set node (if result.outcome = .success then .str "success" else .str "failure")

def recordError (result : NodeExecutionResult) (node : NodeId) (d : Dict NodeId Value) :
    Dict NodeId Value :=
  if result.outcome = .success then d.erase node
  else
    match result.error with
    | none => d
    | some e => d.set node (errorDocument e)

/-- The first part of `_process_completion`: the record and the result tables. -/
def recordCompletion (job : Job) (st : Sched) (c : Completion) : Sched :=
  let node := c.record.nodeId
  let lineage := c.activation.lineageId
  let result := c.record.result
  { st with
    running := st.running.erase (node, c.activation.groupId)
    completions := st.completions ++ [c]
    dirtyLineages := if job.replaySource.isSome && c.record.reusedFrom.isNone
      then st.dirtyLineages.insert lineage else st.dirtyLineages
    latestOutputs := recordOutput result node st.latestOutputs
    latestStatuses := recordStatus result node st.latestStatuses
    latestErrors := recordError result node st.latestErrors
    outputs := update st.outputs lineage (recordOutput result node (st.outputs lineage))
    statuses := update st.statuses lineage (recordStatus result node (st.statuses lineage))
    errors := update st.errors lineage (recordError result node (st.errors lineage)) }

def routesOf (job : Job) (st : Sched) (c : Completion) : List Route :=
  let lineage := c.activation.lineageId
  matchingRoutes job.env ⟨st.outputs lineage, st.statuses lineage, st.errors lineage⟩
    c.record.result.outcome (job.ir.node c.record.nodeId).routes

def enqueueRoutes (job : Job) (st : Sched) (c : Completion) : Sched :=
  (st.routesOf job c).foldl (fun st route =>
    st.enqueue route.target c.activation.groupId c.activation.lineageId
      c.activation.scopedOutputs c.activation.loopLineages
      [(c.record.nodeId, c.record.runNumber)]) st

/-- Merge the signals of every node that `before` has locked and `st` has not. -/
def mergeUnlocked (ir : IR) (before : Sched) (lineage : LineageId) (st : Sched) : Sched :=
  (sortedStrings (ir.nodes.map (·.id))).foldl (fun st target =>
    if !before.lineageIsUnlocked ir target lineage && st.lineageIsUnlocked ir target lineage
    then st.mergeLockedSignals target lineage else st) st

/-- The last part of `_process_completion`: latch, routes, merged signals. -/
def routeCompletion (job : Job) (st : Sched) (c : Completion) : Except Fault Sched :=
  let lineage := c.activation.lineageId
  let latched := st.latch lineage c.record.nodeId
  (mergeUnlocked job.ir st lineage (latched.enqueueRoutes job c)).settleLoopGroups

def nodeFailed (node : NodeId) : RuntimeErrorInfo :=
  { kind := "internal", code := "RATTISH_NODE_FAILED",
    message := "Node " ++ quoted node ++ " failed." }

def finishFailed (node : NodeId) : RuntimeErrorInfo :=
  { kind := "workflow_control", code := "RATTISH_FINISH_FAIL",
    message := "Failure terminal " ++ quoted node ++ " completed.",
    details := [("node_id", .str node)] }

/-- `if is_loop:` -/
def loopBranch (job : Job) (st : Sched) (c : Completion) : Except Fault Sched :=
  if (job.ir.node c.record.nodeId).type = .loop then
    (st.latch c.activation.lineageId c.record.nodeId).openLoop job c >>= settleLoopGroups
  else .ok st

/-- `if is_break:` -/
def breakBranch (job : Job) (st : Sched) (c : Completion) : Except Fault Sched :=
  if (job.ir.node c.record.nodeId).type = .break then
    (st.closeLoop c.activation (job.ir.node c.record.nodeId)).settleLoopGroups
  else .ok st

def endBranch (job : Job) (st : Sched) (c : Completion) : Except Fault Sched :=
  let node := job.ir.node c.record.nodeId
  if node.finish = some .fail then .ok { st with error := some (finishFailed c.record.nodeId) }
  else if node.type = .loop ∧ node.finish = none then .ok st
  else st.routeCompletion job c

/-- `_process_completion` after a success or an allowed failure was recorded. -/
def processSuccess (job : Job) (st : Sched) (c : Completion) : Except Fault Sched :=
  st.loopBranch job c >>= (breakBranch job · c) >>= (endBranch job · c)

def processCompletion (job : Job) (st : Sched) (c : Completion) : Except Fault Sched :=
  let st := st.recordCompletion job c
  match c.record.result.outcome with
  | .failure =>
    match st.deferLoopFailure c.activation c.record.result.error with
    | some st => st.settleLoopGroups
    | none =>
      .ok { st with error := some (c.record.result.error.getD (nodeFailed c.record.nodeId)) }
  | _ => st.processSuccess job c

/-- `heapq.heappop`: the entry of the smallest index, and the others. -/
def popEarliest : List ReadyEntry → Option (ReadyEntry × List ReadyEntry)
  | [] => none
  | e :: rest =>
    match popEarliest rest with
    | none => some (e, [])
    | some (m, others) => if m.index < e.index then some (m, e :: others) else some (e, rest)

/-- The completion `_replay_next` makes of a queued saved result. -/
def ReadyEntry.completion (job : Job) (e : ReadyEntry) : Completion :=
  ⟨e.activation, { nodeId := e.node, runNumber := e.runNumber
                   lineageId := e.activation.lineageId, groupId := e.activation.groupId
                   result := { e.prior.result with nodeId := e.node }
                   reusedFrom := job.replaySource }⟩

/-- `_replay_next` for the entry taken from the heap. -/
def replayNext (job : Job) (st : Sched) (e : ReadyEntry) (others : List ReadyEntry) :
    Except Fault Sched :=
  processCompletion job { st with replayReady := others, reused := st.reused + 1 }
    (ReadyEntry.completion job e)

def finishReplay (st : Sched) : Sched :=
  { st with replaying := false, tasks := st.tasks ++ st.replayHeld, replayHeld := [] }

end Sched

end Raticode.Rattish
