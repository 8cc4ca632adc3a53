import Raticode.OrganizationTurns

/-! All that happens to an organization: what the user, Rem and the workers call, and what the
manager does by itself, in any order. -/
namespace Raticode.Organizations
open PyDocument OrderedDict Attempt

/-! ### Cancelled work -/

def Org.cascadeRuns (org : Org) (id : Str) : List Str :=
  let below := (descend org org.tasks.length [id]).filter (· ≠ id)
  (org.tasks.filter (fun t => below.contains t.id && t.status ≠ .done && t.status ≠ .cancelled)).filterMap
    (·.claim)

def ownRun (call : TaskCall) (t : Task) : List Str :=
  match call with
  | .update _ asked => if (asked.differing t).status = some .cancelled then t.claim.toList else []
  | _ => []

def World.revoked (h : Host) (now : ℚ) (w : World) (caller : Caller) (taskId : Str) (call : TaskCall) :
    List Str :=
  match w.org.find taskId with
  | none => []
  | some (i, t) =>
    if !w.org.admits caller then []
    else if caller.actor = .rem && (consentReason call t).isSome then []
    else match changeTask h now w.org i caller.actor call t with
      | .error _ => []
      | .ok t' =>
        ownRun call t ++ if t'.status = .cancelled then (w.org.set i t').cascadeRuns t'.id else []

/-! ### What is checked inside the transaction of an operation -/

/-- The turn of the caller has not been revoked, as `operation` sees it. -/
def Org.admitsOperation (org : Org) (caller : Caller) : Bool :=
  caller.runId.all (fun run => org.tasks.any (fun t => t.claim = some run)) &&
    (caller.actor.employee?.isNone || org.generation = caller.generation)

namespace Company

def call (m : Moment) (c : Company) (caller : Caller) (taskId : Str) (call : TaskCall) : Company :=
  let changed : Company := { c with world := c.world.call m.toHost m.now caller taskId call }
  changed.signal (c.world.revoked m.toHost m.now caller taskId call)

/-- `task_create`, and `wake`, which names a title and an assignee. -/
def create (m : Moment) (c : Company) (caller : Caller) (fresh : Str) (draft : Task) : Company :=
  if c.unused [fresh] then { c with world := c.world.create m.toHost caller fresh draft } else c

/-- `artifact_add`. -/
def artifact (c : Company) (caller : Caller) (taskId : Str) (a : Artifact) : Company :=
  match c.org.find taskId with
  | none => c
  | some (i, t) =>
    let kinds := [text "file", text "diff", text "test", text "document"]
    if c.org.admitsOperation caller && caller.actor.employee?.all (fun id => owns c.config id t) &&
        c.org.attempts.get a.attemptId = some taskId && t.artifacts.length < 100 &&
        kinds.contains a.kind then
      { c with world := c.world.become (mover caller.actor) none (c.org.set i (addArtifact a t)) }
    else c

/-- `memory`. -/
def remember (c : Company) (caller : Caller) (body : Str) : Company :=
  match caller.actor.employee? with
  | none => c
  | some id =>
    if c.org.admits caller && decide (body.length ≤ 100000) then
      { c with employeeMemory := c.employeeMemory.set id body }
    else c

/-- `memory_save`. -/
def saveMemory (c : Company) (caller : Caller) (fresh : Str) (memory : Memory) : Company :=
  let owner := caller.actor.employee?.getD memory.employeeId
  if c.org.admitsOperation caller && c.config.isEmployee owner && strip memory.body ≠ [] &&
      decide (memory.body.length ≤ 100000) && (c.memories.get fresh).isNone then
    let entry : Memory := { employeeId := owner, body := memory.body, path := memory.path }
    { c with memories := c.memories.set fresh entry }
  else c

/-- One turn of `memory_check`: what is no longer backed by its source is stale, and is checked
again. -/
def checkMemory (caller : Caller) (fresh : ℕ → Str) (changed : Str → Bool) (c : Company)
    (entry : Str × Memory) : Company :=
  let (key, memory) := entry
  if caller.actor.employee?.any (fun id => memory.employeeId ≠ id) || !changed key then c
  else if memory.recheckTaskId.isSome then
    { c with memories := c.memories.set key { memory with stale := true } }
  else
    let t := recheckTask (fresh c.tasks.length)
      (memory.body ++ text "\nSource: " ++ memory.path) memory.employeeId
    { c.become (c.org.add t) with
      memories := c.memories.set key { memory with stale := true, recheckTaskId := some t.id } }

/-- `memory_check`. -/
def checkMemories (c : Company) (caller : Caller) (fresh : ℕ → Str) (changed : Str → Bool) : Company :=
  if c.org.admitsOperation caller then c.memories.foldl (checkMemory caller fresh changed) c else c

def experimentTask (employee : Option Str) (t : Task) : Task :=
  { t with
    assignee := employee
    approvedRevision := none
    acceptedRevision := none
    reviewRequired := true
    planRevision := t.planRevision + 1
    revision := t.revision + 1 }

def experimentOn (m : Moment) (ids : List Str) (employee : Option Str) (org : Org) (i : ℕ) :
    Except String Org :=
  match org.tasks[i]? with
  | none => .ok org
  | some t =>
    if !ids.contains t.id then .ok org
    else do
      let valid ← validateTask org.config org.tasks (experimentTask employee t)
      let placed ← validateWorkspace m.toHost org.config .user valid
      return org.set i placed

/-- `routing_experiment`, of the user or Rem. -/
def experiment (m : Moment) (c : Company) (ids : List Str) (employee : Option Str) (reason : Str) :
    Except String Company := do
  require (1 ≤ ids.length && ids.length ≤ 10 && ids.Nodup)
    "Choose 1 to 10 unique pending tasks for an experiment"
  let selected := c.tasks.filter (fun t => ids.contains t.id)
  require (selected.length = ids.length &&
      selected.all (fun t => !t.isClaimed && (t.status = .todo || t.status = .backlog)))
    "Routing experiments require pending, unclaimed tasks"
  require (strip reason ≠ []) "Record the experiment's hypothesis"
  let org ← (List.range c.tasks.length).foldlM (experimentOn m ids employee) c.org
  return { c with world := c.world.become .owner none org }

/-- What `authorize_workflow` makes of a task. -/
def launchedTask (authorization : Str) (t : Task) : Task :=
  { t with
    execution := some { kind := some (text "workflow") }
    workflowAuthorization := some authorization
    status := .todo
    reviewRequired := true
    revision := t.revision + 1 }

/-- `authorize_workflow`, of the user; the preview has been checked before. -/
def launch (c : Company) (taskId : Str) (expectedRevision : ℕ) (authorization : Str) :
    Except String Company :=
  match c.org.find taskId with
  | none => .error "Task not found"
  | some (i, t) => do
    require (t.revision = expectedRevision && !t.isClaimed) "Task changed or is running"
    require (t.status ≠ .done && t.status ≠ .cancelled)
      "Reopen the task before authorizing another workflow run"
    validateExecution c.config (launchedTask authorization t)
    return { c with world := c.world.become .owner none (c.org.set i (launchedTask authorization t)) }

def heartbeatResume (m : Moment) (c : Company) (actor : Actor) (employee : Str) : Company :=
  if actor.employee?.isSome || !c.config.isEmployee employee then c
  else { c with
    world := c.world.heartbeatResume m.now actor employee
    heartbeats := c.heartbeats.set employee m.now }

def unclaimed (c : Company) : List Str :=
  (c.active.map (·.1)).filter (fun run => !c.tasks.any (fun t => t.claim = some run))

/-- `configure` and `restore`, which signal the runs that have lost their tasks, and the changes of
a plan and of the employees' holds, which do not. -/
def configure (m : Moment) (c : Company) (config : OrganizationConfig) (disrupts signals : Bool) :
    Company :=
  if c.archived then c
  else
    let changed := { c with world := c.world.configure m.now config disrupts }
    if signals then changed.signal changed.unclaimed else changed

/-- `secret_reference`. -/
def secret (c : Company) (id : Str) : Company :=
  let affected := c.tasks.filter (fun t => (secretTask c.config id t).claim ≠ t.claim)
  let changed : Company := { c with world := c.world.sweep c.org (secretTask c.config id) }
  changed.signal (affected.filterMap (fun t => t.claim))

def control (m : Moment) (c : Company) (running : Bool) : Company :=
  if running && (c.archived || c.config.projectRoots = []) then c
  else
    let controlled := { c with world := c.world.act m.toHost (m.now, .control running) }
    if running then controlled else controlled.cancelRuns .paused

def archive (c : Company) (archived : Bool) : Company :=
  if c.archived = archived || (archived && (c.org.running || c.tasks.any (·.isClaimed))) then c
  else { c with
    archived := archived
    world := { c.world with org := { c.org with
      generation := if archived then c.org.generation + 1 else c.org.generation } } }

def close (m : Moment) (c : Company) : Company :=
  if c.org.running && !c.archived && !isOpen m c.config.operatingHours m.now &&
      !c.config.operatingHours.finishes then
    c.cancelRuns .hours
  else c

end Company

/-! ### Events -/

inductive Event where
  | call (caller : Caller) (taskId : Str) (call : TaskCall)
  | create (caller : Caller) (fresh : Str) (draft : Task)
  | artifact (caller : Caller) (taskId : Str) (a : Artifact)
  | remember (caller : Caller) (body : Str)
  | saveMemory (caller : Caller) (fresh : Str) (memory : Memory)
  | checkMemories (caller : Caller) (fresh : ℕ → Str) (changed : Str → Bool)
  | saveRoutine (r : Routine) (expectedRevision : Option ℕ)
  | triggerRoutine (fresh routineId occurrence : Str)
  | experiment (ids : List Str) (employee : Option Str) (reason : Str)
  | launch (taskId : Str) (expectedRevision : ℕ) (authorization : Str)
  | heartbeatResume (actor : Actor) (employee : Str)
  | configure (config : OrganizationConfig) (disrupts signals : Bool)
  | secret (id : Str)
  | control (running : Bool)
  | archive (archived : Bool)
  | close
  | dispatch (elsewhere : Elsewhere) (run : Str) (fresh : ℕ → Str)
  | link (run : Str) (workflow : Bool)
  | resolve (run : Str)
  | reconcile (run : Str) (x : Settlement)
  | recordWorktree (run path : Str) (shared : Bool)
  | releaseWorktree (taskId note : Str) (shared : Bool)
  | finish (run : Str) (x : Ending)
  | leave (run : Str)
  | die (run : Str)
  | restart

namespace Company

def settle (c : Company) (x : Except String Company) : Company :=
  match x with
  | .ok c' => c'
  | .error _ => c

def freshIds (c : Company) (fresh : ℕ → Str) (n : ℕ) : List Str :=
  (List.range n).map (fun k => fresh (c.tasks.length + k))

/-- The scheduler looks at the organization. What it has looked at before the transaction may have
changed since, up to the runs in `_active`, of which there are eight at most. -/
def schedule (m : Moment) (c : Company) (elsewhere : Elsewhere) (run : Str) (fresh : ℕ → Str) :
    Company :=
  let ids := c.freshIds fresh (c.routines.length + c.config.employees.length)
  if c.unused (run :: ids) && (c.active.get run).isNone && (c.runs.get run).isNone &&
      decide (elsewhere.count + c.active.length < 8) then
    c.settle ((c.dispatch m elsewhere run fresh).map (·.1))
  else c

def act (c : Company) (step : Moment × Event) : Company :=
  let m := step.1
  match step.2 with
  | .call caller taskId call => c.call m caller taskId call
  | .create caller fresh draft => c.create m caller fresh draft
  | .artifact caller taskId a => c.artifact caller taskId a
  | .remember caller body => c.remember caller body
  | .saveMemory caller fresh memory => c.saveMemory caller fresh memory
  | .checkMemories caller fresh changed =>
    if c.unused (c.freshIds fresh c.memories.length) then c.checkMemories caller fresh changed else c
  | .saveRoutine r expectedRevision => c.settle (c.saveRoutine m r expectedRevision)
  | .triggerRoutine fresh routineId occurrence =>
    if c.unused [fresh] then c.settle (c.triggerRoutine m fresh routineId occurrence) else c
  | .experiment ids employee reason => c.settle (c.experiment m ids employee reason)
  | .launch taskId expectedRevision authorization =>
    c.settle (c.launch taskId expectedRevision authorization)
  | .heartbeatResume actor employee => c.heartbeatResume m actor employee
  | .configure config disrupts signals => c.configure m config disrupts signals
  | .secret id => c.secret id
  | .control running => c.control m running
  | .archive archived => c.archive archived
  | .close => c.close m
  | .dispatch elsewhere run fresh => c.schedule m elsewhere run fresh
  | .link run workflow => c.link run workflow
  | .resolve run => c.resolve run
  | .reconcile run x => c.reconcile run x
  | .recordWorktree run path shared => c.recordWorktree run path shared
  | .releaseWorktree taskId note shared => c.releaseWorktree m taskId note shared
  | .finish run x => c.finish m run x
  | .leave run => c.leave run
  | .die run => c.die run
  | .restart => c.restart m

def run (c : Company) (steps : List (Moment × Event)) : Company := steps.foldl act c

end Company

/-! ### A new organization -/

structure PackageTask where
  id : Str
  title : Str
  description : Str := []
  assignee : Option Str := none
  project : Option Str := none
  recurring : Bool := false
  intervalSeconds : ℕ := 0
  epicId : Option Str := none
  doneWhen : Str := []
  deriving DecidableEq

/-- `Task.model_validate`. -/
def PackageTask.toTask (m : Moment) (p : PackageTask) : Task where
  id := p.id
  title := p.title
  description := p.description
  assignee := p.assignee
  project := p.project
  recurring := p.recurring
  intervalSeconds := p.intervalSeconds
  epicId := p.epicId
  doneWhen := p.doneWhen
  createdAt := m.now

def importTask (config : OrganizationConfig) (tasks : List Task) (i : ℕ) : Except String (List Task) :=
  match tasks[i]? with
  | none => .ok tasks
  | some t => (validateTask config tasks t).map (fun valid => tasks.set i valid)

/-- `create`, with the tasks of a package. -/
def found (m : Moment) (config : OrganizationConfig) (package : List PackageTask) :
    Except String Company := do
  require ((package.map (·.id)).Nodup) "Task slugs must be unique within the company package"
  let tasks ← (List.range package.length).foldlM (importTask config) (package.map (·.toTask m))
  return { world := { org := { config := config, running := false, tasks := tasks } } }

def plainMoment (now : ℚ) : Moment where
  isAbsolute _ := true
  ownsProject _ := true
  resolve root := root
  claimState _ := text "none"
  now := now
  month _ := text "2026-01"
  iso _ := text "2026-01-01T00:00:00+00:00"
  local' _ _ := (0, 0)
  cron _ _ _ := none
  opensAt _ _ := none
  isGit _ := false
  ticketKey t := t.title

end Raticode.Organizations
