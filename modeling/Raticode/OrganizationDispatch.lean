import Mathlib.Data.List.Sort
import Raticode.OrganizationRoutines

/-! Why a task waits, and how the scheduler starts one: `task_reason` and `_dispatch_org`. -/
namespace Raticode.Organizations
open PyDocument OrderedDict Attempt

/-! ### The readiness that is shown -/

/-- `plan_hold`. -/
def planHoldReason (config : OrganizationConfig) (t : Task) : Str :=
  match config.epics.find? (fun e => t.epicId = some e.id) with
  | none => []
  | some epic =>
    if epic.status = .cancelled then
      text "Its epic, " ++ epic.title ++ text ", is cancelled. Move the ticket or reopen the epic."
    else match config.milestones.find? (fun m => epic.milestoneId = some m.id) with
      | none => []
      | some milestone =>
        if milestone.status = .cancelled then
          text "Its milestone, " ++ milestone.title ++
            text ", is cancelled. Move the ticket or reopen the milestone."
        else []

def dependencyReason (m : Moment) (tasks : List Task) (t : Task) : Str :=
  let found := fun id => tasks.find? (fun u => u.id = id)
  let waiting := t.dependsOn.filter (fun d => !(found d).any (fun u => u.status = .done))
  let names := fun ids : List Str => List.intercalate (text ", ") (ids.filterMap (fun d =>
    (found d).map m.ticketKey))
  let cancelled := waiting.filter (fun d => (found d).any (fun u => u.status = .cancelled))
  if waiting = [] then []
  else if waiting.any (fun d => (found d).isNone) then
    text "It depends on a ticket that no longer exists. Remove that dependency."
  else if cancelled ≠ [] then
    text "Waiting for " ++ names cancelled ++ text ", which " ++
      (if cancelled.length = 1 then text "was" else text "were") ++
      text " cancelled. Remove the dependency or reopen it."
  else text "Waiting for " ++ names waiting

/-- `status.replace("_", " ")`. -/
def TaskStatus.words : TaskStatus → Str
  | .backlog => text "backlog"
  | .todo => text "todo"
  | .inProgress => text "in progress"
  | .inReview => text "in review"
  | .blocked => text "blocked"
  | .done => text "done"
  | .cancelled => text "cancelled"

def exhausted (policy : Limits) (account : Account) : Bool :=
  (policy.monthlyTurnLimit ≠ 0 && decide ((policy.monthlyTurnLimit : ℤ) ≤ account.used)) ||
    (policy.monthlyTokenLimit ≠ 0 &&
      (decide (policy.monthlyTokenLimit ≤ account.tokens) || account.unknownTokenTurns ≠ 0)) ||
    (policy.monthlyBudgetUsd ≠ 0 &&
      (decide (policy.monthlyBudgetUsd ≤ account.costUsd) || account.unknownCostTurns ≠ 0))

def exceeds (policy : Limits) (account : Account) (reserved : ℤ) : Bool :=
  policy.monthlyTurnLimit ≠ 0 && decide ((policy.monthlyTurnLimit : ℤ) < account.used + reserved)

def policyReason (name : Str) (policy : Limits) (account : Account) (reserved : ℤ) : Option Str :=
  if policy.monthlyTurnLimit ≠ 0 && decide ((policy.monthlyTurnLimit : ℤ) ≤ account.used) then
    some (text "Monthly turn limit: " ++ name)
  else if exceeds policy account reserved then
    some (text "Waiting for monthly run capacity: " ++ name)
  else if policy.monthlyTokenLimit ≠ 0 && account.unknownTokenTurns ≠ 0 then
    some (text "Token counts unavailable: " ++ name)
  else if policy.monthlyTokenLimit ≠ 0 && policy.monthlyTokenLimit ≤ account.tokens then
    some (text "Monthly token limit: " ++ name)
  else if policy.monthlyBudgetUsd ≠ 0 && account.unknownCostTurns ≠ 0 then
    some (text "Cost coverage unavailable: " ++ name)
  else if policy.monthlyBudgetUsd ≠ 0 && policy.monthlyBudgetUsd ≤ account.costUsd then
    some (text "Monthly budget reached: " ++ name)
  else none

def initiativeLimits (config : OrganizationConfig) (project : Option Str) : Limits :=
  ((config.projects.find? (fun p => project = some p.id)).map (·.limits)).getD {}

def policies (config : OrganizationConfig) (e : Employee) (project : Option Str) : List (Str × Limits) :=
  [(companyAccount, config.limits), (employeeAccount e.id, e.limits),
    (initiativeAccount project, initiativeLimits config project)]

def ready : Str := text "Ready"

def Company.unconfirmed (c : Company) : Bool :=
  c.runs.any (fun p => p.2.isOpen && p.2.status ≠ .running)

def taskReason (m : Moment) (c : Company) (t : Task) : Str :=
  let config := c.config
  if t.status = .done || t.status = .cancelled then t.status.words
  else if t.isClaimed then text "Running"
  else if c.unconfirmed then text "Waiting for delegated execution stop confirmation"
  else if t.status = .inReview then text "Waiting for independent review"
  else if t.approvalRequired && t.approvedRevision.isNone then text "Waiting for plan approval"
  else if dependencyReason m c.tasks t ≠ [] then dependencyReason m c.tasks t
  else if t.status ≠ .todo then if t.blockReason = [] then t.status.words else t.blockReason
  else if planHoldReason config t ≠ [] then planHoldReason config t
  else match config.employees.find? (fun e => t.assignee = some e.id) with
    | none => text "Assign an employee"
    | some e =>
      let root := workspace config t
      let reserved := match reservation config t with
        | .ok n => n
        | .error _ => 1
      if e.paused then text "Employee is held"
      else if t.dueAt.any (fun due => m.now < due) then
        text "Scheduled for " ++ (t.dueAt.map m.iso).getD []
      else if (config.caps.maxTaskTurns : ℤ) ≤ t.turns then text "Task turn limit reached"
      else if root = [] then text "Assign an owned workspace"
      else if e.workspacePaths.any (fun paths => !paths.contains root) then
        text "Workspace is outside employee grants"
      else match (policies config e t.project).findSome? (fun p =>
          policyReason p.1 p.2 (c.account (m.month m.now) p.1) reserved) with
        | some reason => reason
        | none =>
          if c.archived then text "Organization is archived"
          else if !c.org.running then text "Organization is paused"
          else if !isOpen m config.operatingHours m.now then
            text "Off hours until " ++
              (present (m.opensAt config.operatingHours m.now)).getD (text "working hours are set")
          else ready

/-! ### The transaction of the scheduler -/

/-- The runs of the other organizations in `_active`. -/
structure Elsewhere where
  count : ℕ := 0
  rootKeys : List Str := []
  deriving DecidableEq

def rank (now : ℚ) (t : Task) : ℚ :=
  (match t.priority with
    | .critical => 0
    | .high => 1
    | .medium => 2
    | .low => 3) - min 1 ((now - t.createdAt) / 86400)

def goesBefore (now : ℚ) (a b : Task) : Bool :=
  match a.pulledAt, b.pulledAt with
  | some p, some q => p < q || (p = q && decide (rank now a ≤ rank now b))
  | some _, none => true
  | none, some _ => false
  | none, none => decide (rank now a ≤ rank now b)

inductive Verdict where
  | skip
  | block (reason : Str)
  | start (reserved : ℤ) (rootKey : Str)
  deriving DecidableEq

def projectReason : Str := text "Assign an owned Raticode project before retrying"

def grantReason : Str := text "Workspace is outside this employee's grants"

def limitReason : Str := text "Run limit for this task reached. Reopen it to allow more runs."

def authorizationReason : Str := text "Authorize the workflow preview before launch"

def allowanceReason : Str := text "This task's run limit is too small for the runs it reserves"

namespace Company

def available (m : Moment) (c : Company) : List Employee :=
  c.config.employees.filter (fun e =>
    !e.paused && !exhausted e.limits (c.account (m.month m.now) (employeeAccount e.id)))

def rootKeys (c : Company) (elsewhere : Elsewhere) : List Str :=
  c.active.map (fun p => p.2.rootKey) ++ elsewhere.rootKeys

def isolated (m : Moment) (c : Company) (root : Str) : Bool :=
  c.config.workspaceIsolation = .worktree && m.isGit root

def rootKey (m : Moment) (c : Company) (t : Task) : Str :=
  let root := workspace c.config t
  if c.isolated m root then text "task:" ++ t.id else root

def verdictInFolder (m : Moment) (c : Company) (e : Employee) (rootKey : Str) (t : Task) : Verdict :=
  match executionError c.config t, reservation c.config t with
  | some message, _ => .block (text message)
  | none, .error message => .block (text message)
  | none, .ok reserved =>
    let workflow := t.execution.any (fun x => x.kind = some (text "workflow"))
    if workflow && (present t.workflowAuthorization).isNone then .block authorizationReason
    else if (c.config.caps.maxTaskTurns : ℤ) < t.turns + reserved then .block allowanceReason
    else if (policies c.config e t.project).any (fun p =>
        exceeds p.2 (c.account (m.month m.now) p.1) reserved) then .skip
    else .start reserved rootKey

def verdict (m : Moment) (elsewhere : Elsewhere) (c : Company) (t : Task) : Verdict :=
  if t.status ≠ .todo || t.isClaimed then .skip
  else match (c.available m).find? (fun e => t.assignee = some e.id) with
    | none => .skip
    | some e =>
      let initiative := c.account (m.month m.now) (initiativeAccount t.project)
      let root := workspace c.config t
      if t.approvalRequired && t.approvedRevision.isNone then .skip
      else if t.dueAt.any (fun due => m.now < due) then .skip
      else if planHold c.config t then .skip
      else if (c.config.caps.maxTaskTurns : ℤ) ≤ t.turns then .block limitReason
      else if exhausted (initiativeLimits c.config t.project) initiative then .skip
      else if root = [] || !m.ownsProject root then .block projectReason
      else if e.workspacePaths.any (fun paths => !paths.contains root) then .block grantReason
      else if (c.rootKeys elsewhere).contains (c.rootKey m t) ||
          c.tasks.any (fun u => u.isClaimed && u.assignee = t.assignee) then .skip
      else c.verdictInFolder m e (c.rootKey m t) t

def chosen (m : Moment) (c : Company) (reserved : ℤ) (rootKey : Str) (t : Task) : Worker where
  taskId := t.id
  employeeId := t.assignee.getD []
  initiativeId := t.project
  month := m.month m.now
  reserved := reserved
  delegated := t.execution.any (fun x => x ≠ {})
  workflow := t.execution.any (fun x => x.kind = some (text "workflow"))
  workingRoot := workspace c.config t
  isolated := c.isolated m (workspace c.config t)
  rootKey := rootKey
  maxConcurrency := c.config.caps.maxConcurrency

/-- The run of a task that the scheduler starts, as its attempt and in `_active`. -/
def startRun (m : Moment) (c : Company) (i : ℕ) (run : Str) (reserved : ℤ) (rootKey : Str)
    (t : Task) : Company :=
  let month := m.month m.now
  let record : RunRecord := {
    employeeId := t.assignee.getD []
    initiativeId := t.project
    reservedTurns := reserved
    reservationMonth := month }
  let org := { c.org.set i (claimTask run reserved t) with attempts := c.org.attempts.set run t.id }
  let charged := (c.become org).charge month record.accounts (fun a =>
    { a with turns := some (a.used + reserved) })
  { charged with
    runs := c.runs.set run record
    active := c.active.set run (c.chosen m reserved rootKey t) }

def startFirst (m : Moment) (elsewhere : Elsewhere) (run : Str) :
    List ℕ → Company → Company × Option ℕ
  | [], c => (c, none)
  | i :: rest, c => match c.tasks[i]? with
    | none => startFirst m elsewhere run rest c
    | some t => match c.verdict m elsewhere t with
      | .skip => startFirst m elsewhere run rest c
      | .block reason =>
        startFirst m elsewhere run rest (c.become (c.org.set i (blockTask m.now reason t)))
      | .start reserved rootKey => (c.startRun m i run reserved rootKey t, some i)

def reapTask (c : Company) (now : ℚ) (t : Task) : Task :=
  if t.claim.any (fun run => !c.works run) then blockTask now stoppedReason { t with claim := none }
  else t

def deadRuns (c : Company) : List Str :=
  c.tasks.filterMap (fun t => t.claim.filter (fun run => !c.works run))

def reap (c : Company) (now : ℚ) : Company :=
  let dead := c.deadRuns
  let interrupted := dead.foldl (fun d run => d.record run (fun r => { r with status := .interrupted }))
    (c.become (c.org.map (c.reapTask now)))
  { interrupted with active := c.active.filter (fun p => !dead.contains p.1) }

def beat (m : Moment) (fresh : ℕ → Str) (c : Company) (e : Employee) : Company :=
  let due := (c.heartbeats.get e.id).all (fun last => last ≤ m.now)
  if e.heartbeatSeconds ≠ 0 && due then
    let idle := !c.tasks.any (fun t =>
      t.assignee = some e.id && t.status = .todo && taskReason m c t = ready)
    { c with
      world := c.world.heartbeat m.now (fresh c.tasks.length) e.id idle
      heartbeats := c.heartbeats.set e.id (m.now + e.heartbeatSeconds) }
  else c

def queue (m : Moment) (c : Company) : List ℕ :=
  (c.tasks.zipIdx.insertionSort (fun a b => goesBefore m.now a.1 b.1 = true)).map (·.2)

def unblock (c : Company) : Company := { c with world := c.world.unblock }

def opens (m : Moment) (c : Company) : Bool :=
  c.org.running && isOpen m c.config.operatingHours m.now &&
    decide (c.active.length < c.config.caps.maxConcurrency)

/-- `_dispatch_org.claim`: the organization after the transaction, and the position of the task that
it has started. -/
def dispatch (m : Moment) (elsewhere : Elsewhere) (run : Str) (fresh : ℕ → Str) (c : Company) :
    Except String (Company × Option ℕ) := do
  let c := c.unblock.reap m.now
  if !c.opens m then return (c, none)
  let c ← c.scheduleRoutines m fresh
  let c := c.unblock
  if exhausted c.config.limits (c.account (m.month m.now) companyAccount) then
    return (c.become { c.org with running := false }, none)
  let c := (c.available m).foldl (beat m fresh) c
  return startFirst m elsewhere run (c.queue m) c

end Company

end Raticode.Organizations
