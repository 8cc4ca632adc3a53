import Raticode.Attempt
import Raticode.OrganizationConfig

/-! The tasks of an organization, and the rules a changed task is checked against:
`gofer.ui.organization_store.Task`, `validate_task` and the checks of `gofer.ui.organizations`. -/
namespace Raticode.Organizations
open PyDocument OrderedDict Attempt

inductive TaskStatus where
  | backlog | todo | inProgress | inReview | blocked | done | cancelled
  deriving DecidableEq, Repr

inductive Priority where
  | critical | high | medium | low
  deriving DecidableEq, Repr

inductive Actor where
  | user | rem
  | employee (id : Str)
  deriving DecidableEq

/-- `employee_id`. -/
def Actor.employee? : Actor → Option Str
  | .employee id => some id
  | _ => none

structure Comment where
  actor : Option Actor
  at' : ℚ
  body : Str
  decision : Option Str := none
  deriving DecidableEq

structure Artifact where
  id : Str
  path : Str
  sha256 : Str
  attemptId : Str
  kind : Str
  at' : ℚ
  author : Actor
  check : Option Str
  deriving DecidableEq

/-- `workflowContract`, where it is no empty dictionary; `turnLimit` is `none` where it is
no integer. -/
structure Contract where
  turnLimit : Option ℤ := some 1
  rest : Str := []
  deriving DecidableEq

/-- `execution`: its two known members, and whether it has others. -/
structure Execution where
  kind : Option Str := none
  targetId : Option Str := none
  others : Bool := false
  deriving DecidableEq

structure Task where
  id : Str
  title : Str
  description : Str := []
  assignee : Option Str := none
  project : Option Str := none
  parentId : Option Str := none
  goal : Str := []
  status : TaskStatus := .todo
  priority : Priority := .medium
  recurring : Bool := false
  intervalSeconds : ℕ := 0
  dueAt : Option ℚ := none
  evidence : Str := []
  revision : ℕ := 1
  comments : List Comment := []
  turns : ℤ := 0
  claim : Option Str := none
  approvalRequired : Bool := false
  approvedRevision : Option ℕ := none
  workspacePath : Option Str := none
  goalId : Option Str := none
  dependsOn : List Str := []
  blockReason : Str := []
  reviewer : Option Str := none
  reviewRequired : Bool := false
  acceptedRevision : Option ℕ := none
  planRevision : ℕ := 1
  cancellation : Option Str := none
  parentRunId : Option Str := none
  artifacts : List Artifact := []
  workflowContract : Option Contract := none
  execution : Option Execution := none
  workflowAuthorization : Option Str := none
  reviewRequestedAt : Option ℚ := none
  acceptedAt : Option ℚ := none
  heartbeat : Bool := false
  pulledAt : Option ℚ := none
  epicId : Option Str := none
  doneWhen : Str := []
  knowledge : List Str := []
  createdAt : ℚ := 0
  routineId : Option Str := none
  occurrenceId : Option Str := none
  worktree : Option Str := none
  sharedWorktree : Option Str := none
  deriving DecidableEq

/-- `task["claim"]` is set. -/
def Task.isClaimed (t : Task) : Bool := t.claim.isSome

structure Host where
  isAbsolute : Str → Bool
  ownsProject : Str → Bool
  resolve : Str → Str
  /-- `claim_state(org, claim)["state"]`, of the claim with this identifier. -/
  claimState : Str → Str

def present (w : Option Str) : Option Str := w.filter (· ≠ [])

def strip (w : Str) : Str := Scan.trim (fun n => PyText.isSpace (Char.ofNat n)) w

def words (w : Str) : String := String.ofList (w.map Char.ofNat)

/-- What `employee_may_unblock` reads of a task. -/
def mayLift (reason : Str) : Bool :=
  reason = [] || reason = text "dependencies" ||
    ((text "Blocked by ").isPrefixOf reason &&
      !((text "Blocked by you").isPrefixOf reason || (text "Blocked by Rem").isPrefixOf reason))

def employeeMayUnblock (t : Task) : Bool := mayLift t.blockReason

def heartbeatTitle : Str := text "Heartbeat: review assignments"

def isHeartbeat (t : Task) : Bool := t.heartbeat || t.title = heartbeatTitle

/-- `TASK_EDIT_FIELDS`. -/
inductive TaskField where
  | title | description | assignee | project | parentId | goal | priority | status | evidence
  | dueAt | recurring | intervalSeconds | approvalRequired | workspacePath | dependsOn | blockReason
  | reviewRequired | reviewer | goalId | artifacts | workflowContract | execution | epicId | doneWhen
  | knowledge
  deriving DecidableEq, Repr

def TaskField.all : List TaskField :=
  [.title, .description, .assignee, .project, .parentId, .goal, .priority, .status, .evidence,
    .dueAt, .recurring, .intervalSeconds, .approvalRequired, .workspacePath, .dependsOn,
    .blockReason, .reviewRequired, .reviewer, .goalId, .artifacts, .workflowContract, .execution,
    .epicId, .doneWhen, .knowledge]

/-- The `changes` of `task_update`: a value for each field that it sets. -/
structure Changes where
  title : Option Str := none
  description : Option Str := none
  assignee : Option (Option Str) := none
  project : Option (Option Str) := none
  parentId : Option (Option Str) := none
  goal : Option Str := none
  priority : Option Priority := none
  status : Option TaskStatus := none
  evidence : Option Str := none
  dueAt : Option (Option ℚ) := none
  recurring : Option Bool := none
  intervalSeconds : Option ℕ := none
  approvalRequired : Option Bool := none
  workspacePath : Option (Option Str) := none
  dependsOn : Option (List Str) := none
  blockReason : Option Str := none
  reviewRequired : Option Bool := none
  reviewer : Option (Option Str) := none
  goalId : Option (Option Str) := none
  artifacts : Option (List Artifact) := none
  workflowContract : Option (Option Contract) := none
  execution : Option (Option Execution) := none
  epicId : Option (Option Str) := none
  doneWhen : Option Str := none
  knowledge : Option (List Str) := none
  deriving DecidableEq

namespace Changes

/-- `key in changes`. -/
def has (c : Changes) : TaskField → Bool
  | .title => c.title.isSome
  | .description => c.description.isSome
  | .assignee => c.assignee.isSome
  | .project => c.project.isSome
  | .parentId => c.parentId.isSome
  | .goal => c.goal.isSome
  | .priority => c.priority.isSome
  | .status => c.status.isSome
  | .evidence => c.evidence.isSome
  | .dueAt => c.dueAt.isSome
  | .recurring => c.recurring.isSome
  | .intervalSeconds => c.intervalSeconds.isSome
  | .approvalRequired => c.approvalRequired.isSome
  | .workspacePath => c.workspacePath.isSome
  | .dependsOn => c.dependsOn.isSome
  | .blockReason => c.blockReason.isSome
  | .reviewRequired => c.reviewRequired.isSome
  | .reviewer => c.reviewer.isSome
  | .goalId => c.goalId.isSome
  | .artifacts => c.artifacts.isSome
  | .workflowContract => c.workflowContract.isSome
  | .execution => c.execution.isSome
  | .epicId => c.epicId.isSome
  | .doneWhen => c.doneWhen.isSome
  | .knowledge => c.knowledge.isSome

/-- `set(changes) - fields` is not empty. -/
def beyond (c : Changes) (fields : List TaskField) : Bool :=
  TaskField.all.any (fun f => c.has f && !fields.contains f)

def differing (c : Changes) (t : Task) : Changes where
  title := c.title.filter (· ≠ t.title)
  description := c.description.filter (· ≠ t.description)
  assignee := c.assignee.filter (· ≠ t.assignee)
  project := c.project.filter (· ≠ t.project)
  parentId := c.parentId.filter (· ≠ t.parentId)
  goal := c.goal.filter (· ≠ t.goal)
  priority := c.priority.filter (· ≠ t.priority)
  status := c.status.filter (· ≠ t.status)
  evidence := c.evidence.filter (· ≠ t.evidence)
  dueAt := c.dueAt.filter (· ≠ t.dueAt)
  recurring := c.recurring.filter (· ≠ t.recurring)
  intervalSeconds := c.intervalSeconds.filter (· ≠ t.intervalSeconds)
  approvalRequired := c.approvalRequired.filter (· ≠ t.approvalRequired)
  workspacePath := c.workspacePath.filter (· ≠ t.workspacePath)
  dependsOn := c.dependsOn.filter (· ≠ t.dependsOn)
  blockReason := c.blockReason.filter (· ≠ t.blockReason)
  reviewRequired := c.reviewRequired.filter (· ≠ t.reviewRequired)
  reviewer := c.reviewer.filter (· ≠ t.reviewer)
  goalId := c.goalId.filter (· ≠ t.goalId)
  artifacts := c.artifacts.filter (· ≠ t.artifacts)
  workflowContract := c.workflowContract.filter (· ≠ t.workflowContract)
  execution := c.execution.filter (· ≠ t.execution)
  epicId := c.epicId.filter (· ≠ t.epicId)
  doneWhen := c.doneWhen.filter (· ≠ t.doneWhen)
  knowledge := c.knowledge.filter (· ≠ t.knowledge)

/-- `{**task, **changes}`. -/
def apply (c : Changes) (t : Task) : Task :=
  { t with
    title := c.title.getD t.title
    description := c.description.getD t.description
    assignee := c.assignee.getD t.assignee
    project := c.project.getD t.project
    parentId := c.parentId.getD t.parentId
    goal := c.goal.getD t.goal
    priority := c.priority.getD t.priority
    status := c.status.getD t.status
    evidence := c.evidence.getD t.evidence
    dueAt := c.dueAt.getD t.dueAt
    recurring := c.recurring.getD t.recurring
    intervalSeconds := c.intervalSeconds.getD t.intervalSeconds
    approvalRequired := c.approvalRequired.getD t.approvalRequired
    workspacePath := c.workspacePath.getD t.workspacePath
    dependsOn := c.dependsOn.getD t.dependsOn
    blockReason := c.blockReason.getD t.blockReason
    reviewRequired := c.reviewRequired.getD t.reviewRequired
    reviewer := c.reviewer.getD t.reviewer
    goalId := c.goalId.getD t.goalId
    artifacts := c.artifacts.getD t.artifacts
    workflowContract := c.workflowContract.getD t.workflowContract
    execution := c.execution.getD t.execution
    epicId := c.epicId.getD t.epicId
    doneWhen := c.doneWhen.getD t.doneWhen
    knowledge := c.knowledge.getD t.knowledge }

theorem has_eq_false {c : Changes} {fields : List TaskField} (h : c.beyond fields = false)
    {f : TaskField} (hf : f ∉ fields) : c.has f = false := by
  have hall : f ∈ TaskField.all := by cases f <;> decide
  have hone := List.any_eq_false.mp h f hall
  simpa [hf] using hone

end Changes

/-- `reports.get(owner)`, from an owner up to the top; reporting lines have no cycle. -/
def ownsFrom (config : OrganizationConfig) (employee : Str) : ℕ → Option Str → Bool
  | 0, _ => false
  | fuel + 1, owner => match present owner with
    | none => false
    | some o => o = employee ||
      ownsFrom config employee fuel ((config.employee? o).bind (·.reportsTo))

def owns (config : OrganizationConfig) (employee : Str) (t : Task) : Bool :=
  ownsFrom config employee (config.employees.length + 2) t.assignee

def TicketAction.verb : TicketAction → String
  | .create => "create"
  | .edit => "edit"
  | .move => "change the status of"
  | .cancel => "cancel"

/-- The message of `_ticket_access`. -/
def ticketRefusal (config : OrganizationConfig) (actor : Actor) (project : Option Str)
    (action : TicketAction) : String :=
  let id := actor.employee?.getD []
  let name := ((config.employee? id).map (·.name)).getD id
  let place := (config.projects.find? (fun p => project = some p.id)).map (fun p =>
    (present p.name).getD p.id)
  words name ++ " can't " ++ action.verb ++ " tickets " ++
    (place.map (fun p => "in " ++ words p)).getD "outside a project" ++
    ". The user can change this in the worker's ticket permissions."

/-- `_ticket_access` refuses nothing. -/
def ticketAccess (config : OrganizationConfig) (actor : Actor) (project : Option Str)
    (action : TicketAction) : Bool :=
  actor.employee?.all (fun id =>
    (config.employee? id).any (fun e => ticketAllowed e project action))

def takesUnassigned (t : Task) (c : Changes) (id : Str) : Bool :=
  (present t.assignee).isNone && c.assignee = some (some id) && !c.beyond [.assignee, .status]

def minHeartbeatSeconds : ℕ := 900

def recurringWidened (before : Option Task) (after : Task) : Bool :=
  (after.recurring && after.intervalSeconds ≠ 0) &&
    match before with
    | none => true
    | some b => !(b.recurring && b.intervalSeconds ≠ 0) ||
      decide (after.intervalSeconds < b.intervalSeconds)

def checkRecurring (before : Option Task) (after : Task) (actor : Actor) : Except String Unit :=
  let changed := match before with
    | none => true
    | some b => b.recurring ≠ after.recurring || b.intervalSeconds ≠ after.intervalSeconds
  if !changed || !after.recurring then .ok ()
  else if actor.employee?.isSome then
    .error "Workers can't schedule recurring work. Ask the user or Rem to set up a routine."
  else if after.intervalSeconds ≠ 0 && after.intervalSeconds < minHeartbeatSeconds then
    .error "Recurring work must be at least 15 minutes (900 seconds) apart"
  else .ok ()

/-- `_validate_workspace`: the task with its folder resolved. -/
def validateWorkspace (h : Host) (config : OrganizationConfig) (actor : Actor) (t : Task) :
    Except String Task :=
  match present t.workspacePath with
  | none => .ok t
  | some root =>
    if !h.isAbsolute root || !h.ownsProject root then
      .error "Task workspace must be owned by this organization"
    else if ([actor.employee?, t.assignee].filterMap (fun x => x)).all (fun id =>
        match config.employee? id with
        | some e => e.workspacePaths.all (·.contains root)
        | none => false) then
      .ok { t with workspacePath := some (h.resolve root) }
    else .error "Task workspace is outside employee grants"

def targetFor (config : OrganizationConfig) (t : Task) : Except String ExecutionTarget :=
  match config.executionTargets.find? (fun x => (t.execution.bind (·.targetId)) = some x.id) with
  | some x =>
    if t.assignee.any x.employees.contains then .ok x
    else .error "Execution target is missing or outside employee grants"
  | none => .error "Execution target is missing or outside employee grants"

def reservation (config : OrganizationConfig) (t : Task) : Except String ℤ :=
  match t.execution with
  | none => .ok 1
  | some spec =>
    if spec = {} then .ok 1
    else if spec.kind = some (text "workflow") then
      match (t.workflowContract.getD {}).turnLimit with
      | some n =>
        if 1 ≤ n && n ≤ 1000 then .ok n
        else .error "Workflow turnLimit must be between 1 and 1000"
      | none => .error "Workflow turnLimit must be between 1 and 1000"
    else (targetFor config t).map (fun x => (x.turnLimit : ℤ))

def validateExecution (config : OrganizationConfig) (t : Task) : Except String Unit :=
  match t.execution with
  | none => .ok ()
  | some spec => do
    if spec.kind = some (text "workflow") then
      require (spec.targetId.isNone && !spec.others && t.workflowContract.isSome)
        "Workflow execution requires a contract"
    else do
      require (spec.targetId.isSome && spec.kind.isNone && !spec.others)
        "Execution must name an owner-granted targetId"
      let _ ← targetFor config t
    let employee := t.assignee.bind config.employee?
    require employee.isSome "Unknown employee"
    require (employee.all (fun e =>
        e.permissionMode ≠ text "read-only" && e.permissionMode ≠ text "plan"))
      "Read-only employees cannot launch delegated execution"
    let _ ← reservation config t

def dependencies (t : Task) (tasks : List Task) : Dict Str (List Str) :=
  let graph : Dict Str (List Str) := tasks.foldl (fun d u => Dict.set d u.id u.dependsOn) []
  graph.set t.id t.dependsOn

/-- The walk over the dependencies: `true` where it meets an unknown one or a cycle. Each task
is entered once, so that the steps are bounded by the entries of the graph. -/
def cycles (graph : Dict Str (List Str)) :
    ℕ → List (Str × Bool) → List Str → List Str → Bool
  | 0, _, _, _ => true
  | _ + 1, [], _, _ => false
  | fuel + 1, (id, true) :: pending, visiting, visited =>
    cycles graph fuel pending (visiting.filter (· ≠ id)) (id :: visited)
  | fuel + 1, (id, false) :: pending, visiting, visited =>
    if visited.contains id then cycles graph fuel pending visiting visited
    else match graph.get id with
      | none => true
      | some next =>
        if visiting.contains id then true
        else cycles graph fuel
          (next.reverse.map (fun d => (d, false)) ++ (id, true) :: pending) (id :: visiting) visited

/-- The walk up the parents: `true` where it meets an unknown one or comes back. -/
def parentCycles (parents : Dict Str (Option Str)) : ℕ → List Str → Option Str → Bool
  | 0, _, parent => (present parent).isSome
  | fuel + 1, seen, parent => match present parent with
    | none => false
    | some p =>
      if seen.contains p then true
      else match parents.get p with
        | none => true
        | some next => parentCycles parents fuel (p :: seen) next

def finished (tasks : List Task) : List Str :=
  (tasks.filter (fun t => t.status = .done && !t.isClaimed)).map (·.id)

def inEpic (config : OrganizationConfig) (t : Task) : Except String Task :=
  match present t.epicId with
  | none => .ok t
  | some epicId => match config.epics.find? (fun e => e.id = epicId) with
    | none => .error "Unknown epic"
    | some epic =>
      if t.project = none || t.project = epic.projectId then
        .ok { t with project := epic.projectId }
      else .error "A ticket's project must match its epic's project"

/-- `validate_task`: the task, in the project of its epic. -/
def validateTask (config : OrganizationConfig) (tasks : List Task) (t : Task) :
    Except String Task := do
  let runs := t.status = .inProgress || t.status = .done
  require (!(t.approvalRequired && runs && t.approvedRevision.isNone))
    "This task needs approval of its current plan"
  require (!(t.reviewRequired && t.status = .done && t.acceptedRevision.isNone))
    "An independent reviewer must accept this result"
  require ((present t.reviewer).all (fun r => t.assignee ≠ some r && config.isEmployee r))
    "Reviewer must be a different, existing employee"
  require ((present t.goalId).all config.goalRecords.contains) "Unknown goal"
  let t ← inEpic config t
  let graph := dependencies t tasks
  let steps := 2 + (graph.map (fun p => p.2.length + 1)).sum
  require (!cycles graph steps [(t.id, false)] [] []) "Unknown dependency or dependency cycle"
  require (!runs || t.dependsOn.all (finished tasks).contains)
    "Dependencies must finish before this task can run or complete"
  require (t.status ≠ .done || strip t.evidence ≠ []) "Completed tasks need evidence"
  require ((present t.assignee).all config.isEmployee) "Unknown employee"
  require ((present t.project).all (fun p => config.projects.any (fun x => x.id = p)))
    "Unknown organization initiative"
  let parents : Dict Str (Option Str) := tasks.foldl (fun d u => Dict.set d u.id u.parentId) []
  require (!parentCycles parents (tasks.length + 1) [t.id] t.parentId)
    "Unknown parent task or task cycle"
  require (!(t.recurring && t.intervalSeconds ≠ 0 && t.intervalSeconds < 60))
    "Recurring intervals must be at least 60 seconds"
  return t

theorem validateWorkspace_ok {h : Host} {config : OrganizationConfig} {actor : Actor} {t t' : Task}
    (hok : validateWorkspace h config actor t = .ok t') :
    ∃ path, t' = { t with workspacePath := path } := by
  simp only [validateWorkspace] at hok
  split at hok
  · cases hok
    exact ⟨t.workspacePath, rfl⟩
  · split_ifs at hok
    cases hok
    exact ⟨_, rfl⟩

theorem inEpic_ok {config : OrganizationConfig} {t t' : Task} (hok : inEpic config t = .ok t') :
    ∃ project, t' = { t with project := project } := by
  simp only [inEpic] at hok
  split at hok
  · cases hok
    exact ⟨t.project, rfl⟩
  · split at hok
    · contradiction
    · split_ifs at hok
      cases hok
      exact ⟨_, rfl⟩

theorem validateTask_ok {config : OrganizationConfig} {tasks : List Task} {t t' : Task}
    (hok : validateTask config tasks t = .ok t') :
    (∃ project, t' = { t with project := project }) ∧
      (t.reviewRequired = true → t.status = .done → t.acceptedRevision.isSome) := by
  simp only [validateTask, require_bind] at hok
  obtain ⟨-, haccepted, -, -, hok⟩ := hok
  obtain ⟨u, hu, hok⟩ := bind_ok hok
  simp only [require_bind] at hok
  obtain ⟨-, -, -, -, -, -, -, hok⟩ := hok
  cases hok
  refine ⟨inEpic_ok hu, fun hreview hdone => ?_⟩
  simpa [hreview, hdone, Option.isNone_iff_eq_none, Option.isSome_iff_ne_none] using haccepted

/-- `plan_hold` names a reason. -/
def planHold (config : OrganizationConfig) (t : Task) : Bool :=
  match config.epics.find? (fun e => t.epicId = some e.id) with
  | none => false
  | some epic => epic.status = .cancelled ||
    (config.milestones.find? (fun m => epic.milestoneId = some m.id)).any (·.status = .cancelled)

end Raticode.Organizations
