import Raticode.OrganizationTasks

/-! `gofer.ui.organizations`: the calls of the user, Rem and the workers that change a task, and
what Raticode does to the tasks by itself. -/
namespace Raticode.Organizations
open PyDocument OrderedDict Attempt

structure WorkClaim where
  id : Str
  taskId : Str
  text : Str
  superseded : Bool := false
  deriving DecidableEq

structure Occurrence where
  taskId : Str
  at' : ℚ
  evidence : Str
  artifacts : List Artifact
  acceptedRevision : Option ℕ
  deriving DecidableEq

structure Org where
  config : OrganizationConfig := {}
  running : Bool := true
  generation : ℕ := 0
  tasks : List Task := []
  attempts : Dict Str Str := []
  occurrences : Dict Str Occurrence := []
  claims : List WorkClaim := []
  heartbeatFailures : Dict Str ℕ := []
  deriving DecidableEq

structure Caller where
  actor : Actor
  generation : ℕ := 0
  runId : Option Str := none
  deriving DecidableEq

namespace Org

def set (org : Org) (i : ℕ) (t : Task) : Org := { org with tasks := org.tasks.set i t }

def add (org : Org) (t : Task) : Org := { org with tasks := org.tasks ++ [t] }

def map (org : Org) (f : Task → Task) : Org := { org with tasks := org.tasks.map f }

def admits (org : Org) (caller : Caller) : Bool :=
  (caller.actor.employee?.isNone || (org.generation = caller.generation && org.running)) &&
    caller.runId.all (fun run => org.tasks.any (fun t => t.claim = some run))

end Org

def blockerName (config : OrganizationConfig) : Actor → Str
  | .user => text "you"
  | .rem => text "Rem"
  | .employee id => ((config.employee? id).map (·.name)).getD id

def moverName (config : OrganizationConfig) : Actor → Str
  | .user => text "You"
  | actor => blockerName config actor

def blockedBy (who : Str) : Str := text "Blocked by " ++ who ++ text "; see the conversation"

/-- The labels of `acceptance_evidence`. -/
def stateLabels : Dict Str Str :=
  [(text "ok", text "verified"), (text "warn", text "source changed"), (text "bad", text "failed"),
    (text "none", text "no evidence"), (text "queued", text "check queued"),
    (text "running", text "checking"), (text "unverified", text "not rerun")]

def acceptanceEvidence (h : Host) (claims : List WorkClaim) (t : Task) (note : Str) : Str :=
  let of := claims.filter (fun c => c.taskId = t.id && !c.superseded)
  let lines := of.map (fun c =>
    let state := h.claimState c.id
    text "- " ++ c.text ++ text " (" ++ (stateLabels.get state).getD state ++ text ")")
  (List.intercalate (text "\n") ((text "Accepted after review: " ++ strip note) :: lines)).take 100000

def supersedeClaims (claims : List WorkClaim) (taskId : Str) : List WorkClaim :=
  claims.map (fun c => if c.taskId = taskId then { c with superseded := true } else c)

inductive Decision where
  | accept | revise | reject
  deriving DecidableEq, Repr

def Decision.word : Decision → Str
  | .accept => text "accept"
  | .revise => text "revise"
  | .reject => text "reject"

def Decision.status : Decision → TaskStatus
  | .accept => .done
  | .revise => .todo
  | .reject => .blocked

inductive TaskCall where
  | comment (body : Str) (unblock : Bool)
  | approve (expectedRevision : ℕ)
  | review (expectedRevision : ℕ) (decision : Decision) (body : Str)
  | reopen (expectedRevision : ℕ) (changes : Changes)
  | update (expectedRevision : ℕ) (changes : Changes)
  deriving DecidableEq

variable (h : Host) (now : ℚ)

def Task.withComment (t : Task) (actor : Option Actor) (body : Str) (decision : Option Str := none) : Task :=
  { t with comments := t.comments ++ [{ actor, at' := now, body, decision }] }

/-- `comment`, which may unblock. -/
def commentTask (config : OrganizationConfig) (actor : Actor) (body : Str) (unblock : Bool) (t : Task) :
    Except String Task := do
  require (strip body ≠ [] && body.length ≤ 100000)
    "Supply a comment between 1 and 100000 characters"
  let commented := t.withComment now (some actor) body
  if unblock then
    require (actor.employee?.all (fun id => owns config id t))
      "Only an owner or manager may unblock work"
    require (ticketAccess config actor t.project .move) (ticketRefusal config actor t.project .move)
    require (actor.employee?.isNone || employeeMayUnblock t)
      "Raticode, the user or Rem blocked this task for review; ask them to reopen it"
    require (t.status = .blocked && !t.isClaimed) "Only stopped blocked work can be unblocked"
    return { commented with status := .todo, blockReason := [], revision := t.revision + 1 }
  else return { commented with revision := t.revision + 1 }

def mayJudge (actor : Actor) (t : Task) : Bool :=
  actor.employee?.all (fun id => t.assignee ≠ some id && t.reviewer = some id)

def mayChange (config : OrganizationConfig) (actor : Actor) (c : Changes) (t : Task) : Bool :=
  actor.employee?.all (fun id => owns config id t || takesUnassigned t c id)

def approveTask (actor : Actor) (expectedRevision : ℕ) (t : Task) : Except String Task := do
  require (t.revision = expectedRevision) "Task changed. Read it before updating."
  require (mayJudge actor t)
    "Only the designated independent reviewer or the user can approve"
  require (t.status ≠ .cancelled) "Cancelled work must be reopened first"
  return { t with approvedRevision := some t.planRevision, revision := t.revision + 1 }

/-- `review`; the other tasks are those at the positions other than `i`. -/
def reviewTask (org : Org) (i : ℕ) (actor : Actor) (expectedRevision : ℕ) (decision : Decision)
    (body : Str) (t : Task) : Except String Task := do
  require (t.revision = expectedRevision) "Task changed. Read it before updating."
  require (mayJudge actor t)
    "Only the designated independent reviewer or the user can approve"
  require (t.status ≠ .cancelled) "Cancelled work must be reopened first"
  require (!t.isClaimed && t.status = .inReview) "Wait for the run to finish before reviewing"
  require (strip body ≠ []) "Review needs a reason"
  let accepts := decision = .accept
  let commented := t.withComment now (some actor) body (some decision.word)
  let reviewed := { commented with
    acceptedAt := if accepts then some now else none
    -- The accepted claims and their checked states become the record.
    evidence := if accepts && strip t.evidence = [] then acceptanceEvidence h org.claims t body
      else t.evidence
    acceptedRevision := if accepts then some t.revision else none
    status := decision.status }
  let valid ← validateTask org.config (org.tasks.set i reviewed) reviewed
  return { valid with revision := t.revision + 1 }

/-- `reopen`. Changes that come with the call count for who may make it, and for nothing else. -/
def reopenTask (config : OrganizationConfig) (actor : Actor) (expectedRevision : ℕ)
    (asked : Changes) (t : Task) : Except String Task := do
  require (t.revision = expectedRevision) "Task changed. Read it before updating."
  require (mayChange config actor asked t) "Only the assignee or their manager can change this task"
  require (!t.isClaimed && (t.status = .done || t.status = .cancelled || t.status = .blocked))
    "Only stopped work can be reopened"
  require (ticketAccess config actor t.project .move) (ticketRefusal config actor t.project .move)
  require (actor.employee?.isNone ||
      !(t.status = .cancelled || (t.status = .blocked && !employeeMayUnblock t)))
    "Only the user or Rem can reopen work that was cancelled or blocked for review"
  return { t with
    status := .todo
    cancellation := none
    blockReason := []
    acceptedRevision := none
    -- Only the user's reopen grants a fresh run allowance.
    turns := if actor = .user && config.caps.maxTaskTurns ≤ t.turns then 0 else t.turns
    revision := t.revision + 1 }

def outputFields : List TaskField := [.status, .evidence, .artifacts, .blockReason]

def candidateOf (config : OrganizationConfig) (actor : Actor) (changes : Changes) (pulled : Bool)
    (t : Task) : Task :=
  let c := changes.apply t
  let replanned := changes.beyond outputFields
  let cancels := changes.status = some .cancelled && t.isClaimed
  { c with
    pulledAt := if pulled then some now else c.pulledAt
    dueAt := if pulled && c.dueAt.any (fun due => now < due) then none else c.dueAt
    approvedRevision := if replanned then none else c.approvedRevision
    workflowAuthorization := if replanned then none else c.workflowAuthorization
    planRevision := if replanned then c.planRevision + 1 else c.planRevision
    acceptedRevision := if changes.beyond [.status, .blockReason] then none else c.acceptedRevision
    reviewRequestedAt := if changes.status = some .inReview then some now else c.reviewRequestedAt
    blockReason :=
      if changes.status = some .blocked && c.blockReason = [] then
        blockedBy (blockerName config actor)
      else if changes.status ≠ none && changes.status ≠ some .blocked &&
          !changes.has .blockReason then []
      else c.blockReason
    claim := if cancels then none else c.claim
    cancellation := if cancels then some (text "requested") else c.cancellation }

def neededActions (changes : Changes) : List TicketAction :=
  (changes.status.map (fun s => if s = .cancelled then TicketAction.cancel else .move)).toList ++
    if changes.beyond outputFields then [.edit] else []

def pulls (changes : Changes) (t : Task) : Bool :=
  changes.status = some .inProgress && !t.isClaimed

def pulledForward (changes : Changes) (t : Task) : Changes :=
  if pulls changes t then { changes with status := some .todo } else changes

def candidate (config : OrganizationConfig) (actor : Actor) (asked : Changes) (t : Task) : Task :=
  let differing := asked.differing t
  candidateOf now config actor (pulledForward differing t) (pulls differing t) t

/-- `task_update`. -/
def updateTask (org : Org) (actor : Actor) (expectedRevision : ℕ) (asked : Changes) (t : Task) :
    Except String Task := do
  let config := org.config
  require (t.revision = expectedRevision) "Task changed. Read it before updating."
  require (mayChange config actor asked t)
    "Only the assignee or their manager can change this task"
  let differing := asked.differing t
  require (actor.employee?.isNone || t.status ≠ .blocked ||
      [none, some .blocked, some .cancelled].contains differing.status || employeeMayUnblock t)
    "Raticode, the user or Rem blocked this task for review; ask them to reopen it"
  require (!(t.isClaimed && differing.beyond [.status, .evidence]))
    "Pause and wait for the turn before editing its plan"
  checkRecurring (some t) (differing.apply t) actor
  require (actor.employee?.isNone ||
      !(differing.has .approvalRequired || differing.has .reviewRequired || differing.has .reviewer))
    "Employees cannot change approval or review policy"
  require (t.status ≠ .cancelled || differing.status.getD .cancelled = .cancelled)
    "Use reopen to retry cancelled work"
  let changes := pulledForward differing t
  let candidate ← validateWorkspace h config actor (candidate now config actor asked t)
  validateExecution config candidate
  let valid ← validateTask config org.tasks candidate
  for where' in [t.project, valid.project] do
    for action in neededActions changes do
      require (ticketAccess config actor where' action) (ticketRefusal config actor where' action)
  let moved := if pulls differing t then
      valid.withComment now none (moverName config actor ++
        text " moved this to In progress. It starts as soon as its worker is free and " ++
        text "working hours allow.")
    else valid
  return { moved with revision := t.revision + 1 }

variable {h now} {org : Org} {config : OrganizationConfig} {i : ℕ} {actor : Actor} {t t' : Task}

theorem commentTask_ok {body : Str} {unblock : Bool}
    (hok : commentTask now config actor body unblock t = .ok t') :
    ∃ comments, t' = { t with comments := comments, revision := t.revision + 1 } ∨
      ((actor.employee?.isSome → employeeMayUnblock t = true) ∧ t.status = .blocked ∧
        t' = { t with
          comments := comments, status := .todo, blockReason := [], revision := t.revision + 1 }) := by
  simp only [commentTask, require_bind] at hok
  refine ⟨(t.withComment now (some actor) body).comments, ?_⟩
  cases unblock with
  | false =>
    left
    obtain ⟨-, hok⟩ := hok
    cases hok
    rfl
  | true =>
    right
    simp only [if_true, require_bind, Bool.and_eq_true, decide_eq_true_eq] at hok
    obtain ⟨-, -, -, hmay, ⟨hblocked, -⟩, hok⟩ := hok
    cases hok
    refine ⟨fun hemployee => ?_, hblocked, rfl⟩
    simpa [Option.isNone_iff_eq_none, Option.isSome_iff_ne_none.mp hemployee] using hmay

theorem approveTask_ok {expectedRevision : ℕ}
    (hok : approveTask actor expectedRevision t = .ok t') :
    t' = { t with approvedRevision := some t.planRevision, revision := t.revision + 1 } := by
  simp only [approveTask, require_bind] at hok
  obtain ⟨-, -, -, hok⟩ := hok
  cases hok
  rfl

theorem reviewTask_ok {expectedRevision : ℕ} {decision : Decision} {body : Str}
    (hok : reviewTask h now org i actor expectedRevision decision body t = .ok t') :
    mayJudge actor t = true ∧ t.isClaimed = false ∧ t.status = .inReview ∧
      ∃ comments acceptedAt evidence project, t' = { t with
        comments := comments
        acceptedAt := acceptedAt
        evidence := evidence
        acceptedRevision := if decision = .accept then some t.revision else none
        status := decision.status
        project := project
        revision := t.revision + 1 } := by
  simp only [reviewTask, require_bind, Bool.and_eq_true, Bool.not_eq_true', decide_eq_true_eq]
    at hok
  obtain ⟨-, hjudge, -, ⟨hclaim, hstatus⟩, -, hok⟩ := hok
  obtain ⟨valid, hvalid, hok⟩ := bind_ok hok
  obtain ⟨project, rfl⟩ := (validateTask_ok hvalid).1
  cases hok
  exact ⟨hjudge, hclaim, hstatus, _, _, _, project, rfl⟩

theorem reopenTask_ok {expectedRevision : ℕ} {asked : Changes}
    (hok : reopenTask config actor expectedRevision asked t = .ok t') :
    (actor.employee?.isSome → t.status = .cancelled → False) ∧
      (actor.employee?.isSome → t.status = .blocked → employeeMayUnblock t = true) ∧
      ∃ turns, t' = { t with
        status := .todo
        cancellation := none
        blockReason := []
        acceptedRevision := none
        turns := turns
        revision := t.revision + 1 } := by
  simp only [reopenTask, require_bind] at hok
  obtain ⟨-, -, -, -, hmay, hok⟩ := hok
  cases hok
  refine ⟨fun hemployee hcancelled => ?_, fun hemployee hblocked => ?_, _, rfl⟩
  · simp [Option.isNone_iff_eq_none, Option.isSome_iff_ne_none.mp hemployee, hcancelled] at hmay
  · simpa [Option.isNone_iff_eq_none, Option.isSome_iff_ne_none.mp hemployee, hblocked] using hmay

theorem updateTask_ok {expectedRevision : ℕ} {asked : Changes}
    (hok : updateTask h now org actor expectedRevision asked t = .ok t') :
    ∃ c, c = candidate now org.config actor asked t ∧
      (actor.employee?.isSome → t.status = .blocked → employeeMayUnblock t = false →
        (asked.differing t).status = none ∨ (asked.differing t).status = some .blocked ∨
          (asked.differing t).status = some .cancelled) ∧
      (t.isClaimed = true → (asked.differing t).beyond [.status, .evidence] = false) ∧
      (c.reviewRequired = true → c.status = .done → c.acceptedRevision.isSome) ∧
      ∃ path project comments, t' = { c with
        workspacePath := path
        project := project
        comments := comments
        revision := t.revision + 1 } := by
  simp only [updateTask, require_bind] at hok
  obtain ⟨-, -, hblock, hclaimed, hok⟩ := hok
  obtain ⟨-, -, hok⟩ := bind_ok hok
  simp only [require_bind] at hok
  obtain ⟨-, -, hok⟩ := hok
  obtain ⟨placed, hplaced, hok⟩ := bind_ok hok
  obtain ⟨-, -, hok⟩ := bind_ok hok
  obtain ⟨valid, hvalid, hok⟩ := bind_ok hok
  obtain ⟨-, -, hok⟩ := bind_ok hok
  obtain ⟨path, rfl⟩ := validateWorkspace_ok hplaced
  obtain ⟨⟨project, rfl⟩, haccepted⟩ := validateTask_ok hvalid
  refine ⟨_, rfl, fun hemployee hblocked hmay => ?_, fun hc => ?_, haccepted, path, project, ?_⟩
  · simpa [Option.isNone_iff_eq_none, Option.isSome_iff_ne_none.mp hemployee, hblocked, hmay]
      using hblock
  · simpa [hc] using hclaimed
  · by_cases hp : pulls (asked.differing t) t = true
    · rw [if_pos hp] at hok
      cases hok
      exact ⟨_, rfl⟩
    · rw [if_neg hp] at hok
      cases hok
      exact ⟨_, rfl⟩

variable (h now)

/-- What a call makes of the task at position `i`. -/
def changeTask (org : Org) (i : ℕ) (actor : Actor) (call : TaskCall) (t : Task) :
    Except String Task :=
  match call with
  | .comment body unblock => commentTask now org.config actor body unblock t
  | .approve expectedRevision => approveTask actor expectedRevision t
  | .review expectedRevision decision body =>
    reviewTask h now org i actor expectedRevision decision body t
  | .reopen expectedRevision changes => reopenTask org.config actor expectedRevision changes t
  | .update expectedRevision changes => updateTask h now org actor expectedRevision changes t

/-- `_consent_reason`, for the calls that change a task: Rem's call waits for the user, whose
approval makes it in the user's name. -/
def consentReason (call : TaskCall) (t : Task) : Option String :=
  let title := "\u201c" ++ words t.title ++ "\u201d"
  match call with
  | .approve _ => some ("Approve the plan for " ++ title)
  | .review _ decision _ =>
    if decision = .accept && t.reviewRequired then some ("Accept the result of " ++ title) else none
  | .update _ changes =>
    if recurringWidened (some t) (changes.apply t) then
      some ("Run " ++ title ++ " on a schedule, or more often")
    else if t.approvalRequired && changes.approvalRequired = some false then
      some ("Remove the approval step from " ++ title)
    else if t.reviewRequired && changes.reviewRequired = some false then
      some ("Remove independent review from " ++ title)
    else none
  | _ => none

def recurs (t : Task) : Bool := t.status = .done && t.recurring && t.intervalSeconds ≠ 0

/-- The key of `_record_occurrence`. -/
def occurrenceKey (t : Task) : Str :=
  (present t.claim).getD (t.id ++ text ":" ++ text (toString t.revision))

def occurrenceOf (t : Task) : Occurrence where
  taskId := t.id
  at' := now
  evidence := t.evidence
  artifacts := t.artifacts
  acceptedRevision := t.acceptedRevision

def Org.recordOccurrence (org : Org) (t : Task) : Org :=
  { org with occurrences := org.occurrences.set (occurrenceKey t) (occurrenceOf now t) }

def nextOccurrence (t : Task) : Task :=
  { t with status := .todo, turns := 0, dueAt := some (now + t.intervalSeconds) }

def restarted (actor : Actor) (t : Task) : Task :=
  nextOccurrence now (t.withComment now (some actor) (text "Completed occurrence: " ++ t.evidence))

/-- The tasks below `parents`, by parent or by the run that made them; each turn adds one. -/
def descend (org : Org) : ℕ → List Str → List Str
  | 0, parents => parents
  | fuel + 1, parents =>
    let parentRuns := (org.attempts.filter (fun a => parents.contains a.2)).map (·.1)
    let children := (org.tasks.filter (fun t =>
      t.parentId.any parents.contains || t.parentRunId.any parentRuns.contains)).map (·.id)
    let fresh := children.filter (fun id => !parents.contains id)
    if fresh = [] then parents else descend org fuel (parents ++ fresh)

def cancelChild (t : Task) : Task :=
  if t.status = .done || t.status = .cancelled then t
  else { t with
    status := .cancelled
    cancellation := some (if t.isClaimed then text "requested" else text "acknowledged")
    claim := none
    revision := t.revision + 1 }

def Org.cascade (org : Org) (id : Str) : Org :=
  let below := (descend org org.tasks.length [id]).filter (· ≠ id)
  org.map (fun t => if below.contains t.id then cancelChild t else t)

/-- What `_unblock` makes of a task, given the finished ones. -/
def unblockTask (done : List Str) (t : Task) : Task :=
  if t.dependsOn ≠ [] && (t.status = .todo || t.status = .blocked) then
    let missing := t.dependsOn.any (fun d => !done.contains d)
    if missing && t.status = .todo then
      { t with status := .blocked, blockReason := text "dependencies", revision := t.revision + 1 }
    else if !missing && t.blockReason = text "dependencies" then
      { t with status := .todo, blockReason := [], revision := t.revision + 1 }
    else t
  else t

def Org.unblock (org : Org) : Org := org.map (unblockTask (finished org.tasks))

def limitDelegation (org : Org) (runId : Option Str) (t : Task) : Except String Unit := do
  let limit := org.config.caps.maxChildTasksPerTurn
  require (runId.all (fun run =>
      (org.tasks.filter (fun u => u.parentRunId = some run)).length < limit))
    s!"This run already created {limit} tasks, the organization's limit per run. Record the remaining ideas in a comment for the owner to schedule."
  let parents : Dict Str (Option Str) := org.tasks.foldl (fun d u => Dict.set d u.id u.parentId) []
  require (depth parents 101 t.parentId ≤ org.config.caps.maxDelegationDepth)
    ("Delegation is nested too deeply for this organization. Finish or report the work " ++
      "instead of delegating it further.")
where
  depth (parents : Dict Str (Option Str)) : ℕ → Option Str → ℕ
  | 0, _ => 0
  | fuel + 1, parent => match present parent with
    | none => 0
    | some p => depth parents fuel ((parents.get p).join) + 1

def Task.created (draft : Task) (fresh : Str) : Task :=
  { draft with
    id := fresh
    revision := 1
    comments := []
    turns := 0
    claim := none
    approvedRevision := none
    acceptedRevision := none
    planRevision := 1
    cancellation := none
    reviewRequestedAt := none
    acceptedAt := none
    workflowAuthorization := none }

def underParent (org : Org) (runId : Option Str) (t : Task) : Task :=
  match org.tasks.find? (fun u => t.parentId = some u.id || (runId.isSome && u.claim = runId)) with
  | none => t
  | some parent =>
    { t with
      parentId := if runId.isSome && (present t.parentId).isNone then some parent.id else t.parentId
      approvalRequired := t.approvalRequired || parent.approvalRequired
      reviewRequired := t.reviewRequired || parent.reviewRequired }

/-- `task_create`. -/
def createTask (org : Org) (caller : Caller) (fresh : Str) (draft : Task) : Except String Task := do
  let actor := caller.actor
  let task := draft.created fresh
  checkRecurring none task actor
  let isEmployee := actor.employee?.isSome
  require (!isEmployee || task.status = .backlog || task.status = .todo)
    "Employees must create pending work"
  let task := if isEmployee then
      underParent org caller.runId { task with parentRunId := caller.runId }
    else task
  if isEmployee then limitDelegation org caller.runId task
  let task ← validateWorkspace h org.config actor task
  validateExecution org.config task
  let task ← validateTask org.config org.tasks task
  require (ticketAccess org.config actor task.project .create)
    (ticketRefusal org.config actor task.project .create)
  return task

theorem underParent_eq (org : Org) (runId : Option Str) (t : Task) :
    ∃ parentId approvalRequired reviewRequired, underParent org runId t = { t with
      parentId := parentId, approvalRequired := approvalRequired, reviewRequired := reviewRequired } := by
  simp only [underParent]
  split
  · exact ⟨t.parentId, t.approvalRequired, t.reviewRequired, rfl⟩
  · exact ⟨_, _, _, rfl⟩

def proposal (org : Org) (caller : Caller) (fresh : Str) (draft : Task) : Task :=
  if caller.actor.employee?.isSome then
    underParent org caller.runId { draft.created fresh with parentRunId := caller.runId }
  else draft.created fresh

theorem proposal_eq (org : Org) (caller : Caller) (fresh : Str) (draft : Task) :
    ∃ parentId approvalRequired reviewRequired parentRunId, proposal org caller fresh draft =
      { draft.created fresh with
        parentId := parentId
        approvalRequired := approvalRequired
        reviewRequired := reviewRequired
        parentRunId := parentRunId } := by
  simp only [proposal]
  split_ifs
  · obtain ⟨parentId, approvalRequired, reviewRequired, hunder⟩ := underParent_eq org caller.runId
      { draft.created fresh with parentRunId := caller.runId }
    exact ⟨parentId, approvalRequired, reviewRequired, caller.runId, hunder⟩
  · exact ⟨_, _, _, _, rfl⟩

theorem createTask_cases {h : Host} {org : Org} {caller : Caller} {fresh : Str} {draft t : Task}
    (hok : createTask h org caller fresh draft = .ok t) :
    (caller.actor.employee?.isSome → draft.status = .backlog ∨ draft.status = .todo) ∧
      ∃ path project,
        t = { proposal org caller fresh draft with workspacePath := path, project := project } ∧
        validateTask org.config org.tasks
          { proposal org caller fresh draft with workspacePath := path } = .ok t := by
  simp only [createTask] at hok
  obtain ⟨-, -, hok⟩ := bind_ok hok
  simp only [require_bind] at hok
  obtain ⟨hpending, hok⟩ := hok
  have hchecked : (do
      let placed ← validateWorkspace h org.config caller.actor (proposal org caller fresh draft)
      validateExecution org.config placed
      let valid ← validateTask org.config org.tasks placed
      require (ticketAccess org.config caller.actor valid.project .create)
        (ticketRefusal org.config caller.actor valid.project .create)
      return valid) = Except.ok t := by
    cases he : caller.actor.employee?.isSome with
    | false =>
      simp only [he, Bool.false_eq_true, if_false] at hok
      simpa only [proposal, he, Bool.false_eq_true, if_false] using hok
    | true =>
      simp only [he, if_true] at hok
      obtain ⟨-, -, hok⟩ := bind_ok hok
      simpa only [proposal, he, if_true] using hok
  obtain ⟨placed, hplaced, hok⟩ := bind_ok hchecked
  obtain ⟨-, -, hok⟩ := bind_ok hok
  obtain ⟨valid, hvalid, hok⟩ := bind_ok hok
  simp only [require_bind] at hok
  obtain ⟨-, hok⟩ := hok
  cases hok
  obtain ⟨path, rfl⟩ := validateWorkspace_ok hplaced
  obtain ⟨⟨project, heq⟩, -⟩ := validateTask_ok hvalid
  refine ⟨fun he => ?_, path, project, heq, hvalid⟩
  simp only [he, Bool.not_true, Bool.false_or, Bool.or_eq_true, decide_eq_true_eq] at hpending
  exact hpending

theorem createTask_ok {h : Host} {org : Org} {caller : Caller} {fresh : Str} {draft t : Task}
    (hok : createTask h org caller fresh draft = .ok t) :
    t.status = draft.status ∧ t.blockReason = draft.blockReason ∧ t.claim = none ∧
      t.acceptedRevision = none ∧ (t.reviewRequired = true → t.status ≠ .done) ∧
      (caller.actor.employee?.isSome → t.status = .backlog ∨ t.status = .todo) := by
  obtain ⟨hpending, path, project, rfl, hvalid⟩ := createTask_cases hok
  obtain ⟨-, hreview⟩ := validateTask_ok hvalid
  obtain ⟨parentId, approvalRequired, reviewRequired, parentRunId, hproposal⟩ :=
    proposal_eq org caller fresh draft
  rw [hproposal] at hreview ⊢
  refine ⟨rfl, rfl, rfl, rfl, fun hr hd => ?_, hpending⟩
  have haccepted := hreview hr hd
  contradiction

def scheduledTask (draft : Task) (fresh : Str) : Task :=
  { draft with
    id := fresh
    claim := none
    comments := []
    turns := 0
    approvedRevision := none
    acceptedRevision := none
    status := .todo }

/-- The task of `memory_check`. -/
def recheckTask (fresh description employee : Str) : Task where
  id := fresh
  title := text "Recheck memory evidence"
  description := description
  assignee := some employee
  status := .backlog

/-- The check-in of `heartbeat_due`. -/
def checkIn (fresh employee : Str) : Task where
  id := fresh
  title := heartbeatTitle
  assignee := some employee
  heartbeat := true
  description := text "Review organization goals and blocked work. Delegate or record the next " ++
    text "useful action."

/-- `_block`. -/
def blockTask (reason : Str) (t : Task) : Task :=
  if t.status = .blocked && t.blockReason = reason then t
  else
    let commented := t.withComment now none reason
    { commented with status := .blocked, blockReason := reason, revision := t.revision + 1 }

inductive Hold where
  | turnLimit | noProject | outsideGrants | refused | unauthorized | tooSmall
  deriving DecidableEq, Repr

/-- The message with which `reservation` or `validate_execution` refuses. -/
def executionError (config : OrganizationConfig) (t : Task) : Option String :=
  match reservation config t, validateExecution config t with
  | .error e, _ => some e
  | .ok _, .error e => some e
  | .ok _, .ok _ => none

def Hold.reason (config : OrganizationConfig) (t : Task) : Hold → Option Str
  | .turnLimit => some (text "Run limit for this task reached. Reopen it to allow more runs.")
  | .noProject => some (text "Assign an owned Raticode project before retrying")
  | .outsideGrants => some (text "Workspace is outside this employee's grants")
  | .refused => (executionError config t).map text
  | .unauthorized => some (text "Authorize the workflow preview before launch")
  | .tooSmall => some (text "This task's run limit is too small for the runs it reserves")

def startable (config : OrganizationConfig) (tasks : List Task) (t : Task) : Bool :=
  t.status = .todo && !t.isClaimed &&
    t.assignee.any (fun a => (config.employee? a).any (fun e => !e.paused)) &&
    !(t.approvalRequired && t.approvedRevision.isNone) && t.dueAt.all (fun due => due ≤ now) &&
    !planHold config t && t.turns < config.caps.maxTaskTurns &&
    !tasks.any (fun u => u.isClaimed && u.assignee = t.assignee)

def claimTask (run : Str) (reserved : ℤ) (t : Task) : Task :=
  { t with
    claim := some run
    status := .inProgress
    turns := t.turns + reserved
    revision := t.revision + 1
    pulledAt := none }

inductive CancelReason where
  | cancelled | paused | hours
  deriving DecidableEq, Repr

structure Outcome where
  turnId : Str
  employeeId : Str
  final : Str := []
  error : Option Str := none
  cancel : Option CancelReason := none
  delegated : Bool := false
  reserved : ℤ := 1
  used : ℤ := 1
  settled : Bool := true
  deriving DecidableEq

namespace Outcome

def paused (o : Outcome) : Bool :=
  (o.cancel = some .paused || o.cancel = some .hours) && !o.delegated

def failed (o : Outcome) : Bool := o.error.isSome || o.cancel.isSome || o.final = []

def blockReason (o : Outcome) : Str :=
  if o.error.isSome then text "The last run failed; see the conversation"
  else if o.cancel.isSome then text "Cancelled before it finished"
  else text "The last run ended without a final response"

def interruption (o : Outcome) : Str :=
  if o.cancel = some .hours then
    text "Working hours ended before this run finished. It runs again when hours resume."
  else
    text "The organization was paused before this run finished. " ++
      text "The task runs again when the organization starts."

def closes (o : Outcome) (t : Task) : Bool :=
  t.claim = some o.turnId && !o.failed && t.status = .inProgress && isHeartbeat t

def finishes (o : Outcome) (t : Task) : Bool :=
  t.claim = some o.turnId && !o.failed && recurs t

end Outcome

def endRun (o : Outcome) (t : Task) : Task :=
  if o.paused && t.status = .inProgress then
    { t.withComment now none o.interruption with
      status := .todo, turns := max 0 (t.turns - o.used) }
  else if o.failed then
    { t.withComment now none
        (o.error.getD (text "Turn ended without a final response; review before retrying")) with
      status := .blocked, blockReason := o.blockReason }
  else if t.status = .inProgress && isHeartbeat t then
    { t with
      status := .done
      evidence := text "Check-in: " ++ o.final.take 4000 }
  else if t.status = .inProgress then
    { t with status := .inReview, reviewRequestedAt := some now }
  else if recurs t then nextOccurrence now t
  else t

def countRun (o : Outcome) (t : Task) : Task :=
  { t with
    turns := t.turns - (o.reserved - o.used)
    cancellation :=
      if t.status = .cancelled && t.cancellation = some (text "requested") then
        some (if o.settled then text "acknowledged" else text "requested")
      else t.cancellation }

def hearRun (o : Outcome) (t : Task) : Task :=
  if o.final = [] then t else t.withComment now (some (.employee o.employeeId)) o.final

/-- `_run.finish`, for the task of the run. -/
def finishTask (o : Outcome) (t : Task) : Task :=
  if t.claim ≠ some o.turnId then countRun o t
  else { endRun now o (hearRun now o (countRun o t)) with claim := none, revision := t.revision + 1 }

theorem hearRun_eq (o : Outcome) (t : Task) :
    ∃ comments, hearRun now o t = { t with comments := comments } := by
  simp only [hearRun]
  split_ifs
  · exact ⟨t.comments, rfl⟩
  · exact ⟨_, rfl⟩

theorem finishTask_cases (o : Outcome) (t : Task) :
    (t.claim ≠ some o.turnId ∧ ∃ turns cancellation,
      finishTask now o t = { t with turns := turns, cancellation := cancellation }) ∨
    (t.claim = some o.turnId ∧ ∃ comments turns cancellation, finishTask now o t =
      { endRun now o { t with comments := comments, turns := turns, cancellation := cancellation } with
        claim := none, revision := t.revision + 1 }) := by
  by_cases hc : t.claim = some o.turnId
  · right
    obtain ⟨comments, he⟩ := hearRun_eq now o (countRun o t)
    refine ⟨hc, comments, (countRun o t).turns, (countRun o t).cancellation, ?_⟩
    rw [finishTask, if_neg (not_not_intro hc), he]
    rfl
  · left
    refine ⟨hc, (countRun o t).turns, (countRun o t).cancellation, ?_⟩
    rw [finishTask, if_pos hc]
    rfl

def interruptedReason : Str := text "Interrupted when Raticode restarted; review it, then reopen"

def stoppedReason : Str := text "Worker stopped unexpectedly; review before retrying"

def orphanedReason : Str :=
  text "Its worker, project, goal or reviewer was removed. Reassign it, then reopen it."

def reconfiguredReason : Str :=
  text "Stopped because the configuration changed while it ran. Review it, then reopen it."

def secretReason : Str := text "Secret reference changed; review before retrying"

/-- What `_recover` makes of a task. -/
def recoverTask (t : Task) : Task :=
  if t.isClaimed then
    { t.withComment now none
        (text "Raticode restarted. Review interrupted work before retrying.") with
      claim := none
      status := .blocked
      blockReason := interruptedReason
      revision := t.revision + 1 }
  else t

def orphaned (config : OrganizationConfig) (t : Task) : Bool :=
  t.status ≠ .done && t.status ≠ .cancelled &&
    ((present t.assignee).any (fun a => !config.isEmployee a) ||
      (present t.project).any (fun p => !config.projects.any (fun x => x.id = p)) ||
      (present t.goalId).any (fun g => !config.goalRecords.contains g) ||
      (present t.reviewer).any (fun r => !config.isEmployee r))

def affected (old new : OrganizationConfig) (id : Str) : Bool :=
  match old.employee? id, new.employee? id with
  | some e, some e' =>
    e.workspacePaths ≠ e'.workspacePaths || e.resources ≠ e'.resources ||
      e.permissionMode ≠ e'.permissionMode || e.paused ≠ e'.paused || e.secretRefs ≠ e'.secretRefs
  | some _, none => true
  | none, _ => false

def disruptive (old new : OrganizationConfig) : Bool :=
  let roots := fun config : OrganizationConfig =>
    config.projects.filterMap (fun p => (present p.workspacePath).map (fun w => (p.id, w)))
  old.projectRoots ≠ new.projectRoots || old.executionTargets ≠ new.executionTargets ||
    -- The identifiers of projects are unique, so that the folders are compared without their order.
    !((roots old).all (roots new).contains && (roots new).all (roots old).contains)

/-- What `configure` makes of a task. -/
def configureTask (old new : OrganizationConfig) (disrupts : Bool) (t : Task) : Task :=
  let gone := orphaned new t
  if (t.isClaimed && (disrupts || t.assignee.any (affected old new))) || gone then
    { t.withComment now none
        (text "Configuration changed the context or removed an owner/initiative. " ++
          text "Review effects before retrying.") with
      claim := none
      status := .blocked
      revision := t.revision + 1
      blockReason := if gone then orphanedReason else reconfiguredReason }
  else t

def secretTask (config : OrganizationConfig) (secret : Str) (t : Task) : Task :=
  let granted := t.assignee.any (fun a =>
    (config.employee? a).any (fun e => e.secretRefs.contains secret))
  if t.isClaimed && granted then
    { t with
      claim := none
      status := .blocked
      blockReason := secretReason
      revision := t.revision + 1 }
  else t

def cancelCheckIn (actor : Option Actor) (employee : Str) (body : Str) (t : Task) : Task :=
  if t.assignee = some employee && isHeartbeat t && t.status = .blocked then
    { t.withComment now actor body with
      status := .cancelled
      cancellation := some (text "acknowledged")
      revision := t.revision + 1 }
  else t

/-- `artifact_add`, for the task of the artifact. -/
def addArtifact (a : Artifact) (t : Task) : Task :=
  { t with
    artifacts := t.artifacts ++ [a]
    acceptedRevision := none
    status := if t.status = .done then .inReview else t.status
    revision := t.revision + 1 }

end Raticode.Organizations
