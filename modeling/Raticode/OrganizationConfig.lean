import Mathlib.Data.Rat.Defs
import Mathlib.Algebra.Order.Ring.Unbundled.Rat
import Raticode.OrderedDict
import Raticode.PyDocument

/-! `gofer.ui.organization_store`: the configuration of an organization, with what its rules read. -/
namespace Raticode.Organizations
open PyDocument OrderedDict

inductive TicketAction where
  | create | edit | move | cancel
  deriving DecidableEq, Repr

structure SkillReference where
  path : Str
  enabled : Bool := true
  deriving DecidableEq

inductive Transport where
  | http | stdio
  deriving DecidableEq, Repr

structure McpReference where
  name : Str
  type : Transport := .http
  url : Str := []
  command : Str := []
  args : List Str := []
  enabled : Bool := true
  library : Bool := false
  deriving DecidableEq

structure AgentResources where
  shell : Bool := true
  web : Bool := true
  agents : Bool := true
  browser : Bool := false
  skills : List SkillReference := []
  mcpServers : List McpReference := []
  deriving DecidableEq

/-- `OPEN_ENDED_LIMITS`, where zero means that there is no limit. -/
structure Limits where
  monthlyTurnLimit : ℕ := 0
  monthlyTokenLimit : ℕ := 0
  monthlyBudgetUsd : ℚ := 0
  deriving DecidableEq

structure Employee where
  id : Str
  name : Str
  reportsTo : Option Str := none
  permissionMode : Str := text "workspace-write"
  resources : AgentResources := {}
  skills : List Str := []
  paused : Bool := false
  heartbeatSeconds : ℕ := 0
  limits : Limits := {}
  workspacePaths : Option (List Str) := none
  secretRefs : List Str := []
  ticketAccess : Option (Dict Str (List TicketAction)) := none
  deriving DecidableEq

structure ProjectCheck where
  name : Str
  command : Str
  deriving DecidableEq

/-- An entry of `projects`. -/
structure Initiative where
  id : Str
  name : Option Str := none
  workspacePath : Option Str := none
  limits : Limits := {}
  checks : List ProjectCheck := []
  autoRunChecks : Bool := false
  deriving DecidableEq

inductive TargetKind where
  | swarm | fleet | remote
  deriving DecidableEq, Repr

structure ExecutionTarget where
  id : Str
  kind : TargetKind
  employees : List Str
  swarmId : Option Str := none
  deviceId : Option Str := none
  threadId : Option Str := none
  projectId : Option Str := none
  url : Option Str := none
  secretRef : Option Str := none
  turnLimit : ℕ := 1
  deriving DecidableEq

inductive PlanStatus where
  | active | done | cancelled
  deriving DecidableEq, Repr

structure Milestone where
  id : Str
  title : Str := []
  status : PlanStatus := .active
  deriving DecidableEq

structure Epic where
  id : Str
  title : Str := []
  milestoneId : Option Str := none
  projectId : Option Str := none
  status : PlanStatus := .active
  deriving DecidableEq

inductive Isolation where
  | worktree | checkout
  deriving DecidableEq, Repr

inductive HoursMode where
  | always | scheduled
  deriving DecidableEq, Repr

structure HoursWindow where
  days : List ℕ
  start : ℕ
  stop : ℕ
  deriving DecidableEq

structure OperatingHours where
  mode : HoursMode := .always
  timezone : Str := text "UTC"
  windows : List HoursWindow := []
  /-- `atClose == "finish"`. -/
  finishes : Bool := false
  deriving DecidableEq

/-- `COMPANY_CAPS`. -/
structure Caps where
  maxTaskTurns : ℕ := 20
  maxConcurrency : ℕ := 1
  turnTimeoutSeconds : ℕ := 1800
  maxChildTasksPerTurn : ℕ := 5
  maxDelegationDepth : ℕ := 3
  deriving DecidableEq

structure OrganizationConfig where
  employees : List Employee := []
  projects : List Initiative := []
  goalRecords : List Str := []
  projectRoots : List Str := []
  limits : Limits := { monthlyTurnLimit := 200 }
  caps : Caps := {}
  workspaceIsolation : Isolation := .worktree
  blockGitPush : Bool := true
  executionTargets : List ExecutionTarget := []
  milestones : List Milestone := []
  epics : List Epic := []
  knowledgeToSecondBrain : Bool := false
  sharedRepository : Bool := false
  operatingHours : OperatingHours := {}
  resumeAfterRestart : Bool := false
  deriving DecidableEq

namespace OrganizationConfig

def employee? (config : OrganizationConfig) (id : Str) : Option Employee :=
  config.employees.find? (fun e => e.id = id)

def isEmployee (config : OrganizationConfig) (id : Str) : Bool :=
  config.employees.any (fun e => e.id = id)

end OrganizationConfig

def ticketAllowed (employee : Employee) (project : Option Str) (action : TicketAction) : Bool :=
  match employee.ticketAccess with
  | none => true
  | some access =>
    -- An empty project is counted as none.
    let key := match project with
      | some p => if p = [] then text "*" else p
      | none => text "*"
    ((access.get key).getD []).contains action

end Raticode.Organizations
