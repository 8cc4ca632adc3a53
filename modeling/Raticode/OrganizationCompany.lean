import Raticode.OrganizationRuns

/-! An organization with all that its runtime holds: beside the tasks, the attempts, the accounts of
the months, the routines and the memories, and the runs that the manager has started for it. -/
namespace Raticode.Organizations
open PyDocument OrderedDict

structure Moment extends Host where
  now : ℚ
  /-- `strftime("%Y-%m")`. -/
  month : ℚ → Str
  /-- `isoformat`. -/
  iso : ℚ → Str
  local' : Str → ℚ → ℕ × ℕ
  cron : Str → Str → ℚ → Option ℚ
  opensAt : OperatingHours → ℚ → Option Str
  /-- `project_identity(root)[0].startswith("git:")`. -/
  isGit : Str → Bool
  /-- The number or the title by which `dependency_reason` names a ticket. -/
  ticketKey : Task → Str

structure Account where
  turns : Option ℤ := none
  costUsd : ℚ := 0
  unknownCostTurns : ℕ := 0
  tokens : ℕ := 0
  unknownTokenTurns : ℕ := 0
  deriving DecidableEq

/-- `account.get("turns", 0)`. -/
def Account.used (a : Account) : ℤ := a.turns.getD 0

abbrev Accounts := Dict Str Account

def companyAccount : Str := text "company"

def employeeAccount (id : Str) : Str := text "employee:" ++ id

/-- `f"initiative:{project}"`, which writes `None` where there is no project. -/
def initiativeAccount (project : Option Str) : Str :=
  text "initiative:" ++ project.getD (text "None")

inductive RunStatus where
  | running | interrupted | paused | cancelled | failed | completed
  deriving DecidableEq, Repr

/-- `executionHandle`. -/
structure Handle where
  workflow : Bool
  settled : Bool := false
  deriving DecidableEq

/-- An entry of `attempts`, beside the task of the run. -/
structure RunRecord where
  employeeId : Str
  initiativeId : Option Str
  reservedTurns : ℤ
  reservationMonth : Str
  status : RunStatus := .running
  usedTurns : Option ℤ := none
  costUsd : Option ℚ := none
  tokens : Option ℕ := none
  handle : Option Handle := none
  deriving DecidableEq

namespace RunRecord

def charged (r : RunRecord) : ℤ := r.usedTurns.getD r.reservedTurns

def accounts (r : RunRecord) : List Str :=
  [companyAccount, employeeAccount r.employeeId, initiativeAccount r.initiativeId]

def isOpen (r : RunRecord) : Bool := r.handle.any (fun h => !h.settled)

end RunRecord

inductive Overlap where
  | skip | queue
  deriving DecidableEq, Repr

inductive Missed where
  | skip | coalesce
  deriving DecidableEq, Repr

structure Routine where
  id : Str
  /-- The task of an occurrence; its time of creation counts where `created` says so. -/
  task : Task
  created : Bool := false
  cron : Option Str := none
  timezone : Str := text "UTC"
  intervalSeconds : ℕ := 0
  overlap : Overlap := .skip
  missed : Missed := .coalesce
  enabled : Bool := true
  nextAt : Option ℚ := none
  lastTaskId : Option Str := none
  lastOccurrence : Option Str := none
  revision : ℕ := 1
  deriving DecidableEq

structure Receipt where
  routineId : Str
  at' : ℚ
  taskId : Option Str
  deriving DecidableEq

structure Memory where
  employeeId : Str
  body : Str
  path : Str
  stale : Bool := false
  recheckTaskId : Option Str := none
  deriving DecidableEq

/-- A run in `_active`: what was chosen for it, its thread and its cancellation. -/
structure Worker where
  taskId : Str
  employeeId : Str
  initiativeId : Option Str
  month : Str
  reserved : ℤ
  delegated : Bool
  workflow : Bool
  workingRoot : Str
  isolated : Bool
  /-- The entry of `_active_roots`. -/
  rootKey : Str
  /-- `maxConcurrency`, as it was when the run started. -/
  maxConcurrency : ℕ
  signalled : Bool := false
  /-- `_cancel_reasons`. -/
  reason : Option CancelReason := none
  alive : Bool := true
  finished : Bool := false
  deriving DecidableEq

structure Company where
  world : World := {}
  archived : Bool := false
  runs : Dict Str RunRecord := []
  usage : Dict Str Accounts := []
  routines : Dict Str Routine := []
  receipts : Dict Str Receipt := []
  heartbeats : Dict Str ℚ := []
  memories : Dict Str Memory := []
  employeeMemory : Dict Str Str := []
  /-- The runs of this organization in `_active`. -/
  active : Dict Str Worker := []

namespace Company

def org (c : Company) : Org := c.world.org

def config (c : Company) : OrganizationConfig := c.world.org.config

def tasks (c : Company) : List Task := c.world.org.tasks

def become (c : Company) (org : Org) : Company := { c with world := c.world.become .raticode none org }

def account (c : Company) (month id : Str) : Account :=
  (((c.usage.get month).getD []).get id).getD {}

def charge (c : Company) (month : Str) (ids : List Str) (f : Account → Account) : Company :=
  let accounts := ids.foldl (fun a id => Dict.set a id (f ((Dict.get a id).getD {})))
    ((c.usage.get month).getD [])
  { c with usage := c.usage.set month accounts }

def works (c : Company) (run : Str) : Bool := (c.active.get run).any (·.alive)

def signal (c : Company) (runs : List Str) : Company :=
  let told := fun (run : Str) (w : Worker) =>
    if runs.contains run then { w with signalled := true } else w
  { c with active := c.active.map (fun p => (p.1, told p.1 p.2)) }

/-- `cancel`. -/
def cancelRuns (c : Company) (reason : CancelReason) : Company :=
  let told := fun w : Worker => { w with signalled := true, reason := some (w.reason.getD reason) }
  { c with active := c.active.map (fun p => (p.1, told p.2)) }

/-- A record of `attempts` is changed, where there is one. -/
def record (c : Company) (run : Str) (f : RunRecord → RunRecord) : Company :=
  match c.runs.get run with
  | none => c
  | some r => { c with runs := c.runs.set run (f r) }

/-- No task and no run has one of the identifiers, which `uuid4` yields. -/
def unused (c : Company) (ids : List Str) : Bool :=
  ids.Nodup && ids.all (fun id => !(c.tasks.map (·.id)).contains id && (c.org.attempts.get id).isNone)

end Company

def isOpen (m : Moment) (hours : OperatingHours) (at' : ℚ) : Bool :=
  hours.mode = .always ||
    let (day, minute) := m.local' hours.timezone at'
    hours.windows.any (fun w =>
      if w.start < w.stop then w.days.contains day && decide (w.start ≤ minute) && decide (minute < w.stop)
      -- Overnight: from the start on a listed day until the end of the next morning.
      else (w.days.contains day && decide (w.start ≤ minute)) ||
        (w.days.contains ((day + 6) % 7) && decide (minute < w.stop)))

/-- `workspace`: the folder of a task. -/
def workspace (config : OrganizationConfig) (t : Task) : Str :=
  let initiative := config.projects.find? (fun p => t.project = some p.id)
  (present t.workspacePath).getD
    ((present (initiative.bind (·.workspacePath))).getD (config.projectRoots.head?.getD []))

end Raticode.Organizations
