import Raticode.OrganizationCompany

/-! `gofer.ui.organization_operations`: routines, which make a task at each of their occurrences. -/
namespace Raticode.Organizations
open PyDocument OrderedDict Attempt

def maxQueuedOccurrences : ℕ := 3

/-- The most dependencies that `Task` takes. -/
def maxDependencies : ℕ := 100

namespace Routine

/-- `next_occurrence`. -/
def next (m : Moment) (r : Routine) (at' : ℚ) : Option ℚ :=
  match present r.cron with
  | some crontab => m.cron crontab r.timezone (at' + 1)
  | none => if r.intervalSeconds ≠ 0 then some (at' + r.intervalSeconds) else none

def receiptKey (r : Routine) (occurrence : Str) : Str := r.id ++ text ":" ++ occurrence

def occurrenceTask (m : Moment) (r : Routine) (occurrence fresh : Str) (last : Option Str) : Task :=
  { scheduledTask r.task fresh with
    createdAt := if r.created then r.task.createdAt else m.now
    routineId := some r.id
    occurrenceId := some occurrence
    dependsOn := match last with
      | some id => (r.task.dependsOn ++ [id]).dedup
      | none => r.task.dependsOn }

/-- `validate_schedule`, and the bound of `Task` on the dependencies of its task. -/
def validate (r : Routine) : Except String Unit := do
  require (!((present r.cron).isSome && r.intervalSeconds ≠ 0)) "Choose cron or interval"
  require (!(r.intervalSeconds ≠ 0 && r.intervalSeconds < 60))
    "Routine interval must be at least 60 seconds"
  require (r.task.dependsOn.length ≤ maxDependencies) "List should have at most 100 items"

def due (r : Routine) (at' : ℚ) : Bool := r.enabled && r.nextAt.any (fun due => due ≤ at')

end Routine

namespace Company

def pending (c : Company) (r : Routine) : List Task :=
  c.tasks.filter (fun t => t.routineId = some r.id && t.status ≠ .done && t.status ≠ .cancelled)

/-- `trigger_routine`. -/
def trigger (m : Moment) (c : Company) (fresh : Str) (r : Routine) (occurrence : Str) :
    Except String (Company × Routine) :=
  let key := r.receiptKey occurrence
  let exists' := c.tasks.any (fun t => t.occurrenceId = some occurrence && t.routineId = some r.id)
  if (c.receipts.get key).isSome || exists' then .ok (c, r)
  else
    let pending := c.pending r
    let receipt := fun id : Option Str => { routineId := r.id, at' := m.now, taskId := id : Receipt }
    if pending ≠ [] && (r.overlap = .skip || maxQueuedOccurrences ≤ pending.length) then
      .ok ({ c with receipts := c.receipts.set key (receipt none) },
        { r with lastOccurrence := some occurrence })
    else
      let t := r.occurrenceTask m occurrence fresh (pending.getLast?.map (·.id))
      if maxDependencies < t.dependsOn.length then .error "List should have at most 100 items"
      else .ok ({ c.become (c.org.add t) with receipts := c.receipts.set key (receipt (some t.id)) },
        { r with lastTaskId := some t.id, lastOccurrence := some occurrence })

/-- One turn of `schedule_routines`. -/
def scheduleRoutine (m : Moment) (fresh : ℕ → Str) (c : Company) (entry : Str × Routine) :
    Except String Company :=
  let (key, r) := entry
  match r.nextAt with
  | none => .ok c
  | some due =>
    if !r.due m.now then .ok c
    else do
      let late := 60 < m.now - due
      let (triggered, r) ← if late && r.missed = .skip then .ok (c, r)
        else c.trigger m (fresh c.tasks.length) r (m.iso due)
      let r := { r with nextAt := r.next m m.now, lastOccurrence := some (m.iso due) }
      return { triggered with routines := triggered.routines.set key r }

/-- `schedule_routines`; a new task gets the identifier for its position. -/
def scheduleRoutines (m : Moment) (fresh : ℕ → Str) (c : Company) : Except String Company :=
  c.routines.foldlM (scheduleRoutine m fresh) c

/-- `routine_save`, of the user or Rem. -/
def saveRoutine (m : Moment) (c : Company) (r : Routine) (expectedRevision : Option ℕ) :
    Except String Company := do
  r.validate
  -- The task is only checked: its occurrences keep the project and the folder of the draft.
  let _ ← validateTask c.config c.tasks r.task
  let _ ← validateWorkspace m.toHost c.config .user r.task
  let previous := c.routines.get r.id
  require (previous.all (fun p => expectedRevision = some p.revision))
    "Routine changed. Reload before saving"
  let saved := { r with
    nextAt := r.next m m.now
    revision := (previous.map (·.revision + 1)).getD 1 }
  return { c with routines := c.routines.set r.id saved }

/-- `routine_trigger`, and the delivery of a webhook. -/
def triggerRoutine (m : Moment) (c : Company) (fresh routineId occurrence : Str) :
    Except String Company := do
  match c.routines.get routineId with
  | none => .error "Choose an enabled routine"
  | some r => do
    require r.enabled "Choose an enabled routine"
    let (triggered, r) ← c.trigger m fresh r occurrence
    return { triggered with routines := triggered.routines.set routineId r }

end Company

end Raticode.Organizations
