import Raticode.OrganizationDispatch

/-! The runs of an organization after they have started: their delegated executions, their ends and
what is given back of the turns that they have reserved. -/
namespace Raticode.Organizations
open PyDocument OrderedDict

structure Ending where
  final : Str := []
  error : Option Str := none
  /-- `managed_turns`, as the delegated execution has counted them. -/
  managedTurns : Option ℤ := none
  costUsd : Option ℚ := none
  tokens : Option ℕ := none
  deriving DecidableEq

structure Settlement where
  settled : Bool
  turnsUsed : Option ℤ := none
  costUsd : Option ℚ := none
  tokens : Option ℕ := none
  deriving DecidableEq

namespace Worker

/-- `cancel.is_set()`, with the reason. -/
def cancel (w : Worker) : Option CancelReason :=
  if w.signalled then some (w.reason.getD .cancelled) else none

def completed (w : Worker) (x : Ending) : Bool :=
  x.final ≠ [] && x.error.isNone && w.cancel.isNone

def used (w : Worker) (x : Ending) : ℤ :=
  min w.reserved (max 0 (((if w.completed x then x.managedTurns else none)).getD w.reserved))

def outcome (w : Worker) (run : Str) (x : Ending) (settled : Bool) : Outcome where
  turnId := run
  employeeId := w.employeeId
  final := x.final
  error := x.error
  cancel := w.cancel
  delegated := w.delegated
  reserved := w.reserved
  used := w.used x
  settled := settled

def accounts (w : Worker) : List Str :=
  [companyAccount, employeeAccount w.employeeId, initiativeAccount w.initiativeId]

def recordEnd (w : Worker) (x : Ending) (r : RunRecord) : RunRecord :=
  { r with
    handle := r.handle.map (fun h => if w.completed x || h.workflow then { h with settled := true } else h)
    status :=
      if (w.outcome [] x false).paused then .paused
      else if w.cancel.isSome then .cancelled
      else if x.error.isSome || x.final = [] then .failed
      else .completed
    usedTurns := some (w.used x)
    costUsd := x.costUsd
    tokens := x.tokens }

def settleAccount (w : Worker) (x : Ending) (a : Account) : Account where
  turns := some (max 0 (a.turns.getD w.reserved - (w.reserved - w.used x)))
  costUsd := a.costUsd + x.costUsd.getD 0
  unknownCostTurns := a.unknownCostTurns + if x.costUsd.isNone then 1 else 0
  tokens := a.tokens + x.tokens.getD 0
  unknownTokenTurns := a.unknownTokenTurns + if x.tokens.isNone then 1 else 0

end Worker

namespace Company

/-- `_run.finish`; the thread records the end of its run once. -/
def finish (m : Moment) (c : Company) (run : Str) (x : Ending) : Company :=
  match c.active.get run with
  | none => c
  | some w =>
    if !w.alive || w.finished || (c.org.find w.taskId).isNone then c
    else
      let ended := (c.charge w.month w.accounts (w.settleAccount x)).record run (w.recordEnd x)
      let settled := (ended.runs.get run).all (fun r => !r.isOpen)
      { ended with
        world := c.world.finish m.now w.taskId (w.outcome run x settled)
        active := c.active.set run { w with finished := true } }

def leave (c : Company) (run : Str) : Company := { c with active := c.active.erase run }

def die (c : Company) (run : Str) : Company :=
  match c.active.get run with
  | none => c
  | some w => { c with active := c.active.set run { w with alive := false } }

/-- `handle`: a run is linked to its delegated execution before that is launched. -/
def link (c : Company) (run : Str) (workflow : Bool) : Company :=
  match c.active.get run with
  | none => c
  | some w =>
    if w.alive && c.org.running && (c.org.find w.taskId).any (fun found => found.2.claim = some run) then
      c.record run (fun r => { r with handle := some { workflow := workflow } })
    else c

/-- `execution_resolve`, of the user or Rem. -/
def resolve (c : Company) (run : Str) : Company :=
  if (c.active.get run).isSome then c
  else c.record run (fun r => { r with handle := r.handle.map (fun h => { h with settled := true }) })

/-- What `settle_usage` makes of the turns of a run. -/
def settledTurns (r : RunRecord) (x : Settlement) : ℤ :=
  match x.turnsUsed with
  | some n => if 0 ≤ n && n ≤ r.reservedTurns then n else r.charged
  | none => r.charged

/-- What `settle_usage` makes of an account. -/
def settledAccount (r : RunRecord) (x : Settlement) (a : Account) : Account :=
  let cost := x.costUsd.or r.costUsd
  let tokens := x.tokens.or r.tokens
  { turns := some (max 0 (a.used + settledTurns r x - r.charged))
    costUsd := match cost with
      | some new => max 0 (a.costUsd + new - r.costUsd.getD 0)
      | none => a.costUsd
    unknownCostTurns := if cost.isSome && r.costUsd.isNone then a.unknownCostTurns - 1
      else a.unknownCostTurns
    tokens := match tokens with
      | some new => a.tokens + new - r.tokens.getD 0
      | none => a.tokens
    unknownTokenTurns := if tokens.isSome && r.tokens.isNone then a.unknownTokenTurns - 1
      else a.unknownTokenTurns }

/-- What `reconcile` makes of the task of a run. -/
def reconciledTask (r : RunRecord) (x : Settlement) (t : Task) : Task :=
  { t with
    turns := max 0 (t.turns + settledTurns r x - r.charged)
    cancellation := if t.cancellation = some (text "requested") then some (text "acknowledged")
      else t.cancellation }

/-- `reconcile`, for one run that is not active. -/
def reconcile (c : Company) (run : Str) (x : Settlement) : Company :=
  match c.runs.get run, c.org.attempts.get run with
  | some r, some taskId =>
    if !r.isOpen || (c.active.get run).isSome then c
    else if !x.settled then c
    else match c.org.find taskId with
      | none => c
      | some (i, t) =>
        let charged := c.charge r.reservationMonth r.accounts (settledAccount r x)
        let closed : RunRecord := { r with
          handle := r.handle.map (fun h => { h with settled := true })
          usedTurns := some (settledTurns r x)
          costUsd := x.costUsd.or r.costUsd
          tokens := x.tokens.or r.tokens }
        { charged.become (c.org.set i (reconciledTask r x t)) with runs := c.runs.set run closed }
  | _, _ => c

/-- `_task_worktree` and `_shared_worktree`: a run records the folder that it works in. -/
def recordWorktree (c : Company) (run path : Str) (shared : Bool) : Company :=
  match c.active.get run with
  | none => c
  | some w => match c.org.find w.taskId with
    | none => c
    | some (i, t) =>
      if w.alive && t.claim = some run then
        c.become (c.org.set i (if shared then { t with sharedWorktree := some path }
          else { t with worktree := some path }))
      else c

/-- `release_worktrees` and `release_shared`: the folder of a task that is over goes. -/
def releaseWorktree (m : Moment) (c : Company) (taskId note : Str) (shared : Bool) : Company :=
  match c.org.find taskId with
  | none => c
  | some (i, t) =>
    if t.isClaimed || !(t.status = .done || t.status = .cancelled) then c
    else
      let noted := t.withComment m.now none note
      c.become (c.org.set i (if shared then { noted with sharedWorktree := none, revision := t.revision + 1 }
        else { noted with worktree := none, revision := t.revision + 1 }))

/-- Raticode starts again: the threads are gone, and `_recover`. -/
def restart (m : Moment) (c : Company) : Company :=
  let claimed := c.tasks.filterMap (·.claim)
  let recovered := c.world.recover m.now
  let interrupted := claimed.foldl (fun d run => d.record run (fun r => { r with status := .interrupted })) c
  { interrupted with
    world := { recovered with org := { recovered.org with running := recovered.org.running && !c.archived } }
    active := [] }

end Company

end Raticode.Organizations
