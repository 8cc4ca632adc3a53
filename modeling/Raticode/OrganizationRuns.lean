import Raticode.MarkedList
import Raticode.OrganizationCalls

/-! An organization as it runs: the calls that are made and Raticode's own steps, in any order.
Each task carries marks of what has happened to it, which no step reads. -/
namespace Raticode.Organizations
open PyDocument OrderedDict MarkedList

structure Marks where
  held : Bool := false
  accepted : Option Actor := none
  deriving DecidableEq

inductive Mover where
  | owner | employee | raticode
  /-- `_unblock`. -/
  | dependencies
  deriving DecidableEq, Repr

def mover : Actor → Mover
  | .user => .owner
  | .rem => .owner
  | .employee _ => .employee

def Mover.holds : Mover → Bool
  | .owner => true
  | .raticode => true
  | _ => false

/-- The block of `t'` still stands after `t` became it, or has been set. A worker who words the
reason of a block anew has not set it. -/
def heldAfter (m : Mover) (t t' : Task) (held : Bool) : Bool :=
  if t'.status ≠ .blocked then false
  else if t.status = .blocked && (t'.blockReason = t.blockReason || !m.holds) then held
  else m.holds

def renewed (t t' : Task) : Bool :=
  (t.isClaimed && t'.claim ≠ t.claim) || t'.evidence ≠ t.evidence ||
    t'.artifacts ≠ t.artifacts || t'.planRevision ≠ t.planRevision

def watch (m : Mover) (accepts : Option (ℕ × Actor)) : Watch Task Marks where
  seen i t t' marks :=
    { held := heldAfter m t t' marks.held
      accepted := match accepts with
        | some (j, actor) => if i = j then some actor else if renewed t t' then none else marks.accepted
        | none => if renewed t t' then none else marks.accepted }
  start t := { held := t.status = .blocked && m.holds }

structure World where
  org : Org := {}
  marks : ℕ → Marks := fun _ => {}
  kept : Dict Str (Task × Marks) := []

namespace World

def become (w : World) (m : Mover) (accepts : Option (ℕ × Actor)) (org : Org) : World :=
  { w with org := org, marks := (watch m accepts).follow w.org.tasks org.tasks w.marks }

def record (w : World) (now : ℚ) (i : ℕ) (t : Task) : World :=
  { w with
    org := w.org.recordOccurrence now t
    kept := w.kept.set (occurrenceKey t) (t, w.marks i) }

def unblock (w : World) : World := w.become .dependencies none w.org.unblock

end World

def Org.find (org : Org) (id : Str) : Option (ℕ × Task) :=
  (org.tasks.findIdx? (fun t => t.id = id)).bind (fun i => org.tasks[i]?.map (fun t => (i, t)))

theorem Org.getElem?_of_find {org : Org} {id : Str} {i : ℕ} {t : Task} (h : org.find id = some (i, t)) :
    org.tasks[i]? = some t := by
  obtain ⟨j, -, hj⟩ := Option.bind_eq_some_iff.mp h
  obtain ⟨u, hu, he⟩ := Option.map_eq_some_iff.mp hj
  cases he
  exact hu

section Evolution

variable {org org' : Org} {N : Task → Prop}

theorem Org.evolves_set {i : ℕ} {t t' : Task} (ht : org.tasks[i]? = some t)
    (horg : org'.tasks = (org.set i t').tasks) :
    Evolves (fun j u u' => (j = i ∧ u = t ∧ u' = t') ∨ u' = u) N org.tasks org'.tasks := by
  rw [horg]
  exact Evolves.set (fun _ _ => .inr rfl) ht (.inl ⟨rfl, rfl, rfl⟩)

theorem Org.evolves_add {t : Task} (horg : org'.tasks = org.tasks ++ [t]) :
    Evolves (fun _ u u' => u' = u) (fun u => u = t) org.tasks org'.tasks := by
  rw [horg]
  refine Evolves.append ?_ ?_ org.tasks
  · exact fun _ _ => rfl
  · rfl

theorem Org.evolves_map {f : Task → Task} (horg : org'.tasks = org.tasks.map f) :
    Evolves (fun _ u u' => u' = f u) N org.tasks org'.tasks := by
  rw [horg]
  refine Evolves.map ?_ org.tasks
  exact fun _ _ => rfl

end Evolution

inductive Step where
  | call (caller : Caller) (taskId : Str) (call : TaskCall)
  | create (caller : Caller) (fresh : Str) (draft : Task)
  | artifact (caller : Caller) (taskId : Str) (a : Artifact)
  | unblock
  | schedule (fresh : Str) (draft : Task)
  | recheck (fresh description employee : Str)
  /-- A check-in is due; `idle` is whether none of the worker's tasks is ready. -/
  | heartbeat (fresh employee : Str) (idle : Bool)
  | heartbeatResume (actor : Actor) (employee : Str)
  | stopped (i : ℕ)
  | hold (i : ℕ) (reason : Hold)
  | claim (i : ℕ) (run : Str) (reserved : ℤ)
  | finish (taskId : Str) (o : Outcome)
  | recover
  | configure (config : OrganizationConfig) (disrupts : Bool)
  | secret (id : Str)
  | control (running : Bool)
  deriving DecidableEq

variable (h : Host) (now : ℚ)

def claimsAfter (call : TaskCall) (taskId : Str) (claims : List WorkClaim) : List WorkClaim :=
  match call with
  | .review _ decision _ => if decision = .accept then claims else supersedeClaims claims taskId
  | _ => claims

/-- The acceptance that a call gives to the task at position `i`. -/
def accepts (call : TaskCall) (i : ℕ) (actor : Actor) : Option (ℕ × Actor) :=
  match call with
  | .review _ .accept _ => some (i, actor)
  | _ => none

def TaskCall.isComment : TaskCall → Bool
  | .comment _ _ => true
  | _ => false

namespace World

def settle (w : World) (actor : Actor) (call : TaskCall) (i : ℕ) (t : Task) : World :=
  let repeated := if !call.isComment && recurs t && !t.isClaimed then
      let recorded := w.record now i t
      recorded.become .raticode none (recorded.org.set i (restarted now actor t))
    else w
  let cascaded := if t.status = .cancelled then
      repeated.become .raticode none (repeated.org.cascade t.id)
    else repeated
  cascaded.unblock

def call (w : World) (caller : Caller) (taskId : Str) (call : TaskCall) : World :=
  match w.org.find taskId with
  | none => w
  | some (i, t) =>
    if !w.org.admits caller then w
    else if caller.actor = .rem && (consentReason call t).isSome then w
    else match changeTask h now w.org i caller.actor call t with
      | .error _ => w
      | .ok t' =>
        let changed := w.become (mover caller.actor) (accepts call i caller.actor)
          { w.org.set i t' with claims := claimsAfter call taskId w.org.claims }
        changed.settle now caller.actor call i t'

/-- `task_create`. -/
def create (w : World) (caller : Caller) (fresh : Str) (draft : Task) : World :=
  let consents := caller.actor = .rem && draft.recurring && draft.intervalSeconds ≠ 0
  if !w.org.admits caller || consents then w
  else match createTask h w.org caller fresh draft with
    | .error _ => w
    | .ok t => (w.become (mover caller.actor) none (w.org.add t)).unblock

/-- `artifact_add`. -/
def artifact (w : World) (caller : Caller) (taskId : Str) (a : Artifact) : World :=
  match w.org.find taskId with
  | none => w
  | some (i, t) =>
    let kinds := [text "file", text "diff", text "test", text "document"]
    if w.org.admits caller && caller.actor.employee?.all (fun id => owns w.org.config id t) &&
        w.org.attempts.get a.attemptId = some taskId && t.artifacts.length < 100 &&
        kinds.contains a.kind then
      w.become (mover caller.actor) none (w.org.set i (addArtifact a t))
    else w

/-- `heartbeat_due`, up to what it counts of failures. -/
def heartbeat (w : World) (fresh employee : Str) (idle : Bool) : World :=
  let mine := w.org.tasks.filter (fun t => t.assignee = some employee)
  let waiting := mine.any (fun t => isHeartbeat t &&
    (t.status = .backlog || t.status = .todo || t.status = .inProgress))
  let blocked := mine.any (fun t => isHeartbeat t && t.status = .blocked)
  let failures := (w.org.heartbeatFailures.get employee).getD 0
  if !idle || mine.any (·.isClaimed) || waiting then w
  else if blocked && 3 ≤ failures then w
  else
    let cancelled := w.become .raticode none (w.org.map
      (cancelCheckIn now none employee (text "Replaced by the next heartbeat check-in.")))
    let counted := if blocked then
        { cancelled.org with
          heartbeatFailures := cancelled.org.heartbeatFailures.set employee (failures + 1) }
      else cancelled.org
    cancelled.become .raticode none (counted.add (checkIn fresh employee))

def claim (w : World) (i : ℕ) (run : Str) (reserved : ℤ) : World :=
  match w.org.tasks[i]? with
  | none => w
  | some t =>
    if w.org.running && startable now w.org.config w.org.tasks t then
      w.become .raticode none
        { w.org.set i (claimTask run reserved t) with attempts := w.org.attempts.set run t.id }
    else w

def ended (w : World) (i : ℕ) (t : Task) (o : Outcome) : World :=
  let failures := if o.closes t then w.org.heartbeatFailures.erase o.employeeId
    else w.org.heartbeatFailures
  w.become .raticode none
    { w.org.set i (finishTask now o t) with heartbeatFailures := failures }

def finish (w : World) (taskId : Str) (o : Outcome) : World :=
  match w.org.find taskId with
  | none => w
  | some (i, t) =>
    let recorded := if o.finishes t then w.record now i t else w
    let ended := recorded.ended now i t o
    if t.claim = some o.turnId then ended.unblock else ended

def touch (w : World) (i : ℕ) (f : Task → Task) (applies : Task → Bool) : World :=
  match w.org.tasks[i]? with
  | none => w
  | some t => if applies t then w.become .raticode none (w.org.set i (f t)) else w

def sweep (w : World) (org : Org) (f : Task → Task) : World :=
  w.become .raticode none (org.map f)

/-- `heartbeat_resume`, of the user or Rem. -/
def heartbeatResume (w : World) (actor : Actor) (employee : Str) : World :=
  if actor.employee?.isSome || !w.org.config.isEmployee employee then w
  else w.sweep { w.org with heartbeatFailures := w.org.heartbeatFailures.erase employee }
    (cancelCheckIn now (some actor) employee (text "Heartbeats resumed."))

def recover (w : World) : World :=
  if !w.org.running && !w.org.tasks.any (·.isClaimed) then w
  else w.sweep { w.org with running := w.org.config.resumeAfterRestart && w.org.running }
    (recoverTask now)

def configure (w : World) (config : OrganizationConfig) (disrupts : Bool) : World :=
  let disrupts := disrupts || disruptive w.org.config config
  let org := { w.org with
    config := config
    running := !disrupts && w.org.running
    generation := if disrupts then w.org.generation + 1 else w.org.generation }
  w.sweep org (configureTask now w.org.config config disrupts)

def act (w : World) (step : ℚ × Step) : World :=
  let now := step.1
  match step.2 with
  | .call caller taskId call => w.call h now caller taskId call
  | .create caller fresh draft => w.create h caller fresh draft
  | .artifact caller taskId a => w.artifact caller taskId a
  | .unblock => w.unblock
  | .schedule fresh draft => w.become .raticode none (w.org.add (scheduledTask draft fresh))
  | .recheck fresh description employee =>
    w.become .raticode none (w.org.add (recheckTask fresh description employee))
  | .heartbeat fresh employee idle => w.heartbeat now fresh employee idle
  | .heartbeatResume actor employee => w.heartbeatResume now actor employee
  | .stopped i =>
    w.touch i (fun t => blockTask now stoppedReason { t with claim := none }) (·.isClaimed)
  | .hold i reason =>
    w.touch i (fun t => match reason.reason w.org.config t with
      | some message => blockTask now message t
      | none => t) (fun t => t.status = .todo && !t.isClaimed)
  | .claim i run reserved => w.claim now i run reserved
  | .finish taskId o => w.finish now taskId o
  | .recover => w.recover now
  | .configure config disrupts => w.configure now config disrupts
  | .secret id => w.sweep w.org (secretTask w.org.config id)
  | .control running =>
    { w with org := { w.org with
        running := running
        generation := if running then w.org.generation else w.org.generation + 1 } }

end World

end Raticode.Organizations
