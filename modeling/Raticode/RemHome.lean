import Mathlib.Data.List.Lex
import Mathlib.Data.List.Nodup
import Raticode.PyDocument

/-! `gofer.ui.rem_home_store`: the tasks of Rem and their runs. A transaction either
commits what it has written or leaves the store as it was. -/
namespace Raticode.Rem
open PyDocument Attempt

inductive ScheduleKind where
  | once
  | daily
  | weekly
  | interval
  | cron
  deriving DecidableEq

structure Schedule where
  kind : ScheduleKind
  settings : Str

structure Recipe where
  title : Str
  prompt : Str
  projectDir : Option Str
  schedule : Schedule
  sendFiles : Bool

inductive TaskState where
  | enabled
  | paused
  | deleted
  deriving DecidableEq

structure Task where
  id : Str
  recipe : Recipe
  revision : ℕ
  state : TaskState
  enabled : Bool
  scheduleRevision : ℕ
  nextOccurrenceAt : Option Str
  deletedAt : Option Str
  sourceMessageId : Option Str

/-- `RUN_STATES`. -/
inductive RunState where
  | queued
  | executing
  | verifying
  | repairing
  | cancelling
  | succeeded
  | blocked
  | cancelled
  | failed
  | outcomeUnknown
  deriving DecidableEq

namespace RunState

/-- `ACTIVE`. -/
def isActive (state : RunState) : Bool :=
  [queued, executing, verifying, repairing, cancelling].contains state

def needsAttention (state : RunState) : Bool := [blocked, failed, outcomeUnknown].contains state

end RunState

structure Run where
  id : Str
  taskId : Str
  occurrence : Str
  state : RunState
  epoch : ℕ
  recipe : Task
  pendingRecipe : Option Task
  createdAt : Str
  threadId : Str
  scheduledFor : Option Str
  finishedAt : Option Str
  acknowledged : Bool
  hasWorkerResult : Bool
  verificationThreadId : Option Str
  blockedPhase : Option Str
  deliverFilesTo : Option Str

structure Receipt where
  id : Str
  fingerprint : Str
  body : Str

structure Thread where
  id : Str
  managedRunId : Str

structure Creation where
  runId : Str
  taskId : Str
  occurrence : Str

structure Store where
  tasks : List Task
  runs : List Run
  threads : List Thread
  receipts : List Receipt
  outbox : List Str
  resetting : Bool
  drawn : ℕ
  created : List Creation

inductive Fault where
  | conflict (message : String)
  | value (message : String)
  | key (identity : Str)

structure Answer where
  task : Option Task
  run : Option Run

structure Host where
  /-- The identifiers `uuid4` gives, one after the other. -/
  uuid : ℕ → Str
  uuid_injective : Function.Injective uuid
  /-- `datetime.fromisoformat(value)`, where it is a moment. -/
  instant : Str → Option ℤ
  next : Schedule → ℤ → Bool → Except Fault (Option Str)
  encode : Answer → Str

abbrev Checked := Except Fault

/-- The time of a transaction, as a moment and as `now()` writes it. -/
structure Now where
  moment : ℤ
  stamp : Str

namespace Store

/-- `get(db, "tasks", identity)`. -/
def task (s : Store) (identity : Str) : Checked Task :=
  match s.tasks.find? (fun t => t.id = identity) with
  | some task => .ok task
  | none => .error (.key identity)

/-- `get(db, "runs", identity)`. -/
def run (s : Store) (identity : Str) : Checked Run :=
  match s.runs.find? (fun r => r.id = identity) with
  | some run => .ok run
  | none => .error (.key identity)

def runsOf (s : Store) (identity : Str) : List Run :=
  s.runs.filter (fun r => r.taskId = identity)

/-- `put(db, "tasks", task)`: the row replaces the one of its identifier. -/
def putTask (s : Store) (task : Task) : Store :=
  { s with tasks := s.tasks.filter (fun t => t.id ≠ task.id) ++ [task] }

/-- `put(db, "runs", run)`: the row replaces those of its identifier and of its
occurrence. -/
def putRun (s : Store) (run : Run) : Store :=
  { s with
    runs := s.runs.filter (fun r => r.id ≠ run.id && r.occurrence ≠ run.occurrence) ++ [run] }

def putThread (s : Store) (thread : Thread) : Store :=
  { s with threads := s.threads.filter (fun t => t.id ≠ thread.id) ++ [thread] }

/-- Runs in the order of `NEWEST_RUN`. -/
def newestFirst (runs : List Run) : List Run :=
  runs.reverse.mergeSort (fun a b => b.createdAt ≤ a.createdAt)

def addTask (h : Host) (now : Now) (recipe : Recipe) (source : Option Str) (s : Store) :
    Checked (Task × Store) := do
  let next ← h.next recipe.schedule now.moment true
  let task : Task := {
    id := h.uuid s.drawn, recipe, revision := 1, state := .enabled, enabled := true,
    scheduleRevision := 1, nextOccurrenceAt := next, deletedAt := none,
    sourceMessageId := source }
  pure (task, { s with drawn := s.drawn + 1 }.putTask task)

def reusedThread (s : Store) (task : Task) : Option Str :=
  match (newestFirst (s.runsOf task.id)).head? with
  | some saved =>
    if saved.recipe.recipe.projectDir = task.recipe.projectDir then some saved.threadId else none
  | none => none

/-- `add_run`: the run of an occurrence, or the one that stands in its way. -/
def addRun (h : Host) (now : Now) (task : Task) (occurrence : Str) (thread : Option Str)
    (scheduledFor : Option Str) (s : Store) : Run × Store :=
  match (s.runsOf task.id).find? (fun r => r.state.isActive) with
  | some active => (active, s)
  | none =>
    let uncertain :=
      (newestFirst ((s.runsOf task.id).filter (fun r => r.state = .outcomeUnknown))).head?
    match uncertain.filter (fun _ => !(text "manual:").isPrefixOf occurrence) with
    | some run => (run, s)
    | none =>
      match s.runs.find? (fun r => r.occurrence = occurrence) with
      | some known => (known, s)
      | none =>
        let run : Run := {
          id := h.uuid s.drawn, taskId := task.id, occurrence, state := .queued, epoch := 0,
          recipe := task, pendingRecipe := none, createdAt := now.stamp,
          threadId := (thread.orElse fun _ => s.reusedThread task).getD (h.uuid (s.drawn + 1)),
          scheduledFor, finishedAt := none, acknowledged := false, hasWorkerResult := false,
          verificationThreadId := none, blockedPhase := none, deliverFilesTo := none }
        let created : Creation := ⟨run.id, task.id, occurrence⟩
        let s := { s with drawn := s.drawn + 2, created := s.created ++ [created] }.putRun run
        (run, s.putThread ⟨run.threadId, run.id⟩)

def interruptedReview (run : Run) : Bool :=
  (run.state = .blocked || run.state = .cancelled) && run.hasWorkerResult &&
    run.verificationThreadId.isSome && run.blockedPhase.getD (text "verifying") = text "verifying"

/-- `begin_cycle(run, "review")`. -/
def beginReview (run : Run) : Run :=
  { run with state := .queued, epoch := run.epoch + 1, finishedAt := none, acknowledged := false }

def queueReview (run : Run) (s : Store) : Checked (Run × Store) :=
  let busy := (s.runsOf run.taskId).find? (fun r =>
    r.id ≠ run.id && (r.state.isActive || r.state = .outcomeUnknown))
  match busy with
  | some _ => .error (.conflict "This task already has an active or uncertain run")
  | none => .ok (beginReview run, s.putRun (beginReview run))

structure Edit where
  fields : List Str
  expectedRevision : Option ℕ
  recipe : Recipe → Checked Recipe
  applyTo : Option Str
  enabled : Option Bool
  source : Option (Option Str)

inductive TaskAction where
  | run
  | edit (payload : Edit)
  | pause (cancelCurrent : Bool)
  | delete

/-- `set(Recipe.model_fields)` and the names a command has besides. -/
def editFields : List Str :=
  [text "title", text "type", text "prompt", text "project_dir", text "provider", text "model",
    text "effort", text "execution_mode", text "conversation_turns", text "schedule",
    text "acceptance_criteria", text "send_files", text "request_id", text "expected_revision",
    text "apply_to", text "enabled"]

def currentFields : List Str :=
  [text "prompt", text "type", text "project_dir", text "acceptance_criteria",
    text "execution_mode", text "conversation_turns"]

def edited (h : Host) (now : Now) (payload : Edit) (task : Task) : Checked Task := do
  if payload.expectedRevision ≠ some task.revision then
    .error (.conflict "This task changed; reload before saving")
  else if !payload.fields.all editFields.contains then
    .error (.value "Unknown task fields")
  else if !([text "current_and_future", text "future"].contains
      (payload.applyTo.getD (text "current_and_future"))) then
    .error (.value "Invalid apply_to")
  else do
    let recipe ← payload.recipe task.recipe
    let task := { task with recipe, sourceMessageId := payload.source.getD task.sourceMessageId }
    let task := match payload.enabled with
      | some enabled => { task with enabled, state := if enabled then .enabled else .paused }
      | none => task
    if payload.fields.contains (text "schedule") || payload.enabled = some true then do
      let next ← h.next task.recipe.schedule now.moment true
      pure { task with scheduleRevision := task.scheduleRevision + 1, nextOccurrenceAt := next }
    else pure task

def changed (h : Host) (now : Now) (action : TaskAction) (task : Task) : Checked Task :=
  match action with
  | .run => .ok task
  | .edit payload => edited h now payload task
  | .pause _ => .ok { task with enabled := false, state := .paused }
  | .delete =>
    .ok { task with enabled := false, state := .deleted, deletedAt := some now.stamp }

def TaskAction.stops : TaskAction → Bool
  | .delete => true
  | .pause cancelCurrent => cancelCurrent
  | _ => false

def TaskAction.updates : TaskAction → Bool
  | .edit payload => payload.applyTo ≠ some (text "future") && currentFields.any payload.fields.contains
  | _ => false

def reached (action : TaskAction) (task : Task) (run : Run) : Option Run :=
  if action.stops || action.updates then
    some { run with
      epoch := run.epoch + 1
      state := if action.stops then .cancelling else run.state
      pendingRecipe := if action.updates then some task else run.pendingRecipe }
  else none

def reachRun (action : TaskAction) (task : Task) (s : Store) (run : Run) : Store :=
  if run.state.isActive then
    match reached action task run with
    | some run => s.putRun run
    | none => s
  else s

/-- The operation of `mutate_task`. -/
def mutateTask (h : Host) (now : Now) (identity requestId : Str) (action : TaskAction)
    (s : Store) : Checked (Answer × Store) := do
  let task ← s.task identity
  if task.deletedAt.isSome then .error (.key identity)
  else
    match action with
    | .run =>
      match (newestFirst (s.runsOf identity)).head?.filter (fun old =>
          interruptedReview old && old.recipe.revision = task.revision) with
      | some old => do
        let (run, s) ← s.queueReview old
        pure (⟨some task, some run⟩, s)
      | none =>
        let (run, s) := s.addRun h now task (text "manual:" ++ requestId) none none
        pure (⟨some task, some run⟩, s)
    | action => do
      let task ← changed h now action task
      let task := { task with revision := task.revision + 1 }
      let s := s.putTask task
      let s := (s.runsOf identity).foldl (reachRun action task) s
      pure (⟨some task, none⟩, s)

inductive RunAction where
  | cancel
  | acknowledge

/-- The operation of `mutate_run`. -/
def mutateRun (identity : Str) (action : RunAction) (s : Store) : Checked (Answer × Store) := do
  let run ← s.run identity
  match action with
  | .cancel =>
    let run := if run.state.isActive then
      { run with state := .cancelling, epoch := run.epoch + 1 } else run
    pure (⟨none, some run⟩, s.putRun run)
  | .acknowledge =>
    if !run.state.needsAttention then
      .error (.conflict "Only an attention item can be dismissed")
    else
      let run := { run with acknowledged := true }
      pure (⟨none, some run⟩, s.putRun run)

/-- `command`: an operation that is done once for a request. -/
def command (h : Host) (requestId fingerprint : Str)
    (operation : Store → Checked (Answer × Store)) (s : Store) : Checked Store :=
  if requestId.all (fun n => PyText.isSpace (Char.ofNat n)) || 128 < requestId.length then
    .error (.value "Supply a request_id of at most 128 characters")
  else if s.resetting then
    .error (.conflict "Rem is clearing its history; try again shortly")
  else
    match s.receipts.find? (fun r => r.id = requestId) with
    | some receipt =>
      if receipt.fingerprint ≠ fingerprint then
        .error (.conflict "This request_id was already used for another command")
      else .ok s
    | none => do
      let (answer, s) ← operation s
      pure { s with receipts := s.receipts ++ [⟨requestId, fingerprint, h.encode answer⟩] }

def decimal (n : ℕ) : Str := (Nat.toDigits 10 n).map Char.toNat

def dueTask (h : Host) (now : Now) (clock : ℤ) (s : Store) (task : Task) : Checked Store :=
  match task.enabled, task.nextOccurrenceAt with
  | true, some at_ =>
    match h.instant at_ with
    | none => .error (.value "Invalid isoformat string")
    | some moment =>
      if clock < moment then .ok s
      else do
        let occurrence := task.id ++ text ":" ++ decimal task.scheduleRevision ++ text ":" ++ at_
        let (run, s) := s.addRun h now task occurrence none (some at_)
        let s :=
          if task.recipe.sendFiles && task.recipe.schedule.kind = .once &&
              task.sourceMessageId.isSome && run.occurrence = occurrence then
            s.putRun { run with deliverFilesTo := task.sourceMessageId }
          else s
        let next ← h.next task.recipe.schedule clock false
        pure (s.putTask { task with nextOccurrenceAt := next })
  | _, _ => .ok s

def due (h : Host) (now : Now) (clock : ℤ) (s : Store) : Checked Store :=
  s.tasks.foldlM (dueTask h now clock) s

/-- `RETENTION`, in microseconds. -/
def retention : ℤ := 30 * 24 * 60 * 60 * 1000000

/-- `task_view`: the active run among the newest runs, and the newest run. -/
def view (s : Store) (task : Task) : Option Run × Option Run :=
  let runs := (newestFirst (s.runsOf task.id)).take 20
  (runs.find? (fun r => r.state.isActive), runs.head?)

/-- The moment of `cleanup_at`, where the task is done. -/
def cleanupAt (h : Host) (s : Store) (task : Task) : Option ℤ :=
  match s.view task with
  | (none, some last) =>
    match last.finishedAt.bind h.instant with
    | some finished =>
      if task.recipe.schedule.kind = .once && task.nextOccurrenceAt.isNone &&
          (last.state = .succeeded || last.state = .cancelled ||
            last.state.needsAttention && last.acknowledged) then
        some (finished + retention)
      else none
    | none => none
  | _ => none

/-- `instr(body, identity) > 0`. -/
def mentions (body identity : Str) : Bool := body.tails.any identity.isPrefixOf

def without (s : Store) (task : Task) (runIds threads : List Str) : Store :=
  { s with
    tasks := s.tasks.filter (fun t => t.id ≠ task.id)
    runs := s.runs.filter (fun r => !runIds.contains r.id)
    threads := s.threads.filter (fun t => !threads.contains t.id)
    receipts := s.receipts.filter (fun receipt =>
      !(task.id :: (runIds ++ threads)).any (mentions receipt.body)) }

def cleanTask (h : Host) (clock : ℤ) (busyRuns busyThreads : List Str) (s : Store)
    (task : Task) : Store :=
  match s.cleanupAt h task with
  | none => s
  | some due =>
    if clock < due then s
    else
      let runs := s.runsOf task.id
      let runIds := runs.map Run.id
      let threads := runs.map Run.threadId ++
        (s.threads.filter (fun t => runIds.contains t.managedRunId)).map Thread.id
      if runs.any (fun r => r.state.isActive) || runIds.any busyRuns.contains ||
          threads.any busyThreads.contains || s.outbox.any runIds.contains ||
          s.runs.any (fun r => r.taskId ≠ task.id && threads.contains r.threadId) then s
      else s.without task runIds threads

def cleanup (h : Host) (clock : ℤ) (busyRuns busyThreads : List Str) (s : Store) : Store :=
  s.tasks.foldl (cleanTask h clock busyRuns busyThreads) s

end Store

/-! Transactions, one after the other. -/

inductive Action where
  | addTask (now : Now) (recipe : Recipe) (source : Option Str)
  | mutateTask (now : Now) (identity requestId fingerprint : Str) (action : Store.TaskAction)
  | mutateRun (identity requestId fingerprint : Str) (action : Store.RunAction)
  | queueReview (identity : Str)
  | due (now : Now) (clock : ℤ)
  | cleanup (clock : ℤ) (busyRuns busyThreads : List Str)
  | advance (identity : Str) (change : Run → Run)
  | others (threads : List Thread) (outbox : List Str) (resetting : Bool)

namespace Store

def advanceRun (identity : Str) (change : Run → Run) (s : Store) : Checked Store := do
  let run ← s.run identity
  if run.state.isActive then
    pure (s.putRun
      { change run with id := run.id, taskId := run.taskId, occurrence := run.occurrence })
  else .error (.conflict "This run is over")

def act (h : Host) (s : Store) : Action → Checked Store
  | .addTask now recipe source => do
    let (_, s) ← s.addTask h now recipe source
    pure s
  | .mutateTask now identity requestId fingerprint action =>
    s.command h requestId fingerprint (mutateTask h now identity requestId action)
  | .mutateRun identity requestId fingerprint action =>
    s.command h requestId fingerprint (mutateRun identity action)
  | .queueReview identity => do
    let run ← s.run identity
    let (_, s) ← s.queueReview run
    pure s
  | .due now clock => s.due h now clock
  | .cleanup clock busyRuns busyThreads => .ok (s.cleanup h clock busyRuns busyThreads)
  | .advance identity change => s.advanceRun identity change
  | .others threads outbox resetting => .ok { s with threads, outbox, resetting }

def step (h : Host) (s : Store) (action : Action) : Store :=
  match s.act h action with
  | .ok s' => s'
  | .error _ => s

def steps (h : Host) (s : Store) (actions : List Action) : Store := actions.foldl (step h) s

def empty : Store := ⟨[], [], [], [], [], false, 0, []⟩

end Store

end Raticode.Rem
