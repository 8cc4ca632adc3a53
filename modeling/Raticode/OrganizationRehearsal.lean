import Mathlib.Data.List.Sort
import Mathlib.Tactic.Linarith
import Raticode.OrganizationDispatch

/-! `rehearse`: a copy of the organization is planned ahead, on a clock of its own. -/
namespace Raticode.Organizations
open PyDocument OrderedDict Attempt

structure RehearsalRequest where
  at' : Option ℚ := none
  config : Option OrganizationConfig := none
  assumedDurationSeconds : Option ℚ := none
  horizonSeconds : ℤ := 3600
  arrivals : List Task := []

/-- A row of the plan; `startSeconds` and `finishSeconds`, where the task is scheduled. -/
structure RehearsalRow where
  taskId : Str
  title : Str
  reason : Str
  times : Option (ℚ × ℚ) := none
  deriving DecidableEq

def running : Str := text "Running"

def Company.putTask (c : Company) (i : ℕ) (t : Task) : Company :=
  { c with world := { c.world with org := { c.world.org with tasks := c.world.org.tasks.set i t } } }

/-! ### The planning loop -/

structure Planning where
  draft : Company
  slots : List ℚ
  roots : Dict Str ℚ := []
  employees : Dict (Option Str) ℚ := []
  finished : Dict Str ℚ
  report : List (Task × RehearsalRow) := []

def readied (t : Task) : Task :=
  if t.blockReason = text "dependencies" then { t with status := .todo, blockReason := [] } else t

def carriedOut (t : Task) : Task := { t with status := if t.reviewRequired then .inReview else .done }

/-- `min(range(concurrency), key=lambda i: slots[i])`. -/
def leastSlot (slots : List ℚ) : ℕ := slots.findIdx (fun s => slots.all (fun r => decide (s ≤ r)))

/-- `max(times, default=0)`. -/
def latest : List ℚ → ℚ
  | [] => 0
  | x :: xs => xs.foldl max x

namespace Planning

section Loop
variable (m : Moment) (at' duration : ℚ) (horizon : ℤ)

def candidateTime (t : Task) : ℚ := max at' (t.dueAt.getD at')

def waits (st : Planning) (t : Task) : Bool := t.dependsOn.any (fun d => (st.finished.get d).isNone)

def startOf (st : Planning) (slot : ℕ) (root : Str) (t : Task) : ℚ :=
  max (max (max (max (st.slots.getD slot 0) ((st.roots.get root).getD 0))
    ((st.employees.get t.assignee).getD 0)) (candidateTime at' t - at'))
    (latest (t.dependsOn.map (fun d => (st.finished.get d).getD 0)))

def reported (st : Planning) (t : Task) (row : RehearsalRow) : Planning :=
  { st with report := st.report ++ [(t, row)] }

def scheduledAt (st : Planning) (i : ℕ) (t : Task) (slot : ℕ) (root : Str) (start : ℚ) : Planning :=
  let finish := start + duration
  let accounts := [companyAccount, employeeAccount (t.assignee.getD []), initiativeAccount t.project]
  { draft := (st.draft.putTask i (carriedOut t)).charge
      (m.month (candidateTime at' t)) accounts (fun a => { a with turns := some (a.used + 1) })
    slots := st.slots.set slot finish
    roots := st.roots.set root finish
    employees := st.employees.set t.assignee finish
    finished := if t.reviewRequired then st.finished else st.finished.set t.id finish
    report := st.report ++ [(t, ⟨t.id, t.title, ready, some (start, finish)⟩)] }

def visit (st : Planning) (i : ℕ) (found : Task) : Planning :=
  let t := readied found
  let st := { st with draft := st.draft.putTask i t }
  let reason := taskReason { m with now := candidateTime at' t } st.draft t
  let root := workspace st.draft.config t
  if reason = ready then
    let slot := leastSlot st.slots
    let start := st.startOf at' slot root t
    if (horizon : ℚ) < start then
      st.reported t ⟨t.id, t.title, text "Outside rehearsal horizon", none⟩
    else st.scheduledAt m at' duration i t slot root start
  else if reason = running then
    { st.reported t ⟨t.id, t.title, reason, none⟩ with
      roots := st.roots.set root duration
      employees := st.employees.set t.assignee duration }
  else st.reported t ⟨t.id, t.title, reason, none⟩

/-- `for task in list(pending)`: the tasks that were looked at and still wait, then those to come. What
is removed is equal to the task, so it stands no later. -/
def pass (st : Planning) (kept : List ℕ) : List ℕ → Bool → Planning × List ℕ × Bool
  | [], progress => (st, kept, progress)
  | i :: rest, progress =>
    match st.draft.tasks[i]? with
    | none => pass st (kept ++ [i]) rest progress
    | some t =>
      if st.waits t then pass st (kept ++ [i]) rest progress
      else
        let st := st.visit m at' duration horizon i t
        pass st ((kept ++ [i]).eraseP (fun j => st.draft.tasks[j]? = st.draft.tasks[i]?)) rest true

def leftOver (st : Planning) (pending : List ℕ) : List (Task × RehearsalRow) :=
  pending.filterMap (fun i => (st.draft.tasks[i]?).map (fun t =>
    (t, ⟨t.id, t.title, text "Waiting for dependencies or their review", none⟩)))

/-- `while pending`, for at most the given number of passes. -/
def plan : ℕ → Planning → List ℕ → Option (List (Task × RehearsalRow))
  | 0, _, _ => none
  | n + 1, st, pending =>
    if pending = [] then some st.report
    else
      let (st, pending, progress) := st.pass m at' duration horizon [] pending false
      if progress then plan n st pending else some (st.report ++ st.leftOver pending)

end Loop

end Planning

def Priority.rank : Priority → ℕ
  | .critical => 0
  | .high => 1
  | .medium => 2
  | .low => 3

def byPriority (tasks : List Task) : List ℕ :=
  (tasks.zipIdx.insertionSort (fun a b => a.1.priority.rank ≤ b.1.priority.rank)).map (·.2)

def Planning.begin (draft : Company) : Planning where
  draft := draft
  slots := List.replicate (min 8 draft.config.caps.maxConcurrency) 0
  finished := (draft.tasks.filter (fun t => t.status = .done && !t.isClaimed)).foldl
    (fun d t => d.set t.id 0) []

/-! ### The copy -/

def dueLast (c : Company) (r : Routine) (due : ℚ) : Except String Company :=
  match present r.lastTaskId with
  | none => .ok c
  | some id =>
    match c.tasks.zipIdx.find? (fun p => p.1.id = id) with
    | none => .error "StopIteration"
    | some (t, i) => .ok (c.putTask i { t with dueAt := some due })

def rehearseRoutine (m : Moment) (fresh : ℕ → Str) (at' until' : ℚ) (key : Str) :
    ℕ → Company → Routine → Option ℚ → Except String (Company × ℕ)
  | 0, c, _, _ => .ok (c, 0)
  | n + 1, c, _, none => .ok (c, n + 1)
  | n + 1, c, r, some due =>
    if !r.enabled || until' < due then .ok (c, n + 1)
    else do
      let (c, r) ← c.trigger m (fresh c.tasks.length) r (text "rehearsal:" ++ m.iso due)
      let c ← dueLast { c with routines := c.routines.set key r } r due
      rehearseRoutine m fresh at' until' key n c r (r.next m (max at' due))

/-- `simulatedOccurrences` of all routines. -/
def rehearseRoutines (m : Moment) (fresh : ℕ → Str) (at' until' : ℚ) (c : Company) :
    Except String (Company × ℕ) :=
  c.routines.foldlM (fun (acc : Company × ℕ) entry =>
    rehearseRoutine m fresh at' until' entry.1 acc.2 acc.1 entry.2 entry.2.nextAt) (c, 500)

structure Rehearsal where
  at' : ℚ
  durationSeconds : ℚ
  horizonSeconds : ℤ
  simulatedOccurrences : ℕ
  historicalSamples : ℕ
  draft : Company
  report : List (Task × RehearsalRow)

def Rehearsal.tasks (r : Rehearsal) : List RehearsalRow := r.report.map Prod.snd

def Company.rehearsed (c : Company) (config : Option OrganizationConfig) (arrivals : List Task) : Company :=
  { c with world := { c.world with org := { c.world.org with
      config := config.getD c.config
      running := true
      tasks := c.world.org.tasks ++ arrivals } } }

/-- `rehearse`, of an organization whose completed attempts took the times of the history. -/
def rehearse (m : Moment) (fresh : ℕ → Str) (c : Company) (history : List ℚ) (p : RehearsalRequest) :
    Except String Rehearsal := do
  let at' := p.at'.getD m.now
  let duration := p.assumedDurationSeconds.getD
    (if history = [] then 60 else history.sum / history.length)
  let horizon := p.horizonSeconds
  require (1 ≤ duration && decide (duration ≤ 86400) && decide (1 ≤ horizon) && decide (horizon ≤ 604800))
    "Use duration 1..86400 seconds and horizon 1..604800 seconds"
  require (p.arrivals.length ≤ 100) "Provide at most 100 simulated task arrivals"
  let (draft, left) ← rehearseRoutines m fresh at' (at' + horizon) (c.rehearsed p.config p.arrivals)
  match Planning.plan m at' duration horizon (draft.tasks.length + 1) (.begin draft) (byPriority draft.tasks) with
  | none => .error "The planning loop goes on"
  | some report => .ok ⟨at', duration, horizon, 500 - left, history.length, draft, report⟩

/-! ### What a plan should be -/

def Task.isRunning (t : Task) : Bool := t.isClaimed && t.status ≠ .done && t.status ≠ .cancelled

structure Slot where
  task : Task
  start : ℚ
  finish : ℚ

def scheduled (report : List (Task × RehearsalRow)) : List Slot :=
  report.filterMap (fun p => p.2.times.map (fun s => ⟨p.1, s.1, s.2⟩))

def Slot.apart (p q : Slot) : Prop := p.finish ≤ q.start ∨ q.finish ≤ p.start

def Slot.active (time : ℚ) (p : Slot) : Bool := p.start ≤ time && decide (time < p.finish)

/-- The report keeps the company's own rules: one task at a time for each employee and workspace,
none beside a running one, the concurrency cap, the due dates and the dependencies. -/
structure Feasible (at' duration : ℚ) (draft : Company) (report : List (Task × RehearsalRow)) : Prop where
  employees : (scheduled report).Pairwise (fun p q => p.task.assignee = q.task.assignee → p.apart q)
  workspaces : (scheduled report).Pairwise (fun p q =>
    workspace draft.config p.task = workspace draft.config q.task → p.apart q)
  running : ∀ u ∈ draft.tasks, u.isRunning = true → ∀ p ∈ scheduled report,
    p.task.assignee = u.assignee ∨ workspace draft.config p.task = workspace draft.config u →
      duration ≤ p.start
  concurrency : ∀ time, 0 ≤ time → (scheduled report).countP (Slot.active time) +
    (if time < duration then draft.tasks.countP Task.isRunning else 0) ≤
      min 8 draft.config.caps.maxConcurrency
  due : ∀ p ∈ scheduled report, 0 ≤ p.start ∧ ∀ due ∈ p.task.dueAt, due - at' ≤ p.start
  dependencies : ∀ p ∈ scheduled report, ∀ d ∈ p.task.dependsOn,
    (∃ u ∈ draft.tasks, u.id = d ∧ u.status = .done) ∨
      ∃ q ∈ scheduled report, q.task.id = d ∧ q.finish ≤ p.start
  once : (report.map (fun p => p.2.taskId)).Perm (draft.tasks.map (·.id))

/-! ### When the runs are in the way of the plan -/

/-- The turns of a pass: the state in which the loop asks for the reason of a task, and the task. -/
def Planning.passTurns (m : Moment) (at' duration : ℚ) (horizon : ℤ) (st : Planning) :
    List ℕ → List (Planning × Task)
  | [] => []
  | i :: rest =>
    match st.draft.tasks[i]? with
    | none => passTurns m at' duration horizon st rest
    | some t =>
      if st.waits t then passTurns m at' duration horizon st rest
      else ({ st with draft := st.draft.putTask i (readied t) }, readied t) ::
        passTurns m at' duration horizon (st.visit m at' duration horizon i t) rest

/-- The turns of `while pending`. -/
def Planning.turns (m : Moment) (at' duration : ℚ) (horizon : ℤ) :
    ℕ → Planning → List ℕ → List (Planning × Task)
  | 0, _, _ => []
  | n + 1, st, pending =>
    if pending = [] then []
    else
      let (st', left, progress) := st.pass m at' duration horizon [] pending false
      st.passTurns m at' duration horizon pending ++
        (if progress then turns m at' duration horizon n st' left else [])

section Condition
variable (m : Moment) (at' duration : ℚ) (horizon : ℤ)

def Planning.reason (st : Planning) (t : Task) : Str :=
  taskReason { m with now := candidateTime at' t } st.draft t

/-- Whatever the task waits for is over at a time of the kind: the moment from which it may start, a
slot, its workspace, its worker and what it depends on. -/
def Planning.Free (st : Planning) (t : Task) (kind : ℚ → Prop) : Prop :=
  kind (candidateTime at' t - at') ∧ (∃ s ∈ st.slots, kind s) ∧
    kind ((st.roots.get (workspace st.draft.config t)).getD 0) ∧
    kind ((st.employees.get t.assignee).getD 0) ∧
    ∀ d ∈ t.dependsOn, kind ((st.finished.get d).getD 0)

instance (st : Planning) (t : Task) (kind : ℚ → Prop) [DecidablePred kind] :
    Decidable (st.Free at' t kind) :=
  inferInstanceAs (Decidable (_ ∧ _))

def Task.Shares (config : OrganizationConfig) (t u : Task) : Prop :=
  t.assignee = u.assignee ∨ workspace config t = workspace config u

instance (config : OrganizationConfig) (t u : Task) : Decidable (t.Shares config u) :=
  inferInstanceAs (Decidable (_ ∨ _))

/-- How many tasks are planned so far to start before the runs end. -/
def begun (report : List (Task × RehearsalRow)) : ℕ :=
  (scheduled report).countP (fun p => decide (p.start < duration))

def Company.runningTasks (c : Company) : ℕ := c.tasks.countP Task.isRunning

/-- The loop has come to the runs of the worker and in the workspace of the task. -/
def RunsSeen (draft : Company) (st : Planning) (t : Task) : Prop :=
  ∀ u ∈ draft.tasks, u.isRunning = true → t.Shares draft.config u →
    ∃ p ∈ st.report, p.1 = readied u ∧ p.2.reason = running

/-- The runs leave a slot to one more task that is planned to start before they end. -/
def RoomLeft (draft : Company) (st : Planning) : Prop :=
  draft.runningTasks = 0 ∨
    begun duration st.report + draft.runningTasks < min 8 draft.config.caps.maxConcurrency

/-- The loop reckons with the runs in a turn that plans a task: one that could start before they end is
only planned after the runs that are in its way, and if they leave a slot. -/
def Reckoned (draft : Company) (v : Planning × Task) : Prop :=
  v.1.reason m at' v.2 = ready → v.1.Free at' v.2 (· ≤ (horizon : ℚ)) → v.1.Free at' v.2 (· < duration) →
    RunsSeen draft v.1 v.2 ∧ RoomLeft duration draft v.1

/-- A turn that reports a run takes nothing back of what is planned for its worker and in its workspace. -/
def NothingLowered (v : Planning × Task) : Prop :=
  v.1.reason m at' v.2 = running →
    (v.1.roots.get (workspace v.1.draft.config v.2)).getD 0 ≤ duration ∧
      (v.1.employees.get v.2.assignee).getD 0 ≤ duration

instance (draft : Company) (st : Planning) (t : Task) : Decidable (RunsSeen draft st t) :=
  inferInstanceAs (Decidable (∀ u ∈ draft.tasks, _ → _ → _))

instance (draft : Company) (st : Planning) : Decidable (RoomLeft duration draft st) :=
  inferInstanceAs (Decidable (_ ∨ _))

instance (draft : Company) (v : Planning × Task) : Decidable (Reckoned m at' duration horizon draft v) :=
  inferInstanceAs (Decidable (_ → _ → _ → _ ∧ _))

instance (v : Planning × Task) : Decidable (NothingLowered m at' duration v) :=
  inferInstanceAs (Decidable (_ → _ ∧ _))

def loopTurns (draft : Company) : List (Planning × Task) :=
  Planning.turns m at' duration horizon (draft.tasks.length + 1) (.begin draft) (byPriority draft.tasks)

/-- No turn takes back what is planned. -/
def RunsKept (draft : Company) : Prop :=
  ∀ v ∈ loopTurns m at' duration horizon draft, NothingLowered m at' duration v

/-- The runs fit into the slots, and the loop reckons with them in every turn. -/
def RunsReckoned (draft : Company) : Prop :=
  draft.runningTasks ≤ min 8 draft.config.caps.maxConcurrency ∧
    ∀ v ∈ loopTurns m at' duration horizon draft, Reckoned m at' duration horizon draft v

instance (draft : Company) : Decidable (RunsKept m at' duration horizon draft) :=
  inferInstanceAs (Decidable (∀ v ∈ loopTurns m at' duration horizon draft, NothingLowered m at' duration v))

instance (draft : Company) : Decidable (RunsReckoned m at' duration horizon draft) :=
  inferInstanceAs (Decidable (_ ∧ ∀ v ∈ loopTurns m at' duration horizon draft,
    Reckoned m at' duration horizon draft v))

end Condition

/-! ### What a visit keeps -/

theorem scheduled_append_none (report : List (Task × RehearsalRow)) (t : Task) {row : RehearsalRow}
    (h : row.times = none) : scheduled (report ++ [(t, row)]) = scheduled report := by
  simp [scheduled, List.filterMap_append, h]

theorem scheduled_append_some (report : List (Task × RehearsalRow)) (t : Task) {row : RehearsalRow}
    {s : ℚ × ℚ} (h : row.times = some s) :
    scheduled (report ++ [(t, row)]) = scheduled report ++ [⟨t, s.1, s.2⟩] := by
  simp [scheduled, List.filterMap_append, h]

theorem exists_least {slots : List ℚ} (h : slots ≠ []) : ∃ s ∈ slots, ∀ r ∈ slots, s ≤ r := by
  induction slots with
  | nil => exact absurd rfl h
  | cons s slots ih =>
    by_cases hlast : slots = []
    · exact ⟨s, List.mem_cons_self, by simp [hlast]⟩
    · obtain ⟨least, hmem, hle⟩ := ih hlast
      refine ⟨min s least, ?_, ?_⟩
      · rcases min_choice s least with hmin | hmin
        · rw [hmin]
          exact List.mem_cons_self
        · rw [hmin]
          exact List.mem_cons_of_mem _ hmem
      · intro r hr
        rcases List.mem_cons.mp hr with rfl | hr
        · exact min_le_left _ _
        · exact (min_le_right _ _).trans (hle r hr)

theorem leastSlot_lt {slots : List ℚ} (h : slots ≠ []) : leastSlot slots < slots.length := by
  obtain ⟨least, hmem, hle⟩ := exists_least h
  apply List.findIdx_lt_length_of_exists
  exact ⟨least, hmem, by simpa using hle⟩

theorem le_latest {times : List ℚ} {x : ℚ} (h : x ∈ times) : x ≤ latest times := by
  have hfold : ∀ (xs : List ℚ) (a : ℚ), a ≤ xs.foldl max a ∧ ∀ x ∈ xs, x ≤ xs.foldl max a := by
    intro xs
    induction xs with
    | nil => simp
    | cons y xs ih =>
      intro a
      obtain ⟨hstart, hall⟩ := ih (max a y)
      refine ⟨(le_max_left a y).trans hstart, ?_⟩
      intro x hx
      rcases List.mem_cons.mp hx with rfl | hx
      · exact (le_max_right a x).trans hstart
      · exact hall x hx
  cases times with
  | nil => cases h
  | cons y xs =>
    rcases List.mem_cons.mp h with rfl | h
    · exact (hfold xs x).1
    · exact (hfold xs y).2 x h

theorem latest_of (kind : ℚ → Prop) (hzero : kind 0) (hmax : ∀ a b, kind a → kind b → kind (max a b))
    {times : List ℚ} (h : ∀ x ∈ times, kind x) : kind (latest times) := by
  cases times with
  | nil => exact hzero
  | cons x xs =>
    have hfold : ∀ (ys : List ℚ) (a : ℚ), kind a → (∀ y ∈ ys, kind y) → kind (ys.foldl max a) := by
      intro ys
      induction ys with
      | nil => exact fun a ha _ => ha
      | cons y ys ih =>
        exact fun a ha hys => ih _ (hmax _ _ ha (hys y List.mem_cons_self))
          (fun z hz => hys z (List.mem_cons_of_mem _ hz))
    exact hfold xs x (h x List.mem_cons_self) (fun y hy => h y (List.mem_cons_of_mem _ hy))

section Booking
variable {β : Type} [DecidableEq β] {busy : Dict β ℚ} {rows : List Slot} {k : Slot → β} {new : Slot}

/-- A key that is taken until its last row finishes is so again when a row has been added to it. -/
theorem finish_le_append (h : ∀ p ∈ rows, p.finish ≤ (busy.get (k p)).getD 0)
    (hnew : (busy.get (k new)).getD 0 ≤ new.finish) :
    ∀ p ∈ rows ++ [new], p.finish ≤ ((busy.set (k new) new.finish).get (k p)).getD 0 := by
  intro p hp
  rw [Dict.get_set]
  rcases List.mem_append.mp hp with hp | hp
  · have hold := h p hp
    split_ifs with hsame
    · rw [← hsame] at hold
      exact hold.trans hnew
    · exact hold
  · rw [List.mem_singleton.mp hp, if_pos rfl]
    exact le_rfl

theorem apart_append (h : ∀ p ∈ rows, p.finish ≤ (busy.get (k p)).getD 0)
    (hrows : rows.Pairwise (fun p q => k p = k q → p.apart q))
    (hnew : (busy.get (k new)).getD 0 ≤ new.start) :
    (rows ++ [new]).Pairwise (fun p q => k p = k q → p.apart q) := by
  rw [List.pairwise_append]
  refine ⟨hrows, List.pairwise_singleton _ _, ?_⟩
  intro p hp q hq hsame
  rw [List.mem_singleton.mp hq] at hsame ⊢
  have hold := h p hp
  rw [hsame] at hold
  exact .inl (hold.trans hnew)

/-- A slot that is free when the row starts counts anew for the time of the row. -/
theorem active_append {slots : List ℚ} {slot : ℕ} (hslot : slot < slots.length) {time : ℚ}
    (h : rows.countP (Slot.active time) ≤ slots.countP (fun s => decide (time < s)))
    (hfree : slots[slot] ≤ new.start) (hfinish : new.start ≤ new.finish) :
    (rows ++ [new]).countP (Slot.active time) ≤
      (slots.set slot new.finish).countP (fun s => decide (time < s)) := by
  rw [List.countP_append, List.countP_singleton, List.countP_set hslot]
  by_cases hbusy : time < slots[slot]
  · have hbefore : ¬new.start ≤ time := by
      intro hle
      linarith
    have hpositive : 0 < slots.countP (fun s => decide (time < s)) := by
      rw [List.countP_pos_iff]
      exact ⟨slots[slot], List.getElem_mem hslot, by simpa using hbusy⟩
    have hlater : time < new.finish := by linarith
    simp [Slot.active, hbefore, hbusy, hlater]
    omega
  · by_cases hlater : time < new.finish
    · simp only [hbusy, hlater, decide_true, decide_false, if_true, Bool.false_eq_true, if_false]
      split_ifs <;> omega
    · simp [Slot.active, hbusy, hlater]
      exact h

end Booking

/-- What the planning state knows of the rows scheduled so far: its employees, roots and slots
are taken until the rows on them finish, and the rows are feasible among themselves. -/
structure Planned (at' duration : ℚ) (draft : Company) (st : Planning) : Prop where
  config : st.draft.config = draft.config
  ids : st.draft.tasks.map (·.id) = draft.tasks.map (·.id)
  slots_length : st.slots.length = min 8 draft.config.caps.maxConcurrency
  employees_le : ∀ p ∈ scheduled st.report, p.finish ≤ (st.employees.get p.task.assignee).getD 0
  roots_le : ∀ p ∈ scheduled st.report, p.finish ≤ (st.roots.get (workspace draft.config p.task)).getD 0
  employees : (scheduled st.report).Pairwise (fun p q => p.task.assignee = q.task.assignee → p.apart q)
  workspaces : (scheduled st.report).Pairwise (fun p q =>
    workspace draft.config p.task = workspace draft.config q.task → p.apart q)
  slots : ∀ time, 0 ≤ time →
    (scheduled st.report).countP (Slot.active time) ≤ st.slots.countP (fun s => decide (time < s))
  due : ∀ p ∈ scheduled st.report, 0 ≤ p.start ∧ ∀ due ∈ p.task.dueAt, due - at' ≤ p.start
  finished : ∀ d v, st.finished.get d = some v → (∃ u ∈ draft.tasks, u.id = d ∧ u.status = .done) ∨
    ∃ q ∈ scheduled st.report, q.task.id = d ∧ q.finish ≤ v
  dependencies : ∀ p ∈ scheduled st.report, ∀ d ∈ p.task.dependsOn,
    (∃ u ∈ draft.tasks, u.id = d ∧ u.status = .done) ∨
      ∃ q ∈ scheduled st.report, q.task.id = d ∧ q.finish ≤ p.start
  seen : ∀ p ∈ st.report, p.2.reason = running →
    duration ≤ (st.employees.get p.1.assignee).getD 0 ∧
      duration ≤ (st.roots.get (workspace draft.config p.1)).getD 0
  runs : ∀ u ∈ draft.tasks, u.isRunning = true → ∀ p ∈ scheduled st.report,
    p.task.Shares draft.config u → duration ≤ p.start
  room : draft.runningTasks = 0 ∨ begun duration st.report = 0 ∨
    begun duration st.report + draft.runningTasks ≤ min 8 draft.config.caps.maxConcurrency

section Visits
variable {m : Moment} {at' duration : ℚ} {horizon : ℤ} {draft : Company} {st : Planning}
  {kept rest : List ℕ} {i : ℕ} {found : Task}

theorem startOf_ge (at' : ℚ) (st : Planning) (slot : ℕ) (root : Str) (t : Task) :
    st.slots.getD slot 0 ≤ st.startOf at' slot root t ∧
      (st.roots.get root).getD 0 ≤ st.startOf at' slot root t ∧
      (st.employees.get t.assignee).getD 0 ≤ st.startOf at' slot root t ∧
      Planning.candidateTime at' t - at' ≤ st.startOf at' slot root t ∧
      ∀ d ∈ t.dependsOn, (st.finished.get d).getD 0 ≤ st.startOf at' slot root t := by
  unfold Planning.startOf
  refine ⟨?_, ?_, ?_, ?_, ?_⟩
  · exact ((le_max_left _ _).trans (le_max_left _ _)).trans ((le_max_left _ _).trans (le_max_left _ _))
  · exact ((le_max_right _ _).trans (le_max_left _ _)).trans ((le_max_left _ _).trans (le_max_left _ _))
  · exact (le_max_right _ _).trans ((le_max_left _ _).trans (le_max_left _ _))
  · exact (le_max_right _ _).trans (le_max_left _ _)
  · intro d hd
    apply le_trans _ (le_max_right _ _)
    exact le_latest (List.mem_map_of_mem hd)

theorem Planned.putTask (h : Planned at' duration draft st) {i : ℕ} {t t' : Task}
    (hi : st.draft.tasks[i]? = some t) (hid : t'.id = t.id) :
    Planned at' duration draft { st with draft := st.draft.putTask i t' } where
  config := h.config
  ids := by
    obtain ⟨hlt, rfl⟩ := List.getElem?_eq_some_iff.mp hi
    have hset : (st.draft.tasks.set i t').map (·.id) = st.draft.tasks.map (·.id) := by
      apply List.ext_getElem (by simp)
      intro n _ _
      simp only [List.getElem_map, List.getElem_set]
      split_ifs with hn
      · subst hn
        exact hid
      · rfl
    exact hset.trans h.ids
  slots_length := h.slots_length
  employees_le := h.employees_le
  roots_le := h.roots_le
  employees := h.employees
  workspaces := h.workspaces
  slots := h.slots
  due := h.due
  finished := h.finished
  dependencies := h.dependencies
  seen := h.seen
  runs := h.runs
  room := h.room

theorem Planned.reported (h : Planned at' duration draft st) (t : Task) {row : RehearsalRow}
    (hrow : row.times = none) (hreason : row.reason ≠ running) : Planned at' duration draft (st.reported t row) := by
  have hsame : scheduled (st.reported t row).report = scheduled st.report :=
    scheduled_append_none st.report t hrow
  exact {
    config := h.config
    ids := h.ids
    slots_length := h.slots_length
    employees_le := hsame ▸ h.employees_le
    roots_le := hsame ▸ h.roots_le
    employees := hsame ▸ h.employees
    workspaces := hsame ▸ h.workspaces
    slots := hsame ▸ h.slots
    due := hsame ▸ h.due
    finished := hsame ▸ h.finished
    dependencies := hsame ▸ h.dependencies
    seen := by
      intro p hp hrun
      rcases List.mem_append.mp hp with hp | hp
      · exact h.seen p hp hrun
      · rw [List.mem_singleton.mp hp] at hrun
        exact absurd hrun hreason
    runs := hsame ▸ h.runs
    room := by
      rw [begun, hsame]
      exact h.room }

/-- A run that is reported holds its worker and its workspace from now on. -/
theorem Planned.visitRunning (h : Planned at' duration draft st) (t : Task) {row : RehearsalRow}
    (hrow : row.times = none)
    (hlowers : (st.roots.get (workspace st.draft.config t)).getD 0 ≤ duration ∧
      (st.employees.get t.assignee).getD 0 ≤ duration) :
    Planned at' duration draft { st.reported t row with
      roots := st.roots.set (workspace st.draft.config t) duration
      employees := st.employees.set t.assignee duration } := by
  have hsame : scheduled (st.reported t row).report = scheduled st.report :=
    scheduled_append_none st.report t hrow
  obtain ⟨hroot, hemployee⟩ := hlowers
  have hroots : ∀ root, (st.roots.get root).getD 0 ≤
      ((st.roots.set (workspace st.draft.config t) duration).get root).getD 0 := by
    intro root
    rw [Dict.get_set]
    split_ifs with heq
    · rw [← heq]
      exact hroot
    · exact le_rfl
  have hemployees : ∀ e, (st.employees.get e).getD 0 ≤
      ((st.employees.set t.assignee duration).get e).getD 0 := by
    intro e
    rw [Dict.get_set]
    split_ifs with heq
    · rw [← heq]
      exact hemployee
    · exact le_rfl
  exact {
    config := h.config
    ids := h.ids
    slots_length := h.slots_length
    employees_le := fun p hp => (h.employees_le p (hsame ▸ hp)).trans (hemployees _)
    roots_le := fun p hp => (h.roots_le p (hsame ▸ hp)).trans (hroots _)
    employees := hsame ▸ h.employees
    workspaces := hsame ▸ h.workspaces
    slots := hsame ▸ h.slots
    due := hsame ▸ h.due
    finished := hsame ▸ h.finished
    dependencies := hsame ▸ h.dependencies
    seen := by
      intro p hp hrun
      rcases List.mem_append.mp hp with hp | hp
      · obtain ⟨hold, hold'⟩ := h.seen p hp hrun
        exact ⟨hold.trans (hemployees _), hold'.trans (hroots _)⟩
      · rw [List.mem_singleton.mp hp, ← h.config]
        simp
    runs := hsame ▸ h.runs
    room := by
      rw [begun, hsame]
      exact h.room }

/-- Placing a task at its earliest start keeps the plan, when the start is after the running
tasks it shares something with and there is room beside the others. -/
theorem Planned.scheduledAt (h : Planned at' duration draft st) (hduration : 0 ≤ duration) {i slot : ℕ}
    {t found : Task} {root : Str} (hi : st.draft.tasks[i]? = some found) (hid : t.id = found.id)
    (hroot : root = workspace draft.config t) (hslot : slot < st.slots.length)
    (hfinished : st.waits t = false)
    (hrunning : ∀ u ∈ draft.tasks, u.isRunning = true → t.Shares draft.config u →
      duration ≤ st.startOf at' slot root t)
    (hroom : st.startOf at' slot root t < duration → RoomLeft duration draft st) :
    Planned at' duration draft
      (st.scheduledAt m at' duration i t slot root (st.startOf at' slot root t)) := by
  subst hroot
  obtain ⟨hslots, hroots, hemployees, hdue, hdependencies⟩ :=
    startOf_ge at' st slot (workspace draft.config t) t
  set start := st.startOf at' slot (workspace draft.config t) t with hstart
  have hreport : scheduled (st.scheduledAt m at' duration i t slot (workspace draft.config t) start).report =
      scheduled st.report ++ [⟨t, start, start + duration⟩] :=
    scheduled_append_some st.report t (s := (start, start + duration)) rfl
  have hdraft : Planned at' duration draft { st with draft := st.draft.putTask i (carriedOut t) } :=
    h.putTask hi hid
  have hnonneg : 0 ≤ start := by
    apply le_trans _ hdue
    rw [Planning.candidateTime, sub_nonneg]
    exact le_max_left _ _
  have hfinish : start ≤ start + duration := le_add_of_nonneg_right hduration
  refine ⟨hdraft.config, hdraft.ids, ?_, ?_, ?_, ?_, ?_, ?_, ?_, ?_, ?_, ?_, ?_, ?_⟩
  · rw [← h.slots_length]
    exact List.length_set
  · rw [hreport]
    exact finish_le_append (k := fun p => p.task.assignee) h.employees_le (hemployees.trans hfinish)
  · rw [hreport]
    exact finish_le_append (k := fun p => workspace draft.config p.task) h.roots_le (hroots.trans hfinish)
  · rw [hreport]
    exact apart_append (k := fun p => p.task.assignee) h.employees_le h.employees hemployees
  · rw [hreport]
    exact apart_append (k := fun p => workspace draft.config p.task) h.roots_le h.workspaces hroots
  · intro time htime
    rw [hreport]
    refine active_append hslot (h.slots time htime) ?_ hfinish
    have hgetD : st.slots.getD slot 0 = st.slots[slot] := by simp [hslot]
    exact hgetD ▸ hslots
  · intro p hp
    rw [hreport, List.mem_append, List.mem_singleton] at hp
    rcases hp with hp | rfl
    · exact h.due p hp
    · refine ⟨hnonneg, ?_⟩
      intro due hmem
      have hcandidate : due - at' ≤ Planning.candidateTime at' t - at' := by
        rw [Planning.candidateTime, Option.mem_def.mp hmem, Option.getD_some]
        linarith [le_max_right at' due]
      exact hcandidate.trans hdue
  · intro d v hget
    have hold : ∀ v, st.finished.get d = some v → (∃ u ∈ draft.tasks, u.id = d ∧ u.status = .done) ∨
        ∃ q ∈ scheduled st.report ++ [⟨t, start, start + duration⟩], q.task.id = d ∧ q.finish ≤ v := by
      intro v hv
      rcases h.finished d v hv with hdone | ⟨q, hq, hqid, hle⟩
      · exact .inl hdone
      · exact .inr ⟨q, List.mem_append_left _ hq, hqid, hle⟩
    rw [hreport]
    simp only [Planning.scheduledAt] at hget
    split_ifs at hget
    · exact hold v hget
    · rw [Dict.get_set] at hget
      split_ifs at hget with hsame
      · obtain rfl := Option.some.inj hget
        exact .inr ⟨⟨t, start, start + duration⟩, by simp, hsame, le_rfl⟩
      · exact hold v hget
  · intro p hp d hd
    rw [hreport] at hp ⊢
    rw [List.mem_append, List.mem_singleton] at hp
    rcases hp with hp | rfl
    · rcases h.dependencies p hp d hd with hdone | ⟨q, hq, hqid, hle⟩
      · exact .inl hdone
      · exact .inr ⟨q, List.mem_append_left _ hq, hqid, hle⟩
    · obtain ⟨v, hv⟩ : ∃ v, st.finished.get d = some v := by
        simp only [Planning.waits, List.any_eq_false] at hfinished
        have hsome := hfinished d hd
        simpa [Option.isNone_iff_eq_none, Option.ne_none_iff_exists'] using hsome
      rcases h.finished d v hv with hdone | ⟨q, hq, hqid, hle⟩
      · exact .inl hdone
      · refine .inr ⟨q, List.mem_append_left _ hq, hqid, hle.trans ?_⟩
        have hbehind := hdependencies d hd
        rw [hv] at hbehind
        exact hbehind
  · intro p hp hrun
    rcases List.mem_append.mp hp with hp | hp
    · obtain ⟨hemployee, hroot'⟩ := h.seen p hp hrun
      simp only [Planning.scheduledAt, Dict.get_set]
      constructor
      · split_ifs
        · simp only [Option.getD_some]
          linarith
        · exact hemployee
      · split_ifs
        · simp only [Option.getD_some]
          linarith
        · exact hroot'
    · rw [List.mem_singleton.mp hp] at hrun
      have hready : ready = running := hrun
      exact absurd hready (by decide)
  · intro u hu hrun p hp hshares
    rw [hreport, List.mem_append, List.mem_singleton] at hp
    rcases hp with hp | rfl
    · exact h.runs u hu hrun p hp hshares
    · exact hrunning u hu hrun hshares
  · -- A task that starts before the runs end takes the room that is left for it.
    have hbegun : begun duration (st.scheduledAt m at' duration i t slot (workspace draft.config t) start).report =
        begun duration st.report + if start < duration then 1 else 0 := by
      rw [begun, hreport, List.countP_append, List.countP_singleton, begun]
      simp only [decide_eq_true_eq]
    rw [hbegun]
    split_ifs with hearly
    · rcases hroom hearly with hnone | hleft
      · exact .inl hnone
      · exact .inr (.inr (by omega))
    · exact h.room

/-- The start is of a kind that goes down with the time exactly if all that the task waits for is. -/
theorem startOf_free (st : Planning) (kind : ℚ → Prop) (hdown : ∀ a b, a ≤ b → kind b → kind a)
    (hslots : st.slots ≠ []) (t : Task) : kind (st.startOf at' (leastSlot st.slots) (workspace st.draft.config t) t) ↔
      st.Free at' t kind := by
  obtain ⟨hslot, hroot, hemployee, hdue, hdependencies⟩ :=
    startOf_ge at' st (leastSlot st.slots) (workspace st.draft.config t) t
  have hlt : leastSlot st.slots < st.slots.length := leastSlot_lt hslots
  have hgetD : st.slots.getD (leastSlot st.slots) 0 = st.slots[leastSlot st.slots] := by simp [hlt]
  constructor
  · intro h
    refine ⟨hdown _ _ hdue h, ⟨_, List.getElem_mem hlt, ?_⟩, hdown _ _ hroot h, hdown _ _ hemployee h,
      fun d hd => hdown _ _ (hdependencies d hd) h⟩
    rw [← hgetD]
    exact hdown _ _ hslot h
  · intro ⟨hdue', ⟨s, hs, hs'⟩, hroot', hemployee', hdependencies'⟩
    have hmax : ∀ a b, kind a → kind b → kind (max a b) := by
      intro a b ha hb
      rcases max_choice a b with heq | heq
      · rw [heq]
        exact ha
      · rw [heq]
        exact hb
    have hleast : st.slots.getD (leastSlot st.slots) 0 ≤ s := by
      rw [hgetD]
      have hall := List.findIdx_getElem (w := hlt)
      exact of_decide_eq_true (List.all_eq_true.mp hall s hs)
    have hlatest : kind (latest (t.dependsOn.map (fun d => (st.finished.get d).getD 0))) := by
      apply latest_of kind
      · apply hdown _ _ _ hdue'
        rw [Planning.candidateTime, sub_nonneg]
        exact le_max_left _ _
      · exact hmax
      · intro x hx
        obtain ⟨d, hd, rfl⟩ := List.mem_map.mp hx
        exact hdependencies' d hd
    exact hmax _ _ (hmax _ _ (hmax _ _ (hmax _ _ (hdown _ _ hleast hs') hroot') hemployee') hdue') hlatest

/-- A visit keeps the plan, whether it schedules its task, reports it or leaves it waiting. -/
theorem Planned.visit (h : Planned at' duration draft st) (hduration : 0 ≤ duration)
    (hslots : 0 < min 8 draft.config.caps.maxConcurrency) {i : ℕ} {found : Task}
    (hi : st.draft.tasks[i]? = some found) (hfinished : st.waits found = false)
    (hreckoned : Reckoned m at' duration horizon draft
      ({ st with draft := st.draft.putTask i (readied found) }, readied found))
    (hkept : NothingLowered m at' duration
      ({ st with draft := st.draft.putTask i (readied found) }, readied found)) :
    Planned at' duration draft (st.visit m at' duration horizon i found) := by
  have hid : (readied found).id = found.id := by
    unfold readied
    split_ifs <;> rfl
  have hwaits : st.waits (readied found) = false := by
    rw [← hfinished]
    unfold readied Planning.waits
    split_ifs <;> rfl
  have hput := h.putTask hi hid
  have hiput : (st.draft.putTask i (readied found)).tasks[i]? = some (readied found) := by
    obtain ⟨hlt, -⟩ := List.getElem?_eq_some_iff.mp hi
    exact List.getElem?_set_self hlt
  have hnil : st.slots ≠ [] := by
    apply List.ne_nil_of_length_pos
    rw [h.slots_length]
    exact hslots
  unfold Planning.visit
  simp only
  split_ifs with hreason houtside hrunning
  · have hrow : text "Outside rehearsal horizon" ≠ running := by decide
    exact hput.reported _ rfl hrow
  · have hwithin := (startOf_free { st with draft := st.draft.putTask i (readied found) }
      (· ≤ (horizon : ℚ)) (fun _ _ => le_trans) hnil (readied found)).mp (not_lt.mp houtside)
    have hearly := fun hlt => hreckoned hreason hwithin
      ((startOf_free { st with draft := st.draft.putTask i (readied found) } (· < duration)
        (fun _ _ => lt_of_le_of_lt) hnil _).mp hlt)
    apply hput.scheduledAt hduration hiput rfl (by rw [← hput.config]) (leastSlot_lt hnil) hwaits
    · intro u hu hrun hshares
      by_contra hlt
      obtain ⟨p, hp, hpu, hprun⟩ := (hearly (not_le.mp hlt)).1 u hu hrun hshares
      -- The run has been reported, so its worker and its workspace are taken.
      obtain ⟨-, hroots, hemployees, -, -⟩ := startOf_ge at'
        { st with draft := st.draft.putTask i (readied found) } (leastSlot st.slots)
        (workspace (st.draft.putTask i (readied found)).config (readied found)) (readied found)
      obtain ⟨hemployee, hroot⟩ := hput.seen p hp hprun
      have hworker : (readied u).assignee = u.assignee := by
        unfold readied
        split_ifs <;> rfl
      have hplace : workspace draft.config (readied u) = workspace draft.config u := by
        unfold readied
        split_ifs <;> rfl
      rw [hpu, hworker] at hemployee
      rw [hpu, hplace] at hroot
      apply hlt
      rcases hshares with hsame | hsame
      · rw [← hsame] at hemployee
        exact hemployee.trans hemployees
      · rw [← hsame, ← hput.config] at hroot
        exact hroot.trans hroots
    · exact fun hlt => (hearly hlt).2
  · exact hput.visitRunning _ rfl (hkept hrunning)
  · exact hput.reported _ rfl hrunning

theorem visit_taskIds (st : Planning) (i : ℕ) (found : Task) :
    (st.visit m at' duration horizon i found).report.map (fun p => p.2.taskId) =
      st.report.map (fun p => p.2.taskId) ++ [found.id] := by
  have hid : (readied found).id = found.id := by
    unfold readied
    split_ifs <;> rfl
  unfold Planning.visit
  simp only
  split_ifs
  all_goals simp [Planning.reported, Planning.scheduledAt, hid]

def idsOf (draft : Company) (positions : List ℕ) : List Str :=
  positions.filterMap (fun j => (draft.tasks.map (·.id))[j]?)

theorem idsOf_append (draft : Company) (xs ys : List ℕ) :
    idsOf draft (xs ++ ys) = idsOf draft xs ++ idsOf draft ys :=
  List.filterMap_append

def Accounted (draft : Company) (st : Planning) (pending : List ℕ) : Prop :=
  (st.report.map (fun p => p.2.taskId) ++ idsOf draft pending).Perm (draft.tasks.map (·.id))

theorem Planned.idsOf_singleton (h : Planned at' duration draft st) {i : ℕ} {t : Task}
    (hi : st.draft.tasks[i]? = some t) : idsOf draft [i] = [t.id] := by
  have hmap : (draft.tasks.map (·.id))[i]? = some t.id := by
    rw [← h.ids, List.getElem?_map, hi]
    rfl
  rw [idsOf, List.filterMap_cons, hmap]
  rfl

theorem Accounted.visit (ha : Accounted draft st (kept ++ i :: rest))
    (hst : Planned at' duration draft (st.visit m at' duration horizon i found))
    {found' : Task} (hi : (st.visit m at' duration horizon i found).draft.tasks[i]? = some found')
    (hid : found'.id = found.id) :
    Accounted draft (st.visit m at' duration horizon i found)
      (((kept ++ [i]).eraseP (fun j => (st.visit m at' duration horizon i found).draft.tasks[j]? =
        (st.visit m at' duration horizon i found).draft.tasks[i]?)) ++ rest) := by
  set st' := st.visit m at' duration horizon i found with hst'
  obtain ⟨j, before, after, -, hj, hsplit, herase⟩ := List.exists_of_eraseP
    (p := fun j => decide (st'.draft.tasks[j]? = st'.draft.tasks[i]?)) (l := kept ++ [i]) (a := i)
    (by simp) (by simp)
  rw [herase]
  have hjd : idsOf draft [j] = [found.id] := by
    have hfound : st'.draft.tasks[j]? = some found' := (of_decide_eq_true hj).trans hi
    rw [← hid]
    exact hst.idsOf_singleton hfound
  unfold Accounted at ha ⊢
  have hpending : idsOf draft (kept ++ i :: rest) =
      idsOf draft before ++ found.id :: (idsOf draft after ++ idsOf draft rest) := by
    have hlist : kept ++ i :: rest = before ++ [j] ++ after ++ rest := by
      have hassoc : kept ++ i :: rest = (kept ++ [i]) ++ rest := by simp
      rw [hassoc, hsplit]
      simp
    rw [hlist, idsOf_append, idsOf_append, idsOf_append, hjd]
    simp
  rw [hpending] at ha
  apply List.Perm.trans _ ha
  rw [visit_taskIds, idsOf_append, idsOf_append, List.append_assoc, List.append_assoc]
  apply List.Perm.append_left
  rw [List.singleton_append]
  exact List.perm_middle.symm

theorem visit_tasks (st : Planning) {t : Task} (hi : st.draft.tasks[i]? = some t) :
    ∃ t', (st.visit m at' duration horizon i found).draft.tasks[i]? = some t' ∧ t'.id = found.id := by
  obtain ⟨hlt, -⟩ := List.getElem?_eq_some_iff.mp hi
  have hid : (readied found).id = found.id := by
    unfold readied
    split_ifs <;> rfl
  have hput : (st.draft.putTask i (readied found)).tasks[i]? = some (readied found) :=
    List.getElem?_set_self hlt
  unfold Planning.visit
  simp only
  split_ifs
  · exact ⟨_, hput, hid⟩
  · refine ⟨carriedOut (readied found), ?_, hid⟩
    apply List.getElem?_set_self
    change i < (st.draft.tasks.set i (readied found)).length
    rw [List.length_set]
    exact hlt
  · exact ⟨_, hput, hid⟩
  · exact ⟨_, hput, hid⟩

theorem pass_length {progress progress' : Bool} {st' : Planning} {pending : List ℕ}
    (hpass : st.pass m at' duration horizon kept rest progress = (st', pending, progress')) :
    pending.length ≤ kept.length + rest.length ∧
      (progress' = true → progress = true ∨ pending.length < kept.length + rest.length) := by
  induction rest generalizing st kept progress with
  | nil =>
    simp only [Planning.pass, Prod.mk.injEq] at hpass
    obtain ⟨-, rfl, rfl⟩ := hpass
    exact ⟨by simp, fun hp => .inl hp⟩
  | cons i rest ih =>
    rw [Planning.pass] at hpass
    split at hpass
    · obtain ⟨hle, hprogress⟩ := ih hpass
      simp only [List.length_append, List.length_cons, List.length_nil] at hle hprogress ⊢
      exact ⟨by omega, fun hp => (hprogress hp).imp_right (by omega)⟩
    · split at hpass
      · obtain ⟨hle, hprogress⟩ := ih hpass
        simp only [List.length_append, List.length_cons, List.length_nil] at hle hprogress ⊢
        exact ⟨by omega, fun hp => (hprogress hp).imp_right (by omega)⟩
      · obtain ⟨hle, -⟩ := ih hpass
        rw [List.length_eraseP_of_mem (a := i) (by simp) (by simp)] at hle
        simp only [List.length_append, List.length_cons, List.length_nil] at hle ⊢
        exact ⟨by omega, fun _ => .inr (by omega)⟩

theorem plan_isSome (n : ℕ) {pending : List ℕ} (hn : pending.length < n) :
    (Planning.plan m at' duration horizon n st pending).isSome = true := by
  induction n generalizing st pending with
  | zero => omega
  | succ n ih =>
    rw [Planning.plan]
    split_ifs with hempty
    · rfl
    · cases hpass : st.pass m at' duration horizon [] pending false with
      | mk st' result =>
        obtain ⟨left, progress⟩ := result
        obtain ⟨-, hprogress⟩ := pass_length hpass
        simp only
        split_ifs with hp
        · apply ih
          rcases hprogress hp with hfalse | hlt
          · cases hfalse
          · simp only [List.length_nil] at hlt
            omega
        · rfl

/-- One pass over the waiting tasks keeps the plan and accounts for every task. -/
theorem pass_spec (hduration : 0 ≤ duration) (hslots : 0 < min 8 draft.config.caps.maxConcurrency)
    {progress : Bool} (h : Planned at' duration draft st) (ha : Accounted draft st (kept ++ rest))
    {st' : Planning} {pending : List ℕ} {progress' : Bool}
    (hpass : st.pass m at' duration horizon kept rest progress = (st', pending, progress'))
    (hturns : ∀ v ∈ st.passTurns m at' duration horizon rest,
      Reckoned m at' duration horizon draft v ∧ NothingLowered m at' duration v) :
    Planned at' duration draft st' ∧ Accounted draft st' pending := by
  induction rest generalizing st kept progress with
  | nil =>
    simp only [Planning.pass, Prod.mk.injEq] at hpass
    obtain ⟨rfl, rfl, rfl⟩ := hpass
    rw [List.append_nil] at ha
    exact ⟨h, ha⟩
  | cons i rest ih =>
    rw [Planning.pass] at hpass
    have hskip : Accounted draft st ((kept ++ [i]) ++ rest) := by simpa using ha
    cases hi : st.draft.tasks[i]? with
    | none =>
      simp only [Planning.passTurns, hi] at hpass hturns
      exact ih h hskip hpass hturns
    | some t =>
      simp only [Planning.passTurns, hi] at hpass hturns
      split_ifs at hpass hturns with hwaits
      · exact ih h hskip hpass hturns
      · have hvisit : Planned at' duration draft (st.visit m at' duration horizon i t) :=
          h.visit hduration hslots hi (by simpa using hwaits) (hturns _ List.mem_cons_self).1
            (hturns _ List.mem_cons_self).2
        obtain ⟨t', ht', hid⟩ : ∃ t', (st.visit m at' duration horizon i t).draft.tasks[i]? = some t' ∧
            t'.id = t.id := visit_tasks st hi
        exact ih hvisit (ha.visit hvisit ht' hid) hpass (fun v hv => hturns v (List.mem_cons_of_mem _ hv))

theorem scheduled_leftOver (st : Planning) (report : List (Task × RehearsalRow)) (pending : List ℕ) :
    scheduled (report ++ st.leftOver pending) = scheduled report := by
  have hnone : scheduled (st.leftOver pending) = [] := by
    rw [scheduled, Planning.leftOver, List.filterMap_filterMap, List.filterMap_eq_nil_iff]
    intro j _
    cases st.draft.tasks[j]? <;> rfl
  rw [scheduled, List.filterMap_append]
  exact (congrArg (scheduled report ++ ·) hnone).trans (List.append_nil _)

/-- How many slots there are, and how long the planned tasks take. -/
def Timed (duration : ℚ) (n : ℕ) (st : Planning) : Prop :=
  st.slots.length = n ∧ ∀ p ∈ scheduled st.report, p.finish = p.start + duration

theorem Timed.visit (m : Moment) (at' : ℚ) (horizon : ℤ) {n : ℕ} (h : Timed duration n st) (i : ℕ)
    (found : Task) :
    Timed duration n (st.visit m at' duration horizon i found) ∧
      st.report <+: (st.visit m at' duration horizon i found).report := by
  unfold Planning.visit
  simp only
  split_ifs
  · refine ⟨⟨h.1, ?_⟩, List.prefix_append _ _⟩
    rw [Planning.reported, scheduled_append_none _ _ rfl]
    exact h.2
  · refine ⟨⟨List.length_set.trans h.1, ?_⟩, List.prefix_append _ _⟩
    intro p hp
    rw [Planning.scheduledAt, scheduled_append_some _ _ rfl, List.mem_append, List.mem_singleton] at hp
    rcases hp with hp | rfl
    · exact h.2 p hp
    · rfl
  · refine ⟨⟨h.1, ?_⟩, List.prefix_append _ _⟩
    rw [Planning.reported, scheduled_append_none _ _ rfl]
    exact h.2
  · refine ⟨⟨h.1, ?_⟩, List.prefix_append _ _⟩
    rw [Planning.reported, scheduled_append_none _ _ rfl]
    exact h.2

/-- A turn of a pass is a visit, whose row stays in the report. -/
theorem pass_turns {n : ℕ} (h : Timed duration n st) {progress progress' : Bool} {st' : Planning}
    {pending : List ℕ}
    (hpass : st.pass m at' duration horizon kept rest progress = (st', pending, progress')) :
    (Timed duration n st' ∧ st.report <+: st'.report) ∧
      ∀ v ∈ st.passTurns m at' duration horizon rest, ∃ (now : Planning) (i : ℕ) (found : Task),
        Timed duration n now ∧
        v = ({ now with draft := now.draft.putTask i (readied found) }, readied found) ∧
        (now.visit m at' duration horizon i found).report <+: st'.report := by
  induction rest generalizing st kept progress with
  | nil =>
    simp only [Planning.pass, Prod.mk.injEq] at hpass
    obtain ⟨rfl, -, -⟩ := hpass
    exact ⟨⟨h, List.prefix_rfl⟩, fun v hv => by cases hv⟩
  | cons i rest ih =>
    rw [Planning.pass] at hpass
    cases hi : st.draft.tasks[i]? with
    | none =>
      simp only [Planning.passTurns, hi] at hpass ⊢
      exact ih h hpass
    | some t =>
      simp only [Planning.passTurns, hi] at hpass ⊢
      split_ifs at hpass ⊢ with hwaits
      · exact ih h hpass
      · obtain ⟨hvisit, hgrows⟩ := h.visit m at' horizon i t
        obtain ⟨⟨hst, hgrown⟩, hlater⟩ := ih hvisit hpass
        refine ⟨⟨hst, hgrows.trans hgrown⟩, fun v hv => ?_⟩
        rcases List.mem_cons.mp hv with rfl | hv
        · exact ⟨st, i, t, h, rfl, hgrown⟩
        · exact hlater v hv

/-- So is a turn of the whole loop. -/
theorem plan_turns {k : ℕ} (h : Timed duration k st) {n : ℕ} {pending : List ℕ}
    {report : List (Task × RehearsalRow)}
    (hplan : Planning.plan m at' duration horizon n st pending = some report) :
    (st.report <+: report ∧ ∀ p ∈ scheduled report, p.finish = p.start + duration) ∧
      ∀ v ∈ Planning.turns m at' duration horizon n st pending,
        ∃ (now : Planning) (i : ℕ) (found : Task), Timed duration k now ∧
          v = ({ now with draft := now.draft.putTask i (readied found) }, readied found) ∧
          (now.visit m at' duration horizon i found).report <+: report := by
  induction n generalizing st pending with
  | zero => cases hplan
  | succ n ih =>
    rw [Planning.plan] at hplan
    split_ifs at hplan with hempty
    · obtain rfl := Option.some.inj hplan
      rw [Planning.turns, if_pos hempty]
      exact ⟨⟨List.prefix_rfl, h.2⟩, fun v hv => by cases hv⟩
    · cases hpass : st.pass m at' duration horizon [] pending false with
      | mk st' result =>
        obtain ⟨left, progress⟩ := result
        obtain ⟨⟨hst, hgrows⟩, hvisits⟩ := pass_turns h hpass
        rw [hpass] at hplan
        simp only at hplan
        rw [Planning.turns, if_neg hempty, hpass]
        simp only
        split_ifs at hplan ⊢ with hp
        · obtain ⟨⟨hgrown, htimes⟩, hlater⟩ := ih hst hplan
          refine ⟨⟨hgrows.trans hgrown, htimes⟩, fun v hv => ?_⟩
          rcases List.mem_append.mp hv with hv | hv
          · obtain ⟨now, i, found, hnow, rfl, hrow⟩ := hvisits v hv
            exact ⟨now, i, found, hnow, rfl, hrow.trans hgrown⟩
          · exact hlater v hv
        · obtain rfl := Option.some.inj hplan
          refine ⟨⟨hgrows.trans (List.prefix_append _ _), ?_⟩, fun v hv => ?_⟩
          · rw [scheduled_leftOver]
            exact hst.2
          · rw [List.append_nil] at hv
            obtain ⟨now, i, found, hnow, rfl, hrow⟩ := hvisits v hv
            exact ⟨now, i, found, hnow, rfl, hrow.trans (List.prefix_append _ _)⟩

/-- The loop of passes ends with a plan whose report names every task once. -/
theorem plan_spec (hduration : 0 ≤ duration) (hslots : 0 < min 8 draft.config.caps.maxConcurrency)
    (n : ℕ) {pending : List ℕ} (h : Planned at' duration draft st) (ha : Accounted draft st pending)
    {report : List (Task × RehearsalRow)}
    (hplan : Planning.plan m at' duration horizon n st pending = some report)
    (hturns : ∀ v ∈ Planning.turns m at' duration horizon n st pending,
      Reckoned m at' duration horizon draft v ∧ NothingLowered m at' duration v) :
    ∃ st', Planned at' duration draft st' ∧ scheduled report = scheduled st'.report ∧
      (report.map (fun p => p.2.taskId)).Perm (draft.tasks.map (·.id)) := by
  induction n generalizing st pending with
  | zero => cases hplan
  | succ n ih =>
    rw [Planning.plan] at hplan
    split_ifs at hplan with hempty
    · obtain rfl := Option.some.inj hplan
      refine ⟨st, h, rfl, ?_⟩
      rw [hempty] at ha
      simpa [Accounted, idsOf] using ha
    · cases hpass : st.pass m at' duration horizon [] pending false with
      | mk st' result =>
        obtain ⟨left, progress⟩ := result
        have hstart : Accounted draft st ([] ++ pending) := ha
        rw [Planning.turns, if_neg hempty, hpass] at hturns
        obtain ⟨hst, hleft⟩ := pass_spec hduration hslots h hstart hpass
          (fun v hv => hturns v (List.mem_append_left _ hv))
        rw [hpass] at hplan
        simp only at hplan
        split_ifs at hplan with hp
        · refine ih hst hleft hplan (fun v hv => hturns v (List.mem_append_right _ ?_))
          rw [if_pos hp]
          exact hv
        · obtain rfl := Option.some.inj hplan
          refine ⟨st', hst, ?_, ?_⟩
          · exact scheduled_leftOver st' st'.report left
          · have hids : (st'.leftOver left).map (fun p => p.2.taskId) = idsOf draft left := by
              rw [idsOf, ← hst.ids, Planning.leftOver, List.map_filterMap]
              apply List.filterMap_congr
              intro j _
              rw [List.getElem?_map, Option.map_map]
              rfl
            rw [List.map_append, hids]
            exact hleft

end Visits

/-! ### The plan of a request -/

section Requests
variable {m : Moment} {fresh : ℕ → Str} {at' until' duration : ℚ} {c c' : Company}

theorem get_finished {tasks : List Task} {done : Dict Str ℚ} {d : Str} {v : ℚ}
    (h : (tasks.foldl (fun d t => d.set t.id 0) done).get d = some v) :
    done.get d = some v ∨ ∃ t ∈ tasks, t.id = d := by
  induction tasks generalizing done with
  | nil => exact .inl h
  | cons t tasks ih =>
    rcases ih h with hset | ⟨u, hu, hid⟩
    · rw [Dict.get_set] at hset
      split_ifs at hset with hsame
      · exact .inr ⟨t, List.mem_cons_self, hsame⟩
      · exact .inl hset
    · exact .inr ⟨u, List.mem_cons_of_mem _ hu, hid⟩

theorem planned_begin {draft : Company} : Planned at' duration draft (.begin draft) where
  config := rfl
  ids := rfl
  slots_length := List.length_replicate
  employees_le := by simp [Planning.begin, scheduled]
  roots_le := by simp [Planning.begin, scheduled]
  employees := by simp [Planning.begin, scheduled]
  workspaces := by simp [Planning.begin, scheduled]
  slots := by simp [Planning.begin, scheduled]
  due := by simp [Planning.begin, scheduled]
  finished := by
    intro d v h
    rcases get_finished h with hnone | ⟨t, ht, hid⟩
    · cases hnone
    · simp only [List.mem_filter, Bool.and_eq_true, decide_eq_true_eq] at ht
      exact .inl ⟨t, ht.1, hid, ht.2.1⟩
  dependencies := by simp [Planning.begin, scheduled]
  seen := by simp [Planning.begin]
  runs := by simp [Planning.begin, scheduled]
  room := .inr (.inl rfl)

theorem byPriority_perm (tasks : List Task) : (byPriority tasks).Perm (tasks.zipIdx.map (·.2)) :=
  (List.perm_insertionSort _ _).map _

theorem accounted_begin (draft : Company) : Accounted draft (.begin draft) (byPriority draft.tasks) := by
  have hids : idsOf draft (draft.tasks.zipIdx.map (·.2)) = draft.tasks.map (·.id) := by
    calc idsOf draft (draft.tasks.zipIdx.map (·.2))
        = draft.tasks.zipIdx.filterMap (fun p => some p.1.id) := by
          rw [idsOf, List.filterMap_map]
          apply List.filterMap_congr
          intro p hp
          rw [Function.comp_apply, List.getElem?_map, List.mem_zipIdx_iff_getElem?.mp hp]
          rfl
      _ = draft.tasks.zipIdx.map (fun p => p.1.id) := by rw [List.filterMap_eq_map']
      _ = (draft.tasks.zipIdx.map Prod.fst).map (·.id) := by
          rw [List.map_map]
          rfl
      _ = draft.tasks.map (·.id) := by rw [List.zipIdx_map_fst]
  have hperm : (idsOf draft (byPriority draft.tasks)).Perm (idsOf draft (draft.tasks.zipIdx.map (·.2))) :=
    (byPriority_perm draft.tasks).filterMap _
  rw [hids] at hperm
  exact hperm

theorem trigger_config {r r' : Routine} {id occurrence : Str} (hok : c.trigger m id r occurrence = .ok (c', r')) :
    c'.config = c.config := by
  simp only [Company.trigger] at hok
  split_ifs at hok <;> cases hok <;> rfl

theorem dueLast_config {r : Routine} {due : ℚ} (hok : dueLast c r due = .ok c') : c'.config = c.config := by
  unfold dueLast at hok
  split at hok
  · cases hok
    rfl
  · split at hok <;> cases hok
    rfl

theorem rehearseRoutine_config {key : Str} {n left : ℕ} {r : Routine} {due : Option ℚ}
    (hok : rehearseRoutine m fresh at' until' key n c r due = .ok (c', left)) : c'.config = c.config := by
  induction n generalizing c r due with
  | zero =>
    cases hok
    rfl
  | succ n ih =>
    cases due with
    | none =>
      cases hok
      rfl
    | some due =>
      rw [rehearseRoutine] at hok
      split_ifs at hok
      · cases hok
        rfl
      · obtain ⟨⟨triggered, r'⟩, htrigger, hok⟩ := bind_ok hok
        obtain ⟨moved, hmoved, hok⟩ := bind_ok hok
        have htriggered : triggered.config = c.config := trigger_config htrigger
        exact (ih hok).trans ((dueLast_config hmoved).trans htriggered)

theorem rehearseRoutines_config {left : ℕ} (hok : rehearseRoutines m fresh at' until' c = .ok (c', left)) :
    c'.config = c.config := by
  unfold rehearseRoutines at hok
  generalize c.routines = entries at hok
  generalize 500 = budget at hok
  induction entries generalizing c budget with
  | nil =>
    cases hok
    rfl
  | cons entry entries ih =>
    rw [List.foldlM_cons] at hok
    obtain ⟨⟨next, left'⟩, hnext, hok⟩ := bind_ok hok
    exact (ih left' hok).trans (rehearseRoutine_config hnext)

theorem Planned.feasible {draft : Company} {st : Planning} {report : List (Task × RehearsalRow)}
    (h : Planned at' duration draft st) (hreport : scheduled report = scheduled st.report)
    (hruns : draft.runningTasks ≤ min 8 draft.config.caps.maxConcurrency)
    (hids : (report.map (fun p => p.2.taskId)).Perm (draft.tasks.map (·.id))) :
    Feasible at' duration draft report where
  employees := hreport ▸ h.employees
  workspaces := hreport ▸ h.workspaces
  running := hreport ▸ h.runs
  concurrency := by
    intro time htime
    rw [hreport]
    have hslots : (scheduled st.report).countP (Slot.active time) ≤ min 8 draft.config.caps.maxConcurrency :=
      (h.slots time htime).trans (List.countP_le_length.trans h.slots_length.le)
    split_ifs with hearly
    · have hbegun : (scheduled st.report).countP (Slot.active time) ≤ begun duration st.report := by
        apply List.countP_mono_left
        intro p _ hactive
        simp only [Slot.active, Bool.and_eq_true, decide_eq_true_eq] at hactive ⊢
        exact hactive.1.trans_lt hearly
      have hroom := h.room
      simp only [Company.runningTasks] at hroom hruns
      rcases hroom with hnone | hnone | hleft
      · omega
      · omega
      · omega
    · exact hslots
  due := hreport ▸ h.due
  dependencies := hreport ▸ h.dependencies
  once := hids

/-- What is planned before the runs end is planned for one and the same time. -/
theorem begun_le_active {report : List (Task × RehearsalRow)} (hduration : 0 < duration)
    (htimes : ∀ p ∈ scheduled report, 0 ≤ p.start ∧ p.finish = p.start + duration) :
    ∃ time, 0 ≤ time ∧ time < duration ∧
      begun duration report ≤ (scheduled report).countP (Slot.active time) := by
  let starts := ((scheduled report).filter (fun p => p.start < duration)).map Slot.start
  have hstarts : ∀ x ∈ starts, 0 ≤ x ∧ x < duration := by
    intro x hx
    obtain ⟨p, hp, rfl⟩ := List.mem_map.mp hx
    obtain ⟨hp, hearly⟩ := List.mem_filter.mp hp
    exact ⟨(htimes p hp).1, of_decide_eq_true hearly⟩
  have hlatest : 0 ≤ latest starts ∧ latest starts < duration := by
    refine latest_of (fun x => 0 ≤ x ∧ x < duration) ⟨le_rfl, hduration⟩ ?_ hstarts
    exact fun a b ha hb => ⟨le_max_of_le_left ha.1, max_lt ha.2 hb.2⟩
  refine ⟨latest starts, hlatest.1, hlatest.2, List.countP_mono_left ?_⟩
  intro p hp hearly
  obtain ⟨hnonneg, hfinish⟩ := htimes p hp
  have hle : p.start ≤ latest starts := le_latest (List.mem_map_of_mem (List.mem_filter.mpr ⟨hp, hearly⟩))
  have hlt : latest starts < p.finish := by linarith [hlatest.2]
  simp [Slot.active, hle, hlt]

/-- In a feasible plan nothing that could start before the runs end shares a worker or a workspace with
one of them, and the runs leave a slot to it. -/
theorem Feasible.reckoned {draft : Company} {report : List (Task × RehearsalRow)} {n : ℕ}
    (h : Feasible at' duration draft report) (hduration : 0 < duration)
    (hslots : 0 < min 8 draft.config.caps.maxConcurrency)
    (hplan : Planning.plan m at' duration horizon n (.begin draft) (byPriority draft.tasks) = some report)
    {v : Planning × Task}
    (hv : v ∈ Planning.turns m at' duration horizon n (.begin draft) (byPriority draft.tasks)) :
    Reckoned m at' duration horizon draft v := by
  intro hreason hwithin hearly
  have hbegin : Timed duration (min 8 draft.config.caps.maxConcurrency) (.begin draft) :=
    ⟨List.length_replicate, by simp [Planning.begin, scheduled]⟩
  obtain ⟨⟨-, htimes⟩, hvisits⟩ := plan_turns hbegin hplan
  obtain ⟨st, i, found, hst, rfl, hgrown⟩ := hvisits v hv
  have hnil : st.slots ≠ [] := by
    apply List.ne_nil_of_length_pos
    rw [hst.1]
    exact hslots
  set now : Planning := { st with draft := st.draft.putTask i (readied found) } with hnow
  set start := now.startOf at' (leastSlot st.slots) (workspace now.draft.config (readied found))
    (readied found) with hstart
  have hplanned : st.report ++ [(readied found, ⟨(readied found).id, (readied found).title, ready,
      some (start, start + duration)⟩)] <+: report := by
    have hnotOutside : ¬(horizon : ℚ) < start :=
      not_lt.mpr ((startOf_free now (· ≤ (horizon : ℚ)) (fun _ _ => le_trans) hnil _).mpr hwithin)
    unfold Planning.visit at hgrown
    simp only at hgrown
    split_ifs at hgrown with hready
    · exact hgrown
    · exact absurd hreason hready
    · exact absurd hreason hready
  have hlt : start < duration :=
    (startOf_free now (· < duration) (fun _ _ => lt_of_le_of_lt) hnil _).mpr hearly
  have hslot : scheduled st.report ++ [⟨readied found, start, start + duration⟩] <+: scheduled report := by
    have hfiltered := hplanned.filterMap (fun p : Task × RehearsalRow => p.2.times.map (fun s => Slot.mk p.1 s.1 s.2))
    rwa [List.filterMap_append] at hfiltered
  constructor
  · intro u hu hrun hshares
    have hmem : (⟨readied found, start, start + duration⟩ : Slot) ∈ scheduled report :=
      hslot.subset (by simp)
    exact absurd (h.running u hu hrun _ hmem hshares) (not_le.mpr hlt)
  · obtain ⟨time, hzero, hbefore, hactive⟩ := begun_le_active hduration
      (fun p hp => ⟨(h.due p hp).1, htimes p hp⟩)
    have hroom := h.concurrency time hzero
    rw [if_pos hbefore] at hroom
    have hcount : begun duration st.report + 1 ≤ begun duration report := by
      have hle := hslot.sublist.countP_le (p := fun p => decide (p.start < duration))
      simpa [begun, List.countP_append, hlt] using hle
    refine .inr ?_
    change begun duration st.report + _ < _
    simp only [Company.runningTasks]
    omega

end Requests

/-! A worker has a run, and another task of its own that goes first. -/

def rehearsalMoment : Moment where
  isAbsolute := fun _ => true
  ownsProject := fun _ => true
  resolve := fun root => root
  claimState := fun _ => []
  now := 0
  month := fun _ => text "2026-01"
  iso := fun _ => []
  local' := fun _ _ => (0, 0)
  cron := fun _ _ _ => none
  opensAt := fun _ _ => none
  isGit := fun _ => false
  ticketKey := fun t => t.title

def rehearsalConfig : OrganizationConfig where
  employees := [{ id := text "worker", name := text "Worker" }]
  projectRoots := [text "/project"]
  caps := { maxConcurrency := 2 }

def urgentTask : Task :=
  { id := text "urgent", title := text "Urgent", assignee := some (text "worker"), priority := .critical }

def runningTask : Task :=
  { id := text "begun", title := text "Begun", assignee := some (text "worker"), status := .inProgress,
    claim := some (text "run") }

def busyCompany : Company := { world := { org := { config := rehearsalConfig, tasks := [runningTask, urgentTask] } } }

/-- The run of the worker goes first, and its other task is planned behind it. -/
def patientCompany : Company :=
  { world := { org := { config := rehearsalConfig,
                        tasks := [{ runningTask with priority := .critical }, { urgentTask with priority := .low }] } } }

end Raticode.Organizations
