import Raticode.OrganizationMoves

/-! What each event does to the tasks of an organization, all told. -/
namespace Raticode.Organizations
open PyDocument OrderedDict MarkedList Attempt

/-! ### The deeds -/

def Experimented (m : Moment) (config : OrganizationConfig) (ids : List Str) (employee : Option Str)
    (t t' : Task) : Prop :=
  ids.contains t.id = true ∧ ∃ tasks valid,
    validateTask config tasks (Company.experimentTask employee t) = .ok valid ∧
    validateWorkspace m.toHost config .user valid = .ok t'

def Launched (c : Company) (taskId authorization : Str) (i : ℕ) (t t' : Task) : Prop :=
  c.org.find taskId = some (i, t) ∧ t.isClaimed = false ∧ t' = Company.launchedTask authorization t

def Claimed (m : Moment) (elsewhere : Elsewhere) (run : Str) (t t' : Task) : Prop :=
  ∃ (c : Company) (t₁ : Task) (reserved : ℤ) (rootKey : Str), Quiet t t₁ ∧
    c.verdict m elsewhere t₁ = .start reserved rootKey ∧ t' = claimTask run reserved t₁

def Ended (m : Moment) (c : Company) (run : Str) (x : Ending) (i : ℕ) (t t' : Task) : Prop :=
  ∃ w settled, c.active.get run = some w ∧ w.alive = true ∧ w.finished = false ∧
    c.org.find w.taskId = some (i, t) ∧ Quiet (finishTask m.now (w.outcome run x settled) t) t'

def Reconciled (c : Company) (run : Str) (x : Settlement) (i : ℕ) (t t' : Task) : Prop :=
  ∃ r taskId, c.runs.get run = some r ∧ c.org.attempts.get run = some taskId ∧
    c.org.find taskId = some (i, t) ∧ t' = Company.reconciledTask r x t

def Deed (c : Company) (step : Moment × Event) (i : ℕ) (t t' : Task) : Prop :=
  match step.2 with
  | .call caller taskId call =>
    Called step.1.toHost step.1.now c.world caller taskId call i t t' ∨ t' = t ∨
      (Quiet t t' ∧ ∀ u, c.org.find taskId ≠ some (i, u))
  | .experiment ids employee _ =>
    (t.isClaimed = false ∧ Experimented step.1 c.config ids employee t t') ∨ t' = t
  | .launch taskId _ authorization => Launched c taskId authorization i t t' ∨ t' = t
  | .dispatch elsewhere run _ => Claimed step.1 elsewhere run t t' ∨ Quiet t t'
  | .finish run x => Ended step.1 c run x i t t' ∨ Quiet t t'
  | .reconcile run x => Reconciled c run x i t t' ∨ t' = t
  | _ => Quiet t t'

def New (c : Company) (step : Moment × Event) (t' : Task) : Prop :=
  match step.2 with
  | .create caller fresh draft => c.org.admits caller = true ∧
      ∃ t, createTask step.1.toHost c.org caller fresh draft = .ok t ∧ Quiet t t'
  | .checkMemories _ _ _ | .triggerRoutine _ _ _ => ∃ a t, Made step.1 (c.routines.map (·.2.task)) a t ∧ Quiet t t'
  | .dispatch elsewhere run _ => ∃ a t, Made step.1 (c.routines.map (·.2.task)) a t ∧
      (Claimed step.1 elsewhere run t t' ∨ Quiet t t')
  | _ => False

section Deeds

variable {m : Moment} {c c' : Company} {N : Task → Prop}

theorem evolves_end (m : Moment) (c : Company) (run : Str) (x : Ending) :
    Evolves (fun i t t' => Ended m c run x i t t' ∨ Quiet t t') (fun _ => False)
      c.tasks (c.finish m run x).tasks := by
  have hstay : Evolves (fun i t t' => Ended m c run x i t t' ∨ Quiet t t') (fun _ => False)
      c.tasks c.tasks := Evolves.refl (fun _ t => .inr (Quiet.refl t)) _
  unfold Company.finish
  cases hw : c.active.get run with
  | none => exact hstay
  | some w =>
    simp only
    split_ifs with hover
    · exact hstay
    · simp only [Bool.or_eq_true, Bool.not_eq_true', not_or, Bool.not_eq_false, Bool.not_eq_true]
        at hover
      apply (evolves_finish m.now c.world w.taskId _).mono
      · rintro i t t' (⟨hf, hquiet⟩ | hquiet)
        · exact .inl ⟨w, _, hw, hover.1.1, hover.1.2, hf, hquiet⟩
        · exact .inr hquiet
      · exact fun _ hfalse => hfalse

theorem evolves_reconcile (c : Company) (run : Str) (x : Settlement) :
    Evolves (fun i t t' => Reconciled c run x i t t' ∨ t' = t) (fun _ => False)
      c.tasks (c.reconcile run x).tasks := by
  have hstay : Evolves (fun i t t' => Reconciled c run x i t t' ∨ t' = t) (fun _ => False)
      c.tasks c.tasks := Evolves.refl (fun _ _ => .inr rfl) _
  unfold Company.reconcile
  cases hr : c.runs.get run with
  | none => exact hstay
  | some r =>
    cases ha : c.org.attempts.get run with
    | none => exact hstay
    | some taskId =>
      simp only
      split_ifs
      · exact hstay
      · exact hstay
      · cases hf : c.org.find taskId with
        | none => exact hstay
        | some found =>
          obtain ⟨i, t⟩ := found
          exact Evolves.set (fun _ _ => .inr rfl) (Org.getElem?_of_find hf)
            (.inl ⟨r, taskId, hr, ha, hf, rfl⟩)

theorem keeps_artifact (c : Company) (caller : Caller) (taskId : Str) (a : Artifact) :
    Keeps c.tasks (c.artifact caller taskId a).tasks := by
  unfold Company.artifact
  cases hf : c.org.find taskId with
  | none => exact Keeps.refl _
  | some found =>
    obtain ⟨i, t⟩ := found
    simp only
    split_ifs
    · exact Keeps.set (Org.getElem?_of_find hf) (quiet_addArtifact a t)
    · exact Keeps.refl _

theorem keeps_recordWorktree (c : Company) (run path : Str) (shared : Bool) :
    Keeps c.tasks (c.recordWorktree run path shared).tasks := by
  unfold Company.recordWorktree
  cases c.active.get run with
  | none => exact Keeps.refl _
  | some w =>
    simp only
    cases hf : c.org.find w.taskId with
    | none => exact Keeps.refl _
    | some found =>
      obtain ⟨i, t⟩ := found
      simp only
      split_ifs
      · exact Keeps.set (Org.getElem?_of_find hf) ⟨⟨rfl, .inl rfl⟩, rfl⟩
      · exact Keeps.set (Org.getElem?_of_find hf) ⟨⟨rfl, .inl rfl⟩, rfl⟩
      · exact Keeps.refl _

theorem keeps_releaseWorktree (m : Moment) (c : Company) (taskId note : Str) (shared : Bool) :
    Keeps c.tasks (c.releaseWorktree m taskId note shared).tasks := by
  unfold Company.releaseWorktree
  cases hf : c.org.find taskId with
  | none => exact Keeps.refl _
  | some found =>
    obtain ⟨i, t⟩ := found
    simp only
    split_ifs
    · exact Keeps.refl _
    · exact Keeps.set (Org.getElem?_of_find hf) ⟨⟨rfl, .inl rfl⟩, rfl⟩
    · exact Keeps.set (Org.getElem?_of_find hf) ⟨⟨rfl, .inl rfl⟩, rfl⟩

theorem record_world (c : Company) (run : Str) (f : RunRecord → RunRecord) :
    (c.record run f).world = c.world := by
  unfold Company.record
  split
  · rfl
  · rfl

theorem record_tasks (c : Company) (run : Str) (f : RunRecord → RunRecord) :
    (c.record run f).tasks = c.tasks := congrArg (fun w => w.org.tasks) (record_world c run f)

theorem keeps_link (c : Company) (run : Str) (workflow : Bool) :
    Keeps c.tasks (c.link run workflow).tasks := by
  unfold Company.link
  cases c.active.get run with
  | none => exact Keeps.refl _
  | some w =>
    simp only
    split_ifs
    · rw [record_tasks]
      exact Keeps.refl _
    · exact Keeps.refl _

theorem keeps_resolve (c : Company) (run : Str) : Keeps c.tasks (c.resolve run).tasks := by
  unfold Company.resolve
  split_ifs
  · exact Keeps.refl _
  · rw [record_tasks]
    exact Keeps.refl _

theorem evolves_launch (c : Company) (taskId : Str) (expectedRevision : ℕ) (authorization : Str) :
    Evolves (fun i t t' => Launched c taskId authorization i t t' ∨ t' = t) (fun _ => False)
      c.tasks (c.settle (c.launch taskId expectedRevision authorization)).tasks := by
  have hstay : Evolves (fun i t t' => Launched c taskId authorization i t t' ∨ t' = t)
      (fun _ => False) c.tasks c.tasks := Evolves.refl (fun _ _ => .inr rfl) _
  cases hok : c.launch taskId expectedRevision authorization with
  | error e => exact hstay
  | ok c' =>
    rw [Company.launch] at hok
    cases hf : c.org.find taskId with
    | none =>
      rw [hf] at hok
      contradiction
    | some found =>
      obtain ⟨i, t⟩ := found
      simp only [hf, require_bind, Bool.and_eq_true, Bool.not_eq_true'] at hok
      obtain ⟨⟨-, hclaim⟩, -, hok⟩ := hok
      obtain ⟨-, -, hok⟩ := bind_ok hok
      cases hok
      exact Evolves.set (fun _ _ => .inr rfl) (Org.getElem?_of_find hf) (.inl ⟨hf, hclaim, rfl⟩)

theorem evolves_experimentOn {ids : List Str} {employee : Option Str} {k : ℕ} {org org' : Org}
    (hok : (List.range k).foldlM (Company.experimentOn m ids employee) org = .ok org') :
    (org'.config = org.config ∧ org'.attempts = org.attempts) ∧ Evolves (fun i t t' =>
      (i < k ∧ Experimented m org.config ids employee t t') ∨ t' = t) (fun _ => False)
        org.tasks org'.tasks := by
  induction k generalizing org' with
  | zero =>
    cases hok
    exact ⟨⟨rfl, rfl⟩, Evolves.refl (fun _ _ => .inr rfl) _⟩
  | succ k ih =>
    rw [List.range_succ, List.foldlM_append] at hok
    obtain ⟨mid, hmid, hlast⟩ := bind_ok hok
    obtain ⟨hbooks, he⟩ := ih hmid
    rw [List.foldlM_cons] at hlast
    obtain ⟨last, hlast, hsame⟩ := bind_ok hlast
    cases hsame
    have hstay : Evolves (fun i t t' => (i < k + 1 ∧ Experimented m org.config ids employee t t') ∨
        t' = t) (fun _ => False) org.tasks mid.tasks := by
      apply he.mono
      · rintro i t t' (⟨hi, ht⟩ | rfl)
        · exact .inl ⟨by omega, ht⟩
        · exact .inr rfl
      · exact fun _ hfalse => hfalse
    rw [Company.experimentOn] at hlast
    cases ht : mid.tasks[k]? with
    | none =>
      rw [ht] at hlast
      cases hlast
      exact ⟨hbooks, hstay⟩
    | some t =>
      simp only [ht] at hlast
      split_ifs at hlast with hid
      · cases hlast
        exact ⟨hbooks, hstay⟩
      · obtain ⟨valid, hvalid, hlast⟩ := bind_ok hlast
        obtain ⟨placed, hplaced, hlast⟩ := bind_ok hlast
        cases hlast
        refine ⟨hbooks, ?_⟩
        have htried : Experimented m org.config ids employee t placed := by
          refine ⟨by simpa using hid, mid.tasks, valid, ?_, ?_⟩
          · rw [← hbooks.1]
            exact hvalid
          · rw [← hbooks.1]
            exact hplaced
        apply (he.trans (Evolves.set_at (N := fun _ => False) ht)).mono
        · rintro i u u'' ⟨u', hu, ⟨rfl, rfl, rfl⟩ | ⟨-, rfl⟩⟩
          · -- The task at this position has not been touched before.
            rcases hu with ⟨hi, -⟩ | rfl
            · omega
            · exact .inl ⟨by omega, htried⟩
          · rcases hu with ⟨hi, hu⟩ | rfl
            · exact .inl ⟨by omega, hu⟩
            · exact .inr rfl
        · rintro u (hfalse | ⟨_, _, hfalse, _⟩)
          · exact hfalse
          · exact hfalse

theorem evolves_experiment (m : Moment) (c : Company) (ids : List Str) (employee : Option Str)
    (reason : Str) : Evolves (fun _ t t' =>
        (t.isClaimed = false ∧ Experimented m c.config ids employee t t') ∨ t' = t) (fun _ => False)
      c.tasks (c.settle (c.experiment m ids employee reason)).tasks := by
  cases hok : c.experiment m ids employee reason with
  | error e => exact Evolves.refl (fun _ _ => .inr rfl) _
  | ok c' =>
    simp only [Company.experiment, require_bind] at hok
    obtain ⟨-, hselected, -, hok⟩ := hok
    obtain ⟨org, horg, hok⟩ := bind_ok hok
    cases hok
    obtain ⟨-, he⟩ := evolves_experimentOn horg
    have hfree : ∀ t ∈ c.tasks, ids.contains t.id = true → t.isClaimed = false := by
      intro t ht hid
      have hall := (Bool.and_eq_true _ _ ▸ hselected).2
      have hone := List.all_eq_true.mp hall t (List.mem_filter.mpr ⟨ht, hid⟩)
      simp only [Bool.and_eq_true, Bool.not_eq_true'] at hone
      exact hone.1
    apply he.there.mono
    · rintro i t t' ⟨ht, ⟨-, htried⟩ | hsame⟩
      · exact .inl ⟨hfree t (List.mem_of_getElem? ht) htried.1, htried⟩
      · exact .inr hsame
    · exact fun _ hfalse => hfalse

/-! ### Tasks that are added -/

variable {drafts : List Task} {fresh : ℕ → Str}

theorem checkMemory_moves (m : Moment) (caller : Caller) (changed : Str → Bool) (entry : Str × Memory) :
    ∃ n ≤ 1, Moves m drafts fresh c n (c.checkMemory caller fresh changed entry) := by
  obtain ⟨key, memory⟩ := entry
  simp only [Company.checkMemory]
  split_ifs
  · exact ⟨0, Nat.zero_le _, .refl⟩
  · exact ⟨0, Nat.zero_le _, Moves.one (.same (.of_eq rfl rfl rfl rfl rfl rfl) rfl)⟩
  · refine ⟨1, le_rfl, Moves.refl.add ⟨.of_eq rfl rfl rfl rfl rfl rfl, ?_⟩⟩
    exact ⟨_, Made.recheck (fresh c.tasks.length) _ memory.employeeId, rfl, rfl⟩

theorem checkMemories_moves (m : Moment) (drafts : List Task) (c : Company) (caller : Caller)
    (fresh : ℕ → Str) (changed : Str → Bool) : ∃ n ≤ c.memories.length,
      Moves m drafts fresh c n (c.checkMemories caller fresh changed) := by
  have hfold (entries : Dict Str Memory) (c : Company) : ∃ n ≤ entries.length,
      Moves m drafts fresh c n (entries.foldl (Company.checkMemory caller fresh changed) c) := by
    induction entries generalizing c with
    | nil => exact ⟨0, le_rfl, .refl⟩
    | cons p entries ih =>
      obtain ⟨n, hn, hone⟩ : ∃ n ≤ 1, Moves m drafts fresh c n (c.checkMemory caller fresh changed p) :=
        checkMemory_moves m caller changed p
      obtain ⟨k, hk, hrest⟩ := ih (c.checkMemory caller fresh changed p)
      refine ⟨n + k, ?_, hone.trans hrest⟩
      rw [List.length_cons]
      omega
  unfold Company.checkMemories
  split_ifs
  · exact hfold c.memories c
  · exact ⟨0, Nat.zero_le _, .refl⟩

theorem triggerRoutine_moves {id routineId occurrence : Str}
    (hok : c.triggerRoutine m id routineId occurrence = .ok c') :
    ∃ n ≤ 1, Moves m (c.routines.map (·.2.task)) (fun _ => id) c n c' := by
  rw [Company.triggerRoutine] at hok
  cases hr : c.routines.get routineId with
  | none =>
    rw [hr] at hok
    contradiction
  | some r =>
    simp only [hr, require_bind] at hok
    obtain ⟨-, hok⟩ := hok
    obtain ⟨⟨triggered, r'⟩, htrigger, hok⟩ := bind_ok hok
    cases hok
    have hmem : r.task ∈ c.routines.map (·.2.task) :=
      List.mem_map.mpr ⟨(routineId, r), Dict.mem_of_get hr, rfl⟩
    have hmoved : r'.task = r.task ∧ ∃ n ≤ 1,
        Moves m (c.routines.map (·.2.task)) (fun _ => id) c n triggered := trigger_moves htrigger hmem
    obtain ⟨htask, n, hn, hmoves⟩ := hmoved
    exact ⟨n, hn, hmoves.upkeep (upkeeps_routine (htask ▸ hmem))⟩

theorem evolves_dispatch {elsewhere : Elsewhere} {run : Str} {pos : Option ℕ}
    (hok : c.dispatch m elsewhere run fresh = .ok (c', pos)) :
    Evolves (fun _ t t' => Claimed m elsewhere run t t' ∨ Quiet t t')
      (fun t' => ∃ a t, Made m (c.routines.map (·.2.task)) a t ∧
        (Claimed m elsewhere run t t' ∨ Quiet t t')) c.tasks c'.tasks := by
  obtain ⟨n, -, a, hmoves, hstarted⟩ := dispatch_moves hok
  have he := hmoves.evolves
  cases hstarted with
  | none =>
    apply he.mono
    · exact fun _ _ _ hquiet => .inr hquiet
    · exact fun _ ⟨b, t, hmade, hquiet⟩ => ⟨b, t, hmade, .inr hquiet⟩
  | @one i t reserved rootKey ht hv =>
    have hset : Evolves (fun _ u u' => u' = u ∨
        (u = t ∧ u' = claimTask run reserved t)) (fun _ => False) a.tasks
          (a.startRun m i run reserved rootKey t).tasks :=
      Evolves.set (fun _ _ => .inl rfl) ht (.inr ⟨rfl, rfl⟩)
    have hclaimed {u u' u'' : Task} (hquiet : Quiet u u')
        (h : u'' = u' ∨ (u' = t ∧ u'' = claimTask run reserved t)) :
        Claimed m elsewhere run u u'' ∨ Quiet u u'' := by
      rcases h with rfl | ⟨rfl, rfl⟩
      · exact .inr hquiet
      · exact .inl ⟨a, u', reserved, rootKey, hquiet, hv, rfl⟩
    apply (he.trans hset).mono
    · rintro _ u u'' ⟨u', hquiet, h⟩
      exact hclaimed hquiet h
    · rintro u'' (hfalse | ⟨_, u', ⟨b, u, hmade, hquiet⟩, h⟩)
      · exact hfalse.elim
      · exact ⟨b, u, hmade, hclaimed hquiet h⟩

/-! ### The books beside the tasks -/

/-- A run in `_active`, whether or not its cancellation is signalled. -/
def Worker.frame (w : Worker) : Worker := { w with signalled := false, reason := none }

/-- The steps of a task call touch no run, no usage, no routine and no active frame. -/
structure Plain (c c' : Company) : Prop where
  attempts : c'.org.attempts = c.org.attempts
  runs : c'.runs = c.runs
  usage : c'.usage = c.usage
  routines : c'.routines = c.routines
  active : c'.active.map (fun p => (p.1, p.2.frame)) = c.active.map (fun p => (p.1, p.2.frame))

def Event.isPlain : Event → Bool
  | .call _ _ _ | .create _ _ _ | .artifact _ _ _ | .remember _ _ | .saveMemory _ _ _
  | .experiment _ _ _ | .launch _ _ _ | .heartbeatResume _ _ | .configure _ _ _ | .secret _
  | .control _ | .archive _ | .close | .recordWorktree _ _ _ | .releaseWorktree _ _ _ => true
  | _ => false

theorem Plain.refl (c : Company) : Plain c c := ⟨rfl, rfl, rfl, rfl, rfl⟩

theorem plain_world {w : World} (h : w.org.attempts = c.world.org.attempts) :
    Plain c { c with world := w } := ⟨h, rfl, rfl, rfl, rfl⟩

theorem Plain.signal (h : Plain c c') (runs : List Str) : Plain c (c'.signal runs) := by
  refine ⟨h.attempts, h.runs, h.usage, h.routines, ?_⟩
  rw [← h.active]
  simp only [Company.signal, List.map_map]
  apply List.map_congr_left
  intro p _
  simp only [Function.comp_apply]
  split_ifs
  · rfl
  · rfl

theorem Plain.cancelRuns (h : Plain c c') (reason : CancelReason) : Plain c (c'.cancelRuns reason) := by
  refine ⟨h.attempts, h.runs, h.usage, h.routines, ?_⟩
  rw [← h.active]
  simp only [Company.cancelRuns, List.map_map]
  apply List.map_congr_left
  exact fun _ _ => rfl

theorem attempts_settle (w : World) (now : ℚ) (actor : Actor) (call : TaskCall) (i : ℕ) (t : Task) :
    (w.settle now actor call i t).org.attempts = w.org.attempts := by
  simp only [World.settle]
  split_ifs
  all_goals rfl

theorem attempts_call (h : Host) (now : ℚ) (w : World) (caller : Caller) (taskId : Str)
    (call : TaskCall) : (w.call h now caller taskId call).org.attempts = w.org.attempts := by
  rw [World.call]
  split
  · rfl
  · split_ifs
    · rfl
    · rfl
    · split
      · rfl
      · exact attempts_settle _ now caller.actor call _ _

theorem attempts_create (h : Host) (w : World) (caller : Caller) (fresh : Str) (draft : Task) :
    (w.create h caller fresh draft).org.attempts = w.org.attempts := by
  simp only [World.create]
  split_ifs
  · rfl
  · split
    · rfl
    · rfl

theorem act_plain {step : Moment × Event} (h : step.2.isPlain = true) : Plain c (c.act step) := by
  obtain ⟨m, event⟩ := step
  cases event with
  | call caller taskId call =>
    exact (plain_world (attempts_call m.toHost m.now c.world caller taskId call)).signal _
  | create caller fresh draft =>
    simp only [Company.act, Company.create]
    split_ifs
    · exact plain_world (attempts_create m.toHost c.world caller fresh draft)
    · exact .refl c
  | artifact caller taskId a =>
    simp only [Company.act, Company.artifact]
    split
    · exact .refl c
    · split_ifs
      · exact plain_world rfl
      · exact .refl c
  | remember caller body =>
    simp only [Company.act, Company.remember]
    split
    · exact .refl c
    · split_ifs
      · exact ⟨rfl, rfl, rfl, rfl, rfl⟩
      · exact .refl c
  | saveMemory caller fresh memory =>
    simp only [Company.act, Company.saveMemory]
    split_ifs
    · exact ⟨rfl, rfl, rfl, rfl, rfl⟩
    · exact .refl c
  | experiment ids employee reason =>
    simp only [Company.act]
    cases hok : c.experiment m ids employee reason with
    | error e => exact .refl c
    | ok c' =>
      simp only [Company.experiment, require_bind] at hok
      obtain ⟨-, -, -, hok⟩ := hok
      obtain ⟨org, horg, hok⟩ := bind_ok hok
      cases hok
      exact plain_world (evolves_experimentOn horg).1.2
  | launch taskId expectedRevision authorization =>
    simp only [Company.act]
    cases hok : c.launch taskId expectedRevision authorization with
    | error e => exact .refl c
    | ok c' =>
      rw [Company.launch] at hok
      cases hf : c.org.find taskId with
      | none =>
        rw [hf] at hok
        contradiction
      | some found =>
        simp only [hf, require_bind] at hok
        obtain ⟨-, -, hok⟩ := hok
        obtain ⟨-, -, hok⟩ := bind_ok hok
        cases hok
        exact plain_world rfl
  | heartbeatResume actor employee =>
    simp only [Company.act, Company.heartbeatResume, World.heartbeatResume]
    split_ifs
    · exact .refl c
    · exact ⟨rfl, rfl, rfl, rfl, rfl⟩
    · exact ⟨rfl, rfl, rfl, rfl, rfl⟩
  | configure config disrupts signals =>
    have hplain : Plain c { c with world := c.world.configure m.now config disrupts } := plain_world rfl
    simp only [Company.act, Company.configure]
    split_ifs
    · exact .refl c
    · exact hplain.signal _
    · exact hplain
  | secret id =>
    have hplain : Plain c { c with world := c.world.sweep c.org (secretTask c.config id) } :=
      plain_world rfl
    exact hplain.signal _
  | control running =>
    have hplain : Plain c { c with world := c.world.act m.toHost (m.now, .control running) } :=
      plain_world rfl
    simp only [Company.act, Company.control]
    split_ifs
    · exact .refl c
    · exact hplain
    · exact hplain.cancelRuns .paused
  | archive archived =>
    simp only [Company.act, Company.archive]
    split_ifs
    · exact .refl c
    · exact ⟨rfl, rfl, rfl, rfl, rfl⟩
    · exact ⟨rfl, rfl, rfl, rfl, rfl⟩
  | close =>
    simp only [Company.act, Company.close]
    split_ifs
    · exact (Plain.refl c).cancelRuns .hours
    · exact .refl c
  | recordWorktree run path shared =>
    simp only [Company.act, Company.recordWorktree]
    split
    · exact .refl c
    · split
      · exact .refl c
      · split_ifs
        · exact plain_world rfl
        · exact plain_world rfl
        · exact .refl c
  | releaseWorktree taskId note shared =>
    simp only [Company.act, Company.releaseWorktree]
    split
    · exact .refl c
    · split_ifs
      · exact .refl c
      · exact plain_world rfl
      · exact plain_world rfl
  | _ => contradiction

theorem record_eq (c : Company) (run : Str) (f : RunRecord → RunRecord) :
    ∃ runs : Dict Str RunRecord, c.record run f = { c with runs := runs } := by
  unfold Company.record
  split
  · exact ⟨c.runs, rfl⟩
  · exact ⟨_, rfl⟩

theorem records_eq (f : RunRecord → RunRecord) (ids : List Str) (c : Company) :
    ∃ runs : Dict Str RunRecord, ids.foldl (fun d run => d.record run f) c = { c with runs := runs } := by
  induction ids generalizing c with
  | nil => exact ⟨c.runs, rfl⟩
  | cons run ids ih =>
    obtain ⟨runs, hone⟩ := record_eq c run f
    obtain ⟨runs', hrest⟩ := ih { c with runs := runs }
    exact ⟨runs', by rw [List.foldl_cons, hone, hrest]⟩

theorem act_drafts {step : Moment × Event} (h : ∀ r revision, step.2 ≠ .saveRoutine r revision)
    {p : Str × Routine} (hp : p ∈ (c.act step).routines) : p.2.task ∈ c.routines.map (·.2.task) := by
  have hall : ∀ q ∈ c.routines, q.2.task ∈ c.routines.map (·.2.task) :=
    fun q hq => List.mem_map_of_mem hq
  have hsame {c' : Company} (hc' : c'.routines = c.routines) (hp : p ∈ c'.routines) :
      p.2.task ∈ c.routines.map (·.2.task) := hall p (hc' ▸ hp)
  by_cases hplain : step.2.isPlain = true
  · exact hsame (act_plain hplain).routines hp
  obtain ⟨m, event⟩ := step
  cases event with
  | checkMemories caller fresh changed =>
    simp only [Company.act] at hp
    split_ifs at hp
    · obtain ⟨n, -, hmoves⟩ :=
        checkMemories_moves m (c.routines.map (·.2.task)) c caller fresh changed
      exact hmoves.books.routines hall p hp
    · exact hall p hp
  | saveRoutine r revision => exact absurd rfl (h r revision)
  | triggerRoutine fresh routineId occurrence =>
    simp only [Company.act] at hp
    split_ifs at hp
    · cases hok : c.triggerRoutine m fresh routineId occurrence with
      | error e =>
        rw [hok] at hp
        exact hall p hp
      | ok c' =>
        rw [hok] at hp
        obtain ⟨n, -, hmoves⟩ := triggerRoutine_moves hok
        exact hmoves.books.routines hall p hp
    · exact hall p hp
  | dispatch elsewhere run fresh =>
    simp only [Company.act, Company.schedule] at hp
    split_ifs at hp
    · cases hok : c.dispatch m elsewhere run fresh with
      | error e =>
        rw [hok] at hp
        exact hall p hp
      | ok result =>
        obtain ⟨c', pos⟩ := result
        rw [hok] at hp
        obtain ⟨n, -, a, hmoves, hstarted⟩ := dispatch_moves hok
        cases hstarted with
        | none => exact hmoves.books.routines hall p hp
        | one ht hv => exact hmoves.books.routines hall p hp
    · exact hall p hp
  | link run workflow =>
    simp only [Company.act, Company.link] at hp
    split at hp
    · exact hall p hp
    · split_ifs at hp
      · obtain ⟨runs, hruns⟩ := record_eq c run (fun r => { r with handle := some { workflow := workflow } })
        rw [hruns] at hp
        exact hall p hp
      · exact hall p hp
  | resolve run =>
    simp only [Company.act, Company.resolve] at hp
    split_ifs at hp
    · exact hall p hp
    · obtain ⟨runs, hruns⟩ := record_eq c run
        (fun r => { r with handle := r.handle.map (fun h => { h with settled := true }) })
      rw [hruns] at hp
      exact hall p hp
  | reconcile run x =>
    refine hsame ?_ hp
    simp only [Company.act, Company.reconcile]
    split
    · split_ifs
      · rfl
      · rfl
      · split
        · rfl
        · rfl
    · rfl
  | finish run x =>
    refine hsame ?_ hp
    simp only [Company.act, Company.finish]
    split
    · rfl
    · rename_i w _
      split_ifs
      · rfl
      · obtain ⟨runs, hruns⟩ := record_eq (c.charge w.month w.accounts (w.settleAccount x)) run (w.recordEnd x)
        rw [hruns]
        rfl
  | leave run => exact hall p hp
  | die run =>
    refine hsame ?_ hp
    simp only [Company.act, Company.die]
    split
    · rfl
    · rfl
  | restart =>
    refine hsame ?_ hp
    obtain ⟨runs, hruns⟩ := records_eq (fun r => { r with status := .interrupted })
      (c.tasks.filterMap (·.claim)) c
    simp only [Company.act, Company.restart, hruns]
  | _ => exact absurd rfl hplain

/-! ### All events -/

def Event.keeps : Event → Bool
  | .call _ _ _ | .experiment _ _ _ | .launch _ _ _ | .dispatch _ _ _ => false
  | _ => true

theorem Ended.minor {run : Str} {x : Ending} {i : ℕ} {t t' : Task} (h : Ended m c run x i t t') :
    Minor t t' := by
  obtain ⟨w, settled, -, -, -, -, hquiet⟩ := h
  exact (minor_finishTask _ t).trans hquiet.toMinor

theorem Deed.minor {step : Moment × Event} {i : ℕ} {t t' : Task} (h : Deed c step i t t')
    (hkeeps : step.2.keeps = true) : Minor t t' := by
  obtain ⟨m, event⟩ := step
  cases event with
  | call caller taskId call => contradiction
  | experiment ids employee reason => contradiction
  | launch taskId expectedRevision authorization => contradiction
  | dispatch elsewhere run fresh => contradiction
  | finish run x =>
    rcases h with hended | hquiet
    · exact hended.minor
    · exact hquiet.toMinor
  | reconcile run x =>
    rcases h with ⟨r, taskId, -, -, -, rfl⟩ | rfl
    · exact minor_reconciledTask r x t
    · exact Minor.refl t'
  | _ => exact Quiet.toMinor h

theorem act_evolves (c : Company) (step : Moment × Event) :
    Evolves (Deed c step) (New c step) c.tasks (c.act step).tasks := by
  obtain ⟨m, event⟩ := step
  have hstay : Keeps c.tasks c.tasks := Keeps.refl c.tasks
  have hmade {drafts : List Task} {fresh : ℕ → Str} {n : ℕ} {c' : Company}
      (h : Moves m drafts fresh c n c') : Evolves (fun _ => Quiet)
        (fun t' => ∃ a t, Made m drafts a t ∧ Quiet t t') c.tasks c'.tasks := h.evolves
  cases event with
  | call caller taskId call =>
    apply (evolves_call m.toHost m.now c.world caller taskId call).mono
    · rintro i t t' (hcalled | rfl | ⟨hquiet, hother⟩)
      · exact .inl hcalled
      · exact .inr (.inl rfl)
      · exact .inr (.inr ⟨hquiet, hother⟩)
    · exact fun _ hfalse => hfalse.elim
  | create caller fresh draft =>
    simp only [Company.act, Company.create]
    split_ifs
    · apply (evolves_create m.toHost c.world caller fresh draft).mono
      · exact fun _ _ _ hquiet => hquiet
      · exact fun _ ⟨hadmits, t, hok, hquiet⟩ => ⟨hadmits, t, hok, hquiet⟩
    · exact Evolves.refl (fun _ => Quiet.refl) _
  | artifact caller taskId a => exact keeps_artifact c caller taskId a
  | remember caller body =>
    simp only [Company.act, Company.remember]
    split
    · exact hstay
    · split_ifs
      · exact hstay
      · exact hstay
  | saveMemory caller fresh memory =>
    simp only [Company.act, Company.saveMemory]
    split_ifs
    · exact hstay
    · exact hstay
  | checkMemories caller fresh changed =>
    simp only [Company.act]
    split_ifs
    · obtain ⟨n, -, hmoves⟩ := checkMemories_moves m (c.routines.map (·.2.task)) c caller fresh changed
      exact hmade hmoves
    · exact Evolves.refl (fun _ => Quiet.refl) _
  | saveRoutine r expectedRevision =>
    simp only [Company.act]
    cases hok : c.saveRoutine m r expectedRevision with
    | error e => exact hstay
    | ok c' =>
      simp only [Company.saveRoutine] at hok
      obtain ⟨-, -, hok⟩ := bind_ok hok
      obtain ⟨-, -, hok⟩ := bind_ok hok
      obtain ⟨-, -, hok⟩ := bind_ok hok
      rw [require_bind] at hok
      obtain ⟨-, hok⟩ := hok
      cases hok
      exact hstay
  | triggerRoutine fresh routineId occurrence =>
    simp only [Company.act]
    split_ifs
    · cases hok : c.triggerRoutine m fresh routineId occurrence with
      | error e => exact Evolves.refl (fun _ => Quiet.refl) _
      | ok c' =>
        obtain ⟨n, -, hmoves⟩ := triggerRoutine_moves hok
        exact hmade hmoves
    · exact Evolves.refl (fun _ => Quiet.refl) _
  | experiment ids employee reason => exact evolves_experiment m c ids employee reason
  | launch taskId expectedRevision authorization =>
    exact evolves_launch c taskId expectedRevision authorization
  | heartbeatResume actor employee =>
    simp only [Company.act, Company.heartbeatResume]
    split_ifs
    · exact hstay
    · exact keeps_heartbeatResume m.now c.world actor employee
  | configure config disrupts signals =>
    simp only [Company.act, Company.configure]
    split_ifs
    · exact hstay
    · exact keeps_configure m.now c.world config disrupts
    · exact keeps_configure m.now c.world config disrupts
  | secret id => exact Keeps.map (quiet_secretTask c.config id) c.tasks
  | control running =>
    simp only [Company.act, Company.control]
    split_ifs
    · exact hstay
    · exact hstay
    · exact hstay
  | archive archived =>
    simp only [Company.act, Company.archive]
    split_ifs
    · exact hstay
    · exact hstay
    · exact hstay
  | close =>
    simp only [Company.act, Company.close]
    split_ifs
    · exact hstay
    · exact hstay
  | dispatch elsewhere run fresh =>
    simp only [Company.act, Company.schedule]
    split_ifs
    · cases hok : c.dispatch m elsewhere run fresh with
      | error e => exact Evolves.refl (fun _ t => .inr (Quiet.refl t)) _
      | ok result => exact evolves_dispatch hok
    · exact Evolves.refl (fun _ t => .inr (Quiet.refl t)) _
  | link run workflow => exact keeps_link c run workflow
  | resolve run => exact keeps_resolve c run
  | reconcile run x => exact evolves_reconcile c run x
  | recordWorktree run path shared => exact keeps_recordWorktree c run path shared
  | releaseWorktree taskId note shared => exact keeps_releaseWorktree m c taskId note shared
  | finish run x => exact evolves_end m c run x
  | leave run => exact hstay
  | die run =>
    simp only [Company.act, Company.die]
    split
    · exact hstay
    · exact hstay
  | restart => exact keeps_recover m.now c.world

/-! ### The calls of workers -/

def Event.caller : Event → Option Caller
  | .call caller _ _ | .create caller _ _ | .artifact caller _ _ | .remember caller _
  | .saveMemory caller _ _ | .checkMemories caller _ _ => some caller
  | _ => none

theorem updateTask_gates {h : Host} {now : ℚ} {org : Org} {id : Str} {expectedRevision : ℕ}
    {asked : Changes} {t t' : Task}
    (hok : updateTask h now org (.employee id) expectedRevision asked t = .ok t') :
    t'.approvalRequired = t.approvalRequired ∧ t'.reviewRequired = t.reviewRequired := by
  have hgates : (asked.differing t).approvalRequired = none ∧
      (asked.differing t).reviewRequired = none := by
    simp only [updateTask, require_bind] at hok
    obtain ⟨-, -, -, -, hok⟩ := hok
    obtain ⟨-, -, hok⟩ := bind_ok hok
    rw [require_bind] at hok
    simp only [Actor.employee?, Option.isNone_some, Bool.false_or, Bool.not_eq_true',
      Bool.or_eq_false_iff, Changes.has, Option.isSome_eq_false_iff, Option.isNone_iff_eq_none] at hok
    exact hok.1.1
  obtain ⟨c, hc, -, -, -, path, project, comments, rfl⟩ := updateTask_ok hok
  have hpulled : (pulledForward (asked.differing t) t).approvalRequired = none ∧
      (pulledForward (asked.differing t) t).reviewRequired = none := by
    simp only [pulledForward]
    split_ifs
    · exact hgates
    · exact hgates
  subst hc
  simp only [candidate, candidateOf, Changes.apply, hpulled, Option.getD_none, and_self]

theorem changeTask_gates {h : Host} {now : ℚ} {org : Org} {i : ℕ} {id : Str} {call : TaskCall}
    {t t' : Task} (hok : changeTask h now org i (.employee id) call t = .ok t') :
    t'.approvalRequired = t.approvalRequired ∧ t'.reviewRequired = t.reviewRequired := by
  cases call with
  | comment body unblock =>
    obtain ⟨comments, rfl | ⟨-, -, rfl⟩⟩ := commentTask_ok hok
    · exact ⟨rfl, rfl⟩
    · exact ⟨rfl, rfl⟩
  | approve expectedRevision =>
    rw [approveTask_ok hok]
    exact ⟨rfl, rfl⟩
  | review expectedRevision decision body =>
    obtain ⟨-, -, -, comments, acceptedAt, evidence, project, rfl⟩ := reviewTask_ok hok
    exact ⟨rfl, rfl⟩
  | reopen expectedRevision asked =>
    obtain ⟨-, -, turns, rfl⟩ := reopenTask_ok hok
    exact ⟨rfl, rfl⟩
  | update expectedRevision asked => exact updateTask_gates hok

theorem act_gates {step : Moment × Event} {caller : Caller} {id : Str}
    (hcaller : step.2.caller = some caller) (hactor : caller.actor = .employee id) :
    Evolves (fun _ t t' => t'.approvalRequired = t.approvalRequired ∧
      t'.reviewRequired = t.reviewRequired) (New c step) c.tasks (c.act step).tasks := by
  have hminor {t t' : Task} (h : Minor t t') :
      t'.approvalRequired = t.approvalRequired ∧ t'.reviewRequired = t.reviewRequired :=
    ⟨h.approvalRequired, h.reviewRequired⟩
  apply (act_evolves c step).mono
  swap
  · exact fun _ hnew => hnew
  intro i t t' hd
  obtain ⟨m, event⟩ := step
  cases event with
  | call by' taskId call =>
    obtain rfl := Option.some.inj hcaller
    rcases hd with hcalled | rfl | ⟨hquiet, -⟩
    · obtain ⟨t₁, hok, hlast⟩ := hcalled.after
      rw [hactor] at hok
      obtain ⟨ha, hr⟩ := changeTask_gates hok
      exact ⟨hlast.approvalRequired.trans ha, hlast.reviewRequired.trans hr⟩
    · exact ⟨rfl, rfl⟩
    · exact hminor hquiet.toMinor
  | create _ _ _ => exact hminor (Deed.minor hd rfl)
  | artifact _ _ _ => exact hminor (Deed.minor hd rfl)
  | remember _ _ => exact hminor (Deed.minor hd rfl)
  | saveMemory _ _ _ => exact hminor (Deed.minor hd rfl)
  | checkMemories _ _ _ => exact hminor (Deed.minor hd rfl)
  | _ => contradiction

/-- What every step preserves holds after every run. -/
theorem run_invariant {I : Company → Prop} (hact : ∀ c step, I c → I (c.act step)) (hc : I c)
    (steps : List (Moment × Event)) : I (c.run steps) := by
  induction steps generalizing c with
  | nil => exact hc
  | cons step steps ih => exact ih (hact c step hc)

/-! ### A new organization -/

theorem evolves_import {config : OrganizationConfig} {tasks tasks' : List Task} {k : ℕ}
    (hok : (List.range k).foldlM (importTask config) tasks = .ok tasks') :
    Evolves (fun _ t t' => ∃ project, t' = { t with project := project }) (fun _ => False) tasks tasks' := by
  have hstay (t : Task) : ∃ project, t = { t with project := project } := ⟨t.project, rfl⟩
  induction k generalizing tasks' with
  | zero =>
    cases hok
    exact Evolves.refl (fun _ => hstay) _
  | succ k ih =>
    rw [List.range_succ, List.foldlM_append] at hok
    obtain ⟨mid, hmid, hlast⟩ := bind_ok hok
    rw [List.foldlM_cons] at hlast
    obtain ⟨last, hlast, hsame⟩ := bind_ok hlast
    cases hsame
    have he := ih hmid
    rw [importTask] at hlast
    cases ht : mid[k]? with
    | none =>
      rw [ht] at hlast
      cases hlast
      exact he
    | some t =>
      simp only [ht] at hlast
      cases hvalid : validateTask config mid t with
      | error e =>
        rw [hvalid] at hlast
        contradiction
      | ok valid =>
        rw [hvalid] at hlast
        cases hlast
        have hset : Evolves (fun _ t t' => ∃ project, t' = { t with project := project })
            (fun _ => False) mid (mid.set k valid) :=
          Evolves.set (fun _ => hstay) ht (validateTask_ok hvalid).1
        apply (he.trans hset).mono
        · rintro i u u'' ⟨u', ⟨project, rfl⟩, project', rfl⟩
          exact ⟨project', rfl⟩
        · rintro u (hfalse | ⟨_, _, hfalse, _⟩)
          · exact hfalse
          · exact hfalse

theorem found_cases {config : OrganizationConfig} {package : List PackageTask}
    (hfound : found m config package = .ok c) : (package.map (·.id)).Nodup ∧
      c = { world := { org := { config := config, running := false, tasks := c.tasks } } } ∧
      Evolves (fun _ t t' => ∃ project, t' = { t with project := project }) (fun _ => False)
        (package.map (·.toTask m)) c.tasks := by
  simp only [found, require_bind, decide_eq_true_eq] at hfound
  obtain ⟨hn, hok⟩ := hfound
  obtain ⟨tasks, htasks, hok⟩ := bind_ok hok
  cases hok
  exact ⟨hn, rfl, evolves_import htasks⟩

theorem found_task {config : OrganizationConfig} {package : List PackageTask} {i : ℕ} {t : Task}
    (hfound : found m config package = .ok c) (ht : c.tasks[i]? = some t) :
    ∃ p ∈ package, ∃ project, t = { p.toTask m with project := project } := by
  obtain ⟨-, -, he⟩ := found_cases hfound
  cases hp : (package.map (·.toTask m))[i]? with
  | none => exact (he.added i t hp ht).elim
  | some u =>
    obtain ⟨t', ht', project, heq⟩ := he.kept i u hp
    obtain rfl : t = t' := Option.some.inj (ht.symm.trans ht')
    obtain ⟨p, hmem, rfl⟩ := List.mem_map.mp (List.mem_of_getElem? hp)
    exact ⟨p, hmem, project, heq⟩

end Deeds

end Raticode.Organizations
