import Raticode.OrganizationGraphRuns

/-! How the books of an organization hang together: a claim is of a run of that task, a run in
`_active` works on the task of its attempt, and for the employee who had the task when it started. -/
namespace Raticode.Organizations
open PyDocument OrderedDict MarkedList Attempt

/-! ### The runs in `_active` -/

/-- What a run in `_active` was chosen for. -/
def Worker.post (w : Worker) : Worker :=
  { w with signalled := false, reason := none, alive := true, finished := false }

/-- Runs have left `_active`, in their order, or have come further. -/
structure Thins (c c' : Company) : Prop where
  posts : List.Sublist (c'.active.map (fun p => (p.1, p.2.post))) (c.active.map (fun p => (p.1, p.2.post)))
  lives : ∀ p' ∈ c'.active, ∃ p ∈ c.active, p.1 = p'.1 ∧ p.2.post = p'.2.post ∧
    (p'.2.alive = true → p.2.alive = true) ∧ (p.2.finished = true → p'.2.finished = true)

/-- Which run has which task is as before, and no run has come to `_active`. -/
structure Tended (c c' : Company) : Prop where
  attempts : c'.org.attempts = c.org.attempts
  thins : Thins c c'

structure Unbilled (c c' : Company) : Prop extends Tended c c' where
  usage : c'.usage = c.usage
  runs : c'.runs.map (fun p => (p.1, p.2.bill)) = c.runs.map (fun p => (p.1, p.2.bill))

section Active

variable {c c' c'' : Company} {run : Str} {w : Worker}

theorem Thins.sublist (h : List.Sublist c'.active c.active) : Thins c c' :=
  ⟨h.map _, fun p' hp' => ⟨p', h.subset hp', rfl, rfl, fun h => h, fun h => h⟩⟩

theorem Thins.of_eq (h : c'.active = c.active) : Thins c c' := .sublist (h ▸ List.Sublist.refl _)

theorem Thins.frames (h : c'.active.map (fun p => (p.1, p.2.frame)) =
    c.active.map (fun p => (p.1, p.2.frame))) : Thins c c' := by
  constructor
  · have hposts : c'.active.map (fun p => (p.1, p.2.post)) = c.active.map (fun p => (p.1, p.2.post)) := by
      have hmap := congrArg (List.map (fun p : Str × Worker => (p.1, p.2.post))) h
      rw [List.map_map, List.map_map] at hmap
      exact hmap
    rw [hposts]
  · intro p' hp'
    have hmem : (p'.1, p'.2.frame) ∈ c.active.map (fun p => (p.1, p.2.frame)) := by
      rw [← h]
      exact List.mem_map_of_mem hp'
    obtain ⟨p, hp, heq⟩ := List.mem_map.mp hmem
    obtain ⟨hkey, hframe⟩ : p.1 = p'.1 ∧ p.2.frame = p'.2.frame := Prod.ext_iff.mp heq
    have hpost : p.2.frame.post = p'.2.frame.post := congrArg Worker.post hframe
    have halive : p.2.frame.alive = p'.2.frame.alive := congrArg Worker.alive hframe
    have hfinished : p.2.frame.finished = p'.2.frame.finished := congrArg Worker.finished hframe
    exact ⟨p, hp, hkey, hpost, fun h => halive.trans h, fun h => hfinished.symm.trans h⟩

theorem Thins.at {w' : Worker} (hw : c.active.get run = some w) (hactive : c'.active = c.active.set run w')
    (hpost : w'.post = w.post) (halive : w'.alive = true → w.alive = true)
    (hfinished : w.finished = true → w'.finished = true) : Thins c c' := by
  constructor
  · have hget : Dict.get (c.active.map (fun p => (p.1, p.2.post))) run = some w'.post := by
      rw [Dict.get_map, hw, hpost]
      rfl
    rw [hactive, ← Dict.set_map, Dict.set_of_get hget]
  · intro p' hp'
    rw [hactive] at hp'
    rcases Dict.mem_set hp' with hold | rfl
    · exact ⟨p', hold, rfl, rfl, fun h => h, fun h => h⟩
    · exact ⟨(run, w), Dict.mem_of_get hw, rfl, hpost.symm, halive, hfinished⟩

theorem Thins.get (h : Thins c c') (hn : c.active.keys.Nodup) {w' : Worker}
    (hw' : c'.active.get run = some w') : ∃ w, c.active.get run = some w ∧ w.post = w'.post ∧
      (w'.alive = true → w.alive = true) ∧ (w.finished = true → w'.finished = true) := by
  obtain ⟨⟨key, w⟩, hp, hkey, hpost, halive, hfinished⟩ := h.lives (run, w') (Dict.mem_of_get hw')
  obtain rfl : key = run := hkey
  exact ⟨w, Dict.get_of_mem hn hp, hpost, halive, hfinished⟩

theorem Thins.keys (h : Thins c c') : List.Sublist c'.active.keys c.active.keys := by
  have hkeys (d : Company) : (d.active.map (fun p => (p.1, p.2.post))).map Prod.fst = d.active.keys := by
    rw [List.map_map]
    rfl
  rw [← hkeys c, ← hkeys c']
  exact h.posts.map Prod.fst

theorem Thins.length (h : Thins c c') : c'.active.length ≤ c.active.length := by
  have hle := h.posts.length_le
  rwa [List.length_map, List.length_map] at hle

theorem Unbilled.refl (c : Company) : Unbilled c c := ⟨⟨rfl, .of_eq rfl⟩, rfl, rfl⟩

theorem Books.unbilled {drafts : List Task} (h : Books drafts c c') : Unbilled c c' :=
  ⟨⟨h.attempts, .sublist h.active⟩, h.usage, h.runs⟩

theorem Plain.unbilled (h : Plain c c') : Unbilled c c' :=
  ⟨⟨h.attempts, .frames h.active⟩, h.usage, by rw [h.runs]⟩

end Active

/-! ### What an event does to the books -/

/-- What a dispatch that starts a run does: upkeep first, then the run of a task whose verdict
allows it, under an unused id and within the capacity. -/
structure Starts (m : Moment) (elsewhere : Elsewhere) (run : Str) (fresh : ℕ → Str) (c a : Company)
    (i : ℕ) (t : Task) (reserved : ℤ) (rootKey : Str) : Prop where
  dispatched : c.dispatch m elsewhere run fresh = .ok (a.startRun m i run reserved rootKey t, some i)
  moves : ∃ n ≤ c.routines.length + c.config.employees.length,
    Moves m (c.routines.map (·.2.task)) fresh c n a
  task : a.tasks[i]? = some t
  verdict : a.verdict m elsewhere t = .start reserved rootKey
  unused : c.unused (run :: c.freshIds fresh (c.routines.length + c.config.employees.length)) = true
  unrecorded : c.runs.get run = none
  inactive : c.active.get run = none
  capacity : elsewhere.count + c.active.length < 8
  room : a.active.length < a.config.caps.maxConcurrency

section Events

variable {m : Moment} {c c' a : Company} {elsewhere : Elsewhere} {run : Str} {fresh : ℕ → Str} {i : ℕ}
  {t : Task} {reserved : ℤ} {rootKey : Str}

section Starts

variable (h : Starts m elsewhere run fresh c a i t reserved rootKey)
include h

theorem Starts.books : Books (c.routines.map (·.2.task)) c a := by
  obtain ⟨n, -, hmoves⟩ := h.moves
  exact hmoves.books

theorem Starts.unattempted : a.org.attempts.get run = none := by
  have hfree := h.unused
  simp only [Company.unused, List.all_cons, Bool.and_eq_true, Option.isNone_iff_eq_none] at hfree
  rw [h.books.attempts]
  exact hfree.2.1.2

theorem Starts.ids (hn : (c.tasks.map (·.id)).Nodup) : (a.tasks.map (·.id)).Nodup := by
  obtain ⟨n, hle, hmoves⟩ := h.moves
  have hfree : c.unused ([run] ++ c.freshIds fresh (c.routines.length + c.config.employees.length)) = true :=
    h.unused
  exact nodup_of_unused hmoves hn hle hfree

end Starts

theorem opens_room (h : c.opens m = true) : c.active.length < c.config.caps.maxConcurrency := by
  simp only [Company.opens, Bool.and_eq_true, decide_eq_true_eq] at h
  exact h.2

theorem schedule_cases (m : Moment) (c : Company) (elsewhere : Elsewhere) (run : Str)
    (fresh : ℕ → Str) :
    (∃ n, Moves m (c.routines.map (·.2.task)) fresh c n (c.schedule m elsewhere run fresh)) ∨
      ∃ a i t reserved rootKey, Starts m elsewhere run fresh c a i t reserved rootKey ∧
        c.schedule m elsewhere run fresh = a.startRun m i run reserved rootKey t := by
  rw [Company.schedule]
  split_ifs with hfree
  swap
  · exact .inl ⟨0, .refl⟩
  cases hok : c.dispatch m elsewhere run fresh with
  | error e => exact .inl ⟨0, .refl⟩
  | ok result =>
    obtain ⟨c', pos⟩ := result
    obtain ⟨n, -, a, hmoves, hstarted⟩ := dispatch_moves hok
    rcases dispatch_cases hok with ⟨-, hpos⟩ | ⟨hopens, k, hk, b, hmoves', hstarted'⟩
    · left
      subst hpos
      cases hstarted
      exact ⟨n, hmoves⟩
    · cases hstarted' with
      | none =>
        left
        cases hstarted
        exact ⟨n, hmoves⟩
      | @one i t reserved rootKey ht hv =>
        right
        have hreaped : Moves m (c.routines.map (·.2.task)) fresh c 0 (c.unblock.reap m.now) :=
          (Moves.one (upkeeps_unblock _ c)).upkeep (upkeeps_reap _ c.unblock m.now)
        have hroom : b.active.length < b.config.caps.maxConcurrency := by
          have hlength := hmoves'.books.active.length_le
          have hbefore := opens_room hopens
          rw [hmoves'.books.config]
          omega
        have hall : Moves m (c.routines.map (·.2.task)) fresh c k b := by
          have htrans := hreaped.trans hmoves'
          simpa using htrans
        simp only [Bool.and_eq_true, decide_eq_true_eq, Option.isNone_iff_eq_none] at hfree
        obtain ⟨⟨⟨hunused, hinactive⟩, hrecord⟩, hcapacity⟩ := hfree
        exact ⟨b, i, t, reserved, rootKey, ⟨hok, ⟨k, hk, hall⟩, ht, hv, hunused, hrecord, hinactive,
          hcapacity, hroom⟩, rfl⟩

theorem unbilled_record {f : RunRecord → RunRecord} (hf : ∀ r, (f r).bill = r.bill) (c : Company)
    (run : Str) : Unbilled c (c.record run f) := by
  obtain ⟨runs, hrecord, hbill⟩ := record_cases hf c run
  rw [hrecord]
  exact ⟨⟨rfl, .of_eq rfl⟩, rfl, hbill⟩

theorem act_unbilled {step : Moment × Event}
    (hdispatch : ∀ elsewhere run fresh, step.2 ≠ .dispatch elsewhere run fresh)
    (hfinish : ∀ run x, step.2 ≠ .finish run x) (hreconcile : ∀ run x, step.2 ≠ .reconcile run x) :
    Unbilled c (c.act step) := by
  by_cases hplain : step.2.isPlain = true
  · exact (act_plain hplain).unbilled
  obtain ⟨m, event⟩ := step
  cases event with
  | checkMemories caller fresh changed =>
    simp only [Company.act]
    split_ifs
    · obtain ⟨n, -, hmoves⟩ := checkMemories_moves m (c.routines.map (·.2.task)) c caller fresh changed
      exact hmoves.books.unbilled
    · exact .refl c
  | saveRoutine r revision =>
    simp only [Company.act]
    cases hok : c.saveRoutine m r revision with
    | error e => exact .refl c
    | ok c' =>
      simp only [Company.saveRoutine] at hok
      obtain ⟨-, -, hok⟩ := bind_ok hok
      obtain ⟨-, -, hok⟩ := bind_ok hok
      obtain ⟨-, -, hok⟩ := bind_ok hok
      rw [require_bind] at hok
      obtain ⟨-, hok⟩ := hok
      cases hok
      exact ⟨⟨rfl, .of_eq rfl⟩, rfl, rfl⟩
  | triggerRoutine fresh routineId occurrence =>
    simp only [Company.act]
    split_ifs
    · cases hok : c.triggerRoutine m fresh routineId occurrence with
      | error e => exact .refl c
      | ok c' =>
        obtain ⟨n, -, hmoves⟩ := triggerRoutine_moves hok
        exact hmoves.books.unbilled
    · exact .refl c
  | dispatch elsewhere run fresh => exact absurd rfl (hdispatch elsewhere run fresh)
  | link run workflow =>
    simp only [Company.act, Company.link]
    split
    · exact .refl c
    · split_ifs
      · refine unbilled_record ?_ c run
        exact fun _ => rfl
      · exact .refl c
  | resolve run =>
    simp only [Company.act, Company.resolve]
    split_ifs
    · exact .refl c
    · refine unbilled_record ?_ c run
      exact fun _ => rfl
  | reconcile run x => exact absurd rfl (hreconcile run x)
  | finish run x => exact absurd rfl (hfinish run x)
  | leave run => exact ⟨⟨rfl, .sublist List.filter_sublist⟩, rfl, rfl⟩
  | die run =>
    simp only [Company.act, Company.die]
    split
    · exact .refl c
    · rename_i w hw
      refine ⟨⟨rfl, .at hw rfl rfl (fun h => ?_) (fun h => h)⟩, rfl, rfl⟩
      contradiction
  | restart =>
    have hinterrupted : ∀ r : RunRecord, ({ r with status := .interrupted } : RunRecord).bill = r.bill :=
      fun _ => rfl
    obtain ⟨runs, hruns, hbill⟩ := records_cases hinterrupted (c.tasks.filterMap (·.claim)) c
    simp only [Company.act, Company.restart, hruns]
    refine ⟨⟨?_, .sublist (List.nil_sublist _)⟩, rfl, hbill⟩
    simp only [World.recover]
    split_ifs
    · rfl
    · rfl
  | _ => exact absurd rfl hplain

theorem attempts_finish (now : ℚ) (w : World) (taskId : Str) (o : Outcome) :
    (w.finish now taskId o).org.attempts = w.org.attempts := by
  rw [World.finish]
  split
  · rfl
  · simp only
    split_ifs
    all_goals rfl

theorem tended_finish (m : Moment) (c : Company) (run : Str) (x : Ending) :
    Tended c (c.finish m run x) := by
  unfold Company.finish
  cases hw : c.active.get run with
  | none => exact (Unbilled.refl c).toTended
  | some w =>
    simp only
    split_ifs
    · exact (Unbilled.refl c).toTended
    · exact ⟨attempts_finish m.now c.world w.taskId _, .at hw rfl rfl (fun h => h) (fun _ => rfl)⟩

theorem tended_reconcile (c : Company) (run : Str) (x : Settlement) : Tended c (c.reconcile run x) := by
  unfold Company.reconcile
  split
  · split_ifs
    · exact (Unbilled.refl c).toTended
    · exact (Unbilled.refl c).toTended
    · split
      · exact (Unbilled.refl c).toTended
      · exact ⟨rfl, .of_eq rfl⟩
  · exact (Unbilled.refl c).toTended

end Events

/-! ### Tasks and the runs that have them -/

/-- The task keeps its id, and its claim has ended or is still its assignee's. -/
structure Owned (t t' : Task) : Prop where
  id : t'.id = t.id
  claim : t'.claim = none ∨ (t'.claim = t.claim ∧ t'.assignee = t.assignee)

section Owned

variable {h : Host} {now : ℚ} {org : Org} {i : ℕ} {actor : Actor} {call : TaskCall} {t t' t'' : Task}
  {m : Moment} {c : Company}

theorem Owned.refl (t : Task) : Owned t t := ⟨rfl, .inr ⟨rfl, rfl⟩⟩

theorem Owned.trans (h : Owned t t') (h' : Owned t' t'') : Owned t t'' := by
  refine ⟨h'.id.trans h.id, ?_⟩
  rcases h'.claim with hnone | ⟨hclaim, hassignee⟩
  · exact .inl hnone
  · rcases h.claim with hnone | ⟨hclaim₀, hassignee₀⟩
    · exact .inl (hclaim.trans hnone)
    · exact .inr ⟨hclaim.trans hclaim₀, hassignee.trans hassignee₀⟩

theorem Minor.owned (h : Minor t t') : Owned t t' := by
  refine ⟨h.id, ?_⟩
  rcases h.claim with hclaim | hnone
  · exact .inr ⟨hclaim, h.assignee⟩
  · exact .inl hnone

theorem updateTask_owned {expectedRevision : ℕ} {asked : Changes}
    (hok : updateTask h now org actor expectedRevision asked t = .ok t') : Owned t t' := by
  obtain ⟨c, hc, -, hclaimed, -, path, project, comments, rfl⟩ := updateTask_ok hok
  subst hc
  refine ⟨rfl, ?_⟩
  simp only [candidate, candidateOf]
  split_ifs
  · exact .inl rfl
  · cases hrun : t.claim with
    | none =>
      left
      exact hrun
    | some run =>
      right
      have hsame : (asked.differing t).assignee = none := by
        have hwithin := hclaimed (by rw [Task.isClaimed, hrun]; rfl)
        have hfree := Changes.has_eq_false (f := .assignee) hwithin (by decide)
        simpa [Changes.has] using hfree
      have hpulled : (pulledForward (asked.differing t) t).assignee = none := by
        simp only [pulledForward]
        split_ifs
        · exact hsame
        · exact hsame
      refine ⟨hrun, ?_⟩
      simp only [Changes.apply, hpulled, Option.getD_none]

theorem changeTask_owned (hok : changeTask h now org i actor call t = .ok t') : Owned t t' := by
  cases call with
  | comment body unblock =>
    obtain ⟨comments, rfl | ⟨-, -, rfl⟩⟩ := commentTask_ok hok
    · exact ⟨rfl, .inr ⟨rfl, rfl⟩⟩
    · exact ⟨rfl, .inr ⟨rfl, rfl⟩⟩
  | approve expectedRevision =>
    rw [approveTask_ok hok]
    exact ⟨rfl, .inr ⟨rfl, rfl⟩⟩
  | review expectedRevision decision body =>
    obtain ⟨-, -, -, comments, acceptedAt, evidence, project, rfl⟩ := reviewTask_ok hok
    exact ⟨rfl, .inr ⟨rfl, rfl⟩⟩
  | reopen expectedRevision asked =>
    obtain ⟨-, -, turns, rfl⟩ := reopenTask_ok hok
    exact ⟨rfl, .inr ⟨rfl, rfl⟩⟩
  | update expectedRevision asked => exact updateTask_owned hok

theorem experimented_owned {config : OrganizationConfig} {ids : List Str} {employee : Option Str}
    (hclaim : t.isClaimed = false) (h : Experimented m config ids employee t t') : Owned t t' := by
  obtain ⟨-, tasks, valid, hvalid, hplaced⟩ := h
  obtain ⟨path, rfl⟩ := validateWorkspace_ok hplaced
  obtain ⟨⟨project, rfl⟩, -⟩ := validateTask_ok hvalid
  refine ⟨rfl, .inl ?_⟩
  rw [Task.isClaimed, Option.isSome_eq_false_iff, Option.isNone_iff_eq_none] at hclaim
  exact hclaim

theorem Made.unclaimed {drafts : List Task} (h : Made m drafts c t) : t.claim = none := by
  cases h with
  | occurrence r hr occurrence fresh last hlast => rfl
  | checkIn fresh employee => rfl
  | recheck fresh description employee => rfl

theorem Minor.unclaimed (h : Minor t t') (hclaim : t.claim = none) : t'.claim = none := by
  rcases h.claim with heq | hnone
  · exact heq.trans hclaim
  · exact hnone

theorem act_owned {step : Moment × Event}
    (hdispatch : ∀ elsewhere run fresh, step.2 ≠ .dispatch elsewhere run fresh) :
    Evolves (fun _ => Owned) (fun t => t.claim = none) c.tasks (c.act step).tasks := by
  apply (act_evolves c step).mono
  · intro i t t' hd
    obtain ⟨m, event⟩ := step
    cases event with
    | call caller taskId call =>
      rcases hd with hcalled | rfl | ⟨hquiet, -⟩
      · obtain ⟨t₁, hok, hlast⟩ := hcalled.after
        exact (changeTask_owned hok).trans hlast.owned
      · exact .refl _
      · exact hquiet.toMinor.owned
    | experiment ids employee reason =>
      rcases hd with ⟨hclaim, htried⟩ | rfl
      · exact experimented_owned hclaim htried
      · exact .refl _
    | launch taskId expectedRevision authorization =>
      rcases hd with ⟨-, -, rfl⟩ | rfl
      · exact ⟨rfl, .inr ⟨rfl, rfl⟩⟩
      · exact .refl _
    | dispatch elsewhere run fresh => exact absurd rfl (hdispatch elsewhere run fresh)
    | _ => exact (Deed.minor hd rfl).owned
  · intro t' hnew
    obtain ⟨m, event⟩ := step
    cases event with
    | create caller fresh draft =>
      obtain ⟨-, t, hok, hquiet⟩ := hnew
      exact hquiet.toMinor.unclaimed (createTask_ok hok).2.2.1
    | checkMemories caller fresh changed =>
      obtain ⟨a, t, hmade, hquiet⟩ := hnew
      exact hquiet.toMinor.unclaimed hmade.unclaimed
    | triggerRoutine fresh routineId occurrence =>
      obtain ⟨a, t, hmade, hquiet⟩ := hnew
      exact hquiet.toMinor.unclaimed hmade.unclaimed
    | dispatch elsewhere run fresh => exact absurd rfl (hdispatch elsewhere run fresh)
    | _ => contradiction

theorem Moves.owned {drafts : List Task} {fresh : ℕ → Str} {n : ℕ} {a : Company}
    (h : Moves m drafts fresh c n a) :
    Evolves (fun _ => Owned) (fun t => t.claim = none) c.tasks a.tasks := by
  apply h.evolves.mono
  · exact fun _ _ _ hquiet => hquiet.toMinor.owned
  · rintro t' ⟨b, t, hmade, hquiet⟩
    exact hquiet.toMinor.unclaimed hmade.unclaimed

end Owned

/-! ### The links -/

/-- Claims, attempts and `_active` agree. -/
structure Linked (c : Company) : Prop where
  claims : ∀ t ∈ c.tasks, ∀ run, t.claim = some run → c.org.attempts.get run = some t.id
  workers : ∀ run w, c.active.get run = some w → c.org.attempts.get run = some w.taskId
  assignees : ∀ t ∈ c.tasks, ∀ run w, t.claim = some run → c.active.get run = some w →
    t.assignee = some w.employeeId
  keys : c.active.keys.Nodup

section Links

variable {m : Moment} {c c' a : Company} {elsewhere : Elsewhere} {run : Str} {fresh : ℕ → Str} {i : ℕ}
  {t : Task} {reserved : ℤ} {rootKey : Str}

theorem Linked.tended (h : Linked c) (hb : Tended c c')
    (he : Evolves (fun _ => Owned) (fun t => t.claim = none) c.tasks c'.tasks) : Linked c' := by
  have hbefore : ∀ t' ∈ c'.tasks, ∀ run, t'.claim = some run →
      ∃ t ∈ c.tasks, t.id = t'.id ∧ t.claim = some run ∧ t.assignee = t'.assignee := by
    intro t' ht' run hclaim
    obtain ⟨i, hi⟩ := List.mem_iff_getElem?.mp ht'
    cases hold : c.tasks[i]? with
    | none =>
      have hnone := he.added i t' hold hi
      rw [hclaim] at hnone
      contradiction
    | some t =>
      obtain ⟨u, hu, hid, howned⟩ := he.kept i t hold
      obtain rfl : u = t' := Option.some.inj (hu.symm.trans hi)
      rcases howned with hnone | ⟨heq, hassignee⟩
      · rw [hclaim] at hnone
        contradiction
      · exact ⟨t, List.mem_of_getElem? hold, hid.symm, heq.symm.trans hclaim, hassignee.symm⟩
  constructor
  · intro t' ht' run hclaim
    obtain ⟨t, ht, hid, hold, -⟩ := hbefore t' ht' run hclaim
    rw [hb.attempts, ← hid]
    exact h.claims t ht run hold
  · intro run w' hw'
    obtain ⟨w, hw, hpost, -⟩ := hb.thins.get h.keys hw'
    have htask : w.post.taskId = w'.post.taskId := congrArg Worker.taskId hpost
    rw [hb.attempts, h.workers run w hw]
    exact congrArg some htask
  · intro t' ht' run w' hclaim hw'
    obtain ⟨t, ht, -, hold, hassignee⟩ := hbefore t' ht' run hclaim
    obtain ⟨w, hw, hpost, -⟩ := hb.thins.get h.keys hw'
    have hemployee : w.post.employeeId = w'.post.employeeId := congrArg Worker.employeeId hpost
    rw [← hassignee, h.assignees t ht run w hold hw]
    exact congrArg some hemployee
  · exact hb.thins.keys.nodup h.keys

theorem Linked.start (h : Linked a) (ht : a.tasks[i]? = some t)
    (hv : a.verdict m elsewhere t = .start reserved rootKey) (hattempt : a.org.attempts.get run = none) :
    Linked (a.startRun m i run reserved rootKey t) := by
  have htask : t ∈ a.tasks := List.mem_of_getElem? ht
  have hinactive : a.active.get run = none := by
    cases hw : a.active.get run with
    | none => rfl
    | some w => exact absurd (h.workers run w hw) (by simp [hattempt])
  have htasks : (a.startRun m i run reserved rootKey t).tasks = a.tasks.set i (claimTask run reserved t) := rfl
  have hattempts : (a.startRun m i run reserved rootKey t).org.attempts = a.org.attempts.set run t.id := rfl
  obtain ⟨e, he⟩ := startable_of_verdict hv
  have hassignee : t.assignee = some e.id := by simpa using List.find?_some he.employee
  have hold : ∀ u ∈ a.tasks, u.claim ≠ some run := by
    intro u hu hclaim
    exact absurd (h.claims u hu run hclaim) (by simp [hattempt])
  constructor
  · intro u hu run' hclaim
    rw [hattempts, Dict.get_set]
    rw [htasks] at hu
    rcases List.mem_or_eq_of_mem_set hu with hu | rfl
    · have hne : ¬ run = run' := fun heq => hold u hu (heq ▸ hclaim)
      rw [if_neg hne]
      exact h.claims u hu run' hclaim
    · have heq : run = run' := Option.some.inj hclaim
      rw [if_pos heq]
      rfl
  · intro run' w hw
    rw [hattempts, Dict.get_set]
    rw [Company.startRun, Dict.get_set] at hw
    by_cases heq : run = run'
    · rw [if_pos heq] at hw ⊢
      cases hw
      rfl
    · rw [if_neg heq] at hw ⊢
      exact h.workers run' w hw
  · intro u hu run' w hclaim hw
    rw [htasks] at hu
    rw [Company.startRun, Dict.get_set] at hw
    rcases List.mem_or_eq_of_mem_set hu with hu | rfl
    · have hne : ¬ run = run' := fun heq => hold u hu (heq ▸ hclaim)
      rw [if_neg hne] at hw
      exact h.assignees u hu run' w hclaim hw
    · have heq : run = run' := Option.some.inj hclaim
      rw [if_pos heq] at hw
      cases hw
      simp [claimTask, Company.chosen, hassignee]
  · exact Dict.nodup_keys_set h.keys run _

theorem act_cases (c : Company) (step : Moment × Event) :
    (Tended c (c.act step) ∧ Evolves (fun _ => Owned) (fun t => t.claim = none) c.tasks (c.act step).tasks) ∨
      ∃ elsewhere run fresh a i t reserved rootKey, step.2 = .dispatch elsewhere run fresh ∧
        Starts step.1 elsewhere run fresh c a i t reserved rootKey ∧
        c.act step = a.startRun step.1 i run reserved rootKey t := by
  obtain ⟨m, event⟩ := step
  cases event with
  | dispatch elsewhere run fresh =>
    rcases schedule_cases m c elsewhere run fresh with ⟨n, hmoves⟩ | ⟨a, i, t, reserved, rootKey, hstarts, heq⟩
    · exact .inl ⟨hmoves.books.unbilled.toTended, hmoves.owned⟩
    · exact .inr ⟨elsewhere, run, fresh, a, i, t, reserved, rootKey, rfl, hstarts, heq⟩
  | finish run x =>
    refine .inl ⟨tended_finish m c run x, act_owned ?_⟩
    exact fun _ _ _ h => by cases h
  | reconcile run x =>
    refine .inl ⟨tended_reconcile c run x, act_owned ?_⟩
    exact fun _ _ _ h => by cases h
  | _ =>
    refine .inl ⟨(act_unbilled ?_ ?_ ?_).toTended, act_owned ?_⟩
    · exact fun _ _ _ h => by cases h
    · exact fun _ _ h => by cases h
    · exact fun _ _ h => by cases h
    · exact fun _ _ _ h => by cases h

theorem Starts.linked (h : Starts m elsewhere run fresh c a i t reserved rootKey) (hc : Linked c) :
    Linked a := by
  obtain ⟨n, -, hmoves⟩ := h.moves
  exact hc.tended h.books.unbilled.toTended hmoves.owned

theorem act_linked (c : Company) (step : Moment × Event) (h : Linked c) : Linked (c.act step) := by
  rcases act_cases c step with ⟨hb, he⟩ | ⟨elsewhere, run, fresh, a, i, t, reserved, rootKey, -, hs, heq⟩
  · exact h.tended hb he
  · rw [heq]
    exact (hs.linked h).start hs.task hs.verdict hs.unattempted

theorem found_linked {config : OrganizationConfig} {package : List PackageTask}
    (hfound : found m config package = .ok c) : Linked c := by
  obtain ⟨-, hc, -⟩ := found_cases hfound
  have hactive : c.active = [] := by rw [hc]
  constructor
  · intro t ht run hclaim
    obtain ⟨i, hi⟩ := List.mem_iff_getElem?.mp ht
    obtain ⟨p, -, project, rfl⟩ := found_task hfound hi
    contradiction
  · intro run w hw
    rw [hactive] at hw
    contradiction
  · intro t ht run w hclaim hw
    rw [hactive] at hw
    contradiction
  · rw [hactive]
    exact List.nodup_nil

end Links

end Raticode.Organizations
