import Raticode.OrganizationChanges

/-! What the manager does to an organization by itself comes in moves: tasks are kept up, a task is
added, and at the end of a dispatch a run is started. -/
namespace Raticode.Organizations
open PyDocument OrderedDict MarkedList Attempt

def RunRecord.bill (r : RunRecord) : RunRecord := { r with status := .running, handle := none }

/-- The books of an organization beside its tasks: what is configured, which run has which task, what
the runs are charged, which of them are there, and the drafts of the routines. -/
structure Books (drafts : List Task) (c c' : Company) : Prop where
  config : c'.config = c.config
  attempts : c'.org.attempts = c.org.attempts
  usage : c'.usage = c.usage
  runs : c'.runs.map (fun p => (p.1, p.2.bill)) = c.runs.map (fun p => (p.1, p.2.bill))
  active : List.Sublist c'.active c.active
  works : ∀ run, c.works run = true → c'.works run = true
  routines : (∀ p ∈ c.routines, p.2.task ∈ drafts) → ∀ p ∈ c'.routines, p.2.task ∈ drafts

inductive Made (m : Moment) (drafts : List Task) (c : Company) : Task → Prop where
  | occurrence (r : Routine) (hr : r.task ∈ drafts) (occurrence fresh : Str) (last : Option Str)
      (hlast : ∀ id ∈ last, ∃ u ∈ c.tasks, u.id = id) :
      Made m drafts c (r.occurrenceTask m occurrence fresh last)
  | checkIn (fresh employee : Str) : Made m drafts c (checkIn fresh employee)
  | recheck (fresh description employee : Str) :
      Made m drafts c (recheckTask fresh description employee)

/-- One task is added at the end, made from a draft, and the books of the company stay. -/
structure Adds (m : Moment) (drafts : List Task) (fresh : ℕ → Str) (c c' : Company) : Prop where
  books : Books drafts c c'
  added : ∃ t, Made m drafts c t ∧ t.id = fresh c.tasks.length ∧ c'.tasks = c.tasks ++ [t]

structure Upheld (c : Company) (t t' : Task) : Prop extends Quiet t t' where
  held : ∀ run, t.claim = some run → c.works run = true → t'.claim = some run

structure Upkeeps (drafts : List Task) (c c' : Company) : Prop where
  books : Books drafts c c'
  tasks : Evolves (fun _ => Upheld c) (fun _ => False) c.tasks c'.tasks

inductive Moves (m : Moment) (drafts : List Task) (fresh : ℕ → Str) (c : Company) :
    ℕ → Company → Prop where
  | refl : Moves m drafts fresh c 0 c
  | upkeep {n : ℕ} {c' c'' : Company} (h : Moves m drafts fresh c n c') (hk : Upkeeps drafts c' c'') :
      Moves m drafts fresh c n c''
  | add {n : ℕ} {c' c'' : Company} (h : Moves m drafts fresh c n c') (ha : Adds m drafts fresh c' c'') :
      Moves m drafts fresh c (n + 1) c''

section Rules

variable {m : Moment} {drafts : List Task} {fresh : ℕ → Str} {c c' c'' : Company} {n k : ℕ}

theorem Steady.upheld {t t' : Task} (h : Steady t t') (c : Company) : Upheld c t t' :=
  ⟨h.toQuiet, fun _ hclaim _ => h.claimed.trans hclaim⟩

theorem Upkeeps.keeps (h : Upkeeps drafts c c') : Keeps c.tasks c'.tasks :=
  h.tasks.mono (fun _ _ _ ht => ht.toQuiet) (fun _ hfalse => hfalse)

theorem Upkeeps.steady (hb : Books drafts c c')
    (h : Evolves (fun _ => Steady) (fun _ => False) c.tasks c'.tasks) : Upkeeps drafts c c' :=
  ⟨hb, h.mono (fun _ _ _ ht => ht.upheld c) (fun _ hfalse => hfalse)⟩

theorem Books.of_eq (hconfig : c'.config = c.config) (hattempts : c'.org.attempts = c.org.attempts)
    (husage : c'.usage = c.usage) (hruns : c'.runs = c.runs) (hactive : c'.active = c.active)
    (hroutines : c'.routines = c.routines) : Books drafts c c' where
  config := hconfig
  attempts := hattempts
  usage := husage
  runs := by rw [hruns]
  active := by rw [hactive]
  works := fun run hw => by rwa [Company.works, hactive]
  routines := fun hr => by rwa [hroutines]

theorem Books.refl (drafts : List Task) (c : Company) : Books drafts c c :=
  .of_eq rfl rfl rfl rfl rfl rfl

theorem Books.trans (h : Books drafts c c') (h' : Books drafts c' c'') : Books drafts c c'' where
  config := h'.config.trans h.config
  attempts := h'.attempts.trans h.attempts
  usage := h'.usage.trans h.usage
  runs := h'.runs.trans h.runs
  active := h'.active.trans h.active
  works := fun run hw => h'.works run (h.works run hw)
  routines := fun hr => h'.routines (h.routines hr)

theorem Moves.one (hk : Upkeeps drafts c c') : Moves m drafts fresh c 0 c' := Moves.refl.upkeep hk

theorem Moves.trans (h : Moves m drafts fresh c n c') (h' : Moves m drafts fresh c' k c'') :
    Moves m drafts fresh c (n + k) c'' := by
  induction h' with
  | refl => exact h
  | upkeep _ hk ih => exact ih.upkeep hk
  | add _ ha ih => exact ih.add ha

/-- What upkeep and single additions preserve, every sequence of moves preserves. -/
theorem Moves.invariant {I : Company → Prop} (h : Moves m drafts fresh c n c') (hc : I c)
    (hupkeep : ∀ a b, Upkeeps drafts a b → I a → I b) (hadd : ∀ a b, Adds m drafts fresh a b → I a → I b) :
    I c' := by
  induction h with
  | refl => exact hc
  | upkeep _ hk ih => exact hupkeep _ _ hk ih
  | add _ ha ih => exact hadd _ _ ha ih

theorem Moves.books (h : Moves m drafts fresh c n c') : Books drafts c c' :=
  h.invariant (Books.refl drafts c) (fun _ _ hk hb => hb.trans hk.books)
    (fun _ _ ha hb => hb.trans ha.books)

theorem Keeps.length {xs ys : List Task} (h : Keeps xs ys) : ys.length = xs.length := by
  have hids := congrArg List.length h.ids
  simpa using hids

theorem Moves.ids (h : Moves m drafts fresh c n c') : c'.tasks.map (·.id) =
    c.tasks.map (·.id) ++ (List.range n).map (fun k => fresh (c.tasks.length + k)) := by
  induction h with
  | refl => simp
  | upkeep _ hk ih => rw [hk.keeps.ids, ih]
  | add h ha ih =>
    obtain ⟨t, -, hid, htasks⟩ := ha.added
    have hlen := congrArg List.length ih
    simp only [List.length_map, List.length_append, List.length_range] at hlen
    rw [htasks, List.map_append, ih, List.range_succ, List.map_append, List.append_assoc]
    simp [hid, hlen]

theorem Moves.evolves (h : Moves m drafts fresh c n c') :
    Evolves (fun _ => Quiet) (fun t' => ∃ a t, Made m drafts a t ∧ Quiet t t') c.tasks c'.tasks := by
  induction h with
  | refl => exact Evolves.refl (fun _ => Quiet.refl) _
  | upkeep _ hk ih =>
    apply (ih.trans hk.keeps).mono
    · exact fun _ _ _ ⟨_, ht, ht'⟩ => ht.trans ht'
    · rintro t'' (hfalse | ⟨_, t', ⟨a, t, hmade, hquiet⟩, hquiet'⟩)
      · exact hfalse.elim
      · exact ⟨a, t, hmade, hquiet.trans hquiet'⟩
  | @add _ a b _ ha ih =>
    obtain ⟨t, hmade, -, htasks⟩ := ha.added
    have hadd : Evolves (fun _ u u' => u' = u) (fun u => u = t) a.tasks b.tasks := by
      rw [htasks]
      refine Evolves.append ?_ ?_ a.tasks
      · exact fun _ _ => rfl
      · rfl
    apply (ih.trans hadd).mono
    · rintro _ u u' ⟨_, hquiet, rfl⟩
      exact hquiet
    · rintro u' (rfl | ⟨_, u, hu, rfl⟩)
      · exact ⟨a, u', hmade, Quiet.refl u'⟩
      · exact hu

end Rules

/-! ### The moves of the scheduler -/

section Scheduler

variable {m : Moment} {elsewhere : Elsewhere} {drafts : List Task} {fresh : ℕ → Str} {run : Str}
  {c c' : Company} {n k : ℕ}

theorem Upkeeps.same (hb : Books drafts c c') (htasks : c'.tasks = c.tasks) : Upkeeps drafts c c' := by
  apply Upkeeps.steady hb
  rw [htasks]
  exact Evolves.refl (fun _ => Steady.refl) c.tasks

theorem upkeeps_unblock (drafts : List Task) (c : Company) : Upkeeps drafts c c.unblock :=
  .steady (.of_eq rfl rfl rfl rfl rfl rfl)
    (Evolves.map (fun _ => steady_unblockTask (finished c.tasks)) c.tasks)

theorem record_cases {f : RunRecord → RunRecord} (hf : ∀ r, (f r).bill = r.bill) (c : Company)
    (run : Str) : ∃ runs : Dict Str RunRecord, c.record run f = { c with runs := runs } ∧
      runs.map (fun p => (p.1, p.2.bill)) = c.runs.map (fun p => (p.1, p.2.bill)) := by
  unfold Company.record
  cases hr : c.runs.get run with
  | none => exact ⟨c.runs, rfl, rfl⟩
  | some r =>
    refine ⟨c.runs.set run (f r), rfl, ?_⟩
    have hbill : Dict.get (c.runs.map (fun p => (p.1, p.2.bill))) run = some (f r).bill := by
      rw [Dict.get_map, hr, hf]
      rfl
    rw [← Dict.set_map, Dict.set_of_get hbill]

theorem records_cases {f : RunRecord → RunRecord} (hf : ∀ r, (f r).bill = r.bill) (dead : List Str)
    (c : Company) : ∃ runs : Dict Str RunRecord,
      dead.foldl (fun d run => d.record run f) c = { c with runs := runs } ∧
      runs.map (fun p => (p.1, p.2.bill)) = c.runs.map (fun p => (p.1, p.2.bill)) := by
  induction dead generalizing c with
  | nil => exact ⟨c.runs, rfl, rfl⟩
  | cons run dead ih =>
    obtain ⟨runs, hone, hbill⟩ := record_cases hf c run
    obtain ⟨runs', hrest, hbill'⟩ := ih { c with runs := runs }
    refine ⟨runs', ?_, hbill'.trans hbill⟩
    rw [List.foldl_cons, hone, hrest]

theorem reap_cases (c : Company) (now : ℚ) : ∃ runs : Dict Str RunRecord,
    c.reap now = { c.become (c.org.map (c.reapTask now)) with
      runs := runs, active := c.active.filter (fun p => !c.deadRuns.contains p.1) } ∧
    runs.map (fun p => (p.1, p.2.bill)) = c.runs.map (fun p => (p.1, p.2.bill)) := by
  have hinterrupted : ∀ r : RunRecord, ({ r with status := .interrupted } : RunRecord).bill = r.bill :=
    fun _ => rfl
  obtain ⟨runs, hruns, hbill⟩ := records_cases hinterrupted c.deadRuns
    (c.become (c.org.map (c.reapTask now)))
  refine ⟨runs, ?_, hbill⟩
  simp only [Company.reap, hruns]

theorem upkeeps_reap (drafts : List Task) (c : Company) (now : ℚ) : Upkeeps drafts c (c.reap now) := by
  obtain ⟨runs, hreap, hbill⟩ := reap_cases c now
  rw [hreap]
  have hstays : ∀ run, c.works run = true → c.deadRuns.contains run = false := by
    intro run hw
    by_contra hdead
    rw [Bool.not_eq_false, List.contains_iff_mem] at hdead
    obtain ⟨t, -, hclaim⟩ := List.mem_filterMap.mp hdead
    obtain ⟨-, hnot⟩ := Option.filter_eq_some_iff.mp hclaim
    simp [hw] at hnot
  have hworks : ∀ run, c.works run = true →
      (Dict.get (c.active.filter (fun p => !c.deadRuns.contains p.1)) run).any (·.alive) = true := by
    intro run hw
    rw [Dict.get_filter (fun id => !c.deadRuns.contains id) c.active (by simp only [hstays run hw, Bool.not_false])]
    exact hw
  refine ⟨⟨rfl, rfl, rfl, hbill, List.filter_sublist, hworks, fun h => h⟩,
    Evolves.map (fun _ t => ⟨quiet_reapTask c t, fun run hclaim hw => ?_⟩) c.tasks⟩
  rw [Company.reapTask, hclaim, Option.any_some, hw]
  exact hclaim

theorem trigger_moves {r r' : Routine} {occurrence : Str}
    (hok : c.trigger m (fresh c.tasks.length) r occurrence = .ok (c', r')) (hr : r.task ∈ drafts) :
    r'.task = r.task ∧ ∃ n ≤ 1, Moves m drafts fresh c n c' := by
  have hbooks : Books drafts c c := Books.refl drafts c
  simp only [Company.trigger] at hok
  split_ifs at hok with hthere hskip hmany
  · cases hok
    exact ⟨rfl, 0, Nat.zero_le _, .refl⟩
  · cases hok
    exact ⟨rfl, 0, Nat.zero_le _, Moves.one (.same (.of_eq rfl rfl rfl rfl rfl rfl) rfl)⟩
  · cases hok
    refine ⟨rfl, 1, le_rfl, Moves.refl.add ⟨.of_eq rfl rfl rfl rfl rfl rfl, ?_⟩⟩
    refine ⟨_, Made.occurrence r hr occurrence (fresh c.tasks.length) _ ?_, rfl, rfl⟩
    intro id hid
    obtain ⟨u, hu, rfl⟩ := Option.map_eq_some_iff.mp hid
    exact ⟨u, List.mem_of_mem_filter (List.mem_of_getLast? hu), rfl⟩

theorem upkeeps_routine {key : Str} {r : Routine} (hr : r.task ∈ drafts) :
    Upkeeps drafts c { c with routines := c.routines.set key r } := by
  refine .same ⟨rfl, rfl, rfl, rfl, List.Sublist.refl _, fun _ h => h, fun h p hp => ?_⟩ rfl
  rcases Dict.mem_set hp with hp | rfl
  · exact h p hp
  · exact hr

theorem scheduleRoutine_moves {entry : Str × Routine}
    (hok : Company.scheduleRoutine m fresh c entry = .ok c') (hr : entry.2.task ∈ drafts) :
    ∃ n ≤ 1, Moves m drafts fresh c n c' := by
  obtain ⟨key, r⟩ := entry
  simp only [Company.scheduleRoutine] at hok
  cases hdue : r.nextAt with
  | none =>
    rw [hdue] at hok
    cases hok
    exact ⟨0, Nat.zero_le _, .refl⟩
  | some due =>
    simp only [hdue] at hok
    by_cases hnot : (!r.due m.now) = true
    · rw [if_pos hnot] at hok
      cases hok
      exact ⟨0, Nat.zero_le _, .refl⟩
    · rw [if_neg hnot] at hok
      by_cases hlate : (decide (60 < m.now - due) && decide (r.missed = .skip)) = true
      · rw [if_pos hlate] at hok
        cases hok
        exact ⟨0, Nat.zero_le _, Moves.one (upkeeps_routine hr)⟩
      · rw [if_neg hlate] at hok
        obtain ⟨⟨triggered, r'⟩, htrigger, hok⟩ := bind_ok hok
        cases hok
        obtain ⟨htask, n, hn, hmoves⟩ := trigger_moves htrigger hr
        refine ⟨n, hn, hmoves.upkeep (upkeeps_routine ?_)⟩
        exact htask ▸ hr

theorem scheduleRoutines_moves {entries : List (Str × Routine)}
    (hok : entries.foldlM (Company.scheduleRoutine m fresh) c = .ok c')
    (hr : ∀ p ∈ entries, p.2.task ∈ drafts) : ∃ n ≤ entries.length, Moves m drafts fresh c n c' := by
  induction entries generalizing c with
  | nil =>
    cases hok
    exact ⟨0, le_rfl, .refl⟩
  | cons p entries ih =>
    rw [List.foldlM_cons] at hok
    obtain ⟨a, ha, hok⟩ := bind_ok hok
    obtain ⟨n, hn, hone⟩ := scheduleRoutine_moves ha (hr p List.mem_cons_self)
    obtain ⟨k, hk, hrest⟩ := ih hok (fun q hq => hr q (List.mem_cons_of_mem _ hq))
    refine ⟨n + k, ?_, hone.trans hrest⟩
    rw [List.length_cons]
    omega

theorem beat_moves (drafts : List Task) (e : Employee) :
    ∃ n ≤ 1, Moves m drafts fresh c n (c.beat m fresh e) := by
  simp only [Company.beat]
  split_ifs with hdue
  swap
  · exact ⟨0, Nat.zero_le _, .refl⟩
  rcases heartbeat_cases m.now c.world (fresh c.tasks.length) e.id _ with hsame | ⟨w', hk, hsame, hadd⟩
  · rw [hsame]
    exact ⟨0, Nat.zero_le _, Moves.one (.same (.of_eq rfl rfl rfl rfl rfl rfl) rfl)⟩
  · rw [hadd]
    have hkept : Upkeeps drafts c { c with world := w' } :=
      .steady (.of_eq hsame.config hsame.attempts rfl rfl rfl rfl) hk
    refine ⟨1, le_rfl, (Moves.one hkept).add ⟨.of_eq rfl rfl rfl rfl rfl rfl, ?_⟩⟩
    refine ⟨_, Made.checkIn (fresh c.tasks.length) e.id, ?_, rfl⟩
    exact congrArg fresh hkept.keeps.length.symm

theorem beats_moves (drafts : List Task) (employees : List Employee) :
    ∃ n ≤ employees.length, Moves m drafts fresh c n (employees.foldl (Company.beat m fresh) c) := by
  induction employees generalizing c with
  | nil => exact ⟨0, le_rfl, .refl⟩
  | cons e employees ih =>
    obtain ⟨n, hn, hone⟩ : ∃ n ≤ 1, Moves m drafts fresh c n (c.beat m fresh e) := beat_moves drafts e
    obtain ⟨k, hk, hrest⟩ : ∃ k ≤ employees.length, Moves m drafts fresh (c.beat m fresh e) k
        (employees.foldl (Company.beat m fresh) (c.beat m fresh e)) := ih
    refine ⟨n + k, ?_, hone.trans hrest⟩
    rw [List.length_cons]
    omega

/-- What `verdict` has checked of a task it lets start. -/
structure Startable (m : Moment) (elsewhere : Elsewhere) (c : Company) (t : Task) (e : Employee)
    (reserved : ℤ) (rootKey : Str) : Prop where
  status : t.status = .todo
  unclaimed : t.isClaimed = false
  employee : (c.available m).find? (fun e => t.assignee = some e.id) = some e
  approved : (t.approvalRequired && t.approvedRevision.isNone) = false
  due : t.dueAt.any (fun due => m.now < due) = false
  hold : planHold c.config t = false
  turns : t.turns < c.config.caps.maxTaskTurns
  root : workspace c.config t ≠ []
  key : rootKey = c.rootKey m t
  folder : (c.rootKeys elsewhere).contains rootKey = false
  worker : c.tasks.any (fun u => u.isClaimed && u.assignee = t.assignee) = false
  reservation : reservation c.config t = .ok reserved
  allowance : t.turns + reserved ≤ c.config.caps.maxTaskTurns
  limits : ∀ p ∈ policies c.config e t.project,
    exceeds p.2 (c.account (m.month m.now) p.1) reserved = false

theorem startable_of_verdict {t : Task} {reserved : ℤ} {rootKey : Str}
    (hv : c.verdict m elsewhere t = .start reserved rootKey) :
    ∃ e, Startable m elsewhere c t e reserved rootKey := by
  rw [Company.verdict] at hv
  by_cases hpending : (decide (t.status ≠ .todo) || t.isClaimed) = true
  · rw [if_pos hpending] at hv
    contradiction
  rw [if_neg hpending] at hv
  cases he : (c.available m).find? (fun e => t.assignee = some e.id) with
  | none =>
    rw [he] at hv
    contradiction
  | some e =>
    simp only [he] at hv
    split_ifs at hv with happroval hdue hhold hturns hexhausted hroot hgrants hfree
    simp only [Company.verdictInFolder] at hv
    cases herror : executionError c.config t with
    | some message =>
      rw [herror] at hv
      contradiction
    | none =>
      cases hr : reservation c.config t with
      | error e =>
        rw [herror, hr] at hv
        contradiction
      | ok n =>
        simp only [herror, hr] at hv
        split_ifs at hv with hworkflow hallowance hlimits
        cases hv
        simp only [Bool.or_eq_true, decide_eq_true_eq, not_or, Bool.not_eq_true, ne_eq,
          Decidable.not_not] at hpending hroot hfree
        refine ⟨e, hpending.1, hpending.2, he, Bool.eq_false_of_not_eq_true happroval, by simpa using hdue,
          by simpa using hhold, by omega, hroot.1, rfl, hfree.1, hfree.2, hr, by omega, ?_⟩
        simpa using hlimits

inductive Started (m : Moment) (elsewhere : Elsewhere) (run : Str) (c : Company) :
    Company → Option ℕ → Prop where
  | none : Started m elsewhere run c c none
  | one {i : ℕ} {t : Task} {reserved : ℤ} {rootKey : Str} (ht : c.tasks[i]? = some t)
      (hv : c.verdict m elsewhere t = .start reserved rootKey) :
      Started m elsewhere run c (c.startRun m i run reserved rootKey t) (some i)

theorem startFirst_moves (drafts : List Task) (positions : List ℕ) {result : Company × Option ℕ}
    (h : Company.startFirst m elsewhere run positions c = result) :
    ∃ a, Moves m drafts fresh c 0 a ∧ Started m elsewhere run a result.1 result.2 := by
  induction positions generalizing c with
  | nil =>
    subst h
    exact ⟨c, .refl, .none⟩
  | cons i positions ih =>
    rw [Company.startFirst] at h
    cases ht : c.tasks[i]? with
    | none =>
      rw [ht] at h
      exact ih h
    | some t =>
      simp only [ht] at h
      cases hv : c.verdict m elsewhere t with
      | skip =>
        rw [hv] at h
        exact ih h
      | block reason =>
        rw [hv] at h
        obtain ⟨a, hmoves, hstarted⟩ := ih h
        have hkept : Upkeeps drafts c (c.become (c.org.set i (blockTask m.now reason t))) :=
          .steady (.of_eq rfl rfl rfl rfl rfl rfl)
            (Evolves.set (fun _ => Steady.refl) ht (steady_blockTask reason t))
        have hblocked : Moves m drafts fresh c 0 (c.become (c.org.set i (blockTask m.now reason t))) :=
          Moves.one hkept
        refine ⟨a, ?_, hstarted⟩
        have hall := hblocked.trans hmoves
        simpa using hall
      | start reserved rootKey =>
        simp only [hv] at h
        subst h
        exact ⟨c, .refl, .one ht hv⟩

theorem dispatch_cases {pos : Option ℕ} (hok : c.dispatch m elsewhere run fresh = .ok (c', pos)) :
    (c' = c.unblock.reap m.now ∧ pos = none) ∨
      ((c.unblock.reap m.now).opens m = true ∧
        ∃ n ≤ c.routines.length + c.config.employees.length, ∃ a,
          Moves m (c.routines.map (·.2.task)) fresh (c.unblock.reap m.now) n a ∧
            Started m elsewhere run a c' pos) := by
  set drafts := c.routines.map (·.2.task) with hdrafts
  simp only [Company.dispatch] at hok
  by_cases hopens : (c.unblock.reap m.now).opens m = true
  swap
  · rw [if_pos (by simp [hopens])] at hok
    cases hok
    exact .inl ⟨rfl, rfl⟩
  rw [if_neg (by simp [hopens])] at hok
  right
  refine ⟨hopens, ?_⟩
  obtain ⟨scheduled, hscheduled, hok⟩ := bind_ok hok
  have hentries : (c.unblock.reap m.now).routines = c.routines := by
    obtain ⟨runs, hreap, -⟩ := reap_cases c.unblock m.now
    rw [hreap]
    rfl
  have hconfig : (c.unblock.reap m.now).config = c.config := (upkeeps_reap drafts c.unblock m.now).books.config
  rw [Company.scheduleRoutines, hentries] at hscheduled
  obtain ⟨n, hn, hroutines⟩ : ∃ n ≤ c.routines.length,
      Moves m drafts fresh (c.unblock.reap m.now) n scheduled :=
    scheduleRoutines_moves hscheduled (fun p hp => List.mem_map_of_mem hp)
  have hunblocked : Moves m drafts fresh (c.unblock.reap m.now) n scheduled.unblock :=
    hroutines.upkeep (upkeeps_unblock drafts scheduled)
  split_ifs at hok with hexhausted
  · cases hok
    refine ⟨n, by omega, _, hunblocked.upkeep ?_, .none⟩
    exact .same (.of_eq rfl rfl rfl rfl rfl rfl) rfl
  · obtain ⟨k, hk, hbeats⟩ : ∃ k ≤ (scheduled.unblock.available m).length, Moves m drafts fresh
        scheduled.unblock k ((scheduled.unblock.available m).foldl (Company.beat m fresh) scheduled.unblock) :=
      beats_moves drafts (scheduled.unblock.available m)
    have hemployees : (scheduled.unblock.available m).length ≤ c.config.employees.length := by
      rw [← hconfig, ← hunblocked.books.config]
      exact List.length_filter_le _ _
    obtain ⟨a, hfirst, hstarted⟩ : ∃ a, Moves m drafts fresh
        ((scheduled.unblock.available m).foldl (Company.beat m fresh) scheduled.unblock) 0 a ∧
          Started m elsewhere run a c' pos := startFirst_moves drafts _ (Except.ok.inj hok)
    refine ⟨n + k, by omega, a, ?_, hstarted⟩
    have hall := (hunblocked.trans hbeats).trans hfirst
    simpa using hall

theorem dispatch_moves {pos : Option ℕ} (hok : c.dispatch m elsewhere run fresh = .ok (c', pos)) :
    ∃ n ≤ c.routines.length + c.config.employees.length, ∃ a,
      Moves m (c.routines.map (·.2.task)) fresh c n a ∧ Started m elsewhere run a c' pos := by
  set drafts := c.routines.map (·.2.task) with hdrafts
  have hreaped : Moves m drafts fresh c 0 (c.unblock.reap m.now) :=
    (Moves.one (upkeeps_unblock drafts c)).upkeep (upkeeps_reap drafts c.unblock m.now)
  rcases dispatch_cases hok with ⟨rfl, rfl⟩ | ⟨-, n, hn, a, hmoves, hstarted⟩
  · exact ⟨0, Nat.zero_le _, _, hreaped, .none⟩
  · refine ⟨n, hn, a, ?_, hstarted⟩
    have hall := hreaped.trans hmoves
    simpa using hall

end Scheduler

end Raticode.Organizations
