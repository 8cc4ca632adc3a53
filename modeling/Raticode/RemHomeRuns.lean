import Raticode.RemHome

/-! A task has one run at a time, and each occurrence runs once, over every order of the
transactions. -/
namespace Raticode.Rem
open PyDocument Attempt

namespace Store

variable {h : Host} {s s' s'' : Store}

/-- What holds of the store between transactions. A run that was created is stored for as
long as its task is, so an occurrence that has run is known. -/
structure Sound (h : Host) (s : Store) : Prop where
  taskIds : (s.tasks.map Task.id).Nodup
  runIds : (s.runs.map Run.id).Nodup
  occurrences : (s.runs.map Run.occurrence).Nodup
  live : ∀ r ∈ s.runs, ∀ q ∈ s.runs, q.taskId = r.taskId → r.state.isActive = true →
    q.state.isActive = true → q.id = r.id
  stored : ∀ c ∈ s.created, c.taskId ∈ s.tasks.map Task.id →
    ∃ r ∈ s.runs, r.id = c.runId ∧ r.taskId = c.taskId ∧ r.occurrence = c.occurrence
  drawnTask : ∀ t ∈ s.tasks, ∃ n < s.drawn, t.id = h.uuid n
  drawnRun : ∀ r ∈ s.runs, ∃ n < s.drawn, r.id = h.uuid n
  drawnCreated : ∀ c ∈ s.created, ∃ n < s.drawn, c.taskId = h.uuid n

theorem drawn_le {identity : Str} {m k : ℕ} (hle : m ≤ k)
    (hdrawn : ∃ n < m, identity = h.uuid n) : ∃ n < k, identity = h.uuid n := by
  obtain ⟨n, hlt, heq⟩ := hdrawn
  exact ⟨n, Nat.lt_of_lt_of_le hlt hle, heq⟩

theorem sound_empty : Sound h empty where
  taskIds := List.nodup_nil
  runIds := List.nodup_nil
  occurrences := List.nodup_nil
  live := by simp [empty]
  stored := by simp [empty]
  drawnTask := by simp [empty]
  drawnRun := by simp [empty]
  drawnCreated := by simp [empty]

/-- The store stays sound and forgets no task and no run. -/
structure Moves (h : Host) (s s' : Store) : Prop where
  sound : Sound h s'
  tasks : ∀ identity ∈ s.tasks.map Task.id, identity ∈ s'.tasks.map Task.id
  runs : ∀ identity ∈ s.runs.map Run.id, identity ∈ s'.runs.map Run.id

theorem Sound.stays (hs : Sound h s) : Moves h s s := ⟨hs, fun _ => id, fun _ => id⟩

theorem Moves.trans (hfirst : Moves h s s') (hsecond : Moves h s' s'') : Moves h s s'' :=
  ⟨hsecond.sound, fun i hi => hsecond.tasks i (hfirst.tasks i hi),
    fun i hi => hsecond.runs i (hfirst.runs i hi)⟩

theorem Sound.moves_of_same (hs : Sound h s) (htasks : s'.tasks = s.tasks)
    (hruns : s'.runs = s.runs) (hdrawn : s'.drawn = s.drawn) (hcreated : s'.created = s.created) :
    Moves h s s' := by
  refine ⟨⟨?_, ?_, ?_, ?_, ?_, ?_, ?_, ?_⟩, ?_, ?_⟩
  · rw [htasks]
    exact hs.taskIds
  · rw [hruns]
    exact hs.runIds
  · rw [hruns]
    exact hs.occurrences
  · rw [hruns]
    exact hs.live
  · rw [htasks, hruns, hcreated]
    exact hs.stored
  · rw [htasks, hdrawn]
    exact hs.drawnTask
  · rw [hruns, hdrawn]
    exact hs.drawnRun
  · rw [hcreated, hdrawn]
    exact hs.drawnCreated
  · rw [htasks]
    exact fun _ => id
  · rw [hruns]
    exact fun _ => id

theorem nodup_put {α : Type} {f : α → Str} {p : α → Bool} {l : List α} {x : α}
    (hnodup : (l.map f).Nodup) (hnew : ∀ a ∈ l.filter p, f a ≠ f x) :
    ((l.filter p ++ [x]).map f).Nodup := by
  rw [List.map_append, List.map_cons, List.map_nil, List.nodup_append]
  refine ⟨hnodup.sublist (List.filter_sublist.map f), List.nodup_singleton _, ?_⟩
  intro a ha b hb
  obtain ⟨c, hc, hsame⟩ := List.mem_map.mp ha
  rw [List.mem_singleton.mp hb, ← hsame]
  exact hnew c hc

theorem mem_putTask {task t : Task} :
    t ∈ (s.putTask task).tasks ↔ (t ∈ s.tasks ∧ t.id ≠ task.id) ∨ t = task := by
  simp [putTask]

theorem mem_putRun {run r : Run} : r ∈ (s.putRun run).runs ↔
    (r ∈ s.runs ∧ r.id ≠ run.id ∧ r.occurrence ≠ run.occurrence) ∨ r = run := by
  simp [putRun]

theorem ids_putTask {task : Task} {identity : Str} :
    identity ∈ (s.putTask task).tasks.map Task.id ↔
      identity ∈ s.tasks.map Task.id ∨ identity = task.id := by
  simp only [List.mem_map, mem_putTask]
  constructor
  · intro ⟨t, ht, hid⟩
    rcases ht with ⟨ht, -⟩ | hsame
    · exact .inl ⟨t, ht, hid⟩
    · exact .inr (hsame ▸ hid.symm)
  · intro ht
    by_cases hsame : identity = task.id
    · exact ⟨task, .inr rfl, hsame.symm⟩
    · obtain ⟨t, ht, hid⟩ := ht.resolve_right hsame
      exact ⟨t, .inl ⟨ht, fun heq => hsame (hid.symm.trans heq)⟩, hid⟩

theorem Sound.putTask (hs : Sound h s) {task : Task}
    (hdrawn : ∃ n < s.drawn, task.id = h.uuid n)
    (hnew : task.id ∈ s.tasks.map Task.id ∨ ∀ c ∈ s.created, c.taskId ≠ task.id) :
    Moves h s (s.putTask task) := by
  refine ⟨⟨?_, hs.runIds, hs.occurrences, hs.live, ?_, ?_, hs.drawnRun, hs.drawnCreated⟩, ?_, ?_⟩
  · apply nodup_put hs.taskIds
    intro t ht
    simpa using (List.mem_filter.mp ht).2
  · intro c hc htask
    rcases ids_putTask.mp htask with htask | hsame
    · exact hs.stored c hc htask
    · rcases hnew with hmem | hfresh
      · exact hs.stored c hc (hsame ▸ hmem)
      · exact absurd hsame (hfresh c hc)
  · intro t ht
    rcases mem_putTask.mp ht with ⟨ht, -⟩ | hsame
    · exact hs.drawnTask t ht
    · rw [hsame]
      exact hdrawn
  · intro identity hmem
    exact ids_putTask.mpr (.inl hmem)
  · exact fun _ => id

theorem Sound.putKnownTask (hs : Sound h s) {task : Task}
    (hmem : task.id ∈ s.tasks.map Task.id) : Moves h s (s.putTask task) := by
  obtain ⟨t, ht, hid⟩ := List.mem_map.mp hmem
  have hdrawn : ∃ n < s.drawn, task.id = h.uuid n := hid ▸ hs.drawnTask t ht
  exact hs.putTask hdrawn (.inl hmem)

theorem Sound.mem_update (hs : Sound h s) {run r q : Run} (hr : r ∈ s.runs)
    (hid : run.id = r.id) (hoccurrence : run.occurrence = r.occurrence) :
    q ∈ (s.putRun run).runs ↔ (q ∈ s.runs ∧ q.id ≠ r.id) ∨ q = run := by
  rw [mem_putRun, hid, hoccurrence]
  constructor
  · intro hq
    rcases hq with ⟨hq, hne, -⟩ | hsame
    · exact .inl ⟨hq, hne⟩
    · exact .inr hsame
  · intro hq
    rcases hq with ⟨hq, hne⟩ | hsame
    · refine .inl ⟨hq, hne, ?_⟩
      intro heq
      have hrow : q = r := List.inj_on_of_nodup_map hs.occurrences hq hr heq
      exact hne (congrArg Run.id hrow)
    · exact .inr hsame

theorem Sound.updateRun (hs : Sound h s) {run r : Run} (hr : r ∈ s.runs)
    (hid : run.id = r.id) (htask : run.taskId = r.taskId)
    (hoccurrence : run.occurrence = r.occurrence)
    (halone : run.state.isActive = true → ∀ q ∈ s.runs, q.taskId = r.taskId →
      q.state.isActive = true → q.id = r.id) : Moves h s (s.putRun run) := by
  have hmem : ∀ {q : Run}, q ∈ (s.putRun run).runs ↔ (q ∈ s.runs ∧ q.id ≠ r.id) ∨ q = run :=
    hs.mem_update hr hid hoccurrence
  refine ⟨⟨hs.taskIds, ?_, ?_, ?_, ?_, hs.drawnTask, ?_, hs.drawnCreated⟩, fun _ => id, ?_⟩
  · apply nodup_put hs.runIds
    intro q hq
    have hkept := (List.mem_filter.mp hq).2
    simp only [ne_eq, Bool.and_eq_true, decide_eq_true_eq] at hkept
    exact hkept.1
  · apply nodup_put hs.occurrences
    intro q hq
    have hkept := (List.mem_filter.mp hq).2
    simp only [ne_eq, Bool.and_eq_true, decide_eq_true_eq] at hkept
    exact hkept.2
  · intro q hq p hp hsame hqa hpa
    rcases hmem.mp hq with ⟨hold, hqr⟩ | hqr
    · rcases hmem.mp hp with ⟨hother, -⟩ | hpr
      · exact hs.live q hold p hother hsame hqa hpa
      · -- the run that was stored is the active one
        rw [hpr] at hsame hpa
        exact absurd (halone hpa q hold (hsame.symm.trans htask) hqa) hqr
    · rcases hmem.mp hp with ⟨hother, hpr⟩ | hpr
      · rw [hqr] at hsame hqa
        exact absurd (halone hqa p hother (hsame.trans htask) hpa) hpr
      · rw [hpr, hqr]
  · intro c hc hcreated
    obtain ⟨q, hq, hqid, hqtask, hqocc⟩ := hs.stored c hc hcreated
    by_cases hqr : q.id = r.id
    · have hrow : q = r := List.inj_on_of_nodup_map hs.runIds hq hr hqr
      rw [hrow] at hqid hqtask hqocc
      exact ⟨run, hmem.mpr (.inr rfl), hid.trans hqid, htask.trans hqtask,
        hoccurrence.trans hqocc⟩
    · exact ⟨q, hmem.mpr (.inl ⟨hq, hqr⟩), hqid, hqtask, hqocc⟩
  · intro q hq
    rcases hmem.mp hq with ⟨hq, -⟩ | hsame
    · exact hs.drawnRun q hq
    · rw [hsame, hid]
      exact hs.drawnRun r hr
  · intro identity hidentity
    obtain ⟨q, hq, hqid⟩ := List.mem_map.mp hidentity
    by_cases hqr : q.id = r.id
    · exact List.mem_map.mpr ⟨run, hmem.mpr (.inr rfl), hid.trans (hqr.symm.trans hqid)⟩
    · exact List.mem_map.mpr ⟨q, hmem.mpr (.inl ⟨hq, hqr⟩), hqid⟩

theorem Sound.createRun (hs : Sound h s) {run : Run} (hid : run.id = h.uuid s.drawn)
    (htask : run.taskId ∈ s.tasks.map Task.id)
    (hoccurrence : ∀ r ∈ s.runs, r.occurrence ≠ run.occurrence)
    (halone : ∀ r ∈ s.runs, r.taskId = run.taskId → r.state.isActive = false) :
    Moves h s ({ s with
      drawn := s.drawn + 2
      created := s.created ++ [Creation.mk run.id run.taskId run.occurrence] }.putRun run) := by
  have hfresh : ∀ r ∈ s.runs, r.id ≠ run.id := by
    intro r hr heq
    obtain ⟨n, hlt, hdrawn⟩ := hs.drawnRun r hr
    have hsame : n = s.drawn := h.uuid_injective (by rw [← hdrawn, heq, hid])
    omega
  have hmem : ∀ {q : Run}, q ∈ (putRun { s with
      drawn := s.drawn + 2
      created := s.created ++ [Creation.mk run.id run.taskId run.occurrence] } run).runs ↔
        q ∈ s.runs ∨ q = run := by
    intro q
    rw [mem_putRun]
    constructor
    · intro hq
      exact hq.imp (fun hq => hq.1) id
    · intro hq
      exact hq.imp (fun hq => ⟨hq, hfresh q hq, hoccurrence q hq⟩) id
  obtain ⟨t, ht, htid⟩ := List.mem_map.mp htask
  obtain ⟨k, hk, hktask⟩ := hs.drawnTask t ht
  refine ⟨⟨hs.taskIds, ?_, ?_, ?_, ?_, ?_, ?_, ?_⟩, fun _ => id, ?_⟩
  · apply nodup_put hs.runIds
    intro q hq
    exact hfresh q (List.mem_of_mem_filter hq)
  · apply nodup_put hs.occurrences
    intro q hq
    exact hoccurrence q (List.mem_of_mem_filter hq)
  · intro q hq p hp hsame hqa hpa
    rcases hmem.mp hq with hold | hqr
    · rcases hmem.mp hp with hother | hpr
      · exact hs.live q hold p hother hsame hqa hpa
      · rw [hpr] at hsame
        rw [halone q hold hsame.symm] at hqa
        contradiction
    · rcases hmem.mp hp with hother | hpr
      · rw [hqr] at hsame
        rw [halone p hother hsame] at hpa
        contradiction
      · rw [hpr, hqr]
  · intro c hc hstored
    rcases List.mem_append.mp hc with hc | hc
    · obtain ⟨r, hr, hrow⟩ := hs.stored c hc hstored
      exact ⟨r, hmem.mpr (.inl hr), hrow⟩
    · rw [List.mem_singleton.mp hc]
      exact ⟨run, hmem.mpr (.inr rfl), rfl, rfl, rfl⟩
  · intro t ht
    exact drawn_le (Nat.le_add_right _ 2) (hs.drawnTask t ht)
  · intro r hr
    rcases hmem.mp hr with hr | hsame
    · exact drawn_le (Nat.le_add_right _ 2) (hs.drawnRun r hr)
    · rw [hsame]
      exact ⟨s.drawn, Nat.lt_add_of_pos_right Nat.zero_lt_two, hid⟩
  · intro c hc
    rcases List.mem_append.mp hc with hc | hc
    · exact drawn_le (Nat.le_add_right _ 2) (hs.drawnCreated c hc)
    · rw [List.mem_singleton.mp hc]
      exact ⟨k, Nat.lt_add_right 2 hk, htid.symm.trans hktask⟩
  · intro identity hidentity
    obtain ⟨q, hq, hqid⟩ := List.mem_map.mp hidentity
    exact List.mem_map.mpr ⟨q, hmem.mpr (.inl hq), hqid⟩

variable {now : Now} {task : Task} {occurrence : Str} {thread scheduledFor : Option Str}
  {run : Run}

theorem find_none {α : Type} {p : α → Bool} {l : List α} (hnone : l.find? p = none) :
    ∀ a ∈ l, p a = false := by
  intro a ha
  exact Bool.eq_false_iff.mpr (List.find?_eq_none.mp hnone a ha)

theorem mem_newestFirst {runs : List Run} {r : Run} : r ∈ newestFirst runs ↔ r ∈ runs := by
  rw [newestFirst, List.mem_mergeSort, List.mem_reverse]

theorem addRun_cases : (∃ r ∈ s.runs, s.addRun h now task occurrence thread scheduledFor = (r, s)) ∨
    (∀ r ∈ s.runs, r.taskId = task.id → r.state.isActive = false) ∧
      (∀ r ∈ s.runs, r.occurrence ≠ occurrence) ∧
      ∃ run : Run, run.id = h.uuid s.drawn ∧ run.taskId = task.id ∧ run.occurrence = occurrence ∧
        s.addRun h now task occurrence thread scheduledFor =
          (run, ({ s with
            drawn := s.drawn + 2
            created := s.created ++ [Creation.mk run.id run.taskId run.occurrence] }.putRun
              run).putThread ⟨run.threadId, run.id⟩) := by
  unfold Store.addRun
  cases hactive : (s.runsOf task.id).find? (fun r => r.state.isActive) with
  | some active =>
    have hmem := List.mem_of_find?_eq_some hactive
    exact .inl ⟨active, List.mem_of_mem_filter hmem, rfl⟩
  | none =>
    dsimp only
    split
    · next found huncertain =>
      have hhead := List.mem_of_head? (Option.eq_some_of_filter_eq_some huncertain)
      have hmem := List.mem_of_mem_filter (mem_newestFirst.mp hhead)
      exact .inl ⟨found, List.mem_of_mem_filter hmem, rfl⟩
    · cases hknown : s.runs.find? (fun r => r.occurrence = occurrence) with
      | some known => exact .inl ⟨known, List.mem_of_find?_eq_some hknown, rfl⟩
      | none =>
        right
        refine ⟨?_, ?_, _, rfl, rfl, rfl, rfl⟩
        · intro r hr hof
          exact find_none hactive r (List.mem_filter.mpr ⟨hr, decide_eq_true hof⟩)
        · intro r hr
          simpa using find_none hknown r hr

theorem Sound.addRun (hs : Sound h s) (htask : task.id ∈ s.tasks.map Task.id)
    (hrun : s.addRun h now task occurrence thread scheduledFor = (run, s')) :
    Moves h s s' ∧ run ∈ s'.runs := by
  rcases addRun_cases (s := s) (h := h) with ⟨r, hr, heq⟩ | ⟨halone, hunknown, created, hid, hof, hocc, heq⟩
  · obtain ⟨hsame, hstore⟩ := Prod.mk.inj (heq.symm.trans hrun)
    rw [← hsame, ← hstore]
    exact ⟨hs.stays, hr⟩
  · obtain ⟨hsame, hstore⟩ := Prod.mk.inj (heq.symm.trans hrun)
    have hmoves := hs.createRun hid (hof ▸ htask) (hocc ▸ hunknown) (hof ▸ halone)
    rw [← hsame, ← hstore]
    exact ⟨hmoves.trans (hmoves.sound.moves_of_same rfl rfl rfl rfl),
      mem_putRun.mpr (.inr rfl)⟩

theorem Sound.queueReview (hs : Sound h s) {old : Run} (hold : old ∈ s.runs)
    (hrun : s.queueReview old = .ok (run, s')) : Moves h s s' := by
  unfold Store.queueReview at hrun
  dsimp only at hrun
  split at hrun
  · cases hrun
  · next hidle =>
    obtain ⟨-, hstore⟩ := Prod.mk.inj (Except.ok.inj hrun)
    rw [← hstore]
    refine hs.updateRun hold rfl rfl rfl ?_
    intro _ q hq hof hactive
    have hfree := find_none hidle q (List.mem_filter.mpr ⟨hq, decide_eq_true hof⟩)
    by_contra hne
    simp [hne, hactive] at hfree

theorem run_mem {identity : Str} (hrun : s.run identity = .ok run) : run ∈ s.runs := by
  unfold Store.run at hrun
  split at hrun
  · next found hfound => exact Except.ok.inj hrun ▸ List.mem_of_find?_eq_some hfound
  · cases hrun

theorem task_mem {identity : Str} (htask : s.task identity = .ok task) :
    task ∈ s.tasks ∧ task.id = identity := by
  unfold Store.task at htask
  split at htask
  · next found hfound =>
    rw [← Except.ok.inj htask]
    exact ⟨List.mem_of_find?_eq_some hfound, by simpa using List.find?_some hfound⟩
  · cases htask

theorem Sound.updateActive (hs : Sound h s) {r : Run} (hr : r ∈ s.runs)
    (hactive : r.state.isActive = true) (hid : run.id = r.id) (htask : run.taskId = r.taskId)
    (hoccurrence : run.occurrence = r.occurrence) : Moves h s (s.putRun run) := by
  refine hs.updateRun hr hid htask hoccurrence ?_
  intro _ q hq hof hqa
  exact hs.live r hr q hq hof hactive hqa

theorem Sound.updateSame (hs : Sound h s) {r : Run} (hr : r ∈ s.runs)
    (hstate : run.state = r.state) (hid : run.id = r.id) (htask : run.taskId = r.taskId)
    (hoccurrence : run.occurrence = r.occurrence) : Moves h s (s.putRun run) := by
  refine hs.updateRun hr hid htask hoccurrence ?_
  intro hactive q hq hof hqa
  rw [hstate] at hactive
  exact hs.live r hr q hq hof hactive hqa

theorem Sound.mutateRun (hs : Sound h s) {identity : Str} {action : RunAction} {answer : Answer}
    (hrun : s.mutateRun identity action = .ok (answer, s')) : Moves h s s' := by
  obtain ⟨r, hfind, hrun⟩ := bind_ok hrun
  have hr := run_mem hfind
  cases action with
  | cancel =>
    obtain ⟨-, hstore⟩ := Prod.mk.inj (Except.ok.inj hrun)
    rw [← hstore]
    split
    · next hactive => exact hs.updateActive hr hactive rfl rfl rfl
    · exact hs.updateSame hr rfl rfl rfl rfl
  | acknowledge =>
    dsimp only at hrun
    split at hrun
    · cases hrun
    · obtain ⟨-, hstore⟩ := Prod.mk.inj (Except.ok.inj hrun)
      rw [← hstore]
      exact hs.updateSame hr rfl rfl rfl rfl

theorem reached_same {action : TaskAction} {r : Run} (hreached : reached action task r = some run) :
    run.id = r.id ∧ run.taskId = r.taskId ∧ run.occurrence = r.occurrence := by
  simp only [reached, Option.ite_none_right_eq_some, Option.some.injEq] at hreached
  rw [← hreached.2]
  exact ⟨rfl, rfl, rfl⟩

theorem Sound.reachRuns {action : TaskAction} {rows : List Run} (hs : Sound h s)
    (hrows : ∀ r ∈ rows, r ∈ s.runs) (hnodup : (rows.map Run.id).Nodup) :
    Moves h s (rows.foldl (reachRun action task) s) := by
  induction rows generalizing s with
  | nil => exact hs.stays
  | cons r rows ih =>
    have hr := hrows r List.mem_cons_self
    rw [List.map_cons, List.nodup_cons] at hnodup
    have hfirst : Moves h s (reachRun action task s r) ∧
        ∀ q ∈ rows, q ∈ (reachRun action task s r).runs := by
      have hothers : ∀ q ∈ rows, q ∈ s.runs := fun q hq => hrows q (List.mem_cons_of_mem _ hq)
      unfold reachRun
      split
      · next hactive =>
        split
        · next run hreached =>
          obtain ⟨hid, hof, hocc⟩ := reached_same hreached
          refine ⟨hs.updateActive hr hactive hid hof hocc, ?_⟩
          intro q hq
          apply (hs.mem_update hr hid hocc).mpr
          exact .inl ⟨hothers q hq, fun heq => hnodup.1 (heq ▸ List.mem_map_of_mem hq)⟩
        · exact ⟨hs.stays, hothers⟩
      · exact ⟨hs.stays, hothers⟩
    exact hfirst.1.trans (ih hfirst.1.sound hfirst.2 hnodup.2)

theorem edited_id {payload : Edit} {task' : Task}
    (hedit : edited h now payload task = .ok task') : task'.id = task.id := by
  unfold edited at hedit
  split at hedit
  · cases hedit
  · split at hedit
    · cases hedit
    · split at hedit
      · cases hedit
      · obtain ⟨recipe, -, hedit⟩ := bind_ok hedit
        dsimp only at hedit
        split at hedit
        · obtain ⟨next, -, hedit⟩ := bind_ok hedit
          rw [← Except.ok.inj hedit]
          dsimp only
          split <;> rfl
        · rw [← Except.ok.inj hedit]
          split <;> rfl

theorem changed_id {action : TaskAction} {task' : Task}
    (hchange : changed h now action task = .ok task') : task'.id = task.id := by
  cases action with
  | run => rw [← Except.ok.inj hchange]
  | edit payload =>
    have hedit : edited h now payload task = .ok task' := hchange
    exact edited_id hedit
  | pause cancelCurrent => rw [← Except.ok.inj hchange]
  | delete => rw [← Except.ok.inj hchange]

theorem runsOf_nodup (hs : Sound h s) {identity : Str} :
    ((s.runsOf identity).map Run.id).Nodup :=
  hs.runIds.sublist (List.filter_sublist.map Run.id)

theorem Sound.mutateTask (hs : Sound h s) {identity requestId : Str} {action : TaskAction}
    {answer : Answer} (hrun : s.mutateTask h now identity requestId action = .ok (answer, s')) :
    Moves h s s' := by
  obtain ⟨task, htask, hrun⟩ := bind_ok hrun
  obtain ⟨hmem, hid⟩ := task_mem htask
  have hthere : task.id ∈ s.tasks.map Task.id := List.mem_map_of_mem hmem
  have hchange : ∀ {action : TaskAction} {task' : Task}, changed h now action task = .ok task' →
      Moves h s ((((s.putTask { task' with revision := task'.revision + 1 }).runsOf
        identity).foldl (reachRun action { task' with revision := task'.revision + 1 })
          (s.putTask { task' with revision := task'.revision + 1 }))) := by
    intro action task' hchanged
    have hkept : task'.id ∈ s.tasks.map Task.id := (changed_id hchanged).symm ▸ hthere
    have hput : Moves h s (s.putTask { task' with revision := task'.revision + 1 }) :=
      hs.putKnownTask hkept
    refine hput.trans (hput.sound.reachRuns ?_ (runsOf_nodup hput.sound))
    intro r hr
    exact List.mem_of_mem_filter hr
  split at hrun
  · cases hrun
  · cases action with
    | run =>
      dsimp only at hrun
      split at hrun
      · next old hold =>
        obtain ⟨⟨run, s₁⟩, hqueue, hpure⟩ := bind_ok hrun
        obtain ⟨-, hstore⟩ := Prod.mk.inj (Except.ok.inj hpure)
        have hhead := List.mem_of_head? (Option.eq_some_of_filter_eq_some hold)
        have hstored := List.mem_of_mem_filter (mem_newestFirst.mp hhead)
        rw [← hstore]
        exact hs.queueReview hstored hqueue
      · obtain ⟨-, hstore⟩ := Prod.mk.inj (Except.ok.inj hrun)
        rw [← hstore]
        exact (hs.addRun hthere (Prod.mk.eta).symm).1
    | edit _ | pause _ | delete =>
      obtain ⟨task', hchanged, hpure⟩ := bind_ok hrun
      obtain ⟨-, hstore⟩ := Prod.mk.inj (Except.ok.inj hpure)
      exact hstore ▸ hchange hchanged

theorem Sound.command (hs : Sound h s) {requestId fingerprint : Str}
    {operation : Store → Checked (Answer × Store)}
    (hoperation : ∀ {answer s'}, operation s = .ok (answer, s') → Moves h s s')
    (hrun : s.command h requestId fingerprint operation = .ok s') : Moves h s s' := by
  unfold Store.command at hrun
  split at hrun
  · cases hrun
  · split at hrun
    · cases hrun
    · split at hrun
      · split at hrun
        · cases hrun
        · rw [← Except.ok.inj hrun]
          exact hs.stays
      · obtain ⟨⟨answer, s₁⟩, hok, hpure⟩ := bind_ok hrun
        have hmoves := hoperation hok
        rw [← Except.ok.inj hpure]
        exact hmoves.trans (hmoves.sound.moves_of_same rfl rfl rfl rfl)

theorem Sound.dueTask (hs : Sound h s) {clock : ℤ} (htask : task.id ∈ s.tasks.map Task.id)
    (hrun : s.dueTask h now clock task = .ok s') : Moves h s s' := by
  unfold Store.dueTask at hrun
  split at hrun
  · split at hrun
    · cases hrun
    · split at hrun
      · rw [← Except.ok.inj hrun]
        exact hs.stays
      · dsimp only at hrun
        obtain ⟨next, -, hpure⟩ := bind_ok hrun
        rw [← Except.ok.inj hpure]
        obtain ⟨hadd, hstored⟩ := hs.addRun htask (Prod.mk.eta).symm
        have hsend : ∀ {run : Run} {s₁ : Store} {c : Bool} {source : Option Str}, Moves h s s₁ →
            run ∈ s₁.runs → Moves h s ((if c then
              s₁.putRun { run with deliverFilesTo := source } else s₁).putTask
                { task with nextOccurrenceAt := next }) := by
          intro run s₁ c source hmoves hmem
          have hfiles : Moves h s (if c then
              s₁.putRun { run with deliverFilesTo := source } else s₁) := by
            split
            · exact hmoves.trans (hmoves.sound.updateSame hmem rfl rfl rfl rfl)
            · exact hmoves
          exact hfiles.trans (hfiles.sound.putKnownTask (hfiles.tasks _ htask))
        exact hsend hadd hstored
  · rw [← Except.ok.inj hrun]
    exact hs.stays

theorem Sound.addTask (hs : Sound h s) {recipe : Recipe} {source : Option Str}
    (hrun : s.addTask h now recipe source = .ok (task, s')) : Moves h s s' := by
  obtain ⟨next, -, hpure⟩ := bind_ok hrun
  obtain ⟨-, hstore⟩ := Prod.mk.inj (Except.ok.inj hpure)
  have hdraw : Moves h s { s with drawn := s.drawn + 1 } := by
    refine ⟨⟨hs.taskIds, hs.runIds, hs.occurrences, hs.live, hs.stored, ?_, ?_, ?_⟩,
      fun _ => id, fun _ => id⟩
    · exact fun t ht => drawn_le (Nat.le_succ _) (hs.drawnTask t ht)
    · exact fun r hr => drawn_le (Nat.le_succ _) (hs.drawnRun r hr)
    · exact fun c hc => drawn_le (Nat.le_succ _) (hs.drawnCreated c hc)
  have hfresh : ∀ c ∈ s.created, c.taskId ≠ h.uuid s.drawn := by
    intro c hc heq
    obtain ⟨n, hlt, hdrawn⟩ := hs.drawnCreated c hc
    have hsame : n = s.drawn := h.uuid_injective (hdrawn.symm.trans heq)
    omega
  rw [← hstore]
  exact hdraw.trans (hdraw.sound.putTask ⟨s.drawn, Nat.lt_succ_self _, rfl⟩ (.inr hfresh))

theorem Sound.advanceRun (hs : Sound h s) {identity : Str} {change : Run → Run}
    (hrun : s.advanceRun identity change = .ok s') : Moves h s s' := by
  obtain ⟨r, hfind, hrun⟩ := bind_ok hrun
  dsimp only at hrun
  split at hrun
  · next hactive =>
    rw [← Except.ok.inj hrun]
    exact hs.updateActive (run_mem hfind) hactive rfl rfl rfl
  · cases hrun

theorem Sound.due (hs : Sound h s) {clock : ℤ} (hrun : s.due h now clock = .ok s') :
    Moves h s s' := by
  have hrows : ∀ {rows : List Task} {s : Store}, Sound h s →
      (∀ t ∈ rows, t.id ∈ s.tasks.map Task.id) →
      rows.foldlM (Store.dueTask h now clock) s = .ok s' → Moves h s s' := by
    intro rows
    induction rows with
    | nil =>
      intro s hs _ hrun
      rw [← Except.ok.inj hrun]
      exact hs.stays
    | cons t rows ih =>
      intro s hs hthere hrun
      rw [List.foldlM_cons] at hrun
      obtain ⟨s₁, hfirst, hrest⟩ := bind_ok hrun
      have hmoves := hs.dueTask (hthere t List.mem_cons_self) hfirst
      refine hmoves.trans (ih hmoves.sound ?_ hrest)
      intro q hq
      exact hmoves.tasks _ (hthere q (List.mem_cons_of_mem _ hq))
  exact hrows hs (fun t ht => List.mem_map_of_mem ht) hrun

/-! Cleanup. -/

def Finished (s : Store) (t : Task) : Prop :=
  t.recipe.schedule.kind = .once ∧ ∀ r ∈ s.runs, r.taskId = t.id → r.state.isActive = false

/-- Cleaning up drops finished tasks and their runs, and nothing else. -/
structure Cleans (h : Host) (s s' : Store) : Prop where
  sound : Sound h s'
  tasks : s'.tasks ⊆ s.tasks
  runs : s'.runs ⊆ s.runs
  keptTasks : ∀ t ∈ s.tasks, t ∈ s'.tasks ∨ s.Finished t
  keptRuns : ∀ r ∈ s.runs, r ∈ s'.runs ∨ ∃ t ∈ s.tasks, t.id = r.taskId ∧ t ∉ s'.tasks

theorem Sound.cleansNothing (hs : Sound h s) : Cleans h s s :=
  ⟨hs, fun _ => id, fun _ => id, fun _ => .inl, fun _ => .inl⟩

theorem Cleans.trans (hs : Sound h s) (hfirst : Cleans h s s') (hsecond : Cleans h s' s'') :
    Cleans h s s'' where
  sound := hsecond.sound
  tasks := fun _ ht => hfirst.tasks (hsecond.tasks ht)
  runs := fun _ hr => hfirst.runs (hsecond.runs hr)
  keptTasks := by
    intro t ht
    rcases hfirst.keptTasks t ht with hkept | hfinished
    · refine (hsecond.keptTasks t hkept).imp id ?_
      intro ⟨honce, hover⟩
      refine ⟨honce, ?_⟩
      intro r hr hof
      rcases hfirst.keptRuns r hr with hstill | ⟨t', ht', hid, hgone⟩
      · exact hover r hstill hof
      · -- a run that went took its task along, and the task is still there
        have hsame : t' = t := List.inj_on_of_nodup_map hs.taskIds ht' ht (hid.trans hof)
        exact absurd (hsame ▸ hkept) hgone
    · exact .inr hfinished
  keptRuns := by
    intro r hr
    rcases hfirst.keptRuns r hr with hkept | ⟨t, ht, hid, hgone⟩
    · rcases hsecond.keptRuns r hkept with hstill | ⟨t, ht, hid, hgone⟩
      · exact .inl hstill
      · exact .inr ⟨t, hfirst.tasks ht, hid, hgone⟩
    · exact .inr ⟨t, ht, hid, fun hmem => hgone (hsecond.tasks hmem)⟩

theorem mem_without_tasks {runIds threads : List Str} {t : Task} :
    t ∈ (s.without task runIds threads).tasks ↔ t ∈ s.tasks ∧ t.id ≠ task.id := by
  simp [without]

theorem mem_without_runs {threads : List Str} (hs : Sound h s) {r : Run} :
    r ∈ (s.without task ((s.runsOf task.id).map Run.id) threads).runs ↔
      r ∈ s.runs ∧ r.taskId ≠ task.id := by
  simp only [without, List.mem_filter, Bool.not_eq_true', List.contains_eq_mem,
    decide_eq_false_iff_not]
  constructor
  · intro ⟨hr, hout⟩
    refine ⟨hr, fun hof => hout ?_⟩
    exact List.mem_map_of_mem (List.mem_filter.mpr ⟨hr, decide_eq_true hof⟩)
  · intro ⟨hr, hof⟩
    refine ⟨hr, fun hin => hof ?_⟩
    obtain ⟨q, hq, hid⟩ := List.mem_map.mp hin
    obtain ⟨hq, hqof⟩ := List.mem_filter.mp hq
    have hsame : q = r := List.inj_on_of_nodup_map hs.runIds hq hr hid
    exact hsame ▸ of_decide_eq_true hqof

theorem Sound.without (hs : Sound h s) {threads : List Str} :
    Sound h (s.without task ((s.runsOf task.id).map Run.id) threads) where
  taskIds := hs.taskIds.sublist (List.filter_sublist.map Task.id)
  runIds := hs.runIds.sublist (List.filter_sublist.map Run.id)
  occurrences := hs.occurrences.sublist (List.filter_sublist.map Run.occurrence)
  live := fun r hr q hq => hs.live r (List.mem_of_mem_filter hr) q (List.mem_of_mem_filter hq)
  stored := by
    intro c hc htask
    obtain ⟨t, ht, hid⟩ := List.mem_map.mp htask
    obtain ⟨ht, hne⟩ := mem_without_tasks.mp ht
    obtain ⟨r, hr, hrid, hof, hocc⟩ := hs.stored c hc (hid ▸ List.mem_map_of_mem ht)
    refine ⟨r, (mem_without_runs hs).mpr ⟨hr, ?_⟩, hrid, hof, hocc⟩
    rw [hof, ← hid]
    exact hne
  drawnTask := fun t ht => hs.drawnTask t (List.mem_of_mem_filter ht)
  drawnRun := fun r hr => hs.drawnRun r (List.mem_of_mem_filter hr)
  drawnCreated := hs.drawnCreated

theorem once_of_cleanupAt {moment : ℤ} (hdue : s.cleanupAt h task = some moment) :
    task.recipe.schedule.kind = .once := by
  unfold cleanupAt at hdue
  split at hdue
  · split at hdue
    · split at hdue
      · next hdone =>
        simp only [Bool.and_eq_true, decide_eq_true_eq] at hdone
        exact hdone.1.1
      · cases hdue
    · cases hdue
  · cases hdue

theorem Sound.cleanTask (hs : Sound h s) {clock : ℤ} {busyRuns busyThreads : List Str}
    (htask : task ∈ s.tasks) : Cleans h s (cleanTask h clock busyRuns busyThreads s task) ∧
      ∀ t ∈ s.tasks, t.id ≠ task.id → t ∈ (cleanTask h clock busyRuns busyThreads s task).tasks := by
  unfold Store.cleanTask
  split
  · exact ⟨hs.cleansNothing, fun t ht _ => ht⟩
  · next moment hdue =>
    split
    · exact ⟨hs.cleansNothing, fun t ht _ => ht⟩
    · dsimp only
      split
      · exact ⟨hs.cleansNothing, fun t ht _ => ht⟩
      · next hfree =>
        simp only [Bool.or_eq_true, not_or] at hfree
        have hover : ∀ r ∈ s.runs, r.taskId = task.id → r.state.isActive = false := by
          intro r hr hof
          have hnone := List.any_eq_false.mp (Bool.eq_false_iff.mpr hfree.1.1.1.1) r
            (List.mem_filter.mpr ⟨hr, decide_eq_true hof⟩)
          exact Bool.eq_false_iff.mpr hnone
        have honce := once_of_cleanupAt hdue
        have hothers : ∀ t ∈ s.tasks, t.id ≠ task.id →
            t ∈ (s.without task ((s.runsOf task.id).map Run.id)
              ((s.runsOf task.id).map Run.threadId ++ (s.threads.filter (fun t =>
                ((s.runsOf task.id).map Run.id).contains t.managedRunId)).map Thread.id)).tasks :=
          fun t ht hne => mem_without_tasks.mpr ⟨ht, hne⟩
        refine ⟨⟨hs.without, List.filter_subset_self _, List.filter_subset_self _, ?_, ?_⟩, hothers⟩
        · intro t ht
          by_cases hid : t.id = task.id
          · have hsame : t = task := List.inj_on_of_nodup_map hs.taskIds ht htask hid
            rw [hsame]
            exact .inr ⟨honce, hover⟩
          · exact .inl (hothers t ht hid)
        · intro r hr
          by_cases hof : r.taskId = task.id
          · refine .inr ⟨task, htask, hof.symm, fun hmem => ?_⟩
            exact (mem_without_tasks.mp hmem).2 rfl
          · exact .inl ((mem_without_runs hs).mpr ⟨hr, hof⟩)

theorem Sound.cleanup (hs : Sound h s) {clock : ℤ} {busyRuns busyThreads : List Str} :
    Cleans h s (s.cleanup h clock busyRuns busyThreads) := by
  have hrows : ∀ {rows : List Task} {s : Store}, Sound h s → (∀ t ∈ rows, t ∈ s.tasks) →
      (rows.map Task.id).Nodup →
      Cleans h s (rows.foldl (Store.cleanTask h clock busyRuns busyThreads) s) := by
    intro rows
    induction rows with
    | nil =>
      intro s hs _ _
      exact hs.cleansNothing
    | cons t rows ih =>
      intro s hs hthere hnodup
      rw [List.map_cons, List.nodup_cons] at hnodup
      obtain ⟨hcleans, hothers⟩ := hs.cleanTask (hthere t List.mem_cons_self)
      refine hcleans.trans hs (ih hcleans.sound ?_ hnodup.2)
      intro q hq
      apply hothers q (hthere q (List.mem_cons_of_mem _ hq))
      intro heq
      exact hnodup.1 (heq ▸ List.mem_map_of_mem hq)
  exact hrows hs (fun t ht => ht) hs.taskIds

/-! Runs of transactions. -/

theorem Sound.step (hs : Sound h s) (action : Action) :
    Moves h s (s.step h action) ∨
      (∃ clock busyRuns busyThreads, action = .cleanup clock busyRuns busyThreads) ∧
        Cleans h s (s.step h action) := by
  unfold Store.step
  cases hact : s.act h action with
  | error fault => exact .inl hs.stays
  | ok s' =>
    dsimp only
    cases action with
    | addTask now recipe source =>
      obtain ⟨⟨task, s₁⟩, hadd, hpure⟩ := bind_ok hact
      rw [← Except.ok.inj hpure]
      exact .inl (hs.addTask hadd)
    | mutateTask now identity requestId fingerprint action =>
      exact .inl (hs.command (fun hrun => hs.mutateTask hrun) hact)
    | mutateRun identity requestId fingerprint action =>
      exact .inl (hs.command (fun hrun => hs.mutateRun hrun) hact)
    | queueReview identity =>
      obtain ⟨old, hfind, hact⟩ := bind_ok hact
      obtain ⟨⟨run, s₁⟩, hqueue, hpure⟩ := bind_ok hact
      rw [← Except.ok.inj hpure]
      exact .inl (hs.queueReview (run_mem hfind) hqueue)
    | due now clock => exact .inl (hs.due hact)
    | cleanup clock busyRuns busyThreads =>
      rw [← Except.ok.inj hact]
      exact .inr ⟨⟨clock, busyRuns, busyThreads, rfl⟩, hs.cleanup⟩
    | advance identity change => exact .inl (hs.advanceRun hact)
    | others threads outbox resetting =>
      rw [← Except.ok.inj hact]
      exact .inl (hs.moves_of_same rfl rfl rfl rfl)

theorem Sound.steps (hs : Sound h s) (actions : List Action) : Sound h (s.steps h actions) := by
  induction actions generalizing s with
  | nil => exact hs
  | cons action actions ih =>
    rcases hs.step action with hmoves | ⟨-, hcleans⟩
    · exact ih hmoves.sound
    · exact ih hcleans.sound

theorem Sound.created_unique (hs : Sound h s) {c d : Creation} (hc : c ∈ s.created)
    (hd : d ∈ s.created) (hoccurrence : c.occurrence = d.occurrence)
    (hctask : c.taskId ∈ s.tasks.map Task.id) (hdtask : d.taskId ∈ s.tasks.map Task.id) :
    c = d := by
  obtain ⟨r, hr, hrid, hrof, hrocc⟩ := hs.stored c hc hctask
  obtain ⟨q, hq, hqid, hqof, hqocc⟩ := hs.stored d hd hdtask
  have hsame : r.occurrence = q.occurrence := by rw [hrocc, hoccurrence, hqocc]
  have hrow : r = q := List.inj_on_of_nodup_map hs.occurrences hr hq hsame
  have hid : c.runId = d.runId := by rw [← hrid, hrow, hqid]
  have hof : c.taskId = d.taskId := by rw [← hrof, hrow, hqof]
  calc c = ⟨c.runId, c.taskId, c.occurrence⟩ := rfl
    _ = ⟨d.runId, d.taskId, d.occurrence⟩ := by rw [hid, hof, hoccurrence]
    _ = d := rfl

/-- In every state that transactions lead to: a task has at most one active run; an
occurrence has at most one run that was ever created while its task is there; a run that is
stored again takes the place of no other; and whatever the next transaction is, a task or a run is gone after it only where it is a cleanup and the
task is a one-time task whose every run is over. -/
theorem occurrences_run_once (h : Host) (actions : List Action) :
    (∀ r ∈ (empty.steps h actions).runs, ∀ q ∈ (empty.steps h actions).runs,
      q.taskId = r.taskId → r.state.isActive = true → q.state.isActive = true → q = r) ∧
    (∀ c ∈ (empty.steps h actions).created, ∀ d ∈ (empty.steps h actions).created,
      c.occurrence = d.occurrence → c.taskId ∈ (empty.steps h actions).tasks.map Task.id →
      d.taskId ∈ (empty.steps h actions).tasks.map Task.id → c = d) ∧
    (∀ r ∈ (empty.steps h actions).runs, ∀ run : Run, run.id = r.id →
      run.occurrence = r.occurrence → ∀ q ∈ (empty.steps h actions).runs, q.id ≠ r.id →
        q ∈ ((empty.steps h actions).putRun run).runs) ∧
    ∀ action,
      (∀ t ∈ (empty.steps h actions).tasks,
        t.id ∈ (((empty.steps h actions).step h action)).tasks.map Task.id ∨
          (∃ clock busyRuns busyThreads, action = .cleanup clock busyRuns busyThreads) ∧
            (empty.steps h actions).Finished t) ∧
      ∀ r ∈ (empty.steps h actions).runs,
        r.id ∈ (((empty.steps h actions).step h action)).runs.map Run.id ∨
          (∃ clock busyRuns busyThreads, action = .cleanup clock busyRuns busyThreads) ∧
            ∃ t ∈ (empty.steps h actions).tasks, t.id = r.taskId ∧
              t ∉ ((empty.steps h actions).step h action).tasks ∧
              (empty.steps h actions).Finished t := by
  have hs : Sound h (empty.steps h actions) := sound_empty.steps actions
  refine ⟨?_, ?_, ?_, ?_⟩
  · intro r hr q hq hsame hra hqa
    exact List.inj_on_of_nodup_map hs.runIds hq hr (hs.live r hr q hq hsame hra hqa)
  · intro c hc d hd hoccurrence hctask hdtask
    exact hs.created_unique hc hd hoccurrence hctask hdtask
  · intro r hr run hid hoccurrence q hq hne
    exact (hs.mem_update hr hid hoccurrence).mpr (.inl ⟨hq, hne⟩)
  · intro action
    rcases hs.step action with hmoves | ⟨hcleanup, hcleans⟩
    · exact ⟨fun t ht => .inl (hmoves.tasks _ (List.mem_map_of_mem ht)),
        fun r hr => .inl (hmoves.runs _ (List.mem_map_of_mem hr))⟩
    · constructor
      · intro t ht
        exact (hcleans.keptTasks t ht).imp List.mem_map_of_mem fun hfinished => ⟨hcleanup, hfinished⟩
      · intro r hr
        refine (hcleans.keptRuns r hr).imp List.mem_map_of_mem ?_
        intro ⟨t, ht, hid, hgone⟩
        exact ⟨hcleanup, t, ht, hid, hgone, (hcleans.keptTasks t ht).resolve_left hgone⟩

/-- Times are written as single characters, and what is for once is due at the third. -/
def plainHost : Host where
  uuid n := List.replicate n 0x30 ++ [0x31]
  uuid_injective m n h := by simpa using congrArg List.length h
  instant stamp := stamp.head?.map Int.ofNat
  next _ _ starting := .ok (if starting then some [3] else none)
  encode _ := []

/-- A task for once is added, is run when it is due, and succeeds. -/
def errand : List Action :=
  [.addTask ⟨1, [1]⟩ ⟨text "Water", text "Water the plants", none, ⟨.once, []⟩, false⟩ none,
    .due ⟨3, [3]⟩ 3,
    .advance (plainHost.uuid 1) (fun run => { run with state := .succeeded, finishedAt := some [5] })]

def swept : Action := .cleanup (5 + retention) [] []

theorem occurrences_run_once_errand :
    (empty.steps plainHost errand).tasks.length = 1 ∧ (empty.steps plainHost errand).runs.length = 1 ∧
      ∀ r ∈ (empty.steps plainHost errand).runs, ∃ t ∈ (empty.steps plainHost errand).tasks,
        t.id = r.taskId ∧ t ∉ ((empty.steps plainHost errand).step plainHost swept).tasks ∧
          (empty.steps plainHost errand).Finished t := by
  refine ⟨by decide +kernel, by decide +kernel, fun r hr => ?_⟩
  have hgone : ((empty.steps plainHost errand).step plainHost swept).runs.map Run.id = [] := by decide +kernel
  have hover := ((occurrences_run_once plainHost errand).2.2.2 swept).2 r hr
  rw [hgone] at hover
  exact (hover.resolve_left List.not_mem_nil).2

end Store

end Raticode.Rem
