import Mathlib.Algebra.Order.BigOperators.Group.List
import Mathlib.Algebra.Order.Ring.Nat
import Raticode.OrganizationLinks

/-! One run for each worker, task and folder. The runs of all organizations share `_active` and the
folders, so that they are looked at together here. A claim keeps the scheduler from its employee; the
thread of a run that has lost its claim does not. -/
namespace Raticode.Organizations
open PyDocument OrderedDict MarkedList Attempt

/-! ### The manager -/

def Worker.folder (w : Worker) : Option Str :=
  if w.isolated && !w.workflow then none else some w.workingRoot

/-- `OrganizationManager`, with its organizations. -/
structure Manager where
  companies : Dict Str Company := []

inductive ManagerEvent where
  | found (id : Str) (config : OrganizationConfig) (package : List PackageTask)
  | happens (id : Str) (event : Event)
  | restart

namespace Manager

def elsewhere (s : Manager) (id : Str) : Elsewhere where
  count := ((s.companies.erase id).map (fun p => p.2.active.length)).sum
  rootKeys := (s.companies.erase id).flatMap (fun p => p.2.active.map (fun q => q.2.rootKey))

def placed (s : Manager) (id : Str) : Event → Event
  | .dispatch _ run fresh => .dispatch (s.elsewhere id) run fresh
  | event => event

def act (s : Manager) (step : Moment × ManagerEvent) : Manager :=
  let m := step.1
  match step.2 with
  | .found id config package =>
    match s.companies.get id, Organizations.found m config package with
    | none, .ok c => { s with companies := s.companies.set id c }
    | _, _ => s
  -- The process is one for all organizations.
  | .happens _ .restart => s
  | .happens id event => match s.companies.get id with
    | none => s
    | some c => { s with companies := s.companies.set id (c.act (m, s.placed id event)) }
  | .restart => { s with companies := s.companies.map (fun p => (p.1, p.2.restart m)) }

def run (s : Manager) (steps : List (Moment × ManagerEvent)) : Manager := steps.foldl act s

/-- A live thread of `_active`. -/
def Works (s : Manager) (id run : Str) (w : Worker) : Prop :=
  ∃ c, s.companies.get id = some c ∧ c.active.get run = some w ∧ w.alive = true

def Pairs (R : Str → Worker → Str → Worker → Prop) (s : Manager) : Prop :=
  ∀ id run w id' run' w', s.Works id run w → s.Works id' run' w' → (id ≠ id' ∨ run ≠ run') →
    R id w id' w'

end Manager

def Apart (id : Str) (w : Worker) (id' : Str) (w' : Worker) : Prop :=
  (id = id' → w.employeeId ≠ w'.employeeId ∧ w.taskId ≠ w'.taskId) ∧
    ∀ f, w.folder = some f → w'.folder ≠ some f

/-- Two threads have different entries in `_active_roots`. -/
def RootsApart (_ : Str) (w : Worker) (_ : Str) (w' : Worker) : Prop := w.rootKey ≠ w'.rootKey

/-- The live threads are 8 at most, and each was started while fewer than its `maxConcurrency` of its
organization were there; their entries in `_active_roots` differ. -/
structure Bounded (s : Manager) : Prop where
  total : (s.companies.map (fun p => (p.2.active.filter (·.2.alive)).length)).sum ≤ 8
  rooms : ∀ id c, s.companies.get id = some c →
    ∀ (k : ℕ) p, (c.active.filter (·.2.alive))[k]? = some p → k < p.2.maxConcurrency
  roots : s.Pairs RootsApart

/-- A run that the scheduler starts meets no live thread that its checks overlook: the thread of a run
which no task claims any more, for the same employee or on the same task, and where one of them is a
workflow that counts as isolated, a thread in the same folder. -/
def Manager.Overseen (s : Manager) (step : Moment × ManagerEvent) : Prop :=
  match step.2 with
  | .happens id (.dispatch _ run fresh) =>
    ∀ c a i t reserved rootKey, s.companies.get id = some c →
      Starts step.1 (s.elsewhere id) run fresh c a i t reserved rootKey →
        (∀ run' w, c.active.get run' = some w → w.alive = true →
          w.employeeId = (a.chosen step.1 reserved rootKey t).employeeId ∨
            w.taskId = (a.chosen step.1 reserved rootKey t).taskId →
          ∃ u ∈ c.tasks, u.claim = some run') ∧
        ∀ id' run' w f, s.Works id' run' w → w.folder = some f →
          (a.chosen step.1 reserved rootKey t).folder = some f →
            w.isolated = false ∧ (a.chosen step.1 reserved rootKey t).isolated = false
  | _ => True

def Manager.AllOverseen (s : Manager) : List (Moment × ManagerEvent) → Prop
  | [] => True
  | step :: steps => s.Overseen step ∧ (s.act step).AllOverseen steps

/-! ### One organization -/

/-- Each run in the list was added while fewer than its `maxConcurrency` were there. -/
def Room (ws : List Worker) : Prop := ∀ (k : ℕ) w, ws[k]? = some w → k < w.maxConcurrency

/-- The entry of a run in `_active_roots` is its folder, where that is not isolated. -/
def Keyed (c : Company) : Prop :=
  ∀ run w, c.active.get run = some w → w.isolated = false → w.rootKey = w.workingRoot

/-- The runs of an organization are linked to its tasks, they were started while there was room, and
their folders are in use. -/
structure Staffed (c : Company) : Prop where
  graph : GraphKept c
  linked : Linked c
  room : Room (c.active.map (·.2.post))
  keyed : Keyed c

section Staff

variable {m : Moment} {c c' a : Company} {elsewhere : Elsewhere} {run : Str} {fresh : ℕ → Str} {i : ℕ}
  {t : Task} {reserved : ℤ} {rootKey : Str}

theorem Room.sublist {xs ys : List Worker} (hr : Room xs) (h : List.Sublist ys xs) : Room ys := by
  have hshifted : ∀ n, (∀ (k : ℕ) w, xs[k]? = some w → k + n < w.maxConcurrency) →
      ∀ (k : ℕ) w, ys[k]? = some w → k + n < w.maxConcurrency := by
    clear hr
    induction h with
    | slnil => exact fun _ h => h
    | @cons ys xs x _ ih =>
      intro n hr
      apply ih
      intro k w hw
      have hlater := hr (k + 1) w (by rw [List.getElem?_cons_succ]; exact hw)
      omega
    | @cons_cons ys xs x _ ih =>
      intro n hr k w hw
      cases k with
      | zero => exact hr 0 w hw
      | succ k =>
        rw [List.getElem?_cons_succ] at hw
        have hlater := ih (n + 1) (fun j v hv => ?_) k w hw
        · omega
        · have hnext := hr (j + 1) v (by rw [List.getElem?_cons_succ]; exact hv)
          omega
  exact hshifted 0 hr

theorem Starts.active (h : Starts m elsewhere run fresh c a i t reserved rootKey) :
    (a.startRun m i run reserved rootKey t).active = a.active ++ [(run, a.chosen m reserved rootKey t)] := by
  apply Dict.set_of_none
  cases hw : a.active.get run with
  | none => rfl
  | some w =>
    have hthere : (c.active.get run).isSome := by
      rw [Dict.get_isSome_iff]
      apply (h.books.active.map Prod.fst).subset
      exact Dict.get_isSome_iff.mp (by rw [hw]; rfl)
    rw [h.inactive] at hthere
    contradiction

theorem Keyed.thins (hk : Keyed c) (hn : c.active.keys.Nodup) (h : Thins c c') : Keyed c' := by
  intro run w hw hisolated
  obtain ⟨w₀, hw₀, hpost, -⟩ := h.get hn hw
  have hkey : w₀.post.rootKey = w.post.rootKey := congrArg Worker.rootKey hpost
  have hroot : w₀.post.workingRoot = w.post.workingRoot := congrArg Worker.workingRoot hpost
  have hsame : w₀.post.isolated = w.post.isolated := congrArg Worker.isolated hpost
  calc w.rootKey = w₀.rootKey := hkey.symm
    _ = w₀.workingRoot := hk run w₀ hw₀ (hsame.trans hisolated)
    _ = w.workingRoot := hroot

theorem chosen_keyed (hv : a.verdict m elsewhere t = .start reserved rootKey)
    (hisolated : (a.chosen m reserved rootKey t).isolated = false) :
    (a.chosen m reserved rootKey t).rootKey = (a.chosen m reserved rootKey t).workingRoot := by
  obtain ⟨e, he⟩ := startable_of_verdict hv
  have hroot : a.isolated m (workspace a.config t) = false := hisolated
  have hkey := he.key
  rw [Company.rootKey, if_neg (by simp [hroot])] at hkey
  exact hkey

theorem Starts.room_chosen (hs : Starts m elsewhere run fresh c a i t reserved rootKey)
    (h : Room (c.active.map (·.2.post))) :
    Room ((a.startRun m i run reserved rootKey t).active.map (·.2.post)) := by
  have hroom : Room (a.active.map (·.2.post)) := h.sublist (hs.books.active.map _)
  have hfree := hs.room
  rw [hs.active, List.map_append, List.map_singleton]
  intro k w hw
  by_cases hk : k < (a.active.map (·.2.post)).length
  · rw [List.getElem?_append_left hk] at hw
    exact hroom k w hw
  · -- The new run is the last one.
    rw [List.getElem?_append_right (by omega)] at hw
    have hlast := (List.getElem?_eq_some_iff.mp hw).1
    have hmem := List.mem_of_getElem? hw
    rw [List.mem_singleton] at hmem
    rw [List.length_singleton, List.length_map] at hlast
    rw [List.length_map] at hk
    subst hmem
    change k < a.config.caps.maxConcurrency
    omega

theorem act_staffed (c : Company) (step : Moment × Event) (h : Staffed c) : Staffed (c.act step) := by
  refine ⟨act_graph c step h.graph, act_linked c step h.linked, ?_, ?_⟩
  · rcases act_cases c step with ⟨hb, -⟩ | ⟨elsewhere, run, fresh, a, i, t, reserved, rootKey, -, hs, heq⟩
    · have hposts := hb.thins.posts.map Prod.snd
      rw [List.map_map, List.map_map] at hposts
      exact h.room.sublist hposts
    · rw [heq]
      exact hs.room_chosen h.room
  · rcases act_cases c step with ⟨hb, -⟩ | ⟨elsewhere, run', fresh, a, i, t, reserved, rootKey, -, hs, heq⟩
    · exact h.keyed.thins h.linked.keys hb.thins
    · have hbefore : Keyed a := h.keyed.thins h.linked.keys (.sublist hs.books.active)
      intro run w hw hisolated
      rw [heq, Company.startRun, Dict.get_set] at hw
      by_cases hrun : run' = run
      · rw [if_pos hrun] at hw
        cases hw
        exact chosen_keyed hs.verdict hisolated
      · rw [if_neg hrun] at hw
        exact hbefore run w hw hisolated

theorem found_staffed {config : OrganizationConfig} {package : List PackageTask}
    (hfound : found m config package = .ok c) : Staffed c := by
  obtain ⟨-, hc, -⟩ := found_cases hfound
  have hactive : c.active = [] := by rw [hc]
  refine ⟨found_graph hfound, found_linked hfound, ?_, ?_⟩
  · rw [hactive]
    intro k w hw
    simp at hw
  · intro run w hw
    rw [hactive] at hw
    contradiction

theorem Moves.held {drafts : List Task} {n : ℕ} {u : Task} (h : Moves m drafts fresh c n a) (hu : u ∈ c.tasks)
    (hclaim : u.claim = some run) (hw : c.works run = true) :
    a.works run = true ∧ ∃ u ∈ a.tasks, u.claim = some run := by
  refine h.invariant (I := fun d => d.works run = true ∧ ∃ u ∈ d.tasks, u.claim = some run)
    ⟨hw, u, hu, hclaim⟩ ?_ ?_
  · rintro d d' hk ⟨hw, u, hu, hclaim⟩
    obtain ⟨j, hj⟩ := List.mem_iff_getElem?.mp hu
    obtain ⟨u', hu', hheld⟩ := hk.tasks.kept j u hj
    exact ⟨hk.books.works run hw, u', List.mem_of_getElem? hu', hheld.held run hclaim hw⟩
  · rintro d d' ha ⟨hw, u, hu, hclaim⟩
    obtain ⟨t, -, -, htasks⟩ := ha.added
    refine ⟨ha.books.works run hw, u, ?_, hclaim⟩
    rw [htasks]
    exact List.mem_append_left _ hu

theorem Starts.apart (hs : Starts m elsewhere run fresh c a i t reserved rootKey) (hlinked : Linked c)
    (hids : (a.tasks.map (·.id)).Nodup) {run' : Str} {w : Worker} (hw : a.active.get run' = some w)
    (hworks : c.works run' = true) {u : Task} (hu : u ∈ c.tasks) (hclaim : u.claim = some run') :
    (a.chosen m reserved rootKey t).employeeId ≠ w.employeeId ∧
      (a.chosen m reserved rootKey t).taskId ≠ w.taskId := by
  obtain ⟨n, -, hmoves⟩ := hs.moves
  obtain ⟨-, v, hv, hheld⟩ := hmoves.held hu hclaim hworks
  have ha := hs.linked hlinked
  obtain ⟨e, he⟩ := startable_of_verdict hs.verdict
  have hassignee : t.assignee = some e.id := by simpa using List.find?_some he.employee
  have hclaimed : v.isClaimed = true := by
    rw [Task.isClaimed, hheld]
    rfl
  constructor
  · intro hsame
    have hemployee : t.assignee.getD [] = w.employeeId := hsame
    have hboth : v.assignee = t.assignee := by
      rw [ha.assignees v hv run' w hheld hw, hassignee, ← hemployee, hassignee]
      rfl
    have hnone := List.any_eq_false.mp he.worker v hv
    simp [hclaimed, hboth] at hnone
  · intro hsame
    have htask : t.id = w.taskId := hsame
    have hattempt : some v.id = some w.taskId :=
      (ha.claims v hv run' hheld).symm.trans (ha.workers run' w hw)
    have hid : v.id = t.id := (Option.some.inj hattempt).trans htask.symm
    have hvt : v = t := List.inj_on_of_nodup_map hids hv (List.mem_of_getElem? hs.task) hid
    have hfree := he.unclaimed
    rw [← hvt, hclaimed] at hfree
    contradiction

end Staff

/-! ### All organizations -/

structure OfPosts (R : Str → Worker → Str → Worker → Prop) : Prop where
  congr : ∀ id id' w w' v v', w.post = v.post → w'.post = v'.post → R id w id' w' → R id v id' v'
  symm : ∀ id id' w w', R id w id' w' → R id' w' id w

/-- Every organization is staffed, and all runs of `_active` are 8 at most. -/
structure Managed (s : Manager) : Prop where
  keys : s.companies.keys.Nodup
  staffed : ∀ id c, s.companies.get id = some c → Staffed c
  total : (s.companies.map (fun p => p.2.active.length)).sum ≤ 8

section Managers

variable {s s' : Manager} {m : Moment} {c c' a : Company} {id run : Str} {fresh : ℕ → Str} {i : ℕ}
  {t : Task} {reserved : ℤ} {rootKey : Str} {R : Str → Worker → Str → Worker → Prop}

theorem ofPosts_roots : OfPosts RootsApart := by
  constructor
  · intro id id' w w' v v' hw hw' h hkeys
    have hkey : w.post.rootKey = v.post.rootKey := congrArg Worker.rootKey hw
    have hkey' : w'.post.rootKey = v'.post.rootKey := congrArg Worker.rootKey hw'
    exact h (hkey.trans (hkeys.trans hkey'.symm))
  · exact fun _ _ _ _ h => Ne.symm h

theorem folder_post {w v : Worker} (h : w.post = v.post) : w.folder = v.folder := by
  have hfolder : w.post.folder = v.post.folder := congrArg Worker.folder h
  exact hfolder

theorem ofPosts_apart : OfPosts Apart := by
  constructor
  · rintro id id' w w' v v' hw hw' ⟨hsame, hfolders⟩
    have hemployee : w.post.employeeId = v.post.employeeId := congrArg Worker.employeeId hw
    have hemployee' : w'.post.employeeId = v'.post.employeeId := congrArg Worker.employeeId hw'
    have htask : w.post.taskId = v.post.taskId := congrArg Worker.taskId hw
    have htask' : w'.post.taskId = v'.post.taskId := congrArg Worker.taskId hw'
    constructor
    · intro hid
      obtain ⟨he, ht⟩ := hsame hid
      exact ⟨fun heq => he (hemployee.trans (heq.trans hemployee'.symm)),
        fun heq => ht (htask.trans (heq.trans htask'.symm))⟩
    · intro f hf
      rw [← folder_post hw']
      exact hfolders f ((folder_post hw).trans hf)
  · rintro id id' w w' ⟨hsame, hfolders⟩
    constructor
    · intro hid
      obtain ⟨he, ht⟩ := hsame hid.symm
      exact ⟨Ne.symm he, Ne.symm ht⟩
    · exact fun f hf hf' => hfolders f hf' hf

theorem works_set {id' run' : Str} {w : Worker} :
    ({ s with companies := s.companies.set id c' } : Manager).Works id' run' w ↔
      (id = id' ∧ c'.active.get run' = some w ∧ w.alive = true) ∨ (id ≠ id' ∧ s.Works id' run' w) := by
  simp only [Manager.Works, Dict.get_set]
  by_cases hid : id = id'
  · simp [hid]
  · simp [hid]

theorem pairs_of_fewer (hR : OfPosts R) (h : s.Pairs R)
    (hfewer : ∀ id run w', s'.Works id run w' → ∃ w, s.Works id run w ∧ w.post = w'.post) : s'.Pairs R := by
  intro id run w id' run' w' hw hw' hne
  obtain ⟨v, hv, hpost⟩ := hfewer id run w hw
  obtain ⟨v', hv', hpost'⟩ := hfewer id' run' w' hw'
  exact hR.congr id id' v v' w w' hpost hpost' (h id run v id' run' v' hv hv' hne)

theorem fewer_of_thins (hn : c.active.keys.Nodup) (hc : s.companies.get id = some c) (h : Thins c c')
    {id' run' : Str} {w' : Worker}
    (hw' : ({ s with companies := s.companies.set id c' } : Manager).Works id' run' w') :
    ∃ w, s.Works id' run' w ∧ w.post = w'.post := by
  rcases works_set.mp hw' with ⟨rfl, hget, halive⟩ | ⟨-, hw⟩
  · obtain ⟨w, hw, hpost, hlive, -⟩ := h.get hn hget
    exact ⟨w, ⟨c, hc, hw, hlive halive⟩, hpost⟩
  · exact ⟨w', hw, rfl⟩

theorem pairs_of_start (hR : OfPosts R) (h : s.Pairs R) (hn : c.active.keys.Nodup)
    (hc : s.companies.get id = some c) (hs : Starts m (s.elsewhere id) run fresh c a i t reserved rootKey)
    (hnew : ∀ id' run' w, s.Works id' run' w → (id = id' → a.active.get run' = some w) →
      R id (a.chosen m reserved rootKey t) id' w) :
    ({ s with companies := s.companies.set id (a.startRun m i run reserved rootKey t) } : Manager).Pairs R := by
  set s' : Manager := { s with companies := s.companies.set id (a.startRun m i run reserved rootKey t) }
    with hs'
  have hcases : ∀ id' run' w, s'.Works id' run' w →
      (id = id' ∧ run = run' ∧ w = a.chosen m reserved rootKey t) ∨
        (s.Works id' run' w ∧ (id = id' → a.active.get run' = some w)) := by
    intro id' run' w hw
    rcases works_set.mp hw with ⟨rfl, hget, halive⟩ | ⟨hne, hw⟩
    · rw [Company.startRun, Dict.get_set] at hget
      by_cases hrun : run = run'
      · rw [if_pos hrun] at hget
        exact .inl ⟨rfl, hrun, (Option.some.inj hget).symm⟩
      · rw [if_neg hrun] at hget
        have hthere : c.active.get run' = some w :=
          Dict.get_of_mem hn (hs.books.active.subset (Dict.mem_of_get hget))
        exact .inr ⟨⟨c, hc, hthere, halive⟩, fun _ => hget⟩
    · exact .inr ⟨hw, fun heq => absurd heq hne⟩
  intro id₁ run₁ w₁ id₂ run₂ w₂ hw₁ hw₂ hne
  rcases hcases id₁ run₁ w₁ hw₁ with ⟨rfl, rfl, rfl⟩ | ⟨hold₁, hthere₁⟩
  · rcases hcases id₂ run₂ w₂ hw₂ with ⟨rfl, rfl, rfl⟩ | ⟨hold₂, hthere₂⟩
    · simp at hne
    · exact hnew id₂ run₂ w₂ hold₂ hthere₂
  · rcases hcases id₂ run₂ w₂ hw₂ with ⟨rfl, rfl, rfl⟩ | ⟨hold₂, hthere₂⟩
    · exact hR.symm _ _ _ _ (hnew id₁ run₁ w₁ hold₁ hthere₁)
    · exact h id₁ run₁ w₁ id₂ run₂ w₂ hold₁ hold₂ hne

theorem act_pairs (hR : OfPosts R) (hm : Managed s) (h : s.Pairs R) (step : Moment × ManagerEvent)
    (hnew : ∀ id elsewhere run fresh c a i t reserved rootKey,
      step.2 = .happens id (.dispatch elsewhere run fresh) → s.companies.get id = some c →
        Starts step.1 (s.elsewhere id) run fresh c a i t reserved rootKey →
          ∀ id' run' w, s.Works id' run' w → (id = id' → a.active.get run' = some w) →
            R id (a.chosen step.1 reserved rootKey t) id' w) : (s.act step).Pairs R := by
  obtain ⟨m, event⟩ := step
  cases event with
  | found id config package =>
    simp only [Manager.act]
    split
    · rename_i c hnone hfound
      refine pairs_of_fewer hR h fun id' run' w' hw' => ?_
      rcases works_set.mp hw' with ⟨rfl, hget, -⟩ | ⟨-, hw⟩
      · obtain ⟨-, hc, -⟩ := found_cases hfound
        have hactive : c.active = [] := by rw [hc]
        rw [hactive] at hget
        contradiction
      · exact ⟨w', hw, rfl⟩
    · exact h
  | happens id event =>
    have hone : ∀ c, s.companies.get id = some c →
        ({ s with companies := s.companies.set id (c.act (m, s.placed id event)) } : Manager).Pairs R := by
      intro c hc
      have hn := (hm.staffed id c hc).linked.keys
      rcases act_cases c (m, s.placed id event) with
        ⟨hb, -⟩ | ⟨elsewhere, run, fresh, a, i, t, reserved, rootKey, hplaced, hs, heq⟩
      · exact pairs_of_fewer hR h fun _ _ _ hw' => fewer_of_thins hn hc hb.thins hw'
      · rw [heq]
        cases event with
        | dispatch elsewhere₀ run₀ fresh₀ =>
          obtain ⟨rfl, rfl, rfl⟩ : s.elsewhere id = elsewhere ∧ run₀ = run ∧ fresh₀ = fresh := by
            simpa [Manager.placed] using hplaced
          exact pairs_of_start hR h hn hc hs
            (hnew id elsewhere₀ run₀ fresh₀ c a i t reserved rootKey rfl hc hs)
        | _ => simp [Manager.placed] at hplaced
    cases event with
    | restart => exact h
    | _ =>
      simp only [Manager.act]
      split
      · exact h
      · rename_i c hc
        exact hone c hc
  | restart =>
    refine pairs_of_fewer hR h fun id' run' w' hw' => ?_
    obtain ⟨c', hc', hget, -⟩ := hw'
    simp only [Manager.act, Dict.get_map] at hc'
    obtain ⟨c, -, rfl⟩ := Option.map_eq_some_iff.mp hc'
    contradiction

theorem total_eq (hn : s.companies.keys.Nodup) (hc : s.companies.get id = some c) :
    (s.companies.map (fun p => p.2.active.length)).sum = (s.elsewhere id).count + c.active.length := by
  have hsame : s.companies.set id c = s.companies := Dict.set_of_get hc
  have hsum := Dict.sum_set hn (fun p => p.2.active.length) id c
  rw [hsame] at hsum
  exact hsum

theorem Managed.set (h : Managed s) (hc' : Staffed c')
    (hle : (s.elsewhere id).count + c'.active.length ≤ 8) :
    Managed { s with companies := s.companies.set id c' } := by
  refine ⟨Dict.nodup_keys_set h.keys id c', ?_, ?_⟩
  · intro id' d hd
    rw [Dict.get_set] at hd
    by_cases hid : id = id'
    · rw [if_pos hid] at hd
      exact Option.some.inj hd ▸ hc'
    · rw [if_neg hid] at hd
      exact h.staffed id' d hd
  · have hsum := Dict.sum_set h.keys (fun p => p.2.active.length) id c'
    exact hsum.trans_le hle

theorem act_managed (h : Managed s) (step : Moment × ManagerEvent) : Managed (s.act step) := by
  obtain ⟨m, event⟩ := step
  cases event with
  | found id config package =>
    simp only [Manager.act]
    split
    · rename_i c hnone hfound
      refine h.set (found_staffed hfound) ?_
      obtain ⟨-, hc, -⟩ := found_cases hfound
      have hactive : c.active.length = 0 := by
        rw [hc]
        rfl
      have habsent : s.companies.erase id = s.companies := by
        rw [Dict.erase, List.filter_eq_self]
        intro p hp
        have hkey : p.1 ≠ id := by
          rintro rfl
          have hsome := Dict.get_of_mem h.keys hp
          rw [hnone] at hsome
          contradiction
        simpa using hkey
      have htotal := h.total
      have hcount : (s.elsewhere id).count = (s.companies.map (fun p => p.2.active.length)).sum := by
        rw [Manager.elsewhere, habsent]
      omega
    · exact h
  | happens id event =>
    have hone : ∀ c, s.companies.get id = some c →
        Managed { s with companies := s.companies.set id (c.act (m, s.placed id event)) } := by
      intro c hc
      refine h.set (act_staffed c _ (h.staffed id c hc)) ?_
      have htotal := total_eq h.keys hc
      have hbound := h.total
      rcases act_cases c (m, s.placed id event) with
        ⟨hb, -⟩ | ⟨elsewhere, run, fresh, a, i, t, reserved, rootKey, hplaced, hs, heq⟩
      · have hfewer := hb.thins.length
        omega
      · have hsame : elsewhere = s.elsewhere id := by
          cases event with
          | dispatch elsewhere₀ run₀ fresh₀ =>
            simp only [Manager.placed, Event.dispatch.injEq] at hplaced
            exact hplaced.1.symm
          | _ => simp [Manager.placed] at hplaced
        have hfewer := hs.books.active.length_le
        have hcapacity := hs.capacity
        rw [heq, hs.active, List.length_append, List.length_singleton]
        rw [hsame] at hcapacity
        omega
    cases event with
    | restart => exact h
    | _ =>
      simp only [Manager.act]
      split
      · exact h
      · rename_i c hc
        exact hone c hc
  | restart =>
    have hkeys : Dict.keys (s.companies.map (fun p => (p.1, p.2.restart m))) = s.companies.keys := by
      rw [Dict.keys, List.map_map]
      rfl
    refine ⟨hkeys ▸ h.keys, ?_, ?_⟩
    · intro id c' hc'
      simp only [Manager.act, Dict.get_map] at hc'
      obtain ⟨c, hc, rfl⟩ := Option.map_eq_some_iff.mp hc'
      exact act_staffed c (m, .restart) (h.staffed id c hc)
    · have hnone : ((s.companies.map (fun p => (p.1, p.2.restart m))).map
          (fun p => p.2.active.length)).sum = 0 := by
        rw [List.map_map]
        apply List.sum_eq_zero
        intro n hn
        obtain ⟨p, -, rfl⟩ := List.mem_map.mp hn
        rfl
      exact hnone.trans_le (Nat.zero_le 8)

theorem Starts.free (hs : Starts m (s.elsewhere id) run fresh c a i t reserved rootKey) {id' run' : Str}
    {w : Worker} (hw : s.Works id' run' w) (hthere : id = id' → a.active.get run' = some w) :
    rootKey ≠ w.rootKey := by
  obtain ⟨e, he⟩ := startable_of_verdict hs.verdict
  have hfree := he.folder
  have hused : w.rootKey ∈ a.rootKeys (s.elsewhere id) := by
    obtain ⟨d, hd, hget, -⟩ := hw
    rw [Company.rootKeys, List.mem_append]
    by_cases hid : id = id'
    · exact .inl (List.mem_map.mpr ⟨(run', w), Dict.mem_of_get (hthere hid), rfl⟩)
    · right
      refine List.mem_flatMap.mpr ⟨(id', d), ?_, List.mem_map.mpr ⟨(run', w), Dict.mem_of_get hget, rfl⟩⟩
      exact List.mem_filter.mpr ⟨Dict.mem_of_get hd, by simpa using Ne.symm hid⟩
  rintro rfl
  rw [List.contains_eq_mem, decide_eq_false_iff_not] at hfree
  exact hfree hused

theorem act_roots (hm : Managed s) (h : s.Pairs RootsApart) (step : Moment × ManagerEvent) :
    (s.act step).Pairs RootsApart := by
  refine act_pairs ofPosts_roots hm h step ?_
  intro id elsewhere run fresh c a i t reserved rootKey _ _ hs id' run' w hw hthere
  exact hs.free hw hthere

theorem act_apart (hm : Managed s) (h : s.Pairs Apart) (step : Moment × ManagerEvent)
    (hover : s.Overseen step) : (s.act step).Pairs Apart := by
  refine act_pairs ofPosts_apart hm h step ?_
  intro id elsewhere run fresh c a i t reserved rootKey hstep hc hs id' run' w hw hthere
  have hseen : (∀ run' w, c.active.get run' = some w → w.alive = true →
      w.employeeId = (a.chosen step.1 reserved rootKey t).employeeId ∨
        w.taskId = (a.chosen step.1 reserved rootKey t).taskId → ∃ u ∈ c.tasks, u.claim = some run') ∧
      ∀ id' run' w f, s.Works id' run' w → w.folder = some f →
        (a.chosen step.1 reserved rootKey t).folder = some f →
          w.isolated = false ∧ (a.chosen step.1 reserved rootKey t).isolated = false := by
    simp only [Manager.Overseen, hstep] at hover
    exact hover c a i t reserved rootKey hc hs
  obtain ⟨d, hd, hget, halive⟩ := hw
  constructor
  · intro hid
    subst hid
    obtain rfl : c = d := Option.some.inj (hc.symm.trans hd)
    have hids : (a.tasks.map (·.id)).Nodup := hs.ids (hm.staffed id c hc).graph.ids
    have hworks : c.works run' = true := by rw [Company.works, hget]; exact halive
    by_contra hmeets
    have hsame : w.employeeId = (a.chosen step.1 reserved rootKey t).employeeId ∨
        w.taskId = (a.chosen step.1 reserved rootKey t).taskId := by
      by_contra hneither
      push Not at hneither
      exact hmeets ⟨Ne.symm hneither.1, Ne.symm hneither.2⟩
    obtain ⟨u, hu, hclaim⟩ := hseen.1 run' w hget halive hsame
    exact hmeets (hs.apart (hm.staffed id c hc).linked hids (hthere rfl) hworks hu hclaim)
  · intro f hf hf'
    have hworks : s.Works id' run' w := ⟨d, hd, hget, halive⟩
    obtain ⟨hold, hchosen⟩ := hseen.2 id' run' w f hworks hf' hf
    -- Neither is isolated, so that both folders are entries of `_active_roots`.
    have hroot : w.workingRoot = f := by simpa [Worker.folder, hold] using hf'
    have hroot' : (a.chosen step.1 reserved rootKey t).workingRoot = f := by
      simpa [Worker.folder, hchosen] using hf
    have hkey : w.rootKey = f := ((hm.staffed id' d hd).keyed run' w hget hold).trans hroot
    have hkey' : rootKey = f := (chosen_keyed hs.verdict hchosen).trans hroot'
    exact hs.free hworks hthere (hkey'.trans hkey.symm)

theorem managed_empty : Managed {} := by
  refine ⟨List.nodup_nil, fun _ _ h => ?_, Nat.zero_le 8⟩
  contradiction

theorem pairs_empty (R : Str → Worker → Str → Worker → Prop) : ({} : Manager).Pairs R := by
  rintro _ _ _ _ _ _ ⟨_, hc, -⟩
  contradiction

theorem Managed.bounded (h : Managed s) (hroots : s.Pairs RootsApart) : Bounded s := by
  refine ⟨?_, ?_, hroots⟩
  · have hle : (s.companies.map (fun p => (p.2.active.filter (·.2.alive)).length)).sum ≤
        (s.companies.map (fun p => p.2.active.length)).sum := by
      apply List.sum_le_sum
      exact fun p _ => List.length_filter_le _ _
    exact hle.trans h.total
  · intro id c hc k p hp
    have hroom : Room ((c.active.filter (·.2.alive)).map (·.2.post)) :=
      (h.staffed id c hc).room.sublist (List.filter_sublist.map _)
    exact hroom k p.2.post (by rw [List.getElem?_map, hp]; rfl)

/-- At every moment the live threads are 8 at most, as many of each organization as its
`maxConcurrency` allowed when each was started, and they have different entries in `_active_roots`.
No two work for one employee, on one task or in one folder, as long as no run is started beside a
thread that the checks overlook. -/
theorem one_run_each (steps : List (Moment × ManagerEvent)) :
    Bounded (Manager.run {} steps) ∧
      (Manager.AllOverseen {} steps → (Manager.run {} steps).Pairs Apart) := by
  have hall : ∀ s : Manager, Managed s → s.Pairs RootsApart → Bounded (s.run steps) ∧
      (s.Pairs Apart → s.AllOverseen steps → (s.run steps).Pairs Apart) := by
    induction steps with
    | nil => exact fun s hm hroots => ⟨hm.bounded hroots, fun h _ => h⟩
    | cons step steps ih =>
      intro s hm hroots
      obtain ⟨hbounded, happart⟩ := ih (s.act step) (act_managed hm step) (act_roots hm hroots step)
      exact ⟨hbounded, fun h hover => happart (act_apart hm h step hover.1) hover.2⟩
  obtain ⟨hbounded, happart⟩ := hall {} managed_empty (pairs_empty RootsApart)
  exact ⟨hbounded, happart (pairs_empty Apart)⟩

/-- Every run of `_active` has its task, and works in its folder. -/
def Manager.settled (s : Manager) : Bool :=
  s.companies.all (fun p => p.2.active.all (fun q =>
    !q.2.isolated && p.2.tasks.any (fun u => u.claim = some q.1)))

theorem overseen_of_settled (h : s.settled = true) (hgit : ∀ root, m.isGit root = false)
    (elsewhere : Elsewhere) : s.Overseen (m, .happens id (.dispatch elsewhere run fresh)) := by
  have hall : ∀ id' d run' w, s.companies.get id' = some d → d.active.get run' = some w →
      w.isolated = false ∧ ∃ u ∈ d.tasks, u.claim = some run' := by
    intro id' d run' w hd hw
    have hone := List.all_eq_true.mp h (id', d) (Dict.mem_of_get hd)
    have hboth := List.all_eq_true.mp hone (run', w) (Dict.mem_of_get hw)
    simpa using hboth
  intro c a i t reserved rootKey hc _
  constructor
  · intro run' w hw _ _
    exact (hall id c run' w hc hw).2
  · rintro id' run' w f ⟨d, hd, hw, -⟩ _ _
    refine ⟨(hall id' d run' w hd hw).1, ?_⟩
    simp [Company.chosen, Company.isolated, hgit]

end Managers

/-! Ann and Bob have tasks in two folders. -/

def yardConfig : OrganizationConfig where
  employees := [{ id := text "ann", name := text "Ann" }, { id := text "bob", name := text "Bob" }]
  projectRoots := [text "/srv/archive", text "/srv/yard"]
  caps := { maxConcurrency := 2 }

def acme (event : Event) : ManagerEvent := .happens (text "acme") event

def starts (run : Str) : ManagerEvent := acme (.dispatch {} run (fun k => text "check-in" ++ [k]))

def yardSteps (employee : Str) : List (Moment × ManagerEvent) :=
  [(plainMoment 0, .found (text "acme") yardConfig []),
    (plainMoment 1, acme (.create { actor := .user } (text "one")
      { id := [], title := text "Move the archive", assignee := some (text "ann") })),
    (plainMoment 2, acme (.create { actor := .user } (text "two")
      { id := [], title := text "Sweep the yard", assignee := some employee,
        workspacePath := some (text "/srv/yard") })),
    (plainMoment 3, acme (.control true)), (plainMoment 4, starts (text "first"))]

def bothSteps : List (Moment × ManagerEvent) :=
  yardSteps (text "bob") ++ [(plainMoment 5, starts (text "second"))]

def Manager.thread (s : Manager) (run : Str) : Option Worker :=
  (s.companies.get (text "acme")).bind (fun c => (c.active.get run).filter (·.alive))

theorem works_of_thread {s : Manager} {run : Str} {w : Worker} (h : s.thread run = some w) :
    s.Works (text "acme") run w := by
  obtain ⟨c, hc, hw⟩ := Option.bind_eq_some_iff.mp h
  obtain ⟨hget, halive⟩ := Option.filter_eq_some_iff.mp hw
  exact ⟨c, hc, hget, halive⟩

theorem one_run_each_both :
    ∃ w w', (Manager.run {} bothSteps).thread (text "first") = some w ∧
      (Manager.run {} bothSteps).thread (text "second") = some w' ∧ Apart (text "acme") w (text "acme") w' := by
  have hfirst : ((Manager.run {} bothSteps).thread (text "first")).isSome := by decide +kernel
  have hsecond : ((Manager.run {} bothSteps).thread (text "second")).isSome := by decide +kernel
  obtain ⟨w, hw⟩ := Option.isSome_iff_exists.mp hfirst
  obtain ⟨w', hw'⟩ := Option.isSome_iff_exists.mp hsecond
  have hover : Manager.AllOverseen {} bothSteps := by
    refine ⟨trivial, trivial, trivial, trivial, ?_, ?_, trivial⟩
    · apply overseen_of_settled
      · decide +kernel
      · exact fun _ => rfl
    · apply overseen_of_settled
      · decide +kernel
      · exact fun _ => rfl
  exact ⟨w, w', hw, hw', (one_run_each bothSteps).2 hover _ _ _ _ _ _ (works_of_thread hw)
    (works_of_thread hw') (.inr (by decide))⟩

def revokedSteps : List (Moment × ManagerEvent) :=
  yardSteps (text "ann") ++
    [(plainMoment 5, acme (.configure
        { yardConfig with projectRoots := [text "/srv/archive", text "/srv/yard", text "/srv/new"] } false true)),
      (plainMoment 6, acme (.control true)), (plainMoment 7, starts (text "second"))]

def gitMoment (now : ℚ) : Moment := { plainMoment now with isGit := fun _ => true }

def workflowSteps : List (Moment × ManagerEvent) :=
  let workflow (id employee : Str) : List (Moment × ManagerEvent) :=
    [(gitMoment 1, acme (.create { actor := .user } id
        { id := [], title := text "Rebuild", assignee := some employee, workflowContract := some {} })),
      (gitMoment 2, acme (.launch id 1 (text "digest")))]
  (gitMoment 0, .found (text "acme") yardConfig []) ::
    workflow (text "one") (text "ann") ++ workflow (text "two") (text "bob") ++
      [(gitMoment 3, acme (.control true)), (gitMoment 4, starts (text "first")),
        (gitMoment 5, starts (text "second"))]

/-- Two live threads work for Ann, and two live threads in one folder. -/
theorem not_one_run_each :
    (¬ (Manager.run {} revokedSteps).Pairs Apart) ∧ ¬ (Manager.run {} workflowSteps).Pairs Apart := by
  constructor
  · intro hall
    have hfirst : ((Manager.run {} revokedSteps).thread (text "first")).map (·.employeeId) =
        some (text "ann") := by decide +kernel
    have hsecond : ((Manager.run {} revokedSteps).thread (text "second")).map (·.employeeId) =
        some (text "ann") := by decide +kernel
    obtain ⟨w, hw, hann⟩ := Option.map_eq_some_iff.mp hfirst
    obtain ⟨w', hw', hann'⟩ := Option.map_eq_some_iff.mp hsecond
    have hapart := hall _ _ _ _ _ _ (works_of_thread hw) (works_of_thread hw') (.inr (by decide))
    exact (hapart.1 rfl).1 (hann.trans hann'.symm)
  · intro hall
    have hfirst : ((Manager.run {} workflowSteps).thread (text "first")).map (·.folder) =
        some (some (text "/srv/archive")) := by decide +kernel
    have hsecond : ((Manager.run {} workflowSteps).thread (text "second")).map (·.folder) =
        some (some (text "/srv/archive")) := by decide +kernel
    obtain ⟨w, hw, hfolder⟩ := Option.map_eq_some_iff.mp hfirst
    obtain ⟨w', hw', hfolder'⟩ := Option.map_eq_some_iff.mp hsecond
    have hapart := hall _ _ _ _ _ _ (works_of_thread hw) (works_of_thread hw') (.inr (by decide))
    exact hapart.2 _ hfolder hfolder'

end Raticode.Organizations
