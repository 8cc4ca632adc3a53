import Raticode.OrganizationEvents

/-! What a change of the configuration leaves of the references of the tasks: to workers,
initiatives, goals and epics. -/
namespace Raticode.Organizations
open OrderedDict Attempt PyDocument

def Task.isOpen (t : Task) : Prop := t.status ≠ .done ∧ t.status ≠ .cancelled

/-- The checks of `validate_task` on what a task refers to. -/
structure Resolves (config : OrganizationConfig) (t : Task) : Prop where
  reviewer : (present t.reviewer).all (fun r => t.assignee ≠ some r && config.isEmployee r) = true
  goal : (present t.goalId).all config.goalRecords.contains = true
  assignee : (present t.assignee).all config.isEmployee = true
  epic : ∃ u, inEpic config t = .ok u ∧
    (present u.project).all (fun p => config.projects.any (fun x => x.id = p)) = true

/-- `validate_plan`, as far as it goes for epics: each has a project of the organization. -/
def EpicsPlanned (config : OrganizationConfig) : Prop :=
  ∀ epic ∈ config.epics, ∃ p ∈ config.projects, epic.projectId = some p.id

def EpicKept (config : OrganizationConfig) (t : Task) : Prop :=
  ∀ id, present t.epicId = some id → ∃ epic, config.epics.find? (fun e => e.id = id) = some epic ∧
    (t.project = none ∨ t.project = epic.projectId)

def Stays (old new : OrganizationConfig) (disrupts : Bool) (t : Task) : Prop :=
  orphaned new t = false ∧
    ¬(t.isClaimed = true ∧ (disrupts = true ∨ t.assignee.any (affected old new) = true))

variable {now : ℚ} {old new : OrganizationConfig} {disrupts : Bool} {t : Task}

theorem epicKept_of_inEpic {u : Task} (h : inEpic new t = .ok u) : EpicKept new t := by
  intro id hid
  simp only [inEpic, hid] at h
  split at h
  · contradiction
  next epic hepic =>
    split_ifs at h with hproject
    refine ⟨epic, hepic, ?_⟩
    simpa using hproject

theorem inEpic_of_epicKept (hplanned : EpicsPlanned new) (hkept : EpicKept new t)
    (hproject : (present t.project).all (fun p => new.projects.any (fun x => x.id = p)) = true) :
    ∃ u, inEpic new t = .ok u ∧
      (present u.project).all (fun p => new.projects.any (fun x => x.id = p)) = true := by
  cases hid : present t.epicId with
  | none => exact ⟨t, by simp only [inEpic, hid], hproject⟩
  | some id =>
    obtain ⟨epic, hepic, hagrees⟩ := hkept id hid
    obtain ⟨p, hp, hhome⟩ := hplanned epic (List.mem_of_find?_eq_some hepic)
    refine ⟨{ t with project := epic.projectId }, ?_, ?_⟩
    · simp only [inEpic, hid, hepic]
      rw [if_pos (by simpa using hagrees)]
    · have hmem : new.projects.any (fun x => x.id = p.id) = true := by
        rw [List.any_eq_true]
        exact ⟨p, hp, by simp⟩
      simp only [hhome, present, Option.filter_some]
      split_ifs
      · simpa using hmem
      · rfl

theorem resolves_iff_epicKept (hplanned : EpicsPlanned new) (hopen : t.isOpen)
    (hold : Resolves old t) (hstays : orphaned new t = false) :
    Resolves new t ↔ EpicKept new t := by
  constructor
  · intro h
    obtain ⟨u, hu, -⟩ := h.epic
    exact epicKept_of_inEpic hu
  · intro h
    simp only [orphaned, ne_eq, hopen.1, hopen.2, not_false_eq_true, decide_true, Bool.true_and,
      Bool.or_eq_false_iff, Option.any_eq_false, Bool.not_eq_false'] at hstays
    obtain ⟨⟨⟨hassignee, hproject⟩, hgoal⟩, hreviewer⟩ := hstays
    have hbefore := hold.reviewer
    simp only [Option.all_eq_true, Bool.and_eq_true] at hbefore
    refine ⟨?_, ?_, ?_, inEpic_of_epicKept hplanned h ?_⟩
    · simp only [Option.all_eq_true, Bool.and_eq_true]
      exact fun r hr => ⟨(hbefore r hr).1, hreviewer r hr⟩
    · simpa only [Option.all_eq_true] using hgoal
    · simpa only [Option.all_eq_true] using hassignee
    · simpa only [Option.all_eq_true] using hproject

theorem configureTask_stays (h : Stays old new disrupts t) :
    configureTask now old new disrupts t = t := by
  simp only [configureTask, h.1, Bool.or_false, Bool.and_eq_true, Bool.or_eq_true]
  rw [if_neg h.2]

theorem configureTask_stopped (h : ¬Stays old new disrupts t) :
    (configureTask now old new disrupts t).status = .blocked ∧
      (configureTask now old new disrupts t).claim = none := by
  have hstopped : (t.isClaimed && (disrupts || t.assignee.any (affected old new)) ||
      orphaned new t) = true := by
    by_contra hno
    apply h
    simp only [Bool.or_eq_true, Bool.and_eq_true, not_or, Bool.not_eq_true] at hno
    refine ⟨hno.2, ?_⟩
    simpa using hno.1
  simp only [configureTask, hstopped, if_true, and_self]

/-- After an accepted change of the configuration every open task resolves in it or is blocked
without a claim, and no claimed task belongs to a worker whose permissions changed, exactly if the
open tasks that are left alone keep their epics. -/
theorem reconfigured_resolves_iff {m : Moment} {c : Company} {config : OrganizationConfig}
    {disrupts signals : Bool} (haccepted : c.archived = false) (hplanned : EpicsPlanned config)
    (hbefore : ∀ t ∈ c.tasks, t.isOpen → Resolves c.config t) :
    ((∀ t ∈ (c.configure m config disrupts signals).tasks, t.isOpen →
        Resolves config t ∨ (t.status = .blocked ∧ t.claim = none)) ∧
      ∀ t ∈ (c.configure m config disrupts signals).tasks, t.isClaimed = true →
        ∀ e, t.assignee = some e → affected c.config config e = false) ↔
      ∀ t ∈ c.tasks, t.isOpen → Stays c.config config (disrupts || disruptive c.config config) t →
        ¬(t.status = .blocked ∧ t.claim = none) → EpicKept config t := by
  have htasks : (c.configure m config disrupts signals).tasks = c.tasks.map
      (configureTask m.now c.config config (disrupts || disruptive c.config config)) := by
    simp only [Company.configure, haccepted, Bool.false_eq_true, if_false]
    split <;> rfl
  rw [htasks]
  constructor
  · intro h t ht hopen hstays hfree
    have hsame : configureTask m.now c.config config (disrupts || disruptive c.config config) t = t :=
      configureTask_stays hstays
    have hmem := List.mem_map_of_mem
      (f := configureTask m.now c.config config (disrupts || disruptive c.config config)) ht
    rw [hsame] at hmem
    have hresolves := (h.1 t hmem hopen).resolve_right hfree
    exact (resolves_iff_epicKept hplanned hopen (hbefore t ht hopen) hstays.1).mp hresolves
  · intro h
    constructor
    · intro t' ht' hopen
      obtain ⟨t, ht, rfl⟩ := List.mem_map.mp ht'
      by_cases hstays : Stays c.config config (disrupts || disruptive c.config config) t
      · rw [configureTask_stays hstays] at hopen ⊢
        by_cases hfree : t.status = .blocked ∧ t.claim = none
        · exact .inr hfree
        · have hkept := h t ht hopen hstays hfree
          exact .inl ((resolves_iff_epicKept hplanned hopen (hbefore t ht hopen) hstays.1).mpr hkept)
      · exact .inr (configureTask_stopped hstays)
    · intro t' ht' hclaimed e he
      obtain ⟨t, ht, rfl⟩ := List.mem_map.mp ht'
      by_cases hstays : Stays c.config config (disrupts || disruptive c.config config) t
      · rw [configureTask_stays hstays] at hclaimed he
        have hfree := hstays.2
        simp only [hclaimed, he, Option.any_some, true_and, not_or, Bool.not_eq_true] at hfree
        exact hfree.2
      · have hnone : (configureTask m.now c.config config (disrupts || disruptive c.config config) t).claim =
            none := (configureTask_stopped hstays).2
        rw [Task.isClaimed, hnone] at hclaimed
        contradiction

section Planned

def yardEpic : Epic := { id := text "E1", projectId := some (text "yard") }

def plannedConfig (epics : List Epic) : OrganizationConfig :=
  { projects := [{ id := text "yard" }], epics := epics }

def epicTask : Task :=
  { id := text "t", title := text "Sweep", epicId := some (text "E1"), project := some (text "yard") }

def planned : Company :=
  { world := { org := { config := plannedConfig [yardEpic], tasks := [epicTask] } } }

theorem planned_resolves : ∀ t ∈ planned.tasks, t.isOpen → Resolves planned.config t := by
  intro t ht _
  obtain rfl := List.mem_singleton.mp ht
  refine ⟨by rfl, by rfl, by rfl, epicTask, by rfl, by rfl⟩

def staffedConfig (workers : List Employee) : OrganizationConfig :=
  { plannedConfig [yardEpic] with employees := workers }

def ada : Employee := { id := text "ada", name := text "Ada" }

def bob : Employee := { id := text "bob", name := text "Bob" }

/-- Bob works on the second task. -/
def staffed : Company :=
  { world := { org := { config := staffedConfig [ada, bob], tasks :=
      [{ epicTask with assignee := some (text "ada") },
        { id := text "u", title := text "Rake", status := .inProgress, assignee := some (text "bob"),
          claim := some (text "run") }] } } }

/-- A change that dismisses Bob and keeps the epic leaves the first task as it is and stops the second. -/
theorem reconfigured_resolves_kept :
    (∀ t ∈ (staffed.configure (plainMoment 0) (staffedConfig [ada]) false true).tasks,
      t.isOpen → Resolves (staffedConfig [ada]) t ∨ (t.status = .blocked ∧ t.claim = none)) ∧
      ∀ t ∈ (staffed.configure (plainMoment 0) (staffedConfig [ada]) false true).tasks,
        t.isClaimed = true → ∀ e, t.assignee = some e →
          affected staffed.config (staffedConfig [ada]) e = false := by
  have hplanned : EpicsPlanned (staffedConfig [ada]) := by
    intro epic hepic
    obtain rfl := List.mem_singleton.mp hepic
    exact ⟨{ id := text "yard" }, List.mem_singleton_self _, rfl⟩
  have hresolves : ∀ t ∈ staffed.tasks, t.isOpen → Resolves staffed.config t := by
    intro t ht _
    rcases List.mem_pair.mp ht with rfl | rfl
    · exact ⟨by rfl, by rfl, by rfl, { epicTask with assignee := some (text "ada") }, by rfl, by rfl⟩
    · exact ⟨by rfl, by rfl, by rfl, _, by rfl, by rfl⟩
  refine (reconfigured_resolves_iff rfl hplanned hresolves).mpr ?_
  intro t ht _ _ _ id hid
  rcases List.mem_pair.mp ht with rfl | rfl
  · have hid' : text "E1" = id := Option.some.inj hid
    subst hid'
    exact ⟨yardEpic, by rfl, .inr rfl⟩
  · cases hid

/-- A change that drops the epic leaves the task open, with an epic that is not there. -/
theorem reconfigured_epic_lost :
    planned.archived = false ∧ EpicsPlanned (plannedConfig []) ∧
      (∀ t ∈ planned.tasks, t.isOpen → Resolves planned.config t) ∧
      ∃ t ∈ (planned.configure (plainMoment 0) (plannedConfig []) false true).tasks,
        t.isOpen ∧ ¬Resolves (plannedConfig []) t ∧ ¬(t.status = .blocked ∧ t.claim = none) := by
  refine ⟨rfl, fun _ hepic => absurd hepic (by simp [plannedConfig]), planned_resolves, epicTask, ?_, ?_⟩
  · have hsame : (planned.configure (plainMoment 0) (plannedConfig []) false true).tasks = [epicTask] := by
      rfl
    rw [hsame]
    exact List.mem_singleton_self _
  · refine ⟨by simp [Task.isOpen, epicTask], ?_, by simp [epicTask]⟩
    intro h
    obtain ⟨u, hu, -⟩ := h.epic
    obtain ⟨epic, hepic, -⟩ := epicKept_of_inEpic hu (text "E1") (by rfl)
    simp [plannedConfig] at hepic

end Planned

end Raticode.Organizations
