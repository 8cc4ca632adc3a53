import Raticode.OrganizationDeeds

/-! The work that workers delegate. A task that a run creates takes over the gates of the first task
that is either its parent or the one of the run. -/
namespace Raticode.Organizations
open PyDocument OrderedDict MarkedList Attempt

inductive Gate where
  | approval | review
  deriving DecidableEq, Repr

def Gate.of : Gate → Task → Bool
  | .approval, t => t.approvalRequired
  | .review, t => t.reviewRequired

def Org.parentFor (org : Org) (runId : Option Str) (draft : Task) : Option Task :=
  org.tasks.find? (fun u => draft.parentId = some u.id || (runId.isSome && u.claim = runId))

def Org.runGated (org : Org) (gate : Gate) (runId : Option Str) : Bool :=
  runId.any (fun run => org.tasks.any (fun u => u.claim = some run && gate.of u))

def Company.passesOn (gate : Gate) (c : Company) (step : Moment × Event) : Bool :=
  match step.2 with
  | .create caller _ draft =>
    caller.actor.employee?.isNone || !c.org.runGated gate caller.runId || gate.of draft ||
      (c.org.parentFor caller.runId draft).any gate.of
  | _ => true

def Company.allPassOn (gate : Gate) : Company → List (Moment × Event) → Bool
  | _, [] => true
  | c, step :: steps => c.passesOn gate step && (c.act step).allPassOn gate steps

/-! ### The marks -/

def Company.delegates (gate : Gate) (c : Company) (owed : ℕ → Bool) (step : Moment × Event) : Bool :=
  match step.2 with
  | .create caller _ _ =>
    caller.actor.employee?.isSome && caller.runId.any (fun run =>
      c.tasks.zipIdx.any (fun p => p.1.claim = some run && (gate.of p.1 || owed p.2)))
  | _ => false

def lifts (gate : Gate) (event : Event) (t t' : Task) : Bool :=
  match event with
  | .call caller _ _ => caller.actor.employee?.isNone && gate.of t && !gate.of t'
  | _ => false

def gateWatch (gate : Gate) (c : Company) (owed : ℕ → Bool) (step : Moment × Event) : Watch Task Bool where
  seen _ t t' mark := if lifts gate step.2 t t' then false else mark
  start _ := c.delegates gate owed step

def owing (gate : Gate) (c : Company) (owed : ℕ → Bool) : List (Moment × Event) → ℕ → Bool
  | [] => owed
  | step :: steps =>
    owing gate (c.act step) ((gateWatch gate c owed step).follow c.tasks (c.act step).tasks owed) steps

def Keeping (gate : Gate) (t : Task) (owed : Bool) : Prop := owed = true → gate.of t = true

/-! ### One creation -/

section Creation

variable {h : Host} {org : Org} {caller : Caller} {fresh : Str} {draft t t' : Task} {gate : Gate}
  {c : Company} {step : Moment × Event} {i : ℕ}

theorem Minor.gateOf (hm : Minor t t') (gate : Gate) : gate.of t' = gate.of t := by
  cases gate with
  | approval => exact hm.approvalRequired
  | review => exact hm.reviewRequired

theorem createTask_gate (hworker : caller.actor.employee?.isSome = true)
    (hok : createTask h org caller fresh draft = .ok t) :
    gate.of t = (gate.of draft || (org.parentFor caller.runId draft).any gate.of) := by
  obtain ⟨-, path, project, rfl, -⟩ := createTask_cases hok
  have hsame : gate.of { proposal org caller fresh draft with workspacePath := path, project := project } =
      gate.of (proposal org caller fresh draft) := by
    cases gate with
    | approval => rfl
    | review => rfl
  rw [hsame, proposal, if_pos hworker, underParent]
  have hfind : org.tasks.find? (fun u => (draft.created fresh).parentId = some u.id ||
      (caller.runId.isSome && u.claim = caller.runId)) = org.parentFor caller.runId draft := rfl
  cases hparent : org.parentFor caller.runId draft with
  | none =>
    rw [hparent] at hfind
    simp only [hfind]
    cases gate with
    | approval => simp [Gate.of, Task.created]
    | review => simp [Gate.of, Task.created]
  | some parent =>
    rw [hparent] at hfind
    simp only [hfind]
    cases gate with
    | approval => simp [Gate.of, Task.created]
    | review => simp [Gate.of, Task.created]

theorem createTask_passesOn {m : Moment} (hworker : caller.actor.employee?.isSome = true)
    (hok : createTask h c.org caller fresh draft = .ok t) :
    (c.org.runGated gate caller.runId = true → gate.of t = true) ↔
      c.passesOn gate (m, .create caller fresh draft) = true := by
  have hgate : gate.of t = (gate.of draft || (c.org.parentFor caller.runId draft).any gate.of) :=
    createTask_gate hworker hok
  have hsome : caller.actor.employee?.isNone = false := by
    rw [Option.isNone_eq_false_iff]
    exact hworker
  simp only [Company.passesOn, hsome, Bool.false_or, hgate]
  cases c.org.runGated gate caller.runId with
  | true => simp
  | false => simp

end Creation

/-! ### Runs -/

section Runs

variable {gate : Gate} {c : Company} {step : Moment × Event} {i : ℕ} {t t' : Task} {owed : ℕ → Bool}

theorem deed_gate (hd : Deed c step i t t') (hlifts : lifts gate step.2 t t' = false)
    (ht : gate.of t = true) : gate.of t' = true := by
  obtain ⟨m, event⟩ := step
  cases event with
  | call caller taskId call =>
    rcases hd with hcalled | rfl | ⟨hquiet, -⟩
    · cases hactor : caller.actor with
      | employee id =>
        obtain ⟨t₁, hok, hlast⟩ := hcalled.after
        rw [hactor] at hok
        obtain ⟨happroval, hreview⟩ := changeTask_gates hok
        rw [hlast.gateOf gate, ← ht]
        cases gate with
        | approval => exact happroval
        | review => exact hreview
      | user => simpa [lifts, hactor, Actor.employee?, ht] using hlifts
      | rem => simpa [lifts, hactor, Actor.employee?, ht] using hlifts
    · exact ht
    · exact (hquiet.toMinor.gateOf gate).trans ht
  | experiment ids employee reason =>
    rcases hd with ⟨-, -, tasks, valid, hvalid, hplaced⟩ | rfl
    · obtain ⟨path, rfl⟩ := validateWorkspace_ok hplaced
      obtain ⟨⟨project, rfl⟩, -⟩ := validateTask_ok hvalid
      cases gate with
      | approval => exact ht
      | review => rfl
    · exact ht
  | launch taskId expectedRevision authorization =>
    rcases hd with ⟨-, -, rfl⟩ | rfl
    · cases gate with
      | approval => exact ht
      | review => rfl
    · exact ht
  | dispatch elsewhere run fresh =>
    rcases hd with ⟨a, t₁, reserved, rootKey, hquiet, -, rfl⟩ | hquiet
    · have hclaimed : gate.of (claimTask run reserved t₁) = gate.of t₁ := by
        cases gate with
        | approval => rfl
        | review => rfl
      rw [hclaimed, hquiet.gateOf gate, ht]
    · exact (hquiet.toMinor.gateOf gate).trans ht
  | _ => exact ((Deed.minor hd rfl).gateOf gate).trans ht

theorem runGated_of_delegates {caller : Caller} {fresh : Str} {draft : Task} {m : Moment}
    (hkept : Every (Keeping gate) c.tasks owed)
    (hdelegates : c.delegates gate owed (m, .create caller fresh draft) = true) :
    caller.actor.employee?.isSome = true ∧ c.org.runGated gate caller.runId = true := by
  simp only [Company.delegates, Bool.and_eq_true] at hdelegates
  obtain ⟨hworker, hany⟩ := hdelegates
  refine ⟨hworker, ?_⟩
  cases hrun : caller.runId with
  | none =>
    rw [hrun] at hany
    contradiction
  | some run =>
    simp only [hrun, Option.any_some, List.any_eq_true, Bool.and_eq_true, Bool.or_eq_true,
      decide_eq_true_eq] at hany
    obtain ⟨⟨u, j⟩, hmem, hclaim, hgate⟩ := hany
    have hu : c.tasks[j]? = some u := List.mem_zipIdx_iff_getElem?.mp hmem
    have hgated : gate.of u = true := by
      rcases hgate with hgate | howed
      · exact hgate
      · exact hkept j u hu howed
    simp only [Org.runGated, Option.any_some, List.any_eq_true, Bool.and_eq_true, decide_eq_true_eq]
    exact ⟨u, List.mem_of_getElem? hu, hclaim, hgated⟩

theorem act_keeping (h : Every (Keeping gate) c.tasks owed) (hpass : c.passesOn gate step = true) :
    Every (Keeping gate) (c.act step).tasks
      ((gateWatch gate c owed step).follow c.tasks (c.act step).tasks owed) := by
  refine Every.follow h (act_evolves c step) ?_ ?_
  · intro i t t' hd hold hmark
    simp only [gateWatch] at hmark
    cases hlifts : lifts gate step.2 t t' with
    | true => simp [hlifts] at hmark
    | false =>
      simp only [hlifts, Bool.false_eq_true, if_false] at hmark
      exact deed_gate hd hlifts (hold hmark)
  · intro t' hnew hmark
    obtain ⟨m, event⟩ := step
    cases event with
    | create caller fresh draft =>
      have hdelegates : c.delegates gate owed (m, .create caller fresh draft) = true := hmark
      obtain ⟨hworker, hgated⟩ := runGated_of_delegates h hdelegates
      obtain ⟨-, t, hok, hquiet⟩ := hnew
      rw [hquiet.toMinor.gateOf gate]
      exact (createTask_passesOn hworker hok).mpr hpass hgated
    | _ => contradiction

/-- A gate that a parent passes on is still required of the child after every run. -/
theorem run_keeping (h : Every (Keeping gate) c.tasks owed) (steps : List (Moment × Event))
    (hpass : c.allPassOn gate steps = true) :
    Every (Keeping gate) (c.run steps).tasks (owing gate c owed steps) := by
  induction steps generalizing c owed with
  | nil => exact h
  | cons step steps ih =>
    simp only [Company.allPassOn, Bool.and_eq_true] at hpass
    exact ih (act_keeping h hpass.1) hpass.2

/-- Where every task that a worker creates is passed the gate on, the tasks that were delegated from
gated work, over any number of runs, have the gate, as long as neither the user nor Rem takes it from
them: no worker does. One task that is created takes it over exactly where it is passed on. -/
theorem delegation_inherits (gate : Gate) (c : Company) (steps : List (Moment × Event)) :
    (c.allPassOn gate steps = true → ∀ (i : ℕ) (t : Task), (c.run steps).tasks[i]? = some t →
      owing gate c (fun _ => false) steps i = true → gate.of t = true) ∧
    (∀ (m : Moment) caller id run fresh draft t, caller.actor = .employee id → caller.runId = some run →
      createTask m.toHost (c.run steps).org caller fresh draft = .ok t →
        (((c.run steps).org.runGated gate (some run) = true → gate.of t = true) ↔
          (c.run steps).passesOn gate (m, .create caller fresh draft) = true)) ∧
    ∀ step caller id, step.2.caller = some caller → caller.actor = .employee id →
      ∀ (i : ℕ) (t : Task), (c.run steps).tasks[i]? = some t → gate.of t = true →
        ∃ t', ((c.run steps).act step).tasks[i]? = some t' ∧ gate.of t' = true := by
  refine ⟨fun hpass i t ht howed => ?_, ?_, ?_⟩
  · have hinitial : Every (Keeping gate) c.tasks (fun _ => false) := fun _ _ _ hfalse => by contradiction
    exact run_keeping hinitial steps hpass i t ht howed
  · intro m caller id run fresh draft t hactor hrun hok
    rw [← hrun]
    apply createTask_passesOn _ hok
    rw [hactor]
    rfl
  · intro step caller id hcaller hactor i t ht hgate
    obtain ⟨t', ht', happroval, hreview⟩ := (act_gates hcaller hactor).kept i t ht
    refine ⟨t', ht', hgate ▸ ?_⟩
    cases gate with
    | approval => exact happroval
    | review => exact hreview

end Runs

/-! Ann works on a ticket whose plan needed an approval, and there is an older one without. -/

def delegationConfig : OrganizationConfig where
  employees := [{ id := text "ann", name := text "Ann" }]
  projectRoots := [text "/srv/archive"]

def delegationCompany : Company :=
  { world := { org := { config := delegationConfig, running := false } } }

def workingSteps : List (Moment × Event) :=
  [(plainMoment 0, .create { actor := .user } (text "old")
      { id := [], title := text "Ideas", assignee := some (text "ann"), status := .backlog }),
    (plainMoment 1, .create { actor := .user } (text "gated")
      { id := [], title := text "Migrate", assignee := some (text "ann"), approvalRequired := true }),
    (plainMoment 2, .call { actor := .user } (text "gated") (.approve 1)),
    (plainMoment 3, .control true),
    (plainMoment 4, .dispatch {} (text "run") (fun _ => text "unused"))]

def ann : Caller := { actor := .employee (text "ann"), runId := some (text "run") }

def delegatedSteps : List (Moment × Event) :=
  workingSteps ++ [(plainMoment 5, .create ann (text "child") { id := [], title := text "Copy a part" })]

theorem delegation_inherits_child :
    ∃ t, (delegationCompany.run delegatedSteps).tasks[2]? = some t ∧ t.parentRunId = some (text "run") ∧
      Gate.approval.of t = true := by
  have hchild : ((delegationCompany.run delegatedSteps).tasks[2]?).map (·.parentRunId) =
      some (some (text "run")) := by decide +kernel
  obtain ⟨t, ht, hrun⟩ := Option.map_eq_some_iff.mp hchild
  have hpass : delegationCompany.allPassOn .approval delegatedSteps = true := by decide +kernel
  have howed : owing .approval delegationCompany (fun _ => false) delegatedSteps 2 = true := by
    decide +kernel
  exact ⟨t, ht, hrun, (delegation_inherits .approval delegationCompany delegatedSteps).1 hpass 2 t ht howed⟩

/-- Under the older ticket it waits for no approval. -/
theorem not_delegation_inherits :
    ¬ ∀ (gate : Gate) (m₀ : Moment) (config : OrganizationConfig) (package : List PackageTask)
      (c : Company), found m₀ config package = .ok c →
      ∀ (steps : List (Moment × Event)) (m : Moment) caller id run fresh draft t,
        caller.actor = .employee id → caller.runId = some run →
          (c.run steps).org.admits caller = true →
            createTask m.toHost (c.run steps).org caller fresh draft = .ok t →
              (c.run steps).org.runGated gate (some run) = true → gate.of t = true := by
  intro hall
  let draft : Task := { id := [], title := text "Copy a part", parentId := some (text "old") }
  have hfound : found (plainMoment 0) delegationConfig [] = .ok delegationCompany := rfl
  have hadmits : (delegationCompany.run workingSteps).org.admits ann = true := by decide +kernel
  have hgated : (delegationCompany.run workingSteps).org.runGated .approval (some (text "run")) = true := by
    decide +kernel
  have hcreated : (createTask (plainMoment 5).toHost (delegationCompany.run workingSteps).org ann
      (text "child") draft).toOption.map (·.approvalRequired) = some false := by decide +kernel
  cases hok : createTask (plainMoment 5).toHost (delegationCompany.run workingSteps).org ann
      (text "child") draft with
  | error e =>
    rw [hok] at hcreated
    contradiction
  | ok t =>
    have hlost : t.approvalRequired = false := by
      rw [hok] at hcreated
      exact Option.some.inj hcreated
    have hgate := hall .approval (plainMoment 0) delegationConfig [] delegationCompany hfound workingSteps
      (plainMoment 5) ann (text "ann") (text "run") (text "child") draft t rfl rfl hadmits hok hgated
    rw [Gate.of, hlost] at hgate
    contradiction

end Raticode.Organizations
