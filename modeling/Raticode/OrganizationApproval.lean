import Raticode.OrganizationDeeds
import Raticode.OrganizationReview

/-! The approval of plans: a task whose plan needs an approval starts only where the plan has been
approved as it stands. Each task carries the mark of who approved its plan, which no event reads. -/
namespace Raticode.Organizations
open PyDocument OrderedDict MarkedList Attempt

/-! ### Plans -/

structure Plan where
  title : Str
  description : Str
  assignee : Option Str
  project : Option Str
  parentId : Option Str
  goal : Str
  priority : Priority
  dueAt : Option ℚ
  recurring : Bool
  intervalSeconds : ℕ
  approvalRequired : Bool
  workspacePath : Option Str
  dependsOn : List Str
  reviewRequired : Bool
  reviewer : Option Str
  goalId : Option Str
  workflowContract : Option Contract
  execution : Option Execution
  epicId : Option Str
  doneWhen : Str
  knowledge : List Str
  deriving DecidableEq

def Task.plan (t : Task) : Plan where
  title := t.title
  description := t.description
  assignee := t.assignee
  project := t.project
  parentId := t.parentId
  goal := t.goal
  priority := t.priority
  dueAt := t.dueAt
  recurring := t.recurring
  intervalSeconds := t.intervalSeconds
  approvalRequired := t.approvalRequired
  workspacePath := t.workspacePath
  dependsOn := t.dependsOn
  reviewRequired := t.reviewRequired
  reviewer := t.reviewer
  goalId := t.goalId
  workflowContract := t.workflowContract
  execution := t.execution
  epicId := t.epicId
  doneWhen := t.doneWhen
  knowledge := t.knowledge

/-! ### The marks -/

def Company.approval (c : Company) (step : Moment × Event) (i : ℕ) : Option Actor :=
  match step.2 with
  | .call caller taskId (.approve expectedRevision) =>
    match c.org.find taskId with
    | none => none
    | some (j, t) =>
      let approves := (approveTask caller.actor expectedRevision t).toOption.isSome
      -- Rem's approval waits for the user, who then makes it.
      if j = i && c.org.admits caller && caller.actor ≠ .rem && approves then some caller.actor else none
  | _ => none

def Company.replans (c : Company) (step : Moment × Event) (i : ℕ) (t t' : Task) : Bool :=
  match step.2 with
  | .call _ taskId (.update _ asked) =>
    (c.org.find taskId).any (fun found => found.1 = i) && (asked.differing t).beyond outputFields &&
      t' ≠ t
  | .experiment ids _ _ => ids.contains t.id && t' ≠ t
  | _ => false

abbrev Change := Company → Moment × Event → ℕ → Task → Task → Bool

def anyChange : Change := fun _ _ _ t t' => t'.plan ≠ t.plan

def TaskCall.validates : TaskCall → Bool
  | .review _ _ _ | .update _ _ => true
  | _ => false

def settledBy (call : TaskCall) (t t' : Task) : Plan :=
  { t.plan with
    dueAt := t'.dueAt
    project := if call.validates then t'.project else t.project
    workspacePath := if call.validates then t'.workspacePath else t.workspacePath }

def settled (event : Event) (t t' : Task) : Plan :=
  match event with
  | .call _ _ call => settledBy call t t'
  | .launch _ _ _ => { t.plan with execution := t'.execution, reviewRequired := t'.reviewRequired }
  | _ => { t.plan with dueAt := t'.dueAt }

def edits : Change := fun c step i t t' => c.replans step i t t' || t'.plan ≠ settled step.2 t t'

def approvalWatch (changes : Change) (c : Company) (step : Moment × Event) : Watch Task (Option Actor) where
  seen i t t' mark := match c.approval step i with
    | some actor => some actor
    | none => if changes c step i t t' then none else mark
  start _ := none

def approvals (changes : Change) (c : Company) (marks : ℕ → Option Actor) :
    List (Moment × Event) → ℕ → Option Actor
  | [] => marks
  | step :: steps =>
    approvals changes (c.act step)
      ((approvalWatch changes c step).follow c.tasks (c.act step).tasks marks) steps

def Approved (t : Task) (mark : Option Actor) : Prop :=
  t.approvedRevision = none ∨
    (t.approvedRevision = some t.planRevision ∧ ∃ actor, mark = some actor ∧ Judges t actor)

/-! ### Calls -/

section Calls

variable {h : Host} {now : ℚ} {org : Org} {i : ℕ} {actor : Actor} {t t' : Task}

theorem judges_of_approveTask {expectedRevision : ℕ} (hrem : actor ≠ .rem)
    (hok : approveTask actor expectedRevision t = .ok t') : Judges t actor := by
  simp only [approveTask, require_bind] at hok
  obtain ⟨-, hjudge, -, -⟩ := hok
  cases actor with
  | user => trivial
  | rem => contradiction
  | employee id =>
    simp only [mayJudge, Actor.employee?, Option.all_some, Bool.and_eq_true, decide_eq_true_eq] at hjudge
    exact ⟨hjudge.2, hjudge.1⟩

theorem beyond_pulledForward (changes : Changes) (t : Task) :
    (pulledForward changes t).beyond outputFields = changes.beyond outputFields := by
  simp only [pulledForward]
  split_ifs
  · simp [Changes.beyond, TaskField.all, outputFields, Changes.has]
  · rfl

theorem candidate_plan {config : OrganizationConfig} {asked : Changes} {c : Task}
    (hc : c = candidate now config actor asked t) :
    ((asked.differing t).beyond outputFields = true ∧ c.approvedRevision = none) ∨
      ((asked.differing t).beyond outputFields = false ∧ c.plan = { t.plan with dueAt := c.dueAt } ∧
        c.approvedRevision = t.approvedRevision ∧ c.planRevision = t.planRevision) := by
  set changes := pulledForward (asked.differing t) t with hchanges
  have hbeyond : changes.beyond outputFields = (asked.differing t).beyond outputFields :=
    beyond_pulledForward _ t
  cases hb : (asked.differing t).beyond outputFields with
  | true =>
    left
    refine ⟨rfl, ?_⟩
    subst hc
    simp only [candidate, candidateOf, ← hchanges, hbeyond, hb, if_true]
  | false =>
    right
    have hwithin : changes.beyond outputFields = false := hbeyond.trans hb
    have hfield {f : TaskField} (hf : f ∉ outputFields) : changes.has f = false :=
      Changes.has_eq_false hwithin hf
    refine ⟨rfl, ?_, ?_, ?_⟩
    · have happly : (changes.apply t).plan = t.plan := by
        simp only [Changes.apply, Task.plan, Plan.mk.injEq]
        refine ⟨?_, ?_, ?_, ?_, ?_, ?_, ?_, ?_, ?_, ?_, ?_, ?_, ?_, ?_, ?_, ?_, ?_, ?_, ?_, ?_, ?_⟩
        · exact getD_of_isSome_eq_false (hfield (f := .title) (by decide)) _
        · exact getD_of_isSome_eq_false (hfield (f := .description) (by decide)) _
        · exact getD_of_isSome_eq_false (hfield (f := .assignee) (by decide)) _
        · exact getD_of_isSome_eq_false (hfield (f := .project) (by decide)) _
        · exact getD_of_isSome_eq_false (hfield (f := .parentId) (by decide)) _
        · exact getD_of_isSome_eq_false (hfield (f := .goal) (by decide)) _
        · exact getD_of_isSome_eq_false (hfield (f := .priority) (by decide)) _
        · exact getD_of_isSome_eq_false (hfield (f := .dueAt) (by decide)) _
        · exact getD_of_isSome_eq_false (hfield (f := .recurring) (by decide)) _
        · exact getD_of_isSome_eq_false (hfield (f := .intervalSeconds) (by decide)) _
        · exact getD_of_isSome_eq_false (hfield (f := .approvalRequired) (by decide)) _
        · exact getD_of_isSome_eq_false (hfield (f := .workspacePath) (by decide)) _
        · exact getD_of_isSome_eq_false (hfield (f := .dependsOn) (by decide)) _
        · exact getD_of_isSome_eq_false (hfield (f := .reviewRequired) (by decide)) _
        · exact getD_of_isSome_eq_false (hfield (f := .reviewer) (by decide)) _
        · exact getD_of_isSome_eq_false (hfield (f := .goalId) (by decide)) _
        · exact getD_of_isSome_eq_false (hfield (f := .workflowContract) (by decide)) _
        · exact getD_of_isSome_eq_false (hfield (f := .execution) (by decide)) _
        · exact getD_of_isSome_eq_false (hfield (f := .epicId) (by decide)) _
        · exact getD_of_isSome_eq_false (hfield (f := .doneWhen) (by decide)) _
        · exact getD_of_isSome_eq_false (hfield (f := .knowledge) (by decide)) _
      rw [hc, ← happly]
      rfl
    · subst hc
      simp only [candidate, candidateOf, ← hchanges, hwithin]
      rfl
    · subst hc
      simp only [candidate, candidateOf, ← hchanges, hwithin]
      rfl

theorem changeTask_plan {call : TaskCall} (hok : changeTask h now org i actor call t = .ok t') :
    t'.approvedRevision = none ∨
      (t'.plan = settledBy call t t' ∧
        (((∃ n, call = .approve n ∧ approveTask actor n t = .ok t') ∧
            t'.approvedRevision = some t'.planRevision) ∨
          ((∀ n asked, call = .update n asked → (asked.differing t).beyond outputFields = false) ∧
            t'.approvedRevision = t.approvedRevision ∧ t'.planRevision = t.planRevision))) := by
  have hkeep (hcall : ∀ n asked, call ≠ .update n asked) (hs : t'.plan = settledBy call t t')
      (ha : t'.approvedRevision = t.approvedRevision) (hp : t'.planRevision = t.planRevision) :
      t'.plan = settledBy call t t' ∧
        (((∃ n, call = .approve n ∧ approveTask actor n t = .ok t') ∧
            t'.approvedRevision = some t'.planRevision) ∨
          ((∀ n asked, call = .update n asked → (asked.differing t).beyond outputFields = false) ∧
            t'.approvedRevision = t.approvedRevision ∧ t'.planRevision = t.planRevision)) :=
    ⟨hs, .inr ⟨fun n asked heq => absurd heq (hcall n asked), ha, hp⟩⟩
  cases call with
  | comment body unblock =>
    obtain ⟨comments, rfl | ⟨-, -, rfl⟩⟩ := commentTask_ok hok
    · exact .inr (hkeep (by simp) rfl rfl rfl)
    · exact .inr (hkeep (by simp) rfl rfl rfl)
  | approve expectedRevision =>
    have heq := approveTask_ok hok
    refine .inr ⟨?_, .inl ⟨⟨expectedRevision, rfl, hok⟩, ?_⟩⟩
    · rw [heq]
      rfl
    · rw [heq]
  | review expectedRevision decision body =>
    obtain ⟨-, -, -, comments, acceptedAt, evidence, project, rfl⟩ := reviewTask_ok hok
    exact .inr (hkeep (by simp) rfl rfl rfl)
  | reopen expectedRevision asked =>
    obtain ⟨-, -, turns, rfl⟩ := reopenTask_ok hok
    exact .inr (hkeep (by simp) rfl rfl rfl)
  | update expectedRevision asked =>
    obtain ⟨c, hc, -, -, -, path, project, comments, rfl⟩ := updateTask_ok hok
    rcases candidate_plan hc with ⟨-, hnone⟩ | ⟨hwithin, hplan, happroved, hrevision⟩
    · exact .inl hnone
    · refine .inr ⟨?_, .inr ⟨?_, happroved, hrevision⟩⟩
      · have hchecked : ({ c.plan with project := project, workspacePath := path } : Plan) =
            { t.plan with dueAt := c.dueAt, project := project, workspacePath := path } := by rw [hplan]
        exact hchecked
      · rintro n asked' heq
        cases heq
        exact hwithin

end Calls

/-! ### Events -/

section Events

variable {c : Company} {step : Moment × Event} {i : ℕ} {t t' : Task}

theorem Minor.plan (h : Minor t t') : t'.plan = { t.plan with dueAt := t'.dueAt } := by
  rw [h.eq]
  rfl

theorem Minor.settledBy (h : Minor t t') (call : TaskCall) :
    Organizations.settledBy call t t' = { t.plan with dueAt := t'.dueAt } := by
  have hproject : t'.project = t.project := h.field fun _ => rfl
  have hpath : t'.workspacePath = t.workspacePath := h.field fun _ => rfl
  simp only [Organizations.settledBy, hproject, hpath, ite_self]
  rfl

/-- A step that does not change the plan leaves the approval and the plan revision. -/
structure Leaves (c : Company) (step : Moment × Event) (i : ℕ) (t t' : Task) : Prop where
  replans : c.replans step i t t' = false
  approved : t'.approvedRevision = t.approvedRevision
  plan : t'.planRevision = t.planRevision

theorem Minor.leaves (h : Minor t t') (hr : c.replans step i t t' = false) : Leaves c step i t t' :=
  ⟨hr, h.approvedRevision, h.planRevision⟩

theorem approval_judges {actor : Actor} (ht : c.tasks[i]? = some t)
    (happroval : c.approval step i = some actor) : Judges t actor := by
  obtain ⟨m, event⟩ := step
  cases event with
  | call caller taskId call =>
    cases call with
    | approve expectedRevision =>
      simp only [Company.approval] at happroval
      cases hf : c.org.find taskId with
      | none =>
        rw [hf] at happroval
        contradiction
      | some found =>
        obtain ⟨j, u⟩ := found
        simp only [hf] at happroval
        split_ifs at happroval with happroves
        simp only [Bool.and_eq_true, decide_eq_true_eq] at happroves
        obtain ⟨⟨⟨rfl, -⟩, hrem⟩, hok⟩ := happroves
        obtain rfl := Option.some.inj happroval
        obtain rfl : t = u := Option.some.inj (ht.symm.trans (Org.getElem?_of_find hf))
        cases happrove : approveTask caller.actor expectedRevision t with
        | error e =>
          rw [happrove] at hok
          contradiction
        | ok t' => exact judges_of_approveTask hrem happrove
    | _ => contradiction
  | _ => contradiction

theorem deed_plan (ht : c.tasks[i]? = some t) (hd : Deed c step i t t') :
    t'.approvedRevision = none ∨
      (t'.plan = settled step.2 t t' ∧
        (((∃ actor, c.approval step i = some actor) ∧ t'.approvedRevision = some t'.planRevision) ∨
          Leaves c step i t t')) := by
  obtain ⟨m, event⟩ := step
  cases event with
  | call caller taskId call =>
    rcases hd with hcalled | rfl | ⟨hquiet, hother⟩
    · obtain ⟨t₁, hok, hlast⟩ := hcalled.after
      rcases changeTask_plan hok with hnone | ⟨hplan, hcase⟩
      · exact .inl (hlast.approvedRevision.trans hnone)
      · right
        have hproject : t'.project = t₁.project := hlast.field fun _ => rfl
        have hpath : t'.workspacePath = t₁.workspacePath := hlast.field fun _ => rfl
        refine ⟨?_, ?_⟩
        · calc t'.plan = { t₁.plan with dueAt := t'.dueAt } := hlast.plan
            _ = { settledBy call t t₁ with dueAt := t'.dueAt } := by rw [hplan]
            _ = settledBy call t t' := by simp only [settledBy, hproject, hpath]
        · rcases hcase with ⟨⟨n, rfl, happrove⟩, happroved⟩ | ⟨hwithin, happroved, hrevision⟩
          · refine .inl ⟨⟨caller.actor, ?_⟩, ?_⟩
            · -- Rem's call would have had to wait for the user.
              have hrem : caller.actor ≠ .rem := by
                intro hrem
                have hnone := hcalled.consented hrem
                contradiction
              have hfound : c.org.find taskId = some (i, t) := hcalled.found
              have hadmits : c.org.admits caller = true := hcalled.admitted
              simp [Company.approval, hfound, hadmits, hrem, happrove, Except.toOption]
            · rw [hlast.approvedRevision, hlast.planRevision]
              exact happroved
          · refine .inr ⟨?_, hlast.approvedRevision.trans happroved, hlast.planRevision.trans hrevision⟩
            cases call with
            | update n asked => simp [Company.replans, hwithin n asked rfl]
            | _ => rfl
    · refine .inr ⟨?_, .inr ⟨?_, rfl, rfl⟩⟩
      · exact ((Minor.refl t').settledBy call).symm
      · cases call with
        | update n asked => simp [Company.replans]
        | _ => rfl
    · refine .inr ⟨hquiet.toMinor.plan.trans (hquiet.toMinor.settledBy call).symm, .inr (hquiet.toMinor.leaves ?_)⟩
      cases call with
      | update n asked =>
        have hnot : (c.org.find taskId).any (fun found => found.1 = i) = false := by
          cases hf : c.org.find taskId with
          | none => rfl
          | some found =>
            obtain ⟨j, u⟩ := found
            have hne : j ≠ i := fun heq => hother u (heq ▸ hf)
            simpa using hne
        simp [Company.replans, hnot]
      | _ => rfl
  | experiment ids employee reason =>
    rcases hd with ⟨-, -, tasks, valid, hvalid, hplaced⟩ | rfl
    · left
      obtain ⟨path, rfl⟩ := validateWorkspace_ok hplaced
      obtain ⟨⟨project, rfl⟩, -⟩ := validateTask_ok hvalid
      rfl
    · exact .inr ⟨rfl, .inr ⟨by simp [Company.replans], rfl, rfl⟩⟩
  | launch taskId expectedRevision authorization =>
    rcases hd with ⟨-, -, rfl⟩ | rfl
    · exact .inr ⟨rfl, .inr ⟨rfl, rfl, rfl⟩⟩
    · exact .inr ⟨rfl, .inr ⟨rfl, rfl, rfl⟩⟩
  | dispatch elsewhere run fresh =>
    rcases hd with ⟨a, t₁, reserved, rootKey, hquiet, -, rfl⟩ | hquiet
    · have hminor := hquiet.toMinor
      exact .inr ⟨hminor.plan, .inr ⟨rfl, hminor.approvedRevision, hminor.planRevision⟩⟩
    · exact .inr ⟨hquiet.toMinor.plan, .inr (hquiet.toMinor.leaves rfl)⟩
  | _ =>
    have hminor := Deed.minor hd rfl
    exact .inr ⟨hminor.plan, .inr (hminor.leaves rfl)⟩

theorem new_unapproved (hnew : New c step t') : t'.approvedRevision = none := by
  have hmade {m : Moment} {drafts : List Task} {a : Company} {u : Task} (h : Made m drafts a u) :
      u.approvedRevision = none := by
    cases h with
    | occurrence r hr occurrence fresh last hlast => rfl
    | checkIn fresh employee => rfl
    | recheck fresh description employee => rfl
  obtain ⟨m, event⟩ := step
  cases event with
  | create caller fresh draft =>
    obtain ⟨-, t, hok, hquiet⟩ := hnew
    obtain ⟨-, path, project, ht, -⟩ := createTask_cases hok
    obtain ⟨parentId, approvalRequired, reviewRequired, parentRunId, hproposal⟩ :=
      proposal_eq c.org caller fresh draft
    rw [hquiet.toMinor.approvedRevision, ht, hproposal]
    rfl
  | checkMemories caller fresh changed =>
    obtain ⟨a, u, hu, hquiet⟩ := hnew
    exact hquiet.toMinor.approvedRevision.trans (hmade hu)
  | triggerRoutine fresh routineId occurrence =>
    obtain ⟨a, u, hu, hquiet⟩ := hnew
    exact hquiet.toMinor.approvedRevision.trans (hmade hu)
  | dispatch elsewhere run fresh =>
    obtain ⟨a, u, hu, ⟨b, u₁, reserved, rootKey, hquiet, -, rfl⟩ | hquiet⟩ := hnew
    · exact hquiet.toMinor.approvedRevision.trans (hmade hu)
    · exact hquiet.toMinor.approvedRevision.trans (hmade hu)
  | _ => exact hnew.elim

theorem Judges.settled {actor : Actor} (h : Judges t actor) (event : Event)
    (hs : t'.plan = Organizations.settled event t t') : Judges t' actor := by
  have hreviewer : t'.reviewer = t.reviewer := by
    calc t'.reviewer = (Organizations.settled event t t').reviewer := congrArg Plan.reviewer hs
      _ = t.reviewer := by cases event <;> rfl
  have hassignee : t'.assignee = t.assignee := by
    calc t'.assignee = (Organizations.settled event t t').assignee := congrArg Plan.assignee hs
      _ = t.assignee := by cases event <;> rfl
  cases actor with
  | user => trivial
  | rem => exact h
  | employee id => exact ⟨hreviewer.trans h.1, hassignee ▸ h.2⟩

theorem act_approved {marks : ℕ → Option Actor} (h : Every Approved c.tasks marks) :
    Every Approved (c.act step).tasks
      ((approvalWatch edits c step).follow c.tasks (c.act step).tasks marks) := by
  refine Every.follow h (act_evolves c step).there ?_ (fun _ hnew => .inl (new_unapproved hnew))
  rintro i t t' ⟨ht, hd⟩ hold
  simp only [approvalWatch]
  rcases deed_plan ht hd with hnone | ⟨hplan, ⟨⟨actor, happroval⟩, happroved⟩ | hleaves⟩
  · exact .inl hnone
  · rw [happroval]
    exact .inr ⟨happroved, actor, rfl, (approval_judges ht happroval).settled step.2 hplan⟩
  · -- The approval is still that of the plan as it stands, and an event may have given it again.
    have hkept : edits c step i t t' = false := by
      simp [edits, hleaves.replans, hplan]
    rcases hold with hnone | ⟨happroved, actor, hmark, hjudges⟩
    · exact .inl (hleaves.approved.trans hnone)
    · refine .inr ⟨?_, ?_⟩
      · rw [hleaves.approved, hleaves.plan]
        exact happroved
      · cases happroval : c.approval step i with
        | some other => exact ⟨other, rfl, (approval_judges ht happroval).settled step.2 hplan⟩
        | none =>
          simp only [hkept, Bool.false_eq_true, if_false]
          exact ⟨actor, hmark, hjudges.settled step.2 hplan⟩

theorem run_approved {marks : ℕ → Option Actor} (h : Every Approved c.tasks marks)
    (steps : List (Moment × Event)) :
    Every Approved (c.run steps).tasks (approvals edits c marks steps) := by
  induction steps generalizing c marks with
  | nil => exact h
  | cons step steps ih => exact ih (act_approved h)

theorem dispatch_approved {m : Moment} {elsewhere : Elsewhere} {run : Str} {fresh : ℕ → Str}
    {marks : ℕ → Option Actor} {c' : Company} (h : Every Approved c.tasks marks)
    (hok : c.dispatch m elsewhere run fresh = .ok (c', some i)) (ht : c'.tasks[i]? = some t)
    (hrequired : t.approvalRequired = true) :
    ∃ t₀, c.tasks[i]? = some t₀ ∧ t.plan = { t₀.plan with dueAt := t.dueAt } ∧
      t.approvedRevision = some t.planRevision ∧ ∃ actor, marks i = some actor ∧ Judges t actor := by
  obtain ⟨n, -, a, hmoves, hstarted⟩ := dispatch_moves hok
  cases hstarted with
  | @one i u reserved rootKey hu hv =>
    obtain ⟨e, hstart⟩ := startable_of_verdict hv
    have hi : i < a.tasks.length := (List.getElem?_eq_some_iff.mp hu).1
    obtain rfl : t = claimTask run reserved u := by
      have hset : (a.startRun m i run reserved rootKey u).tasks[i]? =
          some (claimTask run reserved u) := List.getElem?_set_self hi
      exact Option.some.inj (ht.symm.trans hset)
    have hsome : u.approvedRevision ≠ none := by
      intro hnone
      have hgate : (true && u.approvedRevision.isNone) = false := hrequired ▸ hstart.approved
      rw [hnone] at hgate
      contradiction
    cases hold : c.tasks[i]? with
    | none =>
      obtain ⟨b, t₁, hmade, hquiet⟩ := hmoves.evolves.added i u hold hu
      have hnew : New c (m, .triggerRoutine [] [] []) u := ⟨b, t₁, hmade, hquiet⟩
      exact absurd (new_unapproved hnew) hsome
    | some t₀ =>
      obtain ⟨t₁, ht₁, hquiet⟩ := hmoves.evolves.kept i t₀ hold
      obtain rfl : u = t₁ := Option.some.inj (hu.symm.trans ht₁)
      have hminor := hquiet.toMinor
      refine ⟨t₀, rfl, hminor.plan, ?_⟩
      rcases h i t₀ hold with hnone | ⟨happroved, actor, hmark, hjudges⟩
      · exact absurd (hminor.approvedRevision.trans hnone) hsome
      · have hsame : u.approvedRevision = some u.planRevision := by
          rw [hminor.approvedRevision, hminor.planRevision]
          exact happroved
        have hclaimed : Judges (claimTask run reserved u) actor :=
          hjudges.settled .close hminor.plan
        exact ⟨hsame, actor, hmark, hclaimed⟩

end Events

/-! ### Runs -/

theorem found_approved {m : Moment} {config : OrganizationConfig} {package : List PackageTask}
    {c : Company} (hfound : found m config package = .ok c) :
    Every Approved c.tasks (fun _ => none) := by
  intro i t ht
  obtain ⟨p, -, project, rfl⟩ := found_task hfound ht
  exact .inl rfl

/-- From the founding of an organization on, where the scheduler starts a task whose plan needs an
approval, the user or the designated reviewer, who is not the assignee, has approved it, and since
then no event has edited it or changed more of it than it may settle. No worker removes the need. -/
theorem plans_approved_before_start {m₀ : Moment} {config : OrganizationConfig}
    {package : List PackageTask} {c : Company} (hfound : found m₀ config package = .ok c)
    (steps : List (Moment × Event)) :
    (∀ m elsewhere run fresh c' i (t : Task),
      (c.run steps).dispatch m elsewhere run fresh = .ok (c', some i) → c'.tasks[i]? = some t →
        t.approvalRequired = true →
          ∃ t₀, (c.run steps).tasks[i]? = some t₀ ∧ t.plan = { t₀.plan with dueAt := t.dueAt } ∧
            t.approvedRevision = some t.planRevision ∧
            ∃ actor, approvals edits c (fun _ => none) steps i = some actor ∧ Judges t actor) ∧
      ∀ step caller id, step.2.caller = some caller → caller.actor = .employee id →
        ∀ (i : ℕ) (t : Task), (c.run steps).tasks[i]? = some t → t.approvalRequired = true →
          ∃ t' : Task, ((c.run steps).act step).tasks[i]? = some t' ∧ t'.approvalRequired = true := by
  constructor
  · intro m elsewhere run fresh c' i t hok ht hrequired
    exact dispatch_approved (run_approved (found_approved hfound) steps) hok ht hrequired
  · intro step caller id hcaller hactor i t ht hrequired
    obtain ⟨t', ht', hgate, -⟩ := (act_gates hcaller hactor).kept i t ht
    exact ⟨t', ht', hgate.trans hrequired⟩

/-! The user makes a ticket whose plan needs an approval, for a day to come, and approves it. -/

def gatedDraft : Task where
  id := []
  title := text "Migrate the archive"
  assignee := some (text "ann")
  dueAt := some 864000
  approvalRequired := true

def gatedConfig : OrganizationConfig where
  employees := [{ id := text "ann", name := text "Ann" }]
  projectRoots := [text "/srv/archive"]

def gatedCompany : Company := { world := { org := { config := gatedConfig, running := false } } }

def gatedSteps : List (Moment × Event) :=
  [(plainMoment 0, .create { actor := .user } (text "t") gatedDraft),
    (plainMoment 1, .call { actor := .user } (text "t") (.approve 1)),
    (plainMoment 2, .control true)]

def pulledSteps : List (Moment × Event) :=
  gatedSteps ++ [(plainMoment 3, .call { actor := .user } (text "t") (.update 2 { status := some .inProgress }))]

def startedTask (c : Company) (m : Moment) : Option Task :=
  (c.dispatch m {} (text "run") (fun _ => text "u")).toOption.bind
    (fun result => result.2.bind (fun i => result.1.tasks[i]?))

theorem startedTask_cases {c : Company} {m : Moment} {t : Task} (h : startedTask c m = some t) :
    ∃ c' i, c.dispatch m {} (text "run") (fun _ => text "u") = .ok (c', some i) ∧
      c'.tasks[i]? = some t := by
  obtain ⟨⟨c', pos⟩, hresult, hpos⟩ := Option.bind_eq_some_iff.mp h
  obtain ⟨i, rfl, ht⟩ := Option.bind_eq_some_iff.mp hpos
  refine ⟨c', i, ?_, ht⟩
  cases hok : c.dispatch m {} (text "run") (fun _ => text "u") with
  | error e =>
    rw [hok] at hresult
    contradiction
  | ok result =>
    rw [hok] at hresult
    rw [Option.some.inj hresult]

theorem plans_approved_before_start_pulled :
    ∃ t, startedTask (gatedCompany.run pulledSteps) (plainMoment 4) = some t ∧
      t.approvalRequired = true ∧ t.approvedRevision = some t.planRevision := by
  have hfound : found (plainMoment 0) gatedConfig [] = .ok gatedCompany := rfl
  have hgated : (startedTask (gatedCompany.run pulledSteps) (plainMoment 4)).map
      (·.approvalRequired) = some true := by decide +kernel
  obtain ⟨t, ht, hrequired⟩ := Option.map_eq_some_iff.mp hgated
  obtain ⟨c', i, hok, hget⟩ := startedTask_cases ht
  obtain ⟨t₀, -, -, happroved, -⟩ := (plans_approved_before_start hfound pulledSteps).1
    (plainMoment 4) {} (text "run") (fun _ => text "u") c' i t hok hget hrequired
  exact ⟨t, ht, hrequired, happroved⟩

/-- Its day is a part of the plan, and has changed since. -/
theorem not_plans_approved_unchanged :
    ¬ ∀ (m₀ : Moment) (config : OrganizationConfig) (package : List PackageTask) (c : Company),
      found m₀ config package = .ok c → ∀ steps m elsewhere run fresh c' i (t : Task),
        (c.run steps).dispatch m elsewhere run fresh = .ok (c', some i) → c'.tasks[i]? = some t →
          t.approvalRequired = true →
            t.approvedRevision = some t.planRevision ∧
              ∃ actor, approvals anyChange c (fun _ => none) steps i = some actor ∧ Judges t actor := by
  intro hall
  have hfound : found (plainMoment 0) gatedConfig [] = .ok gatedCompany := rfl
  have hgated : (startedTask (gatedCompany.run pulledSteps) (plainMoment 4)).map
      (·.approvalRequired) = some true := by decide +kernel
  have honly : (gatedCompany.run pulledSteps).tasks.length = 1 := by decide +kernel
  have hmark : approvals anyChange gatedCompany (fun _ => none) pulledSteps 0 = none := by
    decide +kernel
  obtain ⟨t, ht, hrequired⟩ := Option.map_eq_some_iff.mp hgated
  obtain ⟨c', i, hok, hget⟩ := startedTask_cases ht
  obtain ⟨t₀, ht₀, -⟩ :=
    dispatch_approved (run_approved (found_approved hfound) pulledSteps) hok hget hrequired
  have hi : i < 1 := honly ▸ (List.getElem?_eq_some_iff.mp ht₀).1
  obtain rfl : i = 0 := by omega
  obtain ⟨-, actor, hactor, -⟩ := hall (plainMoment 0) gatedConfig [] gatedCompany hfound pulledSteps
    (plainMoment 4) {} (text "run") (fun _ => text "u") c' 0 t hok hget hrequired
  rw [hmark] at hactor
  contradiction

end Raticode.Organizations
