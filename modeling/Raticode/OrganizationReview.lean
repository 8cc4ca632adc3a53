import Raticode.Guarded
import Raticode.OrganizationRuns

/-! Independent review: what stands behind the acceptance of a task that needs one. -/
namespace Raticode.Organizations
open PyDocument OrderedDict MarkedList Guarded

def Judges (t : Task) : Actor → Prop
  | .user => True
  | .rem => False
  | .employee id => t.reviewer = some id ∧ t.assignee ≠ some id

/-- The task was accepted by one who may, and since then no run of it has ended and neither its
evidence nor its artifacts nor its plan have changed. -/
def Fresh (t : Task) (m : Marks) : Prop := ∃ actor, m.accepted = some actor ∧ Judges t actor

/-- A task that needs a review is accepted where it is done, carries no acceptance while it runs,
and none that is not fresh. -/
structure Reviewed (t : Task) (m : Marks) : Prop where
  done : t.reviewRequired = true → t.status = .done → t.acceptedRevision.isSome
  running : t.reviewRequired = true → t.isClaimed = true → t.acceptedRevision = none
  fresh : t.reviewRequired = true → t.acceptedRevision.isSome → Fresh t m

/-- The review of a task goes on: nothing it rests on changes, and it is done only once accepted. -/
structure Continues (t t' : Task) : Prop where
  review : t'.reviewRequired = t.reviewRequired
  reviewer : t'.reviewer = t.reviewer
  assignee : t'.assignee = t.assignee
  accepted : t'.acceptedRevision = t.acceptedRevision
  done : t.reviewRequired = true → t'.status = .done → t.status = .done ∨ t.acceptedRevision.isSome
  claim : t'.claim = t.claim ∨ t'.claim = none
  evidence : t.reviewRequired = true → t'.evidence = t.evidence
  artifacts : t'.artifacts = t.artifacts
  plan : t'.planRevision = t.planRevision

structure Unaccepted (t : Task) : Prop where
  accepted : t.acceptedRevision = none
  done : t.reviewRequired = true → t.status ≠ .done

theorem Continues.refl (t : Task) : Continues t t where
  review := rfl
  reviewer := rfl
  assignee := rfl
  accepted := rfl
  done _ hd := .inl hd
  claim := .inl rfl
  evidence _ := rfl
  artifacts := rfl
  plan := rfl

theorem Unaccepted.reviewed {t : Task} (h : Unaccepted t) (m : Marks) : Reviewed t m := by
  refine ⟨fun hr hd => absurd hd (h.done hr), fun _ _ => h.accepted, fun _ ha => ?_⟩
  rw [h.accepted] at ha
  contradiction

section Watching

variable {t t' : Task} {m : Marks} {v : Mover} {i : ℕ}

theorem Reviewed.continues (h : Reviewed t m) (hc : Continues t t') :
    Reviewed t' ((watch v none).seen i t t' m) := by
  constructor
  · intro hr hd
    rw [hc.review] at hr
    rw [hc.accepted]
    rcases hc.done hr hd with hdone | hsome
    · exact h.done hr hdone
    · exact hsome
  · intro hr hclaim
    rw [hc.review] at hr
    rw [hc.accepted]
    apply h.running hr
    rcases hc.claim with he | he
    · simpa only [Task.isClaimed, he] using hclaim
    · simp [Task.isClaimed, he] at hclaim
  · intro hr ha
    rw [hc.review] at hr
    rw [hc.accepted] at ha
    obtain ⟨actor, hactor, hjudges⟩ := h.fresh hr ha
    have hidle : t.isClaimed = false := by
      by_contra hclaim
      rw [Bool.not_eq_false] at hclaim
      rw [h.running hr hclaim] at ha
      contradiction
    refine ⟨actor, ?_, ?_⟩
    · simp [watch, renewed, hidle, hc.evidence hr, hc.artifacts, hc.plan, hactor]
    · cases actor with
      | user => trivial
      | rem => exact hjudges
      | employee id => exact ⟨hc.reviewer.trans hjudges.1, hc.assignee ▸ hjudges.2⟩

end Watching

/-! ### What Raticode does -/

section Raticode

variable {now : ℚ} {t : Task}

theorem unblockTask_continues (done : List Str) (t : Task) : Continues t (unblockTask done t) := by
  simp only [unblockTask]
  split_ifs
  · constructor <;> simp
  · constructor <;> simp
  · exact Continues.refl t
  · exact Continues.refl t

theorem cancelChild_continues (t : Task) : Continues t (cancelChild t) := by
  by_cases hc : (t.status = .done || t.status = .cancelled) = true
  · simp only [cancelChild, hc, if_true]
    exact Continues.refl t
  · simp only [cancelChild, hc]
    constructor <;> simp

theorem restarted_continues {actor : Actor} (t : Task) : Continues t (restarted now actor t) := by
  constructor <;> simp [restarted, nextOccurrence, Task.withComment]

theorem blockTask_continues (reason : Str) (t : Task) : Continues t (blockTask now reason t) := by
  simp only [blockTask]
  split_ifs
  · exact Continues.refl t
  · constructor <;> simp [Task.withComment]

theorem stopped_continues (t : Task) :
    Continues t (blockTask now stoppedReason { t with claim := none }) := by
  simp only [blockTask]
  split_ifs
  · exact ⟨rfl, rfl, rfl, rfl, fun _ hd => .inl hd, .inr rfl, fun _ => rfl, rfl, rfl⟩
  · constructor <;> simp [Task.withComment]

theorem recoverTask_continues (t : Task) : Continues t (recoverTask now t) := by
  simp only [recoverTask]
  split_ifs
  · constructor <;> simp [Task.withComment]
  · exact Continues.refl t

theorem configureTask_continues {old new : OrganizationConfig} {disrupts : Bool} (t : Task) :
    Continues t (configureTask now old new disrupts t) := by
  by_cases hc : (t.isClaimed && (disrupts || t.assignee.any (affected old new)) || orphaned new t) = true
  · simp only [configureTask, hc, if_true]
    constructor <;> simp [Task.withComment]
  · simp only [configureTask, hc]
    exact Continues.refl t

theorem secretTask_continues {config : OrganizationConfig} {id : Str} (t : Task) :
    Continues t (secretTask config id t) := by
  simp only [secretTask]
  split_ifs
  · constructor <;> simp
  · exact Continues.refl t

theorem cancelCheckIn_continues {actor : Option Actor} {employee body : Str} (t : Task) :
    Continues t (cancelCheckIn now actor employee body t) := by
  simp only [cancelCheckIn]
  split_ifs
  · constructor <;> simp [Task.withComment]
  · exact Continues.refl t

theorem endRun_continues {o : Outcome}
    (hclose : t.reviewRequired = true → ¬ (o.failed = false ∧ t.status = .inProgress ∧
      isHeartbeat t = true)) : Continues t (endRun now o t) := by
  simp only [endRun]
  split_ifs with hpaused hfailed hheartbeat hprogress hrecurs
  · constructor <;> simp [Task.withComment]
  · constructor <;> simp [Task.withComment]
  · have hnone : t.reviewRequired = false := by
      by_contra hr
      rw [Bool.not_eq_false] at hr
      simp only [Bool.and_eq_true, decide_eq_true_eq] at hheartbeat
      exact hclose hr ⟨by simpa using hfailed, hheartbeat.1, hheartbeat.2⟩
    constructor <;> simp [hnone]
  · constructor <;> simp
  · constructor <;> simp [nextOccurrence]
  · exact Continues.refl t

theorem finishTask_continues {o : Outcome}
    (hclose : t.reviewRequired = true → o.closes t = false) : Continues t (finishTask now o t) := by
  rcases finishTask_cases now o t with ⟨-, turns, cancellation, he⟩ |
    ⟨hclaim, comments, turns, cancellation, he⟩
  · rw [he]
    exact ⟨rfl, rfl, rfl, rfl, fun _ hd => .inl hd, .inl rfl, fun _ => rfl, rfl, rfl⟩
  · have hend : Continues { t with comments, turns, cancellation }
        (endRun now o { t with comments, turns, cancellation }) := by
      apply endRun_continues
      rintro hr ⟨hfailed, hstatus, hbeat⟩
      have hcloses := hclose hr
      simp only [Outcome.closes, hclaim, hfailed, decide_true, Bool.not_false, Bool.true_and,
        Bool.and_eq_false_iff, decide_eq_false_iff_not] at hcloses
      rcases hcloses with hno | hno
      · exact hno hstatus
      · exact Bool.noConfusion (hno.symm.trans hbeat)
    rw [he]
    exact ⟨hend.review, hend.reviewer, hend.assignee, hend.accepted, hend.done, .inr rfl,
      hend.evidence, hend.artifacts, hend.plan⟩

end Raticode

/-! ### What callers do -/

section Calls

variable {h : Host} {now : ℚ} {org : Org} {i : ℕ} {actor : Actor} {t t' : Task}

theorem getD_of_isSome_eq_false {α : Type} {c : Option α} (hc : c.isSome = false) (x : α) :
    c.getD x = x := by
  rw [Option.isSome_eq_false_iff, Option.isNone_iff_eq_none] at hc
  rw [hc]
  rfl

theorem candidate_continues {config : OrganizationConfig} {asked : Changes} {c : Task}
    (hc : c = candidate now config actor asked t)
    (hstay : (pulledForward (asked.differing t) t).beyond [.status, .blockReason] = false)
    (hreview : c.reviewRequired = true → c.status = .done → c.acceptedRevision.isSome) :
    Continues t c := by
  set changes := pulledForward (asked.differing t) t with hchanges
  have hwithin : changes.beyond outputFields = false := by
    rw [Changes.beyond, List.any_eq_false]
    intro f hf
    have hone := List.any_eq_false.mp hstay f hf
    cases f <;> simp_all [outputFields]
  have hfield {f : TaskField} (hf : f ∉ [TaskField.status, .blockReason]) : changes.has f = false :=
    Changes.has_eq_false hstay hf
  have hreviewRequired : c.reviewRequired = t.reviewRequired :=
    hc ▸ getD_of_isSome_eq_false (hfield (f := .reviewRequired) (by decide)) _
  have haccepted : c.acceptedRevision = t.acceptedRevision := by
    subst hc
    simp only [candidate, candidateOf, ← hchanges, hstay]
    rfl
  refine ⟨hreviewRequired, ?_, ?_, haccepted, ?_, ?_, ?_, ?_, ?_⟩
  · exact hc ▸ getD_of_isSome_eq_false (hfield (f := .reviewer) (by decide)) _
  · exact hc ▸ getD_of_isSome_eq_false (hfield (f := .assignee) (by decide)) _
  · exact fun hr hd => .inr (haccepted ▸ hreview (hreviewRequired.trans hr) hd)
  · subst hc
    simp only [candidate, candidateOf]
    split_ifs
    · exact .inr rfl
    · exact .inl rfl
  · exact fun _ => hc ▸ getD_of_isSome_eq_false (hfield (f := .evidence) (by decide)) _
  · exact hc ▸ getD_of_isSome_eq_false (hfield (f := .artifacts) (by decide)) _
  · subst hc
    simp only [candidate, candidateOf, ← hchanges, hwithin]
    rfl

theorem candidate_unaccepted {config : OrganizationConfig} {asked : Changes} {c : Task}
    (hc : c = candidate now config actor asked t)
    (hmore : (pulledForward (asked.differing t) t).beyond [.status, .blockReason] = true)
    (hreview : c.reviewRequired = true → c.status = .done → c.acceptedRevision.isSome) :
    Unaccepted c := by
  have hnone : c.acceptedRevision = none := by
    subst hc
    simp only [candidate, candidateOf, hmore, if_true]
  refine ⟨hnone, fun hr hd => ?_⟩
  have hsome := hreview hr hd
  rw [hnone] at hsome
  contradiction

theorem changeTask_review {call : TaskCall} (hok : changeTask h now org i actor call t = .ok t') :
    (Continues t t' ∧ accepts call i actor = none) ∨ Unaccepted t' ∨
      (accepts call i actor = some (i, actor) ∧ t'.reviewRequired = t.reviewRequired ∧
        t'.isClaimed = false ∧ t'.acceptedRevision.isSome ∧ (actor ≠ .rem → Judges t' actor)) := by
  cases call with
  | comment body unblock =>
    left
    obtain ⟨comments, rfl | ⟨-, -, rfl⟩⟩ := commentTask_ok hok
    · exact ⟨⟨rfl, rfl, rfl, rfl, fun _ hd => .inl hd, .inl rfl, fun _ => rfl, rfl, rfl⟩, rfl⟩
    · refine ⟨?_, rfl⟩
      constructor <;> simp
  | approve expectedRevision =>
    left
    obtain rfl := approveTask_ok hok
    exact ⟨⟨rfl, rfl, rfl, rfl, fun _ hd => .inl hd, .inl rfl, fun _ => rfl, rfl, rfl⟩, rfl⟩
  | review expectedRevision decision body =>
    obtain ⟨hjudge, hclaim, -, comments, acceptedAt, evidence, project, rfl⟩ := reviewTask_ok hok
    cases decision with
    | accept =>
      refine .inr (.inr ⟨rfl, rfl, hclaim, rfl, fun hrem => ?_⟩)
      cases actor with
      | user => trivial
      | rem => contradiction
      | employee id =>
        simp only [mayJudge, Actor.employee?, Option.all_some, Bool.and_eq_true,
          decide_eq_true_eq] at hjudge
        exact ⟨hjudge.2, hjudge.1⟩
    | revise => exact .inr (.inl ⟨rfl, fun _ => by simp [Decision.status]⟩)
    | reject => exact .inr (.inl ⟨rfl, fun _ => by simp [Decision.status]⟩)
  | reopen expectedRevision asked =>
    obtain ⟨-, -, turns, rfl⟩ := reopenTask_ok hok
    exact .inr (.inl ⟨rfl, fun _ => by simp⟩)
  | update expectedRevision asked =>
    obtain ⟨c, hc, -, -, hreview, path, project, comments, rfl⟩ := updateTask_ok hok
    cases hb : (pulledForward (asked.differing t) t).beyond [.status, .blockReason] with
    | false =>
      have hcont := candidate_continues hc hb hreview
      exact .inl ⟨⟨hcont.review, hcont.reviewer, hcont.assignee, hcont.accepted, hcont.done,
        hcont.claim, hcont.evidence, hcont.artifacts, hcont.plan⟩, rfl⟩
    | true =>
      have hnone := candidate_unaccepted hc hb hreview
      exact .inr (.inl ⟨hnone.accepted, hnone.done⟩)

end Calls

end Raticode.Organizations
