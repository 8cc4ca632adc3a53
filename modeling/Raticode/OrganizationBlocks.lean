import Raticode.OrganizationRuns

/-! Who may lift a block. The reason of a block carries who has set it, and workers may word it
anew: a block of the user, Rem or Raticode stands as long as its reason is none that workers may
lift. -/
namespace Raticode.Organizations
open PyDocument OrderedDict MarkedList Attempt

def Stands (t t' : Task) : Prop :=
  t.status = .blocked → mayLift t.blockReason = false →
    t'.status = .cancelled ∨ (t'.status = .blocked ∧ mayLift t'.blockReason = false)

def Words (t t' : Task) : Prop :=
  t'.status = .blocked →
    (t.status = .blocked ∧ t'.blockReason = t.blockReason) ∨ mayLift t'.blockReason = false

/-- A user's block stands, or its task was cancelled; a cancelled task stays cancelled. -/
structure Calm (t t' : Task) : Prop where
  stands : Stands t t'
  cancelled : t.status = .cancelled → t'.status = .cancelled

theorem Stands.refl (t : Task) : Stands t t := fun hb hm => .inr ⟨hb, hm⟩

theorem Words.refl (t : Task) : Words t t := fun hb => .inl ⟨hb, rfl⟩

theorem Calm.refl (t : Task) : Calm t t := ⟨Stands.refl t, fun hc => hc⟩

theorem Words.of_eq {t t' : Task} (hs : t'.status = t.status) (hr : t'.blockReason = t.blockReason) :
    Words t t' := by
  intro hb
  exact .inl ⟨hs ▸ hb, hr⟩

theorem Words.of_status {t t' : Task} (hs : t'.status ≠ .blocked) : Words t t' :=
  fun hb => absurd hb hs

theorem Words.of_reason {t t' : Task} (hr : mayLift t'.blockReason = false) : Words t t' :=
  fun _ => .inr hr

theorem Stands.of_block {t t' : Task} (hs : t'.status = .blocked) (hr : mayLift t'.blockReason = false) :
    Stands t t' :=
  fun _ _ => .inr ⟨hs, hr⟩

theorem Stands.of_status {t t' : Task} (hs : t.status ≠ .blocked) : Stands t t' :=
  fun hb => absurd hb hs

theorem mayLift_dependencies : mayLift (text "dependencies") = true := by
  simp [mayLift]

theorem mayLift_of_first {c : Char} {cs : List Char} (hd : c.toNat ≠ 'd'.toNat)
    (hb : c.toNat ≠ 'B'.toNat) : mayLift (text (String.ofList (c :: cs))) = false := by
  have hfirst : text (String.ofList (c :: cs)) = c.toNat :: cs.map Char.toNat := text_ofList _
  have hdependencies : text "dependencies" = 'd'.toNat :: _ := text_ofList ('d' :: _)
  have hblocked : text "Blocked by " = 'B'.toNat :: _ := text_ofList ('B' :: _)
  have hne : text (String.ofList (c :: cs)) ≠ text "dependencies" := by
    rw [hfirst, hdependencies]
    exact fun he => hd (List.cons.inj he).1
  have hprefix : (text "Blocked by ").isPrefixOf (text (String.ofList (c :: cs))) = false := by
    rw [hfirst, hblocked, List.isPrefixOf, beq_eq_false_iff_ne.mpr hb.symm, Bool.false_and]
  have hnil : text (String.ofList (c :: cs)) ≠ [] := by
    rw [hfirst]
    exact List.cons_ne_nil _ _
  simp only [mayLift, hne, hprefix, hnil, decide_false, Bool.false_and, Bool.or_self]

/-! ### What Raticode does -/

section Raticode

variable {now : ℚ} {t : Task}

theorem unblockTask_calm (done : List Str) (t : Task) : Calm t (unblockTask done t) := by
  constructor
  · intro hb hm
    have hreason : t.blockReason ≠ text "dependencies" := by
      intro he
      rw [he, mayLift_dependencies] at hm
      contradiction
    right
    simp [unblockTask, hb, hm, hreason]
  · intro hc
    simp [unblockTask, hc]

theorem cancelChild_calm (t : Task) : Calm t (cancelChild t) := by
  constructor
  · intro hb hm
    left
    simp [cancelChild, hb]
  · intro hc
    simp [cancelChild, hc]

theorem cancelChild_words (t : Task) : Words t (cancelChild t) := by
  by_cases hc : (t.status = .done || t.status = .cancelled) = true
  · simp only [cancelChild, hc, if_true]
    exact Words.refl t
  · exact Words.of_status (by simp [cancelChild, hc])

theorem restarted_calm {actor : Actor} (h : recurs t = true) : Calm t (restarted now actor t) := by
  have hdone : t.status = .done := by
    simp only [recurs, Bool.and_eq_true, decide_eq_true_eq] at h
    exact h.1.1
  constructor
  · exact Stands.of_status (by simp [hdone])
  · simp [hdone]

theorem blockTask_stands {reason : Str} (hr : mayLift reason = false) (u : Task) :
    Stands u (blockTask now reason t) := by
  simp only [blockTask]
  split_ifs with hc
  · simp only [Bool.and_eq_true, decide_eq_true_eq] at hc
    exact Stands.of_block hc.1 (hc.2 ▸ hr)
  · exact Stands.of_block rfl hr

theorem blockTask_words {reason : Str} (hr : mayLift reason = false) (u : Task) :
    Words u (blockTask now reason t) := by
  simp only [blockTask]
  split_ifs with hc
  · simp only [Bool.and_eq_true, decide_eq_true_eq] at hc
    exact Words.of_reason (hc.2 ▸ hr)
  · exact Words.of_reason hr

def executionErrors : List String :=
  ["Execution target is missing or outside employee grants",
    "Workflow turnLimit must be between 1 and 1000", "Workflow execution requires a contract",
    "Execution must name an owner-granted targetId", "Unknown employee",
    "Read-only employees cannot launch delegated execution"]

theorem targetFor_error {config : OrganizationConfig} {e : String}
    (he : targetFor config t = .error e) : e ∈ executionErrors := by
  simp only [targetFor] at he
  split at he
  · split_ifs at he
    cases he
    simp [executionErrors]
  · cases he
    simp [executionErrors]

theorem reservation_error {config : OrganizationConfig} {e : String}
    (he : reservation config t = .error e) : e ∈ executionErrors := by
  simp only [reservation] at he
  split at he
  · contradiction
  · split_ifs at he
    · split at he
      · split_ifs at he
        cases he
        simp [executionErrors]
      · cases he
        simp [executionErrors]
    · cases ht : targetFor config t with
      | error e' =>
        rw [ht] at he
        cases he
        exact targetFor_error ht
      | ok x =>
        rw [ht] at he
        contradiction

theorem validateExecution_error {config : OrganizationConfig} {e : String}
    (he : validateExecution config t = .error e) : e ∈ executionErrors := by
  simp only [validateExecution] at he
  split at he
  · contradiction
  · rename_i spec _
    have last {c c' : Bool} (he : (do
        require c "Unknown employee"
        require c' "Read-only employees cannot launch delegated execution"
        let _ ← reservation config t
        pure () : Except String Unit) = .error e) : e ∈ executionErrors := by
      rcases bind_error he with he | ⟨-, -, he⟩
      · exact require_error he ▸ by simp [executionErrors]
      rcases bind_error he with he | ⟨-, -, he⟩
      · exact require_error he ▸ by simp [executionErrors]
      rcases bind_error he with he | ⟨-, -, he⟩
      · exact reservation_error he
      · contradiction
    split_ifs at he
    · rcases bind_error he with he | ⟨-, -, he⟩
      · exact require_error he ▸ by simp [executionErrors]
      · exact last he
    · rcases bind_error he with he | ⟨-, -, he⟩
      · exact require_error he ▸ by simp [executionErrors]
      rcases bind_error he with he | ⟨-, -, he⟩
      · exact targetFor_error he
      · exact last he

theorem executionError_mem {config : OrganizationConfig} {e : String}
    (he : executionError config t = some e) : e ∈ executionErrors := by
  simp only [executionError] at he
  split at he
  · rename_i hr
    cases he
    exact reservation_error hr
  · rename_i hv
    cases he
    exact validateExecution_error hv
  · contradiction

theorem executionErrors_stand : ∀ e ∈ executionErrors, mayLift (text e) = false := by
  simp only [executionErrors, List.forall_mem_cons, List.not_mem_nil, false_imp_iff, implies_true,
    and_true]
  and_intros
  all_goals exact mayLift_of_first (by decide) (by decide)

theorem Hold.reason_stands {config : OrganizationConfig} {r : Hold} {message : Str}
    (hm : r.reason config t = some message) : mayLift message = false := by
  cases r with
  | refused =>
    obtain ⟨e, he, rfl⟩ := Option.map_eq_some_iff.mp hm
    exact executionErrors_stand e (executionError_mem he)
  | turnLimit | noProject | outsideGrants | unauthorized | tooSmall =>
    cases hm
    exact mayLift_of_first (by decide) (by decide)

theorem blockReason_stands (o : Outcome) : mayLift o.blockReason = false := by
  simp only [Outcome.blockReason]
  split_ifs <;> exact mayLift_of_first (by decide) (by decide)

theorem endRun_stands (o : Outcome) (t : Task) : Stands t (endRun now o t) := by
  intro hb hm
  have hprogress : t.status ≠ .inProgress := by simp [hb]
  have hrecurs : recurs t = false := by simp [recurs, hb]
  by_cases hfailed : o.failed = true
  · simp only [endRun, hprogress, hfailed, decide_false, Bool.and_false, if_true]
    exact .inr ⟨rfl, blockReason_stands o⟩
  · simp only [endRun, hprogress, hfailed, hrecurs, decide_false, Bool.and_false, Bool.false_and]
    exact .inr ⟨hb, hm⟩

theorem endRun_words (o : Outcome) (t : Task) : Words t (endRun now o t) := by
  simp only [endRun]
  split_ifs
  · exact Words.of_status (by simp)
  · exact Words.of_reason (blockReason_stands o)
  · exact Words.of_status (by simp)
  · exact Words.of_status (by simp)
  · exact Words.of_status (by simp [nextOccurrence])
  · exact Words.refl t

theorem finishTask_stands (o : Outcome) (t : Task) : Stands t (finishTask now o t) := by
  intro hb hm
  rcases finishTask_cases now o t with ⟨-, turns, cancellation, he⟩ |
    ⟨-, comments, turns, cancellation, he⟩
  · exact he ▸ .inr ⟨hb, hm⟩
  · exact he ▸ endRun_stands o { t with comments, turns, cancellation } hb hm

theorem finishTask_words (o : Outcome) (t : Task) : Words t (finishTask now o t) := by
  rcases finishTask_cases now o t with ⟨-, turns, cancellation, he⟩ |
    ⟨-, comments, turns, cancellation, he⟩
  · exact he ▸ Words.of_eq rfl rfl
  · exact he ▸ endRun_words o { t with comments, turns, cancellation }

theorem reasons_stand : ∀ reason ∈ [interruptedReason, stoppedReason, orphanedReason,
    reconfiguredReason, secretReason], mayLift reason = false := by
  simp only [List.forall_mem_cons, List.not_mem_nil, false_imp_iff, implies_true, and_true]
  and_intros
  all_goals exact mayLift_of_first (by decide) (by decide)

theorem recoverTask_stands (t : Task) : Stands t (recoverTask now t) := by
  simp only [recoverTask]
  split_ifs
  · exact Stands.of_block rfl (reasons_stand interruptedReason (by simp))
  · exact Stands.refl t

theorem recoverTask_words (t : Task) : Words t (recoverTask now t) := by
  simp only [recoverTask]
  split_ifs
  · exact Words.of_reason (reasons_stand interruptedReason (by simp))
  · exact Words.refl t

theorem configureTask_block (now : ℚ) (old new : OrganizationConfig) (disrupts : Bool) (t : Task) :
    configureTask now old new disrupts t = t ∨
      ((configureTask now old new disrupts t).status = .blocked ∧
        mayLift (configureTask now old new disrupts t).blockReason = false) := by
  by_cases hc : (t.isClaimed && (disrupts || t.assignee.any (affected old new)) || orphaned new t) = true
  · right
    simp only [configureTask, hc, if_true, true_and]
    split_ifs
    · exact reasons_stand orphanedReason (by simp)
    · exact reasons_stand reconfiguredReason (by simp)
  · left
    simp only [configureTask, hc]
    rfl

theorem configureTask_stands {old new : OrganizationConfig} {disrupts : Bool} (t : Task) :
    Stands t (configureTask now old new disrupts t) := by
  rcases configureTask_block now old new disrupts t with he | ⟨hs, hr⟩
  · rw [he]
    exact Stands.refl t
  · exact Stands.of_block hs hr

theorem configureTask_words {old new : OrganizationConfig} {disrupts : Bool} (t : Task) :
    Words t (configureTask now old new disrupts t) := by
  rcases configureTask_block now old new disrupts t with he | ⟨-, hr⟩
  · rw [he]
    exact Words.refl t
  · exact Words.of_reason hr

theorem secretTask_stands {config : OrganizationConfig} {id : Str} (t : Task) :
    Stands t (secretTask config id t) := by
  simp only [secretTask]
  split_ifs
  · exact Stands.of_block rfl (reasons_stand secretReason (by simp))
  · exact Stands.refl t

theorem secretTask_words {config : OrganizationConfig} {id : Str} (t : Task) :
    Words t (secretTask config id t) := by
  simp only [secretTask]
  split_ifs
  · exact Words.of_reason (reasons_stand secretReason (by simp))
  · exact Words.refl t

theorem cancelCheckIn_calm {actor : Option Actor} {employee body : Str} (t : Task) :
    Calm t (cancelCheckIn now actor employee body t) := by
  simp only [cancelCheckIn]
  split_ifs
  · exact ⟨fun _ _ => .inl rfl, fun _ => rfl⟩
  · exact Calm.refl t

theorem cancelCheckIn_words {actor : Option Actor} {employee body : Str} (t : Task) :
    Words t (cancelCheckIn now actor employee body t) := by
  simp only [cancelCheckIn]
  split_ifs
  · exact Words.of_status (by simp)
  · exact Words.refl t

end Raticode

/-! ### What callers do -/

section Calls

variable {h : Host} {now : ℚ} {org : Org} {i : ℕ} {actor : Actor} {t t' : Task}

def keepsReason : TaskCall → Bool
  | .update _ changes => changes.blockReason.all (fun reason => !mayLift reason)
  | _ => true

def wordsBlock (call : TaskCall) (t : Task) : Bool :=
  match call with
  | .review _ .reject _ => !mayLift t.blockReason
  | .update _ changes =>
    let reason := changes.blockReason.getD t.blockReason
    if changes.status.getD t.status ≠ .blocked then true
    else if t.status = .blocked then reason = t.blockReason || !mayLift reason
    else reason = [] || !mayLift reason
  | _ => true

theorem getD_differing {α : Type} [DecidableEq α] (c : Option α) (x : α) :
    (c.filter (· ≠ x)).getD x = c.getD x := by
  cases c with
  | none => rfl
  | some y => by_cases hy : y = x <;> simp [Option.filter, hy]

theorem filter_eq_of_getD {α : Type} [DecidableEq α] {c : Option α} {x y : α} (hc : c.getD x = y) :
    c.filter (· ≠ x) = if y = x then none else some y := by
  cases c with
  | none =>
    cases hc
    simp
  | some z =>
    cases hc
    by_cases hz : z = x <;> simp [Option.filter, hz]

theorem differing_status (asked : Changes) (t : Task) :
    ((asked.differing t).status).getD t.status = asked.status.getD t.status :=
  getD_differing asked.status t.status

theorem differing_blockReason (asked : Changes) (t : Task) :
    ((asked.differing t).blockReason).getD t.blockReason = asked.blockReason.getD t.blockReason :=
  getD_differing asked.blockReason t.blockReason

theorem candidate_status {config : OrganizationConfig} (asked : Changes) :
    (candidate now config actor asked t).status =
      if pulls (asked.differing t) t then .todo else asked.status.getD t.status := by
  by_cases hp : pulls (asked.differing t) t = true
  · simp [candidate, candidateOf, Changes.apply, pulledForward, hp]
  · have hs := differing_status asked t
    simp [candidate, candidateOf, Changes.apply, pulledForward, hp, hs]

theorem candidate_blockReason {config : OrganizationConfig} {asked : Changes}
    (hs : (asked.differing t).status = none) :
    (candidate now config actor asked t).blockReason = asked.blockReason.getD t.blockReason := by
  have hp : pulls (asked.differing t) t = false := by simp [pulls, hs]
  have hr := differing_blockReason asked t
  simp [candidate, candidateOf, Changes.apply, pulledForward, hp, hs, hr]

theorem candidate_blocked {config : OrganizationConfig} {asked : Changes}
    (hs : (asked.differing t).status = some .blocked) :
    (candidate now config actor asked t).blockReason =
      if asked.blockReason.getD t.blockReason = [] then blockedBy (blockerName config actor)
      else asked.blockReason.getD t.blockReason := by
  have hp : pulls (asked.differing t) t = false := by simp [pulls, hs]
  have hr := differing_blockReason asked t
  simp [candidate, candidateOf, Changes.apply, pulledForward, hp, hs, hr]

theorem changeTask_stands {call : TaskCall} (hemployee : actor.employee?.isSome)
    (hreason : keepsReason call = true) (hok : changeTask h now org i actor call t = .ok t') :
    Stands t t' := by
  intro hb hm
  cases call with
  | comment body unblock =>
    obtain ⟨comments, rfl | ⟨hmay, -, rfl⟩⟩ := commentTask_ok hok
    · exact .inr ⟨hb, hm⟩
    · rw [employeeMayUnblock, hm] at hmay
      exact absurd (hmay hemployee) (by decide)
  | approve expectedRevision =>
    obtain rfl := approveTask_ok hok
    exact .inr ⟨hb, hm⟩
  | review expectedRevision decision body =>
    obtain ⟨-, -, hreview, -⟩ := reviewTask_ok hok
    rw [hb] at hreview
    contradiction
  | reopen expectedRevision asked =>
    obtain ⟨-, hmay, -⟩ := reopenTask_ok hok
    have hlift := hmay hemployee hb
    rw [employeeMayUnblock, hm] at hlift
    contradiction
  | update expectedRevision asked =>
    obtain ⟨c, hc, hstatus, -, -, path, project, comments, rfl⟩ := updateTask_ok hok
    have hs : c.status = if pulls (asked.differing t) t then .todo else asked.status.getD t.status :=
      hc ▸ candidate_status asked
    rcases hstatus hemployee hb hm with hd | hd | hd
    · right
      have hp : pulls (asked.differing t) t = false := by simp [pulls, hd]
      have hsame : asked.status.getD t.status = t.status := by
        rw [← differing_status, hd]
        rfl
      rw [hp, hsame] at hs
      refine ⟨hs.trans hb, ?_⟩
      have hr : c.blockReason = asked.blockReason.getD t.blockReason := hc ▸ candidate_blockReason hd
      change mayLift c.blockReason = false
      rw [hr]
      cases hasked : asked.blockReason with
      | none => exact hm
      | some reason => simpa [keepsReason, hasked] using hreason
    · -- A change that agrees with the task is none.
      simp [Changes.differing, hb, Option.filter_eq_some_iff] at hd
    · left
      have hp : pulls (asked.differing t) t = false := by simp [pulls, hd]
      have hset : asked.status.getD t.status = .cancelled := by
        rw [← differing_status, hd]
        rfl
      rw [hp, hset] at hs
      exact hs

theorem blockedBy_stands {config : OrganizationConfig} (hactor : actor.employee? = none) :
    mayLift (blockedBy (blockerName config actor)) = false := by
  cases actor with
  | user => exact (by decide : mayLift (blockedBy (text "you")) = false)
  | rem => exact (by decide : mayLift (blockedBy (text "Rem")) = false)
  | employee id => contradiction

theorem changeTask_words {call : TaskCall} (hactor : actor.employee? = none)
    (hwords : wordsBlock call t = true) (hok : changeTask h now org i actor call t = .ok t') :
    Words t t' := by
  cases call with
  | comment body unblock =>
    obtain ⟨comments, rfl | ⟨-, -, rfl⟩⟩ := commentTask_ok hok
    · exact Words.of_eq rfl rfl
    · exact Words.of_status (by simp)
  | approve expectedRevision =>
    obtain rfl := approveTask_ok hok
    exact Words.of_eq rfl rfl
  | review expectedRevision decision body =>
    obtain ⟨-, -, -, comments, acceptedAt, evidence, project, rfl⟩ := reviewTask_ok hok
    cases decision with
    | accept => exact Words.of_status (by simp [Decision.status])
    | revise => exact Words.of_status (by simp [Decision.status])
    | reject => exact Words.of_reason (by simpa [wordsBlock] using hwords)
  | reopen expectedRevision asked =>
    obtain ⟨-, -, turns, rfl⟩ := reopenTask_ok hok
    exact Words.of_status (by simp)
  | update expectedRevision asked =>
    obtain ⟨c, hc, -, -, -, path, project, comments, rfl⟩ := updateTask_ok hok
    have hs : c.status = if pulls (asked.differing t) t then .todo else asked.status.getD t.status :=
      hc ▸ candidate_status asked
    intro hb
    change c.status = .blocked at hb
    change (t.status = .blocked ∧ c.blockReason = t.blockReason) ∨ mayLift c.blockReason = false
    have hset : asked.status.getD t.status = .blocked := by
      cases hp : pulls (asked.differing t) t
      · rw [← hb, hs, hp]
        rfl
      · rw [hp, hb] at hs
        contradiction
    simp only [wordsBlock, hset, ne_eq, not_true_eq_false, if_false] at hwords
    by_cases ht : t.status = .blocked
    · have hd : (asked.differing t).status = none := by
        rw [Changes.differing, filter_eq_of_getD hset, if_pos ht.symm]
      have hr : c.blockReason = asked.blockReason.getD t.blockReason := hc ▸ candidate_blockReason hd
      simp only [ht, if_true, Bool.or_eq_true, decide_eq_true_eq, Bool.not_eq_true'] at hwords
      rw [hr]
      exact hwords.imp (fun he => ⟨ht, he⟩) id
    · have hd : (asked.differing t).status = some .blocked := by
        rw [Changes.differing, filter_eq_of_getD hset, if_neg (Ne.symm ht)]
      have hr : c.blockReason = if asked.blockReason.getD t.blockReason = [] then
          blockedBy (blockerName org.config actor) else asked.blockReason.getD t.blockReason :=
        hc ▸ candidate_blocked hd
      simp only [ht, if_false, Bool.or_eq_true, decide_eq_true_eq, Bool.not_eq_true'] at hwords
      right
      rw [hr]
      split_ifs with hempty
      · exact blockedBy_stands hactor
      · exact hwords.resolve_left hempty

end Calls

end Raticode.Organizations
