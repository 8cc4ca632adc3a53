import Raticode.OrganizationEvents

/-! What each event can do to the tasks of an organization. Beside the one change that it is about,
an event leaves a task its identity, its plan and the gates of its plan. -/
namespace Raticode.Organizations
open PyDocument OrderedDict MarkedList Attempt

/-! ### Changes that Raticode makes by itself -/

structure Upkeep where
  status : TaskStatus
  dueAt : Option ℚ
  evidence : Str
  revision : ℕ
  comments : List Comment
  turns : ℤ
  claim : Option Str
  blockReason : Str
  acceptedRevision : Option ℕ
  cancellation : Option Str
  artifacts : List Artifact
  reviewRequestedAt : Option ℚ
  acceptedAt : Option ℚ
  pulledAt : Option ℚ
  worktree : Option Str
  sharedWorktree : Option Str

def Task.upkeep (t : Task) : Upkeep where
  status := t.status
  dueAt := t.dueAt
  evidence := t.evidence
  revision := t.revision
  comments := t.comments
  turns := t.turns
  claim := t.claim
  blockReason := t.blockReason
  acceptedRevision := t.acceptedRevision
  cancellation := t.cancellation
  artifacts := t.artifacts
  reviewRequestedAt := t.reviewRequestedAt
  acceptedAt := t.acceptedAt
  pulledAt := t.pulledAt
  worktree := t.worktree
  sharedWorktree := t.sharedWorktree

def Task.kept (t : Task) (u : Upkeep) : Task :=
  { t with
    status := u.status
    dueAt := u.dueAt
    evidence := u.evidence
    revision := u.revision
    comments := u.comments
    turns := u.turns
    claim := u.claim
    blockReason := u.blockReason
    acceptedRevision := u.acceptedRevision
    cancellation := u.cancellation
    artifacts := u.artifacts
    reviewRequestedAt := u.reviewRequestedAt
    acceptedAt := u.acceptedAt
    pulledAt := u.pulledAt
    worktree := u.worktree
    sharedWorktree := u.sharedWorktree }

/-- Only the upkeep of the task changed, and its claim at most ended. -/
structure Minor (t t' : Task) : Prop where
  eq : t' = t.kept t'.upkeep
  claim : t'.claim = t.claim ∨ t'.claim = none

structure Quiet (t t' : Task) : Prop extends Minor t t' where
  turns : t'.turns = t.turns

structure Steady (t t' : Task) : Prop extends Quiet t t' where
  claimed : t'.claim = t.claim

section Upkeep

variable {t t' t'' : Task}

theorem Minor.refl (t : Task) : Minor t t := ⟨rfl, .inl rfl⟩

theorem Quiet.refl (t : Task) : Quiet t t := ⟨Minor.refl t, rfl⟩

theorem Steady.refl (t : Task) : Steady t t := ⟨Quiet.refl t, rfl⟩

theorem Minor.trans (h : Minor t t') (h' : Minor t' t'') : Minor t t'' := by
  constructor
  · calc t'' = t'.kept t''.upkeep := h'.eq
      _ = (t.kept t'.upkeep).kept t''.upkeep := congrArg (fun u => u.kept t''.upkeep) h.eq
      _ = t.kept t''.upkeep := rfl
  · rcases h'.claim with hc | hc
    · rw [hc]
      exact h.claim
    · exact .inr hc

theorem Quiet.trans (h : Quiet t t') (h' : Quiet t' t'') : Quiet t t'' :=
  ⟨h.toMinor.trans h'.toMinor, h'.turns.trans h.turns⟩

namespace Minor

variable (h : Minor t t')
include h

theorem field {α : Type} {f : Task → α} (hf : ∀ u, f (t.kept u) = f t) : f t' = f t := by
  rw [h.eq, hf]

theorem id : t'.id = t.id := h.field fun _ => rfl

theorem assignee : t'.assignee = t.assignee := h.field fun _ => rfl

theorem approvalRequired : t'.approvalRequired = t.approvalRequired := h.field fun _ => rfl

theorem reviewRequired : t'.reviewRequired = t.reviewRequired := h.field fun _ => rfl

theorem approvedRevision : t'.approvedRevision = t.approvedRevision := h.field fun _ => rfl

theorem planRevision : t'.planRevision = t.planRevision := h.field fun _ => rfl

end Minor

variable {now : ℚ}

theorem steady_blockTask (reason : Str) (t : Task) : Steady t (blockTask now reason t) := by
  unfold blockTask
  split_ifs
  · exact Steady.refl t
  · exact ⟨⟨⟨rfl, .inl rfl⟩, rfl⟩, rfl⟩

theorem steady_unblockTask (done : List Str) (t : Task) : Steady t (unblockTask done t) := by
  simp only [unblockTask]
  split_ifs
  · exact ⟨⟨⟨rfl, .inl rfl⟩, rfl⟩, rfl⟩
  · exact ⟨⟨⟨rfl, .inl rfl⟩, rfl⟩, rfl⟩
  · exact Steady.refl t
  · exact Steady.refl t

theorem quiet_cancelChild (t : Task) : Quiet t (cancelChild t) := by
  unfold cancelChild
  split_ifs
  · exact Quiet.refl t
  · exact ⟨⟨rfl, .inr rfl⟩, rfl⟩
  · exact ⟨⟨rfl, .inr rfl⟩, rfl⟩

theorem steady_cancelCheckIn (actor : Option Actor) (employee body : Str) (t : Task) :
    Steady t (cancelCheckIn now actor employee body t) := by
  unfold cancelCheckIn
  split_ifs
  · exact ⟨⟨⟨rfl, .inl rfl⟩, rfl⟩, rfl⟩
  · exact Steady.refl t

theorem quiet_recoverTask (t : Task) : Quiet t (recoverTask now t) := by
  unfold recoverTask
  split_ifs
  · exact ⟨⟨rfl, .inr rfl⟩, rfl⟩
  · exact Quiet.refl t

theorem quiet_configureTask (old new : OrganizationConfig) (disrupts : Bool) (t : Task) :
    Quiet t (configureTask now old new disrupts t) := by
  simp only [configureTask]
  split_ifs
  · exact ⟨⟨rfl, .inr rfl⟩, rfl⟩
  · exact ⟨⟨rfl, .inr rfl⟩, rfl⟩
  · exact Quiet.refl t

theorem quiet_secretTask (config : OrganizationConfig) (secret : Str) (t : Task) :
    Quiet t (secretTask config secret t) := by
  simp only [secretTask]
  split_ifs
  · exact ⟨⟨rfl, .inr rfl⟩, rfl⟩
  · exact Quiet.refl t

theorem quiet_reapTask (c : Company) (t : Task) : Quiet t (c.reapTask now t) := by
  unfold Company.reapTask
  split_ifs
  · have hcleared : Quiet t { t with claim := none } := ⟨⟨rfl, .inr rfl⟩, rfl⟩
    exact hcleared.trans (steady_blockTask stoppedReason _).toQuiet
  · exact Quiet.refl t

theorem quiet_addArtifact (a : Artifact) (t : Task) : Quiet t (addArtifact a t) :=
  ⟨⟨rfl, .inl rfl⟩, rfl⟩

theorem minor_restarted (actor : Actor) (t : Task) : Minor t (restarted now actor t) :=
  ⟨rfl, .inl rfl⟩

theorem minor_countRun (o : Outcome) (t : Task) : Minor t (countRun o t) := ⟨rfl, .inl rfl⟩

theorem minor_finishTask (o : Outcome) (t : Task) : Minor t (finishTask now o t) := by
  unfold finishTask
  split_ifs
  · exact minor_countRun o t
  · obtain ⟨comments, hheard⟩ := hearRun_eq now o (countRun o t)
    rw [hheard]
    simp only [endRun]
    split_ifs
    all_goals exact ⟨rfl, .inr rfl⟩

theorem minor_reconciledTask (r : RunRecord) (x : Settlement) (t : Task) :
    Minor t (Company.reconciledTask r x t) := ⟨rfl, .inl rfl⟩

end Upkeep

/-! ### What follows a change -/

section Follow

variable {xs ys zs : List Task} {R : ℕ → Task → Task → Prop} {N : Task → Prop}

def Keeps (xs ys : List Task) : Prop := Evolves (fun _ => Quiet) (fun _ => False) xs ys

theorem Keeps.refl (xs : List Task) : Keeps xs xs := Evolves.refl (fun _ => Quiet.refl) xs

theorem Keeps.map {f : Task → Task} (hf : ∀ t, Quiet t (f t)) (xs : List Task) : Keeps xs (xs.map f) :=
  Evolves.map (fun _ => hf) xs

theorem Keeps.set {i : ℕ} {t t' : Task} (ht : xs[i]? = some t) (h : Quiet t t') :
    Keeps xs (xs.set i t') := Evolves.set (fun _ => Quiet.refl) ht h

theorem keeps_after (h : Evolves R N xs ys) (h' : Keeps ys zs) :
    Evolves (fun i t t'' => ∃ t', R i t t' ∧ Quiet t' t'') (fun t'' => ∃ t', N t' ∧ Quiet t' t'') xs zs := by
  apply (h.trans h').mono
  · exact fun _ _ _ ht => ht
  · rintro t (hfalse | ⟨_, t', ht', hquiet⟩)
    · exact hfalse.elim
    · exact ⟨t', ht', hquiet⟩

theorem Keeps.trans (h : Keeps xs ys) (h' : Keeps ys zs) : Keeps xs zs := by
  apply (keeps_after h h').mono
  · exact fun _ _ _ ⟨_, ht, ht'⟩ => ht.trans ht'
  · exact fun _ ⟨_, hfalse, _⟩ => hfalse

theorem Keeps.ids (h : Keeps xs ys) : ys.map (·.id) = xs.map (·.id) :=
  h.map_eq (fun _ _ _ hquiet => hquiet.id) (fun _ hfalse => hfalse)

variable {w : World} {now : ℚ}

theorem keeps_unblock (w : World) : Keeps w.org.tasks w.unblock.org.tasks :=
  Keeps.map (fun t => (steady_unblockTask (finished w.org.tasks) t).toQuiet) w.org.tasks

theorem keeps_cascade (org : Org) (id : Str) : Keeps org.tasks (org.cascade id).tasks := by
  apply Keeps.map
  intro t
  split_ifs
  · exact quiet_cancelChild t
  · exact Quiet.refl t

theorem evolves_settle {actor : Actor} {call : TaskCall} {i : ℕ} {t : Task}
    (ht : w.org.tasks[i]? = some t) :
    Evolves (fun j u u' => (j = i ∧ recurs t = true ∧ t.isClaimed = false ∧
        Quiet (restarted now actor t) u') ∨ Quiet u u') (fun _ => False)
      w.org.tasks (w.settle now actor call i t).org.tasks := by
  obtain ⟨repeated, hrepeated, he⟩ : ∃ w', w' = (if !call.isComment && recurs t && !t.isClaimed then
      (w.record now i t).become .raticode none
        ((w.record now i t).org.set i (restarted now actor t)) else w) ∧
      Evolves (fun j u u' => (j = i ∧ recurs t = true ∧ t.isClaimed = false ∧
        u' = restarted now actor t) ∨ u' = u) (fun _ => False) w.org.tasks w'.org.tasks := by
    refine ⟨_, rfl, ?_⟩
    split_ifs with hc
    · simp only [Bool.and_eq_true, Bool.not_eq_true'] at hc
      exact Evolves.set (fun _ _ => .inr rfl) ht (.inl ⟨rfl, hc.1.2, hc.2, rfl⟩)
    · exact Evolves.refl (fun _ _ => .inr rfl) _
  obtain ⟨cascaded, hcascaded, hk⟩ : ∃ w', w' = (if t.status = .cancelled then
      repeated.become .raticode none (repeated.org.cascade t.id) else repeated) ∧
      Keeps repeated.org.tasks w'.org.tasks := by
    refine ⟨_, rfl, ?_⟩
    split_ifs
    · exact keeps_cascade repeated.org t.id
    · exact Keeps.refl _
  have hlast : w.settle now actor call i t = cascaded.unblock := by
    rw [hcascaded, hrepeated]
    rfl
  rw [hlast]
  apply (keeps_after he (hk.trans (keeps_unblock cascaded))).mono
  · rintro j u u'' ⟨u', ⟨rfl, hrecurs, hclaim, rfl⟩ | rfl, hquiet⟩
    · exact .inl ⟨rfl, hrecurs, hclaim, hquiet⟩
    · exact .inr hquiet
  · exact fun _ ⟨_, hfalse, _⟩ => hfalse

end Follow

/-! ### Calls and the ends of runs -/

structure Called (h : Host) (now : ℚ) (w : World) (caller : Caller) (taskId : Str) (call : TaskCall)
    (i : ℕ) (t t' : Task) : Prop where
  found : w.org.find taskId = some (i, t)
  admitted : w.org.admits caller = true
  consented : caller.actor = .rem → consentReason call t = none
  changed : ∃ t₁, changeTask h now w.org i caller.actor call t = .ok t₁ ∧
    (Quiet t₁ t' ∨ (recurs t₁ = true ∧ t₁.isClaimed = false ∧ Quiet (restarted now caller.actor t₁) t'))

section Steps

variable {h : Host} {now : ℚ} {w : World}

theorem Called.after {caller : Caller} {taskId : Str} {call : TaskCall} {i : ℕ} {t t' : Task}
    (hc : Called h now w caller taskId call i t t') :
    ∃ t₁, changeTask h now w.org i caller.actor call t = .ok t₁ ∧ Minor t₁ t' := by
  obtain ⟨t₁, hok, hquiet | ⟨-, -, hquiet⟩⟩ := hc.changed
  · exact ⟨t₁, hok, hquiet.toMinor⟩
  · exact ⟨t₁, hok, (minor_restarted caller.actor t₁).trans hquiet.toMinor⟩

theorem call_cases (h : Host) (now : ℚ) (w : World) (caller : Caller) (taskId : Str) (call : TaskCall) :
    w.call h now caller taskId call = w ∨
      ∃ i t t₁, w.org.find taskId = some (i, t) ∧ w.org.admits caller = true ∧
        (caller.actor = .rem → consentReason call t = none) ∧
        changeTask h now w.org i caller.actor call t = .ok t₁ ∧
        Evolves (fun j u u' => (j = i ∧ recurs t₁ = true ∧ t₁.isClaimed = false ∧
            Quiet (restarted now caller.actor t₁) u') ∨ Quiet u u') (fun _ => False)
          (w.org.tasks.set i t₁) (w.call h now caller taskId call).org.tasks := by
  rw [World.call]
  cases hf : w.org.find taskId with
  | none => exact .inl rfl
  | some found =>
    obtain ⟨i, t⟩ := found
    have ht := Org.getElem?_of_find hf
    simp only
    by_cases hadmits : w.org.admits caller = true
    swap
    · simp [hadmits]
    by_cases hconsent : (caller.actor = .rem && (consentReason call t).isSome) = true
    · simp [hadmits, hconsent]
    simp only [hadmits, hconsent, Bool.not_true, Bool.false_eq_true, if_false]
    cases hok : changeTask h now w.org i caller.actor call t with
    | error e => exact .inl rfl
    | ok t₁ =>
      right
      set changed : World := w.become (mover caller.actor) (accepts call i caller.actor)
        { w.org.set i t₁ with claims := claimsAfter call taskId w.org.claims } with hchanged
      have ht₁ : changed.org.tasks[i]? = some t₁ := by
        have hlen : i < w.org.tasks.length := (List.getElem?_eq_some_iff.mp ht).1
        exact List.getElem?_set_self hlen
      have hfree : caller.actor = .rem → consentReason call t = none := by
        intro hrem
        simpa [hrem] using hconsent
      exact ⟨i, t, t₁, rfl, trivial, hfree, hok, evolves_settle ht₁⟩

theorem evolves_call (h : Host) (now : ℚ) (w : World) (caller : Caller) (taskId : Str) (call : TaskCall) :
    Evolves (fun i t t' => Called h now w caller taskId call i t t' ∨ t' = t ∨
        (Quiet t t' ∧ ∀ u, w.org.find taskId ≠ some (i, u))) (fun _ => False)
      w.org.tasks (w.call h now caller taskId call).org.tasks := by
  rcases call_cases h now w caller taskId call with hsame | ⟨i, t, t₁, hf, hadmits, hfree, hok, he⟩
  · rw [hsame]
    exact Evolves.refl (fun _ _ => .inr (.inl rfl)) _
  · have hset : Evolves (fun j u u' => (j = i ∧ u = t ∧ u' = t₁) ∨ (j ≠ i ∧ u' = u)) (fun _ => False)
        w.org.tasks (w.org.tasks.set i t₁) := Evolves.set_at (Org.getElem?_of_find hf)
    apply (hset.trans he).mono
    · rintro j u u'' ⟨u', ⟨rfl, rfl, rfl⟩ | ⟨hne, rfl⟩, ⟨hj, hrecurs, hclaim, hquiet⟩ | hquiet⟩
      · exact .inl ⟨hf, hadmits, hfree, u', hok, .inr ⟨hrecurs, hclaim, hquiet⟩⟩
      · exact .inl ⟨hf, hadmits, hfree, u', hok, .inl hquiet⟩
      · exact absurd hj hne
      · refine .inr (.inr ⟨hquiet, fun v hv => hne ?_⟩)
        have hpair := hv.symm.trans hf
        exact congrArg Prod.fst (Option.some.inj hpair)
    · rintro u (hfalse | ⟨_, _, hfalse, _⟩)
      · exact hfalse
      · exact hfalse

theorem evolves_create (h : Host) (w : World) (caller : Caller) (fresh : Str) (draft : Task) :
    Evolves (fun _ => Quiet) (fun t' => w.org.admits caller = true ∧
        ∃ t, createTask h w.org caller fresh draft = .ok t ∧ Quiet t t')
      w.org.tasks (w.create h caller fresh draft).org.tasks := by
  have hstay (N : Task → Prop) : Evolves (fun _ => Quiet) N w.org.tasks w.org.tasks :=
    Evolves.refl (fun _ => Quiet.refl) _
  simp only [World.create]
  by_cases hadmits : w.org.admits caller = true
  swap
  · simpa [hadmits] using hstay _
  split_ifs
  · exact hstay _
  · cases hok : createTask h w.org caller fresh draft with
    | error e => exact hstay _
    | ok t =>
      set added : World := w.become (mover caller.actor) none (w.org.add t) with hadded
      have hadd : Evolves (fun _ u u' => u' = u) (fun u => u = t) w.org.tasks added.org.tasks :=
        Org.evolves_add rfl
      apply (keeps_after hadd (keeps_unblock added)).mono
      · rintro i u u'' ⟨u', rfl, hquiet⟩
        exact hquiet
      · rintro u'' ⟨u, rfl, hquiet⟩
        exact ⟨hadmits, u, rfl, hquiet⟩

structure SameOrg (org org' : Org) : Prop where
  config : org'.config = org.config
  running : org'.running = org.running
  generation : org'.generation = org.generation
  attempts : org'.attempts = org.attempts

theorem heartbeat_cases (now : ℚ) (w : World) (fresh employee : Str) (idle : Bool) :
    w.heartbeat now fresh employee idle = w ∨
      ∃ w' : World, Evolves (fun _ => Steady) (fun _ => False) w.org.tasks w'.org.tasks ∧
        SameOrg w.org w'.org ∧ w.heartbeat now fresh employee idle =
          w'.become .raticode none (w'.org.add (checkIn fresh employee)) := by
  have hkeeps : Evolves (fun _ => Steady) (fun _ => False) w.org.tasks
      (w.org.map (cancelCheckIn now none employee
        (text "Replaced by the next heartbeat check-in."))).tasks :=
    Evolves.map (fun _ => steady_cancelCheckIn none employee _) w.org.tasks
  set cancelled : World := w.become .raticode none (w.org.map (cancelCheckIn now none employee
      (text "Replaced by the next heartbeat check-in."))) with hcancelled
  simp only [World.heartbeat]
  split_ifs
  · exact .inl rfl
  · exact .inl rfl
  · let failures := (w.org.heartbeatFailures.get employee).getD 0
    let counted : Org := { cancelled.org with
      heartbeatFailures := cancelled.org.heartbeatFailures.set employee (failures + 1) }
    exact .inr ⟨{ cancelled with org := counted }, hkeeps, ⟨rfl, rfl, rfl, rfl⟩, rfl⟩
  · exact .inr ⟨cancelled, hkeeps, ⟨rfl, rfl, rfl, rfl⟩, rfl⟩

theorem evolves_finish (now : ℚ) (w : World) (taskId : Str) (o : Outcome) :
    Evolves (fun i t t' => (w.org.find taskId = some (i, t) ∧ Quiet (finishTask now o t) t') ∨ Quiet t t')
      (fun _ => False) w.org.tasks (w.finish now taskId o).org.tasks := by
  rw [World.finish]
  cases hf : w.org.find taskId with
  | none => exact Evolves.refl (fun _ t => .inr (Quiet.refl t)) _
  | some found =>
    obtain ⟨i, t⟩ := found
    have ht := Org.getElem?_of_find hf
    simp only
    set ended : World := World.ended now (if o.finishes t then w.record now i t else w) i t o with hended
    have htasks : ended.org.tasks = w.org.tasks.set i (finishTask now o t) := by
      rw [hended]
      split_ifs
      · rfl
      · rfl
    have hset : Evolves (fun j u u' => (j = i ∧ u = t ∧ u' = finishTask now o t) ∨ (j ≠ i ∧ u' = u))
        (fun _ => False) w.org.tasks ended.org.tasks := by
      rw [htasks]
      exact Evolves.set_at ht
    have hafter {ws : World} (hk : Keeps ended.org.tasks ws.org.tasks) : Evolves
        (fun j u u' => (some (i, t) = some (j, u) ∧ Quiet (finishTask now o u) u') ∨ Quiet u u')
        (fun _ => False) w.org.tasks ws.org.tasks := by
      apply (keeps_after hset hk).mono
      · rintro j u u'' ⟨u', ⟨rfl, rfl, rfl⟩ | ⟨-, rfl⟩, hquiet⟩
        · exact .inl ⟨rfl, hquiet⟩
        · exact .inr hquiet
      · exact fun _ ⟨_, hfalse, _⟩ => hfalse
    split_ifs
    · exact hafter (keeps_unblock ended)
    · exact hafter (Keeps.refl _)

theorem keeps_recover (now : ℚ) (w : World) : Keeps w.org.tasks (w.recover now).org.tasks := by
  unfold World.recover
  split_ifs
  · exact Keeps.refl _
  · exact Keeps.map quiet_recoverTask w.org.tasks

theorem keeps_configure (now : ℚ) (w : World) (config : OrganizationConfig) (disrupts : Bool) :
    Keeps w.org.tasks (w.configure now config disrupts).org.tasks :=
  Keeps.map (quiet_configureTask _ _ _) w.org.tasks

theorem keeps_heartbeatResume (now : ℚ) (w : World) (actor : Actor) (employee : Str) :
    Keeps w.org.tasks (w.heartbeatResume now actor employee).org.tasks := by
  unfold World.heartbeatResume
  split_ifs
  · exact Keeps.refl _
  · exact Keeps.map (fun t => (steady_cancelCheckIn _ _ _ t).toQuiet) w.org.tasks

end Steps

end Raticode.Organizations
