import Raticode.OrganizationAccounts

/-! What a run can still do once no task has it any more: nothing but give back what it has not used. -/
namespace Raticode.Organizations
open PyDocument OrderedDict MarkedList Attempt

/-- A run was started, and no task has it any more. -/
structure Revoked (c : Company) (run : Str) : Prop where
  started : (c.org.attempts.get run).isSome
  lost : ∀ t ∈ c.tasks, t.claim ≠ some run

/-- The run calls: its worker an action, its thread a link or a folder. -/
def Event.isOf (run : Str) : Event → Prop
  | .link run' _ | .recordWorktree run' _ _ => run' = run
  | event => ∃ caller, event.caller = some caller ∧ caller.runId = some run

/-- Turns are counted anew and a cancellation is acknowledged, and nothing else changes. -/
def Recounted (t t' : Task) : Prop :=
  ∃ turns cancellation, t' = { t with turns := turns, cancellation := cancellation }

/-- Of the organization only turns and acknowledgments of its tasks have changed. -/
def GivesBack (c c' : Company) : Prop :=
  ∃ tasks, c'.org = { c.org with tasks := tasks } ∧
    Evolves (fun _ => Recounted) (fun _ => False) c.tasks tasks

section Revocation

variable {m : Moment} {c : Company} {run : Str}

theorem GivesBack.refl (c : Company) : GivesBack c c :=
  ⟨c.tasks, rfl, Evolves.refl (fun _ t => ⟨t.turns, t.cancellation, rfl⟩) c.tasks⟩

theorem givesBack_set {i : ℕ} {t t' : Task} (ht : c.tasks[i]? = some t) (h : Recounted t t') :
    Evolves (fun _ => Recounted) (fun _ => False) c.tasks (c.tasks.set i t') :=
  Evolves.set (fun _ t => ⟨t.turns, t.cancellation, rfl⟩) ht h

theorem lost_of_evolves {xs ys : List Task}
    (he : Evolves (fun _ => Owned) (fun t => t.claim = none) xs ys) (h : ∀ t ∈ xs, t.claim ≠ some run) :
    ∀ t ∈ ys, t.claim ≠ some run := by
  intro t' ht' hclaim
  obtain ⟨i, hi⟩ := List.mem_iff_getElem?.mp ht'
  cases hold : xs[i]? with
  | none =>
    have hnone := he.added i t' hold hi
    rw [hclaim] at hnone
    contradiction
  | some t =>
    obtain ⟨u, hu, -, howned⟩ := he.kept i t hold
    obtain rfl : u = t' := Option.some.inj (hu.symm.trans hi)
    rcases howned with hnone | ⟨heq, -⟩
    · rw [hclaim] at hnone
      contradiction
    · exact h t (List.mem_of_getElem? hold) (heq.symm.trans hclaim)

theorem act_revoked (c : Company) (step : Moment × Event) (h : Revoked c run) :
    Revoked (c.act step) run := by
  rcases act_cases c step with ⟨hb, he⟩ | ⟨elsewhere, run', fresh, a, i, t, reserved, rootKey, -, hs, heq⟩
  · refine ⟨?_, fun t' ht' hclaim => ?_⟩
    · rw [hb.attempts]
      exact h.started
    · exact lost_of_evolves he h.lost t' ht' hclaim
  · have hattempts : a.org.attempts = c.org.attempts := hs.books.attempts
    have hne : ¬run' = run := by
      intro hrun
      have hnone := hs.unattempted
      rw [hrun, hattempts] at hnone
      have hstarted := h.started
      rw [hnone] at hstarted
      contradiction
    obtain ⟨n, -, hmoves⟩ := hs.moves
    rw [heq]
    constructor
    · change (Dict.get (a.org.attempts.set run' t.id) run).isSome
      rw [Dict.get_set, if_neg hne, hattempts]
      exact h.started
    · intro u hu hclaim
      rcases List.mem_or_eq_of_mem_set (show u ∈ a.tasks.set i (claimTask run' reserved t) from hu)
        with hold | rfl
      · exact lost_of_evolves hmoves.owned h.lost u hold hclaim
      · exact hne (Option.some.inj hclaim)

theorem not_claimed (h : Revoked c run) : c.org.tasks.any (fun t => t.claim = some run) = false := by
  rw [List.any_eq_false]
  intro t ht
  simpa using h.lost t ht

theorem not_admits (h : Revoked c run) {caller : Caller} (hrun : caller.runId = some run) :
    c.org.admits caller = false ∧ c.org.admitsOperation caller = false := by
  have hlost := not_claimed h
  constructor
  · simp [Org.admits, hrun, hlost]
  · simp [Org.admitsOperation, hrun, hlost]

theorem signal_nil (c : Company) : c.signal [] = c := by
  simp [Company.signal]

theorem act_refused (h : Revoked c run) {step : Moment × Event} (hof : step.2.isOf run) :
    c.act step = c := by
  obtain ⟨m, event⟩ := step
  cases event with
  | call caller taskId call =>
    obtain ⟨_, hcaller, hrun⟩ := hof
    cases hcaller
    have hworld : c.world.call m.toHost m.now caller taskId call = c.world := by
      unfold World.call
      split
      · rfl
      · rw [if_pos (by simp [show c.world.org.admits caller = false from (not_admits h hrun).1])]
    have hrevoked : c.world.revoked m.toHost m.now caller taskId call = [] := by
      unfold World.revoked
      split
      · rfl
      · rw [if_pos (by simp [show c.world.org.admits caller = false from (not_admits h hrun).1])]
    change Company.signal { c with world := c.world.call m.toHost m.now caller taskId call } _ = c
    rw [hworld, hrevoked]
    exact signal_nil c
  | create caller fresh draft =>
    obtain ⟨_, hcaller, hrun⟩ := hof
    cases hcaller
    have hworld : c.world.create m.toHost caller fresh draft = c.world := by
      unfold World.create
      rw [if_pos (by simp [show c.world.org.admits caller = false from (not_admits h hrun).1])]
    change (if c.unused [fresh] then { c with world := c.world.create m.toHost caller fresh draft } else c) = c
    rw [hworld, ite_self]
  | artifact caller taskId a =>
    obtain ⟨_, hcaller, hrun⟩ := hof
    cases hcaller
    change c.artifact caller taskId a = c
    unfold Company.artifact
    split
    · rfl
    · simp [(not_admits h hrun).2]
  | remember caller body =>
    obtain ⟨_, hcaller, hrun⟩ := hof
    cases hcaller
    change c.remember caller body = c
    unfold Company.remember
    split
    · rfl
    · simp [(not_admits h hrun).1]
  | saveMemory caller fresh memory =>
    obtain ⟨_, hcaller, hrun⟩ := hof
    cases hcaller
    change c.saveMemory caller fresh memory = c
    simp [Company.saveMemory, (not_admits h hrun).2]
  | checkMemories caller fresh changed =>
    obtain ⟨_, hcaller, hrun⟩ := hof
    cases hcaller
    change (if _ then c.checkMemories caller fresh changed else c) = c
    simp [Company.checkMemories, (not_admits h hrun).2]
  | link run' workflow =>
    obtain rfl : run' = run := hof
    change c.link run' workflow = c
    unfold Company.link
    split
    · rfl
    · rename_i w hw
      cases hfound : c.org.find w.taskId with
      | none => simp
      | some found =>
        have hne := h.lost found.2 (List.mem_of_getElem? (Org.getElem?_of_find hfound))
        simp [hne]
  | recordWorktree run' path shared =>
    obtain rfl : run' = run := hof
    change c.recordWorktree run' path shared = c
    unfold Company.recordWorktree
    split
    · rfl
    · split
      · rfl
      · rename_i i t hfound
        have hne := h.lost t (List.mem_of_getElem? (Org.getElem?_of_find hfound))
        simp [hne]
  | _ =>
    obtain ⟨_, hcaller, -⟩ := hof
    contradiction

theorem finish_recounts (h : Revoked c run) (now : ℚ) (taskId : Str) {o : Outcome} (ho : o.turnId = run) :
    ∃ tasks, (c.world.finish now taskId o).org = { c.org with tasks := tasks } ∧
      Evolves (fun _ => Recounted) (fun _ => False) c.tasks tasks := by
  unfold World.finish
  cases hfound : c.world.org.find taskId with
  | none => exact GivesBack.refl c
  | some found =>
    obtain ⟨i, t⟩ := found
    have ht : c.tasks[i]? = some t := Org.getElem?_of_find hfound
    have hclaim : t.claim ≠ some o.turnId := ho ▸ h.lost t (List.mem_of_getElem? ht)
    have hfinishes : o.finishes t = false := by simp [Outcome.finishes, hclaim]
    have hcloses : o.closes t = false := by simp [Outcome.closes, hclaim]
    refine ⟨c.tasks.set i (countRun o t), ?_, givesBack_set ht ⟨_, _, rfl⟩⟩
    simp only [hfinishes, hclaim, if_false, World.ended, hcloses, finishTask, ne_eq, not_false_eq_true,
      if_true, Bool.false_eq_true]
    rfl

theorem finish_givesBack (h : Revoked c run) (m : Moment) (x : Ending) : GivesBack c (c.finish m run x) := by
  unfold Company.finish
  cases hw : c.active.get run with
  | none => exact .refl c
  | some w =>
    simp only
    split_ifs
    · exact .refl c
    · obtain ⟨tasks, hworld, he⟩ := finish_recounts h m.now w.taskId
        (o := w.outcome run x _) rfl
      exact ⟨tasks, hworld, he⟩

theorem reconcile_givesBack (c : Company) (run : Str) (x : Settlement) :
    GivesBack c (c.reconcile run x) := by
  unfold Company.reconcile
  split
  · split_ifs
    · exact .refl c
    · exact .refl c
    · split
      · exact .refl c
      · rename_i r taskId _ _ _ _ i t hfound
        exact ⟨_, rfl, givesBack_set (Org.getElem?_of_find hfound) ⟨_, _, rfl⟩⟩
  · exact .refl c

end Revocation

/-- A run that no task has any more gets none again, whatever happens; none of its calls changes
anything, and its end and its settlement give back turns and acknowledge a cancellation only. -/
theorem revoked_stays_powerless {c : Company} {run : Str} (h : Revoked c run)
    (steps : List (Moment × Event)) :
    Revoked (c.run steps) run ∧
      (∀ step : Moment × Event, step.2.isOf run → (c.run steps).act step = c.run steps) ∧
      (∀ m x, GivesBack (c.run steps) ((c.run steps).finish m run x)) ∧
      ∀ x, GivesBack (c.run steps) ((c.run steps).reconcile run x) := by
  have hlater : Revoked (c.run steps) run := run_invariant act_revoked h steps
  exact ⟨hlater, fun _ hof => act_refused hlater hof, fun m x => finish_givesBack hlater m x,
    fun x => reconcile_givesBack _ run x⟩

/-- Ann's run has its task when Raticode starts again. -/
def strandedSteps : List (Moment × Event) :=
  frugalSteps ++ [(plainMoment 3, .dispatch {} (text "run") (fun _ => [])), (plainMoment 4, .restart)]

def stranded : Company := (frugalCompany.run strandedSteps).run [(plainMoment 5, .control true)]

/-- A note of Ann's, the end and the settlement of her run come too late. -/
theorem revoked_stays_powerless_stranded : Revoked stranded (text "run") ∧
    stranded.act (plainMoment 6, .remember { actor := .employee (text "ann"), runId := some (text "run") }
      (text "Moved")) = stranded ∧
    GivesBack stranded (stranded.finish (plainMoment 7) (text "run") { final := text "Moved" }) ∧
    GivesBack stranded (stranded.reconcile (text "run") { settled := true, turnsUsed := some 2 }) := by
  have hrevoked : Revoked (frugalCompany.run strandedSteps) (text "run") :=
    ⟨by decide +kernel, by decide +kernel⟩
  obtain ⟨hlater, hcalls, hends, hsettles⟩ :=
    revoked_stays_powerless hrevoked [(plainMoment 5, .control true)]
  exact ⟨hlater, hcalls _ ⟨_, rfl, rfl⟩, hends _ _, hsettles _⟩

end Raticode.Organizations
