import Raticode.RattishQueues

/-! The result of a run: what a pass says about it, and what a run has to be like
to pass. -/
namespace Raticode.Rattish
open OrderedDict Relation

variable {job : Job} {st st' : Sched}

section Steps

theorem startRunnable_induct {P : Sched → Prop}
    (hone : ∀ st s, st.error = none → P st → P (st.startOne job s)) (h : P st) :
    P (st.startRunnable job) := by
  have heach : ∀ (cands : List Signal) (st : Sched), st.error = none → P st →
      P (st.startEach job cands) := by
    intro cands
    induction cands with
    | nil => exact fun _ _ h => h
    | cons s rest ih =>
      intro st he hP
      simp only [Sched.startEach]
      split
      · exact hone st s he hP
      next hn => exact ih _ (by simpa using hn) (hone st s he hP)
  have hpasses : ∀ (fuel : ℕ) (st : Sched), st.error = none → P st →
      P (st.startPasses job fuel) := by
    intro fuel
    induction fuel with
    | zero => exact fun _ _ h => h
    | succ fuel ih =>
      intro st he hP
      simp only [Sched.startPasses]
      split
      next hg =>
        simp only [Bool.and_eq_true, Option.isNone_iff_eq_none] at hg
        exact ih _ hg.1 (heach _ _ he hP)
      · exact heach _ _ he hP
  unfold Sched.startRunnable
  split
  · exact h
  next hn => exact hpasses _ _ (by simpa using hn) h

theorem dispatched_results {t : Task} (h : Dispatched job t st st') :
    st'.completions = st.completions ∧ st'.deferredLoopFailures = st.deferredLoopFailures ∧
      st'.error = st.error := by
  cases h <;> exact ⟨rfl, rfl, rfl⟩

theorem startRunnable_results (job : Job) (st : Sched) :
    (st.startRunnable job).completions = st.completions ∧
      (st.startRunnable job).deferredLoopFailures = st.deferredLoopFailures ∧
      (st.error ≠ none → (st.startRunnable job).error ≠ none) ∧
      ((st.startRunnable job).error ≠ none →
        st.error ≠ none ∨ (st.startRunnable job).pending ≠ []) := by
  by_cases he : st.error = none
  · have := @startRunnable_induct job st ( fun s => s.completions = st.completions ∧
        s.deferredLoopFailures = st.deferredLoopFailures ∧ (s.error ≠ none → s.pending ≠ []))
      (fun s sig hs hP => ?_) ⟨rfl, rfl, fun h => absurd he h⟩
    · exact ⟨this.1, this.2.1, fun h => absurd he h, fun h => .inr (this.2.2 h)⟩
    · rcases startOne_cases job s sig with ⟨heq, -⟩ | ⟨e, -, heq⟩ | ⟨-, hd⟩
      · rw [heq]
        exact hP
      · have hpend : s.pending ≠ [] := by
          intro hnil
          have hsame : s.startOne job sig = s := startOne_of_gone (by simp [hnil])
          have herr := congrArg Sched.error (heq.symm.trans hsame)
          rw [hs] at herr
          simp at herr
        rw [heq]
        exact ⟨hP.1, hP.2.1, fun _ => hpend⟩
      · obtain ⟨h₁, h₂, h₃⟩ := dispatched_results hd
        have hnone : (s.startOne job sig).error = none := h₃.trans hs
        exact ⟨h₁.trans hP.1, h₂.trans hP.2.1, fun h => absurd hnone h⟩
  · have hsame : st.startRunnable job = st := by
      unfold Sched.startRunnable
      rw [if_pos (Option.isSome_iff_ne_none.mpr he)]
    rw [hsame]
    exact ⟨rfl, rfl, id, fun h => .inl h⟩

theorem work_errors {c : Completion} (h : Work job c st st') :
    (st'.error ≠ none → st.error ≠ none ∨ Fatal job c) ∧
      (st'.deferredLoopFailures ≠ [] → st.deferredLoopFailures ≠ [] ∨ ¬c.ok) ∧
      (st.error ≠ none → st'.error ≠ none) ∧
      (st.deferredLoopFailures ≠ [] → st'.deferredLoopFailures ≠ []) := by
  cases h with
  | latch _ => exact ⟨.inl, .inl, id, id⟩
  | quiet hq =>
    refine ⟨?_, ?_, quiet_errors hq⟩
    · cases hq with
      | fail e hf => exact fun _ => .inr hf
      | prune live key =>
        unfold Sched.prune
        split <;> exact .inl
      | merge =>
        unfold Sched.mergeLockedSignals
        split <;> exact .inl
      | _ => exact .inl
    · cases hq with
      | defer e hok => exact fun _ => .inr hok
      | prune live key =>
        unfold Sched.prune
        split <;> exact .inl
      | merge =>
        unfold Sched.mergeLockedSignals
        split <;> exact .inl
      | _ => exact .inl

theorem workPath_errors {c : Completion} (h : WorkPath job c st st') :
    (st'.error ≠ none → st.error ≠ none ∨ Fatal job c) ∧
      (st'.deferredLoopFailures ≠ [] → st.deferredLoopFailures ≠ [] ∨ ¬c.ok) ∧
      (st.error ≠ none → st'.error ≠ none) ∧
      (st.deferredLoopFailures ≠ [] → st'.deferredLoopFailures ≠ []) ∧
      st'.completions = st.completions := by
  induction h with
  | refl => exact ⟨.inl, .inl, id, id, rfl⟩
  | tail _ hw ih =>
    obtain ⟨h₁, h₂, h₃, h₄⟩ := work_errors hw
    obtain ⟨i₁, i₂, i₃, i₄, i₅⟩ := ih
    refine ⟨fun h => ?_, fun h => ?_, fun h => h₃ (i₃ h), fun h => h₄ (i₄ h),
      (work_completions hw).trans i₅⟩
    · exact (h₁ h).elim i₁ .inr
    · exact (h₂ h).elim i₂ .inr

def Unsuccessful (job : Job) (c : Completion) : Prop :=
  ¬c.ok ∨ (job.ir.node c.record.nodeId).finish = some .fail

theorem Processed.reported {c : Completion} (h : Processed job c st st')
    (hc : Unsuccessful job c) : st'.error ≠ none ∨ st'.deferredLoopFailures ≠ [] := by
  cases h with
  | failed _ _ h => exact h
  | loop hok _ _ hf => exact .inl (hf (hc.resolve_left (not_not.mpr hok)))
  | finishFail _ _ _ _ _ he =>
    subst he
    exact .inl (by simp)
  | routed hok _ hf _ _ _ => exact absurd (hc.resolve_left (not_not.mpr hok)) hf

end Steps

/-- An unsuccessful completion is reported, and what is reported has a cause. -/
structure Accounts (job : Job) (st : Sched) : Prop where
  reported : ∀ c ∈ st.completions, Unsuccessful job c →
    st.error ≠ none ∨ st.deferredLoopFailures ≠ []
  justified : st.error ≠ none → (∃ c ∈ st.completions, Fatal job c) ∨ st.pending ≠ []
  deferred : st.deferredLoopFailures ≠ [] → ∃ c ∈ st.completions, ¬c.ok

theorem Accounts.startRunnable (h : Accounts job st) (he : st.error = none) :
    Accounts job (st.startRunnable job) := by
  obtain ⟨hc, hd, -, hnew⟩ := startRunnable_results job st
  refine ⟨?_, fun hn => ?_, ?_⟩
  · intro c hm hu
    rw [hc] at hm
    rcases h.reported c hm hu with h' | h'
    · exact absurd he h'
    · exact .inr (hd ▸ h')
  · exact .inr ((hnew hn).resolve_left (not_not.mpr he))
  · rw [hc, hd]
    exact h.deferred

theorem Accounts.processCompletion {st₀ : Sched} {c : Completion} (hv : job.ir.Valid)
    (hwf : WellFormed job st) (h : Accounts job st) (he : st.error = none)
    (hp : Pops job st c st₀) (hproc : st₀.processCompletion job c = .ok st') :
    Accounts job st' := by
  have hcourse := processed_of_pops (fun _ _ hi hm => hi.micro hv hm) (fun _ hi => hi.unlocked)
    (fun _ _ _ hi hp => hi.loopKey_new hv hp) hwf hp hproc
  obtain ⟨herr, hdef, -, hkeep, hcomp⟩ := workPath_errors hcourse.work
  have hpop : st₀.error = st.error ∧ st₀.deferredLoopFailures = st.deferredLoopFailures := by
    cases hp <;> exact ⟨rfl, rfl⟩
  have hcomp' : st'.completions = st.completions ++ [c] := by
    rw [hcomp]
    simp [Sched.recordCompletion, (pops_frame hp).2.2.2.1]
  have hmem : c ∈ st'.completions := by simp [hcomp']
  refine ⟨fun c' hc' hu => ?_, fun hn => ?_, fun hn => ?_⟩
  · rw [hcomp'] at hc'
    rcases List.mem_append.mp hc' with hc' | hc'
    · rcases h.reported c' hc' hu with h' | h'
      · exact absurd he h'
      · exact .inr (hkeep (hpop.2 ▸ h'))
    · obtain rfl := List.mem_singleton.mp hc'
      exact hcourse.reported hu
  · refine .inl ⟨c, hmem, (herr hn).resolve_left (not_not.mpr ?_)⟩
    exact hpop.1.trans he
  · rcases hdef hn with h' | h'
    · obtain ⟨c', hc', hf⟩ := h.deferred (hpop.2 ▸ h')
      exact ⟨c', hcomp' ▸ List.mem_append_left _ hc', hf⟩
    · exact ⟨c, hmem, h'⟩

/-- The report is complete in every phase, and a finished machine has nothing left to run. -/
structure Accounted (job : Job) (m : Machine) : Prop where
  accounts : Accounts job m.sched
  awaiting : m.phase = .awaiting → m.sched.error = none
  done : m.phase = .done → m.sched.error ≠ none ∨
    (m.sched.running = [] ∧ m.sched.hasRunnablePending job.ir = false)

theorem Accounts.of_eq (h : Accounts job st) (hc : st'.completions = st.completions)
    (he : st'.error = st.error) (hd : st'.deferredLoopFailures = st.deferredLoopFailures)
    (hp : st'.pending = st.pending) : Accounts job st' := by
  refine ⟨?_, ?_, ?_⟩
  · rw [hc, he, hd]
    exact h.reported
  · rw [hc, he, hp]
    exact h.justified
  · rw [hc, hd]
    exact h.deferred

theorem turn_accounted (hv : job.ir.Valid) (hwf : WellFormed job st) {m : Machine}
    (h : Accounts job st) (ht : Turn job st m) : Accounted job m := by
  cases ht with
  | stop hstop => exact ⟨h, nofun, fun _ => hstop⟩
  | replay herr hready hs =>
    have hacc := h.processCompletion hv hwf herr (.ready hready) hs
    refine ⟨?_, nofun, nofun⟩
    unfold Sched.resume
    split
    · exact hacc
    next hn => exact hacc.startRunnable (by simpa using hn)
  | wait herr =>
    refine ⟨?_, fun _ => ?_, nofun⟩
    · split
      · exact h.of_eq rfl rfl rfl rfl
      · exact h
    · split <;> exact herr

theorem reach_accounted (hv : job.ir.Valid) {m : Machine} (h : Reach job m) :
    Accounted job m := by
  induction h with
  | refl =>
    obtain ⟨news, heq, -, -⟩ := enqueueInitial_spec job.ir (Sched.fresh job)
    have hinit : Accounts job ((Sched.fresh job).enqueueInitial job.ir) := by
      rw [heq]
      exact ⟨nofun, fun h => absurd rfl h, fun h => absurd rfl h⟩
    refine ⟨hinit.startRunnable ?_, nofun, nofun⟩
    rw [heq]
    rfl
  | tail hreach hs ih =>
    have hwf := (reach_microPath hv hreach).2
    cases hs with
    | turn ht =>
      exact turn_accounted hv hwf ih.accounts (turn_course ((reach_waits hv hreach).saturated rfl) ht)
    | finishTask hphase _ _ =>
      exact ⟨ih.accounts.of_eq rfl rfl rfl rfl, ih.awaiting, fun h => absurd h hphase⟩
    | receive hc hr =>
      obtain ⟨s, hs, rfl⟩ := map_eq_ok.mp hr
      have hacc := ih.accounts.processCompletion hv hwf (ih.awaiting rfl) (.channel hc) hs
      split
      next he => exact ⟨hacc, nofun, fun _ => .inl (Option.isSome_iff_ne_none.mp he)⟩
      next he => exact ⟨hacc.startRunnable (by simpa using he), nofun, nofun⟩

/-- Starts are counted, and none passes the limit of the workflow or of its node. -/
structure WithinBudget (job : Job) (st : Sched) : Prop where
  total : st.totalRuns = st.starts.length
  workflow : ∀ limit, job.ir.maxRuns = some limit → st.starts.length ≤ limit
  nodes : ∀ n limit, (job.ir.node n).maxRuns = some limit → st.runCounts n ≤ limit

theorem budgetError?_eq_none {n : NodeId} (h : st.budgetError? job.ir n = none) :
    (∀ limit, job.ir.maxRuns = some limit → st.totalRuns < limit) ∧
      ∀ limit, (job.ir.node n).maxRuns = some limit → st.runCounts n < limit := by
  have hnode : Sched.budgetError?.nodeBudgetError? job.ir st n = none →
      ∀ limit, (job.ir.node n).maxRuns = some limit → st.runCounts n < limit := by
    intro hn limit hl
    simp only [Sched.budgetError?.nodeBudgetError?, hl] at hn
    split at hn
    · simp at hn
    · omega
  unfold Sched.budgetError? at h
  split at h
  next limit hl =>
    split at h
    · simp at h
    next hlt =>
      refine ⟨fun l hl' => ?_, hnode h⟩
      rw [hl] at hl'
      obtain rfl := Option.some.inj hl'
      omega
  next hl => exact ⟨by simp [hl], hnode h⟩

theorem WithinBudget.of_eq (h : WithinBudget job st) (ht : st'.totalRuns = st.totalRuns)
    (hs : st'.starts = st.starts) (hn : st'.runCounts = st.runCounts) : WithinBudget job st' :=
  ⟨by rw [ht, hs]; exact h.total, by rw [hs]; exact h.workflow, by rw [hn]; exact h.nodes⟩

theorem reach_withinBudget (hv : job.ir.Valid) {m : Machine} (h : Reach job m) :
    WithinBudget job m.sched := by
  refine reach_invariant hv ?_ ?_ h
  · obtain ⟨news, heq⟩ := initial_eq job
    rw [heq]
    exact ⟨rfl, fun _ _ => Nat.zero_le _, fun _ _ _ => Nat.zero_le _⟩
  · intro st st' _ hi hm
    cases hm with
    | complete hp => cases hp <;> exact hi.of_eq rfl rfl rfl
    | work _ hw =>
      cases hw with
      | latch _ => exact hi.of_eq rfl rfl rfl
      | quiet hq =>
        cases hq with
        | prune live key =>
          unfold Sched.prune
          split
          · exact hi
          · exact hi.of_eq rfl rfl rfl
        | merge =>
          unfold Sched.mergeLockedSignals
          split
          · exact hi
          · exact hi
          · exact hi.of_eq rfl rfl rfl
        | _ => exact hi.of_eq rfl rfl rfl
    | idle hidle =>
      cases hidle with
      | @start _ s _ _ hb hd =>
        obtain ⟨hw, hn⟩ := budgetError?_eq_none hb
        have htotal : st'.totalRuns = st.totalRuns + 1 := (dispatched_counts hd).1
        have hstarts : st'.starts.length = st.starts.length + 1 := by
          rw [(dispatched_frame hd).2.2.1]
          simp [Sched.begun]
        have hcounts : st'.runCounts = update st.runCounts s.node (st.runCounts s.node + 1) :=
          (dispatched_frame hd).2.2.2.2.1
        refine ⟨by rw [htotal, hstarts, hi.total], fun limit hl => ?_, fun n limit hl => ?_⟩
        · have := hw limit hl
          rw [hi.total] at this
          omega
        · rw [hcounts]
          simp only [update]
          split
          next he =>
            subst he
            exact hn limit hl
          · exact hi.nodes n limit hl
      | refuse | finishReplay | send => exact hi.of_eq rfl rfl rfl

/-- Nothing failed, no limit was passed and nothing is left: the workflow passed. -/
structure Clean (job : Job) (st : Sched) : Prop where
  no_failure : ∀ r ∈ st.records, r.result.outcome ≠ .failure
  no_finish_fail : ∀ r ∈ st.records, (job.ir.node r.nodeId).finish ≠ some .fail
  workflow_limit : ∀ limit, job.ir.maxRuns = some limit → st.starts.length ≤ limit
  node_limits : ∀ n limit, (job.ir.node n).maxRuns = some limit →
    (st.starts.filter (·.task.node = n)).length ≤ limit
  no_pending : st.pending = []
  no_running : st.running = []
  recorded : (st.starts.map (fun s => (s.task.node, s.task.runNumber))).Perm
    (st.records.map (fun r => (r.nodeId, r.runNumber)))
  once : (st.records.map (fun r => (r.nodeId, r.runNumber))).Nodup

theorem collectOutputs_ok_iff {env : Env} {scope : Scope} {os : List WorkflowOutput}
    {acc : Dict String Value} : (∃ outputs, Sched.collectOutputs env scope os acc = .ok outputs) ↔
      ∀ o ∈ os, ∃ v, referenceValue env scope o.source = some v ∧
        Schema.valid env.search (.obj o.schema) v = true := by
  induction os generalizing acc with
  | nil => simp [Sched.collectOutputs]
  | cons o os ih =>
    simp only [Sched.collectOutputs, List.mem_cons, forall_eq_or_imp]
    cases hv : referenceValue env scope o.source with
    | none => simp
    | some v =>
      simp only [Option.some.injEq, exists_eq_left']
      split
      next hvalid => simp [ih, hvalid]
      next hvalid => simp [hvalid]

theorem pending_nil_of_quiescent (hwf : WellFormed job st)
    (hr : st.hasRunnablePending job.ir = false) (hu : st.unresolved job.ir = []) :
    st.pending = [] := by
  refine List.eq_nil_iff_forall_not_mem.mpr (fun s hs => ?_)
  have hknown := hwf.knownPending s hs
  obtain ⟨n, hn, he⟩ := List.mem_map.mp hknown
  have hpend : s ∈ st.pendingOf s.node := by simp [Sched.pendingOf, hs]
  by_cases hunlocked : st.isUnlocked job.ir s.node s.activation = true
  · have : st.hasRunnablePending job.ir = true := by
      simp only [Sched.hasRunnablePending, List.any_eq_true]
      exact ⟨n, hn, s, he ▸ hpend, he ▸ hunlocked⟩
    simp [this] at hr
  · have hmem : s ∈ st.unresolved job.ir := by
      simp only [Sched.unresolved, List.mem_flatMap, List.mem_filter]
      exact ⟨s.node, by simpa [Sched.sortedStrings] using hknown, hpend, by simpa using hunlocked⟩
    simp [hu] at hmem

/-- A run that ended passes exactly when it is clean, no Break completed outside
its loop and every public output resolves to a value of its schema. -/
theorem pass_iff_clean (hv : job.ir.Valid) (h : Reach job ⟨.done, st⟩) :
    ((st.result job).outcome = .pass → Clean job st) ∧
    (Clean job st →
      (∀ c ∈ st.completions, c.ok → (job.ir.node c.record.nodeId).type = .break →
        c.activation.loopLineages.get ((job.ir.node c.record.nodeId).loopNodeId.getD "") ≠ none) →
      (∀ o ∈ job.ir.outputs, ∃ v, referenceValue job.env st.latestScope o.source = some v ∧
        Schema.valid job.env.search (.obj o.schema) v = true) →
      (st.result job).outcome = .pass) := by
  have hwf := (reach_microPath hv h).2
  have hacc := reach_accounted hv h
  have hbudget := reach_withinBudget hv h
  refine ⟨fun hpass => ?_, fun hclean hbreak houtputs => ?_⟩
  · have hfinal : st.finalError job.ir = none := by
      unfold Sched.result at hpass
      split at hpass
      · simp at hpass
      next hn => exact hn
    unfold Sched.finalError at hfinal
    split at hfinal
    · simp at hfinal
    · simp at hfinal
    next herr hdef =>
    have hunres : st.unresolved job.ir = [] := by
      unfold Sched.unresolvedJoinError at hfinal
      split at hfinal
      next hu => exact List.isEmpty_iff.mp hu
      · simp at hfinal
    obtain ⟨hrun, hquiet⟩ := (hacc.done rfl).resolve_left (not_not.mpr herr)
    have hgood : ∀ c ∈ st.completions, ¬Unsuccessful job c := by
      intro c hc hu
      rcases hacc.accounts.reported c hc hu with h' | h'
      · exact h' herr
      · exact h' hdef
    have hnone : st.inflight = [] := by
      have := hwf.running
      rw [hrun] at this
      simpa using this.nil_eq.symm
    have hhist := hwf.history
    rw [hnone, List.nil_append] at hhist
    have hperm : (st.starts.map (fun s => (s.task.node, s.task.runNumber))).Perm
        (st.records.map (fun r => (r.nodeId, r.runNumber))) := by
      have hruns := hhist.map Flight.run
      rw [List.map_map, List.map_map] at hruns
      rw [Sched.records, List.map_map]
      exact hruns
    refine ⟨?_, ?_, hbudget.workflow, ?_, pending_nil_of_quiescent hwf hquiet hunres, hrun, hperm,
      hperm.nodup_iff.mp hwf.runs⟩
    · intro r hr he
      obtain ⟨c, hc, rfl⟩ := List.mem_map.mp hr
      exact hgood c hc (.inl (fun hok => hok he))
    · intro r hr he
      obtain ⟨c, hc, rfl⟩ := List.mem_map.mp hr
      exact hgood c hc (.inr he)
    · intro n limit hl
      rw [← hwf.counts n]
      exact hbudget.nodes n limit hl
  · have hgood : ∀ c ∈ st.completions, c.ok := fun c hc =>
      hclean.no_failure c.record (List.mem_map_of_mem hc)
    have herr : st.error = none := by
      by_contra hn
      rcases hacc.accounts.justified hn with ⟨c, hc, hf⟩ | hp
      · cases hf with
        | failed hnot => exact hnot (hgood c hc)
        | finishFail _ hfin => exact hclean.no_finish_fail c.record (List.mem_map_of_mem hc) hfin
        | breakOutside hok ht hget => exact hbreak c hc hok ht hget
      · exact hp hclean.no_pending
    have hdef : st.deferredLoopFailures = [] := by
      by_contra hn
      obtain ⟨c, hc, hnot⟩ := hacc.accounts.deferred hn
      exact hnot (hgood c hc)
    have hunres : st.unresolved job.ir = [] := by
      simp [Sched.unresolved, Sched.pendingOf, hclean.no_pending]
    have hfinal : st.finalError job.ir = none := by
      simp [Sched.finalError, herr, hdef, Sched.unresolvedJoinError, hunres]
    obtain ⟨outputs, ho⟩ := (@collectOutputs_ok_iff _ _ _ []).mpr houtputs
    simp [Sched.result, hfinal, ho]

/-- Nested loops over one item each, run to the end. -/
theorem pass_iff_clean_nested : ∃ st, Reach Sample.nested ⟨.done, st⟩ ∧
    (st.result Sample.nested).outcome = .pass ∧ Clean Sample.nested st := by
  obtain ⟨m, hm, hphase, hpass⟩ : ∃ m, Sample.after Sample.nested
      (Sample.finish (Sample.items 1) ++ Sample.finish (Sample.items 1) ++
        Sample.finish .null ++ [.turn]) = some m ∧
      m.phase = .done ∧ (m.sched.result Sample.nested).outcome = .pass := by
    refine ⟨_, (Option.some_get (by decide +kernel)).symm, ?_, ?_⟩ <;> decide +kernel
  obtain ⟨phase, st⟩ := m
  obtain rfl : phase = .done := hphase
  have hreach := Sample.reach_after hm
  exact ⟨st, hreach, hpass, (pass_iff_clean Sample.nested_valid hreach).1 hpass⟩

end Raticode.Rattish
