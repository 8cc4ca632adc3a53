import Mathlib.Algebra.BigOperators.Group.Finset.Basic
import Raticode.RattishQueues

/-! The counters of the scheduler against what they count: starts, records and
running groups, and the limits that the counters are held to. -/
namespace Raticode.Rattish
open OrderedDict Relation

variable {job : Job} {st st' : Sched} {c : Completion}

section Counters

/-- The counters are the starts: run numbers of a node count up from one, and no limit is passed. -/
structure Counted (job : Job) (st : Sched) : Prop where
  total : st.totalRuns = st.starts.length
  numbers : ∀ n, (st.starts.filter (·.task.node = n)).map (·.task.runNumber) =
    List.range' 1 (st.runCounts n)
  workflow : ∀ limit, job.ir.maxRuns = some limit → st.totalRuns ≤ limit
  node : ∀ n limit, (job.ir.node n).maxRuns = some limit → st.runCounts n ≤ limit

theorem limits_of_budget {n : NodeId} (h : st.budgetError? job.ir n = none) :
    (∀ limit, job.ir.maxRuns = some limit → st.totalRuns < limit) ∧
      ∀ limit, (job.ir.node n).maxRuns = some limit → st.runCounts n < limit := by
  have hnode (hnone : Sched.budgetError?.nodeBudgetError? job.ir st n = none) :
      ∀ limit, (job.ir.node n).maxRuns = some limit → st.runCounts n < limit := by
    intro limit hlimit
    simp only [Sched.budgetError?.nodeBudgetError?, hlimit] at hnone
    split at hnone
    · cases hnone
    · omega
  unfold Sched.budgetError? at h
  split at h
  next limit hlimit =>
    split at h
    · cases h
    next hlt =>
      refine ⟨fun limit' he => ?_, hnode h⟩
      rw [hlimit] at he
      cases he
      omega
  next hlimit =>
    refine ⟨fun limit' he => ?_, hnode h⟩
    rw [hlimit] at he
    cases he

theorem micro_counters (h : Micro job st st') :
    (st'.starts = st.starts ∧ st'.totalRuns = st.totalRuns ∧ st'.runCounts = st.runCounts) ∨
      ∃ s, st.budgetError? job.ir s.node = none ∧
        st'.starts = st.starts ++ [⟨st.taskOf s, st.completions.length, s.origins⟩] ∧
        st'.totalRuns = st.totalRuns + 1 ∧
        st'.runCounts = update st.runCounts s.node (st.runCounts s.node + 1) := by
  cases h with
  | complete hp =>
    left
    cases hp <;> exact ⟨rfl, rfl, rfl⟩
  | work _ hw =>
    left
    cases hw with
    | latch _ => exact ⟨rfl, rfl, rfl⟩
    | quiet hq =>
      cases hq with
      | prune live key =>
        unfold Sched.prune
        split <;> exact ⟨rfl, rfl, rfl⟩
      | merge =>
        unfold Sched.mergeLockedSignals
        split <;> exact ⟨rfl, rfl, rfl⟩
      | _ => exact ⟨rfl, rfl, rfl⟩
  | idle hi =>
    cases hi with
    | @start _ s hs hu hb hd =>
      right
      refine ⟨s, hb, ?_⟩
      cases hd <;> exact ⟨rfl, rfl, rfl⟩
    | refuse | finishReplay | send => exact .inl ⟨rfl, rfl, rfl⟩

theorem Counted.micro (h : Counted job st) (hm : Micro job st st') : Counted job st' := by
  rcases micro_counters hm with ⟨hstarts, htotal, hcounts⟩ | ⟨s, hb, hstarts, htotal, hcounts⟩
  · exact ⟨by rw [htotal, hstarts, h.total], fun n => by rw [hstarts, hcounts, h.numbers n],
      fun limit hl => by rw [htotal]; exact h.workflow limit hl,
      fun n limit hl => by rw [hcounts]; exact h.node n limit hl⟩
  · obtain ⟨hworkflow, hnode⟩ := limits_of_budget hb
    refine ⟨?_, fun n => ?_, fun limit hl => ?_, fun n limit hl => ?_⟩
    · rw [htotal, hstarts, h.total]
      simp
    · rw [hstarts, hcounts, List.filter_append, List.map_append, h.numbers n]
      by_cases hn : n = s.node
      · subst hn
        rw [update_same, List.range'_1_concat]
        simp [Sched.taskOf, Nat.add_comm]
      · rw [update_ne _ _ hn]
        simp [Sched.taskOf, show s.node ≠ n from fun he => hn he.symm]
    · rw [htotal]
      exact hworkflow limit hl
    · rw [hcounts]
      by_cases hn : n = s.node
      · subst hn
        rw [update_same]
        exact hnode limit hl
      · rw [update_ne _ _ hn]
        exact h.node n limit hl

/-- The counters agree with the starts in every reachable machine. -/
theorem reach_counted (hv : job.ir.Valid) {m : Machine} (h : Reach job m) :
    Counted job m.sched := by
  refine reach_invariant (P := Counted job) hv ?_ (fun _ _ _ hi hm => hi.micro hm) h
  obtain ⟨news, heq⟩ := initial_eq job
  rw [heq]
  exact ⟨rfl, fun n => rfl, fun limit _ => Nat.zero_le limit, fun n limit _ => Nat.zero_le limit⟩

theorem sum_runCounts (hv : job.ir.Valid) (h : WellFormed job st) (hc : Counted job st) :
    ((job.ir.nodes.map (·.id)).map st.runCounts).sum = st.totalRuns := by
  rw [hc.total]
  have hknown := h.knownStarts
  have hcounts : (job.ir.nodes.map (·.id)).map st.runCounts =
      (job.ir.nodes.map (·.id)).map (fun n => (st.starts.filter (·.task.node = n)).length) :=
    List.map_congr_left (fun n _ => h.counts n)
  rw [hcounts]
  -- Each start is counted under its own node and under no other.
  have hnodup := hv.nodup_ids
  generalize job.ir.nodes.map (·.id) = ids at hknown hnodup
  generalize st.starts = starts at hknown
  clear hcounts
  induction starts with
  | nil => simp
  | cons x starts ih =>
    have ih := ih (fun s hs => hknown s (List.mem_cons_of_mem _ hs))
    have hone : ∀ ids : List NodeId, ids.Nodup →
        (ids.map (fun n => ((x :: starts).filter (·.task.node = n)).length)).sum =
          (ids.map (fun n => (starts.filter (·.task.node = n)).length)).sum +
            if x.task.node ∈ ids then 1 else 0 := by
      intro ids
      induction ids with
      | nil => simp
      | cons n ids ih =>
        intro hnd
        obtain ⟨hn, hnd⟩ := List.nodup_cons.mp hnd
        simp only [List.map_cons, List.sum_cons, ih hnd, List.mem_cons]
        by_cases he : x.task.node = n
        · subst he
          simp [hn]
          omega
        · simp [he]
          omega
    rw [hone ids hnodup, ih, if_pos (hknown x List.mem_cons_self), List.length_cons]

theorem runCounts_eq (h : WellFormed job st) (n : NodeId) :
    st.runCounts n = (st.records.filter (·.nodeId = n)).length + (st.runningOf n).length := by
  have hhistory := (h.history.filter (fun f => f.node = n)).length_eq
  have hrunning := (h.running.filter (fun k => k.1 = n)).length_eq
  rw [h.counts n, Sched.runningOf, hrunning, Sched.records]
  rw [List.filter_append, List.length_append] at hhistory
  simp only [List.filter_map, List.length_map, Function.comp_def] at hhistory hrunning ⊢
  rw [Nat.add_comm] at hhistory
  exact hhistory

end Counters

section Concurrency

def Within (job : Job) (st : Sched) : Prop :=
  ∀ n, (st.runningOf n).length ≤ (job.ir.node n).maxConcurrency

theorem Within.of_running (h : Within job st) (he : st'.running.Sublist st.running) :
    Within job st' :=
  fun n => ((he.filter _).length_le).trans (h n)

theorem startOne_runningOf (job : Job) (st : Sched) (s : Signal) (n : NodeId) :
    ((st.startOne job s).runningOf n).length ≤
      (st.runningOf n).length + if s.node = n then 1 else 0 := by
  rcases startOne_cases job st s with ⟨heq, -⟩ | ⟨e, -, heq⟩ | ⟨-, hd⟩
  · rw [heq]
    omega
  · rw [heq]
    exact Nat.le_add_right _ _
  · rw [Sched.runningOf, (dispatched_frame hd).2.1]
    have hrun : (st.begun s).running = st.running ++ [(s.node, s.activation.groupId)] := rfl
    rw [hrun, List.filter_append, List.length_append]
    by_cases he : s.node = n <;> simp [he, Sched.runningOf]

theorem startEach_runningOf (job : Job) (cands : List Signal) (st : Sched) (n : NodeId) :
    ((st.startEach job cands).runningOf n).length ≤
      (st.runningOf n).length + (cands.filter (·.node = n)).length := by
  induction cands generalizing st with
  | nil => exact Nat.le_refl _
  | cons s rest ih =>
    have hone := startOne_runningOf job st s n
    have hfilter : ((s :: rest).filter (·.node = n)).length =
        (rest.filter (·.node = n)).length + if s.node = n then 1 else 0 := by
      by_cases he : s.node = n <;> simp [he]
    simp only [Sched.startEach]
    split
    · omega
    · have hrest := ih (st.startOne job s)
      omega

theorem candidates_le (hv : job.ir.Valid) (st : Sched) (n : NodeId) :
    ((st.candidates job.ir).filter (·.node = n)).length ≤
      (job.ir.node n).maxConcurrency - (st.runningOf n).length := by
  have hperm : (st.candidates job.ir).Perm (job.ir.nodes.flatMap (st.runnableOf job.ir)) :=
    List.perm_insertionSort _ _
  rw [(hperm.filter _).length_eq]
  have hown : ∀ m : Node, ∀ s ∈ st.runnableOf job.ir m, s.node = m.id := by
    intro m s hs
    have hs' := List.mem_of_mem_take hs
    simp only [Sched.pendingOf, List.mem_filter, decide_eq_true_eq] at hs'
    exact hs'.1.2
  have hplaces : ∀ m ∈ job.ir.nodes, m.id = n → (st.runnableOf job.ir m).length ≤
      (job.ir.node n).maxConcurrency - (st.runningOf n).length := by
    rintro m hm rfl
    rw [hv.node_eq hm, Sched.runnableOf]
    exact List.length_take_le _ _
  have hids := hv.nodup_ids
  generalize job.ir.nodes = nodes at hplaces hids
  induction nodes with
  | nil => simp
  | cons m nodes ih =>
    obtain ⟨hm, hids⟩ := List.nodup_cons.mp hids
    rw [List.flatMap_cons, List.filter_append, List.length_append]
    by_cases he : m.id = n
    · -- The node has its candidates here, and none later.
      have hrest : (nodes.flatMap (st.runnableOf job.ir)).filter (·.node = n) = [] := by
        rw [List.filter_eq_nil_iff]
        intro s hs
        obtain ⟨m', hm', hs⟩ := List.mem_flatMap.mp hs
        have hne : m'.id ≠ n := by
          intro he'
          apply hm
          show m.id ∈ nodes.map (·.id)
          rw [he, ← he']
          exact List.mem_map_of_mem hm'
        simpa [hown m' s hs] using hne
      rw [hrest, List.length_nil, Nat.add_zero]
      exact (List.length_filter_le _ _).trans (hplaces m List.mem_cons_self he)
    · have hnone : (st.runnableOf job.ir m).filter (·.node = n) = [] := by
        rw [List.filter_eq_nil_iff]
        intro s hs
        simpa [hown m s hs] using he
      rw [hnone, List.length_nil, Nat.zero_add]
      exact ih (fun m' hm' => hplaces m' (List.mem_cons_of_mem _ hm')) hids

theorem Within.startPasses (hv : job.ir.Valid) (fuel : ℕ) (h : Within job st) :
    Within job (st.startPasses job fuel) := by
  induction fuel generalizing st with
  | zero => exact h
  | succ fuel ih =>
    have hpass : Within job (st.startEach job (st.candidates job.ir)) := by
      intro n
      have hcount := startEach_runningOf job (st.candidates job.ir) st n
      have hplaces := candidates_le hv st n
      have hbefore := h n
      omega
    simp only [Sched.startPasses]
    split
    · exact ih hpass
    · exact hpass

theorem Within.startRunnable (hv : job.ir.Valid) (h : Within job st) :
    Within job (st.startRunnable job) := by
  unfold Sched.startRunnable
  split
  · exact h
  · exact h.startPasses hv _

theorem Within.resume (hv : job.ir.Valid) (h : Within job st) : Within job (st.resume job) := by
  unfold Sched.resume
  split
  · exact h
  · exact h.startRunnable hv

theorem work_running (h : Work job c st st') : st'.running = st.running := by
  cases h with
  | latch _ => rfl
  | quiet hq =>
    cases hq with
    | prune live key =>
      unfold Sched.prune
      split <;> rfl
    | merge =>
      unfold Sched.mergeLockedSignals
      split <;> rfl
    | _ => rfl

theorem workPath_running (h : WorkPath job c st st') : st'.running = st.running := by
  induction h with
  | refl => rfl
  | tail _ hw ih => rw [work_running hw, ih]

theorem Within.processed (hv : job.ir.Valid) (hwf : WellFormed job st) (h : Within job st)
    {st₀ st₁ : Sched} (hp : Pops job st c st₀) (hc : st₀.processCompletion job c = .ok st₁) :
    Within job st₁ := by
  have hpath := workPath_running (Raticode.Rattish.processed hv hwf hp hc).work
  refine h.of_running ?_
  rw [hpath, Sched.recordCompletion, (pops_frame hp).2.1]
  exact List.erase_sublist

/-- No node ever runs more often at once than its concurrency allows. -/
theorem reach_within (hv : job.ir.Valid) {m : Machine} (h : Reach job m) :
    Within job m.sched := by
  induction h with
  | refl =>
    refine Within.startRunnable hv (fun n => ?_)
    obtain ⟨news, heq, -, -⟩ := enqueueInitial_spec job.ir (Sched.fresh job)
    rw [heq]
    exact Nat.zero_le _
  | @tail m₀ m₁ hreach hs ih =>
    have hwf := (reach_microPath hv hreach).2
    cases hs with
    | turn ht =>
      cases turn_course ((reach_waits hv hreach).saturated rfl) ht with
      | stop => exact ih
      | replay _ hready hs => exact (ih.processed hv hwf (.ready hready) hs).resume hv
      | wait =>
        refine ih.of_running ?_
        split <;> exact List.Sublist.refl _
    | finishTask => exact ih
    | receive hc hr =>
      obtain ⟨s, hs, rfl⟩ := map_eq_ok.mp hr
      have hs' := ih.processed hv hwf (.channel hc) hs
      split
      · exact hs'
      · exact hs'.startRunnable hv

end Concurrency

/-- The accounting of runs, in every reachable state. -/
theorem run_accounting (hv : job.ir.Valid) {m : Machine} (h : Reach job m) :
    m.sched.totalRuns = ((job.ir.nodes.map (·.id)).map m.sched.runCounts).sum ∧
    (∀ n, m.sched.runCounts n =
      (m.sched.records.filter (·.nodeId = n)).length + (m.sched.runningOf n).length) ∧
    (∀ n, (m.sched.starts.filter (·.task.node = n)).map (·.task.runNumber) =
      List.range' 1 (m.sched.runCounts n)) ∧
    (∀ n, (m.sched.runningOf n).length ≤ (job.ir.node n).maxConcurrency) ∧
    (∀ n limit, (job.ir.node n).maxRuns = some limit → m.sched.runCounts n ≤ limit) ∧
    (∀ limit, job.ir.maxRuns = some limit → m.sched.totalRuns ≤ limit) ∧
    (m.sched.pending.map (fun s => (s.node, s.activation.groupId)) ++ m.sched.running).Nodup := by
  have hwf := (reach_microPath hv h).2
  have hcounted := reach_counted hv h
  exact ⟨(sum_runCounts hv hwf hcounted).symm, runCounts_eq hwf, hcounted.numbers,
    reach_within hv h, hcounted.node, hcounted.workflow, hwf.keys⟩

/-- The first node of a resumed chain is recorded and the second is running. -/
theorem run_accounting_resumed : ∃ m, Reach Sample.resumed m ∧
    m.sched.completions.length = 1 ∧ m.sched.running.length = 1 ∧ m.sched.totalRuns =
      ((Sample.resumed.ir.nodes.map (·.id)).map m.sched.runCounts).sum := by
  obtain ⟨m, hm, hlen, hrun⟩ : ∃ m, Sample.after Sample.resumed [.turn, .turn] = some m ∧
      m.sched.completions.length = 1 ∧ m.sched.running.length = 1 := by
    refine ⟨_, (Option.some_get (by decide +kernel)).symm, ?_, ?_⟩ <;> decide +kernel
  have hreach := Sample.reach_after hm
  exact ⟨m, hreach, hlen, hrun, (run_accounting Sample.resumed_valid hreach).1⟩

end Raticode.Rattish
