import Raticode.RattishContexts
import Raticode.RattishReplay

/-! The guaranteed sources of `_analyze_graph` have outputs. What dominates a node has
completed when the node is activated, and what it needs, directly or not, is latched. -/
namespace Raticode.Rattish
open OrderedDict Relation

variable {job : Job} {st st' : Sched}

section Consistent

def NodeRunRecord.Consistent (ir : IR) (r : NodeRunRecord) : Prop :=
  r.result.outcome = .allowedFailure → (ir.node r.nodeId).allowFail = true

/-- The saved records fit the workflow. A run is only resumed when the workflow has not
changed, so they are records of a run of the same nodes. -/
def Job.Consistent (job : Job) : Prop := ∀ r ∈ job.replay, r.Consistent job.ir

/-- Every record still to be replayed, awaited or processed fits the workflow. -/
structure QueuesConsistent (job : Job) (st : Sched) : Prop where
  ready : ∀ e ∈ st.replayReady, e.Saved job
  channel : ∀ c ∈ st.channel, c.record.Consistent job.ir
  completions : ∀ c ∈ st.completions, c.record.Consistent job.ir

theorem QueuesConsistent.frame (h : QueuesConsistent job st)
    (hr : st'.replayReady = st.replayReady) (hc : st'.channel = st.channel)
    (hcs : st'.completions = st.completions) : QueuesConsistent job st' :=
  ⟨hr ▸ h.ready, hc ▸ h.channel, hcs ▸ h.completions⟩

theorem QueuesConsistent.complete (hj : job.Consistent) (h : QueuesConsistent job st)
    {c : Completion} {st₀ : Sched} (hp : Pops job st c st₀) :
    QueuesConsistent job (st₀.recordCompletion job c) := by
  have hc : st₀.completions = st.completions := (pops_frame hp).2.2.2.1
  have hall : (∀ e ∈ st₀.replayReady, e.Saved job) ∧
      (∀ c ∈ st₀.channel, c.record.Consistent job.ir) ∧ c.record.Consistent job.ir := by
    cases hp with
    | @ready e others hpop =>
      have hperm := popEarliest_perm hpop
      have he := h.ready e (hperm.mem_iff.mpr List.mem_cons_self)
      refine ⟨fun x hx => h.ready x (hperm.mem_iff.mpr (List.mem_cons_of_mem _ hx)), h.channel, ?_⟩
      have hnode : e.prior.nodeId = e.node := congrArg Prod.fst he.key
      intro hout
      rw [← hj e.prior (List.mem_of_getElem? he.position) hout, hnode]
      rfl
    | channel hch =>
      have hall : ∀ x ∈ c :: _, x.record.Consistent job.ir := hch ▸ h.channel
      exact ⟨h.ready, fun x hx => hall x (List.mem_cons_of_mem _ hx), hall c List.mem_cons_self⟩
  refine ⟨hall.1, hall.2.1, fun x hx => ?_⟩
  rcases List.mem_append.mp (show x ∈ st₀.completions ++ [c] from hx) with hx | hx
  · exact h.completions x (hc ▸ hx)
  · exact List.mem_singleton.mp hx ▸ hall.2.2

theorem QueuesConsistent.micro (hj : job.Consistent) (h : QueuesConsistent job st)
    (hm : Micro job st st') : QueuesConsistent job st' := by
  cases hm with
  | complete hp => exact h.complete hj hp
  | work _ hw =>
    have hq := work_sameQueues hw
    exact h.frame hq.replayReady hq.channel (work_completions hw)
  | idle hi =>
    have hc : st'.completions = st.completions := idlePath_completions (.single hi)
    cases hi with
    | start _ _ _ hd =>
      cases hd with
      | ready counts _ hs =>
        refine ⟨fun x hx => ?_, h.channel, h.completions⟩
        rcases List.mem_append.mp hx with hx | hx
        · exact h.ready x hx
        · exact List.mem_singleton.mp hx ▸ hs
      | held | live => exact h.frame rfl rfl hc
    | refuse | finishReplay => exact h.frame rfl rfl hc
    | @send i t result _ hr =>
      refine ⟨h.ready, fun x hx => ?_, h.completions⟩
      rcases List.mem_append.mp (show x ∈ st.channel ++ [t.completion result] from hx) with hx | hx
      · exact h.channel x hx
      · rw [List.mem_singleton.mp hx]
        intro hout
        simp only [allowedResult, Bool.and_eq_true, show result.outcome = .allowedFailure from hout]
          at hr
        exact hr.2

theorem queuesConsistent_initial : QueuesConsistent job (Sched.initial job) := by
  obtain ⟨news, heq⟩ := initial_eq job
  rw [heq]
  exact ⟨by rintro _ ⟨⟩, by rintro _ ⟨⟩, by rintro _ ⟨⟩⟩

end Consistent

section Tables

def HasOutput (st : Sched) (lineage : LineageId) (node : NodeId) : Prop :=
  ((st.outputs lineage).get node).isSome

def Strict (job : Job) (node : NodeId) : Prop := (job.ir.node node).allowFail = false

theorem recordOutput_isSome {result : NodeExecutionResult} {node d : NodeId}
    {outputs : Dict NodeId Value} (h : (outputs.get d).isSome) :
    ((Sched.recordOutput result node outputs).get d).isSome := by
  unfold Sched.recordOutput
  split
  · rw [Dict.get_set]
    split
    · rfl
    · exact h
  · exact h

inductive TablesChange (job : Job) (st st' : Sched) : Prop
  | grown : st'.satisfied = st.satisfied →
      (∀ lineage node, HasOutput st lineage node → HasOutput st' lineage node) →
      TablesChange job st st'
  | latched (c : Completion) : st.completions.getLast? = some c → c.ok →
      st' = st.latchCompleted c → TablesChange job st st'
  | opened (key : LineageId) (ls : LoopState) (news : List Signal) :
      st.loops.get key = some ls → st' = (st.openIteration ls).addSignals news →
      TablesChange job st st'

theorem micro_tables (hm : Micro job st st') : TablesChange job st st' := by
  cases hm with
  | @complete st₀ c hp =>
    have hout : st₀.outputs = st.outputs := by cases hp <;> rfl
    refine .grown (pops_frame hp).2.2.2.2.2.1 (fun lineage node h => ?_)
    unfold HasOutput at h ⊢
    simp only [Sched.recordCompletion, hout, update]
    split
    next he => exact recordOutput_isSome (he ▸ h)
    · exact h
  | work hc hw =>
    cases hw with
    | latch hok => exact .latched _ hc hok rfl
    | quiet hq =>
      cases hq with
      | prune live key =>
        unfold Sched.prune
        split <;> exact .grown rfl (fun _ _ => id)
      | merge =>
        unfold Sched.mergeLockedSignals
        split <;> exact .grown rfl (fun _ _ => id)
      | iterate hls _ _ _ => exact .opened _ _ _ hls rfl
      | _ => exact .grown rfl (fun _ _ => id)
  | idle hi =>
    cases hi with
    | start _ _ _ hd => cases hd <;> exact .grown rfl (fun _ _ => id)
    | refuse | finishReplay | send => exact .grown rfl (fun _ _ => id)

theorem TablesChange.keeps (hwf : WellFormed job st) (h : TablesChange job st st')
    {a : Activation} (ha : Placed st a) {node : NodeId} (hout : HasOutput st a.lineageId node) :
    HasOutput st' a.lineageId node := by
  cases h with
  | grown _ hgrow => exact hgrow _ _ hout
  | latched c _ _ he =>
    subst he
    exact hout
  | opened key ls news hls he =>
    subst he
    have hne := (ha.ne_nextGroup hls (hwf.lineage hls)).1
    simpa only [HasOutput, Sched.addSignals, Sched.openIteration, update_ne _ _ hne] using hout

theorem hasOutput_opened {ls : LoopState} {news : List Signal} {node : NodeId}
    (h : node = ls.nodeId ∨ HasOutput st ls.parentLineageId node) :
    HasOutput ((st.openIteration ls).addSignals news) ls.nextGroup node := by
  simp only [HasOutput, Sched.addSignals, Sched.openIteration, update_same, Dict.get_set]
  split
  · rfl
  next hne => exact h.resolve_left (fun he => hne he.symm)

end Tables

/-- Every activation finds the outputs of the nodes that dominate its own and do not
allow failure; what is latched has an output and its needs latched with it. -/
structure Supplied (job : Job) (st : Sched) : Prop where
  pending : ∀ s ∈ st.pending, ∀ d ∈ job.ir.dominators s.node, d ≠ s.node → Strict job d →
    HasOutput st s.activation.lineageId d
  starts : ∀ s ∈ st.starts, ∀ d ∈ job.ir.dominators s.task.node, d ≠ s.task.node → Strict job d →
    HasOutput st s.task.activation.lineageId d
  recorded : ∀ c ∈ st.completions, c.ok → Strict job c.record.nodeId →
    HasOutput st c.activation.lineageId c.record.nodeId
  latched : ∀ lineage, ∀ m ∈ st.satisfied lineage, Strict job m → HasOutput st lineage m
  closed : ∀ lineage, ∀ m ∈ st.satisfied lineage, ∀ n ∈ (job.ir.node m).needs,
    n ∈ st.satisfied lineage
  snapshots : ∀ s ∈ st.starts, ∀ d ∈ job.ir.guaranteedSources s.task.node, Strict job d →
    (s.task.outputs.get d).isSome

section Preserve

theorem Supplied.route (hv : job.ir.Valid) (hwf : WellFormed job st) (h : Supplied job st)
    {c : Completion} (hc : c ∈ st.completions) (hok : c.ok) {r : Route}
    (hr : r ∈ (job.ir.node c.record.nodeId).routes) {d : NodeId}
    (hd : d ∈ job.ir.dominators r.target) (hne : d ≠ r.target) (hs : Strict job d) :
    HasOutput st c.activation.lineageId d := by
  have hknown := (hwf.of_completion hc).2.1
  have htarget := hv.target_known hknown hr
  have hdom := (IR.mem_dominators htarget hd hne).2 _ (mem_predecessors_of_route hv hknown hr).2
  by_cases hself : d = c.record.nodeId
  · subst hself
    exact h.recorded c hc hok hs
  · obtain ⟨s, hsm, hnode, hact⟩ := hwf.start_of_completion hc
    rw [← hact]
    rw [← hnode] at hdom hself
    exact h.starts s hsm d hdom hself hs

theorem Supplied.signal (hv : job.ir.Valid) (hwf : WellFormed job st) (h : Supplied job st)
    (ht : TablesChange job st st') {s : Signal} (hs : SignalFrom job st st' s) {d : NodeId}
    (hd : d ∈ job.ir.dominators s.node) (hne : d ≠ s.node) (hstrict : Strict job d) :
    HasOutput st' s.activation.lineageId d := by
  cases hs with
  | old hs => exact ht.keeps hwf (hwf.placedPending s hs) (h.pending s hs d hd hne hstrict)
  | iterated key ls news hls _ _ he htarget _ hact =>
    have hloop := hwf.loops key ls hls
    obtain ⟨c, hc, ho⟩ := hloop.opened
    obtain ⟨r, hr, hrt⟩ := List.mem_map.mp htarget
    have hroute := hloop.routes r hr
    rw [← ho.node] at hroute
    rw [← hrt] at hd hne
    have hout := h.route hv hwf hc ho.ok hroute hd hne hstrict
    rw [he, hact]
    exact hasOutput_opened (.inr (ho.lineage ▸ hout))
  | emitted c hc hok _ htarget _ hact =>
    obtain ⟨r, hr, hrt⟩ := List.mem_map.mp htarget
    have hcm := List.mem_of_getLast? hc
    rw [← hrt] at hd hne
    have hout := h.route hv hwf hcm hok (mem_of_mem_matchingRoutes hr) hd hne hstrict
    rw [hact]
    exact ht.keeps hwf (hwf.of_completion hcm).1 hout
  | merged first hfirst hnode _ hact =>
    rw [hnode] at hd hne
    have hout := h.pending first hfirst d hd hne hstrict
    rw [hact]
    exact ht.keeps hwf (hwf.placedPending first hfirst) hout

theorem Supplied.needed (h : Supplied job st) {lineage : LineageId} {node m : NodeId}
    (hneeds : ∀ n ∈ (job.ir.node node).needs, n ∈ st.satisfied lineage)
    (ht : TransGen job.ir.Needs node m) : m ∈ st.satisfied lineage := by
  induction ht with
  | single hn => exact hneeds _ hn
  | tail _ hn ih => exact h.closed lineage _ ih _ hn

theorem Supplied.snapshot (hv : job.ir.Valid) (hwf : WellFormed job st) (h : Supplied job st)
    {s : Signal} (hs : s ∈ st.pending) (hu : st.isUnlocked job.ir s.node s.activation = true)
    {d : NodeId} (hd : d ∈ job.ir.guaranteedSources s.node) (hstrict : Strict job d) :
    ((st.taskOf s).outputs.get d).isSome := by
  refine Dict.get_merge_isSome_left ?_
  obtain ⟨hne, hd⟩ := Finset.mem_erase.mp hd
  rcases Finset.mem_union.mp hd with hd | hd
  · exact h.pending s hs d hd hne hstrict
  · simp only [Sched.isUnlocked, Sched.lineageIsUnlocked, List.all_eq_true,
      List.contains_iff_mem] at hu
    have ht := (IR.mem_needClosure hv (hwf.knownPending s hs)).mp hd
    exact h.latched _ d (h.needed hu ht) hstrict

theorem Supplied.tables (hwf : WellFormed job st) (h : Supplied job st)
    (ht : TablesChange job st st') :
    (∀ lineage, ∀ m ∈ st'.satisfied lineage, Strict job m → HasOutput st' lineage m) ∧
      ∀ lineage, ∀ m ∈ st'.satisfied lineage, ∀ n ∈ (job.ir.node m).needs,
        n ∈ st'.satisfied lineage := by
  cases ht with
  | grown hsat hgrow =>
    rw [hsat]
    exact ⟨fun l m hm hs => hgrow l m (h.latched l m hm hs), h.closed⟩
  | latched c hc hok he =>
    subst he
    have hcm := List.mem_of_getLast? hc
    have hmem : ∀ l m, m ∈ (st.latchCompleted c).satisfied l →
        m ∈ st.satisfied l ∨ (l = c.activation.lineageId ∧ m = c.record.nodeId) := by
      intro l m hm
      simp only [Sched.latchCompleted, Sched.latch, update] at hm
      split at hm
      next he =>
        rcases List.mem_insert_iff.mp hm with rfl | hm
        · exact .inr ⟨he, rfl⟩
        · exact .inl (he ▸ hm)
      · exact .inl hm
    have hkeep : ∀ l, ∀ m ∈ st.satisfied l, m ∈ (st.latchCompleted c).satisfied l := by
      intro l m hm
      simp only [Sched.latchCompleted, Sched.latch, update]
      split
      next he => exact List.mem_insert_of_mem (he ▸ hm)
      · exact hm
    refine ⟨fun l m hm hs => ?_, fun l m hm n hn => ?_⟩
    · rcases hmem l m hm with hm | ⟨rfl, rfl⟩
      · exact h.latched l m hm hs
      · exact h.recorded c hcm hok hs
    · rcases hmem l m hm with hm | ⟨rfl, rfl⟩
      · exact hkeep l n (h.closed l m hm n hn)
      · exact hkeep _ n ((hwf.of_completion hcm).2.2 n hn)
  | opened key ls news hls he =>
    subst he
    obtain ⟨c, hc, ho⟩ := (hwf.loops key ls hls).opened
    have hloopNeeds : ∀ n ∈ (job.ir.node ls.nodeId).needs, n ∈ st.satisfied ls.parentLineageId := by
      rw [← ho.node, ← ho.lineage]
      exact (hwf.of_completion hc).2.2
    refine ⟨fun l m hm hs => ?_, fun l m hm n hn => ?_⟩
    · by_cases hl : l = ls.nextGroup
      · subst hl
        simp only [Sched.addSignals, Sched.openIteration, update_same] at hm
        refine hasOutput_opened ((List.mem_insert_iff.mp hm).imp id (fun hm => ?_))
        exact h.latched _ m hm hs
      · simp only [HasOutput, Sched.addSignals, Sched.openIteration, update_ne _ _ hl] at hm ⊢
        exact h.latched l m hm hs
    · by_cases hl : l = ls.nextGroup
      · subst hl
        simp only [Sched.addSignals, Sched.openIteration, update_same] at hm ⊢
        refine List.mem_insert_of_mem ?_
        rcases List.mem_insert_iff.mp hm with rfl | hm
        · exact hloopNeeds n hn
        · exact h.closed _ m hm n hn
      · simp only [Sched.addSignals, Sched.openIteration, update_ne _ _ hl] at hm ⊢
        exact h.closed l m hm n hn

theorem success_of_ok {c : Completion} (hcons : c.record.Consistent job.ir) (hok : c.ok)
    (hs : Strict job c.record.nodeId) : c.record.result.outcome = .success := by
  cases ho : c.record.result.outcome with
  | success => rfl
  | allowedFailure => exact absurd (hs.symm.trans (hcons ho)) (by decide)
  | failure => exact absurd ho hok

theorem Supplied.recorded_micro (hj : job.Consistent) (hwf : WellFormed job st)
    (hq : QueuesConsistent job st) (h : Supplied job st) (hm : Micro job st st') :
    ∀ c ∈ st'.completions, c.ok → Strict job c.record.nodeId →
      HasOutput st' c.activation.lineageId c.record.nodeId := by
  have ht := micro_tables hm
  intro x hx hok hs
  have hcons := (hq.micro hj hm).completions x hx
  cases hm with
  | @complete st₀ c hp =>
    rcases List.mem_append.mp (show x ∈ st₀.completions ++ [c] from hx) with hx | hx
    · have hx' := (pops_frame hp).2.2.2.1 ▸ hx
      exact ht.keeps hwf (hwf.of_completion hx').1 (h.recorded x hx' hok hs)
    · obtain rfl := List.mem_singleton.mp hx
      simp [HasOutput, Sched.recordCompletion, Sched.recordOutput, success_of_ok hcons hok hs]
  | work _ hw =>
    rw [work_completions hw] at hx
    exact ht.keeps hwf (hwf.of_completion hx).1 (h.recorded x hx hok hs)
  | idle hi =>
    rw [idlePath_completions (.single hi)] at hx
    exact ht.keeps hwf (hwf.of_completion hx).1 (h.recorded x hx hok hs)

theorem Supplied.micro (hv : job.ir.Valid) (hj : job.Consistent) (hwf : WellFormed job st)
    (hq : QueuesConsistent job st) (h : Supplied job st) (hm : Micro job st st') :
    Supplied job st' := by
  have ht := micro_tables hm
  obtain ⟨hlatched, hclosed⟩ := h.tables hwf ht
  have hstarts : ∀ s ∈ st'.starts, s ∈ st.starts ∨ ∃ sig ∈ st.pending,
      st.isUnlocked job.ir sig.node sig.activation = true ∧ s.task = st.taskOf sig := by
    intro s hs
    rcases micro_starts hm with heq | ⟨sig, hsig, hu, heq, -⟩
    · exact .inl (heq ▸ hs)
    · rw [heq] at hs
      rcases List.mem_append.mp hs with hs | hs
      · exact .inl hs
      · exact .inr ⟨sig, hsig, hu, congrArg Start.task (List.mem_singleton.mp hs)⟩
  refine ⟨fun s hs d hd hne hstrict => ?_, fun s hs d hd hne hstrict => ?_,
    h.recorded_micro hj hwf hq hm, hlatched, hclosed, fun s hs d hd hstrict => ?_⟩
  · exact h.signal hv hwf ht (micro_pending hm hs) hd hne hstrict
  · rcases hstarts s hs with hs | ⟨sig, hsig, -, he⟩
    · exact ht.keeps hwf (hwf.placedStarts s hs) (h.starts s hs d hd hne hstrict)
    · rw [he] at hd hne ⊢
      exact ht.keeps hwf (hwf.placedPending sig hsig) (h.pending sig hsig d hd hne hstrict)
  · rcases hstarts s hs with hs | ⟨sig, hsig, hu, he⟩
    · exact h.snapshots s hs d hd hstrict
    · rw [he] at hd ⊢
      exact h.snapshot hv hwf hsig hu hd hstrict

end Preserve

theorem supplied_initial (hv : job.ir.Valid) : Supplied job (Sched.initial job) := by
  obtain ⟨news, heq, -, hnews⟩ := enqueueInitial_spec job.ir (Sched.fresh job)
  rw [Sched.initial, heq]
  refine ⟨fun s hs d hd hne => ?_, by rintro _ ⟨⟩, by rintro _ ⟨⟩, by rintro _ _ ⟨⟩,
    by rintro _ _ ⟨⟩, by rintro _ ⟨⟩⟩
  obtain ⟨hknown, hinit, -⟩ := hnews s (by simpa [Sched.addSignals, Sched.fresh] using hs)
  obtain ⟨hmem, hid⟩ := IR.node_mem hknown
  have hstart : s.node ∈ job.ir.starts :=
    IR.mem_starts.mpr ⟨_, hmem, (hv.initial_iff _ hmem).mp hinit, hid⟩
  exact absurd hstart (IR.mem_dominators hknown hd hne).1

theorem reach_supplied (hv : job.ir.Valid) (hj : job.Consistent) {m : Machine}
    (h : Reach job m) : QueuesConsistent job m.sched ∧ Supplied job m.sched :=
  reach_invariant (P := fun st => QueuesConsistent job st ∧ Supplied job st) hv
    ⟨queuesConsistent_initial, supplied_initial hv⟩
    (fun _ _ hwf hi hm => ⟨hi.1.micro hj hm, hi.2.micro hv hj hwf hi.1 hm⟩) h

/-- What a run records fits its workflow, so a run of the same workflow may replay it. -/
theorem consistent_of_reach (hv : job.ir.Valid) (hj : job.Consistent) {m : Machine} (h : Reach job m)
    {resumed : Job} (hir : resumed.ir = job.ir)
    (hreplay : resumed.replay = m.sched.completions.map (·.record)) : resumed.Consistent := by
  intro r hr
  obtain ⟨c, hc, rfl⟩ := List.mem_map.mp (hreplay ▸ hr)
  rw [hir]
  exact (reach_supplied hv hj h).1.completions c hc

/-- The snapshot a start receives has an output of every guaranteed source of its node
that does not allow failure, so the producer of a reference that was lowered as not
optional is never absent. -/
theorem guaranteed_sources_present (hv : job.ir.Valid) (hj : job.Consistent) {m : Machine}
    (h : Reach job m) {s : Start} (hs : s ∈ m.sched.starts) :
    (∀ d ∈ job.ir.guaranteedSources s.task.node, (job.ir.node d).allowFail = false →
      (s.task.outputs.get d).isSome) ∧
    ∀ d, job.ir.outputOptional s.task.node d = false → (s.task.outputs.get d).isSome := by
  have hsup := (reach_supplied hv hj h).2.snapshots s hs
  refine ⟨hsup, fun d hopt => ?_⟩
  simp only [IR.outputOptional, Bool.or_eq_false_iff, decide_eq_false_iff_not, not_not] at hopt
  exact hsup d hopt.1 hopt.2

/-- The body of the nested loops may refer to the outer loop without a default. -/
theorem guaranteed_sources_present_nested : ∃ m s, Reach Sample.nested m ∧ s ∈ m.sched.starts ∧
    s.task.node = "body" ∧ Sample.nested.ir.outputOptional "body" "outer" = false ∧
    (s.task.outputs.get "outer").isSome := by
  obtain ⟨m, hm, hlen⟩ : ∃ m, Sample.after Sample.nested
      (Sample.finish (Sample.items 2) ++ Sample.finish (Sample.items 2)) = some m ∧
      (m.sched.starts.map (·.task.node))[2]? = some "body" := by
    refine ⟨_, (Option.some_get (by decide +kernel)).symm, ?_⟩
    decide +kernel
  rw [List.getElem?_map] at hlen
  obtain ⟨s, hs, hnode⟩ := Option.map_eq_some_iff.mp hlen
  have hreach := Sample.reach_after hm
  have hmem := List.mem_of_getElem? hs
  have hopt : Sample.nested.ir.outputOptional "body" "outer" = false := by decide +kernel
  refine ⟨m, s, hreach, hmem, hnode, hopt, ?_⟩
  exact (guaranteed_sources_present Sample.nested_valid (by simp [Job.Consistent, Sample.nested])
    hreach hmem).2 "outer" (hnode ▸ hopt)

end Raticode.Rattish
