import Raticode.RattishGraph
import Raticode.RattishLatch

/-! The contexts of `_analyze_graph` cover the lineages of every run. The static context
of an activation is the list of the loops around it, in the order of its own table:
a loop that is entered again keeps its place there, as it does in the analysis. -/
namespace Raticode.Rattish
open OrderedDict Relation

def Activation.context (a : Activation) : List NodeId := a.loopLineages.keys

variable {job : Job} {st st' : Sched}

section Prefix

theorem Placed.loopLineages_eq {a b : Activation} (ha : Placed st a) (hb : Placed st b)
    (h : a.lineageId = b.lineageId) : a.loopLineages = b.loopLineages := by
  by_cases hr : a.lineageId = rootLineage
  · rw [(ha.of_root hr).2, (hb.of_root (h ▸ hr)).2]
  · cases ha with
    | root hl => exact absurd hl hr
    | iteration ls i hls _ hg hl hloops =>
      cases hb with
      | root hl' => exact absurd (h.trans hl') hr
      | iteration ls' i' hls' _ hg' hl' hloops' =>
        rw [hl, hg, hl', hg'] at h
        obtain ⟨hkey, -⟩ := iterationGroup_inj.mp h
        rw [hkey, hls'] at hls
        obtain rfl := Option.some.inj hls
        rw [hloops, hloops']

theorem keys_prefix_set (d : Dict NodeId LineageId) (k : NodeId) (v : LineageId) :
    d.keys <+: (d.set k v).keys := by
  rw [Dict.keys_set]
  split
  · exact List.prefix_rfl
  · exact List.prefix_append _ _

theorem Encloses.context_prefix (hwf : WellFormed job st) {outer inner : LineageId}
    (h : Encloses st outer inner) {a b : Activation} (ha : Placed st a) (hal : a.lineageId = inner)
    (hb : Placed st b) (hbl : b.lineageId = outer) : b.context <+: a.context := by
  unfold Encloses at h
  induction h using ReflTransGen.head_induction_on generalizing a with
  | refl =>
    rw [Activation.context, hb.loopLineages_eq ha (hbl.trans hal.symm)]
    exact List.prefix_rfl
  | head ho _ ih =>
    obtain ⟨ls, i, hls, hi, rfl, rfl⟩ := ho
    obtain ⟨c, hc, hopened⟩ := (hwf.loops _ _ hls).opened
    have hparent := ih (hwf.of_completion hc).1 hopened.lineage
    have hloops : a.loopLineages = ls.parentLineages.set ls.nodeId ls.lineageId := by
      have hmade : Placed st { a with groupId := iterationGroup ls.lineageId i
                                      loopLineages := ls.parentLineages.set ls.nodeId
                                        ls.lineageId } :=
        .iteration ls i hls hi rfl hal rfl
      exact ha.loopLineages_eq hmade rfl
    refine hparent.trans ?_
    rw [Activation.context, Activation.context, hloops, hopened.lineages]
    exact keys_prefix_set _ _ _

end Prefix

/-- Every activation has a context of its node, and the nodes that have started are
among those that the analysis takes for runnable. -/
structure Foreseen (job : Job) (st : Sched) : Prop where
  pending : ∀ s ∈ st.pending, s.activation.context ∈ job.ir.activationContexts s.node ∧
    (s.node ∈ job.ir.starts ∨ ∃ p ∈ job.ir.predecessors s.node, p ∈ job.ir.potentiallyRunnable)
  starts : ∀ s ∈ st.starts, s.task.activation.context ∈ job.ir.activationContexts s.task.node ∧
    s.task.node ∈ job.ir.potentiallyRunnable

theorem mem_predecessors_of_route {ir : IR} (hv : ir.Valid) {node : NodeId}
    (hn : node ∈ ir.nodes.map (·.id)) {r : Route} (hr : r ∈ (ir.node node).routes) :
    r.target ∈ ir.targets (ir.node node) ∧ node ∈ ir.predecessors r.target := by
  obtain ⟨hmem, hid⟩ := IR.node_mem hn
  have htarget : r.target ∈ ir.targets (ir.node node) :=
    IR.mem_targets.mpr ⟨⟨r, hr, rfl⟩, hv.targets_known _ hmem r hr⟩
  exact ⟨htarget, IR.mem_predecessors.mpr ⟨_, hmem, htarget, hid⟩⟩

theorem Foreseen.route (hv : job.ir.Valid) (hwf : WellFormed job st) (h : Foreseen job st)
    {c : Completion} (hc : c ∈ st.completions) {r : Route}
    (hr : r ∈ (job.ir.node c.record.nodeId).routes) :
    IR.routedContext (job.ir.node c.record.nodeId) c.activation.context ∈
        job.ir.activationContexts r.target ∧
      ∃ p ∈ job.ir.predecessors r.target, p ∈ job.ir.potentiallyRunnable := by
  obtain ⟨s, hs, hnode, hact⟩ := hwf.start_of_completion hc
  obtain ⟨hctx, hrun⟩ := h.starts s hs
  rw [hnode] at hctx hrun
  rw [hact] at hctx
  have hknown := (hwf.of_completion hc).2.1
  obtain ⟨hmem, hid⟩ := IR.node_mem hknown
  obtain ⟨htarget, hpred⟩ := mem_predecessors_of_route hv hknown hr
  exact ⟨IR.mem_activationContexts_of_route hmem htarget (by rw [hid]; exact hctx),
    c.record.nodeId, hpred, hrun⟩

theorem Foreseen.signal (hv : job.ir.Valid) (hwf : WellFormed job st) (h : Foreseen job st)
    {s : Signal} (hs : SignalFrom job st st' s) :
    s.activation.context ∈ job.ir.activationContexts s.node ∧
      (s.node ∈ job.ir.starts ∨
        ∃ p ∈ job.ir.predecessors s.node, p ∈ job.ir.potentiallyRunnable) := by
  cases hs with
  | old hs => exact h.pending s hs
  | iterated key ls news hls _ _ _ htarget _ hact =>
    have hloop := hwf.loops key ls hls
    obtain ⟨c, hc, ho⟩ := hloop.opened
    obtain ⟨r, hr, hrt⟩ := List.mem_map.mp htarget
    have hroute := hloop.routes r hr
    rw [← ho.node] at hroute
    obtain ⟨hctx, hpred⟩ := h.route hv hwf hc hroute
    rw [hrt] at hctx hpred
    refine ⟨?_, .inr hpred⟩
    have hkeys : s.activation.context =
        IR.routedContext (job.ir.node c.record.nodeId) c.activation.context := by
      have htype := ho.type
      have hid := (IR.node_mem (hwf.of_completion hc).2.1).2
      rw [ho.node] at htype hid ⊢
      rw [hact, IR.routedContext, htype, hid, Activation.context, Activation.context, ho.lineages]
      show (ls.parentLineages.set ls.nodeId ls.lineageId).keys = _
      rw [Dict.keys_set]
      by_cases hm : ls.nodeId ∈ ls.parentLineages.keys <;> simp [hm]
    exact hkeys ▸ hctx
  | emitted c hc hok htype htarget _ hact =>
    obtain ⟨r, hr, hrt⟩ := List.mem_map.mp htarget
    have hroute : r ∈ (job.ir.node c.record.nodeId).routes := mem_of_mem_matchingRoutes hr
    have hcm := List.mem_of_getLast? hc
    obtain ⟨hctx, hpred⟩ := h.route hv hwf hcm hroute
    rw [hrt] at hctx hpred
    refine ⟨?_, .inr hpred⟩
    -- a loop that routes on would be a terminal, and a terminal has no routes
    have hloop : (job.ir.node c.record.nodeId).type ≠ .loop := by
      intro hl
      have hfin : (job.ir.node c.record.nodeId).finish.isSome :=
        Option.isSome_iff_ne_none.mpr (fun hn => htype ⟨hl, hn⟩)
      rw [hv.finish_routes _ (IR.node_mem (hwf.of_completion hcm).2.1).1 hfin] at hroute
      simp at hroute
    have hkeys : s.activation.context =
        IR.routedContext (job.ir.node c.record.nodeId) c.activation.context := by
      rw [hact, IR.routedContext, if_neg (fun hl => hloop hl.1)]
      rfl
    exact hkeys ▸ hctx
  | merged first hfirst hnode _ hact =>
    obtain ⟨hctx, hrun⟩ := h.pending first hfirst
    have hkeys : s.activation.context = first.activation.context := by
      rw [hact]
      rfl
    rw [hnode, hkeys]
    exact ⟨hctx, hrun⟩

theorem Foreseen.micro (hv : job.ir.Valid) (hwf : WellFormed job st) (hl : Latched job st)
    (h : Foreseen job st) (hm : Micro job st st') : Foreseen job st' := by
  refine ⟨fun s hs => h.signal hv hwf (micro_pending hm hs), fun s hs => ?_⟩
  rcases micro_starts hm with heq | ⟨sig, hsig, hu, heq, -⟩
  · exact h.starts s (heq ▸ hs)
  · rw [heq] at hs
    rcases List.mem_append.mp hs with hs | hs
    · exact h.starts s hs
    obtain rfl := List.mem_singleton.mp hs
    obtain ⟨hctx, hrun⟩ := h.pending sig hsig
    refine ⟨hctx, ?_⟩
    obtain ⟨hstarts, hclosed⟩ := @IR.potentiallyRunnable_settled job.ir
    rcases hrun with hrun | hrun
    · exact hstarts _ hrun
    · obtain ⟨hmem, hid⟩ := IR.node_mem (hwf.knownPending sig hsig)
      have hneeds : ∀ m ∈ (job.ir.node sig.node).needs, m ∈ job.ir.potentiallyRunnable := by
        intro m hm
        simp only [Sched.isUnlocked, Sched.lineageIsUnlocked, List.all_eq_true,
          List.contains_iff_mem] at hu
        obtain ⟨c, hc, -, rfl, -⟩ := hl.satisfied _ m (hu m hm)
        obtain ⟨x, hx, hnode, -⟩ := hwf.start_of_completion hc
        exact hnode ▸ (h.starts x hx).2
      have := hclosed _ hmem hneeds (by rw [hid]; exact hrun)
      rwa [hid] at this

theorem foreseen_initial (hv : job.ir.Valid) : Foreseen job (Sched.initial job) := by
  obtain ⟨news, heq, -, hnews⟩ := enqueueInitial_spec job.ir (Sched.fresh job)
  rw [Sched.initial, heq]
  refine ⟨fun s hs => ?_, by rintro _ ⟨⟩⟩
  obtain ⟨hknown, hinit, -, -, -, hloops, -⟩ := hnews s (by
    simpa [Sched.addSignals, Sched.fresh] using hs)
  obtain ⟨hmem, hid⟩ := IR.node_mem hknown
  have hstart : s.node ∈ job.ir.starts :=
    IR.mem_starts.mpr ⟨_, hmem, (hv.initial_iff _ hmem).mp hinit, hid⟩
  refine ⟨?_, .inl hstart⟩
  rw [Activation.context, hloops]
  exact IR.mem_activationContexts_of_start hstart

theorem reach_foreseen (hv : job.ir.Valid) {m : Machine} (h : Reach job m) :
    Foreseen job m.sched :=
  (reach_invariant (P := fun st => Latched job st ∧ Foreseen job st) hv
    ⟨latched_initial, foreseen_initial hv⟩
    (fun _ _ hwf hi hm => ⟨hi.1.micro hwf hm, hi.2.micro hv hwf hi.1 hm⟩) h).2

theorem compatible_of_satisfied (hv : job.ir.Valid) {m : Machine} (h : Reach job m)
    {a : Activation} (ha : Placed m.sched a) {node : NodeId}
    (hctx : a.context ∈ job.ir.activationContexts node) {needed : NodeId}
    (hn : needed ∈ m.sched.satisfied a.lineageId) :
    ∃ p ∈ job.ir.activationContexts needed, ∃ c ∈ job.ir.activationContexts node, p <+: c := by
  have hwf := (reach_microPath hv h).2
  obtain ⟨c, hc, -, rfl, henc⟩ := (reach_latched hv h).satisfied _ needed hn
  obtain ⟨s, hs, hnode, hact⟩ := hwf.start_of_completion hc
  have hctx' := ((reach_foreseen hv h).starts s hs).1
  rw [hnode, hact] at hctx'
  exact ⟨_, hctx', _, hctx, henc.context_prefix hwf ha rfl (hwf.of_completion hc).1 rfl⟩

theorem IR.compatible_iff {ir : IR} {needed node : NodeId} : ir.compatible needed node ↔
    ∃ p ∈ ir.activationContexts needed, ∃ c ∈ ir.activationContexts node, p <+: c := by
  refine exists_congr fun p => and_congr_right fun _ => exists_congr fun c => and_congr_right
    fun _ => ?_
  rw [List.prefix_iff_eq_take]
  exact eq_comm

/-- Every node that starts is one the analysis takes for runnable, and every node latched
in the lineage of a start has a context that a context of the started node begins with.
So a requirement is reported as unreachable only if it is never latched, and as
incompatible only if no activation of the node ever finds it latched. -/
theorem rejections_justified (hv : job.ir.Valid) {m : Machine} (h : Reach job m) :
    (∀ s ∈ m.sched.starts, s.task.node ∈ job.ir.potentiallyRunnable ∧
      ∀ needed ∈ m.sched.satisfied s.task.activation.lineageId,
        ∃ p ∈ job.ir.activationContexts needed, ∃ c ∈ job.ir.activationContexts s.task.node,
          p <+: c) ∧
    (∀ d ∈ job.ir.unreachableRequirements, ∀ lineage, d.2 ∉ m.sched.satisfied lineage) ∧
    ∀ d ∈ job.ir.incompatibleLineages,
      (∀ s ∈ m.sched.pending, s.node = d.1 → d.2 ∉ m.sched.satisfied s.activation.lineageId) ∧
      ∀ s ∈ m.sched.starts, s.task.node ≠ d.1 := by
  have hwf := (reach_microPath hv h).2
  have hfor := reach_foreseen hv h
  have hincompatible : ∀ d ∈ job.ir.incompatibleLineages, d.2 ∈ (job.ir.node d.1).needs ∧
      ¬job.ir.compatible d.2 d.1 := by
    rintro ⟨id, needed⟩ hd
    obtain ⟨n, hn, hd⟩ := List.mem_flatMap.mp hd
    obtain ⟨needed', hm, he⟩ := List.mem_map.mp hd
    obtain ⟨rfl, rfl⟩ := Prod.mk.inj he
    obtain ⟨hneeds, hc⟩ := List.mem_filter.mp hm
    rw [hv.node_eq hn]
    exact ⟨hneeds, (of_decide_eq_true hc).2⟩
  refine ⟨fun s hs => ⟨(hfor.starts s hs).2, fun needed hn => ?_⟩, ?_, fun d hd => ⟨?_, ?_⟩⟩
  · exact compatible_of_satisfied hv h (hwf.placedStarts s hs) (hfor.starts s hs).1 hn
  · rintro ⟨id, needed⟩ hd lineage hsat
    obtain ⟨n, -, hd⟩ := List.mem_flatMap.mp hd
    obtain ⟨needed', hm, he⟩ := List.mem_map.mp hd
    obtain ⟨rfl, rfl⟩ := Prod.mk.inj he
    have hnot := (of_decide_eq_true (List.mem_filter.mp hm).2).2
    obtain ⟨c, hc, -, hnode, -⟩ := (reach_latched hv h).satisfied _ _ hsat
    obtain ⟨s, hs, hnode', -⟩ := hwf.start_of_completion hc
    have hrun := (hfor.starts s hs).2
    rw [hnode'.trans hnode] at hrun
    exact hnot hrun
  · rintro s hs hnode hsat
    refine (hincompatible d hd).2 (IR.compatible_iff.mpr ?_)
    have hctx := (hfor.pending s hs).1
    rw [hnode] at hctx
    exact compatible_of_satisfied hv h (hwf.placedPending s hs) hctx hsat
  · rintro s hs hnode
    obtain ⟨hneeds, hnot⟩ := hincompatible d hd
    have hsat := hwf.unlocked s hs d.2 (by rw [hnode]; exact hneeds)
    have hctx := (hfor.starts s hs).1
    rw [hnode] at hctx
    exact hnot (IR.compatible_iff.mpr
      (compatible_of_satisfied hv h (hwf.placedStarts s hs) hctx hsat))

/-- The body of the nested loops starts in a context of its own that begins with one of
the inner loop. -/
theorem rejections_justified_nested : ∃ m s, Reach Sample.nested m ∧ s ∈ m.sched.starts ∧
    s.task.node = "body" ∧ "body" ∈ Sample.nested.ir.potentiallyRunnable ∧
    ∃ p ∈ Sample.nested.ir.activationContexts "inner",
      ∃ c ∈ Sample.nested.ir.activationContexts "body", p <+: c := by
  obtain ⟨m, hm, hlen⟩ : ∃ m, Sample.after Sample.nested
      (Sample.finish (Sample.items 2) ++ Sample.finish (Sample.items 2)) = some m ∧
      (m.sched.starts.map (fun s => (s.task.node, m.sched.satisfied
        s.task.activation.lineageId)))[2]? = some ("body", ["inner", "outer"]) := by
    refine ⟨_, (Option.some_get (by decide +kernel)).symm, ?_⟩
    decide +kernel
  rw [List.getElem?_map] at hlen
  obtain ⟨s, hs, hpair⟩ := Option.map_eq_some_iff.mp hlen
  obtain ⟨hnode, hsat⟩ := Prod.mk.inj hpair
  have hreach := Sample.reach_after hm
  have hmem := List.mem_of_getElem? hs
  obtain ⟨hrun, hctx⟩ := (rejections_justified Sample.nested_valid hreach).1 s hmem
  have hinner := hctx "inner" (by rw [hsat]; simp)
  rw [hnode] at hrun hinner
  exact ⟨m, s, hreach, hmem, hnode, hrun, hinner⟩

end Raticode.Rattish
