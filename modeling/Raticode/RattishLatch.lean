import Raticode.RattishWellFormed

/-! Requirements. A node starts in a lineage only after everything it needs has
completed there or in a lineage around it. -/
namespace Raticode.Rattish
open OrderedDict Relation Components

/-- `parent` is the lineage of the loop that opened the iteration `child`. -/
inductive OpenedIn (st : Sched) (child parent : LineageId) : Prop
  | mk (ls : LoopState) (i : ℕ) : st.loops.get ls.lineageId = some ls → i < ls.nextIndex →
      child = iterationGroup ls.lineageId i → parent = ls.parentLineageId → OpenedIn st child parent

/-- `outer` is the lineage `inner` itself or one of its ancestors. -/
def Encloses (st : Sched) (outer inner : LineageId) : Prop :=
  ReflTransGen (OpenedIn st) inner outer

variable {job : Job} {st st' : Sched}

theorem OpenedIn.grow (hg : LoopsGrow st st') {child parent : LineageId}
    (h : OpenedIn st child parent) : OpenedIn st' child parent := by
  obtain ⟨ls, i, hls, hi, rfl, rfl⟩ := h
  obtain ⟨ls', hls', ha⟩ := hg _ _ hls
  obtain ⟨-, -, hlin, -, -, hpar, -⟩ := ha.fixed
  refine ⟨ls', i, by rw [hlin]; exact hls', hi.trans_le ha.2.1, by rw [hlin], hpar.symm⟩

theorem Encloses.grow (hg : LoopsGrow st st') {outer inner : LineageId}
    (h : Encloses st outer inner) : Encloses st' outer inner := by
  unfold Encloses at h ⊢
  induction h with
  | refl => exact .refl
  | tail _ ho ih => exact ih.tail (ho.grow hg)

theorem OpenedIn.shorter (hv : job.ir.Valid) (hwf : WellFormed job st) {child parent : LineageId}
    (h : OpenedIn st child parent) : (comps parent).length < (comps child).length := by
  obtain ⟨ls, i, hls, hi, rfl, rfl⟩ := h
  obtain ⟨c, hc, ho⟩ := (hwf.loops _ _ hls).opened
  obtain ⟨hplaced, hknown, -⟩ := hwf.of_completion hc
  have hcolon : ':' ∉ c.record.nodeId.toList := by
    obtain ⟨n, hn, he⟩ := List.mem_map.mp hknown
    exact he ▸ hv.colon_free n hn
  have hlen : (comps ls.lineageId).length = (comps c.activation.groupId).length + 3 := by
    rw [← ho.key, Completion.loopKey, comps_loopLineage hcolon]
    simp
  rw [comps_iterationGroup, List.length_append, hlen, ← ho.lineage]
  by_cases hr : c.activation.lineageId = rootLineage
  · have : (comps rootLineage).length = 1 := by decide +kernel
    rw [hr, this]
    simp
  · rw [(hplaced.of_ne_root hr).1]
    simp only [List.length_cons, List.length_nil]
    omega

theorem Encloses.shorter (hv : job.ir.Valid) (hwf : WellFormed job st) {outer inner : LineageId}
    (h : Encloses st outer inner) :
    outer = inner ∨ (comps outer).length < (comps inner).length := by
  unfold Encloses at h
  induction h with
  | refl => exact .inl rfl
  | tail _ ho ih =>
    have hs := ho.shorter hv hwf
    rcases ih with rfl | ih
    · exact .inr hs
    · exact .inr (hs.trans ih)

theorem OpenedIn.unique {child p q : LineageId}
    (hp : OpenedIn st child p) (hq : OpenedIn st child q) : p = q := by
  obtain ⟨ls, i, hls, -, he, rfl⟩ := hp
  obtain ⟨ls', i', hls', -, he', rfl⟩ := hq
  obtain ⟨hl, -⟩ := iterationGroup_inj.mp (he.symm.trans he')
  rw [hl, hls'] at hls
  rw [Option.some.inj hls]

theorem Encloses.total {p q inner : LineageId}
    (hp : Encloses st p inner) (hq : Encloses st q inner) : Encloses st p q ∨ Encloses st q p := by
  unfold Encloses at hp
  induction hp with
  | refl => exact .inr hq
  | @tail b p _ ho ih =>
    rcases ih with h | h
    · exact .inl (ReflTransGen.tail h ho)
    · rcases ReflTransGen.cases_head h with rfl | ⟨b', ho', h'⟩
      · exact .inl (.single ho)
      · rw [← ho.unique ho'] at h'
        exact .inr h'

theorem Encloses.iteration_unique (hv : job.ir.Valid) (hwf : WellFormed job st)
    {loop inner : LineageId} {i j : ℕ} (hi : Encloses st (iterationGroup loop i) inner)
    (hj : Encloses st (iterationGroup loop j) inner) : i = j := by
  have hlen : (comps (iterationGroup loop i)).length = (comps (iterationGroup loop j)).length := by
    simp [comps_iterationGroup]
  have heq : iterationGroup loop i = iterationGroup loop j := by
    rcases hi.total hj with h | h
    · rcases h.shorter hv hwf with h | h
      · exact h
      · omega
    · rcases h.shorter hv hwf with h | h
      · exact h.symm
      · omega
  exact (iterationGroup_inj.mp heq).2

def CompletedWithin (st : Sched) (cs : List Completion) (node : NodeId) (lineage : LineageId) :
    Prop :=
  ∃ c ∈ cs, c.ok ∧ c.record.nodeId = node ∧ Encloses st c.activation.lineageId lineage

theorem CompletedWithin.grow (hg : LoopsGrow st st') {cs cs' : List Completion}
    (hsub : ∀ c ∈ cs, c ∈ cs') {node : NodeId} {lineage : LineageId}
    (h : CompletedWithin st cs node lineage) : CompletedWithin st' cs' node lineage := by
  obtain ⟨c, hc, hok, hn, he⟩ := h
  exact ⟨c, hsub c hc, hok, hn, he.grow hg⟩

/-- What is marked satisfied completed in an enclosing lineage, and so had every need of a node
when it started. -/
structure Latched (job : Job) (st : Sched) : Prop where
  satisfied : ∀ lineage, ∀ m ∈ st.satisfied lineage, CompletedWithin st st.completions m lineage
  starts : ∀ s ∈ st.starts, ∀ m ∈ (job.ir.node s.task.node).needs,
    CompletedWithin st (st.completions.take s.recordsBefore) m s.task.activation.lineageId

theorem Latched.frame (h : Latched job st) (hg : LoopsGrow st st')
    (hsat : st'.satisfied = st.satisfied) (hc : st'.completions = st.completions)
    (hs : st'.starts = st.starts) : Latched job st' where
  satisfied := by
    rw [hsat, hc]
    exact fun l m hm => (h.satisfied l m hm).grow hg (fun _ => id)
  starts := by
    rw [hs, hc]
    exact fun s hm m hn => (h.starts s hm m hn).grow hg (fun _ => id)

theorem Latched.latch {c : Completion} (h : Latched job st) (hc : c ∈ st.completions)
    (hok : c.ok) : Latched job (st.latchCompleted c) where
  satisfied := by
    have hg : LoopsGrow st (st.latchCompleted c) := .of_eq rfl
    intro lineage m hm
    simp only [Sched.latchCompleted, Sched.latch, update] at hm
    split at hm
    next he =>
      rcases List.mem_insert_iff.mp hm with rfl | hm
      · exact ⟨c, hc, hok, rfl, he ▸ .refl⟩
      · exact (h.satisfied lineage m (he ▸ hm)).grow hg (fun _ => id)
    · exact (h.satisfied lineage m hm).grow hg (fun _ => id)
  starts := by
    have hg : LoopsGrow st (st.latchCompleted c) := .of_eq rfl
    exact fun s hs m hn => (h.starts s hs m hn).grow hg (fun _ => id)

theorem Latched.iterate (hwf : WellFormed job st) (h : Latched job st) {key : LineageId}
    {ls : LoopState} {news : List Signal} (hls : st.loops.get key = some ls)
    (hg : LoopsGrow st ((st.openIteration ls).addSignals news)) :
    Latched job ((st.openIteration ls).addSignals news) where
  satisfied := by
    have hloop := hwf.loops key ls hls
    obtain rfl := hloop.lineage
    have hopened : OpenedIn ((st.openIteration ls).addSignals news) ls.nextGroup
        ls.parentLineageId :=
      ⟨ls.counted, ls.nextIndex, Dict.get_set_self _ _ _, Nat.lt_succ_self _, rfl, rfl⟩
    intro lineage m hm
    simp only [Sched.addSignals, Sched.openIteration, update] at hm
    split at hm
    next he =>
      subst he
      rcases List.mem_insert_iff.mp hm with rfl | hm
      · obtain ⟨c, hc, ho⟩ := hloop.opened
        exact ⟨c, hc, ho.ok, ho.node, ho.lineage ▸ .single hopened⟩
      · obtain ⟨c, hc, hok, hn, henc⟩ := h.satisfied _ m hm
        exact ⟨c, hc, hok, hn, ReflTransGen.head hopened (henc.grow hg)⟩
    · exact (h.satisfied lineage m hm).grow hg (fun _ => id)
  starts := fun s hs m hn => (h.starts s hs m hn).grow hg (fun _ => id)

theorem Latched.micro (hwf : WellFormed job st) (h : Latched job st) (hm : Micro job st st') :
    Latched job st' := by
  have hg : LoopsGrow st st' := micro_loopsGrow (fun _ _ => hwf.lineage) hm
  cases hm with
  | @complete st₀ c hp =>
    obtain ⟨-, -, hstarts, hcomp, -, hsat, -⟩ := pops_frame hp
    constructor
    · intro lineage m hm
      simp only [Sched.recordCompletion, hsat] at hm
      exact (h.satisfied lineage m hm).grow hg (fun c' hc' => by
        simp [Sched.recordCompletion, hcomp, hc'])
    · intro s hs m hn
      simp only [Sched.recordCompletion, hstarts] at hs
      refine (h.starts s hs m hn).grow hg (fun c' hc' => ?_)
      simp only [Sched.recordCompletion, hcomp]
      rw [List.take_append]
      exact List.mem_append_left _ hc'
  | work hc hw =>
    cases hw with
    | latch hok => exact h.latch (List.mem_of_getLast? hc) hok
    | quiet hq =>
      cases hq with
      | iterate hls _ _ _ => exact h.iterate hwf hls hg
      | prune live key =>
        refine h.frame hg ?_ ?_ ?_
        all_goals
          unfold Sched.prune
          split <;> rfl
      | merge =>
        refine h.frame hg ?_ ?_ ?_
        all_goals
          unfold Sched.mergeLockedSignals
          split <;> rfl
      | _ => exact h.frame hg rfl rfl rfl
  | idle hi =>
    cases hi with
    | @start _ s hs hu _ hd =>
      obtain ⟨-, -, hstarts, hcomp, -, hsat, -⟩ := dispatched_frame hd
      have hstarts' : st'.starts = st.starts ++ [⟨st.taskOf s, st.completions.length, s.origins⟩] :=
        hstarts
      constructor
      · intro lineage m hm
        rw [hsat] at hm
        rw [hcomp]
        exact (h.satisfied lineage m hm).grow hg (fun _ => id)
      · intro p hp m hn
        rw [hstarts'] at hp
        rw [hcomp]
        rcases List.mem_append.mp hp with hp | hp
        · exact (h.starts p hp m hn).grow hg (fun _ => id)
        · obtain rfl := List.mem_singleton.mp hp
          simp only [Sched.isUnlocked, Sched.lineageIsUnlocked, List.all_eq_true,
            List.contains_iff_mem] at hu
          refine (h.satisfied _ m (hu m hn)).grow hg (fun c hc => ?_)
          show c ∈ st.completions.take st.completions.length
          rwa [List.take_length]
    | refuse | finishReplay | send => exact h.frame hg rfl rfl rfl

theorem latched_initial : Latched job (Sched.initial job) := by
  obtain ⟨news, heq⟩ := initial_eq job
  constructor
  · intro lineage m hm
    rw [heq] at hm
    simp [Sched.addSignals, Sched.fresh] at hm
  · intro s hs
    rw [heq] at hs
    simp [Sched.addSignals, Sched.fresh] at hs

theorem reach_latched (hv : job.ir.Valid) {m : Machine} (h : Reach job m) :
    Latched job m.sched :=
  reach_invariant hv latched_initial (fun _ _ hwf hl hm => hl.micro hwf hm) h

/-- Everything a started node needs had completed when it started, in the lineage
of the start or in one around it; of the iterations of a loop only the one the
start lies in is such a lineage. -/
theorem start_after_needs (hv : job.ir.Valid) {m : Machine} (h : Reach job m) {s : Start}
    (hs : s ∈ m.sched.starts) :
    (∀ n ∈ (job.ir.node s.task.node).needs,
      CompletedWithin m.sched (m.sched.completions.take s.recordsBefore) n
        s.task.activation.lineageId) ∧
    ∀ loop i j, Encloses m.sched (iterationGroup loop i) s.task.activation.lineageId →
      Encloses m.sched (iterationGroup loop j) s.task.activation.lineageId → i = j :=
  ⟨(reach_latched hv h).starts s hs,
    fun _ _ _ hi hj => hi.iteration_unique hv (reach_microPath hv h).2 hj⟩

/-- The body of a nested loop starts after the inner loop completed around it. -/
theorem start_after_needs_nested : ∃ m s, Reach Sample.nested m ∧ s ∈ m.sched.starts ∧
    s.task.node = "body" ∧
    CompletedWithin m.sched (m.sched.completions.take s.recordsBefore) "inner"
      s.task.activation.lineageId := by
  obtain ⟨m, hm, hlen⟩ : ∃ m, Sample.after Sample.nested
      (Sample.finish (Sample.items 2) ++ Sample.finish (Sample.items 2)) = some m ∧
      (m.sched.starts.map (·.task.node))[2]? = some "body" := by
    refine ⟨_, (Option.some_get (by decide +kernel)).symm, ?_⟩
    decide +kernel
  rw [List.getElem?_map] at hlen
  obtain ⟨s, hs, hnode⟩ := Option.map_eq_some_iff.mp hlen
  have hreach := Sample.reach_after hm
  have hmem := List.mem_of_getElem? hs
  refine ⟨m, s, hreach, hmem, hnode, ?_⟩
  have hneeds : "inner" ∈ (Sample.nested.ir.node s.task.node).needs := by
    rw [hnode]
    decide +kernel
  exact (start_after_needs Sample.nested_valid hreach hmem).1 "inner" hneeds

end Raticode.Rattish
