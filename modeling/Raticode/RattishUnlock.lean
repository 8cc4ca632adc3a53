import Raticode.RattishLatch

/-! Unlocking and time. An iteration copies the latch of its parent when it is
opened and never looks at the parent again, so a requirement that completes in
the parent afterwards is seen only by what was opened after it. -/
namespace Raticode.Rattish
open OrderedDict Relation

/-- A route of `k` leads to `n`. -/
def RouteTo (ir : IR) (k n : NodeId) : Prop := ∃ r ∈ (ir.node k).routes, r.target = n

/-- Routes lead from `k` to a node that needs `m`. -/
def Awaits (ir : IR) (k m : NodeId) : Prop :=
  ∃ n, ReflTransGen (RouteTo ir) k n ∧ m ∈ (ir.node n).needs

def Sched.live (st : Sched) : List (NodeId × LineageId) :=
  st.pending.map (fun s => (s.node, s.activation.lineageId)) ++
    st.inflight.map (fun f => (f.node, f.activation.lineageId))

def Completion.latches (job : Job) (c : Completion) : Prop :=
  (job.ir.node c.record.nodeId).finish ≠ some .fail ∨ (job.ir.node c.record.nodeId).type = .loop

/-- Whoever may still wait for the completed node, in its lineage or inside it, has
the node latched already or will see it latched: every queued or running
activation, and every loop with iterations to open. -/
structure Announced (job : Job) (st : Sched) (c : Completion) : Prop where
  live : ∀ p ∈ st.live, Encloses st c.activation.lineageId p.2 → Awaits job.ir p.1 c.record.nodeId →
    c.record.nodeId ∈ st.satisfied p.2 ∨ (p.2 = c.activation.lineageId ∧ c.latches job)
  loops : ∀ key ls, st.loops.get key = some ls → ls.canOpen →
    Encloses st c.activation.lineageId ls.parentLineageId → Awaits job.ir ls.nodeId c.record.nodeId →
    c.record.nodeId ∈ st.satisfied ls.parentLineageId ∨
      (ls.parentLineageId = c.activation.lineageId ∧ c.latches job ∧
        (job.ir.node c.record.nodeId).type ≠ .break)

def UnlocksInTime (job : Job) (st : Sched) : Prop :=
  ∀ s ∈ st.pending, (∀ n ∈ (job.ir.node s.node).needs,
    CompletedWithin st st.completions n s.activation.lineageId) →
    st.isUnlocked job.ir s.node s.activation = true

variable {job : Job} {c : Completion} {st st' : Sched}

section Back

def Opened (st : Sched) (lineage : LineageId) : Prop :=
  ∀ key ls, st.loops.get key = some ls → lineage ≠ ls.nextGroup

theorem WellFormed.opened_of_placed (hwf : WellFormed job st) {a : Activation} (h : Placed st a) :
    Opened st a.lineageId :=
  fun _ _ hls => (h.ne_nextGroup hls (hwf.lineage hls)).1

theorem WellFormed.opened_parent (hwf : WellFormed job st) {key : LineageId} {ls : LoopState}
    (hls : st.loops.get key = some ls) : Opened st ls.parentLineageId := by
  obtain ⟨c, hc, ho⟩ := (hwf.loops key ls hls).opened
  exact ho.lineage ▸ hwf.opened_of_placed (hwf.of_completion hc).1

theorem OpenedIn.back (hwf : WellFormed job st) (hc : LoopsChange job st st')
    {child parent : LineageId} (h : OpenedIn st' child parent) :
    OpenedIn st child parent ∨ ∃ key ls, st.loops.get key = some ls ∧ child = ls.nextGroup ∧
      parent = ls.parentLineageId := by
  obtain ⟨ls', i, hls', hi, rfl, rfl⟩ := h
  cases hc with
  | same he => exact .inl ⟨ls', i, he ▸ hls', hi, rfl, rfl⟩
  | opened c l _ _ _ hl _ he =>
    rw [he, Dict.get_set] at hls'
    split_ifs at hls'
    · obtain rfl := Option.some.inj hls'
      rw [(loopStateOf_eq_some hl).2.2.2.2.2.2.2.1] at hi
      exact absurd hi (Nat.not_lt_zero i)
    · exact .inl ⟨ls', i, hls', hi, rfl, rfl⟩
  | advanced key ls l hls he ha hn =>
    rw [he, Dict.get_set] at hls'
    split_ifs at hls' with hk
    · obtain rfl := Option.some.inj hls'
      obtain ⟨-, -, hlin, -, -, hpar, -⟩ := ha.fixed
      obtain rfl := hwf.lineage hls
      rw [hlin, hpar]
      by_cases hlt : i < ls.nextIndex
      · exact .inl ⟨ls, i, hls, hlt, rfl, rfl⟩
      · have hi' : i = ls.nextIndex := by omega
        exact .inr ⟨_, ls, hls, by rw [hi']; rfl, rfl⟩
    · exact .inl ⟨ls', i, hls', hi, rfl, rfl⟩

theorem Encloses.back (hwf : WellFormed job st) (hc : LoopsChange job st st')
    {outer inner : LineageId} (hs : Opened st inner) (h : Encloses st' outer inner) :
    Encloses st outer inner := by
  unfold Encloses at h ⊢
  induction h using ReflTransGen.head_induction_on with
  | refl => exact .refl
  | head ho _ ih =>
    rcases ho.back hwf hc with ho | ⟨key, ls, hls, he, -⟩
    · refine .head ho (ih ?_)
      obtain ⟨ls, i, hls, -, -, rfl⟩ := ho
      exact hwf.opened_parent hls
    · exact absurd he (hs key ls hls)

theorem CompletedWithin.back (hwf : WellFormed job st) (hc : LoopsChange job st st')
    {cs : List Completion} {node : NodeId} {lineage : LineageId} (hs : Opened st lineage)
    (h : CompletedWithin st' cs node lineage) : CompletedWithin st cs node lineage := by
  obtain ⟨c, hm, hok, hn, he⟩ := h
  exact ⟨c, hm, hok, hn, he.back hwf hc hs⟩

end Back

section Sees

/-- In this lineage, whatever routes from `node` lead to finds its completed needs
latched, `hole` aside. -/
def Sees (job : Job) (hole : NodeId → LineageId → Prop) (st : Sched) (node : NodeId)
    (lineage : LineageId) : Prop :=
  ∀ m, Awaits job.ir node m → CompletedWithin st st.completions m lineage →
    m ∈ st.satisfied lineage ∨ hole m lineage

/-- The satisfied sets are up to date for whatever can still be routed to. -/
structure UpToDate (job : Job) (hole loopHole : NodeId → LineageId → Prop) (st : Sched) :
    Prop where
  live : ∀ p ∈ st.live, Sees job hole st p.1 p.2
  last : ∀ c, st.completions.getLast? = some c →
    Sees job hole st c.record.nodeId c.activation.lineageId
  loops : ∀ key ls, st.loops.get key = some ls → ls.canOpen →
    Sees job loopHole st ls.nodeId ls.parentLineageId

def noHole : NodeId → LineageId → Prop := fun _ _ => False

theorem UpToDate.mono {h₁ h₂ g₁ g₂ : NodeId → LineageId → Prop} (h : UpToDate job h₁ g₁ st)
    (hh : ∀ m l, h₁ m l → h₂ m l) (hg : ∀ m l, g₁ m l → g₂ m l) : UpToDate job h₂ g₂ st where
  live p hp m ha hc := (h.live p hp m ha hc).imp id (hh m _)
  last c hl m ha hc := (h.last c hl m ha hc).imp id (hh m _)
  loops key ls hls ho m ha hc := (h.loops key ls hls ho m ha hc).imp id (hg m _)

theorem UpToDate.unlocksInTime (h : UpToDate job noHole noHole st) : UnlocksInTime job st := by
  intro s hs hneeds
  simp only [Sched.isUnlocked, Sched.lineageIsUnlocked, List.all_eq_true, List.contains_iff_mem]
  intro m hm
  have hlive : (s.node, s.activation.lineageId) ∈ st.live :=
    List.mem_append_left _ (List.mem_map_of_mem hs)
  exact (h.live _ hlive m ⟨s.node, .refl, hm⟩ (hneeds m hm)).resolve_right id

theorem micro_satisfied (h : Micro job st st') {lineage : LineageId} (hs : Opened st lineage)
    {m : NodeId} (hm : m ∈ st.satisfied lineage) : m ∈ st'.satisfied lineage := by
  cases h with
  | complete hp =>
    simp only [Sched.recordCompletion, (pops_frame hp).2.2.2.2.2.1]
    exact hm
  | work _ hw =>
    cases hw with
    | latch _ =>
      simp only [Sched.latchCompleted, Sched.latch, update]
      split
      next he =>
        rw [← he]
        exact List.mem_insert_of_mem hm
      · exact hm
    | quiet hq =>
      cases hq with
      | prune live key =>
        unfold Sched.prune
        split <;> exact hm
      | @iterate key ls _ hls _ _ _ =>
        simpa [Sched.addSignals, Sched.openIteration, update_ne _ _ (hs key ls hls)] using hm
      | merge =>
        unfold Sched.mergeLockedSignals
        split <;> exact hm
      | _ => exact hm
  | idle hi =>
    cases hi with
    | start _ _ _ hd =>
      rw [(dispatched_frame hd).2.2.2.2.2.1]
      exact hm
    | refuse | finishReplay | send => exact hm

theorem Sees.micro (hwf : WellFormed job st) (hm : Micro job st st')
    (hcomp : st'.completions = st.completions) {hole : NodeId → LineageId → Prop} {node : NodeId}
    {lineage : LineageId} (hs : Opened st lineage) (h : Sees job hole st node lineage) :
    Sees job hole st' node lineage := by
  intro m ha hc
  rw [hcomp] at hc
  have hc' := hc.back hwf (micro_loops (fun _ _ => hwf.lineage) hm) hs
  exact (h m ha hc').imp (micro_satisfied hm hs) id

theorem Awaits.of_route {k n m : NodeId} {r : Route} (hr : r ∈ (job.ir.node k).routes)
    (ht : r.target = n) (h : Awaits job.ir n m) : Awaits job.ir k m := by
  obtain ⟨n', hp, hm⟩ := h
  exact ⟨n', .head ⟨r, hr, ht⟩ hp, hm⟩

theorem WellFormed.opened_live (hwf : WellFormed job st) {p : NodeId × LineageId}
    (hp : p ∈ st.live) : Opened st p.2 := by
  rcases List.mem_append.mp hp with hp | hp
  · obtain ⟨s, hs, rfl⟩ := List.mem_map.mp hp
    exact hwf.opened_of_placed (hwf.placedPending s hs)
  · obtain ⟨f, hf, rfl⟩ := List.mem_map.mp hp
    obtain ⟨s, hs, rfl⟩ := hwf.mem_starts (List.mem_append_left _ hf)
    exact hwf.opened_of_placed (hwf.placedStarts s hs)

theorem sees_iteration (hwf : WellFormed job st) {key : LineageId} {ls : LoopState}
    {news : List Signal} (hls : st.loops.get key = some ls) {hole : NodeId → LineageId → Prop}
    (hc : LoopsChange job st ((st.openIteration ls).addSignals news)) {node : NodeId}
    (hnode : node ∈ ls.routes.map (·.target))
    (h : Sees job noHole st ls.nodeId ls.parentLineageId) :
    Sees job hole ((st.openIteration ls).addSignals news) node ls.nextGroup := by
  rintro m ha ⟨c, hcm, hok, hn, he⟩
  obtain ⟨r, hr, ht⟩ := List.mem_map.mp hnode
  have hroute := (hwf.loops key ls hls).routes r hr
  left
  rcases ReflTransGen.cases_head he with heq | ⟨parent, ho, he'⟩
  · have hne := hwf.opened_of_placed (hwf.of_completion hcm).1 key ls hls
    exact absurd heq.symm hne
  · have hparent : parent = ls.parentLineageId := by
      rcases ho.back hwf hc with ⟨l, i, hl, hi, hg, -⟩ | ⟨k, l, hl, hg, hp⟩
      · obtain ⟨hlin, rfl⟩ := iterationGroup_inj.mp hg
        rw [← hlin, hwf.lineage hls, hls] at hl
        obtain rfl := Option.some.inj hl
        omega
      · obtain ⟨hlin, -⟩ := iterationGroup_inj.mp hg
        rw [hwf.lineage hls, hwf.lineage hl] at hlin
        subst hlin
        rw [hp, Option.some.inj (hls.symm.trans hl)]
    subst hparent
    have hdone : CompletedWithin st st.completions m ls.parentLineageId :=
      ⟨c, hcm, hok, hn, Encloses.back hwf hc (hwf.opened_parent hls) he'⟩
    have hsat := (h m (ha.of_route hroute ht) hdone).resolve_right id
    simpa [Sched.addSignals, Sched.openIteration] using .inr hsat

variable {hole : NodeId → LineageId → Prop}

theorem UpToDate.signal (hwf : WellFormed job st) (h : UpToDate job hole noHole st)
    (hm : Micro job st st') (hcomp : st'.completions = st.completions) {s : Signal}
    (hs : SignalFrom job st st' s) : Sees job hole st' s.node s.activation.lineageId := by
  have hold : ∀ s ∈ st.pending, Sees job hole st' s.node s.activation.lineageId := by
    intro s hs
    have hp : (s.node, s.activation.lineageId) ∈ st.live :=
      List.mem_append_left _ (List.mem_map_of_mem hs)
    exact (h.live _ hp).micro hwf hm hcomp (hwf.opened_live hp)
  cases hs with
  | old hs => exact hold s hs
  | iterated key ls news hls hn hcap heq hnode _ ha =>
    have hc := micro_loops (fun _ _ => hwf.lineage) hm
    subst heq
    rw [ha]
    exact sees_iteration hwf hls hc hnode (h.loops key ls hls (canOpen_of_capacity hn hcap))
  | emitted c hc _ _ hnode _ ha =>
    have hopened := hwf.opened_of_placed (hwf.of_completion (List.mem_of_getLast? hc)).1
    obtain ⟨r, hr, ht⟩ := List.mem_map.mp hnode
    rw [ha]
    intro m hawait hdone
    exact (h.last c hc).micro hwf hm hcomp hopened m
      (hawait.of_route (mem_of_mem_matchingRoutes hr) ht) hdone
  | merged first hfirst hnode _ ha =>
    rw [hnode, ha]
    exact hold first hfirst

theorem UpToDate.micro (hwf : WellFormed job st) (h : UpToDate job hole noHole st)
    (hm : Micro job st st') (hcomp : st'.completions = st.completions)
    (hhole : ∀ c, st.completions.getLast? = some c → (job.ir.node c.record.nodeId).type = .loop →
      ∀ m l, ¬hole m l) : UpToDate job hole noHole st' := by
  have hold : ∀ key ls, st.loops.get key = some ls → ls.canOpen →
      Sees job noHole st' ls.nodeId ls.parentLineageId :=
    fun key ls hls ho => (h.loops key ls hls ho).micro hwf hm hcomp (hwf.opened_parent hls)
  constructor
  · intro p hp
    rcases List.mem_append.mp hp with hp | hp
    · obtain ⟨s, hs, rfl⟩ := List.mem_map.mp hp
      exact h.signal hwf hm hcomp (micro_pending hm hs)
    · obtain ⟨f, hf, rfl⟩ := List.mem_map.mp hp
      -- a start takes its place over from the queue
      have hin : (f.node, f.activation.lineageId) ∈ st.live := by
        rcases micro_inflight hm hf with hf | ⟨s, hone, rfl⟩
        · exact List.mem_append_right _
            (List.mem_map_of_mem (f := fun f : Flight => (f.node, f.activation.lineageId)) hf)
        · exact List.mem_append_left _ (List.mem_map_of_mem
            (f := fun s : Signal => (s.node, s.activation.lineageId)) hone.1)
      exact (h.live _ hin).micro hwf hm hcomp (hwf.opened_live hin)
  · intro c hc
    rw [hcomp] at hc
    exact (h.last c hc).micro hwf hm hcomp
      (hwf.opened_of_placed (hwf.of_completion (List.mem_of_getLast? hc)).1)
  · intro key ls hls ho
    cases micro_loops (fun _ _ => hwf.lineage) hm with
    | same he => exact hold key ls (he ▸ hls) ho
    | opened c l _ ht hc hl _ he =>
      rw [he, Dict.get_set] at hls
      split_ifs at hls
      · obtain rfl := Option.some.inj hls
        obtain ⟨-, hnode, -, -, -, -, hparent, -⟩ := loopStateOf_eq_some hl
        rw [hnode, hparent]
        have hopened := hwf.opened_of_placed (hwf.of_completion (List.mem_of_getLast? hc)).1
        intro m ha hdone
        exact ((h.last c hc).micro hwf hm hcomp hopened m ha hdone).imp id
          (fun hh => hhole c hc ht m _ hh)
      · exact hold key ls hls ho
    | advanced k l l' hl he ha _ =>
      rw [he, Dict.get_set] at hls
      split_ifs at hls
      · obtain rfl := Option.some.inj hls
        obtain ⟨hnode, -, -, -, -, hparent, -⟩ := ha.fixed
        rw [hnode, hparent]
        exact hold k l hl (ha.canOpen ho)
      · exact hold key ls hls ho

end Sees

section Runs

def missing (job : Job) (c : Completion) (m : NodeId) (lineage : LineageId) : Prop :=
  m = c.record.nodeId ∧ lineage = c.activation.lineageId ∧ c.ok ∧ c.latches job

def missingInLoops (job : Job) (c : Completion) (m : NodeId) (lineage : LineageId) : Prop :=
  missing job c m lineage ∧ (job.ir.node c.record.nodeId).type ≠ .break

theorem completedWithin_record {st₀ : Sched} (hp : Pops job st c st₀) {m : NodeId}
    {lineage : LineageId} (h : CompletedWithin (st₀.recordCompletion job c)
      (st₀.recordCompletion job c).completions m lineage) :
    CompletedWithin st st.completions m lineage ∨
      (c.ok ∧ m = c.record.nodeId ∧ Encloses st c.activation.lineageId lineage) := by
  have hloops : LoopsGrow (st₀.recordCompletion job c) st := .of_eq (pops_loops hp).symm
  obtain ⟨c', hm, hok, hn, he⟩ := h
  simp only [Sched.recordCompletion, (pops_frame hp).2.2.2.1, List.mem_append,
    List.mem_singleton] at hm
  rcases hm with hm | rfl
  · exact .inl ⟨c', hm, hok, hn, he.grow hloops⟩
  · exact .inr ⟨hok, hn.symm, he.grow hloops⟩

theorem UpToDate.record {st₀ : Sched} (h : UpToDate job noHole noHole st) (hp : Pops job st c st₀)
    (ha : c.ok → Announced job st c) :
    UpToDate job (missing job c) (missingInLoops job c) (st₀.recordCompletion job c) := by
  have hin : c.flight ∈ st.inflight := (pops_inflight hp).mem_iff.mpr List.mem_cons_self
  have hsat : (st₀.recordCompletion job c).satisfied = st.satisfied :=
    (pops_frame hp).2.2.2.2.2.1
  have hlive : ∀ p ∈ st.live, Sees job (missing job c) (st₀.recordCompletion job c) p.1 p.2 := by
    intro p hm m hawait hdone
    rw [hsat]
    rcases completedWithin_record hp hdone with hdone | ⟨hok, rfl, he⟩
    · exact .inl ((h.live p hm m hawait hdone).resolve_right id)
    · exact ((ha hok).live p hm he hawait).imp id (fun hh => ⟨rfl, hh.1, hok, hh.2⟩)
  constructor
  · intro p hm
    refine hlive p ?_
    rcases List.mem_append.mp hm with hm | hm
    · simp only [Sched.recordCompletion, (pops_frame hp).1] at hm
      exact List.mem_append_left _ hm
    · refine List.mem_append_right _ ((pops_inflight hp).map _ |>.mem_iff.mpr ?_)
      exact List.mem_cons_of_mem _ hm
  · intro c' hc'
    have hl : (st₀.completions ++ [c]).getLast? = some c' := hc'
    obtain rfl : c = c' := by simpa using hl
    exact hlive (c.record.nodeId, c.activation.lineageId) (List.mem_append_right _
      (List.mem_map_of_mem (f := fun f : Flight => (f.node, f.activation.lineageId)) hin))
  · intro key ls hls ho m hawait hdone
    replace hls : st.loops.get key = some ls := by
      simpa [Sched.recordCompletion, pops_loops hp] using hls
    rw [hsat]
    rcases completedWithin_record hp hdone with hdone | ⟨hok, rfl, he⟩
    · exact .inl ((h.loops key ls hls ho m hawait hdone).resolve_right id)
    · exact ((ha hok).loops key ls hls ho he hawait).imp id
        (fun hh => ⟨⟨rfl, hh.1, hok, hh.2.1⟩, hh.2.2⟩)

theorem UpToDate.latch {h₁ h₂ : NodeId → LineageId → Prop} (h : UpToDate job h₁ h₂ st)
    (hh₁ : ∀ m l, h₁ m l → missing job c m l) (hh₂ : ∀ m l, h₂ m l → missing job c m l) :
    UpToDate job noHole noHole (st.latchCompleted c) := by
  have hg : LoopsGrow (st.latchCompleted c) st := .of_eq rfl
  have hsees : ∀ {hole : NodeId → LineageId → Prop} {node : NodeId} {lineage : LineageId},
      (∀ m l, hole m l → missing job c m l) → Sees job hole st node lineage →
      Sees job noHole (st.latchCompleted c) node lineage := by
    intro hole node lineage hh hs m hawait hdone
    left
    simp only [Sched.latchCompleted, Sched.latch, update]
    rcases hs m hawait (hdone.grow hg (fun _ => id)) with hm | hm
    · split
      next he =>
        rw [← he]
        exact List.mem_insert_of_mem hm
      · exact hm
    · obtain ⟨rfl, rfl, -⟩ := hh m lineage hm
      simp
  exact ⟨fun p hp => hsees hh₁ (h.live p hp), fun c' hc' => hsees hh₁ (h.last c' hc'),
    fun key ls hls ho => hsees hh₂ (h.loops key ls hls ho)⟩

theorem UpToDate.workPath (hv : job.ir.Valid) (hc : st.completions.getLast? = some c)
    (hp : WorkPath job c st st') (hwf : WellFormed job st) (h : UpToDate job noHole noHole st) :
    UpToDate job noHole noHole st' := by
  induction hp with
  | refl => exact h
  | tail hp hw ih =>
    obtain ⟨hpath, hlast⟩ := micro_of_work hc hp
    exact ih.micro (wellFormed_microPath hv hwf hpath) (.work hlast hw) (work_completions hw)
      (fun _ _ _ _ _ => id)

theorem UpToDate.quietPath (hv : job.ir.Valid) (hc : st.completions.getLast? = some c)
    (ht : (job.ir.node c.record.nodeId).type ≠ .loop) {hole : NodeId → LineageId → Prop}
    (hp : QuietPath job c st st') (hwf : WellFormed job st) (h : UpToDate job hole noHole st) :
    UpToDate job hole noHole st' := by
  induction hp with
  | refl => exact h
  | tail hp hq ih =>
    obtain ⟨hpath, hlast⟩ := micro_of_work hc (work_of_quiet hp)
    refine ih.micro (wellFormed_microPath hv hwf hpath) (.work hlast (.quiet hq))
      (work_completions (.quiet hq)) (fun c' hc' hloop => ?_)
    obtain rfl := Option.some.inj (hlast.symm.trans hc')
    exact absurd hloop ht

theorem UpToDate.processed (hv : job.ir.Valid) (hc : st.completions.getLast? = some c)
    (hwf : WellFormed job st) (h : UpToDate job (missing job c) (missingInLoops job c) st)
    (hp : Processed job c st st') : UpToDate job noHole noHole st' := by
  cases hp with
  | failed hok hq _ =>
    have h' : UpToDate job noHole noHole st :=
      h.mono (fun _ _ hh => hok hh.2.2.1) (fun _ _ hh => hok hh.1.2.2.1)
    exact h'.workPath hv hc (work_of_quiet hq) hwf
  | loop hok _ hw _ =>
    have hlatched : UpToDate job noHole noHole (st.latchCompleted c) :=
      h.latch (fun _ _ => id) (fun _ _ hh => hh.1)
    have hlast : (st.latchCompleted c).completions.getLast? = some c := hc
    exact UpToDate.workPath hv hlast hw hwf.latch hlatched
  | @finishFail s hok ht hf _ hq he =>
    have hnot : ¬c.latches job := fun hl => hl.elim (fun hl => hl hf) ht
    have h' : UpToDate job noHole noHole st :=
      h.mono (fun _ _ hh => hnot hh.2.2.2) (fun _ _ hh => hnot hh.1.2.2.2)
    have hfail : Quiet job c s st' := he ▸ .fail _ (.finishFail hok hf)
    exact h'.workPath hv hc (work_of_quiet (hq.tail hfail)) hwf
  | @routed s hok ht _ hsame hq hq' =>
    have hs : WellFormed job s := wellFormed_microPath hv hwf (micro_of_work hc (work_of_quiet hq)).1
    have hcs : (s.latchCompleted c).completions.getLast? = some c :=
      (micro_of_work hc (work_of_quiet hq)).2
    have hlatched : UpToDate job noHole noHole (s.latchCompleted c) := by
      by_cases hb : (job.ir.node c.record.nodeId).type = .break
      · have h' : UpToDate job (missing job c) noHole st :=
          h.mono (fun _ _ => id) (fun _ _ hh => hh.2 hb)
        exact (h'.quietPath hv hc ht hq hwf).latch (fun _ _ => id) (fun _ _ => False.elim)
      · rw [hsame hb]
        exact h.latch (fun _ _ => id) (fun _ _ hh => hh.1)
    exact UpToDate.workPath hv hcs (work_of_quiet hq') hs.latch hlatched

theorem UpToDate.idlePath (hp : IdlePath job st st') (hwf : WellFormed job st)
    (h : UpToDate job noHole noHole st) : WellFormed job st' ∧ UpToDate job noHole noHole st' := by
  induction hp with
  | refl => exact ⟨hwf, h⟩
  | tail _ hi ih =>
    exact ⟨ih.1.idle hi, ih.2.micro ih.1 (.idle hi) (idlePath_completions (.single hi))
      (fun _ _ _ _ _ => id)⟩

theorem upToDate_initial : UpToDate job noHole noHole (Sched.initial job) := by
  obtain ⟨news, heq⟩ := initial_eq job
  rw [heq]
  refine ⟨fun p _ m _ hdone => ?_, fun c hc => ?_, fun key ls hls => ?_⟩
  · obtain ⟨c, hc, -⟩ := hdone
    simp [Sched.addSignals, Sched.fresh] at hc
  · simp [Sched.addSignals, Sched.fresh] at hc
  · simp [Sched.addSignals, Sched.fresh] at hls

theorem runsWhile_upToDate (hv : job.ir.Valid) {m : Machine}
    (h : RunsWhile job (fun st c => c.ok → Announced job st c) m) :
    UpToDate job noHole noHole m.sched := by
  induction h with
  | boot => exact (upToDate_initial.idlePath (startRunnable_path _) (wellFormed_initial hv)).2
  | @step m m' hr hs hcond ih =>
    have hwf := (reach_microPath hv hr.reach).2
    rcases step_records hv hwf hs with ⟨hidle, -⟩ | ⟨c, st₀, st₁, hrec, hp, hproc, he⟩
    · exact (ih.idlePath hidle hwf).2
    · have hlast : (st₀.recordCompletion job c).completions.getLast? = some c := by
        simp [Sched.recordCompletion]
      have hpr := processed hv hwf hp hproc
      have hst₁ := (ih.record hp (hcond c hrec)).processed hv hlast (hwf.complete hp) hpr
      have hwf₁ := wellFormed_microPath hv (hwf.complete hp) (micro_of_work hlast hpr.work).1
      rw [he]
      exact (hst₁.idlePath (resume_path st₁) hwf₁).2

/-- In a run in which every completion is announced to whoever may still wait for
it, a queued activation is unlocked as soon as its needs have completed around it,
and no join is left unresolved whose needs have. -/
theorem unlocksInTime_of_announced (hv : job.ir.Valid) {m : Machine}
    (h : RunsWhile job (fun st c => c.ok → Announced job st c) m) :
    UnlocksInTime job m.sched ∧ ∀ s ∈ m.sched.unresolved job.ir,
      ∃ n ∈ (job.ir.node s.node).needs,
        ¬CompletedWithin m.sched m.sched.completions n s.activation.lineageId := by
  have hin := (runsWhile_upToDate hv h).unlocksInTime
  refine ⟨hin, fun s hs => ?_⟩
  simp only [Sched.unresolved, List.mem_flatMap, List.mem_filter, Sched.pendingOf,
    Bool.not_eq_true', decide_eq_true_eq] at hs
  obtain ⟨id, -, ⟨hp, rfl⟩, hlocked⟩ := hs
  by_contra hall
  push Not at hall
  rw [hin s hp hall] at hlocked
  exact absurd hlocked (by decide)

end Runs

namespace Sample

def joined : Job where
  ir := { nodes := [node "each" .loop [] ["use"], node "source" (.other "shell") [] [],
    node "use" (.other "shell") ["each", "source"] []] }
  env := env

theorem joined_valid : joined.ir.Valid := by
  constructor <;> decide +kernel

def eachLoop : LineageId := "initial:each:loop:each:1"

end Sample

/-- The loop completes before the node beside it: its iteration never sees the
other need, and the run ends with an unresolved join. -/
theorem unlock_misses_parent : ∃ job m, job.ir.Valid ∧ Reach job m ∧ m.phase = .done ∧
    (m.sched.result job).error.map (·.code) = some "RATTISH_JOIN_UNRESOLVED" ∧
    ¬UnlocksInTime job m.sched := by
  obtain ⟨m, hm, hdone, herr, ⟨s, hs, hnode, hlin, hlocked⟩, hcomp, hloop⟩ : ∃ m,
      Sample.after Sample.joined
        (Sample.finish (Sample.items 1) ++ Sample.finish .null ++ [.turn]) = some m ∧
      m.phase = .done ∧ (m.sched.result Sample.joined).error.map (·.code) =
        some "RATTISH_JOIN_UNRESOLVED" ∧
      (∃ s ∈ m.sched.pending, s.node = "use" ∧
        s.activation.lineageId = iterationGroup Sample.eachLoop 0 ∧
        m.sched.isUnlocked Sample.joined.ir s.node s.activation = false) ∧
      (∀ n ∈ ["each", "source"], ∃ c ∈ m.sched.completions, c.record.result.outcome = .success ∧
        c.record.nodeId = n ∧ c.activation.lineageId = rootLineage) ∧
      (m.sched.loops.get Sample.eachLoop).map (fun ls =>
        (ls.lineageId, ls.nextIndex, ls.parentLineageId)) =
          some (Sample.eachLoop, 1, rootLineage) := by
    refine ⟨_, (Option.some_get (by decide +kernel)).symm, ?_⟩
    decide +kernel
  refine ⟨_, m, Sample.joined_valid, Sample.reach_after hm, hdone, herr, fun hin => ?_⟩
  obtain ⟨ls, hls, hfields⟩ := Option.map_eq_some_iff.mp hloop
  simp only [Prod.mk.injEq] at hfields
  obtain ⟨hkey, hnext, hparent⟩ := hfields
  have hopened : OpenedIn m.sched (iterationGroup Sample.eachLoop 0) rootLineage :=
    ⟨ls, 0, by rw [hkey]; exact hls, by omega, by rw [hkey], hparent.symm⟩
  rw [hin s hs (fun n hn => ?_)] at hlocked
  · exact absurd hlocked (by decide)
  · have hneeds : (Sample.joined.ir.node "use").needs = ["each", "source"] := by decide +kernel
    rw [hnode, hneeds] at hn
    obtain ⟨c, hc, hout, hname, hroot⟩ := hcomp n hn
    refine ⟨c, hc, by simp [Completion.ok, hout], hname, ?_⟩
    rw [hlin, hroot]
    exact .single hopened

/-- The node beside the loop completes first: the iteration sees it. -/
theorem unlocksInTime_of_announced_joined : ∃ m,
    RunsWhile Sample.joined (fun st c => c.ok → Announced Sample.joined st c) m ∧
    "use" ∈ m.sched.starts.map (·.task.node) ∧ UnlocksInTime Sample.joined m.sched := by
  obtain ⟨m, hm, huse⟩ : ∃ m, (bootMachine Sample.joined).runScriptWhile Sample.joined
      (fun m => m.sched.loops.keys.isEmpty && m.sched.live.all (fun p => p.2 = rootLineage))
      [.turn, .finish 1 .success .null, .receive, .turn, .finish 0 .success (Sample.items 1),
        .receive] = some m ∧ "use" ∈ m.sched.starts.map (·.task.node) := by
    refine ⟨_, (Option.some_get (by decide +kernel)).symm, ?_⟩
    decide +kernel
  have hrun := runsWhile_of_script (P := fun st c => c.ok → Announced Sample.joined st c)
    (fun m c m' hreach ht hr _ => ?_) .boot hm
  · exact ⟨m, hrun, huse, (unlocksInTime_of_announced Sample.joined_valid hrun).1⟩
  · simp only [Bool.and_eq_true, List.isEmpty_iff, List.all_eq_true, decide_eq_true_eq] at ht
    obtain ⟨hloops, hlive⟩ := ht
    obtain ⟨st₀, _, hp, -⟩ :=
      hr.processed Sample.joined_valid (reach_microPath Sample.joined_valid hreach).2
    have hin : (c.record.nodeId, c.activation.lineageId) ∈ m.sched.live :=
      List.mem_append_right _ (List.mem_map_of_mem
        (f := fun f : Flight => (f.node, f.activation.lineageId))
        ((pops_inflight hp).mem_iff.mpr (List.mem_cons_self (a := c.flight))))
    have hfinish : (Sample.joined.ir.node c.record.nodeId).finish = none :=
      IR.forall_node (P := fun n => n.finish = none) (by decide +kernel) (fun _ => rfl) _
    refine ⟨fun p hp _ _ => .inr ⟨(hlive p hp).trans (hlive _ hin).symm, .inl (by simp [hfinish])⟩,
      fun key ls hls => ?_⟩
    have hk : key ∈ m.sched.loops.keys := Dict.get_isSome_iff.mp (by simp [hls])
    simp [hloops] at hk

end Raticode.Rattish
