import Raticode.RattishRun

/-! The elementary changes of the scheduler state. Every operation of the source
is a sequence of them, so an invariant is checked once for each change. -/
namespace Raticode.Rattish
open OrderedDict Relation

def Completion.ok (c : Completion) : Prop := c.record.result.outcome ≠ .failure

instance (c : Completion) : Decidable c.ok := inferInstanceAs (Decidable (_ ≠ _))

namespace Sched

def addSignals (st : Sched) (news : List Signal) : Sched :=
  { st with pending := st.pending ++ news, sequence := st.sequence + news.length }

/-- What a loop of `_enqueue` calls over `targets` appends: at most one signal for
each target, none for a target that has the group already. -/
structure Emits (st : Sched) (template : Activation) (origins : List RunId)
    (targets : List NodeId) (news : List Signal) : Prop where
  shape : ∀ s ∈ news, s.node ∈ targets ∧ s.origins = origins ∧
    s.activation = { template with sequence := s.activation.sequence }
  unqueued : ∀ s ∈ news, st.isQueued s.node template.groupId = false
  nodup : (news.map (·.node)).Nodup

theorem isQueued_eq_false {st : Sched} {node : NodeId} {group : GroupId} :
    st.isQueued node group = false ↔ (node, group) ∉ st.running ∧
      ∀ s ∈ st.pending, ¬(s.node = node ∧ s.activation.groupId = group) := by
  simp [isQueued]

theorem emits_nil (st : Sched) (a : Activation) (origins : List RunId) (targets : List NodeId) :
    Emits st a origins targets [] :=
  ⟨by simp, by simp, by simp⟩

theorem enqueue_foldl {α : Type} (target : α → NodeId) (a : Activation) (origins : List RunId)
    (l : List α) (st : Sched) :
    ∃ news, l.foldl (fun st x => st.enqueue (target x) a.groupId a.lineageId a.scopedOutputs
        a.loopLineages origins) st = st.addSignals news ∧
      Emits st a origins (l.map target) news := by
  induction l generalizing st with
  | nil => exact ⟨[], by simp [addSignals], emits_nil ..⟩
  | cons x l ih =>
    simp only [List.foldl_cons]
    obtain ⟨news, heq, hem⟩ := ih (st.enqueue (target x) a.groupId a.lineageId a.scopedOutputs
      a.loopLineages origins)
    by_cases hq : st.isQueued (target x) a.groupId = true
    · have hst : st.enqueue (target x) a.groupId a.lineageId a.scopedOutputs a.loopLineages
          origins = st := by simp [enqueue, hq]
      rw [hst] at heq hem ⊢
      refine ⟨news, heq, fun s hs => ?_, hem.unqueued, hem.nodup⟩
      obtain ⟨h₁, h₂⟩ := hem.shape s hs
      exact ⟨List.mem_cons_of_mem _ h₁, h₂⟩
    · simp only [Bool.not_eq_true] at hq
      let first : Signal := ⟨target x, { a with sequence := st.sequence + 1 }, origins⟩
      have hst : st.enqueue (target x) a.groupId a.lineageId a.scopedOutputs a.loopLineages
          origins = st.addSignals [first] := by simp [enqueue, hq, addSignals, first]
      rw [hst] at heq hem ⊢
      have hsub : ∀ s ∈ news, s.node ≠ target x ∧ st.isQueued s.node a.groupId = false := by
        intro s hs
        have hu := isQueued_eq_false.mp (hem.unqueued s hs)
        refine ⟨fun he => ?_, isQueued_eq_false.mpr ⟨hu.1, fun p hp => ?_⟩⟩
        · exact hu.2 first (by simp [addSignals]) ⟨he.symm, rfl⟩
        · exact hu.2 p (by simp [addSignals, hp])
      refine ⟨first :: news, ?_, fun s hs => ?_, fun s hs => ?_, ?_⟩
      · rw [heq]
        simp only [addSignals, List.append_assoc, List.singleton_append, List.length_cons,
          List.length_nil]
        congr 1
        omega
      · rcases List.mem_cons.mp hs with rfl | hs
        · exact ⟨List.mem_cons_self, rfl, rfl⟩
        · obtain ⟨h₁, h₂⟩ := hem.shape s hs
          exact ⟨List.mem_cons_of_mem _ h₁, h₂⟩
      · rcases List.mem_cons.mp hs with rfl | hs
        · exact hq
        · exact (hsub s hs).2
      · refine List.nodup_cons.mpr ⟨fun hm => ?_, hem.nodup⟩
        obtain ⟨s, hs, he⟩ := List.mem_map.mp hm
        exact (hsub s hs).1 he

theorem enqueue_foldl_queued {α : Type} (target : α → NodeId) (a : Activation)
    (origins : List RunId) (l : List α) (st : Sched) {x : α} (hx : x ∈ l) :
    (l.foldl (fun st x => st.enqueue (target x) a.groupId a.lineageId a.scopedOutputs
      a.loopLineages origins) st).isQueued (target x) a.groupId = true := by
  have hkeep : ∀ (l : List α) (st : Sched) (n : NodeId), st.isQueued n a.groupId = true →
      (l.foldl (fun st x => st.enqueue (target x) a.groupId a.lineageId a.scopedOutputs
        a.loopLineages origins) st).isQueued n a.groupId = true := by
    intro l st n hq
    obtain ⟨news, heq, -⟩ := enqueue_foldl target a origins l st
    rw [heq]
    simp only [isQueued, addSignals, Bool.or_eq_true, List.any_append] at hq ⊢
    exact hq.imp id Or.inl
  induction l generalizing st with
  | nil => simp at hx
  | cons y l ih =>
    simp only [List.foldl_cons]
    rcases List.mem_cons.mp hx with rfl | hx
    · refine hkeep l _ _ ?_
      by_cases hq : st.isQueued (target x) a.groupId = true
      · rwa [enqueue, if_pos hq]
      · rw [enqueue, if_neg hq]
        simp [isQueued]
    · exact ih _ hx

end Sched

def LoopState.iterationActivation (ls : LoopState) : Activation :=
  { groupId := ls.nextGroup, sequence := 0, lineageId := ls.nextGroup
    scopedOutputs := ls.parentOutputs.set ls.nodeId ls.item
    loopLineages := ls.parentLineages.set ls.nodeId ls.lineageId }

def Completion.run (c : Completion) : RunId := (c.record.nodeId, c.record.runNumber)

def Completion.loopKey (c : Completion) : LineageId :=
  loopLineage c.activation.groupId c.record.nodeId c.record.runNumber

inductive Fatal (job : Job) (c : Completion) : Prop
  | failed : ¬c.ok → Fatal job c
  | finishFail : c.ok → (job.ir.node c.record.nodeId).finish = some .fail → Fatal job c
  | breakOutside : c.ok → (job.ir.node c.record.nodeId).type = .break →
      c.activation.loopLineages.get ((job.ir.node c.record.nodeId).loopNodeId.getD "") = none →
      Fatal job c

/-- The changes made while the completion `c`, already recorded, is processed:
all but the latch. -/
inductive Quiet (job : Job) (c : Completion) : Sched → Sched → Prop
  | fail {st : Sched} (e : RuntimeErrorInfo) : Fatal job c →
      Quiet job c st { st with error := some e }
  | defer {st : Sched} (e : RuntimeErrorInfo) : ¬c.ok →
      Quiet job c st { st with deferredLoopFailures := st.deferredLoopFailures ++ [e] }
  | openLoop {st : Sched} {ls : LoopState} : c.ok →
      (job.ir.node c.record.nodeId).type = .loop → st.loopStateOf job c = some ls →
      st.loops.get ls.lineageId = none →
      Quiet job c st { st with loops := st.loops.set ls.lineageId ls }
  | prune {st : Sched} (live : List GroupId) (key : LineageId) :
      Quiet job c st (st.prune live key)
  | iterate {st : Sched} {key : LineageId} {ls : LoopState} {news : List Signal} :
      st.loops.get key = some ls → ls.hasNext = true → ls.hasCapacity = true →
      (st.openIteration ls).Emits ls.iterationActivation [(ls.nodeId, ls.runNumber)]
        (ls.routes.map (·.target)) news →
      Quiet job c st ((st.openIteration ls).addSignals news)
  | close {st : Sched} {loopId : NodeId} {key : LineageId} {ls : LoopState} : c.ok →
      (job.ir.node c.record.nodeId).type = .break →
      (job.ir.node c.record.nodeId).loopNodeId.getD "" = loopId →
      c.activation.loopLineages.get loopId = some key → st.loops.get key = some ls →
      ls.closed = false →
      Quiet job c st { st with
        loops := st.loops.set key { ls with closed := true }
        pending := st.pending.filter (fun s =>
          !(s.activation.loopLineages.get loopId = some key)) }
  | emit {st : Sched} {news : List Signal} : c.ok →
      ¬((job.ir.node c.record.nodeId).type = .loop ∧
        (job.ir.node c.record.nodeId).finish = none) →
      st.Emits c.activation [c.run] ((st.routesOf job c).map (·.target)) news →
      Quiet job c st (st.addSignals news)
  | merge {st : Sched} {node : NodeId} : c.ok →
      (∀ s ∈ st.starts, s.task.node = node → s.task.activation.lineageId ≠ c.activation.lineageId) →
      Quiet job c st (st.mergeLockedSignals node c.activation.lineageId)

abbrev QuietPath (job : Job) (c : Completion) := ReflTransGen (Quiet job c)

section Paths

variable {job : Job} {c : Completion} {st st' : Sched}

theorem quiet_starts (h : Quiet job c st st') : st'.starts = st.starts := by
  cases h with
  | prune live key =>
    unfold Sched.prune
    split <;> rfl
  | merge =>
    unfold Sched.mergeLockedSignals
    split <;> rfl
  | _ => rfl

theorem quietPath_starts (h : QuietPath job c st st') : st'.starts = st.starts := by
  induction h with
  | refl => rfl
  | tail _ hq ih => rw [quiet_starts hq, ih]

theorem quiet_errors (h : Quiet job c st st') :
    (st.error ≠ none → st'.error ≠ none) ∧
      (st.deferredLoopFailures ≠ [] → st'.deferredLoopFailures ≠ []) := by
  cases h with
  | fail => exact ⟨fun _ => by simp, id⟩
  | defer => exact ⟨id, fun _ => by simp⟩
  | prune live key =>
    unfold Sched.prune
    split <;> exact ⟨id, id⟩
  | merge =>
    unfold Sched.mergeLockedSignals
    split <;> exact ⟨id, id⟩
  | _ => exact ⟨id, id⟩

theorem quietPath_errors (h : QuietPath job c st st') :
    (st.error ≠ none → st'.error ≠ none) ∧
      (st.deferredLoopFailures ≠ [] → st'.deferredLoopFailures ≠ []) := by
  induction h with
  | refl => exact ⟨id, id⟩
  | tail _ hq ih =>
    have hq' := quiet_errors hq
    exact ⟨fun h => hq'.1 (ih.1 h), fun h => hq'.2 (ih.2 h)⟩

theorem fill_path {fuel : ℕ} {key : LineageId} (h : Sched.fill fuel key st = .ok st') :
    QuietPath job c st st' := by
  induction fuel generalizing st with
  | zero => simp [Sched.fill] at h
  | succ fuel ih =>
    simp only [Sched.fill] at h
    split at h
    · obtain rfl := Except.ok.inj h
      exact .refl
    next ls hls =>
      split at h
      next hg =>
        simp only [Bool.and_eq_true] at hg
        obtain ⟨news, heq, hem⟩ := Sched.enqueue_foldl (fun r : Route => r.target)
          ls.iterationActivation [(ls.nodeId, ls.runNumber)] ls.routes (st.openIteration ls)
        have hq : Quiet job c st ((st.openIteration ls).enqueueIteration ls) := by
          rw [show (st.openIteration ls).enqueueIteration ls =
            (st.openIteration ls).addSignals news from heq]
          exact .iterate hls hg.1 hg.2 hem
        exact .head hq (ih h)
      · obtain rfl := Except.ok.inj h
        exact .refl

theorem fillLoopCapacity_path {key : LineageId} (h : st.fillLoopCapacity key = .ok st') :
    QuietPath job c st st' := by
  unfold Sched.fillLoopCapacity at h
  split at h
  · obtain rfl := Except.ok.inj h
    exact .refl
  · exact fill_path h

theorem settleFrom_path {live : List GroupId} {keys : List LineageId}
    (h : keys.foldlM (fun st key => (st.prune live key).fillLoopCapacity key) st = .ok st') :
    QuietPath job c st st' := by
  induction keys generalizing st with
  | nil =>
    obtain rfl := Except.ok.inj h
    exact .refl
  | cons key keys ih =>
    simp only [List.foldlM_cons] at h
    cases hf : (st.prune live key).fillLoopCapacity key with
    | error f => simp [hf, bind, Except.bind] at h
    | ok st₁ =>
      simp only [hf, bind, Except.bind] at h
      exact .head (.prune live key) ((fillLoopCapacity_path hf).trans (ih h))

theorem settle_path (h : st.settleLoopGroups = .ok st') : QuietPath job c st st' :=
  settleFrom_path h

theorem loopStateOf_eq_some {ls : LoopState} (h : st.loopStateOf job c = some ls) :
    ls.lineageId = c.loopKey ∧ ls.nodeId = c.record.nodeId ∧ ls.runNumber = c.record.runNumber ∧
      ls.routes = st.routesOf job c ∧ ls.parentOutputs = c.activation.scopedOutputs ∧
      ls.parentLineages = c.activation.loopLineages ∧
      ls.parentLineageId = c.activation.lineageId ∧ ls.nextIndex = 0 ∧ ls.closed = false ∧
      ls.activeGroups = [] := by
  simp only [Sched.loopStateOf, Option.bind_eq_bind, Option.bind_eq_some_iff, Option.pure_def,
    Option.some.injEq] at h
  obtain ⟨_, -, _, -, _, -, rfl⟩ := h
  exact ⟨rfl, rfl, rfl, rfl, rfl, rfl, rfl, rfl, rfl, rfl⟩

theorem openLoop_path (hok : c.ok) (ht : (job.ir.node c.record.nodeId).type = .loop)
    (hnew : st.loops.get c.loopKey = none) (h : st.openLoop job c = .ok st') :
    QuietPath job c st st' := by
  unfold Sched.openLoop at h
  split at h
  · simp at h
  next ls hls =>
    rw [← (loopStateOf_eq_some hls).1] at hnew
    exact .head (.openLoop hok ht hls hnew) (fillLoopCapacity_path h)

theorem closeLoop_path (hok : c.ok) (ht : (job.ir.node c.record.nodeId).type = .break) :
    QuietPath job c st (st.closeLoop c.activation (job.ir.node c.record.nodeId)) := by
  unfold Sched.closeLoop
  simp only
  split
  next hout => exact .single (.fail _ (.breakOutside hok ht hout))
  next key hkey =>
    split
    · exact .refl
    next ls hls =>
      split
      · exact .refl
      next hclosed => exact .single (.close hok ht rfl hkey hls (by simpa using hclosed))

theorem enqueueRoutes_path (hok : c.ok) (ht : ¬((job.ir.node c.record.nodeId).type = .loop ∧
      (job.ir.node c.record.nodeId).finish = none)) :
    QuietPath job c st (st.enqueueRoutes job c) := by
  obtain ⟨news, heq, hem⟩ := Sched.enqueue_foldl (fun r : Route => r.target) c.activation [c.run]
    (st.routesOf job c) st
  rw [show st.enqueueRoutes job c = st.addSignals news from heq]
  exact .single (.emit hok ht hem)

theorem mergeUnlocked_induct {before : Sched} {lineage : LineageId} {P : Sched → Prop}
    (hstep : ∀ s node, (∀ x ∈ s.starts, x.task.node = node → x.task.activation.lineageId ≠ lineage) →
      P s → P (s.mergeLockedSignals node lineage))
    (hlock : ∀ node, before.lineageIsUnlocked job.ir node lineage = false →
      ∀ s ∈ st.starts, s.task.node = node → s.task.activation.lineageId ≠ lineage)
    (h : P st) : P (Sched.mergeUnlocked job.ir before lineage st) := by
  have hstarts : ∀ (s : Sched) (node : NodeId),
      (s.mergeLockedSignals node lineage).starts = s.starts := by
    intro s node
    unfold Sched.mergeLockedSignals
    split <;> rfl
  unfold Sched.mergeUnlocked
  generalize Sched.sortedStrings (job.ir.nodes.map (·.id)) = targets
  induction targets generalizing st with
  | nil => exact h
  | cons node targets ih =>
    simp only [List.foldl_cons]
    split
    next hg =>
      simp only [Bool.and_eq_true, Bool.not_eq_true'] at hg
      exact ih (fun n hn => by rw [hstarts]; exact hlock n hn) (hstep st node (hlock node hg.1) h)
    · exact ih hlock h

theorem locked_not_started {before : Sched} {lineage : LineageId}
    (hsu : ∀ s ∈ st.starts, ∀ m ∈ (job.ir.node s.task.node).needs,
      s.task.activation.lineageId = lineage → m ∈ before.satisfied lineage) (node : NodeId)
    (hn : before.lineageIsUnlocked job.ir node lineage = false) :
    ∀ s ∈ st.starts, s.task.node = node → s.task.activation.lineageId ≠ lineage := by
  intro s hs he hl
  have hall : before.lineageIsUnlocked job.ir node lineage = true := by
    simp only [Sched.lineageIsUnlocked, List.all_eq_true, List.contains_iff_mem]
    exact fun m hm => hsu s hs m (he ▸ hm) hl
  simp [hall] at hn

def Sched.latchCompleted (st : Sched) (c : Completion) : Sched :=
  st.latch c.activation.lineageId c.record.nodeId

/-- The changes made while `c` is processed, the latch among them. -/
inductive Work (job : Job) (c : Completion) : Sched → Sched → Prop
  | quiet {st st' : Sched} : Quiet job c st st' → Work job c st st'
  | latch {st : Sched} : c.ok → Work job c st (st.latchCompleted c)

abbrev WorkPath (job : Job) (c : Completion) := ReflTransGen (Work job c)

theorem work_of_quiet (h : QuietPath job c st st') : WorkPath job c st st' := by
  induction h with
  | refl => exact .refl
  | tail _ hq ih => exact ih.tail (.quiet hq)

def StartedUnlocked (job : Job) (st : Sched) : Prop :=
  ∀ s ∈ st.starts, ∀ m ∈ (job.ir.node s.task.node).needs,
    m ∈ st.satisfied s.task.activation.lineageId

theorem routeCompletion_path (hsu : StartedUnlocked job st) (hok : c.ok)
    (ht : ¬((job.ir.node c.record.nodeId).type = .loop ∧
      (job.ir.node c.record.nodeId).finish = none))
    (h : st.routeCompletion job c = .ok st') : QuietPath job c (st.latchCompleted c) st' := by
  have hroutes : QuietPath job c (st.latchCompleted c) ((st.latchCompleted c).enqueueRoutes job c) :=
    enqueueRoutes_path hok ht
  have hlock := @locked_not_started job ((st.latchCompleted c).enqueueRoutes job c) st
    c.activation.lineageId (fun s hs m hm hl => by
      rw [quietPath_starts hroutes] at hs
      exact hl ▸ hsu s hs m hm)
  have hmerge : QuietPath job c (st.latchCompleted c) (Sched.mergeUnlocked job.ir st
      c.activation.lineageId ((st.latchCompleted c).enqueueRoutes job c)) :=
    mergeUnlocked_induct (fun s node hn hp => hp.tail (.merge hok hn)) hlock hroutes
  exact hmerge.trans (settle_path h)

/-- The course of `_process_completion` after the record is made. -/
inductive Processed (job : Job) (c : Completion) (st st' : Sched) : Prop
  | failed : ¬c.ok → QuietPath job c st st' →
      st'.error ≠ none ∨ st'.deferredLoopFailures ≠ [] → Processed job c st st'
  | loop : c.ok → (job.ir.node c.record.nodeId).type = .loop →
      WorkPath job c (st.latchCompleted c) st' →
      ((job.ir.node c.record.nodeId).finish = some .fail → st'.error ≠ none) →
      Processed job c st st'
  | finishFail {s : Sched} : c.ok → (job.ir.node c.record.nodeId).type ≠ .loop →
      (job.ir.node c.record.nodeId).finish = some .fail →
      ((job.ir.node c.record.nodeId).type ≠ .break → s = st) → QuietPath job c st s →
      st' = { s with error := some (Sched.finishFailed c.record.nodeId) } → Processed job c st st'
  | routed {s : Sched} : c.ok → (job.ir.node c.record.nodeId).type ≠ .loop →
      (job.ir.node c.record.nodeId).finish ≠ some .fail →
      ((job.ir.node c.record.nodeId).type ≠ .break → s = st) → QuietPath job c st s →
      QuietPath job c (s.latchCompleted c) st' → Processed job c st st'

theorem bind_eq_ok {ε α β : Type} {x : Except ε α} {f : α → Except ε β} {b : β} :
    x >>= f = .ok b ↔ ∃ a, x = .ok a ∧ f a = .ok b := by
  cases x with
  | error e => simp [bind, Except.bind]
  | ok a => simp [bind, Except.bind]

theorem processSuccess_cases (hok : c.ok) (hnew : st.loops.get c.loopKey = none)
    (hsu : ∀ s, WorkPath job c st s → StartedUnlocked job s)
    (h : st.processSuccess job c = .ok st') : Processed job c st st' := by
  obtain ⟨s₂, h₂, h⟩ := bind_eq_ok.mp h
  obtain ⟨s₁, h₁, h₂⟩ := bind_eq_ok.mp h₂
  unfold Sched.loopBranch at h₁
  unfold Sched.breakBranch at h₂
  simp only [Sched.endBranch] at h
  by_cases hloop : (job.ir.node c.record.nodeId).type = .loop
  · have hbreak : ¬(job.ir.node c.record.nodeId).type = .break := by simp [hloop]
    simp only [hloop, ↓reduceIte] at h₁
    simp only [hbreak, ↓reduceIte, Except.ok.injEq] at h₂
    subst h₂
    obtain ⟨s₀, h₀, h₁⟩ := bind_eq_ok.mp h₁
    have hopen : WorkPath job c (st.latchCompleted c) s₁ :=
      work_of_quiet ((@openLoop_path job c (st.latchCompleted c) _ hok hloop hnew h₀).trans (settle_path h₁))
    split_ifs at h with hfail hend
    · obtain rfl := Except.ok.inj h
      refine .loop hok hloop (hopen.tail (.quiet (.fail _ (.finishFail hok hfail)))) ?_
      exact fun _ => by simp
    · obtain rfl := Except.ok.inj h
      exact .loop hok hloop hopen (fun he => absurd he hfail)
    · have hpath := routeCompletion_path (hsu s₁ (hopen.head (.latch hok))) hok hend h
      exact .loop hok hloop (hopen.trans (.head (.latch hok) (work_of_quiet hpath)))
        (fun he => absurd he hfail)
  · simp only [hloop, ↓reduceIte, Except.ok.injEq] at h₁
    subst h₁
    have hquiet : QuietPath job c st s₂ ∧
        ((job.ir.node c.record.nodeId).type ≠ .break → s₂ = st) := by
      split_ifs at h₂ with hbreak
      · exact ⟨(closeLoop_path hok hbreak).trans (settle_path h₂), fun hn => absurd hbreak hn⟩
      · obtain rfl := Except.ok.inj h₂
        exact ⟨.refl, fun _ => rfl⟩
    simp only [hloop, false_and, ↓reduceIte] at h
    split_ifs at h with hfail
    · exact .finishFail hok hloop hfail hquiet.2 hquiet.1 (Except.ok.inj h).symm
    · exact .routed hok hloop hfail hquiet.2 hquiet.1
        (routeCompletion_path (hsu s₂ (work_of_quiet hquiet.1)) hok (by simp [hloop]) h)

theorem deferLoopFailure_quiet {a : Activation} {e : Option RuntimeErrorInfo} (hok : ¬c.ok)
    (h : st.deferLoopFailure a e = some st') :
    Quiet job c st st' ∧ st'.deferredLoopFailures ≠ [] := by
  unfold Sched.deferLoopFailure at h
  split at h
  · simp at h
  · obtain rfl := Option.some.inj h
    exact ⟨.defer _ hok, by simp⟩

theorem processCompletion_cases (hnew : st.loops.get c.loopKey = none)
    (hsu : ∀ s, WorkPath job c (st.recordCompletion job c) s → StartedUnlocked job s)
    (h : st.processCompletion job c = .ok st') :
    Processed job c (st.recordCompletion job c) st' := by
  unfold Sched.processCompletion at h
  simp only at h
  split at h
  next hfail =>
    have hok : ¬c.ok := by simp [Completion.ok, hfail]
    split at h
    next s hs =>
      obtain ⟨hq, hd⟩ := @deferLoopFailure_quiet job c _ _ _ _ hok hs
      have hsettle : QuietPath job c s st' := settle_path h
      exact .failed hok (.head hq hsettle) (.inr ((quietPath_errors hsettle).2 hd))
    next =>
      obtain rfl := Except.ok.inj h
      exact .failed hok (.single (.fail _ (.failed hok))) (.inl (by simp))
  next hne =>
    exact processSuccess_cases (fun he => hne he) hnew hsu h

theorem Processed.work (h : Processed job c st st') : WorkPath job c st st' := by
  cases h with
  | failed _ hp _ => exact work_of_quiet hp
  | loop hok _ hp _ => exact hp.head (.latch hok)
  | finishFail hok _ hf _ hp he =>
    subst he
    exact (work_of_quiet hp).tail (.quiet (.fail _ (.finishFail hok hf)))
  | routed hok _ _ _ hp hp' => exact (work_of_quiet hp).trans ((work_of_quiet hp').head (.latch hok))

end Paths

end Raticode.Rattish
