import Mathlib.Data.List.Perm.Basic
import Raticode.RattishMicro
import Raticode.RattishNaming

/-! What every reachable scheduler state has in common: the queues account for
the running groups, every start is under way or recorded, and the names of
lineages and groups tell where an activation belongs. -/
namespace Raticode.Rattish
open OrderedDict Relation

def Signal.key (s : Signal) : NodeId × GroupId := (s.node, s.activation.groupId)

def Flight.key (f : Flight) : NodeId × GroupId := (f.node, f.activation.groupId)

def Flight.run (f : Flight) : RunId := (f.node, f.runNumber)

def Sched.inflight (st : Sched) : List Flight :=
  st.replayReady.map ReadyEntry.flight ++ st.replayHeld.map Task.flight ++
    st.tasks.map Task.flight ++ st.channel.map Completion.flight

inductive Placed (st : Sched) (a : Activation) : Prop
  | root : a.lineageId = rootLineage → RootName a.groupId → a.loopLineages = [] → Placed st a
  | iteration (ls : LoopState) (i : ℕ) : st.loops.get ls.lineageId = some ls →
      i < ls.nextIndex → a.groupId = iterationGroup ls.lineageId i → a.lineageId = a.groupId →
      a.loopLineages = ls.parentLineages.set ls.nodeId ls.lineageId → Placed st a

/-- The completion of the loop node that opened this loop. -/
structure OpenedBy (job : Job) (ls : LoopState) (c : Completion) : Prop where
  ok : c.ok
  type : (job.ir.node c.record.nodeId).type = .loop
  node : c.record.nodeId = ls.nodeId
  run : c.record.runNumber = ls.runNumber
  key : c.loopKey = ls.lineageId
  lineages : c.activation.loopLineages = ls.parentLineages
  lineage : c.activation.lineageId = ls.parentLineageId

structure LoopWf (job : Job) (st : Sched) (key : LineageId) (ls : LoopState) : Prop where
  lineage : ls.lineageId = key
  opened : ∃ c ∈ st.completions, OpenedBy job ls c
  routes : ∀ r ∈ ls.routes, r ∈ (job.ir.node ls.nodeId).routes

/-- The scheduler's queues, counters and loops fit together. Every other invariant is proved
beside this one. -/
structure WellFormed (job : Job) (st : Sched) : Prop where
  keys : (st.pending.map Signal.key ++ st.running).Nodup
  running : st.running.Perm (st.inflight.map Flight.key)
  history : (st.starts.map Start.flight).Perm (st.inflight ++ st.completions.map Completion.flight)
  runs : (st.starts.map (fun s => s.flight.run)).Nodup
  counts : ∀ n, st.runCounts n = (st.starts.filter (·.task.node = n)).length
  numbered : ∀ s ∈ st.starts, s.task.runNumber ≤ st.runCounts s.task.node
  placedPending : ∀ s ∈ st.pending, Placed st s.activation
  placedStarts : ∀ s ∈ st.starts, Placed st s.task.activation
  knownPending : ∀ s ∈ st.pending, s.node ∈ job.ir.nodes.map (·.id)
  knownStarts : ∀ s ∈ st.starts, s.task.node ∈ job.ir.nodes.map (·.id)
  loops : ∀ key ls, st.loops.get key = some ls → LoopWf job st key ls
  unlocked : StartedUnlocked job st

section Loops

def LoopState.Advances (ls ls' : LoopState) : Prop :=
  ls' = { ls with nextIndex := ls'.nextIndex, closed := ls'.closed,
                  activeGroups := ls'.activeGroups } ∧
    ls.nextIndex ≤ ls'.nextIndex ∧ (ls.closed = true → ls'.closed = true)

theorem LoopState.Advances.refl (ls : LoopState) : ls.Advances ls := ⟨rfl, le_rfl, id⟩

theorem LoopState.Advances.trans {a b c : LoopState} (h₁ : a.Advances b) (h₂ : b.Advances c) :
    a.Advances c := by
  obtain ⟨e₁, n₁, c₁⟩ := h₁
  obtain ⟨e₂, n₂, c₂⟩ := h₂
  refine ⟨?_, n₁.trans n₂, fun h => c₂ (c₁ h)⟩
  rw [e₂, e₁]

theorem LoopState.Advances.fixed {ls ls' : LoopState} (h : ls.Advances ls') :
    ls'.nodeId = ls.nodeId ∧ ls'.runNumber = ls.runNumber ∧ ls'.lineageId = ls.lineageId ∧
      ls'.routes = ls.routes ∧ ls'.parentLineages = ls.parentLineages ∧
      ls'.parentLineageId = ls.parentLineageId ∧ ls'.maxConcurrency = ls.maxConcurrency ∧
      ls'.items = ls.items ∧ ls'.infinite = ls.infinite := by
  rw [h.1]
  exact ⟨rfl, rfl, rfl, rfl, rfl, rfl, rfl, rfl, rfl⟩

def LoopState.canOpen (ls : LoopState) : Prop := ls.hasNext = true ∧ 0 < ls.maxConcurrency

instance (ls : LoopState) : Decidable ls.canOpen := inferInstanceAs (Decidable (_ ∧ _))

theorem LoopState.Advances.hasNext {ls ls' : LoopState} (ha : ls.Advances ls')
    (h : ls'.hasNext = true) : ls.hasNext = true := by
  obtain ⟨-, -, -, -, -, -, -, hitems, hinf⟩ := ha.fixed
  simp only [LoopState.hasNext, Bool.and_eq_true, Bool.not_eq_true', Bool.or_eq_true,
    decide_eq_true_eq, hitems, hinf] at h ⊢
  refine ⟨?_, h.2.imp id (fun hlt => ha.2.1.trans_lt hlt)⟩
  by_contra hc
  exact absurd (ha.2.2 (by simpa using hc)) (by simp [h.1])

theorem LoopState.Advances.canOpen {ls ls' : LoopState} (ha : ls.Advances ls')
    (h : ls'.canOpen) : ls.canOpen :=
  ⟨ha.hasNext h.1, ha.fixed.2.2.2.2.2.2.1 ▸ h.2⟩

theorem canOpen_of_capacity {ls : LoopState} (hn : ls.hasNext = true)
    (hc : ls.hasCapacity = true) : ls.canOpen := by
  refine ⟨hn, ?_⟩
  simp only [LoopState.hasCapacity, decide_eq_true_eq] at hc
  omega

def LoopsGrow (st st' : Sched) : Prop :=
  ∀ key ls, st.loops.get key = some ls → ∃ ls', st'.loops.get key = some ls' ∧ ls.Advances ls'

theorem LoopsGrow.of_eq {st st' : Sched} (h : st'.loops = st.loops) : LoopsGrow st st' :=
  fun _ ls hls => ⟨ls, by rw [h]; exact hls, .refl ls⟩

theorem LoopsGrow.of_new {st st' : Sched} {key : LineageId} {ls : LoopState}
    (hnew : st.loops.get key = none) (hset : st'.loops = st.loops.set key ls) :
    LoopsGrow st st' := by
  intro k l hl
  refine ⟨l, ?_, .refl l⟩
  rw [hset, Dict.get_set_ne _ _ (by rintro rfl; simp [hnew] at hl), hl]

theorem LoopsGrow.of_set {st st' : Sched} {key : LineageId} {ls ls' : LoopState}
    (hget : st.loops.get key = some ls) (hset : st'.loops = st.loops.set key ls')
    (ha : ls.Advances ls') : LoopsGrow st st' := by
  intro k l hl
  rw [hset, Dict.get_set]
  split_ifs with hk
  · subst hk
    rw [hget] at hl
    obtain rfl := Option.some.inj hl
    exact ⟨ls', rfl, ha⟩
  · exact ⟨l, hl, .refl l⟩

variable {job : Job} {c : Completion} {st st' : Sched}

inductive LoopsChange (job : Job) (st st' : Sched) : Prop
  | same : st'.loops = st.loops → LoopsChange job st st'
  | opened (c : Completion) (ls : LoopState) : c.ok →
      (job.ir.node c.record.nodeId).type = .loop → st.completions.getLast? = some c →
      st.loopStateOf job c = some ls → st.loops.get ls.lineageId = none →
      st'.loops = st.loops.set ls.lineageId ls → LoopsChange job st st'
  | advanced (key : LineageId) (ls ls' : LoopState) : st.loops.get key = some ls →
      st'.loops = st.loops.set key ls' → ls.Advances ls' →
      ls'.nextIndex = ls.nextIndex ∨ (ls.hasNext = true ∧ ls.hasCapacity = true ∧
        ls'.nextIndex = ls.nextIndex + 1) →
      LoopsChange job st st'

theorem quiet_loops (hkey : ∀ key ls, st.loops.get key = some ls → ls.lineageId = key)
    (hc : st.completions.getLast? = some c) (h : Quiet job c st st') : LoopsChange job st st' := by
  cases h with
  | fail | defer | emit => exact .same rfl
  | openLoop hok ht hls hnew => exact .opened c _ hok ht hc hls hnew rfl
  | prune live key =>
    unfold Sched.prune
    split
    · exact .same rfl
    next ls hls => exact .advanced key ls _ hls rfl ⟨rfl, le_rfl, id⟩ (.inl rfl)
  | @iterate key ls _ hls hn hcap _ =>
    obtain rfl := hkey _ _ hls
    exact .advanced _ ls _ hls rfl ⟨rfl, Nat.le_succ _, id⟩ (.inr ⟨hn, hcap, rfl⟩)
  | close _ _ _ _ hls _ =>
    exact .advanced _ _ _ hls rfl ⟨rfl, le_rfl, fun _ => rfl⟩ (.inl rfl)
  | merge =>
    unfold Sched.mergeLockedSignals
    split <;> exact .same rfl

theorem idle_loops (h : Idle job st st') : st'.loops = st.loops := by
  cases h with
  | start _ _ _ hd =>
    cases hd <;> rfl
  | refuse | finishReplay | send => rfl

theorem micro_loops (hkey : ∀ key ls, st.loops.get key = some ls → ls.lineageId = key)
    (h : Micro job st st') : LoopsChange job st st' := by
  cases h with
  | complete hp => exact .same (by simp [Sched.recordCompletion, pops_loops hp])
  | work hc hw =>
    cases hw with
    | quiet hq => exact quiet_loops hkey hc hq
    | latch _ => exact .same rfl
  | idle hi => exact .same (idle_loops hi)

theorem LoopsChange.grow (h : LoopsChange job st st') : LoopsGrow st st' := by
  cases h with
  | same he => exact .of_eq he
  | opened c ls _ _ _ _ hnew he => exact .of_new hnew he
  | advanced key ls ls' hls he ha _ => exact .of_set hls he ha

theorem micro_loopsGrow (hkey : ∀ key ls, st.loops.get key = some ls → ls.lineageId = key)
    (h : Micro job st st') : LoopsGrow st st' := (micro_loops hkey h).grow

theorem prune_loopsGrow (live : List GroupId) (key : LineageId) :
    LoopsGrow st (st.prune live key) := by
  unfold Sched.prune
  split
  · exact .of_eq rfl
  next ls hls => exact .of_set hls rfl ⟨rfl, le_rfl, id⟩

theorem Placed.grow {a : Activation} (hg : LoopsGrow st st') (h : Placed st a) : Placed st' a := by
  cases h with
  | root h₁ h₂ h₃ => exact .root h₁ h₂ h₃
  | iteration ls i hls hi hgroup hlineage hloops =>
    obtain ⟨ls', hls', ha⟩ := hg _ _ hls
    obtain ⟨h₁, -, h₃, -, h₅, -⟩ := ha.fixed
    rw [← h₃] at hls' hgroup hloops
    rw [← h₁, ← h₅] at hloops
    exact .iteration ls' i hls' (hi.trans_le ha.2.1) hgroup hlineage hloops

theorem Placed.ne_nextGroup {a : Activation} {key : LineageId} {ls : LoopState}
    (h : Placed st a) (hls : st.loops.get key = some ls) (hkey : ls.lineageId = key) :
    a.lineageId ≠ ls.nextGroup ∧ a.groupId ≠ ls.nextGroup := by
  cases h with
  | root hl hg _ =>
    constructor
    · intro he
      exact not_rootName_iterationGroup _ _ (he ▸ hl ▸ rootName_rootLineage)
    · intro he
      exact not_rootName_iterationGroup _ _ (he ▸ hg)
  | iteration ls' i hls' hi hg hl _ =>
    have hne : a.groupId ≠ ls.nextGroup := by
      intro he
      rw [hg] at he
      obtain ⟨h₁, h₂⟩ := iterationGroup_inj.mp he
      rw [h₁, hkey, hls] at hls'
      obtain rfl := Option.some.inj hls'
      omega
    exact ⟨hl ▸ hne, hne⟩

end Loops

section Preserve

variable {job : Job} {c : Completion} {st st' : Sched}

theorem WellFormed.lineage (h : WellFormed job st) {key : LineageId} {ls : LoopState}
    (hls : st.loops.get key = some ls) : ls.lineageId = key := (h.loops key ls hls).lineage

theorem LoopWf.advance {key : LineageId} {ls ls' : LoopState} (h : LoopWf job st key ls)
    (ha : ls.Advances ls') (hc : ∀ c ∈ st.completions, c ∈ st'.completions) :
    LoopWf job st' key ls' := by
  obtain ⟨hnode, hrun, hlineage, hroutes, hlineages, hparent, -⟩ := ha.fixed
  obtain ⟨c, hm, ho⟩ := h.opened
  refine ⟨hlineage.trans h.lineage, ⟨c, hc c hm, ?_⟩, ?_⟩
  · exact ⟨ho.ok, ho.type, ho.node.trans hnode.symm, ho.run.trans hrun.symm,
      ho.key.trans hlineage.symm, ho.lineages.trans hlineages.symm,
      ho.lineage.trans hparent.symm⟩
  · rw [hroutes, hnode]
    exact h.routes

theorem WellFormed.loops_set (h : WellFormed job st) {key : LineageId} {ls ls' : LoopState}
    (hget : st.loops.get key = some ls) (hset : st'.loops = st.loops.set key ls')
    (ha : ls.Advances ls') (hc : st'.completions = st.completions) :
    ∀ k l, st'.loops.get k = some l → LoopWf job st' k l := by
  have hsub : ∀ c ∈ st.completions, c ∈ st'.completions := fun c hm => hc ▸ hm
  intro k l hl
  rw [hset, Dict.get_set] at hl
  split_ifs at hl with hk
  · obtain rfl := Option.some.inj hl
    subst hk
    exact (h.loops _ _ hget).advance ha hsub
  · exact (h.loops k l hl).advance (.refl l) hsub

theorem WellFormed.loops_eq (h : WellFormed job st) (heq : st'.loops = st.loops)
    (hc : ∀ c ∈ st.completions, c ∈ st'.completions) :
    ∀ k l, st'.loops.get k = some l → LoopWf job st' k l :=
  fun k l hl => (h.loops k l (heq ▸ hl)).advance (.refl l) hc

theorem WellFormed.frame (h : WellFormed job st)
    (hkeys : (st'.pending.map Signal.key ++ st.running).Nodup)
    (hplaced : ∀ s ∈ st'.pending, Placed st' s.activation)
    (hknown : ∀ s ∈ st'.pending, s.node ∈ job.ir.nodes.map (·.id))
    (hr : st'.running = st.running) (hs : st'.starts = st.starts)
    (hc : st'.completions = st.completions) (hn : st'.runCounts = st.runCounts)
    (hf : st'.inflight.Perm st.inflight)
    (hsat : ∀ s ∈ st.starts, ∀ m ∈ st.satisfied s.task.activation.lineageId,
      m ∈ st'.satisfied s.task.activation.lineageId)
    (hg : LoopsGrow st st') (hl : ∀ k l, st'.loops.get k = some l → LoopWf job st' k l) :
    WellFormed job st' where
  keys := by rwa [hr]
  running := by
    rw [hr]
    exact h.running.trans (hf.symm.map _)
  history := by
    rw [hs, hc]
    exact h.history.trans (hf.symm.append_right _)
  runs := by rw [hs]; exact h.runs
  counts := by rw [hs, hn]; exact h.counts
  numbered := by rw [hs, hn]; exact h.numbered
  placedPending := hplaced
  placedStarts := by
    rw [hs]
    exact fun s hm => (h.placedStarts s hm).grow hg
  knownPending := hknown
  knownStarts := by rw [hs]; exact h.knownStarts
  loops := hl
  unlocked := by
    intro s hm m hneed
    rw [hs] at hm
    exact hsat s hm m (h.unlocked s hm m hneed)

theorem WellFormed.frame_same (h : WellFormed job st) (hp : st'.pending = st.pending)
    (hr : st'.running = st.running) (hs : st'.starts = st.starts)
    (hc : st'.completions = st.completions) (hn : st'.runCounts = st.runCounts)
    (hf : st'.inflight.Perm st.inflight)
    (hsat : ∀ s ∈ st.starts, ∀ m ∈ st.satisfied s.task.activation.lineageId,
      m ∈ st'.satisfied s.task.activation.lineageId)
    (hg : LoopsGrow st st') (hl : ∀ k l, st'.loops.get k = some l → LoopWf job st' k l) :
    WellFormed job st' := by
  refine h.frame ?_ ?_ ?_ hr hs hc hn hf hsat hg hl
  · rw [hp]; exact h.keys
  · rw [hp]; exact fun s hm => (h.placedPending s hm).grow hg
  · rw [hp]; exact h.knownPending

theorem WellFormed.latch (h : WellFormed job st) : WellFormed job (st.latchCompleted c) := by
  refine h.frame_same rfl rfl rfl rfl rfl (.refl _) ?_ (.of_eq rfl) (h.loops_eq rfl (fun _ => id))
  intro s _ m hm
  simp only [Sched.latchCompleted, Sched.latch, update]
  split
  next he =>
    rw [← he]
    exact List.mem_insert_of_mem hm
  · exact hm

theorem WellFormed.prune (h : WellFormed job st) (live : List GroupId) (key : LineageId) :
    WellFormed job (st.prune live key) := by
  have hg : LoopsGrow st (st.prune live key) := prune_loopsGrow live key
  unfold Sched.prune at hg ⊢
  split at hg
  · exact h
  next ls hls =>
    exact h.frame_same rfl rfl rfl rfl rfl (.refl _) (fun _ _ _ => id) hg
      (h.loops_set hls rfl ⟨rfl, le_rfl, id⟩ rfl)

theorem WellFormed.mem_starts (h : WellFormed job st) {f : Flight}
    (hf : f ∈ st.inflight ++ st.completions.map Completion.flight) :
    ∃ s ∈ st.starts, s.flight = f :=
  List.mem_map.mp (h.history.mem_iff.mpr hf)

theorem WellFormed.start_of_completion (h : WellFormed job st) (hc : c ∈ st.completions) :
    ∃ s ∈ st.starts, s.task.node = c.record.nodeId ∧ s.task.activation = c.activation := by
  obtain ⟨s, hs, hf⟩ :=
    h.mem_starts (List.mem_append_right _ (List.mem_map_of_mem (f := Completion.flight) hc))
  exact ⟨s, hs, congrArg Flight.node hf, congrArg Flight.activation hf⟩

theorem WellFormed.of_completion (h : WellFormed job st) (hc : c ∈ st.completions) :
    Placed st c.activation ∧ c.record.nodeId ∈ job.ir.nodes.map (·.id) ∧
      ∀ m ∈ (job.ir.node c.record.nodeId).needs, m ∈ st.satisfied c.activation.lineageId := by
  obtain ⟨s, hs, hnode, hact⟩ := h.start_of_completion hc
  rw [← hnode, ← hact]
  exact ⟨h.placedStarts s hs, h.knownStarts s hs, h.unlocked s hs⟩

theorem WellFormed.openLoop (h : WellFormed job st) (hc : c ∈ st.completions)
    {ls : LoopState} (hok : c.ok) (ht : (job.ir.node c.record.nodeId).type = .loop)
    (hls : st.loopStateOf job c = some ls) (hnew : st.loops.get ls.lineageId = none) :
    WellFormed job { st with loops := st.loops.set ls.lineageId ls } := by
  obtain ⟨hkey, hnode, hrun, hroutes, -, hlineages, hparent, -⟩ := loopStateOf_eq_some hls
  refine h.frame_same rfl rfl rfl rfl rfl (.refl _) (fun _ _ _ => id) (.of_new hnew rfl) ?_
  intro k l hl
  simp only [Dict.get_set] at hl
  split_ifs at hl with hk
  · obtain rfl := Option.some.inj hl
    refine ⟨hk, ⟨c, hc, hok, ht, hnode.symm, hrun.symm, hkey.symm, hlineages.symm,
      hparent.symm⟩, fun r hr => ?_⟩
    rw [hroutes] at hr
    rw [hnode]
    exact mem_of_mem_matchingRoutes hr
  · exact (h.loops k l hl).advance (.refl l) (fun _ => id)

theorem IR.Valid.target_known (hv : job.ir.Valid) {node : NodeId}
    (hn : node ∈ job.ir.nodes.map (·.id)) {r : Route} (hr : r ∈ (job.ir.node node).routes) :
    r.target ∈ job.ir.nodes.map (·.id) :=
  hv.targets_known _ (IR.node_mem hn).1 r hr

theorem nodup_keys_emits (h : (st.pending.map Signal.key ++ st.running).Nodup)
    {a : Activation} {origins : List RunId} {targets : List NodeId} {news : List Signal}
    (hem : st.Emits a origins targets news) :
    ((st.pending ++ news).map Signal.key ++ st.running).Nodup := by
  have hkey : ∀ s ∈ news, s.key = (s.node, a.groupId) := by
    intro s hs
    simp only [Signal.key, Prod.mk.injEq, true_and]
    rw [(hem.shape s hs).2.2]
  have hnews : (news.map Signal.key).Nodup := by
    rw [List.map_congr_left hkey]
    have := hem.nodup.map (f := fun n : NodeId => (n, a.groupId)) (fun x y hxy => (Prod.mk.inj hxy).1)
    rwa [List.map_map] at this
  have hdisj : List.Disjoint (st.pending.map Signal.key ++ st.running) (news.map Signal.key) := by
    intro k hk hk'
    obtain ⟨s, hs, rfl⟩ := List.mem_map.mp hk'
    have hu := Sched.isQueued_eq_false.mp (hem.unqueued s hs)
    rw [hkey s hs] at hk
    rcases List.mem_append.mp hk with hp | hr
    · obtain ⟨p, hp, he⟩ := List.mem_map.mp hp
      exact hu.2 p hp ⟨congrArg Prod.fst he, congrArg Prod.snd he⟩
    · exact hu.1 hr
  have happ : ((st.pending.map Signal.key ++ st.running) ++ news.map Signal.key).Nodup :=
    List.nodup_append'.mpr ⟨h, hnews, hdisj⟩
  refine (List.Perm.nodup_iff ?_).mp happ
  rw [List.map_append, List.append_assoc, List.append_assoc]
  exact List.perm_append_comm.append_left _

theorem WellFormed.emit (hv : job.ir.Valid) (h : WellFormed job st) (hc : c ∈ st.completions)
    {news : List Signal}
    (hem : st.Emits c.activation [c.run] ((st.routesOf job c).map (·.target)) news) :
    WellFormed job (st.addSignals news) := by
  have hgrow : LoopsGrow st (st.addSignals news) := .of_eq rfl
  obtain ⟨hplaced, hknown, -⟩ := h.of_completion hc
  refine h.frame (nodup_keys_emits h.keys hem) ?_ ?_ rfl rfl rfl rfl (.refl _) (fun _ _ _ => id)
    hgrow (h.loops_eq rfl (fun _ => id))
  · intro s hs
    rcases List.mem_append.mp hs with hs | hs
    · exact (h.placedPending s hs).grow hgrow
    · rw [(hem.shape s hs).2.2]
      cases hplaced.grow hgrow with
      | root h₁ h₂ h₃ => exact .root h₁ h₂ h₃
      | iteration ls i h₁ h₂ h₃ h₄ h₅ => exact .iteration ls i h₁ h₂ h₃ h₄ h₅
  · intro s hs
    rcases List.mem_append.mp hs with hs | hs
    · exact h.knownPending s hs
    · obtain ⟨r, hr, he⟩ := List.mem_map.mp (hem.shape s hs).1
      rw [← he]
      exact hv.target_known hknown (mem_of_mem_matchingRoutes hr)

theorem WellFormed.iterate (hv : job.ir.Valid) (h : WellFormed job st) {key : LineageId}
    {ls : LoopState} {news : List Signal} (hls : st.loops.get key = some ls)
    (hem : (st.openIteration ls).Emits ls.iterationActivation [(ls.nodeId, ls.runNumber)]
      (ls.routes.map (·.target)) news) :
    WellFormed job ((st.openIteration ls).addSignals news) := by
  have hwf := h.loops key ls hls
  obtain rfl := hwf.lineage
  have hadv : ls.Advances ls.counted := ⟨rfl, Nat.le_succ _, id⟩
  have hgrow : LoopsGrow st ((st.openIteration ls).addSignals news) := .of_set hls rfl hadv
  obtain ⟨c, hcm, hopened⟩ := hwf.opened
  have hknown : ls.nodeId ∈ job.ir.nodes.map (·.id) := hopened.node ▸ (h.of_completion hcm).2.1
  refine h.frame (@nodup_keys_emits (st.openIteration ls) h.keys _ _ _ _ hem) ?_ ?_ rfl rfl rfl rfl
    (.refl _) ?_ hgrow (h.loops_set hls rfl hadv rfl)
  · intro s hs
    rcases List.mem_append.mp hs with hs | hs
    · exact (h.placedPending s hs).grow hgrow
    · rw [(hem.shape s hs).2.2]
      exact .iteration ls.counted ls.nextIndex (Dict.get_set_self _ _ _) (Nat.lt_succ_self _)
        rfl rfl rfl
  · intro s hs
    rcases List.mem_append.mp hs with hs | hs
    · exact h.knownPending s hs
    · obtain ⟨r, hr, he⟩ := List.mem_map.mp (hem.shape s hs).1
      rw [← he]
      exact hv.target_known hknown (hwf.routes r hr)
  · intro s hs m hm
    have hne := ((h.placedStarts s hs).ne_nextGroup hls rfl).1
    simpa [Sched.addSignals, Sched.openIteration, update_ne _ _ hne] using hm

theorem WellFormed.close (h : WellFormed job st) {key : LineageId} {ls : LoopState}
    (hls : st.loops.get key = some ls) (keep : Signal → Bool) :
    WellFormed job { st with
      loops := st.loops.set key { ls with closed := true }
      pending := st.pending.filter keep } := by
  have hadv : ls.Advances { ls with closed := true } := ⟨rfl, le_rfl, fun _ => rfl⟩
  have hgrow : LoopsGrow st { st with
      loops := st.loops.set key { ls with closed := true }
      pending := st.pending.filter keep } := .of_set hls rfl hadv
  refine h.frame ?_ ?_ ?_ rfl rfl rfl rfl (.refl _) (fun _ _ _ => id) hgrow
    (h.loops_set hls rfl hadv rfl)
  · exact h.keys.sublist ((List.filter_sublist.map _).append_right _)
  · exact fun s hs => (h.placedPending s (List.mem_filter.mp hs).1).grow hgrow
  · exact fun s hs => h.knownPending s (List.mem_filter.mp hs).1

theorem Placed.of_root {a : Activation} (h : Placed st a) (hl : a.lineageId = rootLineage) :
    RootName a.groupId ∧ a.loopLineages = [] := by
  cases h with
  | root _ hg hloops => exact ⟨hg, hloops⟩
  | iteration ls i _ _ hg hl' _ =>
    refine absurd rootName_rootLineage ?_
    rw [← hl, hl', hg]
    exact not_rootName_iterationGroup _ _

theorem Placed.of_ne_root {a : Activation} (h : Placed st a) (hl : a.lineageId ≠ rootLineage) :
    a.lineageId = a.groupId ∧ ¬RootName a.groupId := by
  cases h with
  | root hr _ _ => exact absurd hr hl
  | iteration ls i _ _ hg hl' _ => exact ⟨hl', hg ▸ not_rootName_iterationGroup _ _⟩

theorem WellFormed.mem_inflight (h : WellFormed job st) {k : NodeId × GroupId}
    (hk : k ∈ st.running) : ∃ s ∈ st.starts, s.flight.key = k := by
  obtain ⟨f, hf, rfl⟩ := List.mem_map.mp (h.running.mem_iff.mp hk)
  obtain ⟨s, hs, rfl⟩ := h.mem_starts (List.mem_append_left _ hf)
  exact ⟨s, hs, rfl⟩

theorem WellFormed.two_signals (h : WellFormed job st) {node : NodeId} {lineage : LineageId}
    {first second : Signal} {rest : List Signal}
    (hsig : (st.pendingOf node).filter (·.activation.lineageId = lineage) =
      first :: second :: rest) : lineage = rootLineage := by
  have hsub : [first, second].Sublist st.pending :=
    ((List.nil_sublist rest).cons_cons second |>.cons_cons first).trans
      (hsig ▸ List.filter_sublist.trans List.filter_sublist)
  have hmem : ∀ s ∈ [first, second], s ∈ (st.pendingOf node).filter
      (·.activation.lineageId = lineage) := by
    intro s hs
    rw [hsig]
    simp only [List.mem_cons, List.not_mem_nil, or_false] at hs
    rcases hs with rfl | rfl <;> simp
  have hne : first.key ≠ second.key := by
    have hnd := (h.keys.sublist (List.sublist_append_left _ _)).sublist (hsub.map Signal.key)
    simpa using hnd
  simp only [List.mem_filter, Sched.pendingOf, decide_eq_true_eq] at hmem
  obtain ⟨⟨hp₁, hn₁⟩, hl₁⟩ := hmem first (by simp)
  obtain ⟨⟨hp₂, hn₂⟩, hl₂⟩ := hmem second (by simp)
  by_contra hroot
  have h₁ := ((h.placedPending first hp₁).of_ne_root (hl₁ ▸ hroot)).1
  have h₂ := ((h.placedPending second hp₂).of_ne_root (hl₂ ▸ hroot)).1
  exact hne (Prod.ext (hn₁.trans hn₂.symm) (h₁.symm.trans (hl₁.trans (hl₂.symm.trans h₂))))

theorem WellFormed.rootName_merged (h : WellFormed job st) {signals : List Signal}
    (hmem : ∀ s ∈ signals, s ∈ st.pending ∧ s.activation.lineageId = rootLineage) :
    RootName (Sched.mergedGroup signals) := by
  refine Rattish.rootName_merged (rootName_intercalate (fun g hg => ?_))
  obtain ⟨s, hs, rfl⟩ := List.mem_map.mp (List.mem_insertionSort _ |>.mp hg)
  exact ((h.placedPending s (hmem s hs).1).of_root (hmem s hs).2).1

theorem WellFormed.merge (h : WellFormed job st) {node : NodeId} {lineage : LineageId}
    (hstarts : ∀ s ∈ st.starts, s.task.node = node → s.task.activation.lineageId ≠ lineage) :
    WellFormed job (st.mergeLockedSignals node lineage) := by
  unfold Sched.mergeLockedSignals
  split
  · exact h
  · exact h
  next first rest hone hsig =>
  cases rest with
  | nil => exact absurd rfl hone
  | cons second rest =>
  obtain rfl := h.two_signals hsig
  have hmem : ∀ s ∈ first :: second :: rest, s ∈ st.pending ∧ s.node = node ∧
      s.activation.lineageId = rootLineage := by
    intro s hs
    rw [← hsig] at hs
    simp only [List.mem_filter, Sched.pendingOf, decide_eq_true_eq] at hs
    exact ⟨hs.1.1, hs.1.2, hs.2⟩
  have hfirst := hmem first List.mem_cons_self
  have hname : RootName (Sched.mergedGroup (first :: second :: rest)) :=
    h.rootName_merged (fun s hs => ⟨(hmem s hs).1, (hmem s hs).2.2⟩)
  -- any other activation of the node lies in an iteration, whose group has another name
  have hother : ∀ a : Activation, Placed st a → a.lineageId ≠ rootLineage →
      a.groupId ≠ Sched.mergedGroup (first :: second :: rest) :=
    fun a ha hl he => (ha.of_ne_root hl).2 (he ▸ hname)
  refine h.frame ?_ ?_ ?_ rfl rfl rfl rfl (.refl _) (fun _ _ _ => id) (.of_eq rfl)
    (h.loops_eq rfl (fun _ => id))
  · rw [List.map_append, List.append_assoc]
    refine List.nodup_middle.mpr (List.nodup_cons.mpr ⟨fun hk => ?_, h.keys.sublist
      ((List.filter_sublist.map Signal.key).append_right st.running)⟩)
    rcases List.mem_append.mp hk with hk | hk
    · obtain ⟨s, hs, he⟩ := List.mem_map.mp hk
      simp only [List.mem_filter, Bool.not_eq_true', Bool.and_eq_false_imp, decide_eq_true_eq,
        decide_eq_false_iff_not] at hs
      exact hother _ (h.placedPending s hs.1) (hs.2 (congrArg Prod.fst he)) (congrArg Prod.snd he)
    · obtain ⟨s, hs, he⟩ := h.mem_inflight hk
      exact hother _ (h.placedStarts s hs) (hstarts s hs (congrArg Prod.fst he))
        (congrArg Prod.snd he)
  · intro s hs
    rcases List.mem_append.mp hs with hs | hs
    · exact (h.placedPending s (List.mem_filter.mp hs).1).grow (@LoopsGrow.of_eq st _ rfl)
    · obtain rfl := List.mem_singleton.mp hs
      exact .root rfl hname ((h.placedPending first hfirst.1).of_root hfirst.2.2).2
  · intro s hs
    rcases List.mem_append.mp hs with hs | hs
    · exact h.knownPending s (List.mem_filter.mp hs).1
    · obtain rfl := List.mem_singleton.mp hs
      exact hfirst.2.1 ▸ h.knownPending first hfirst.1

theorem WellFormed.quiet (hv : job.ir.Valid) (h : WellFormed job st) (hc : c ∈ st.completions)
    (hq : Quiet job c st st') : WellFormed job st' := by
  cases hq with
  | fail | defer =>
    exact h.frame_same rfl rfl rfl rfl rfl (.refl _) (fun _ _ _ => id) (.of_eq rfl)
      (h.loops_eq rfl (fun _ => id))
  | openLoop hok ht hls hnew => exact h.openLoop hc hok ht hls hnew
  | prune live key => exact h.prune live key
  | iterate hls _ _ hem => exact h.iterate hv hls hem
  | close _ _ _ _ hls _ => exact h.close hls _
  | emit _ _ hem => exact h.emit hv hc hem
  | merge _ hstarts => exact h.merge hstarts

theorem popEarliest_perm {l others : List ReadyEntry} {e : ReadyEntry}
    (h : Sched.popEarliest l = some (e, others)) : l.Perm (e :: others) := by
  induction l generalizing e others with
  | nil => simp [Sched.popEarliest] at h
  | cons a l ih =>
    simp only [Sched.popEarliest] at h
    split at h
    next hnone =>
      cases l with
      | nil =>
        simp only [Option.some.injEq, Prod.mk.injEq] at h
        rw [← h.1, ← h.2]
      | cons b l =>
        simp only [Sched.popEarliest] at hnone
        split at hnone
        · simp at hnone
        · split at hnone <;> simp at hnone
    next m rest hm =>
      split at h
      all_goals
        simp only [Option.some.injEq, Prod.mk.injEq] at h
        rw [← h.1, ← h.2]
      exact ((ih hm).cons a).trans (.swap m a rest)

theorem pops_inflight {st₀ : Sched} (h : Pops job st c st₀) :
    st.inflight.Perm (c.flight :: st₀.inflight) := by
  cases h with
  | @ready e others he =>
    have hp := (popEarliest_perm he).map ReadyEntry.flight
    have := ((hp.append_right (st.replayHeld.map Task.flight)).append_right
      (st.tasks.map Task.flight)).append_right (st.channel.map Completion.flight)
    simpa [Sched.inflight, Completion.flight, Sched.ReadyEntry.completion, ReadyEntry.flight]
      using this
  | channel hc =>
    simp only [Sched.inflight, hc, List.map_cons]
    exact List.perm_middle

theorem pops_frame {st₀ : Sched} (h : Pops job st c st₀) :
    st₀.pending = st.pending ∧ st₀.running = st.running ∧ st₀.starts = st.starts ∧
      st₀.completions = st.completions ∧ st₀.runCounts = st.runCounts ∧
      st₀.satisfied = st.satisfied ∧ st₀.loops = st.loops := by
  cases h <;> exact ⟨rfl, rfl, rfl, rfl, rfl, rfl, rfl⟩

theorem WellFormed.complete (h : WellFormed job st) {st₀ : Sched} (hp : Pops job st c st₀) :
    WellFormed job (st₀.recordCompletion job c) := by
  have hf := pops_inflight hp
  obtain ⟨hpend, hrun, hstarts, hcomp, hcounts, hsat, hloops⟩ := pops_frame hp
  have hgrow : LoopsGrow st (st₀.recordCompletion job c) :=
    .of_eq (by simp [Sched.recordCompletion, hloops])
  exact {
    keys := by
      simp only [Sched.recordCompletion, hpend, hrun]
      exact h.keys.sublist (List.erase_sublist.append_left _)
    running := by
      show (st₀.running.erase c.flight.key).Perm (st₀.inflight.map Flight.key)
      rw [hrun]
      simpa using (h.running.trans (hf.map Flight.key)).erase c.flight.key
    history := by
      show (st₀.starts.map Start.flight).Perm
        (st₀.inflight ++ (st₀.completions ++ [c]).map Completion.flight)
      rw [hstarts, hcomp, List.map_append]
      refine (h.history.trans (hf.append_right _)).trans ?_
      rw [List.cons_append, ← List.append_assoc]
      exact (List.perm_append_singleton _ _).symm
    runs := by simpa only [Sched.recordCompletion, hstarts] using h.runs
    counts := by simpa only [Sched.recordCompletion, hstarts, hcounts] using h.counts
    numbered := by simpa only [Sched.recordCompletion, hstarts, hcounts] using h.numbered
    placedPending := by
      simp only [Sched.recordCompletion, hpend]
      exact fun s hs => (h.placedPending s hs).grow hgrow
    placedStarts := by
      simp only [Sched.recordCompletion, hstarts]
      exact fun s hs => (h.placedStarts s hs).grow hgrow
    knownPending := by simpa only [Sched.recordCompletion, hpend] using h.knownPending
    knownStarts := by simpa only [Sched.recordCompletion, hstarts] using h.knownStarts
    loops := h.loops_eq hloops (fun c' hc' => by simp [Sched.recordCompletion, hcomp, hc'])
    unlocked := by
      intro s hs m hm
      simp only [Sched.recordCompletion, hstarts, hsat] at hs ⊢
      exact h.unlocked s hs m hm }

theorem dispatched_inflight {t : Task} (h : Dispatched job t st st') :
    st'.inflight.Perm (t.flight :: st.inflight) := by
  cases h with
  | ready counts he hs =>
    simp only [Sched.inflight, List.map_append, List.map_cons, List.map_nil, he, List.append_assoc,
      List.singleton_append]
    exact List.perm_middle
  | held counts hr =>
    simp only [Sched.inflight, List.map_append, List.map_cons, List.map_nil]
    rw [← List.append_assoc, List.append_assoc _ [t.flight], List.append_assoc _ _
      (st.channel.map Completion.flight)]
    exact List.perm_middle.trans (.cons _ (by simp))
  | live counts hr =>
    simp only [Sched.inflight, List.map_append, List.map_cons, List.map_nil]
    rw [← List.append_assoc, List.append_assoc _ [t.flight]]
    exact List.perm_middle

theorem started_inflight {s : Signal} (h : Dispatched job (st.taskOf s) (st.begun s) st') :
    st'.inflight.Perm ((st.taskOf s).flight :: st.inflight) := by
  have hb : (st.begun s).inflight = st.inflight := rfl
  exact hb ▸ dispatched_inflight h

theorem dispatched_frame {t : Task} (h : Dispatched job t st st') :
    st'.pending = st.pending ∧ st'.running = st.running ∧ st'.starts = st.starts ∧
      st'.completions = st.completions ∧ st'.runCounts = st.runCounts ∧
      st'.satisfied = st.satisfied ∧ st'.loops = st.loops := by
  cases h <;> exact ⟨rfl, rfl, rfl, rfl, rfl, rfl, rfl⟩

theorem nodup_keys_begin (h : (st.pending.map Signal.key ++ st.running).Nodup) {s : Signal}
    (hs : s ∈ st.pending) :
    ((st.begin s).pending.map Signal.key ++ (st.begin s).running).Nodup := by
  have hk : s.key ∉ (st.begin s).pending.map Signal.key := by
    intro hm
    obtain ⟨p, hp, he⟩ := List.mem_map.mp hm
    simp only [Sched.begin, List.mem_filter, Bool.not_eq_true', Bool.and_eq_false_imp,
      decide_eq_true_eq, decide_eq_false_iff_not] at hp
    exact hp.2 (congrArg Prod.fst he) (congrArg Prod.snd he)
  have hsub : ((st.begin s).pending.map Signal.key ++ st.running).Nodup :=
    h.sublist ((List.filter_sublist.map Signal.key).append_right _)
  have hr : s.key ∉ st.running := fun hm =>
    (List.nodup_append'.mp h).2.2 (List.mem_map_of_mem hs) hm
  show ((st.begin s).pending.map Signal.key ++ (st.running ++ [s.key])).Nodup
  rw [← List.append_assoc]
  refine List.nodup_append'.mpr ⟨hsub, List.nodup_singleton _, fun k hk' hs' => ?_⟩
  obtain rfl := List.mem_singleton.mp hs'
  rcases List.mem_append.mp hk' with hm | hm
  · exact hk hm
  · exact hr hm

theorem WellFormed.start (h : WellFormed job st) {s : Signal} (hs : s ∈ st.pending)
    (hu : st.isUnlocked job.ir s.node s.activation = true)
    (hd : Dispatched job (st.taskOf s) (st.begun s) st') : WellFormed job st' := by
  obtain ⟨hpend, hrun, hstarts, hcomp, hcounts, hsat, hloops⟩ := dispatched_frame hd
  have hgrow : LoopsGrow st st' := .of_eq hloops
  have hfl := started_inflight hd
  have hstarts' : st'.starts = st.starts ++ [⟨st.taskOf s, st.completions.length, s.origins⟩] :=
    hstarts
  have hcounts' : st'.runCounts = update st.runCounts s.node (st.runCounts s.node + 1) := hcounts
  exact {
    keys := by
      rw [hpend, hrun]
      exact nodup_keys_begin h.keys hs
    running := by
      rw [hrun]
      show (st.running ++ [s.key]).Perm _
      refine (List.perm_append_singleton _ _).trans ((h.running.cons _).trans ?_)
      exact (hfl.map Flight.key).symm
    history := by
      rw [hstarts', hcomp, List.map_append]
      refine (List.perm_append_singleton _ _).trans ?_
      exact (h.history.cons _).trans (hfl.symm.append_right _)
    runs := by
      rw [hstarts', List.map_append]
      refine List.nodup_append'.mpr ⟨h.runs, List.nodup_singleton _, fun k hk hk' => ?_⟩
      obtain ⟨p, hp, rfl⟩ := List.mem_map.mp hk
      have he : p.flight.run = (s.node, st.runCounts s.node + 1) := List.mem_singleton.mp hk'
      have hnode : p.task.node = s.node := congrArg Prod.fst he
      have hnum : p.task.runNumber = st.runCounts s.node + 1 := congrArg Prod.snd he
      have := h.numbered p hp
      rw [hnode] at this
      omega
    counts := by
      intro n
      rw [hstarts', hcounts', List.filter_append, List.length_append, ← h.counts n]
      simp only [update, Sched.taskOf]
      by_cases hn : n = s.node
      · subst hn
        simp
      · simp [hn, show s.node ≠ n from fun h => hn h.symm]
    numbered := by
      intro p hp
      rw [hstarts'] at hp
      rw [hcounts']
      rcases List.mem_append.mp hp with hp | hp
      · have := h.numbered p hp
        simp only [update]
        split
        next he =>
          rw [he] at this
          omega
        · exact this
      · obtain rfl := List.mem_singleton.mp hp
        simp [Sched.taskOf]
    placedPending := by
      rw [hpend]
      exact fun p hp => (h.placedPending p (List.mem_filter.mp hp).1).grow hgrow
    placedStarts := by
      intro p hp
      rw [hstarts'] at hp
      rcases List.mem_append.mp hp with hp | hp
      · exact (h.placedStarts p hp).grow hgrow
      · obtain rfl := List.mem_singleton.mp hp
        exact (h.placedPending s hs).grow hgrow
    knownPending := by
      rw [hpend]
      exact fun p hp => h.knownPending p (List.mem_filter.mp hp).1
    knownStarts := by
      intro p hp
      rw [hstarts'] at hp
      rcases List.mem_append.mp hp with hp | hp
      · exact h.knownStarts p hp
      · obtain rfl := List.mem_singleton.mp hp
        exact h.knownPending s hs
    loops := h.loops_eq hloops (fun c hc => by rw [hcomp]; exact hc)
    unlocked := by
      intro p hp m hm
      rw [hstarts'] at hp
      rw [hsat]
      rcases List.mem_append.mp hp with hp | hp
      · exact h.unlocked p hp m hm
      · obtain rfl := List.mem_singleton.mp hp
        simp only [Sched.isUnlocked, Sched.lineageIsUnlocked, List.all_eq_true,
          List.contains_iff_mem] at hu
        exact hu m hm }

theorem finishReplay_inflight : st.finishReplay.inflight.Perm st.inflight := by
  simp only [Sched.inflight, Sched.finishReplay, List.map_append, List.map_nil, List.append_nil,
    List.append_assoc]
  refine List.Perm.append_left _ ?_
  rw [← List.append_assoc, ← List.append_assoc]
  exact List.perm_append_comm.append_right _

theorem send_inflight {i : ℕ} {t : Task} {result : NodeExecutionResult}
    (ht : st.tasks[i]? = some t) :
    Sched.inflight { st with tasks := st.tasks.eraseIdx i,
                             channel := st.channel ++ [t.completion result] } |>.Perm
      st.inflight := by
  obtain ⟨hi, rfl⟩ := List.getElem?_eq_some_iff.mp ht
  have hperm : st.tasks.Perm (st.tasks[i] :: st.tasks.eraseIdx i) :=
    (List.getElem_cons_eraseIdx_perm hi).symm
  simp only [Sched.inflight, List.map_append, List.map_cons, List.map_nil, List.append_assoc]
  refine List.Perm.append_left _ (List.Perm.append_left _ ?_)
  have htask : (st.tasks[i].completion result).flight = st.tasks[i].flight := rfl
  rw [htask, ← List.append_assoc]
  refine (List.perm_append_singleton _ _).trans ?_
  exact ((hperm.map Task.flight).append_right _).symm

theorem WellFormed.idle (h : WellFormed job st) (hi : Idle job st st') : WellFormed job st' := by
  cases hi with
  | start hs hu _ hd => exact h.start hs hu hd
  | refuse =>
    exact h.frame_same rfl rfl rfl rfl rfl (.refl _) (fun _ _ _ => id) (.of_eq rfl)
      (h.loops_eq rfl (fun _ => id))
  | finishReplay =>
    exact h.frame_same rfl rfl rfl rfl rfl finishReplay_inflight (fun _ _ _ => id) (.of_eq rfl)
      (h.loops_eq rfl (fun _ => id))
  | send ht _ =>
    exact h.frame_same rfl rfl rfl rfl rfl (send_inflight ht) (fun _ _ _ => id) (.of_eq rfl)
      (h.loops_eq rfl (fun _ => id))

theorem WellFormed.micro (hv : job.ir.Valid) (h : WellFormed job st) (hm : Micro job st st') :
    WellFormed job st' := by
  cases hm with
  | complete hp => exact h.complete hp
  | work hc hw =>
    cases hw with
    | quiet hq => exact h.quiet hv (List.mem_of_getLast? hc) hq
    | latch _ => exact h.latch
  | idle hi => exact h.idle hi

theorem WellFormed.loopKey_new (hv : job.ir.Valid) (h : WellFormed job st) {st₀ : Sched}
    (hp : Pops job st c st₀) : st.loops.get c.loopKey = none := by
  cases hls : st.loops.get c.loopKey with
  | none => rfl
  | some ls =>
    exfalso
    obtain ⟨c', hc', ho⟩ := (h.loops _ _ hls).opened
    have hin : c.flight ∈ st.inflight :=
      (pops_inflight hp).mem_iff.mpr List.mem_cons_self
    obtain ⟨s, hs, hsf⟩ := h.mem_starts (List.mem_append_left _ hin)
    have hnode : s.task.node = c.record.nodeId := congrArg Flight.node hsf
    have hknown : c.record.nodeId ∈ job.ir.nodes.map (·.id) := hnode ▸ h.knownStarts s hs
    have hcolon : ∀ n ∈ job.ir.nodes.map (·.id), ':' ∉ n.toList := by
      intro id hid
      obtain ⟨n, hn, rfl⟩ := List.mem_map.mp hid
      exact hv.colon_free n hn
    have hkey : c'.loopKey = c.loopKey := ho.key.trans (h.loops _ _ hls).lineage
    obtain ⟨-, hnode, hrun⟩ := loopLineage_inj (hcolon _ (h.of_completion hc').2.1)
      (hcolon _ hknown) hkey
    -- the same run twice among the starts
    have hnd : ((st.inflight ++ st.completions.map Completion.flight).map Flight.run).Nodup := by
      have := (h.history.map Flight.run).nodup_iff.mp (by rw [List.map_map]; exact h.runs)
      exact this
    rw [List.map_append] at hnd
    refine (List.nodup_append'.mp hnd).2.2 (List.mem_map_of_mem hin) ?_
    refine List.mem_map.mpr ⟨c'.flight, List.mem_map_of_mem hc', ?_⟩
    exact Prod.ext hnode hrun

end Preserve

section Sources

variable {job : Job} {c : Completion} {st st' : Sched}

inductive SignalFrom (job : Job) (st st' : Sched) (s : Signal) : Prop
  | old : s ∈ st.pending → SignalFrom job st st' s
  | iterated (key : LineageId) (ls : LoopState) (news : List Signal) :
      st.loops.get key = some ls → ls.hasNext = true → ls.hasCapacity = true →
      st' = (st.openIteration ls).addSignals news → s.node ∈ ls.routes.map (·.target) →
      s.origins = [(ls.nodeId, ls.runNumber)] →
      s.activation = { ls.iterationActivation with sequence := s.activation.sequence } →
      SignalFrom job st st' s
  | emitted (c : Completion) : st.completions.getLast? = some c → c.ok →
      ¬((job.ir.node c.record.nodeId).type = .loop ∧
        (job.ir.node c.record.nodeId).finish = none) →
      s.node ∈ (st.routesOf job c).map (·.target) → s.origins = [c.run] →
      s.activation = { c.activation with sequence := s.activation.sequence } →
      SignalFrom job st st' s
  | merged (first : Signal) : first ∈ st.pending → s.node = first.node →
      (∀ o ∈ first.origins, o ∈ s.origins) →
      s.activation = { first.activation with
        groupId := s.activation.groupId, sequence := s.activation.sequence } →
      SignalFrom job st st' s

theorem merge_pending {node : NodeId} {lineage : LineageId} {s : Signal}
    (hs : s ∈ (st.mergeLockedSignals node lineage).pending) : SignalFrom job st st' s := by
  unfold Sched.mergeLockedSignals at hs
  split at hs
  · exact .old hs
  · exact .old hs
  next first rest _ hsig =>
    rcases List.mem_append.mp hs with hs | hs
    · exact .old (List.mem_filter.mp hs).1
    · obtain rfl := List.mem_singleton.mp hs
      have hfirst : first ∈ (st.pendingOf node).filter (·.activation.lineageId = lineage) := by
        rw [hsig]
        exact List.mem_cons_self
      simp only [List.mem_filter, Sched.pendingOf, decide_eq_true_eq] at hfirst
      obtain ⟨⟨hm, hn⟩, hl⟩ := hfirst
      refine .merged first hm hn.symm (fun o ho => ?_) (by simp [hl])
      simp only [List.flatMap_cons, List.mem_append]
      exact .inl ho

theorem micro_pending (h : Micro job st st') {s : Signal} (hs : s ∈ st'.pending) :
    SignalFrom job st st' s := by
  cases h with
  | complete hp =>
    simp only [Sched.recordCompletion, (pops_frame hp).1] at hs
    exact .old hs
  | work hc hw =>
    cases hw with
    | latch _ => exact .old hs
    | quiet hq =>
      cases hq with
      | fail | defer | openLoop => exact .old hs
      | prune live key =>
        unfold Sched.prune at hs
        split at hs <;> exact .old hs
      | iterate hls hn hcap hem =>
        rcases List.mem_append.mp hs with hs | hs
        · exact .old hs
        · obtain ⟨h₁, h₂, h₃⟩ := hem.shape s hs
          exact .iterated _ _ _ hls hn hcap rfl h₁ h₂ h₃
      | close => exact .old (List.mem_filter.mp hs).1
      | emit hok ht hem =>
        rcases List.mem_append.mp hs with hs | hs
        · exact .old hs
        · obtain ⟨h₁, h₂, h₃⟩ := hem.shape s hs
          exact .emitted _ hc hok ht h₁ h₂ h₃
      | merge => exact merge_pending hs
  | idle hi =>
    cases hi with
    | start _ _ _ hd =>
      rw [(dispatched_frame hd).1] at hs
      exact .old (List.mem_filter.mp hs).1
    | refuse | finishReplay | send => exact .old hs

def StartsOne (job : Job) (st st' : Sched) (s : Signal) : Prop :=
  s ∈ st.pending ∧ st.isUnlocked job.ir s.node s.activation = true ∧
    st'.starts = st.starts ++ [⟨st.taskOf s, st.completions.length, s.origins⟩] ∧
    st'.inflight.Perm ((st.taskOf s).flight :: st.inflight)

theorem micro_starts (h : Micro job st st') :
    st'.starts = st.starts ∨ ∃ s, StartsOne job st st' s := by
  cases h with
  | complete hp => exact .inl (pops_frame hp).2.2.1
  | work _ hw =>
    cases hw with
    | latch _ => exact .inl rfl
    | quiet hq => exact .inl (quiet_starts hq)
  | idle hi =>
    cases hi with
    | @start _ s hs hu _ hd =>
      have hp := started_inflight hd
      exact .inr ⟨s, hs, hu, (dispatched_frame hd).2.2.1, hp⟩
    | refuse | finishReplay | send => exact .inl rfl

theorem idlePath_completions {st st' : Sched} (h : IdlePath job st st') :
    st'.completions = st.completions := by
  induction h with
  | refl => rfl
  | tail _ hi ih =>
    rw [← ih]
    cases hi with
    | start _ _ _ hd => exact (dispatched_frame hd).2.2.2.1
    | refuse | finishReplay | send => rfl

theorem quiet_inflight (h : Quiet job c st st') : st'.inflight = st.inflight := by
  cases h with
  | prune live key =>
    unfold Sched.prune
    split <;> rfl
  | merge =>
    unfold Sched.mergeLockedSignals
    split <;> rfl
  | _ => rfl

theorem micro_inflight (h : Micro job st st') {f : Flight} (hf : f ∈ st'.inflight) :
    f ∈ st.inflight ∨ ∃ s, StartsOne job st st' s ∧ f = (st.taskOf s).flight := by
  cases h with
  | complete hp => exact .inl ((pops_inflight hp).mem_iff.mpr (List.mem_cons_of_mem _ hf))
  | work _ hw =>
    cases hw with
    | latch _ => exact .inl hf
    | quiet hq => exact .inl (quiet_inflight hq ▸ hf)
  | idle hi =>
    cases hi with
    | @start _ s hs hu _ hd =>
      have hp := started_inflight hd
      rcases List.mem_cons.mp (hp.mem_iff.mp hf) with rfl | hf
      · exact .inr ⟨s, ⟨hs, hu, (dispatched_frame hd).2.2.1, hp⟩, rfl⟩
      · exact .inl hf
    | refuse => exact .inl hf
    | finishReplay => exact .inl (finishReplay_inflight.mem_iff.mp hf)
    | send ht _ => exact .inl ((send_inflight ht).mem_iff.mp hf)

theorem micro_last (h : Micro job st st') {c : Completion}
    (hc : st'.completions.getLast? = some c) :
    st.completions.getLast? = some c ∨ c.flight ∈ st.inflight := by
  cases h with
  | @complete st₀ c' hp =>
    have hl : (st₀.completions ++ [c']).getLast? = some c := hc
    obtain rfl : c' = c := by simpa using hl
    exact .inr ((pops_inflight hp).mem_iff.mpr List.mem_cons_self)
  | work _ hw => exact .inl (work_completions hw ▸ hc)
  | idle hi => exact .inl (idlePath_completions (.single hi) ▸ hc)

end Sources

section Initial

variable {job : Job}

def InitialSignal (ir : IR) (s : Signal) : Prop :=
  s.node ∈ ir.nodes.map (·.id) ∧ (ir.node s.node).initialActivation = true ∧
    s.activation.groupId = "initial:" ++ s.node ∧ s.activation.lineageId = rootLineage ∧
    s.activation.scopedOutputs = [] ∧ s.activation.loopLineages = [] ∧ s.origins = []

theorem enqueueInitial_spec (ir : IR) (st : Sched) :
    ∃ news, st.enqueueInitial ir = st.addSignals news ∧ (news.map Signal.key).Nodup ∧
      ∀ s ∈ news, InitialSignal ir s := by
  have hgen : ∀ (ids : List NodeId), (∀ id ∈ ids, id ∈ ir.nodes.map (·.id)) →
      ∀ old : List Signal, (old.map Signal.key).Nodup → (∀ s ∈ old, InitialSignal ir s) →
      ∃ news, ids.foldl (fun st id => if (ir.node id).initialActivation then
            st.enqueue id ("initial:" ++ id) rootLineage [] [] [] else st) (st.addSignals old) =
          st.addSignals news ∧ (news.map Signal.key).Nodup ∧ ∀ s ∈ news, InitialSignal ir s := by
    intro ids
    induction ids with
    | nil => exact fun _ old h₁ h₂ => ⟨old, rfl, h₁, h₂⟩
    | cons id ids ih =>
      intro hids old hold hsig
      simp only [List.foldl_cons]
      have hrest := ih (fun i hi => hids i (List.mem_cons_of_mem _ hi))
      split
      next hinit =>
        by_cases hq : (st.addSignals old).isQueued id ("initial:" ++ id) = true
        · simp only [Sched.enqueue, hq, ↓reduceIte]
          exact hrest old hold hsig
        · simp only [Bool.not_eq_true] at hq
          let s : Signal :=
            ⟨id, ⟨"initial:" ++ id, st.sequence + old.length + 1, rootLineage, [], []⟩, []⟩
          have heq : (st.addSignals old).enqueue id ("initial:" ++ id) rootLineage [] [] [] =
              st.addSignals (old ++ [s]) := by
            simp only [Sched.enqueue, hq, Bool.false_eq_true, ↓reduceIte]
            simp [Sched.addSignals, s, Nat.add_assoc]
          rw [heq]
          refine hrest (old ++ [s]) ?_ ?_
          · rw [List.map_append]
            refine List.nodup_append'.mpr ⟨hold, List.nodup_singleton _, fun k hk hk' => ?_⟩
            obtain rfl := List.mem_singleton.mp hk'
            obtain ⟨p, hp, he⟩ := List.mem_map.mp hk
            exact (Sched.isQueued_eq_false.mp hq).2 p (by simp [Sched.addSignals, hp])
              ⟨congrArg Prod.fst he, congrArg Prod.snd he⟩
          · intro p hp
            rcases List.mem_append.mp hp with hp | hp
            · exact hsig p hp
            · obtain rfl := List.mem_singleton.mp hp
              exact ⟨hids id List.mem_cons_self, hinit, rfl, rfl, rfl, rfl, rfl⟩
      · exact hrest old hold hsig
  have := hgen (Sched.sortedStrings (ir.nodes.map (·.id)))
    (fun id hid => by simpa [Sched.sortedStrings] using hid) [] (by simp) (by simp)
  simpa [Sched.enqueueInitial, Sched.addSignals] using this

theorem wellFormed_initial (hv : job.ir.Valid) :
    WellFormed job ((Sched.fresh job).enqueueInitial job.ir) := by
  obtain ⟨news, heq, hnd, hsig⟩ := enqueueInitial_spec job.ir (Sched.fresh job)
  rw [heq]
  exact {
    keys := by simpa [Sched.addSignals, Sched.fresh] using hnd
    running := .refl _
    history := .refl _
    runs := by simp [Sched.addSignals, Sched.fresh]
    counts := fun n => rfl
    numbered := by simp [Sched.addSignals, Sched.fresh]
    placedPending := by
      intro s hs
      obtain ⟨hknown, -, hgroup, hlineage, -, hloops, -⟩ := hsig s (by
        simpa [Sched.addSignals, Sched.fresh] using hs)
      obtain ⟨n, hn, he⟩ := List.mem_map.mp hknown
      refine .root hlineage ?_ hloops
      rw [hgroup, ← he]
      exact rootName_initial (hv.colon_free n hn)
    placedStarts := by simp [Sched.addSignals, Sched.fresh]
    knownPending := fun s hs => (hsig s (by simpa [Sched.addSignals, Sched.fresh] using hs)).1
    knownStarts := by simp [Sched.addSignals, Sched.fresh]
    loops := by simp [Sched.addSignals, Sched.fresh]
    unlocked := by
      intro s hs
      simp [Sched.addSignals, Sched.fresh] at hs }

def Sched.initial (job : Job) : Sched := (Sched.fresh job).enqueueInitial job.ir

theorem initial_eq (job : Job) : ∃ news, Sched.initial job = (Sched.fresh job).addSignals news := by
  obtain ⟨news, heq, -⟩ := enqueueInitial_spec job.ir (Sched.fresh job)
  exact ⟨news, heq⟩

theorem step_microPath (hv : job.ir.Valid) {m m' : Machine} (h : WellFormed job m.sched)
    (hs : Step job m m') : MicroPath job m.sched m'.sched :=
  step_micro (fun _ _ hi hm => hi.micro hv hm) (fun _ hi => hi.unlocked)
    (fun _ _ _ hi hp => hi.loopKey_new hv hp) h hs

theorem wellFormed_microPath (hv : job.ir.Valid) {st st' : Sched} (h : WellFormed job st)
    (hp : MicroPath job st st') : WellFormed job st' :=
  inv_of_microPath (fun _ _ hi hm => hi.micro hv hm) hp h

structure Records (job : Job) (m : Machine) (c : Completion) (m' : Machine) : Prop where
  step : Step job m m'
  completions : m'.sched.completions = m.sched.completions ++ [c]

theorem processed (hv : job.ir.Valid) {st st₀ st₁ : Sched} {c : Completion}
    (h : WellFormed job st) (hp : Pops job st c st₀) (hc : st₀.processCompletion job c = .ok st₁) :
    Processed job c (st₀.recordCompletion job c) st₁ :=
  processed_of_pops (fun _ _ hi hm => hi.micro hv hm) (fun _ hi => hi.unlocked)
    (fun _ _ _ hi hp => hi.loopKey_new hv hp) h hp hc

theorem workPath_completions {st st' : Sched} {c : Completion} (h : WorkPath job c st st') :
    st'.completions = st.completions := by
  induction h with
  | refl => rfl
  | tail _ hw ih => rw [work_completions hw, ih]

theorem processed_completions (hv : job.ir.Valid) {st st₀ st₁ : Sched} {c : Completion}
    (h : WellFormed job st) (hp : Pops job st c st₀) (hc : st₀.processCompletion job c = .ok st₁) :
    (st₁.resume job).completions = st.completions ++ [c] := by
  rw [idlePath_completions (resume_path st₁), workPath_completions (processed hv h hp hc).work]
  show st₀.completions ++ [c] = _
  rw [(pops_frame hp).2.2.2.1]

theorem step_records (hv : job.ir.Valid) {m m' : Machine} (h : WellFormed job m.sched)
    (hs : Step job m m') :
    (IdlePath job m.sched m'.sched ∧ m'.sched.completions = m.sched.completions) ∨
    ∃ c st₀ st₁, Records job m c m' ∧ Pops job m.sched c st₀ ∧
      st₀.processCompletion job c = .ok st₁ ∧ m'.sched = st₁.resume job := by
  rcases step_cases hs with hidle | ⟨c, st₀, st₁, hp, hc, he⟩
  · exact .inl ⟨hidle, idlePath_completions hidle⟩
  · refine .inr ⟨c, st₀, st₁, ⟨hs, ?_⟩, hp, hc, he⟩
    rw [he]
    exact processed_completions hv h hp hc

theorem Records.processed (hv : job.ir.Valid) {m m' : Machine} {c : Completion}
    (h : WellFormed job m.sched) (hr : Records job m c m') :
    ∃ st₀ st₁, Pops job m.sched c st₀ ∧ st₀.processCompletion job c = .ok st₁ ∧
      m'.sched = st₁.resume job := by
  rcases step_records hv h hr.step with ⟨-, he⟩ | ⟨c', st₀, st₁, hr', hp, hc, he⟩
  · have := hr.completions
    rw [he] at this
    simp at this
  · have := hr.completions.symm.trans hr'.completions
    obtain rfl : c = c' := by simpa using this
    exact ⟨st₀, st₁, hp, hc, he⟩

theorem steps_microPath (hv : job.ir.Valid) {m m' : Machine} (h : WellFormed job m.sched)
    (hs : ReflTransGen (Step job) m m') :
    MicroPath job m.sched m'.sched ∧ WellFormed job m'.sched := by
  induction hs with
  | refl => exact ⟨.refl, h⟩
  | tail _ hs ih =>
    have hp := step_microPath hv ih.2 hs
    exact ⟨ih.1.trans hp, wellFormed_microPath hv ih.2 hp⟩

inductive RunsWhile (job : Job) (cond : Sched → Completion → Prop) : Machine → Prop
  | boot : RunsWhile job cond (bootMachine job)
  | step {m m' : Machine} : RunsWhile job cond m → Step job m m' →
      (∀ c, Records job m c m' → cond m.sched c) → RunsWhile job cond m'

theorem RunsWhile.reach {cond : Sched → Completion → Prop} {m : Machine}
    (h : RunsWhile job cond m) : Reach job m := by
  induction h with
  | boot => exact .refl
  | step _ hs _ ih => exact ih.tail hs

def Machine.runScriptWhile (job : Job) (test : Machine → Bool) : List Choice → Machine → Option Machine
  | [], m => some m
  | c :: rest, m => if test m then (m.next job c).bind (Machine.runScriptWhile job test rest) else none

theorem runsWhile_of_script {P : Sched → Completion → Prop} {test : Machine → Bool}
    (htest : ∀ m c m', Reach job m → test m = true → Records job m c m' → P m.sched c)
    {script : List Choice} {m m' : Machine} (h : RunsWhile job P m)
    (hs : m.runScriptWhile job test script = some m') : RunsWhile job P m' := by
  induction script generalizing m with
  | nil =>
    obtain rfl := Option.some.inj hs
    exact h
  | cons choice rest ih =>
    simp only [Machine.runScriptWhile] at hs
    split at hs
    next ht =>
      obtain ⟨m₁, h₁, h₂⟩ := Option.bind_eq_some_iff.mp hs
      exact ih (h.step (Machine.step_of_next h₁) (fun c hr => htest m c m₁ h.reach ht hr)) h₂
    · simp at hs

/-- Every reachable machine is reached by micro steps, and is well formed. -/
theorem reach_microPath (hv : job.ir.Valid) {m : Machine} (h : Reach job m) :
    MicroPath job (Sched.initial job) m.sched ∧ WellFormed job m.sched := by
  have hboot : MicroPath job (Sched.initial job) (Sched.boot job) :=
    micro_of_idle (startRunnable_path _)
  have hrun := steps_microPath hv (m := bootMachine job)
    (wellFormed_microPath hv (wellFormed_initial hv) hboot) h
  exact ⟨hboot.trans hrun.1, hrun.2⟩

/-- An invariant of the micro steps from the initial state holds of every reachable machine. -/
theorem reach_invariant (hv : job.ir.Valid) {P : Sched → Prop}
    (hinit : P (Sched.initial job))
    (hstep : ∀ st st', WellFormed job st → P st → Micro job st st' → P st')
    {m : Machine} (h : Reach job m) : P m.sched := by
  have hboth := inv_of_microPath (P := fun st => WellFormed job st ∧ P st)
    (fun st st' hi hm => ⟨hi.1.micro hv hm, hstep st st' hi.1 hi.2 hm⟩)
    (reach_microPath hv h).1 ⟨wellFormed_initial hv, hinit⟩
  exact hboth.2

end Initial

end Raticode.Rattish
