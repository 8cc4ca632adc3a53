import Raticode.RattishOutcome

/-! Where a result comes from does not matter to the scheduler: the queues of live
and saved work can be erased, and every operation on the rest of the state is the
same. So a run is the story of its completions. -/
namespace Raticode.Rattish
open OrderedDict Relation

def NodeRunRecord.erase (r : NodeRunRecord) : NodeRunRecord := { r with reusedFrom := none }

def Completion.erase (c : Completion) : Completion := { c with record := c.record.erase }

def Job.bare (job : Job) : Job := { job with replay := [], replaySource := none }

def Sched.erase (st : Sched) : Sched :=
  { st with
    completions := st.completions.map Completion.erase
    replaying := false
    dirtyLineages := []
    replayStarts := fun _ => 0
    replayReady := []
    replayHeld := []
    reused := 0
    tasks := []
    channel := [] }

section Erase

variable {job : Job} {st st' : Sched} {c : Completion}

@[simp] theorem Sched.erase_erase (st : Sched) : st.erase.erase = st.erase := by
  simp only [Sched.erase, List.map_map]
  rfl

@[simp] theorem Completion.erase_erase (c : Completion) : c.erase.erase = c.erase := rfl

theorem enqueue_erase (node : NodeId) (group : GroupId) (lineage : LineageId)
    (outputs : Dict NodeId Value) (loops : Dict NodeId LineageId) (origins : List RunId) :
    (st.enqueue node group lineage outputs loops origins).erase =
      st.erase.enqueue node group lineage outputs loops origins := by
  unfold Sched.enqueue
  rw [show st.erase.isQueued node group = st.isQueued node group from rfl]
  split <;> rfl

theorem foldl_erase {α : Type} {f g : Sched → α → Sched}
    (h : ∀ st x, (f st x).erase = g st.erase x) (l : List α) (st : Sched) :
    (l.foldl f st).erase = l.foldl g st.erase := by
  induction l generalizing st with
  | nil => rfl
  | cons x l ih => rw [List.foldl_cons, List.foldl_cons, ih, h]

theorem openIteration_erase (ls : LoopState) :
    (st.openIteration ls).erase = st.erase.openIteration ls := by
  simp [Sched.openIteration, Sched.erase]

theorem enqueueIteration_erase (ls : LoopState) :
    (st.enqueueIteration ls).erase = st.erase.enqueueIteration ls :=
  foldl_erase (fun _ _ => enqueue_erase ..) _ _

theorem fill_erase (fuel : ℕ) (key : LineageId) (st : Sched) :
    (Sched.fill fuel key st).map Sched.erase = Sched.fill fuel key st.erase := by
  induction fuel generalizing st with
  | zero => rfl
  | succ fuel ih =>
    simp only [Sched.fill]
    rw [show st.erase.loops = st.loops from rfl]
    split
    · rfl
    · split
      · rw [ih, enqueueIteration_erase, openIteration_erase]
      · rfl

theorem fillLoopCapacity_erase (key : LineageId) (st : Sched) :
    (st.fillLoopCapacity key).map Sched.erase = st.erase.fillLoopCapacity key := by
  unfold Sched.fillLoopCapacity
  rw [show st.erase.loops = st.loops from rfl]
  split
  · rfl
  · exact fill_erase ..

theorem prune_erase (live : List GroupId) (key : LineageId) :
    (st.prune live key).erase = st.erase.prune live key := by
  unfold Sched.prune
  rw [show st.erase.loops = st.loops from rfl]
  split <;> rfl

theorem bind_map_erase {x : Except Fault Sched} {f g : Sched → Except Fault Sched}
    (h : ∀ st, (f st).map Sched.erase = g st.erase) :
    (x >>= f).map Sched.erase = x.map Sched.erase >>= g := by
  cases x with
  | error e => rfl
  | ok st => exact h st

theorem settle_erase (st : Sched) :
    st.settleLoopGroups.map Sched.erase = st.erase.settleLoopGroups := by
  have hfold : ∀ (keys : List LineageId) (live : List GroupId) (s : Sched),
      (keys.foldlM (fun (st : Sched) key => (st.prune live key).fillLoopCapacity key) s).map
          Sched.erase =
        keys.foldlM (fun (st : Sched) key => (st.prune live key).fillLoopCapacity key) s.erase := by
    intro keys live
    induction keys with
    | nil => exact fun _ => rfl
    | cons key keys ih =>
      intro s
      rw [List.foldlM_cons, List.foldlM_cons, bind_map_erase (g := fun s => keys.foldlM
        (fun (st : Sched) key => (st.prune live key).fillLoopCapacity key) s) ih,
        fillLoopCapacity_erase, prune_erase]
  exact hfold _ _ st

theorem openLoop_erase (st : Sched) (c : Completion) :
    (st.openLoop job c).map Sched.erase = st.erase.openLoop job.bare c.erase := by
  unfold Sched.openLoop
  rw [show st.erase.loopStateOf job.bare c.erase = st.loopStateOf job c from rfl]
  split
  · rfl
  · exact fillLoopCapacity_erase ..

theorem closeLoop_erase (a : Activation) (node : Node) :
    (st.closeLoop a node).erase = st.erase.closeLoop a node := by
  unfold Sched.closeLoop
  rw [show st.erase.loops = st.loops from rfl]
  simp only
  split
  · rfl
  · split
    · rfl
    · split <;> rfl

theorem mergeLockedSignals_erase (node : NodeId) (lineage : LineageId) :
    (st.mergeLockedSignals node lineage).erase = st.erase.mergeLockedSignals node lineage := by
  unfold Sched.mergeLockedSignals
  rw [show st.erase.pendingOf node = st.pendingOf node from rfl]
  split <;> rfl

theorem mergeUnlocked_erase (before : Sched) (lineage : LineageId) :
    (Sched.mergeUnlocked job.ir before lineage st).erase =
      Sched.mergeUnlocked job.ir before.erase lineage st.erase := by
  refine foldl_erase (fun s target => ?_) _ _
  rw [show before.erase.lineageIsUnlocked job.ir target lineage =
      before.lineageIsUnlocked job.ir target lineage from rfl,
    show s.erase.lineageIsUnlocked job.ir target lineage =
      s.lineageIsUnlocked job.ir target lineage from rfl]
  split
  · exact mergeLockedSignals_erase ..
  · rfl

theorem routeCompletion_erase (st : Sched) (c : Completion) :
    (st.routeCompletion job c).map Sched.erase = st.erase.routeCompletion job.bare c.erase := by
  unfold Sched.routeCompletion
  simp only
  rw [settle_erase, mergeUnlocked_erase]
  congr 2
  exact foldl_erase (fun _ _ => enqueue_erase ..) _ _

theorem deferLoopFailure_erase (a : Activation) (e : Option RuntimeErrorInfo) :
    (st.deferLoopFailure a e).map Sched.erase = st.erase.deferLoopFailure a e := by
  unfold Sched.deferLoopFailure
  rw [show st.erase.loops = st.loops from rfl]
  split <;> rfl

theorem recordCompletion_erase :
    (st.recordCompletion job c).erase = st.erase.recordCompletion job.bare c.erase := by
  simp [Sched.recordCompletion, Sched.erase, Job.bare, Completion.erase, NodeRunRecord.erase]

theorem processSuccess_erase (st : Sched) (c : Completion) :
    (st.processSuccess job c).map Sched.erase = st.erase.processSuccess job.bare c.erase := by
  unfold Sched.processSuccess
  rw [bind_map_erase (g := (Sched.endBranch job.bare · c.erase)) (fun s => ?_),
    bind_map_erase (g := (Sched.breakBranch job.bare · c.erase)) (fun s => ?_)]
  · congr 2
    unfold Sched.loopBranch
    rw [show (job.bare.ir.node c.erase.record.nodeId) = job.ir.node c.record.nodeId from rfl]
    split
    · rw [bind_map_erase settle_erase, openLoop_erase]
      rfl
    · rfl
  · unfold Sched.breakBranch
    rw [show (job.bare.ir.node c.erase.record.nodeId) = job.ir.node c.record.nodeId from rfl]
    split
    · rw [settle_erase, closeLoop_erase]
      rfl
    · rfl
  · unfold Sched.endBranch
    simp only
    rw [show (job.bare.ir.node c.erase.record.nodeId) = job.ir.node c.record.nodeId from rfl]
    split
    · rfl
    · split
      · rfl
      · exact routeCompletion_erase ..

theorem processCompletion_erase (st : Sched) (c : Completion) :
    (st.processCompletion job c).map Sched.erase = st.erase.processCompletion job.bare c.erase := by
  unfold Sched.processCompletion
  simp only
  rw [← recordCompletion_erase, show c.erase.record.result = c.record.result from rfl]
  split
  · rw [show c.erase.activation = c.activation from rfl, ← deferLoopFailure_erase]
    cases (st.recordCompletion job c).deferLoopFailure c.activation c.record.result.error with
    | none => rfl
    | some s => exact settle_erase s
  · exact processSuccess_erase ..

end Erase

section Starts

variable {job : Job} {st st' : Sched}

theorem dispatched_erase {t : Task} (h : Dispatched job t st st') : st'.erase = st.erase := by
  cases h <;> rfl

theorem startOne_erase (s : Signal) :
    (st.startOne job s).erase = (st.erase.startOne job.bare s).erase := by
  unfold Sched.startOne
  rw [show st.erase.pending = st.pending from rfl,
    show st.erase.budgetError? job.bare.ir s.node = st.budgetError? job.ir s.node from rfl]
  split
  · exact (Sched.erase_erase st).symm
  · split
    · exact (Sched.erase_erase _).symm
    · rw [dispatched_erase (dispatch_cases _), dispatched_erase (dispatch_cases _)]
      simp [Sched.erase, Sched.begin, Sched.taskOf]

def Same (st st' : Sched) : Prop := st.erase = st'.erase

theorem same_erase (st : Sched) : Same st st.erase := (Sched.erase_erase st).symm

theorem Same.field {α : Type} {f : Sched → α} (hf : ∀ st, f st.erase = f st) (h : Same st st') :
    f st = f st' := by
  rw [← hf st, ← hf st', show st.erase = st'.erase from h]

theorem Same.error (h : Same st st') : st.error = st'.error := h.field (fun _ => rfl)

theorem Same.startOne (h : Same st st') (s : Signal) :
    Same (st.startOne job s) (st'.startOne job.bare s) := by
  calc (st.startOne job s).erase = (st.erase.startOne job.bare s).erase := startOne_erase s
    _ = (st'.erase.startOne job.bare.bare s).erase := by
      rw [show st.erase = st'.erase from h]
      rfl
    _ = (st'.startOne job.bare s).erase := (@startOne_erase job.bare st' s).symm

theorem Same.startEach (h : Same st st') (cands : List Signal) :
    Same (st.startEach job cands) (st'.startEach job.bare cands) := by
  induction cands generalizing st st' with
  | nil => exact h
  | cons s rest ih =>
    have hs := @Same.startOne job st st' h s
    simp only [Sched.startEach, hs.error]
    split
    · exact hs
    · exact ih hs

theorem Same.candidates (h : Same st st') : st.candidates job.ir = st'.candidates job.bare.ir :=
  h.field (f := fun s => s.candidates job.ir) (fun _ => rfl)

theorem Same.startPasses (h : Same st st') (fuel : ℕ) :
    Same (st.startPasses job fuel) (st'.startPasses job.bare fuel) := by
  induction fuel generalizing st st' with
  | zero => exact h
  | succ fuel ih =>
    have he := @Same.startEach job st st' h (st.candidates job.ir)
    have htotal : st.totalRuns = st'.totalRuns := h.field (fun _ => rfl)
    have htotal' : (st.startEach job (st.candidates job.ir)).totalRuns =
      (st'.startEach job.bare (st.candidates job.ir)).totalRuns := he.field (fun _ => rfl)
    simp only [Sched.startPasses]
    rw [← @Same.candidates job st st' h, he.error, htotal, htotal']
    split
    · exact ih he
    · exact he

theorem Same.startRunnable (h : Same st st') :
    Same (st.startRunnable job) (st'.startRunnable job.bare) := by
  have hp : st.pending = st'.pending := h.field (fun _ => rfl)
  unfold Sched.startRunnable
  rw [h.error, hp]
  split
  · exact h
  · exact h.startPasses _

theorem Same.resume (h : Same st st') : Same (st.resume job) (st'.resume job.bare) := by
  unfold Sched.resume
  rw [h.error]
  split
  · exact h
  · exact h.startRunnable

end Starts

section Story

variable {job : Job} {st st' s s' : Sched} {c : Completion}

/-- A run told by its completions alone, in their order. -/
inductive Story (job : Job) : List Completion → Sched → Prop
  | boot : Story job [] (Sched.boot job).erase
  | complete {cs : List Completion} {s s₁ : Sched} {c : Completion} : Story job cs s →
      s.error = none → c.flight ∈ s.starts.map Start.flight →
      s.processCompletion job c = .ok s₁ → Story job (cs ++ [c]) (s₁.resume job).erase

theorem Story.last {cs : List Completion} (h : Story job (cs ++ [c]) s') :
    ∃ s s₁, Story job cs s ∧ s.error = none ∧ c.flight ∈ s.starts.map Start.flight ∧
      s.processCompletion job c = .ok s₁ ∧ s' = (s₁.resume job).erase := by
  generalize hcs : cs ++ [c] = cs' at h
  cases h with
  | boot => simp at hcs
  | @complete cs₀ s s₁ c₀ hs he hf hp =>
    obtain ⟨rfl, hc⟩ := List.append_inj' hcs rfl
    obtain rfl := List.singleton_inj.mp hc
    exact ⟨s, s₁, hs, he, hf, hp, rfl⟩

theorem Story.unique {cs : List Completion} (h : Story job cs s) (h' : Story job cs s') :
    s = s' := by
  induction h generalizing s' with
  | boot =>
    generalize hcs : ([] : List Completion) = cs' at h'
    cases h' with
    | boot => rfl
    | complete _ _ _ _ => simp at hcs
  | complete _ _ _ hp ih =>
    obtain ⟨s₀, s₁, hs, -, -, hp', rfl⟩ := h'.last
    rw [ih hs, hp'] at hp
    rw [Except.ok.inj hp]

theorem Story.processCompletion {cs : List Completion} (h : Story job.bare cs st.erase)
    (he : st.error = none) (hf : c.flight ∈ st.starts.map Start.flight)
    (hp : st.processCompletion job c = .ok st') :
    Story job.bare (cs ++ [c.erase]) (st'.resume job).erase := by
  have hp' : st.erase.processCompletion job.bare c.erase = .ok st'.erase := by
    rw [← processCompletion_erase, hp]
    rfl
  rw [show (st'.resume job).erase = _ from (same_erase st').resume]
  exact .complete h he hf hp'

theorem boot_same (job : Job) : Same (Sched.boot job) (Sched.boot job.bare) := by
  refine Same.startRunnable ?_
  have hinit : ∀ st : Sched, (st.enqueueInitial job.ir).erase = st.erase.enqueueInitial job.ir := by
    refine fun st => foldl_erase (fun s id => ?_) _ _
    split
    · exact enqueue_erase ..
    · rfl
  unfold Same
  rw [hinit, show job.bare.ir = job.ir from rfl, hinit]
  rfl

theorem step_same (hv : job.ir.Valid) {m m' : Machine} (hr : Reach job m) (h : Step job m m') :
    (Same m'.sched m.sched ∧ m'.sched.completions = m.sched.completions) ∨
      ∃ c st₀ st₁, m.sched.error = none ∧ Pops job m.sched c st₀ ∧
        st₀.processCompletion job c = .ok st₁ ∧ m'.sched = st₁.resume job := by
  cases h with
  | @turn st _ ht =>
    cases turn_course ((reach_waits hv hr).saturated rfl) ht with
    | stop => exact .inl ⟨rfl, rfl⟩
    | @replay e others s herr hready hs => exact .inr ⟨_, _, s, herr, .ready hready, hs, rfl⟩
    | wait =>
      refine .inl ?_
      dsimp only
      split <;> exact ⟨rfl, rfl⟩
  | finishTask => exact .inl ⟨rfl, rfl⟩
  | @receive st c rest _ hc hrec =>
    obtain ⟨s, hs, rfl⟩ := map_eq_ok.mp hrec
    refine .inr ⟨c, _, s, (reach_accounted hv hr).awaiting rfl, .channel hc, hs, ?_⟩
    unfold Sched.resume
    split <;> rfl

theorem boot_completions (job : Job) : (Sched.boot job).completions = [] := by
  obtain ⟨news, heq⟩ := initial_eq job
  have hstart : (Sched.boot job).completions = (Sched.initial job).completions :=
    idlePath_completions (startRunnable_path _)
  rw [hstart, heq]
  rfl

/-- Every reachable machine is what its own completions tell. -/
theorem reach_story (hv : job.ir.Valid) {m : Machine} (h : Reach job m) :
    Story job.bare (m.sched.completions.map Completion.erase) m.sched.erase := by
  induction h with
  | refl =>
    show Story job.bare ((Sched.boot job).completions.map Completion.erase) (Sched.boot job).erase
    rw [boot_completions, show (Sched.boot job).erase = _ from boot_same job]
    exact .boot
  | @tail m m' hreach hs ih =>
    have hwf := (reach_microPath hv hreach).2
    rcases step_same hv hreach hs with ⟨hsame, hc⟩ | ⟨c, st₀, st₁, he, hp, hproc, heq⟩
    · rw [hc, show m'.sched.erase = _ from hsame]
      exact ih
    · have hpop : st₀.erase = m.sched.erase ∧ st₀.error = m.sched.error ∧
          st₀.starts = m.sched.starts := by cases hp <;> exact ⟨rfl, rfl, rfl⟩
      obtain ⟨h₁, h₂, h₃⟩ := hpop
      have hmem : c.flight ∈ st₀.starts.map Start.flight := by
        rw [h₃]
        refine hwf.history.mem_iff.mpr (List.mem_append_left _ ?_)
        exact (pops_inflight hp).mem_iff.mpr List.mem_cons_self
      rw [heq, processed_completions hv hwf hp hproc, List.map_append]
      exact (h₁ ▸ ih : Story job.bare _ st₀.erase).processCompletion (h₂.trans he) hmem hproc

end Story

end Raticode.Rattish
