import Raticode.RattishLatch

/-! The running groups and the queues behind them: the scheduler never waits for
a completion that cannot come. -/
namespace Raticode.Rattish
open OrderedDict Relation

variable {job : Job} {st st' : Sched}

section Start

theorem dispatched_counts {t : Task} (h : Dispatched job t st st') :
    st'.totalRuns = st.totalRuns ∧ st'.error = st.error := by
  cases h <;> exact ⟨rfl, rfl⟩

theorem length_filter_lt {α : Type*} {p : α → Bool} {l : List α} {x : α} (hx : x ∈ l)
    (hp : p x = false) : (l.filter p).length < l.length := by
  refine lt_of_le_of_ne (List.length_filter_le p l) (fun he => ?_)
  have := List.length_filter_eq_length_iff.mp he x hx
  simp [hp] at this

theorem startEach_counts (job : Job) (cands : List Signal) (st : Sched) :
    st.totalRuns ≤ (st.startEach job cands).totalRuns ∧
      (st.startEach job cands).pending.length + (st.startEach job cands).totalRuns ≤
        st.pending.length + st.totalRuns := by
  induction cands generalizing st with
  | nil => exact ⟨le_rfl, le_rfl⟩
  | cons s rest ih =>
    have hone : st.totalRuns ≤ (st.startOne job s).totalRuns ∧
        (st.startOne job s).pending.length + (st.startOne job s).totalRuns ≤
          st.pending.length + st.totalRuns := by
      by_cases hgone : ∀ p ∈ st.pending, ¬(p.node = s.node ∧
          p.activation.groupId = s.activation.groupId)
      · rw [startOne_of_gone hgone]
        exact ⟨le_rfl, le_rfl⟩
      · rcases startOne_cases job st s with ⟨heq, -⟩ | ⟨e, -, heq⟩ | ⟨-, hd⟩
        · rw [heq]
          exact ⟨le_rfl, le_rfl⟩
        · rw [heq]
          exact ⟨le_rfl, le_rfl⟩
        · push Not at hgone
          obtain ⟨p, hp, hn, hg⟩ := hgone
          have hlt : ((st.begun s).pending).length < st.pending.length :=
            length_filter_lt hp (by simp [hn, hg])
          rw [(dispatched_counts hd).1, (dispatched_pending hd).1]
          show st.totalRuns ≤ st.totalRuns + 1 ∧ _ + (st.totalRuns + 1) ≤ _
          omega
    simp only [Sched.startEach]
    split
    · exact hone
    · have := ih (st.startOne job s)
      omega

theorem startEach_progress {s : Signal} {rest : List Signal} (hs : s ∈ st.pending)
    (herr : (st.startEach job (s :: rest)).error = none) :
    st.totalRuns < (st.startEach job (s :: rest)).totalRuns := by
  have hone : (st.startOne job s).error = none → st.totalRuns < (st.startOne job s).totalRuns := by
    intro he
    rcases startOne_cases job st s with ⟨-, hgone⟩ | ⟨e, -, heq⟩ | ⟨-, hd⟩
    · exact absurd ⟨rfl, rfl⟩ (hgone s hs)
    · rw [heq] at he
      simp at he
    · rw [(dispatched_counts hd).1]
      exact Nat.lt_succ_self _
  simp only [Sched.startEach] at herr ⊢
  split at herr
  next he =>
    rw [Option.isSome_iff_ne_none] at he
    exact absurd herr he
  next he =>
    have he' : (st.startOne job s).error = none := by simpa using he
    simp only [he', Option.isSome_none, Bool.false_eq_true, ↓reduceIte]
    exact (hone he').trans_le (startEach_counts job rest _).1

theorem startPasses_done (job : Job) (fuel : ℕ) (st : Sched) (hf : st.pending.length < fuel) :
    (st.startPasses job fuel).error ≠ none ∨
      (st.startPasses job fuel).candidates job.ir = [] := by
  induction fuel generalizing st with
  | zero => omega
  | succ fuel ih =>
    simp only [Sched.startPasses]
    have hcount := startEach_counts job (st.candidates job.ir) st
    split
    next hg =>
      simp only [Bool.and_eq_true, decide_eq_true_eq] at hg
      exact ih _ (by omega)
    next hg =>
      by_cases herr : (st.startEach job (st.candidates job.ir)).error = none
      · right
        cases hc : st.candidates job.ir with
        | nil => simpa [Sched.startEach] using hc
        | cons s rest =>
          rw [hc] at herr hg
          have hs : s ∈ st.pending := (mem_candidates (hc ▸ List.mem_cons_self)).1
          simp [herr, startEach_progress hs herr] at hg
      · exact .inl herr

theorem running_of_no_candidates (hv : job.ir.Valid) (hc : st.candidates job.ir = [])
    (hr : st.hasRunnablePending job.ir = true) : st.running ≠ [] := by
  simp only [Sched.hasRunnablePending, List.any_eq_true] at hr
  obtain ⟨n, hn, s, hs, hu⟩ := hr
  have hnil : st.runnableOf job.ir n = [] := by
    have hflat : job.ir.nodes.flatMap (st.runnableOf job.ir) = [] := by
      have := congrArg List.length hc
      simp only [Sched.candidates, List.length_insertionSort, List.length_nil] at this
      exact List.eq_nil_of_length_eq_zero this
    exact List.flatMap_eq_nil_iff.mp hflat n hn
  rw [Sched.runnableOf, List.take_eq_nil_iff] at hnil
  rcases hnil with hcap | hnone
  · intro hempty
    have := hv.max_concurrency n hn
    simp [Sched.runningOf, hempty] at hcap
    omega
  · have hm : s ∈ (st.pendingOf n.id).filter (fun s => st.isUnlocked job.ir n.id s.activation) :=
      List.mem_filter.mpr ⟨hs, hu⟩
    simp [hnone] at hm

def Saturated (job : Job) (st : Sched) : Prop :=
  st.error = none → st.hasRunnablePending job.ir = true → st.running ≠ []

theorem startRunnable_saturated (hv : job.ir.Valid) (st : Sched) :
    Saturated job (st.startRunnable job) := by
  intro herr hr
  unfold Sched.startRunnable at herr hr ⊢
  split at herr
  next he =>
    rw [Option.isSome_iff_ne_none] at he
    exact absurd herr he
  next he =>
    rw [if_neg he] at hr ⊢
    rcases startPasses_done job (st.pending.length + 1) st (Nat.lt_succ_self _) with h | h
    · exact absurd herr h
    · exact running_of_no_candidates hv h hr

end Start

theorem held_only_replaying (hv : job.ir.Valid) {m : Machine} (h : Reach job m) :
    m.sched.replaying = false → m.sched.replayHeld = [] := by
  refine reach_invariant (P := fun st => st.replaying = false → st.replayHeld = []) hv ?_ ?_ h
  · obtain ⟨news, heq⟩ := initial_eq job
    rw [heq]
    exact fun _ => rfl
  · intro st st' _ hi hm
    cases hm with
    | complete hp => cases hp <;> exact hi
    | work _ hw =>
      cases hw with
      | latch _ => exact hi
      | quiet hq =>
        cases hq with
        | prune live key =>
          unfold Sched.prune
          split <;> exact hi
        | merge =>
          unfold Sched.mergeLockedSignals
          split <;> exact hi
        | _ => exact hi
    | idle hidle =>
      cases hidle with
      | start _ _ _ hd =>
        cases hd with
        | ready counts _ _ => exact hi
        | held counts hr =>
          intro hn
          exact absurd (hr.symm.trans hn) (by decide)
        | live counts _ => exact hi
      | refuse | send => exact hi
      | finishReplay => exact fun _ => rfl

/-- What the loop of `run` relies on between its awaits. -/
structure Waits (job : Job) (m : Machine) : Prop where
  saturated : m.phase = .head → Saturated job m.sched
  ready : m.phase = .awaiting → m.sched.replayReady = []
  held : m.phase = .awaiting → m.sched.replayHeld = []
  running : m.phase = .awaiting → m.sched.running ≠ []

theorem popEarliest_eq_none {l : List ReadyEntry} (h : Sched.popEarliest l = none) : l = [] := by
  cases l with
  | nil => rfl
  | cons e rest =>
    simp only [Sched.popEarliest] at h
    split at h
    · simp at h
    · split at h <;> simp at h

theorem Waits.head (h : Saturated job st) : Waits job ⟨.head, st⟩ :=
  ⟨fun _ => h, nofun, nofun, nofun⟩

theorem Waits.done : Waits job ⟨.done, st⟩ := ⟨nofun, nofun, nofun, nofun⟩

theorem resume_saturated (hv : job.ir.Valid) (st : Sched) : Saturated job (st.resume job) := by
  unfold Sched.resume
  split
  next he =>
    intro hn
    rw [hn] at he
    simp at he
  · exact startRunnable_saturated hv st

/-- The courses of a turn of `run`. -/
inductive Turn (job : Job) (st : Sched) : Machine → Prop
  | stop : st.error ≠ none ∨ (st.running = [] ∧ st.hasRunnablePending job.ir = false) →
      Turn job st ⟨.done, st⟩
  | replay {e : ReadyEntry} {others : List ReadyEntry} {s : Sched} : st.error = none →
      Sched.popEarliest st.replayReady = some (e, others) → st.replayNext job e others = .ok s →
      Turn job st ⟨.head, s.resume job⟩
  | wait : st.error = none → st.replayReady = [] → st.running ≠ [] →
      Turn job st ⟨.awaiting, if st.replaying then st.finishReplay else st⟩

theorem turn_course {m : Machine} (hsat : Saturated job st) (h : st.turn job = .ok m) :
    Turn job st m := by
  unfold Sched.turn at h
  split at h
  next hstop =>
    obtain rfl := Except.ok.inj h
    simp only [Bool.and_eq_true, List.isEmpty_iff, Bool.not_eq_true'] at hstop
    exact .stop (.inr hstop)
  next hgo =>
  split at h
  next herr =>
    obtain rfl := Except.ok.inj h
    exact .stop (.inl (Option.isSome_iff_ne_none.mp herr))
  next herr =>
  have herr' : st.error = none := by simpa using herr
  split at h
  next e others hready =>
    obtain ⟨s, hs, rfl⟩ := map_eq_ok.mp h
    exact .replay herr' hready hs
  next hready =>
    have hrun : st.running ≠ [] := by
      intro hempty
      simp only [hempty, List.isEmpty_nil, Bool.true_and, Bool.not_eq_true',
        Bool.not_eq_false] at hgo
      exact hsat herr' hgo hempty
    have hfield : (if st.replaying then st.finishReplay else st).running = st.running := by
      split <;> rfl
    simp only [hfield, List.isEmpty_iff, hrun, ↓reduceIte] at h
    obtain rfl := Except.ok.inj h
    exact .wait herr' (popEarliest_eq_none hready) hrun

theorem turn_waits (hv : job.ir.Valid) {m : Machine}
    (hheld : st.replaying = false → st.replayHeld = []) (h : Turn job st m) : Waits job m := by
  cases h with
  | stop => exact .done
  | @replay _ _ s => exact .head (resume_saturated hv s)
  | wait _ hready hrun =>
    refine ⟨nofun, fun _ => ?_, fun _ => ?_, fun _ => ?_⟩
    · split <;> exact hready
    · split
      · rfl
      next hr => exact hheld (by simpa using hr)
    · split <;> exact hrun

/-- What the loop of `run` relies on holds in every reachable machine. -/
theorem reach_waits (hv : job.ir.Valid) {m : Machine} (h : Reach job m) : Waits job m := by
  induction h with
  | refl => exact .head (startRunnable_saturated hv _)
  | tail hreach hs ih =>
    cases hs with
    | turn ht =>
      exact turn_waits hv (held_only_replaying hv hreach) (turn_course (ih.saturated rfl) ht)
    | finishTask _ _ _ => exact ⟨ih.saturated, ih.ready, ih.held, ih.running⟩
    | receive _ hr =>
      obtain ⟨s, -, rfl⟩ := map_eq_ok.mp hr
      split
      · exact .done
      · exact .head (startRunnable_saturated hv s)

/-- The running groups are exactly the keys of the saved results that are queued,
the held work, the live tasks and the completions in the channel, each once; and
`run` awaits only with the first two empty and one of the others not. -/
theorem running_accounted (hv : job.ir.Valid) {m : Machine} (h : Reach job m) :
    m.sched.running.Perm (m.sched.replayReady.map (fun e => (e.node, e.activation.groupId)) ++
        m.sched.replayHeld.map (fun t => (t.node, t.activation.groupId)) ++
        m.sched.tasks.map (fun t => (t.node, t.activation.groupId)) ++
        m.sched.channel.map (fun c => (c.record.nodeId, c.activation.groupId))) ∧
      m.sched.running.Nodup ∧
      (m.phase = .awaiting → m.sched.replayReady = [] ∧ m.sched.replayHeld = [] ∧
        (m.sched.tasks ≠ [] ∨ m.sched.channel ≠ [])) := by
  have hwf := (reach_microPath hv h).2
  have hperm := hwf.running
  simp only [Sched.inflight, List.map_append, List.map_map] at hperm
  refine ⟨hperm, hwf.keys.sublist (List.sublist_append_right _ _), fun hphase => ?_⟩
  have hw := reach_waits hv h
  refine ⟨hw.ready hphase, hw.held hphase, ?_⟩
  by_contra hnone
  push Not at hnone
  have hrun := hw.running hphase
  rw [hw.ready hphase, hw.held hphase, hnone.1, hnone.2] at hperm
  exact hrun (List.perm_nil.mp hperm)

/-- A resumed run that awaits: the saved result is used up, the held work is live. -/
theorem running_accounted_resumed : ∃ m, Reach Sample.resumed m ∧ m.phase = .awaiting ∧
    m.sched.completions.length = 1 ∧ m.sched.replayReady = [] ∧ m.sched.replayHeld = [] ∧
    (m.sched.tasks ≠ [] ∨ m.sched.channel ≠ []) := by
  obtain ⟨m, hm, hphase, hlen⟩ : ∃ m, Sample.after Sample.resumed [.turn, .turn] = some m ∧
      m.phase = .awaiting ∧ m.sched.completions.length = 1 := by
    refine ⟨_, (Option.some_get (by decide +kernel)).symm, ?_, ?_⟩ <;> decide +kernel
  have hreach := Sample.reach_after hm
  exact ⟨m, hreach, hphase, hlen, (running_accounted Sample.resumed_valid hreach).2.2 hphase⟩

end Raticode.Rattish
