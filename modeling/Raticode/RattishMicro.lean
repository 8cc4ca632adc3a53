import Raticode.RattishTransitions

/-! A whole run as a sequence of elementary changes: starts, completions and what
processing them does, and the moves between the queues. -/
namespace Raticode.Rattish
open OrderedDict Relation

structure Flight where
  node : NodeId
  activation : Activation
  runNumber : ℕ

def Task.flight (t : Task) : Flight := ⟨t.node, t.activation, t.runNumber⟩

def ReadyEntry.flight (e : ReadyEntry) : Flight := ⟨e.node, e.activation, e.runNumber⟩

def Completion.flight (c : Completion) : Flight :=
  ⟨c.record.nodeId, c.activation, c.record.runNumber⟩

def Start.flight (s : Start) : Flight := s.task.flight

structure ReadyEntry.Saved (job : Job) (e : ReadyEntry) : Prop where
  source : job.replaySource.isSome
  reusable : e.prior.result.outcome.reusable = true
  key : e.prior.key = e.activation.key e.node
  position : job.replay[e.index]? = some e.prior

namespace Sched

def begun (st : Sched) (s : Signal) : Sched :=
  { st.begin s with starts := st.starts ++ [⟨st.taskOf s, st.completions.length, s.origins⟩] }

end Sched

inductive Dispatched (job : Job) (t : Task) (st : Sched) : Sched → Prop
  | ready {e : ReadyEntry} (counts : ReplayKey → ℕ) : e.flight = t.flight → e.Saved job →
      Dispatched job t st
        { st with replayStarts := counts, replayReady := st.replayReady ++ [e] }
  | held (counts : ReplayKey → ℕ) : st.replaying = true →
      Dispatched job t st { st with replayStarts := counts, replayHeld := st.replayHeld ++ [t] }
  | live (counts : ReplayKey → ℕ) : st.replaying = false →
      Dispatched job t st { st with replayStarts := counts, tasks := st.tasks ++ [t] }

inductive Pops (job : Job) (st : Sched) : Completion → Sched → Prop
  | ready {e : ReadyEntry} {others : List ReadyEntry} :
      Sched.popEarliest st.replayReady = some (e, others) →
      Pops job st (Sched.ReadyEntry.completion job e)
        { st with replayReady := others, reused := st.reused + 1 }
  | channel {c : Completion} {rest : List Completion} : st.channel = c :: rest →
      Pops job st c { st with channel := rest }

inductive Idle (job : Job) : Sched → Sched → Prop
  | start {st st' : Sched} {s : Signal} : s ∈ st.pending →
      st.isUnlocked job.ir s.node s.activation = true → st.budgetError? job.ir s.node = none →
      Dispatched job (st.taskOf s) (st.begun s) st' → Idle job st st'
  | refuse {st : Sched} {s : Signal} {e : RuntimeErrorInfo} : s ∈ st.pending →
      st.isUnlocked job.ir s.node s.activation = true → st.budgetError? job.ir s.node = some e →
      Idle job st { st with error := some e }
  | finishReplay {st : Sched} : Idle job st st.finishReplay
  | send {st : Sched} {i : ℕ} {t : Task} {result : NodeExecutionResult} :
      st.tasks[i]? = some t → allowedResult job.ir t.node result = true →
      Idle job st
        { st with tasks := st.tasks.eraseIdx i, channel := st.channel ++ [t.completion result] }

abbrev IdlePath (job : Job) := ReflTransGen (Idle job)

inductive Micro (job : Job) : Sched → Sched → Prop
  | complete {st st₀ : Sched} {c : Completion} : Pops job st c st₀ →
      Micro job st (st₀.recordCompletion job c)
  | work {st st' : Sched} {c : Completion} : st.completions.getLast? = some c →
      Work job c st st' → Micro job st st'
  | idle {st st' : Sched} : Idle job st st' → Micro job st st'

abbrev MicroPath (job : Job) := ReflTransGen (Micro job)

section Start

variable {job : Job} {st st' : Sched}

theorem mem_replayRecords {key : ReplayKey} {k index : ℕ} {prior : NodeRunRecord}
    (h : (job.replayRecords key)[k]? = some (index, prior)) :
    prior.key = key ∧ job.replay[index]? = some prior := by
  have hm := List.mem_of_getElem? h
  simp only [Job.replayRecords, List.mem_map, List.mem_filter, decide_eq_true_eq, Prod.mk.injEq]
    at hm
  obtain ⟨p, ⟨hp, hkey⟩, rfl, rfl⟩ := hm
  exact ⟨hkey, by simpa [List.mem_zipIdx_iff_getElem?] using hp⟩

theorem replayed_cases (job : Job) (st : Sched) (node : NodeId) (a : Activation) (run : ℕ) :
    (∃ counts, st.replayed job node a run = ({ st with replayStarts := counts }, false)) ∨
    ∃ counts e, e.flight = ⟨node, a, run⟩ ∧ e.Saved job ∧ st.replayed job node a run =
      ({ st with replayStarts := counts, replayReady := st.replayReady ++ [e] }, true) := by
  unfold Sched.replayed
  by_cases hsource : (job.replaySource.isNone || decide (job.reusable ≤ st.reused)) = true
  · rw [if_pos hsource]
    exact .inl ⟨st.replayStarts, rfl⟩
  rw [if_neg hsource]
  simp only
  split
  · exact .inl ⟨_, rfl⟩
  next index prior hprior =>
    split
    · exact .inl ⟨_, rfl⟩
    next hclean =>
      simp only [Bool.or_eq_true, not_or, Bool.not_eq_true, Option.isNone_eq_false_iff,
        Bool.not_eq_true', Bool.not_eq_false] at hsource hclean
      obtain ⟨hkey, hpos⟩ := mem_replayRecords hprior
      exact .inr ⟨_, ⟨index, node, a, run, prior⟩, rfl, ⟨hsource.1, hclean.2, hkey, hpos⟩, rfl⟩

theorem dispatch_cases (t : Task) : Dispatched job t st (st.dispatch job t) := by
  unfold Sched.dispatch
  rcases replayed_cases job st t.node t.activation t.runNumber with
    ⟨counts, h⟩ | ⟨counts, e, he, hs, h⟩
  · simp only [h, Bool.false_eq_true, ↓reduceIte]
    split
    next hr => exact .held counts hr
    next hr => exact .live counts (by simpa using hr)
  · simp only [h, ↓reduceIte]
    exact .ready counts he hs

theorem startOne_cases (job : Job) (st : Sched) (s : Signal) :
    (st.startOne job s = st ∧ ∀ p ∈ st.pending, ¬(p.node = s.node ∧
      p.activation.groupId = s.activation.groupId)) ∨
    (∃ e, st.budgetError? job.ir s.node = some e ∧
      st.startOne job s = { st with error := some e }) ∨
    (st.budgetError? job.ir s.node = none ∧
      Dispatched job (st.taskOf s) (st.begun s) (st.startOne job s)) := by
  unfold Sched.startOne
  split_ifs with hq
  · exact .inl ⟨rfl, by simpa using hq⟩
  · right
    cases hb : st.budgetError? job.ir s.node with
    | some e => exact .inl ⟨e, rfl, rfl⟩
    | none => exact .inr ⟨rfl, dispatch_cases _⟩

theorem startOne_of_gone {s : Signal} (h : ∀ p ∈ st.pending, ¬(p.node = s.node ∧
    p.activation.groupId = s.activation.groupId)) : st.startOne job s = st := by
  unfold Sched.startOne
  rw [if_pos (by simpa using h)]

theorem dispatched_pending {t : Task} (h : Dispatched job t st st') :
    st'.pending = st.pending ∧ st'.satisfied = st.satisfied ∧ st'.error = st.error := by
  cases h <;> exact ⟨rfl, rfl, rfl⟩

def Queued (st : Sched) (s : Signal) : Prop :=
  s ∈ st.pending ∨ ∀ p ∈ st.pending, ¬(p.node = s.node ∧
    p.activation.groupId = s.activation.groupId)

theorem startEach_path {cands : List Signal}
    (hq : ∀ s ∈ cands, Queued st s ∧ st.isUnlocked job.ir s.node s.activation = true) :
    IdlePath job st (st.startEach job cands) := by
  induction cands generalizing st with
  | nil => exact .refl
  | cons s rest ih =>
    obtain ⟨hqs, hunlocked⟩ := hq s List.mem_cons_self
    have hrest : ∀ p ∈ rest, Queued st p ∧ st.isUnlocked job.ir p.node p.activation = true :=
      fun p hp => hq p (List.mem_cons_of_mem _ hp)
    simp only [Sched.startEach]
    rcases startOne_cases job st s with ⟨heq, -⟩ | ⟨e, hb, heq⟩ | ⟨hb, hd⟩
    · rw [heq]
      split
      · exact .refl
      · exact ih hrest
    · rw [heq]
      simp only [Option.isSome_some, ↓reduceIte]
      rcases hqs with hmem | hgone
      · exact .single (.refuse hmem hunlocked hb)
      · rw [← heq, startOne_of_gone hgone]
    · rcases hqs with hmem | hgone
      · have hstart : Idle job st (st.startOne job s) := .start hmem hunlocked hb hd
        split
        · exact .single hstart
        · refine .head hstart (ih (fun p hp => ?_))
          obtain ⟨hpend, hsat, -⟩ := dispatched_pending hd
          obtain ⟨hqp, hup⟩ := hrest p hp
          refine ⟨?_, by simpa [Sched.isUnlocked, Sched.lineageIsUnlocked, hsat, Sched.begun,
            Sched.begin] using hup⟩
          unfold Queued
          rw [hpend]
          simp only [Sched.begun, Sched.begin, List.mem_filter, Bool.not_eq_true',
            Bool.and_eq_false_imp, decide_eq_true_eq, decide_eq_false_iff_not]
          rcases hqp with hqp | hqp
          · by_cases hkey : p.node = s.node ∧ p.activation.groupId = s.activation.groupId
            · right
              rintro p' ⟨-, hp'⟩ ⟨h₁, h₂⟩
              exact hp' (h₁.trans hkey.1) (h₂.trans hkey.2)
            · exact .inl ⟨hqp, fun h₁ h₂ => hkey ⟨h₁, h₂⟩⟩
          · exact .inr (fun p' hp' => hqp p' hp'.1)
      · rw [startOne_of_gone hgone]
        split
        · exact .refl
        · exact ih hrest

theorem mem_candidates {s : Signal} (h : s ∈ st.candidates job.ir) :
    s ∈ st.pending ∧ st.isUnlocked job.ir s.node s.activation = true ∧
      s.node ∈ job.ir.nodes.map (·.id) := by
  simp only [Sched.candidates, List.mem_insertionSort, List.mem_flatMap] at h
  obtain ⟨n, hn, hs⟩ := h
  have hs' := List.mem_of_mem_take hs
  simp only [Sched.pendingOf, List.mem_filter, decide_eq_true_eq] at hs'
  obtain ⟨⟨hp, hnode⟩, hu⟩ := hs'
  rw [← hnode] at hu
  exact ⟨hp, hu, hnode ▸ List.mem_map_of_mem hn⟩

theorem startPasses_path (fuel : ℕ) (st : Sched) :
    IdlePath job st (st.startPasses job fuel) := by
  induction fuel generalizing st with
  | zero => exact .refl
  | succ fuel ih =>
    have hpass : IdlePath job st (st.startEach job (st.candidates job.ir)) :=
      startEach_path (fun s hs => ⟨.inl (mem_candidates hs).1, (mem_candidates hs).2.1⟩)
    simp only [Sched.startPasses]
    split
    · exact hpass.trans (ih _)
    · exact hpass

theorem startRunnable_path (st : Sched) : IdlePath job st (st.startRunnable job) := by
  unfold Sched.startRunnable
  split
  · exact .refl
  · exact startPasses_path _ _

end Start

section Steps

variable {job : Job} {st : Sched}

theorem resume_path (st : Sched) : IdlePath job st (st.resume job) := by
  unfold Sched.resume
  split
  · exact .refl
  · exact startRunnable_path st

theorem map_eq_ok {ε α β : Type} {x : Except ε α} {f : α → β} {b : β} :
    x.map f = .ok b ↔ ∃ a, x = .ok a ∧ f a = b := by
  cases x with
  | error e => simp [Except.map]
  | ok a => simp [Except.map]

theorem turn_cases {m : Machine} (h : st.turn job = .ok m) :
    IdlePath job st m.sched ∨ ∃ c st₀ st₁, Pops job st c st₀ ∧
      st₀.processCompletion job c = .ok st₁ ∧ m.sched = st₁.resume job := by
  unfold Sched.turn at h
  split at h
  · obtain rfl := Except.ok.inj h
    exact .inl .refl
  split at h
  · obtain rfl := Except.ok.inj h
    exact .inl .refl
  split at h
  next e others he =>
    obtain ⟨s, hs, rfl⟩ := map_eq_ok.mp h
    exact .inr ⟨_, _, s, .ready he, hs, rfl⟩
  next =>
    have hfin : IdlePath job st (if st.replaying then st.finishReplay else st) := by
      split
      · exact .single .finishReplay
      · exact .refl
    generalize (if st.replaying then st.finishReplay else st) = st₁ at h hfin
    refine .inl (hfin.trans ?_)
    simp only at h
    split at h
    · split at h
      all_goals
        obtain rfl := Except.ok.inj h
        exact startRunnable_path st₁
    · obtain rfl := Except.ok.inj h
      exact .refl

theorem step_cases {m m' : Machine} (h : Step job m m') :
    IdlePath job m.sched m'.sched ∨ ∃ c st₀ st₁, Pops job m.sched c st₀ ∧
      st₀.processCompletion job c = .ok st₁ ∧ m'.sched = st₁.resume job := by
  cases h with
  | turn ht => exact turn_cases ht
  | finishTask _ ht hr => exact .inl (.single (.send ht hr))
  | @receive st c rest _ hc hr =>
    obtain ⟨s, hs, rfl⟩ := map_eq_ok.mp hr
    refine .inr ⟨c, _, s, .channel hc, hs, ?_⟩
    unfold Sched.resume
    split <;> rfl

theorem micro_of_idle {st st' : Sched} (h : IdlePath job st st') : MicroPath job st st' := by
  induction h with
  | refl => exact .refl
  | tail _ hi ih => exact ih.tail (.idle hi)

end Steps

section Run

variable {job : Job} {P : Sched → Prop}
  (hstep : ∀ s s', P s → Micro job s s' → P s')
  (hsu : ∀ s, P s → StartedUnlocked job s)
  (hnew : ∀ s c s₀, P s → Pops job s c s₀ → s.loops.get c.loopKey = none)

include hstep in
theorem inv_of_microPath {st st' : Sched} (h : MicroPath job st st') (hi : P st) : P st' := by
  induction h with
  | refl => exact hi
  | tail _ hm ih => exact hstep _ _ ih hm

theorem work_completions {c : Completion} {st st' : Sched} (h : Work job c st st') :
    st'.completions = st.completions := by
  cases h with
  | latch _ => rfl
  | quiet hq =>
    cases hq with
    | prune live key =>
      unfold Sched.prune
      split <;> rfl
    | merge =>
      unfold Sched.mergeLockedSignals
      split <;> rfl
    | _ => rfl

theorem micro_of_work {c : Completion} {st st' : Sched} (hc : st.completions.getLast? = some c)
    (h : WorkPath job c st st') :
    MicroPath job st st' ∧ st'.completions.getLast? = some c := by
  induction h with
  | refl => exact ⟨.refl, hc⟩
  | tail _ hw ih => exact ⟨ih.1.tail (.work ih.2 hw), by rw [work_completions hw]; exact ih.2⟩

theorem pops_loops {st st₀ : Sched} {c : Completion} (h : Pops job st c st₀) :
    st₀.loops = st.loops := by
  cases h <;> rfl

include hstep hsu hnew in
theorem processed_of_pops {st st₀ st' : Sched} {c : Completion} (hi : P st)
    (hp : Pops job st c st₀) (h : st₀.processCompletion job c = .ok st') :
    Processed job c (st₀.recordCompletion job c) st' := by
  refine processCompletion_cases (by rw [pops_loops hp]; exact hnew st c st₀ hi hp) ?_ h
  intro s hs
  have hrec : (st₀.recordCompletion job c).completions.getLast? = some c := by
    simp [Sched.recordCompletion]
  exact hsu s (inv_of_microPath hstep (micro_of_work hrec hs).1 (hstep _ _ hi (.complete hp)))

include hstep hsu hnew in
theorem processCompletion_micro {st st₀ st' : Sched} {c : Completion} (hi : P st)
    (hp : Pops job st c st₀) (h : st₀.processCompletion job c = .ok st') :
    MicroPath job st st' := by
  have hrec : (st₀.recordCompletion job c).completions.getLast? = some c := by
    simp [Sched.recordCompletion]
  exact .head (.complete hp)
    (micro_of_work hrec (processed_of_pops hstep hsu hnew hi hp h).work).1

include hstep hsu hnew in
theorem step_micro {m m' : Machine} (hi : P m.sched) (h : Step job m m') :
    MicroPath job m.sched m'.sched := by
  rcases step_cases h with hidle | ⟨c, st₀, st₁, hp, hc, he⟩
  · exact micro_of_idle hidle
  · rw [he]
    exact (processCompletion_micro hstep hsu hnew hi hp hc).trans (micro_of_idle (resume_path st₁))

end Run

end Raticode.Rattish
