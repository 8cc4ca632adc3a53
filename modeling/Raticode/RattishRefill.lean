import Mathlib.Data.List.Basic
import Raticode.RattishNaming
import Raticode.RattishTransitions

/-! The end of `_fill_loop_capacity`: what its loop has left to do, and when it returns. -/
namespace Raticode.Rattish
open OrderedDict

namespace LoopState

def Spins (ls : LoopState) : Prop :=
  ls.infinite = true ∧ ls.routes = [] ∧ ls.closed = false ∧ ls.hasCapacity = true

open scoped Classical in
noncomputable def ahead (ls : LoopState) : List GroupId :=
  ls.activeGroups.filter fun g => ∃ i ≥ ls.nextIndex, g = iterationGroup ls.lineageId i

noncomputable def remaining (ls : LoopState) : ℕ :=
  if ls.infinite then (ls.maxConcurrency - ls.activeGroups.length).toNat + ls.ahead.length
  else ls.items.length - ls.nextIndex

theorem activeGroups_counted {ls : LoopState} (hroutes : ls.routes ≠ []) :
    ls.counted.activeGroups = ls.activeGroups.insert ls.nextGroup := by
  have hne : ls.routes.isEmpty = false := by simpa using hroutes
  simp only [counted, hne, Bool.false_eq_true, if_false]

open scoped Classical in
theorem ahead_counted {ls : LoopState} (hroutes : ls.routes ≠ []) :
    ls.counted.ahead = ls.ahead.filter (· ≠ ls.nextGroup) := by
  have hlater (g : GroupId) : (∃ i ≥ ls.nextIndex + 1, g = iterationGroup ls.lineageId i) ↔
      g ≠ ls.nextGroup ∧ ∃ i ≥ ls.nextIndex, g = iterationGroup ls.lineageId i := by
    constructor
    · intro h
      obtain ⟨i, hi, rfl⟩ := h
      have hne : i ≠ ls.nextIndex := by omega
      exact ⟨fun he => hne (iterationGroup_inj.mp he).2, i, by omega, rfl⟩
    · intro h
      obtain ⟨hne, i, hi, rfl⟩ := h
      have hindex : i ≠ ls.nextIndex := fun he => hne (by rw [nextGroup, he])
      exact ⟨i, by omega, rfl⟩
  have hfields : ls.counted.nextIndex = ls.nextIndex + 1 ∧ ls.counted.lineageId = ls.lineageId :=
    ⟨rfl, rfl⟩
  simp only [ahead, activeGroups_counted hroutes, hfields.1, hfields.2, hlater, List.filter_filter]
  by_cases hin : ls.nextGroup ∈ ls.activeGroups
  · rw [List.insert_of_mem hin]
    simp
  · rw [List.insert_of_not_mem hin, List.filter_cons_of_neg (by simp)]
    simp

theorem remaining_counted {ls : LoopState} (hspins : ¬ls.Spins) (hnext : ls.hasNext = true)
    (hcapacity : ls.hasCapacity = true) : ls.counted.remaining < ls.remaining := by
  have hopen : ls.closed = false ∧ (ls.infinite = true ∨ ls.nextIndex < ls.items.length) := by
    simpa [hasNext] using hnext
  have hsame : ls.counted.infinite = ls.infinite ∧ ls.counted.items = ls.items ∧
      ls.counted.nextIndex = ls.nextIndex + 1 ∧ ls.counted.maxConcurrency = ls.maxConcurrency :=
    ⟨rfl, rfl, rfl, rfl⟩
  simp only [remaining, hsame.1, hsame.2.1, hsame.2.2.1, hsame.2.2.2]
  cases hinfinite : ls.infinite with
  | false =>
    have hleft : ls.nextIndex < ls.items.length := by simpa [hinfinite] using hopen.2
    simp only [Bool.false_eq_true, if_false]
    omega
  | true =>
    have hroutes : ls.routes ≠ [] := fun he => hspins ⟨hinfinite, he, hopen.1, hcapacity⟩
    have hfree : (ls.activeGroups.length : ℤ) < ls.maxConcurrency := by
      simpa [hasCapacity] using hcapacity
    simp only [if_true, ahead_counted hroutes, activeGroups_counted hroutes]
    by_cases hin : ls.nextGroup ∈ ls.activeGroups
    · -- the group counts already, and is no longer ahead
      have hahead : ls.nextGroup ∈ ls.ahead := by
        simp only [ahead, List.mem_filter, decide_eq_true_eq]
        exact ⟨hin, ls.nextIndex, le_refl _, rfl⟩
      have hlt : (ls.ahead.filter (· ≠ ls.nextGroup)).length < ls.ahead.length :=
        List.length_filter_lt_length_iff_exists.mpr ⟨ls.nextGroup, hahead, by simp⟩
      rw [List.insert_of_mem hin]
      omega
    · -- one place less is free
      have hle : (ls.ahead.filter (· ≠ ls.nextGroup)).length ≤ ls.ahead.length :=
        List.length_filter_le ..
      rw [List.insert_of_not_mem hin, List.length_cons]
      omega

theorem spins_counted {ls : LoopState} (h : ls.Spins) : ls.counted.Spins := by
  have hactive : ls.counted.activeGroups = ls.activeGroups := by
    simp [counted, h.2.1]
  have hcapacity : ls.counted.hasCapacity = ls.hasCapacity := by
    simp only [hasCapacity, hactive]
    rfl
  exact ⟨h.1, h.2.1, h.2.2.1, hcapacity.trans h.2.2.2⟩

end LoopState

namespace Sched

theorem loops_iterated (st : Sched) (ls : LoopState) :
    ((st.openIteration ls).enqueueIteration ls).loops.get ls.lineageId = some ls.counted := by
  obtain ⟨news, heq, -⟩ := enqueue_foldl (fun r : Route => r.target) ls.iterationActivation
    [(ls.nodeId, ls.runNumber)] ls.routes (st.openIteration ls)
  have hiterated : (st.openIteration ls).enqueueIteration ls =
      (st.openIteration ls).addSignals news := heq
  rw [hiterated]
  exact Dict.get_set_self ..

theorem fill_succ {st : Sched} {ls : LoopState} (hget : st.loops.get ls.lineageId = some ls)
    (fuel : ℕ) : fill (fuel + 1) ls.lineageId st =
      if ls.hasNext && ls.hasCapacity then
        fill fuel ls.lineageId ((st.openIteration ls).enqueueIteration ls)
      else .ok st := by
  rw [fill, hget]

theorem fill_of_spins {st : Sched} {ls : LoopState} (hget : st.loops.get ls.lineageId = some ls)
    (h : ls.Spins) (fuel : ℕ) : fill fuel ls.lineageId st = .error .hang := by
  induction fuel generalizing st ls with
  | zero => rfl
  | succ fuel ih =>
    have hgo : (ls.hasNext && ls.hasCapacity) = true := by
      simp [LoopState.hasNext, h.1, h.2.2.1, h.2.2.2]
    have hcounted : ((st.openIteration ls).enqueueIteration ls).loops.get ls.counted.lineageId =
        some ls.counted := loops_iterated st ls
    have hrest := ih hcounted (LoopState.spins_counted h)
    rw [fill_succ hget, if_pos hgo]
    exact hrest

theorem fill_returns {st : Sched} {ls : LoopState} (hget : st.loops.get ls.lineageId = some ls)
    (h : ¬ls.Spins) : ∃ fuel st', fill fuel ls.lineageId st = .ok st' := by
  induction hn : ls.remaining using Nat.strong_induction_on generalizing st ls with
  | _ n ih =>
    cases hgo : ls.hasNext && ls.hasCapacity with
    | false => exact ⟨1, st, by rw [fill_succ hget, hgo]; rfl⟩
    | true =>
      have hboth : ls.hasNext = true ∧ ls.hasCapacity = true := by simpa using hgo
      have hless : ls.counted.remaining < n := hn ▸ LoopState.remaining_counted h hboth.1 hboth.2
      have hcounted : ¬ls.counted.Spins := by
        intro hs
        exact h ⟨hs.1, hs.2.1, hs.2.2.1, hboth.2⟩
      have hget' : ((st.openIteration ls).enqueueIteration ls).loops.get ls.counted.lineageId =
          some ls.counted := loops_iterated st ls
      obtain ⟨fuel, st', hfill⟩ := ih _ hless hget' hcounted rfl
      exact ⟨fuel + 1, st', by rw [fill_succ hget, if_pos hgo]; exact hfill⟩

theorem fill_returns_iff {st : Sched} {ls : LoopState}
    (hget : st.loops.get ls.lineageId = some ls) :
    (∃ fuel st', fill fuel ls.lineageId st = .ok st') ↔ ¬ls.Spins := by
  constructor
  · intro h hs
    obtain ⟨fuel, st', hfill⟩ := h
    rw [fill_of_spins hget hs] at hfill
    contradiction
  · exact fill_returns hget

end Sched

def LoopState.later (ls : LoopState) (nextIndex : ℕ) (closed : Bool) (active : List GroupId) :
    LoopState :=
  { ls with nextIndex := nextIndex, closed := closed, activeGroups := active }

/-- Every refill of a loop activation returns, when it is opened and in any later state, exactly
if its source is finite, a route of the loop matched, or its limit admits no iteration. -/
theorem refills_return_iff {job : Job} {st : Sched} {c : Completion} {ls : LoopState}
    (hopened : st.loopStateOf job c = some ls) :
    (∀ st' nextIndex closed active,
      st'.loops.get ls.lineageId = some (ls.later nextIndex closed active) →
        ∃ fuel st'', Sched.fill fuel ls.lineageId st' = .ok st'') ↔
      ls.infinite = false ∨ ls.routes ≠ [] ∨ ls.maxConcurrency ≤ 0 := by
  constructor
  · intro h
    -- the refill at the opening
    obtain ⟨hclosed, hactive⟩ : ls.closed = false ∧ ls.activeGroups = [] := by
      simp only [Sched.loopStateOf, bind, Option.bind_eq_some_iff, pure, Option.some.injEq] at hopened
      obtain ⟨_, -, _, -, _, -, rfl⟩ := hopened
      exact ⟨rfl, rfl⟩
    have hlater : ls.later ls.nextIndex ls.closed ls.activeGroups = ls := rfl
    have hget : ({ st with loops := st.loops.set ls.lineageId ls } : Sched).loops.get ls.lineageId =
        some (ls.later ls.nextIndex ls.closed ls.activeGroups) := by
      rw [hlater]
      exact Dict.get_set_self ..
    have hreturns := h _ _ _ _ hget
    have hspins : ¬ls.Spins := (Sched.fill_returns_iff hget).mp hreturns
    by_contra hnot
    simp only [not_or, Bool.not_eq_false, not_not, not_le] at hnot
    apply hspins
    refine ⟨hnot.1, hnot.2.1, hclosed, ?_⟩
    simpa [LoopState.hasCapacity, hactive] using hnot.2.2
  · intro h st' nextIndex closed active hget
    have hlater : st'.loops.get (ls.later nextIndex closed active).lineageId =
        some (ls.later nextIndex closed active) := hget
    apply (Sched.fill_returns_iff hlater).mpr
    intro hs
    have hcapacity : (active.length : ℤ) < ls.maxConcurrency := by
      exact of_decide_eq_true hs.2.2.2
    obtain hfinite | hroutes | hlimit := h
    · have hinfinite : ls.infinite = true := hs.1
      rw [hfinite] at hinfinite
      contradiction
    · exact hroutes hs.2.1
    · omega

section Example
open Sample

/-- A loop with the route `to: body when input.flag`. -/
def gated : Job where
  ir := { nodes := [{ node "repeat" .loop [] [] with
      routes := [⟨"body", .conditional (.reference ⟨.input, some "flag", none, [], false⟩),
        [.success, .allowedFailure]⟩] },
    node "body" (.other "shell") ["repeat"] []] }
  env := { env with workflowInputs := [("flag", .bool false)] }

theorem gated_valid : gated.ir.Valid := by
  constructor <;> decide +kernel

def infinite : Value :=
  .obj [("items", .arr []), ("infinite", .bool true), ("max_concurrency", .int 1),
    ("fail_fast", .bool false)]

def opening (job : Job) (st : Sched) (c : Completion) : Sched :=
  (st.recordCompletion job c).latch c.activation.lineageId c.record.nodeId

def nextLoop (m : Machine) : Option LoopState :=
  m.sched.channel.head?.bind fun c => (opening gated m.sched c).loopStateOf gated c

/-- The flag is off: no route matches, and the refill at the opening never returns. -/
theorem refill_spins_gated : gated.ir.Valid ∧ ∃ m c st ls, Reach gated m ∧
    m.sched.channel.head? = some c ∧ st = opening gated m.sched c ∧
    st.loopStateOf gated c = some ls ∧
    ∀ fuel, Sched.fill fuel ls.lineageId { st with loops := st.loops.set ls.lineageId ls } =
      .error .hang := by
  refine ⟨gated_valid, ?_⟩
  obtain ⟨m, ls, hm, hnext, hloop⟩ : ∃ m ls,
      after gated [.turn, .finish 0 .success infinite] = some m ∧ nextLoop m = some ls ∧
      ls.infinite = true ∧ ls.routes.isEmpty = true ∧ ls.closed = false ∧
      ls.hasCapacity = true := by
    refine ⟨_, _, (Option.some_get (by decide +kernel)).symm,
      (Option.some_get (by decide +kernel)).symm, ?_⟩
    decide +kernel
  obtain ⟨c, hc, hls⟩ := Option.bind_eq_some_iff.mp hnext
  have hspins : ls.Spins := by
    refine ⟨hloop.1, ?_, hloop.2.2.1, hloop.2.2.2⟩
    simpa using hloop.2.1
  exact ⟨m, c, _, ls, reach_after hm, hc, rfl, hls,
    fun fuel => Sched.fill_of_spins (Dict.get_set_self ..) hspins fuel⟩

def opened : Job := { gated with env := { env with workflowInputs := [("flag", .bool true)] } }

theorem refills_return_opened : ∃ m c ls, Reach opened m ∧ m.sched.channel.head? = some c ∧
    (opening opened m.sched c).loopStateOf opened c = some ls ∧
    ∀ st' nextIndex closed active,
      st'.loops.get ls.lineageId = some (ls.later nextIndex closed active) →
        ∃ fuel st'', Sched.fill fuel ls.lineageId st' = .ok st'' := by
  obtain ⟨m, ls, hm, hnext, hroutes⟩ : ∃ m ls,
      after opened [.turn, .finish 0 .success infinite] = some m ∧
      (m.sched.channel.head?.bind fun c =>
        (opening opened m.sched c).loopStateOf opened c) = some ls ∧
      ls.routes.isEmpty = false := by
    refine ⟨_, _, (Option.some_get (by decide +kernel)).symm,
      (Option.some_get (by decide +kernel)).symm, ?_⟩
    decide +kernel
  obtain ⟨c, hc, hls⟩ := Option.bind_eq_some_iff.mp hnext
  have hne : ls.routes ≠ [] := by simpa using hroutes
  exact ⟨m, c, ls, reach_after hm, hc, hls, (refills_return_iff hls).mpr (.inr (.inl hne))⟩

end Example

end Raticode.Rattish
