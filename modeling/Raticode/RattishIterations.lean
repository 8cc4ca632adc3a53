import Raticode.RattishLimits
import Raticode.RattishOutcome
import Raticode.RattishRefill

/-! The iterations of a loop: in which order they are opened, the item each of them
carries, and that a run that passes has opened and finished them all. -/
namespace Raticode.Rattish
open OrderedDict Relation Components

def LoopState.itemAt (ls : LoopState) (i : ℕ) : Value := LoopState.item { ls with nextIndex := i }

namespace Sched

def Opened (st : Sched) (key : LineageId) (i : ℕ) : Prop :=
  st.satisfied (iterationGroup key i) ≠ []

def nextIndex (st : Sched) (key : LineageId) : ℕ :=
  ((st.loops.get key).map (·.nextIndex)).getD 0

end Sched

inductive Opens (job : Job) (key : LineageId) : Sched → List ℕ → Prop
  | initial : Opens job key (Sched.initial job) []
  | other {st st' : Sched} {opened : List ℕ} : Opens job key st opened → Micro job st st' →
      (∀ i, st'.Opened key i ↔ st.Opened key i) → Opens job key st' opened
  | opens {st st' : Sched} {opened : List ℕ} {i : ℕ} : Opens job key st opened →
      Micro job st st' → ¬st.Opened key i → (∀ j, st'.Opened key j ↔ st.Opened key j ∨ j = i) →
      Opens job key st' (opened ++ [i])

variable {job : Job} {c : Completion} {st st' : Sched} {key : LineageId}

section Order

def FirstOpened (st : Sched) : Prop := ∀ key i, st.Opened key i ↔ i < st.nextIndex key

theorem FirstOpened.of_eq (h : FirstOpened st) (hsat : st'.satisfied = st.satisfied)
    (hloops : st'.loops = st.loops) : FirstOpened st' := by
  intro key i
  simp only [Sched.Opened, Sched.nextIndex, hsat, hloops]
  exact h key i

theorem nextIndex_set {k : LineageId} {ls : LoopState} (hloops : st'.loops = st.loops.set k ls) :
    st'.nextIndex key = if key = k then ls.nextIndex else st.nextIndex key := by
  by_cases hk : key = k
  · subst hk
    rw [if_pos rfl, Sched.nextIndex, hloops, Dict.get_set_self]
    rfl
  · rw [if_neg hk, Sched.nextIndex, hloops, Dict.get_set_ne _ _ (fun he => hk he.symm)]
    rfl

theorem FirstOpened.set (h : FirstOpened st) (hsat : st'.satisfied = st.satisfied) {k : LineageId}
    {ls : LoopState} (hloops : st'.loops = st.loops.set k ls) (hindex : ls.nextIndex = st.nextIndex k) :
    FirstOpened st' := by
  intro key i
  have hsame : st'.nextIndex key = st.nextIndex key := by
    rw [nextIndex_set hloops]
    split_ifs with hk
    · rw [hindex, hk]
    · rfl
  rw [hsame, ← h key i]
  simp only [Sched.Opened, hsat]

theorem nextIndex_get {ls : LoopState} (hls : st.loops.get key = some ls) :
    st.nextIndex key = ls.nextIndex := by
  simp only [Sched.nextIndex, hls, Option.map_some, Option.getD_some]

theorem FirstOpened.latch (hwf : WellFormed job st) (h : FirstOpened st) (hc : c ∈ st.completions) :
    FirstOpened (st.latchCompleted c) := by
  intro key i
  have hindex : (st.latchCompleted c).nextIndex key = st.nextIndex key := rfl
  rw [hindex, ← h key i]
  simp only [Sched.Opened, Sched.latchCompleted, Sched.latch, update]
  split_ifs with hlineage
  · -- the lineage of a completion is open
    have hopened : st.Opened key i := by
      obtain ⟨hplaced, -⟩ := hwf.of_completion hc
      cases hplaced with
      | root hroot _ _ =>
        rw [hroot] at hlineage
        exact absurd (hlineage ▸ rootName_rootLineage) (not_rootName_iterationGroup _ _)
      | iteration ls j hls hj hgroup hl _ =>
        rw [hl, hgroup] at hlineage
        obtain ⟨hkey, hij⟩ := iterationGroup_inj.mp hlineage
        rw [h key i, hkey, hij, nextIndex_get hls]
        exact hj
    refine iff_of_true ?_ hopened
    exact List.ne_nil_of_mem (List.mem_insert_self ..)
  · rfl

theorem FirstOpened.iterate (h : FirstOpened st) {ls : LoopState} {news : List Signal}
    (hls : st.loops.get ls.lineageId = some ls) :
    FirstOpened ((st.openIteration ls).addSignals news) := by
  intro key i
  have hloops : ((st.openIteration ls).addSignals news).loops =
      st.loops.set ls.lineageId ls.counted := rfl
  rw [nextIndex_set hloops]
  have hbefore := h key i
  simp only [Sched.Opened, Sched.addSignals, Sched.openIteration, update] at hbefore ⊢
  split_ifs with hgroup hkey hkey
  · obtain ⟨-, hi⟩ := iterationGroup_inj.mp hgroup
    have hcounted : ls.counted.nextIndex = ls.nextIndex + 1 := rfl
    refine iff_of_true (List.ne_nil_of_mem (List.mem_insert_self ..)) ?_
    omega
  · exact absurd (iterationGroup_inj.mp hgroup).1 hkey
  · have hi : i ≠ ls.nextIndex := by
      intro he
      exact hgroup (by rw [he, hkey, LoopState.nextGroup])
    have hcounted : ls.counted.nextIndex = ls.nextIndex + 1 := rfl
    rw [hbefore, hkey, nextIndex_get hls, hcounted]
    omega
  · exact hbefore

theorem FirstOpened.micro (hwf : WellFormed job st) (h : FirstOpened st) (hm : Micro job st st') :
    FirstOpened st' := by
  cases hm with
  | complete hp =>
    obtain ⟨-, -, -, -, -, hsat, hloops⟩ := pops_frame hp
    exact h.of_eq hsat hloops
  | work hc hw =>
    cases hw with
    | latch hok => exact h.latch hwf (List.mem_of_getLast? hc)
    | quiet hq =>
      cases hq with
      | fail | defer | emit => exact h.of_eq rfl rfl
      | @openLoop ls hok ht hls hnew =>
        refine h.set rfl rfl ?_
        rw [Sched.nextIndex, hnew]
        exact (loopStateOf_eq_some hls).2.2.2.2.2.2.2.1
      | prune live k =>
        unfold Sched.prune
        split
        · exact h
        next ls hls => exact h.set rfl rfl (nextIndex_get hls).symm
      | @iterate k ls _ hls _ _ _ =>
        obtain rfl := hwf.lineage hls
        exact h.iterate hls
      | close _ _ _ _ hls _ => exact h.set rfl rfl (nextIndex_get hls).symm
      | merge =>
        unfold Sched.mergeLockedSignals
        split <;> exact h.of_eq rfl rfl
  | idle hi =>
    cases hi with
    | start _ _ _ hd =>
      obtain ⟨-, -, -, -, -, hsat, hloops⟩ := dispatched_frame hd
      exact h.of_eq hsat hloops
    | refuse | finishReplay | send => exact h.of_eq rfl rfl

theorem firstOpened_initial : FirstOpened (Sched.initial job) := by
  obtain ⟨news, heq⟩ := initial_eq job
  intro key i
  rw [heq]
  simp [Sched.Opened, Sched.nextIndex, Sched.addSignals, Sched.fresh]

theorem micro_nextIndex (hwf : WellFormed job st) (hm : Micro job st st') :
    st'.nextIndex key = st.nextIndex key ∨ st'.nextIndex key = st.nextIndex key + 1 := by
  cases micro_loops (fun _ _ => hwf.lineage) hm with
  | same hloops =>
    left
    simp only [Sched.nextIndex, hloops]
  | opened c ls _ _ _ hls hnew hloops =>
    left
    rw [nextIndex_set hloops]
    split_ifs with hk
    · rw [hk, Sched.nextIndex, hnew]
      exact (loopStateOf_eq_some hls).2.2.2.2.2.2.2.1
    · rfl
  | advanced k ls ls' hls hloops _ hindex =>
    rw [nextIndex_set hloops]
    split_ifs with hk
    · rw [hk, nextIndex_get hls]
      exact hindex.imp id (fun h => h.2.2)
    · exact .inl rfl

theorem Opens.range (hv : job.ir.Valid) {opened : List ℕ} (h : Opens job key st opened) :
    (WellFormed job st ∧ FirstOpened st) ∧ opened = List.range (st.nextIndex key) := by
  induction h with
  | initial =>
    have hfirst : FirstOpened (Sched.initial job) := firstOpened_initial
    refine ⟨⟨wellFormed_initial hv, hfirst⟩, ?_⟩
    have hzero : (Sched.initial job).nextIndex key = 0 := by
      obtain ⟨news, heq⟩ := initial_eq job
      rw [heq]
      rfl
    rw [hzero, List.range_zero]
  | @other st st' opened _ hm hsame ih =>
    obtain ⟨⟨hwf, hfirst⟩, hopened⟩ := ih
    have hfirst' := hfirst.micro hwf hm
    refine ⟨⟨hwf.micro hv hm, hfirst'⟩, ?_⟩
    have hindex : ∀ i, i < st'.nextIndex key ↔ i < st.nextIndex key := by
      intro i
      rw [← hfirst' key i, ← hfirst key i]
      exact hsame i
    have heq : st'.nextIndex key = st.nextIndex key := by
      have h₁ := hindex (st.nextIndex key)
      have h₂ := hindex (st'.nextIndex key)
      omega
    rw [heq, hopened]
  | @opens st st' opened i _ hm hnew hnow ih =>
    obtain ⟨⟨hwf, hfirst⟩, hopened⟩ := ih
    have hfirst' := hfirst.micro hwf hm
    refine ⟨⟨hwf.micro hv hm, hfirst'⟩, ?_⟩
    have hle : st.nextIndex key ≤ i := by
      rw [hfirst key i] at hnew
      omega
    have hindex : ∀ j, j < st'.nextIndex key ↔ j < st.nextIndex key ∨ j = i := by
      intro j
      rw [← hfirst' key j, ← hfirst key j]
      exact hnow j
    have hstep : st'.nextIndex key = st.nextIndex key ∨
        st'.nextIndex key = st.nextIndex key + 1 := micro_nextIndex hwf hm
    have hi := hindex i
    have hnext : i = st.nextIndex key ∧ st'.nextIndex key = st.nextIndex key + 1 := by omega
    rw [hopened, hnext.2, List.range_succ, hnext.1]

theorem exists_opens (hv : job.ir.Valid) (h : MicroPath job (Sched.initial job) st) :
    ∃ opened, Opens job key st opened := by
  induction h with
  | refl => exact ⟨[], .initial⟩
  | @tail st st' _ hm ih =>
    obtain ⟨opened, hopens⟩ := ih
    obtain ⟨⟨hwf, hfirst⟩, -⟩ := hopens.range hv
    have hfirst' := hfirst.micro hwf hm
    have hstep : st'.nextIndex key = st.nextIndex key ∨
        st'.nextIndex key = st.nextIndex key + 1 := micro_nextIndex hwf hm
    rcases hstep with heq | heq
    · refine ⟨opened, hopens.other hm (fun i => ?_)⟩
      rw [hfirst' key i, hfirst key i, heq]
    · refine ⟨opened ++ [st.nextIndex key], hopens.opens hm ?_ (fun j => ?_)⟩
      · rw [hfirst key]
        exact lt_irrefl _
      · rw [hfirst' key j, hfirst key j, heq]
        omega

end Order

section Items

def Activation.Carries (a : Activation) (st : Sched) : Prop :=
  ∀ ls i, st.loops.get ls.lineageId = some ls → a.lineageId = iterationGroup ls.lineageId i →
    a.scopedOutputs.get ls.nodeId = some (ls.itemAt i)

/-- Whatever runs inside an iteration carries the item of that iteration. -/
structure Carried (st : Sched) : Prop where
  pending : ∀ s ∈ st.pending, s.activation.Carries st
  starts : ∀ s ∈ st.starts, s.task.activation.Carries st

theorem Activation.Carries.congr {a b : Activation} (h : a.Carries st)
    (hlineage : b.lineageId = a.lineageId) (hscope : b.scopedOutputs = a.scopedOutputs) :
    b.Carries st := by
  intro ls i hls hl
  rw [hscope]
  exact h ls i hls (hlineage ▸ hl)

theorem itemAt_advances {ls ls' : LoopState} (h : ls.Advances ls') (i : ℕ) :
    ls'.itemAt i = ls.itemAt i := by
  obtain ⟨-, -, -, -, -, -, -, hitems, hinfinite⟩ := h.fixed
  simp only [LoopState.itemAt, LoopState.item, hitems, hinfinite]

theorem Activation.Carries.later {a : Activation} (hwf : WellFormed job st) (h : a.Carries st)
    (hplaced : Placed st a) (hm : Micro job st st') : a.Carries st' := by
  intro ls i hls hl
  cases micro_loops (fun _ _ => hwf.lineage) hm with
  | same hloops => exact h ls i (hloops ▸ hls) hl
  | opened c new _ _ _ _ hnew hloops =>
    rw [hloops, Dict.get_set] at hls
    split_ifs at hls with hkey
    · -- no activation lies in an iteration of a loop that was not there
      cases hplaced with
      | root hroot _ _ =>
        rw [hroot] at hl
        exact absurd (hl ▸ rootName_rootLineage) (not_rootName_iterationGroup _ _)
      | iteration old j hold _ hgroup hlineage _ =>
        rw [hlineage, hgroup] at hl
        rw [(iterationGroup_inj.mp hl).1, ← hkey, hnew] at hold
        contradiction
    · exact h ls i hls hl
  | advanced k old new hold hloops hadvances _ =>
    rw [hloops, Dict.get_set] at hls
    split_ifs at hls with hkey
    · obtain rfl := Option.some.inj hls
      obtain ⟨hnode, -, hlineage, -⟩ := hadvances.fixed
      rw [itemAt_advances hadvances, hnode]
      rw [hlineage] at hl
      refine h old i ?_ hl
      rw [hwf.lineage hold]
      exact hold
    · exact h ls i hls hl

theorem Carried.micro (hwf : WellFormed job st) (h : Carried st) (hm : Micro job st st') :
    Carried st' where
  pending := by
    intro s hs
    cases micro_pending hm hs with
    | old hold => exact (h.pending s hold).later hwf (hwf.placedPending s hold) hm
    | iterated k ls news hls _ _ hst _ _ hact =>
      intro ls' i hls' hl
      obtain rfl := hwf.lineage hls
      rw [hact] at hl ⊢
      obtain ⟨hkey, hi⟩ := iterationGroup_inj.mp hl
      have hcounted : st'.loops.get ls.lineageId = some ls.counted := by
        rw [hst]
        exact Dict.get_set_self ..
      rw [← hkey, hcounted] at hls'
      obtain rfl := Option.some.inj hls'
      rw [← hi]
      exact Dict.get_set_self ..
    | emitted c hc _ _ _ _ hact =>
      obtain ⟨start, hstart, -, hsame⟩ := hwf.start_of_completion (List.mem_of_getLast? hc)
      have hcarries := (h.starts start hstart).later hwf (hwf.placedStarts start hstart) hm
      rw [hact]
      exact hcarries.congr (by rw [hsame]) (by rw [hsame])
    | merged first hfirst _ _ hact =>
      rw [hact]
      exact ((h.pending first hfirst).later hwf (hwf.placedPending first hfirst) hm).congr rfl rfl
  starts := by
    intro s hs
    rcases micro_starts hm with hsame | ⟨signal, hpending, -, hstarts, -⟩
    · rw [hsame] at hs
      exact (h.starts s hs).later hwf (hwf.placedStarts s hs) hm
    · rw [hstarts] at hs
      rcases List.mem_append.mp hs with hold | hnew
      · exact (h.starts s hold).later hwf (hwf.placedStarts s hold) hm
      · obtain rfl := List.mem_singleton.mp hnew
        exact (h.pending signal hpending).later hwf (hwf.placedPending signal hpending) hm

theorem reach_carried (hv : job.ir.Valid) {m : Machine} (h : Reach job m) : Carried m.sched := by
  refine reach_invariant hv ?_ (fun _ _ hwf hi hm => hi.micro hwf hm) h
  obtain ⟨news, heq⟩ := initial_eq job
  have hloops : (Sched.initial job).loops = [] := by
    rw [heq]
    rfl
  constructor
  · intro s _ ls i hls
    rw [hloops] at hls
    contradiction
  · intro s _ ls i hls
    rw [hloops] at hls
    contradiction

theorem reach_nextIndex_le (hv : job.ir.Valid) {m : Machine} (h : Reach job m) :
    ∀ key ls, m.sched.loops.get key = some ls → ls.infinite = false →
      ls.nextIndex ≤ ls.items.length := by
  refine reach_invariant (P := fun st => ∀ key ls, st.loops.get key = some ls →
    ls.infinite = false → ls.nextIndex ≤ ls.items.length) hv ?_ ?_ h
  · obtain ⟨news, heq⟩ := initial_eq job
    intro key ls hls
    rw [heq] at hls
    contradiction
  · intro st st' hwf hi hm key ls hls hfinite
    cases micro_loops (fun _ _ => hwf.lineage) hm with
    | same hloops => exact hi key ls (hloops ▸ hls) hfinite
    | opened c new _ _ _ hnew _ hloops =>
      rw [hloops, Dict.get_set] at hls
      split_ifs at hls with hkey
      · obtain rfl := Option.some.inj hls
        have hzero := (loopStateOf_eq_some hnew).2.2.2.2.2.2.2.1
        omega
      · exact hi key ls hls hfinite
    | advanced k old new hold hloops hadvances hindex =>
      rw [hloops, Dict.get_set] at hls
      split_ifs at hls with hkey
      · obtain rfl := Option.some.inj hls
        obtain ⟨-, -, -, -, -, -, -, hitems, hinfinite⟩ := hadvances.fixed
        have hfinite' : old.infinite = false := hinfinite ▸ hfinite
        have hbefore := hi k old hold hfinite'
        rw [hitems]
        rcases hindex with heq | ⟨hnext, -, heq⟩
        · omega
        · have hless : old.nextIndex < old.items.length := by
            simp only [LoopState.hasNext, hfinite', Bool.false_or, Bool.and_eq_true,
              decide_eq_true_eq] at hnext
            exact hnext.2
          omega
      · exact hi key ls hls hfinite

end Items

section Feeding

/-- While a loop may still open iterations, some group is live. -/
def Fed (st : Sched) (key : LineageId) : Prop :=
  ∀ ls, st.loops.get key = some ls → ls.canOpen → st.liveGroups ≠ []

def Engaged (st : Sched) (key : LineageId) : Prop :=
  ∀ ls, st.loops.get key = some ls → ls.activeGroups ≠ [] → st.liveGroups ≠ []

def Named (st : Sched) : Prop := ∀ key ls, st.loops.get key = some ls → ls.lineageId = key

theorem Named.of_eq (h : Named st) (hloops : st'.loops = st.loops) : Named st' := by
  intro key ls hls
  exact h key ls (hloops ▸ hls)

theorem Named.set (h : Named st) {k : LineageId} {ls : LoopState} (hname : ls.lineageId = k)
    (hloops : st'.loops = st.loops.set k ls) : Named st' := by
  intro key l hl
  rw [hloops, Dict.get_set] at hl
  split_ifs at hl with hkey
  · rw [← Option.some.inj hl, hname, hkey]
  · exact h key l hl

theorem Named.prune (h : Named st) (live : List GroupId) (key : LineageId) :
    Named (st.prune live key) := by
  unfold Sched.prune
  split
  · exact h
  next ls hls =>
    refine h.set ?_ rfl
    exact h key ls hls

theorem iterated_loops (st : Sched) (ls : LoopState) :
    ((st.openIteration ls).enqueueIteration ls).loops = st.loops.set ls.lineageId ls.counted := by
  obtain ⟨news, heq, -⟩ := iteration_step st ls
  rw [heq]
  rfl

theorem ne_nil_of_live (hlive : ∀ x ∈ st.liveGroups, x ∈ st'.liveGroups)
    (h : st.liveGroups ≠ []) : st'.liveGroups ≠ [] := by
  obtain ⟨x, hx⟩ := List.exists_mem_of_ne_nil _ h
  exact List.ne_nil_of_mem (hlive x hx)

theorem fill_fed {fuel : ℕ} (hnamed : Named st) (hengaged : Engaged st key)
    (h : Sched.fill fuel key st = .ok st') :
    Fed st' key ∧ Named st' ∧ ∀ k ≠ key, st'.loops.get k = st.loops.get k := by
  induction fuel generalizing st with
  | zero => simp [Sched.fill] at h
  | succ fuel ih =>
    simp only [Sched.fill] at h
    split at h
    next hnone =>
      obtain rfl := Except.ok.inj h
      exact ⟨fun ls hls => absurd (hnone.symm.trans hls) (by simp), hnamed, fun _ _ => rfl⟩
    next ls hls =>
      have hkey : ls.lineageId = key := hnamed key ls hls
      split at h
      next hgo =>
        have hloops := iterated_loops st ls
        have hcounted : ls.counted.lineageId = ls.lineageId := rfl
        have hnamed' : Named ((st.openIteration ls).enqueueIteration ls) := hnamed.set hcounted hloops
        have hengaged' : Engaged ((st.openIteration ls).enqueueIteration ls) key := by
          intro l hl hactive
          rw [hloops, hkey, Dict.get_set_self] at hl
          obtain rfl := Option.some.inj hl
          by_cases hroutes : ls.routes = []
          · have hsame : ls.counted.activeGroups = ls.activeGroups := by
              simp [LoopState.counted, hroutes]
            exact ne_nil_of_live (fun _ => live_of_iterate) (hengaged ls hls (hsame ▸ hactive))
          · exact List.ne_nil_of_mem (live_iteration hroutes)
        obtain ⟨hfed, hnames, hrest⟩ := ih hnamed' hengaged' h
        refine ⟨hfed, hnames, fun k hk => ?_⟩
        rw [hrest k hk, hloops]
        exact Dict.get_set_ne _ _ (fun he => hk (hkey ▸ he.symm))
      next hstop =>
        obtain rfl := Except.ok.inj h
        refine ⟨fun l hl hcan => ?_, hnamed, fun _ _ => rfl⟩
        rw [hls] at hl
        obtain rfl := Option.some.inj hl
        apply hengaged ls hls
        intro hempty
        apply hstop
        simp [hcan.1, LoopState.hasCapacity, hempty, hcan.2]

theorem prune_engaged {live : List GroupId} (hlive : ∀ x ∈ live, x ∈ st.liveGroups) :
    Engaged (st.prune live key) key := by
  intro ls hls hactive
  rw [prune_liveGroups]
  cases hold : st.loops.get key with
  | none =>
    simp [Sched.prune, hold] at hls
  | some old =>
    rw [prune_get_self hold] at hls
    obtain rfl := Option.some.inj hls
    obtain ⟨g, hg⟩ := List.exists_mem_of_ne_nil _ hactive
    obtain ⟨x, hx, -⟩ := List.any_eq_true.mp (List.mem_filter.mp hg).2
    exact List.ne_nil_of_mem (hlive x hx)

/-- A settling that is done with the loops `visited`. -/
structure Feeding (live : List GroupId) (visited : List LineageId) (st : Sched) : Prop where
  named : Named st
  live : ∀ x ∈ live, x ∈ st.liveGroups
  fed : ∀ k ∈ visited, Fed st k

theorem Feeding.visit {live : List GroupId} {visited : List LineageId}
    (h : Feeding live visited st) (hf : (st.prune live key).fillLoopCapacity key = .ok st') :
    Feeding live (key :: visited) st' ∧
      ∀ k, st'.loops.get k ≠ none → st.loops.get k ≠ none := by
  have hnamed : Named (st.prune live key) := h.named.prune live key
  have hengaged : Engaged (st.prune live key) key := prune_engaged h.live
  have hpruned : ∀ x ∈ st.liveGroups, x ∈ (st.prune live key).liveGroups := by
    rw [prune_liveGroups]
    exact fun _ => id
  obtain ⟨⟨hfed, hnames, hrest⟩, hlive⟩ : (Fed st' key ∧ Named st' ∧
      ∀ k ≠ key, st'.loops.get k = (st.prune live key).loops.get k) ∧
      ∀ x ∈ st.liveGroups, x ∈ st'.liveGroups := by
    unfold Sched.fillLoopCapacity at hf
    split at hf
    next hnone =>
      obtain rfl := Except.ok.inj hf
      exact ⟨⟨fun ls hls => absurd (hnone.symm.trans hls) (by simp), hnamed, fun _ _ => rfl⟩, hpruned⟩
    next => exact ⟨fill_fed hnamed hengaged hf, fun x hx => fill_live hf (hpruned x hx)⟩
  constructor
  · refine ⟨hnames, fun x hx => hlive x (h.live x hx), fun k hk => ?_⟩
    by_cases hkey : k = key
    · exact hkey ▸ hfed
    · intro ls hls hcan
      rw [hrest k hkey, prune_get hkey] at hls
      have hvisited : k ∈ visited := (List.mem_cons.mp hk).resolve_left hkey
      exact ne_nil_of_live hlive (h.fed k hvisited ls hls hcan)
  · intro k hk hnone
    by_cases hkey : k = key
    · subst hkey
      have hsame : st.prune live k = st := by
        simp only [Sched.prune, hnone]
      rw [hsame, Sched.fillLoopCapacity, hnone] at hf
      obtain rfl := Except.ok.inj hf
      exact hk hnone
    · rw [hrest k hkey, prune_get hkey] at hk
      exact hk hnone

theorem settle_fed (hnamed : Named st) (h : st.settleLoopGroups = .ok st') :
    Named st' ∧ ∀ key, Fed st' key := by
  have hfold : ∀ (todo visited : List LineageId) (s : Sched), Feeding st.liveGroups visited s →
      todo.foldlM (fun s key => (s.prune st.liveGroups key).fillLoopCapacity key) s = .ok st' →
      Feeding st.liveGroups (todo ++ visited) st' ∧
        ∀ k, st'.loops.get k ≠ none → s.loops.get k ≠ none := by
    intro todo
    induction todo with
    | nil =>
      intro visited s hs hf
      obtain rfl := Except.ok.inj hf
      exact ⟨hs, fun _ => id⟩
    | cons key todo ih =>
      intro visited s hs hf
      rw [List.foldlM_cons] at hf
      obtain ⟨s₁, h₁, hf⟩ := bind_eq_ok.mp hf
      obtain ⟨hvisit, hkeys⟩ := hs.visit h₁
      obtain ⟨hrest, hkeys'⟩ := ih (key :: visited) s₁ hvisit hf
      refine ⟨⟨hrest.named, hrest.live, fun k hk => hrest.fed k ?_⟩, fun k hk => hkeys k (hkeys' k hk)⟩
      simp only [List.mem_append, List.mem_cons] at hk ⊢
      tauto
  obtain ⟨hdone, hkeys⟩ := hfold st.loops.keys [] st ⟨hnamed, fun _ => id, by simp⟩ h
  refine ⟨hdone.named, fun key ls hls hcan => hdone.fed key ?_ ls hls hcan⟩
  have hold : st.loops.get key ≠ none := hkeys key (by rw [hls]; simp)
  rw [List.append_nil]
  exact Dict.get_isSome_iff.mp (Option.isSome_iff_ne_none.mpr hold)

theorem route_fed (hnamed : Named st) (h : st.routeCompletion job c = .ok st') :
    Named st' ∧ ∀ key, Fed st' key := by
  unfold Sched.routeCompletion at h
  refine settle_fed ?_ h
  obtain ⟨news, heq, -⟩ := emitted_eq job (st.latch c.activation.lineageId c.record.nodeId) c
  have hrouted : Named ((st.latch c.activation.lineageId c.record.nodeId).enqueueRoutes job c) := by
    rw [heq]
    exact hnamed.of_eq rfl
  have hmerge : ∀ (s : Sched) (node : NodeId) (lineage : LineageId), Named s →
      Named (s.mergeLockedSignals node lineage) := by
    intro s node lineage hs
    unfold Sched.mergeLockedSignals
    split <;> exact hs.of_eq rfl
  simp only [Sched.mergeUnlocked]
  generalize Sched.sortedStrings (job.ir.nodes.map (·.id)) = targets
  generalize (st.latch c.activation.lineageId c.record.nodeId).enqueueRoutes job c = s at hrouted
  induction targets generalizing s with
  | nil => exact hrouted
  | cons target targets ih =>
    rw [List.foldl_cons]
    apply ih
    split
    · exact hmerge _ _ _ hrouted
    · exact hrouted

theorem openLoop_named (hnamed : Named st) (h : st.openLoop job c = .ok st') : Named st' := by
  unfold Sched.openLoop at h
  split at h
  · contradiction
  next ls hls =>
    have hset : Named { st with loops := st.loops.set ls.lineageId ls } := hnamed.set rfl rfl
    have hengaged : Engaged { st with loops := st.loops.set ls.lineageId ls } ls.lineageId := by
      intro l hl hactive
      rw [Dict.get_set_self] at hl
      obtain rfl := Option.some.inj hl
      have hnone := (loopStateOf_eq_some hls).2.2.2.2.2.2.2.2.2
      exact absurd hnone hactive
    unfold Sched.fillLoopCapacity at h
    split at h
    · obtain rfl := Except.ok.inj h
      exact hset
    · exact (fill_fed hset hengaged h).2.1

theorem closeLoop_named (hnamed : Named st) (a : Activation) (node : Node) :
    Named (st.closeLoop a node) := by
  unfold Sched.closeLoop
  simp only
  split
  · exact hnamed.of_eq rfl
  next key hkey =>
    split
    · exact hnamed
    next ls hls =>
      split
      · exact hnamed
      · refine hnamed.set ?_ rfl
        exact hnamed key ls hls

theorem processCompletion_fed (hnamed : Named st) (h : st.processCompletion job c = .ok st') :
    st'.error ≠ none ∨ ∀ key, Fed st' key := by
  have hrecord : Named (st.recordCompletion job c) := hnamed.of_eq rfl
  unfold Sched.processCompletion at h
  simp only at h
  split at h
  next hfail =>
    split at h
    next deferred hdefer =>
      have hdeferred : Named deferred := by
        unfold Sched.deferLoopFailure at hdefer
        split at hdefer
        · contradiction
        · obtain rfl := Option.some.inj hdefer
          exact hrecord.of_eq rfl
      exact .inr (settle_fed hdeferred h).2
    next =>
      obtain rfl := Except.ok.inj h
      exact .inl (by simp)
  next =>
    obtain ⟨s₂, h₂, hend⟩ := bind_eq_ok.mp h
    obtain ⟨s₁, h₁, h₂⟩ := bind_eq_ok.mp h₂
    -- a loop node settles after it opened its loop
    have hloop : Named s₁ ∧
        ((job.ir.node c.record.nodeId).type = .loop → ∀ key, Fed s₁ key) := by
      unfold Sched.loopBranch at h₁
      split at h₁
      next htype =>
        obtain ⟨s₀, h₀, h₁⟩ := bind_eq_ok.mp h₁
        have hlatched : Named ((st.recordCompletion job c).latch c.activation.lineageId
            c.record.nodeId) := hrecord.of_eq rfl
        obtain ⟨hnames, hfed⟩ := settle_fed (openLoop_named hlatched h₀) h₁
        exact ⟨hnames, fun _ => hfed⟩
      next htype =>
        obtain rfl := Except.ok.inj h₁
        exact ⟨hrecord, fun he => absurd he htype⟩
    have hbreak : Named s₂ ∧
        ((job.ir.node c.record.nodeId).type = .loop → ∀ key, Fed s₂ key) := by
      unfold Sched.breakBranch at h₂
      split at h₂
      next htype =>
        obtain ⟨hnames, hfed⟩ := settle_fed (closeLoop_named hloop.1 _ _) h₂
        exact ⟨hnames, fun _ => hfed⟩
      next =>
        obtain rfl := Except.ok.inj h₂
        exact hloop
    unfold Sched.endBranch at hend
    simp only at hend
    split_ifs at hend with hfinish honly
    · obtain rfl := Except.ok.inj hend
      exact .inl (by simp)
    · obtain rfl := Except.ok.inj hend
      exact .inr (hbreak.2 honly.1)
    · exact .inr (route_fed hbreak.1 hend).2

theorem idle_fed (h : Fed st key) (hi : Idle job st st') : Fed st' key := by
  intro ls hls hcan
  rw [idle_loops hi] at hls
  have hlive := h ls hls hcan
  cases hi with
  | @start _ s hs _ _ hd =>
    obtain ⟨-, hrunning, -⟩ := dispatched_frame hd
    have hmem : (s.node, s.activation.groupId) ∈ st'.running := by
      rw [hrunning]
      simp [Sched.begun, Sched.begin]
    exact List.ne_nil_of_mem (List.mem_append_right _ (List.mem_map_of_mem hmem))
  | refuse | finishReplay | send => exact hlive

theorem idlePath_fed (h : Fed st key) (hp : IdlePath job st st') : Fed st' key := by
  induction hp with
  | refl => exact h
  | tail _ hi ih => exact idle_fed ih hi

theorem reach_fed (hv : job.ir.Valid) {m : Machine} (h : Reach job m) :
    m.sched.error ≠ none ∨ ∀ key, Fed m.sched key := by
  induction h with
  | refl =>
    right
    intro key
    have hinitial : Fed (Sched.initial job) key := by
      intro ls hls
      obtain ⟨news, heq⟩ := initial_eq job
      rw [heq] at hls
      contradiction
    exact idlePath_fed hinitial (startRunnable_path _)
  | tail hreach hs ih =>
    have hwf := (reach_microPath hv hreach).2
    have hnamed : Named _ := fun _ _ hls => hwf.lineage hls
    cases hs with
    | turn ht =>
      cases turn_course ((reach_waits hv hreach).saturated rfl) ht with
      | stop _ => exact ih
      | @replay e others s herr hready hs =>
        unfold Sched.resume
        split
        next he => exact .inl (Option.isSome_iff_ne_none.mp he)
        next he =>
          have hprocessed := processCompletion_fed (by exact hnamed.of_eq rfl) hs
          have hfed := hprocessed.resolve_left (by simpa using he)
          exact .inr (fun key => idlePath_fed (hfed key) (startRunnable_path s))
      | wait herr _ _ =>
        split
        · exact ih
        · exact ih
    | finishTask _ _ _ => exact ih
    | receive hc hr =>
      obtain ⟨s, hs, rfl⟩ := map_eq_ok.mp hr
      split
      next he => exact .inl (Option.isSome_iff_ne_none.mp he)
      next he =>
        have hprocessed := processCompletion_fed (by exact hnamed.of_eq rfl) hs
        have hfed := hprocessed.resolve_left (by simpa using he)
        exact .inr (fun key => idlePath_fed (hfed key) (startRunnable_path s))

end Feeding

theorem passed_idle (hv : job.ir.Valid) (h : Reach job ⟨.done, st⟩)
    (hpass : (st.result job).outcome = .pass) :
    st.error = none ∧ st.pending = [] ∧ st.running = [] := by
  have hwf := (reach_microPath hv h).2
  have hfinal : st.finalError job.ir = none := by
    unfold Sched.result at hpass
    split at hpass
    · simp at hpass
    next hn => exact hn
  unfold Sched.finalError at hfinal
  split at hfinal
  · contradiction
  · contradiction
  next herr hdef =>
    obtain ⟨hrun, hquiet⟩ := ((reach_accounted hv h).done rfl).resolve_left (not_not.mpr herr)
    have hunresolved : st.unresolved job.ir = [] := by
      unfold Sched.unresolvedJoinError at hfinal
      split at hfinal
      next hu => exact List.isEmpty_iff.mp hu
      · contradiction
    exact ⟨herr, pending_nil_of_quiescent hwf hquiet hunresolved, hrun⟩

/-- The iterations of a finite loop are opened in the order of its items, each once and with
its own item; and if the run passes and no Break closed the loop, all of them were opened
and everything that was started has completed. -/
theorem loop_items_once (hv : job.ir.Valid) {m : Machine} (h : Reach job m) {ls : LoopState}
    (hls : m.sched.loops.get ls.lineageId = some ls) (hfinite : ls.infinite = false) :
    (∃ opened, Opens job ls.lineageId m.sched opened) ∧
    (∀ opened, Opens job ls.lineageId m.sched opened →
      opened = List.range ls.nextIndex ∧ ls.nextIndex ≤ ls.items.length) ∧
    (∀ i a, (∃ s ∈ m.sched.pending, s.activation = a) ∨ (∃ s ∈ m.sched.starts, s.task.activation = a) →
      a.lineageId = iterationGroup ls.lineageId i →
        a.scopedOutputs.get ls.nodeId = some (ls.itemAt i)) ∧
    (m.phase = .done → (m.sched.result job).outcome = .pass → ls.closed = false →
      0 < ls.maxConcurrency →
        Opens job ls.lineageId m.sched (List.range ls.items.length) ∧
        ∀ s ∈ m.sched.starts, ∃ c ∈ m.sched.completions, c.flight = s.flight) := by
  obtain ⟨hpath, hwf⟩ := reach_microPath hv h
  obtain ⟨opened, hopens⟩ : ∃ opened, Opens job ls.lineageId m.sched opened := exists_opens hv hpath
  have hbound := reach_nextIndex_le hv h _ ls hls hfinite
  have hrange : ∀ l, Opens job ls.lineageId m.sched l → l = List.range ls.nextIndex := by
    intro l hl
    rw [← nextIndex_get hls]
    exact (hl.range hv).2
  refine ⟨⟨opened, hopens⟩, fun l hl => ⟨hrange l hl, hbound⟩, ?_, ?_⟩
  · intro i a ha hlineage
    have hcarried := reach_carried hv h
    rcases ha with ⟨s, hs, rfl⟩ | ⟨s, hs, rfl⟩
    · exact hcarried.pending s hs ls i hls hlineage
    · exact hcarried.starts s hs ls i hls hlineage
  · intro hdone hpass hopen hlimit
    obtain ⟨phase, st⟩ := m
    obtain rfl : phase = .done := hdone
    obtain ⟨herr, hpending, hrunning⟩ := passed_idle hv h hpass
    have hdry : st.liveGroups = [] := by
      rw [Sched.liveGroups, hpending, hrunning]
      rfl
    have hfed := (reach_fed hv h).resolve_left (not_not.mpr herr)
    have hall : ls.nextIndex = ls.items.length := by
      by_contra hne
      have hnext : ls.hasNext = true := by
        have hless : ls.nextIndex < ls.items.length := by omega
        simp [LoopState.hasNext, hopen, hless]
      exact hfed ls.lineageId ls hls ⟨hnext, hlimit⟩ hdry
    constructor
    · rw [← hall, ← hrange opened hopens]
      exact hopens
    · intro s hs
      have hnone : st.inflight = [] := by
        have hperm := hwf.running
        rw [hrunning] at hperm
        simpa using hperm.nil_eq.symm
      have hhistory := hwf.history
      rw [hnone, List.nil_append] at hhistory
      have hmem := hhistory.mem_iff.mp (List.mem_map_of_mem hs)
      obtain ⟨c, hc, heq⟩ := List.mem_map.mp hmem
      exact ⟨c, hc, heq⟩

/-- The outer of two nested loops, over one item, in a run that passes. -/
theorem loop_items_once_nested : ∃ st ls, Reach Sample.nested ⟨.done, st⟩ ∧
    st.loops.get ls.lineageId = some ls ∧ ls.nodeId = "outer" ∧
    Opens Sample.nested ls.lineageId st [0] := by
  let outer (ls : LoopState) : Bool := ls.lineageId = "initial:outer:loop:outer:1" &&
    ls.nodeId = "outer" && !ls.infinite && !ls.closed && ls.maxConcurrency = 1 && ls.items.length = 1
  have hrun : (Sample.after Sample.nested (Sample.finish (Sample.items 1) ++
      Sample.finish (Sample.items 1) ++ Sample.finish .null ++ [.turn])).any (fun m =>
        m.phase = .done && (m.sched.result Sample.nested).outcome = .pass &&
          (m.sched.loops.get "initial:outer:loop:outer:1").any outer) = true := by
    decide +kernel
  obtain ⟨⟨phase, st⟩, hm, hend⟩ := (Option.any_eq_true _ _).mp hrun
  simp only [Bool.and_eq_true, decide_eq_true_eq, Option.any_eq_true] at hend
  obtain ⟨⟨rfl, hpass⟩, ls, hls, houter⟩ := hend
  simp only [outer, Bool.and_eq_true, decide_eq_true_eq, Bool.not_eq_true'] at houter
  obtain ⟨⟨⟨⟨⟨hkey, hnode⟩, hfinite⟩, hopen⟩, hlimit⟩, hitems⟩ := houter
  rw [← hkey] at hls
  have hreach := Sample.reach_after hm
  have hopened := ((loop_items_once Sample.nested_valid hreach hls hfinite).2.2.2 rfl hpass hopen
    (by rw [hlimit]; decide)).1
  rw [hitems] at hopened
  exact ⟨st, ls, hreach, hls, hnode, hopened⟩

end Raticode.Rattish
