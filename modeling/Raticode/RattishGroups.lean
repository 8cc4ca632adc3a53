import Raticode.RattishConcurrency

/-! The names of groups. Only the root lineage has groups of other names than its own,
and the name of an iteration tells which loops were opened inside it. -/
namespace Raticode.Rattish
open OrderedDict Relation Components

inductive Sched.Holds (st : Sched) (a : Activation) : Prop
  | pending (s : Signal) : s ∈ st.pending → s.activation = a → st.Holds a
  | started (s : Start) : s ∈ st.starts → s.task.activation = a → st.Holds a

inductive MergedInto (job : Job) (st : Sched) : GroupId → Prop
  | mk (s : Sched) (node : NodeId) (lineage : LineageId) (first second : Signal)
      (rest : List Signal) : MicroPath job (Sched.initial job) s →
      (s.pendingOf node).filter (·.activation.lineageId = lineage) = first :: second :: rest →
      MicroPath job (s.mergeLockedSignals node lineage) st →
      MergedInto job st (Sched.mergedGroup (first :: second :: rest))

def Opener (job : Job) (st : Sched) (key : LineageId) (c : Completion) : Prop :=
  c ∈ st.completions ∧ ∃ ls, st.loops.get key = some ls ∧ OpenedBy job ls c

inductive OpenedInside (job : Job) (st : Sched) (group : GroupId) : LineageId → Prop
  | here (key : LineageId) (c : Completion) : Opener job st key c →
      c.activation.groupId = group → OpenedInside job st group key
  | deeper (key outer : LineageId) (i : ℕ) (c : Completion) : OpenedInside job st group outer →
      Opener job st key c → c.activation.groupId = iterationGroup outer i →
      OpenedInside job st group key

/-- Inside a loop a group is named for its iteration, merging happens at the root only, and the
name of an iteration gives its loop and its index. -/
structure GroupNaming (job : Job) (st : Sched) : Prop where
  lineage : ∀ a, st.Holds a → a.lineageId ≠ rootLineage → a.groupId = a.lineageId
  merged : ∀ a, st.Holds a → MergedInto job st a.groupId → a.lineageId = rootLineage
  unmerged : ∀ node lineage, lineage ≠ rootLineage → st.mergeLockedSignals node lineage = st
  distinct : ∀ c ∈ st.completions, ∀ c' ∈ st.completions, ∀ i i',
    iterationGroup c.loopKey i = iterationGroup c'.loopKey i' → c = c' ∧ i = i'
  activation : ∀ key ls i, st.loops.get key = some ls → ∀ a, st.Holds a →
    startsWith a.groupId (iterationGroup key i ++ ":") = true →
    ∃ l j, a.groupId = iterationGroup l j ∧ OpenedInside job st (iterationGroup key i) l
  iteration : ∀ key ls i l ls' j, st.loops.get key = some ls → st.loops.get l = some ls' →
    startsWith (iterationGroup l j) (iterationGroup key i ++ ":") = true →
    OpenedInside job st (iterationGroup key i) l

variable {job : Job} {st : Sched}

theorem WellFormed.placed_holds (h : WellFormed job st) {a : Activation} (ha : st.Holds a) :
    Placed st a := by
  cases ha with
  | pending s hs he => exact he ▸ h.placedPending s hs
  | started s hs he => exact he ▸ h.placedStarts s hs

theorem WellFormed.exists_opener (h : WellFormed job st) {key : LineageId} {ls : LoopState}
    (hls : st.loops.get key = some ls) :
    ∃ c, Opener job st key c ∧ Placed st c.activation ∧ c.loopKey = key := by
  obtain ⟨c, hc, ho⟩ := (h.loops key ls hls).opened
  exact ⟨c, ⟨hc, ls, hls, ho⟩, (h.of_completion hc).1, ho.key.trans (h.lineage hls)⟩

theorem Placed.under (h : Placed st a) {key : LineageId} {i : ℕ}
    (hu : comps (iterationGroup key i) <+: comps a.groupId) :
    ∃ ls j, st.loops.get ls.lineageId = some ls ∧ a.groupId = iterationGroup ls.lineageId j ∧
      (a.groupId = iterationGroup key i ∨ comps (iterationGroup key i) <+: comps ls.lineageId) := by
  cases h with
  | root _ hg _ => exact absurd hg (not_rootName_of_under hu)
  | iteration ls j hls hj hg _ _ =>
    refine ⟨ls, j, hls, hg, ?_⟩
    rw [hg] at hu ⊢
    exact (prefix_iterationGroup hu).imp (fun ⟨hk, hi⟩ => by rw [hk, hi]) id

theorem WellFormed.opened_inside (hv : job.ir.Valid) (hwf : WellFormed job st) {key l : LineageId}
    {ls ls' : LoopState} {i : ℕ} (hls : st.loops.get key = some ls)
    (hl : st.loops.get l = some ls') (hu : comps (iterationGroup key i) <+: comps l) :
    OpenedInside job st (iterationGroup key i) l := by
  -- by induction on the name of the loop, from the loop to the one its opener ran in
  induction hlen : (comps l).length using Nat.strong_induction_on generalizing l ls' with
  | _ len ih =>
    obtain ⟨c, hop, hplaced, he⟩ := hwf.exists_opener hl
    have hn := hwf.colon_free hv hop.1
    have hname : comps l = comps c.activation.groupId ++
        ["loop".toList, c.record.nodeId.toList, (toString c.record.runNumber).toList] := by
      rw [← he, Completion.loopKey, comps_loopLineage hn]
    have hg : comps (iterationGroup key i) <+: comps c.activation.groupId := by
      rw [← he] at hu
      exact prefix_loopLineage (hwf.loopName hv hls) hn hu
    obtain ⟨outer, j, houter, hgroup, heq | hdeep⟩ := hplaced.under hg
    · exact .here l c hop heq
    · refine .deeper l outer.lineageId j c (ih _ ?_ houter hdeep rfl) hop hgroup
      rw [← hlen, hname, hgroup, comps_iterationGroup]
      simp only [List.length_append, List.length_cons]
      omega

theorem not_startsWith_self (g : GroupId) : startsWith g (g ++ ":") = false := by
  rw [Bool.eq_false_iff]
  intro h
  have hlen := (List.isPrefixOf_iff_prefix.mp h).length_le
  have hcolon : ":".toList.length = 1 := by decide
  rw [String.toList_append, List.length_append, hcolon] at hlen
  omega

theorem under_of_startsWith {g h : GroupId} (hs : startsWith h (g ++ ":") = true) :
    comps g <+: comps h ∧ h ≠ g := by
  refine ⟨(eq_or_startsWith_iff g h).mp (.inr hs), ?_⟩
  rintro rfl
  simp [not_startsWith_self] at hs

theorem WellFormed.unmerged (h : WellFormed job st) {lineage : LineageId}
    (hl : lineage ≠ rootLineage) (node : NodeId) : st.mergeLockedSignals node lineage = st := by
  unfold Sched.mergeLockedSignals
  split
  · rfl
  · rfl
  next first rest hone hsig =>
    cases rest with
    | nil => exact absurd rfl hone
    | cons second rest => exact absurd (h.two_signals hsig) hl

theorem MergedInto.rootName (hv : job.ir.Valid) {g : GroupId} (h : MergedInto job st g) :
    RootName g := by
  obtain ⟨s, node, lineage, first, second, rest, hpath, hsig, -⟩ := h
  have hwf : WellFormed job s := wellFormed_microPath hv (wellFormed_initial hv) hpath
  obtain rfl := hwf.two_signals hsig
  refine hwf.rootName_merged (fun x hx => ?_)
  rw [← hsig] at hx
  simp only [List.mem_filter, Sched.pendingOf, decide_eq_true_eq] at hx
  exact ⟨hx.1.1, hx.2⟩

theorem WellFormed.completion_unique (h : WellFormed job st) {c c' : Completion}
    (hc : c ∈ st.completions) (hc' : c' ∈ st.completions) (hrun : c.run = c'.run) : c = c' := by
  have hnd : ((st.inflight ++ st.completions.map Completion.flight).map Flight.run).Nodup := by
    refine (h.history.map Flight.run).nodup_iff.mp ?_
    rw [List.map_map]
    exact h.runs
  rw [List.map_append, List.map_map] at hnd
  exact List.inj_on_of_nodup_map (List.nodup_append'.mp hnd).2.1 hc hc' hrun

/-- In every reachable state an activation outside the root lineage has its lineage for
its group, groups are merged in the root lineage only, iterations of different
activations of loops have different groups, and a group whose name continues that of an
iteration belongs to a loop opened inside it. -/
theorem group_naming (hv : job.ir.Valid) {m : Machine} (h : Reach job m) :
    GroupNaming job m.sched := by
  have hwf := (reach_microPath hv h).2
  constructor
  · exact fun a ha hl => ((hwf.placed_holds ha).of_ne_root hl).1.symm
  · intro a ha hm
    by_contra hl
    exact ((hwf.placed_holds ha).of_ne_root hl).2 (hm.rootName hv)
  · exact fun node _ hl => hwf.unmerged hl node
  · intro c hc c' hc' i i' he
    obtain ⟨hkey, hi⟩ := iterationGroup_inj.mp he
    obtain ⟨-, hnode, hrun⟩ := loopLineage_inj (hwf.colon_free hv hc) (hwf.colon_free hv hc') hkey
    exact ⟨hwf.completion_unique hc hc' (Prod.ext hnode hrun), hi⟩
  · intro key ls i hls a ha hs
    obtain ⟨hu, hne⟩ := under_of_startsWith hs
    obtain ⟨outer, j, houter, hgroup, heq | hdeep⟩ := (hwf.placed_holds ha).under hu
    · exact absurd heq hne
    · exact ⟨outer.lineageId, j, hgroup, hwf.opened_inside hv hls houter hdeep⟩
  · intro key ls i l ls' j hls hl hs
    obtain ⟨hu, hne⟩ := under_of_startsWith hs
    rcases prefix_iterationGroup hu with ⟨rfl, rfl⟩ | hdeep
    · exact absurd rfl hne
    · exact hwf.opened_inside hv hls hl hdeep

/-- In two nested loops the iterations of the inner one continue the name of the
iteration of the outer one they belong to. -/
theorem group_naming_nested : ∃ m, Reach Sample.nested m ∧
    OpenedInside Sample.nested m.sched "initial:outer:loop:outer:1:iteration:0"
      "initial:outer:loop:outer:1:iteration:0:loop:inner:1" := by
  have hrun : (Sample.after Sample.nested
      (Sample.finish (Sample.items 1) ++ Sample.finish (Sample.items 1))).any (fun m =>
        (m.sched.loops.get "initial:outer:loop:outer:1").isSome &&
        (m.sched.loops.get "initial:outer:loop:outer:1:iteration:0:loop:inner:1").isSome) = true := by
    decide +kernel
  obtain ⟨m, hm, hend⟩ := (Option.any_eq_true _ _).mp hrun
  simp only [Bool.and_eq_true] at hend
  obtain ⟨ls, hls⟩ := Option.isSome_iff_exists.mp hend.1
  obtain ⟨ls', hls'⟩ := Option.isSome_iff_exists.mp hend.2
  have hreach := Sample.reach_after hm
  exact ⟨m, hreach, (group_naming Sample.nested_valid hreach).iteration
    "initial:outer:loop:outer:1" ls 0 _ ls' 0 hls hls' (by decide +kernel)⟩

end Raticode.Rattish
