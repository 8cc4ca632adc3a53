import Raticode.RattishWellFormed

/-! Breaking a loop. What a closed loop still lets start, and the loops nested in
it that go on opening iterations. -/
namespace Raticode.Rattish
open OrderedDict Relation

/-- The run has one of `roots` among the runs whose routes led to it. -/
inductive Descends (starts : List Start) (roots : List RunId) : RunId → Prop
  | root {r : RunId} : r ∈ roots → Descends starts roots r
  | route {s : Start} {r : RunId} : s ∈ starts → r ∈ s.origins → Descends starts roots r →
      Descends starts roots s.flight.run

/-- The loop was opened inside an iteration of the loop `outer`, directly or
through other loops. -/
inductive NestedIn (st : Sched) (outer : LineageId) : LoopState → Prop
  | direct {ls : LoopState} : outer ∈ ls.parentLineages.values → NestedIn st outer ls
  | through {ls mid : LoopState} {key : LineageId} : key ∈ ls.parentLineages.values →
      st.loops.get key = some mid → NestedIn st outer mid → NestedIn st outer ls

/-- The completed node is a Break that names an open loop. -/
structure Closes (job : Job) (st : Sched) (c : Completion) (key : LineageId) : Prop where
  ok : c.ok
  type : (job.ir.node c.record.nodeId).type = .break
  named : c.activation.loopLineages.get ((job.ir.node c.record.nodeId).loopNodeId.getD "") = some key
  opened : ∃ ls, st.loops.get key = some ls ∧ ls.closed = false

/-- What a Break that closes the loop `key` in the state `st` promises about a
later state. -/
structure BreakHolds (st : Sched) (key : LineageId) (st' : Sched) : Prop where
  starts : ∀ s ∈ st'.starts.drop st.starts.length, key ∈ s.task.activation.loopLineages.values →
    Descends st'.starts (st.inflight.map Flight.run) s.flight.run
  iterations : ∀ k ls, st.loops.get k = some ls → k = key ∨ NestedIn st key ls →
    ∃ ls', st'.loops.get k = some ls' ∧ ls'.nextIndex = ls.nextIndex
  again : ∀ (a : Activation) (node : Node),
    a.loopLineages.get (node.loopNodeId.getD "") = some key → st'.closeLoop a node = st'

variable {job : Job} {c : Completion} {st st' : Sched}

section Frozen

theorem nextIndex_micro (hwf : WellFormed job st) (h : Micro job st st') {key : LineageId}
    {ls : LoopState} (hls : st.loops.get key = some ls) (hn : ¬ls.canOpen) :
    ∃ ls', st'.loops.get key = some ls' ∧ ls.Advances ls' ∧ ls'.nextIndex = ls.nextIndex := by
  cases micro_loops (fun _ _ => hwf.lineage) h with
  | same he => exact ⟨ls, he ▸ hls, .refl ls, rfl⟩
  | opened c l _ _ _ _ hnew he =>
    refine ⟨ls, ?_, .refl ls, rfl⟩
    rw [he, Dict.get_set_ne _ _ (by rintro rfl; simp [hnew] at hls), hls]
  | advanced k l l' hl he ha hi =>
    rw [he, Dict.get_set]
    split_ifs with hk
    · subst hk
      obtain rfl := Option.some.inj (hls.symm.trans hl)
      refine ⟨l', rfl, ha, hi.resolve_right (fun ho => ?_)⟩
      exact hn (canOpen_of_capacity ho.1 ho.2.1)
    · exact ⟨ls, hls, .refl ls, rfl⟩

theorem nextIndex_microPath (hv : job.ir.Valid) (hwf : WellFormed job st)
    (h : MicroPath job st st') {key : LineageId} {ls : LoopState}
    (hls : st.loops.get key = some ls) (hn : ¬ls.canOpen) :
    ∃ ls', st'.loops.get key = some ls' ∧ ls.Advances ls' ∧ ls'.nextIndex = ls.nextIndex := by
  induction h with
  | refl => exact ⟨ls, hls, .refl ls, rfl⟩
  | tail hp hm ih =>
    obtain ⟨ls₁, hls₁, ha₁, hi₁⟩ := ih
    obtain ⟨ls₂, hls₂, ha₂, hi₂⟩ := nextIndex_micro (wellFormed_microPath hv hwf hp) hm hls₁
      (fun hc => hn (ha₁.canOpen hc))
    exact ⟨ls₂, hls₂, ha₁.trans ha₂, hi₂.trans hi₁⟩

end Frozen

section Nesting

structure LineagesKnown (st : Sched) (lineages : Dict NodeId LineageId) : Prop where
  nodup : lineages.keys.Nodup
  known : ∀ node key, (node, key) ∈ lineages → ∃ ls, st.loops.get key = some ls ∧ ls.nodeId = node

/-- The loops a loop was opened in are known ones, one for each node. -/
def Nesting (st : Sched) : Prop :=
  ∀ key ls, st.loops.get key = some ls → LineagesKnown st ls.parentLineages

theorem LineagesKnown.grow (hg : LoopsGrow st st') {lineages : Dict NodeId LineageId}
    (h : LineagesKnown st lineages) : LineagesKnown st' lineages := by
  refine ⟨h.nodup, fun node key hm => ?_⟩
  obtain ⟨ls, hls, hn⟩ := h.known node key hm
  obtain ⟨ls', hls', ha⟩ := hg key ls hls
  exact ⟨ls', hls', ha.fixed.1.trans hn⟩

theorem mem_set {κ α : Type*} [DecidableEq κ] {d : Dict κ α} {k k' : κ} {v v' : α}
    (h : (k', v') ∈ d.set k v) : (k', v') = (k, v) ∨ (k', v') ∈ d := by
  induction d with
  | nil => exact .inl (by simpa [Dict.set] using h)
  | cons p rest ih =>
    obtain ⟨k₀, w⟩ := p
    simp only [Dict.set] at h
    split_ifs at h with hk
    · subst hk
      rcases List.mem_cons.mp h with h | h
      · exact .inl h
      · exact .inr (List.mem_cons_of_mem _ h)
    · rcases List.mem_cons.mp h with h | h
      · exact .inr (h ▸ List.mem_cons_self)
      · exact (ih h).imp id (List.mem_cons_of_mem _)

theorem Nesting.placed (h : Nesting st) {a : Activation} (hp : Placed st a) :
    LineagesKnown st a.loopLineages := by
  cases hp with
  | root _ _ he =>
    rw [he]
    exact ⟨List.nodup_nil, by simp⟩
  | iteration ls i hls _ _ _ he =>
    have hk := h _ _ hls
    rw [he]
    refine ⟨Dict.nodup_keys_set hk.nodup _ _, fun node key hm => ?_⟩
    rcases mem_set hm with heq | hm
    · obtain ⟨rfl, rfl⟩ := Prod.mk.inj heq
      exact ⟨ls, hls, rfl⟩
    · exact hk.known node key hm

theorem Nesting.micro (hwf : WellFormed job st) (h : Nesting st) (hm : Micro job st st') :
    Nesting st' := by
  have hchange := micro_loops (fun _ _ => hwf.lineage) hm
  have hg := hchange.grow
  intro key l hl
  cases hchange with
  | same he => exact (h key l (he ▸ hl)).grow hg
  | opened c ls _ _ hc ho _ he =>
    rw [he, Dict.get_set] at hl
    split_ifs at hl with hk
    · obtain rfl := Option.some.inj hl
      rw [(loopStateOf_eq_some ho).2.2.2.2.2.1]
      exact (h.placed (hwf.of_completion (List.mem_of_getLast? hc)).1).grow hg
    · exact (h key l hl).grow hg
  | advanced k ls ls' hls he ha _ =>
    rw [he, Dict.get_set] at hl
    split_ifs at hl with hk
    · obtain rfl := Option.some.inj hl
      rw [ha.fixed.2.2.2.2.1]
      exact (h k ls hls).grow hg
    · exact (h key l hl).grow hg

theorem reach_nesting (hv : job.ir.Valid) {m : Machine} (h : Reach job m) : Nesting m.sched := by
  refine reach_invariant hv ?_ (fun _ _ hwf hn hm => hn.micro hwf hm) h
  obtain ⟨news, heq⟩ := initial_eq job
  intro key ls hls
  rw [heq] at hls
  simp [Sched.addSignals, Sched.fresh] at hls

end Nesting

section After

theorem Descends.mono {starts starts' : List Start} {roots : List RunId} {r : RunId}
    (hsub : ∀ s ∈ starts, s ∈ starts') (h : Descends starts roots r) :
    Descends starts' roots r := by
  induction h with
  | root hr => exact .root hr
  | route hs ho _ ih => exact .route (hsub _ hs) ho ih

theorem micro_starts_sub (h : Micro job st st') : ∀ s ∈ st.starts, s ∈ st'.starts := by
  rcases micro_starts h with he | ⟨_, -, -, he, -⟩
  · exact fun s hs => he ▸ hs
  · exact fun s hs => he ▸ List.mem_append_left _ hs

theorem mem_values_set {lineages : Dict NodeId LineageId} {node : NodeId} {key k : LineageId}
    (h : k ∈ (lineages.set node key).values) : k = key ∨ k ∈ lineages.values := by
  obtain ⟨⟨n, v⟩, hm, rfl⟩ := List.mem_map.mp h
  rcases mem_set hm with he | hm
  · exact .inl (Prod.mk.inj he).2
  · exact .inr (List.mem_map_of_mem (f := Prod.snd) hm)

/-- After the loop `key` was closed with the runs `roots` under way: all that can
still become a start in it descends from them. `old` is the number of starts at
that moment. -/
structure AfterBreak (key : LineageId) (roots : List RunId) (old : ℕ) (st : Sched) : Prop where
  closed : ∃ ls, st.loops.get key = some ls ∧ ls.closed = true
  early : old ≤ st.starts.length
  pending : ∀ s ∈ st.pending, key ∈ s.activation.loopLineages.values →
    ∃ o ∈ s.origins, Descends st.starts roots o
  starts : ∀ s ∈ st.starts.drop old, key ∈ s.task.activation.loopLineages.values →
    Descends st.starts roots s.flight.run
  inflight : ∀ f ∈ st.inflight, key ∈ f.activation.loopLineages.values →
    Descends st.starts roots f.run
  last : ∀ c, st.completions.getLast? = some c → key ∈ c.activation.loopLineages.values →
    Descends st.starts roots c.run
  loops : ∀ k ls, st.loops.get k = some ls → key ∈ ls.parentLineages.values → ls.canOpen →
    Descends st.starts roots (ls.nodeId, ls.runNumber)

variable {key : LineageId} {roots : List RunId} {old : ℕ}

theorem AfterBreak.signal (hwf : WellFormed job st) (h : AfterBreak key roots old st) {s : Signal}
    (hs : SignalFrom job st st' s) (hkey : key ∈ s.activation.loopLineages.values) :
    ∃ o ∈ s.origins, Descends st.starts roots o := by
  cases hs with
  | old hs => exact h.pending s hs hkey
  | iterated k ls _ hls hn hcap _ _ ho ha =>
    rw [ha] at hkey
    rw [ho]
    refine ⟨_, List.mem_singleton_self _, ?_⟩
    rcases mem_values_set hkey with rfl | hkey
    · -- the closed loop itself has no next iteration
      obtain rfl := hwf.lineage hls
      obtain ⟨l, hl, hclosed⟩ := h.closed
      obtain rfl := Option.some.inj (hls.symm.trans hl)
      simp [LoopState.hasNext, hclosed] at hn
    · exact h.loops k ls hls hkey (canOpen_of_capacity hn hcap)
  | emitted c hc _ _ _ ho ha =>
    rw [ha] at hkey
    rw [ho]
    exact ⟨_, List.mem_singleton_self _, h.last c hc hkey⟩
  | merged first hfirst _ ho ha =>
    rw [ha] at hkey
    obtain ⟨o, hm, hd⟩ := h.pending first hfirst hkey
    exact ⟨o, ho o hm, hd⟩

theorem AfterBreak.loop (h : AfterBreak key roots old st) (hc : LoopsChange job st st')
    {k : LineageId} {ls : LoopState} (hls : st'.loops.get k = some ls)
    (hkey : key ∈ ls.parentLineages.values) (ho : ls.canOpen) :
    Descends st.starts roots (ls.nodeId, ls.runNumber) := by
  cases hc with
  | same he => exact h.loops k ls (he ▸ hls) hkey ho
  | opened c l _ _ hlast hl _ he =>
    rw [he, Dict.get_set] at hls
    split_ifs at hls
    · obtain rfl := Option.some.inj hls
      obtain ⟨-, hnode, hrun, -, -, hlineages, -⟩ := loopStateOf_eq_some hl
      rw [hnode, hrun]
      exact h.last c hlast (hlineages ▸ hkey)
    · exact h.loops k ls hls hkey ho
  | advanced k' l l' hl he ha _ =>
    rw [he, Dict.get_set] at hls
    split_ifs at hls
    · obtain rfl := Option.some.inj hls
      obtain ⟨hnode, hrun, -, -, hlineages, -⟩ := ha.fixed
      rw [hnode, hrun]
      exact h.loops k' l hl (hlineages ▸ hkey) (ha.canOpen ho)
    · exact h.loops k ls hls hkey ho

theorem AfterBreak.micro (hwf : WellFormed job st) (h : AfterBreak key roots old st)
    (hm : Micro job st st') : AfterBreak key roots old st' := by
  have hsub := micro_starts_sub hm
  have hchange := micro_loops (fun _ _ => hwf.lineage) hm
  -- a start comes from a signal of the queue, so it descends as the signal does
  have hstart : ∀ s, StartsOne job st st' s → key ∈ s.activation.loopLineages.values →
      Descends st'.starts roots (st.taskOf s).flight.run := by
    rintro s ⟨hs, -, he, -⟩ hkey
    obtain ⟨o, ho, hd⟩ := h.pending s hs hkey
    have hmem : (⟨st.taskOf s, st.completions.length, s.origins⟩ : Start) ∈ st'.starts := by
      rw [he]
      exact List.mem_append_right _ (List.mem_singleton_self _)
    exact .route hmem ho (hd.mono hsub)
  constructor
  · obtain ⟨ls, hls, hc⟩ := h.closed
    obtain ⟨ls', hls', ha⟩ := hchange.grow key ls hls
    exact ⟨ls', hls', ha.2.2 hc⟩
  · rcases micro_starts hm with he | ⟨_, -, -, he, -⟩
    · exact he ▸ h.early
    · rw [he, List.length_append]
      exact Nat.le_add_right_of_le h.early
  · intro s hs hkey
    obtain ⟨o, ho, hd⟩ := h.signal hwf (micro_pending hm hs) hkey
    exact ⟨o, ho, hd.mono hsub⟩
  · intro s hs hkey
    rcases micro_starts hm with he | ⟨sig, hone⟩
    · rw [he] at hs ⊢
      exact h.starts s hs hkey
    · rw [hone.2.2.1, List.drop_append_of_le_length h.early] at hs
      rcases List.mem_append.mp hs with hs | hs
      · exact (h.starts s hs hkey).mono hsub
      · obtain rfl := List.mem_singleton.mp hs
        exact hstart sig hone hkey
  · intro f hf hkey
    rcases micro_inflight hm hf with hf | ⟨sig, hone, rfl⟩
    · exact (h.inflight f hf hkey).mono hsub
    · exact hstart sig hone hkey
  · intro c hc hkey
    rcases micro_last hm hc with hc | hf
    · exact (h.last c hc hkey).mono hsub
    · exact (h.inflight _ hf hkey).mono hsub
  · exact fun k ls hls hkey ho => (h.loop hchange hls hkey ho).mono hsub

end After

section Closing

def Sched.closedBy (job : Job) (st : Sched) (c : Completion) : Sched :=
  (st.recordCompletion job c).closeLoop c.activation (job.ir.node c.record.nodeId)

theorem processCompletion_break {st₀ st₁ : Sched} (hok : c.ok)
    (ht : (job.ir.node c.record.nodeId).type = .break)
    (hsu : ∀ s, WorkPath job c (st₀.closedBy job c) s → StartedUnlocked job s)
    (h : st₀.processCompletion job c = .ok st₁) : WorkPath job c (st₀.closedBy job c) st₁ := by
  have hnotloop : ¬(job.ir.node c.record.nodeId).type = .loop := by simp [ht]
  unfold Sched.processCompletion at h
  simp only at h
  split at h
  next hfail => exact absurd hfail hok
  obtain ⟨s₂, h₂, h⟩ := bind_eq_ok.mp h
  obtain ⟨s₁, h₁, h₂⟩ := bind_eq_ok.mp h₂
  simp only [Sched.loopBranch, hnotloop, ↓reduceIte, Except.ok.injEq] at h₁
  subst h₁
  simp only [Sched.breakBranch, ht, ↓reduceIte] at h₂
  have hsettle : WorkPath job c (st₀.closedBy job c) s₂ := work_of_quiet (settle_path h₂)
  simp only [Sched.endBranch, hnotloop, false_and, ↓reduceIte] at h
  split_ifs at h with hfail
  · obtain rfl := Except.ok.inj h
    exact hsettle.tail (.quiet (.fail _ (.finishFail hok hfail)))
  · exact hsettle.trans (.head (.latch hok)
      (work_of_quiet (routeCompletion_path (hsu s₂ hsettle) hok (by simp [hnotloop]) h)))

theorem closedBy_eq {st₀ : Sched} {key : LineageId} {ls : LoopState}
    (hname : c.activation.loopLineages.get ((job.ir.node c.record.nodeId).loopNodeId.getD "") =
      some key)
    (hls : st₀.loops.get key = some ls) (hopen : ls.closed = false) :
    st₀.closedBy job c = { st₀.recordCompletion job c with
      loops := st₀.loops.set key { ls with closed := true }
      pending := st₀.pending.filter (fun s => !(s.activation.loopLineages.get
        ((job.ir.node c.record.nodeId).loopNodeId.getD "") = some key)) } := by
  have hls' : (st₀.recordCompletion job c).loops.get key = some ls := hls
  simp only [Sched.closedBy, Sched.closeLoop, hname, hls', hopen, Bool.false_eq_true, ↓reduceIte]
  rfl

theorem afterBreak_closedBy {st₀ : Sched} {key : LineageId} (hwf : WellFormed job st)
    (hnest : Nesting st) (hp : Pops job st c st₀) (hc : Closes job st c key)
    (hfree : ∀ k ls, st.loops.get k = some ls → key ∈ ls.parentLineages.values → ¬ls.canOpen) :
    AfterBreak key (st.inflight.map Flight.run) st.starts.length (st₀.closedBy job c) := by
  obtain ⟨ls, hls, hopen⟩ := hc.opened
  obtain ⟨hpend, -, hstarts, hcomp, -, -, hloops⟩ := pops_frame hp
  have hin : c.flight ∈ st.inflight := (pops_inflight hp).mem_iff.mpr List.mem_cons_self
  have hname : ls.nodeId = (job.ir.node c.record.nodeId).loopNodeId.getD "" := by
    obtain ⟨s, hs, hf⟩ := hwf.mem_starts (List.mem_append_left _ hin)
    have hact : s.task.activation = c.activation := congrArg Flight.activation hf
    obtain ⟨l, hl, hn⟩ := (hnest.placed (hact ▸ hwf.placedStarts s hs)).known _ _
      (Dict.mem_of_get hc.named)
    rw [← hn, Option.some.inj (hls.symm.trans hl)]
  rw [closedBy_eq hc.named (hloops ▸ hls) hopen]
  constructor
  · exact ⟨_, Dict.get_set_self _ _ _, rfl⟩
  · show st.starts.length ≤ st₀.starts.length
    rw [hstarts]
  · intro s hs hkey
    simp only [hpend, List.mem_filter, Bool.not_eq_true', decide_eq_false_iff_not] at hs
    -- a queued activation of the loop carries it under the loop's own node id
    have hknown := hnest.placed (hwf.placedPending s hs.1)
    obtain ⟨⟨node, k⟩, hm, rfl⟩ := List.mem_map.mp hkey
    obtain ⟨l, hl, hn⟩ := hknown.known node k hm
    obtain rfl := Option.some.inj (hls.symm.trans hl)
    refine absurd (Dict.get_of_mem hknown.nodup hm) ?_
    rw [← hn, hname]
    exact hs.2
  · intro s hs
    simp only [Sched.recordCompletion, hstarts, List.drop_length, List.not_mem_nil] at hs
  · intro f hf _
    exact .root (List.mem_map_of_mem ((pops_inflight hp).mem_iff.mpr (List.mem_cons_of_mem _ hf)))
  · intro c' hc' _
    have hl : (st₀.completions ++ [c]).getLast? = some c' := hc'
    obtain rfl : c = c' := by simpa using hl
    exact .root (List.mem_map_of_mem (f := Flight.run) hin)
  · intro k l hl hkey ho
    simp only [hloops, Dict.get_set] at hl
    split_ifs at hl
    · obtain rfl := Option.some.inj hl
      simp [LoopState.canOpen, LoopState.hasNext] at ho
    · exact absurd ho (hfree k l hl hkey)

theorem closeLoop_of_closed {key : LineageId} {ls : LoopState} (hls : st.loops.get key = some ls)
    (hc : ls.closed = true) {a : Activation} {node : Node}
    (ha : a.loopLineages.get (node.loopNodeId.getD "") = some key) : st.closeLoop a node = st := by
  simp only [Sched.closeLoop, ha, hls, hc, ↓reduceIte]

/-- After a Break that closes a loop in which no nested loop has an iteration left
to open, only what descends from the runs then under way starts in the loop, no
iteration of it or of a loop nested in it is opened, and a second Break on it
changes nothing. -/
theorem breakHolds_of_nested_done (hv : job.ir.Valid) {m m' m'' : Machine} {key : LineageId}
    (h : Reach job m) (hr : Records job m c m') (hc : Closes job m.sched c key)
    (hfree : ∀ k ls, m.sched.loops.get k = some ls → NestedIn m.sched key ls → ¬ls.canOpen)
    (hrun : ReflTransGen (Step job) m' m'') : BreakHolds m.sched key m''.sched := by
  have hwf := (reach_microPath hv h).2
  obtain ⟨st₀, st₁, hp, hproc, he⟩ := hr.processed hv hwf
  have hlast : (st₀.recordCompletion job c).completions.getLast? = some c := by
    simp [Sched.recordCompletion]
  have hclosing : MicroPath job m.sched (st₀.closedBy job c) :=
    .head (.complete hp) (micro_of_work hlast (work_of_quiet (closeLoop_path hc.ok hc.type))).1
  have hlast' : (st₀.closedBy job c).completions.getLast? = some c :=
    (micro_of_work hlast (work_of_quiet (closeLoop_path hc.ok hc.type))).2
  have hwfc := wellFormed_microPath hv hwf hclosing
  have hwork : WorkPath job c (st₀.closedBy job c) st₁ :=
    processCompletion_break hc.ok hc.type (fun s hs =>
      (wellFormed_microPath hv hwfc (micro_of_work hlast' hs).1).unlocked) hproc
  have hafter : MicroPath job (st₀.closedBy job c) m''.sched := by
    refine (micro_of_work hlast' hwork).1.trans ?_
    refine (he ▸ micro_of_idle (resume_path st₁) : MicroPath job st₁ m'.sched).trans ?_
    exact (steps_microPath hv (steps_microPath hv hwf (.single hr.step)).2 hrun).1
  have hinv := (inv_of_microPath
    (P := fun s => WellFormed job s ∧
      AfterBreak key (m.sched.inflight.map Flight.run) m.sched.starts.length s)
    (fun _ _ hi hm => ⟨hi.1.micro hv hm, hi.2.micro hi.1 hm⟩) hafter
    ⟨hwfc, afterBreak_closedBy hwf (reach_nesting hv h) hp hc
      (fun k ls hls hk => hfree k ls hls (.direct hk))⟩).2
  refine ⟨hinv.starts, fun k ls hls hk => ?_, fun a node ha => ?_⟩
  · rcases hk with rfl | hk
    · obtain ⟨ls₀, hls₀, hopen⟩ := hc.opened
      obtain rfl := Option.some.inj (hls.symm.trans hls₀)
      have hls₁ : (st₀.closedBy job c).loops.get k = some { ls with closed := true } := by
        rw [closedBy_eq hc.named (pops_loops hp ▸ hls) hopen]
        exact Dict.get_set_self _ _ _
      obtain ⟨ls', hls', -, hi⟩ := nextIndex_microPath hv hwfc hafter hls₁
        (by simp [LoopState.canOpen, LoopState.hasNext])
      exact ⟨ls', hls', hi⟩
    · obtain ⟨ls', hls', -, hi⟩ := nextIndex_microPath hv hwf (hclosing.trans hafter) hls
        (hfree k ls hls hk)
      exact ⟨ls', hls', hi⟩
  · obtain ⟨ls, hls, hclosed⟩ := hinv.closed
    exact closeLoop_of_closed hls hclosed ha

end Closing

namespace Sample

def breaking : Job where
  ir := { nodes := [node "outer" .loop [] ["inner", "stop"], node "inner" .loop ["outer"] ["body"],
    node "body" (.other "shell") ["inner"] [],
    { node "stop" .break ["outer"] [] with loopNodeId := some "outer" }] }
  env := env

theorem breaking_valid : breaking.ir.Valid := by
  constructor <;> decide +kernel

/-- The outer loop has two items and the inner one `n`; the Break is about to be
received while the first body runs. -/
def toBreak (n : ℕ) : List Choice :=
  finish (items 2) ++ finish (items n) ++ [.turn, .finish 0 .success .null]

def outerLoop : LineageId := "initial:outer:loop:outer:1"

def ClosesOuter (m m' : Machine) : Prop :=
  m'.sched.completions.length = m.sched.completions.length + 1 ∧
    m'.sched.completions.getLast?.map (fun c => (c.record.nodeId, c.record.result.outcome,
      c.activation.loopLineages.get "outer")) = some ("stop", .success, some outerLoop) ∧
    (m.sched.loops.get outerLoop).map (·.closed) = some false

instance (m m' : Machine) : Decidable (ClosesOuter m m') :=
  inferInstanceAs (Decidable (_ ∧ _ ∧ _))

theorem closes_outer {m m' : Machine} (h : Reach breaking m) (hs : Step breaking m m')
    (hc : ClosesOuter m m') :
    ∃ c, Records breaking m c m' ∧ Closes breaking m.sched c outerLoop := by
  obtain ⟨hlen, hlast, hopen⟩ := hc
  rcases step_records breaking_valid (reach_microPath breaking_valid h).2 hs with
    ⟨-, he⟩ | ⟨c, _, _, hr, -⟩
  · rw [he] at hlen
    omega
  · refine ⟨c, hr, ?_⟩
    rw [hr.completions, List.getLast?_append, List.getLast?_singleton] at hlast
    simp only [Option.some_or, Option.map_some, Option.some.injEq, Prod.mk.injEq] at hlast
    obtain ⟨hnode, hout, hnamed⟩ := hlast
    obtain ⟨ls, hls, hclosed⟩ := Option.map_eq_some_iff.mp hopen
    refine ⟨by simp [Completion.ok, hout], ?_, ?_, ls, hls, hclosed⟩
    · rw [hnode]
      decide +kernel
    · rw [hnode]
      exact hnamed

end Sample

theorem Descends.root_of_separate {starts : List Start} {roots : List RunId} {r : RunId}
    (hsep : ∀ s ∈ starts, ∀ o ∈ s.origins, o ∉ roots) (h : Descends starts roots r) :
    r ∈ roots := by
  induction h with
  | root hr => exact hr
  | route hs ho _ ih => exact absurd ih (hsep _ hs _ ho)

/-- The inner loop has a second item: its body starts again after the Break,
though neither the inner loop nor what led to it was running then. -/
theorem break_nested_refills : ∃ job m c m' m'' key, job.ir.Valid ∧ Reach job m ∧
    Records job m c m' ∧ Closes job m.sched c key ∧ ReflTransGen (Step job) m' m'' ∧
    ¬BreakHolds m.sched key m''.sched := by
  obtain ⟨m, m', m'', hm, hm', hm'', hc, hsep, s, hs⟩ : ∃ m m' m'',
      Sample.after Sample.breaking (Sample.toBreak 2) = some m ∧
      m.next Sample.breaking .receive = some m' ∧
      m'.runScript Sample.breaking (Sample.finish .null) = some m'' ∧ Sample.ClosesOuter m m' ∧
      (∀ s ∈ m''.sched.starts, ∀ o ∈ s.origins, o ∉ m.sched.inflight.map Flight.run) ∧
      ∃ s ∈ m''.sched.starts.drop m.sched.starts.length,
        Sample.outerLoop ∈ s.task.activation.loopLineages.values ∧
        s.flight.run ∉ m.sched.inflight.map Flight.run := by
    refine ⟨_, _, _, (Option.some_get (by decide +kernel)).symm,
      (Option.some_get (by decide +kernel)).symm, (Option.some_get (by decide +kernel)).symm, ?_⟩
    decide +kernel
  have hreach := Sample.reach_after hm
  have hstep := Machine.step_of_next hm'
  obtain ⟨c, hr, hcl⟩ := Sample.closes_outer hreach hstep hc
  refine ⟨_, m, c, m', m'', _, Sample.breaking_valid, hreach, hr, hcl,
    Machine.reach_of_runScript hm'', fun hb => ?_⟩
  exact hs.2.2 ((hb.starts s hs.1 hs.2.1).root_of_separate hsep)

/-- The inner loop has one item, so the Break keeps its promise. -/
theorem breakHolds_of_nested_done_single : ∃ m m' m'', Reach Sample.breaking m ∧
    Step Sample.breaking m m' ∧ ReflTransGen (Step Sample.breaking) m' m'' ∧
    BreakHolds m.sched Sample.outerLoop m''.sched := by
  obtain ⟨m, m', m'', hm, hm', hm'', hc, hdone⟩ : ∃ m m' m'',
      Sample.after Sample.breaking (Sample.toBreak 1) = some m ∧
      m.next Sample.breaking .receive = some m' ∧
      m'.runScript Sample.breaking (Sample.finish .null) = some m'' ∧ Sample.ClosesOuter m m' ∧
      ∀ p ∈ m.sched.loops, p.2.parentLineages = [] ∨ ¬p.2.canOpen := by
    refine ⟨_, _, _, (Option.some_get (by decide +kernel)).symm,
      (Option.some_get (by decide +kernel)).symm, (Option.some_get (by decide +kernel)).symm, ?_⟩
    decide +kernel
  have hreach := Sample.reach_after hm
  have hstep := Machine.step_of_next hm'
  have hrun := Machine.reach_of_runScript hm''
  obtain ⟨c, hr, hcl⟩ := Sample.closes_outer hreach hstep hc
  refine ⟨m, m', m'', hreach, hstep, hrun,
    breakHolds_of_nested_done Sample.breaking_valid hreach hr hcl (fun k ls hls hn => ?_) hrun⟩
  refine (hdone _ (Dict.mem_of_get hls)).resolve_left (fun he => ?_)
  replace he : ls.parentLineages = [] := he
  cases hn with
  | direct hk => simp [he, Dict.values] at hk
  | through hk => simp [he, Dict.values] at hk

end Raticode.Rattish
