import Mathlib.Data.List.Perm.Subperm
import Raticode.RattishConcurrency

/-! The concurrency limit over whole runs. Processing a completion settles the
loops with the group of the completed activation already gone. -/
namespace Raticode.Rattish
open OrderedDict Relation Components

/-- The completed activation leaves work behind in its own group: a loop opens an
iteration with routes, any other node takes a route. A Break settles the loops
before it takes a route. -/
def GoesOn (job : Job) (st : Sched) (c : Completion) : Prop :=
  c.ok ∧
  match (job.ir.node c.record.nodeId).type with
  | .loop => ∃ ls, (st.recordCompletion job c).loopStateOf job c = some ls ∧ ls.canOpen ∧
      ls.routes ≠ []
  | .break => False
  | .other _ => (st.recordCompletion job c).routesOf job c ≠ []

/-- A group with live work that the completion does not end: a queued activation that
a Break does not discard, another running activation, or what the completed one
leaves behind. -/
inductive Kept (job : Job) (st : Sched) (c : Completion) : GroupId → Prop
  | queued {s : Signal} : s ∈ st.pending → (∀ key, Closes job st c key →
      s.activation.loopLineages.get ((job.ir.node c.record.nodeId).loopNodeId.getD "") ≠ some key) →
      Kept job st c s.activation.groupId
  | running {k : NodeId × GroupId} : k ∈ st.running.erase (c.record.nodeId, c.activation.groupId) →
      Kept job st c k.2
  | next : GoesOn job st c → Kept job st c c.activation.groupId

/-- The completion makes `_process_completion` settle the loops. -/
def Settles (job : Job) (st : Sched) (c : Completion) : Prop :=
  (c.ok ∧ ((job.ir.node c.record.nodeId).type = .loop ∨ (job.ir.node c.record.nodeId).type = .break ∨
    (job.ir.node c.record.nodeId).finish ≠ some .fail)) ∨
  (¬c.ok ∧ (st.deferLoopFailure c.activation c.record.result.error).isSome)

/-- In every loop with more to open, an active iteration in which another loop has
more to open (or a Break has routes to take) keeps some live work. -/
def Sustained (job : Job) (st : Sched) (c : Completion) : Prop :=
  ∀ key ls, st.loops.get key = some ls → ls.canOpen → ¬Closes job st c key →
    ∀ g ∈ ls.activeGroups,
      (∃ k l, st.loops.get k = some l ∧ l.canOpen ∧ ¬Closes job st c k ∧ Sched.under k g = true) ∨
        ((job.ir.node c.record.nodeId).type = .break ∧
          (job.ir.node c.record.nodeId).routes ≠ [] ∧ Sched.under c.activation.groupId g = true) →
      ∃ h, Kept job st c h ∧ Sched.under h g = true

variable {job : Job} {c : Completion} {st st₀ st' s s' : Sched} {extra : List GroupId}

/-- A state in the processing of `c`. -/
structure Fine (job : Job) (c : Completion) (extra : List GroupId) (s : Sched) : Prop where
  wf : WellFormed job s
  last : s.completions.getLast? = some c
  nodup : s.loops.keys.Nodup
  bounded : Bounded extra s

section Stages

theorem Fine.mem (h : Fine job c extra s) : c ∈ s.completions := List.mem_of_getLast? h.last

theorem Fine.weaken {extra' : List GroupId} (h : Fine job c extra s)
    (he : ∀ x ∈ extra', x ∈ extra) : Fine job c extra' s :=
  { h with bounded := h.bounded.frame rfl (fun _ _ hun =>
      hun.mono (fun _ l hl ho => ⟨l, hl, ho⟩) (fun _ hx _ => .inl hx) (fun x hx => .inr (he x hx))) }

theorem Fine.same (h : Fine job c extra s) (hwf : WellFormed job s')
    (hc : s'.completions = s.completions) (hp : s'.pending = s.pending)
    (hr : s'.running = s.running) (hl : s'.loops = s.loops) : Fine job c extra s' := by
  have hlive : s'.liveGroups = s.liveGroups := by simp [Sched.liveGroups, hp, hr]
  exact ⟨hwf, hc ▸ h.last, hl ▸ h.nodup, h.bounded.frame hl (fun _ _ hun =>
    hun.mono (fun _ l hl' ho => ⟨l, hl ▸ hl', ho⟩) (fun _ hx _ => .inl (hlive ▸ hx))
      (fun _ => .inr))⟩

theorem Fine.fail (h : Fine job c extra s) (e : RuntimeErrorInfo) :
    Fine job c extra { s with error := some e } :=
  h.same (h.wf.frame_same rfl rfl rfl rfl rfl (.refl _) (fun _ _ _ => id) (.of_eq rfl)
    (h.wf.loops_eq rfl (fun _ => id))) rfl rfl rfl rfl

theorem Fine.defer (h : Fine job c extra s) (es : List RuntimeErrorInfo) :
    Fine job c extra { s with deferredLoopFailures := es } :=
  h.same (h.wf.frame_same rfl rfl rfl rfl rfl (.refl _) (fun _ _ _ => id) (.of_eq rfl)
    (h.wf.loops_eq rfl (fun _ => id))) rfl rfl rfl rfl

theorem Fine.latch (h : Fine job c extra s) : Fine job c extra (s.latchCompleted c) :=
  h.same h.wf.latch rfl rfl rfl rfl

theorem fine_record (hwf : WellFormed job st) (hnd : st.loops.keys.Nodup) (hb : Bounded [] st)
    (hp : Pops job st c st₀) :
    Fine job c [c.activation.groupId] (st₀.recordCompletion job c) := by
  have hloops : (st₀.recordCompletion job c).loops = st.loops := by
    rw [← pops_loops hp]
    rfl
  refine ⟨hwf.complete hp, by simp [Sched.recordCompletion], hloops ▸ hnd,
    hb.frame hloops (fun _ _ hun => hun.mono (fun _ l hl ho => ⟨l, hloops ▸ hl, ho⟩)
      (fun x hx _ => .inl ?_) (fun x hx => .inl ?_))⟩
  · simp only [Sched.liveGroups, Sched.recordCompletion, (pops_frame hp).1, (pops_frame hp).2.1,
      List.mem_append] at hx
    exact List.mem_append.mpr (hx.imp id (fun hx => (List.erase_sublist.map _).subset hx))
  · obtain rfl := List.mem_singleton.mp hx
    have hin : c.flight.key ∈ st.running := hwf.running.mem_iff.mpr
      (List.mem_map_of_mem ((pops_inflight hp).mem_iff.mpr List.mem_cons_self))
    exact List.mem_append_right _ (List.mem_map.mpr ⟨_, hin, rfl⟩)

theorem Fine.settle (hv : job.ir.Valid) (h : Fine job c extra s)
    (hextra : ∀ x ∈ extra, x = c.activation.groupId) (hsafe : SettleSafe extra s)
    (hs : s.settleLoopGroups = .ok s') : Fine job c extra s' ∧ ∀ k, Working s' k := by
  obtain ⟨_, _, hset, hw⟩ := settle_bounded hv h.wf h.bounded
    (fun x hx => ⟨c.activation, (h.wf.of_completion h.mem).1, (hextra x hx).symm⟩) h.nodup hsafe hs
  refine ⟨⟨hset.wf, ?_, hset.keys ▸ h.nodup, hset.bounded⟩, hw⟩
  rw [workPath_completions (work_of_quiet (@settle_path job c _ _ hs))]
  exact h.last

theorem settleSafe_of_working (hb : Bounded [] s) (hw : ∀ k, Working s k) : SettleSafe [] s := by
  intro key ls hls ho g hg hun
  cases hun with
  | busy hbusy => exact hbusy
  | loop k l hl hol hu =>
    obtain ⟨g', hg', x, hx, hu'⟩ := hw k l hl hol
    obtain ⟨i, -, rfl⟩ := (hb k l hl).named g' hg'
    refine ⟨x, hx, under_iff.mpr ((under_iff.mp hu).trans (.trans ?_ (under_iff.mp hu')))⟩
    rw [comps_iterationGroup]
    exact List.prefix_append _ _
  | extra x hx _ => simp at hx

theorem merge_live (hwf : WellFormed job s) {node : NodeId} {lineage : LineageId} {h : GroupId}
    (hh : ¬RootName h) : h ∈ (s.mergeLockedSignals node lineage).liveGroups ↔ h ∈ s.liveGroups := by
  unfold Sched.mergeLockedSignals
  split
  · rfl
  · rfl
  next first rest hone hsig =>
  cases rest with
  | nil => exact absurd rfl hone
  | cons second rest =>
    obtain rfl := hwf.two_signals hsig
    have hmem : ∀ x ∈ first :: second :: rest, x ∈ s.pending ∧
        x.activation.lineageId = rootLineage := by
      intro x hx
      rw [← hsig] at hx
      simp only [List.mem_filter, Sched.pendingOf, decide_eq_true_eq] at hx
      exact ⟨hx.1.1, hx.2⟩
    have hname := hwf.rootName_merged hmem
    simp only [Sched.liveGroups, List.map_append, List.mem_append]
    refine or_congr_left ⟨fun hx => ?_, fun hx => ?_⟩
    · rcases hx with hx | hx
      · obtain ⟨x, hm, rfl⟩ := List.mem_map.mp hx
        exact List.mem_map_of_mem (List.mem_filter.mp hm).1
      · obtain rfl := List.mem_singleton.mp hx
        exact absurd hname hh
    · obtain ⟨x, hm, rfl⟩ := List.mem_map.mp hx
      refine .inl (List.mem_map_of_mem (List.mem_filter.mpr ⟨hm, ?_⟩))
      -- what is merged away belongs to the root lineage
      have hl : x.activation.lineageId ≠ rootLineage :=
        fun hl => hh ((hwf.placedPending x hm).of_root hl).1
      simp [hl]

theorem Fine.merge (h : Fine job c extra s) {node : NodeId} {lineage : LineageId}
    (hstarts : ∀ x ∈ s.starts, x.task.node = node → x.task.activation.lineageId ≠ lineage) :
    Fine job c extra (s.mergeLockedSignals node lineage) := by
  have hsame : (s.mergeLockedSignals node lineage).loops = s.loops ∧
      (s.mergeLockedSignals node lineage).completions = s.completions := by
    unfold Sched.mergeLockedSignals
    split <;> exact ⟨rfl, rfl⟩
  refine ⟨h.wf.merge hstarts, hsame.2 ▸ h.last, hsame.1 ▸ h.nodup,
    h.bounded.frame hsame.1 (fun key i hun => ?_)⟩
  refine hun.mono (fun _ l hl ho => ⟨l, hsame.1 ▸ hl, ho⟩) (fun x hx hu => .inl ?_) (fun _ => .inr)
  exact (merge_live h.wf (not_rootName_of_under (under_iff.mp hu))).mp hx

theorem emitted_eq (job : Job) (s : Sched) (c : Completion) :
    ∃ news, s.enqueueRoutes job c = s.addSignals news ∧
      s.Emits c.activation [c.run] ((s.routesOf job c).map (·.target)) news :=
  Sched.enqueue_foldl (fun r : Route => r.target) c.activation [c.run] (s.routesOf job c) s

theorem Fine.enqueueRoutes (hv : job.ir.Valid) (h : Fine job c extra s)
    (hextra : s.routesOf job c = [] ∨ c.activation.groupId ∈ extra) :
    Fine job c extra (s.enqueueRoutes job c) := by
  obtain ⟨news, heq, hem⟩ := emitted_eq job s c
  rw [heq]
  refine ⟨h.wf.emit hv h.mem hem, h.last, h.nodup, h.bounded.frame rfl (fun key i hun => ?_)⟩
  have hloops : ∀ (key' : LineageId) (l : LoopState), (s.addSignals news).loops.get key' = some l →
      l.canOpen → ∃ l', s.loops.get key' = some l' ∧ l'.canOpen := fun _ l hl ho => ⟨l, hl, ho⟩
  refine hun.mono hloops (fun x hx _ => ?_) (fun _ => .inr)
  simp only [Sched.liveGroups, Sched.addSignals, List.map_append, List.mem_append] at hx
  rcases hx with (hx | hx) | hx
  · exact .inl (List.mem_append_left _ hx)
  · obtain ⟨sig, hs, rfl⟩ := List.mem_map.mp hx
    rw [(hem.shape sig hs).2.2]
    rcases hextra with hnil | hextra
    · have := (hem.shape sig hs).1
      simp [hnil] at this
    · exact .inr hextra
  · exact .inl (List.mem_append_right _ hx)

theorem live_enqueueRoutes {x : GroupId} (hx : x ∈ s.liveGroups) :
    x ∈ (s.enqueueRoutes job c).liveGroups := by
  obtain ⟨news, heq, -⟩ := emitted_eq job s c
  rw [heq]
  simp only [Sched.liveGroups, Sched.addSignals, List.map_append, List.mem_append] at hx ⊢
  exact hx.imp Or.inl id

theorem live_group_of_route (hr : s.routesOf job c ≠ []) :
    c.activation.groupId ∈ (s.enqueueRoutes job c).liveGroups := by
  obtain ⟨r, hm⟩ := List.exists_mem_of_ne_nil _ hr
  have hq := Sched.enqueue_foldl_queued (fun r : Route => r.target) c.activation [c.run]
    (s.routesOf job c) s hm
  replace hq : (s.enqueueRoutes job c).isQueued r.target c.activation.groupId = true := hq
  exact Sched.mem_liveGroups_of_isQueued hq

theorem Fine.openLoop (hv : job.ir.Valid) (h : Fine job c [c.activation.groupId] s) (hok : c.ok)
    (ht : (job.ir.node c.record.nodeId).type = .loop) (hnew : s.loops.get c.loopKey = none)
    (ho : s.openLoop job c = .ok s') :
    Fine job c [c.activation.groupId] s' ∧ Working s' c.loopKey ∧
      (∀ ls, s'.loops.get c.loopKey = some ls → ∀ g ∈ ls.activeGroups, s'.Busy g) ∧
      (∀ k ≠ c.loopKey, s'.loops.get k = s.loops.get k) ∧
      (∀ x ∈ s.liveGroups, x ∈ s'.liveGroups) ∧
      ∀ ls, s.loopStateOf job c = some ls → ls.canOpen → ls.routes ≠ [] →
        ls.nextGroup ∈ s'.liveGroups := by
  unfold Sched.openLoop at ho
  split at ho
  · simp at ho
  next ls hls =>
  obtain ⟨hkey, -, -, -, -, -, -, hindex, -, hactive⟩ := loopStateOf_eq_some hls
  rw [← hkey] at hnew ⊢
  have hself : Dict.get (s.loops.set ls.lineageId ls) ls.lineageId = some ls :=
    Dict.get_set_self _ _ _
  have hwf := h.wf.openLoop h.mem hok ht hls hnew
  have hcolon := h.wf.colon_free hv h.mem
  have hb : Bounded [c.activation.groupId] { s with loops := s.loops.set ls.lineageId ls } := by
    intro k l hl
    simp only [Dict.get_set] at hl
    split_ifs at hl with hk
    · obtain rfl := Option.some.inj hl
      refine ⟨by simp [hactive], by simp [hactive], ⟨[], by simp, ?_⟩, ?_⟩
      · exact fun i hi => absurd hi (by simp [hindex])
      · exact fun _ i hi => absurd hi (by simp [hindex])
    · refine (h.bounded k l hl).mono (fun i hun => ?_)
      cases hun with
      | busy hbusy => exact .busy hbusy
      | loop k' l' hl' hol hu =>
        simp only [Dict.get_set] at hl'
        split_ifs at hl' with hk'
        · -- an iteration above the new loop lies above the completed activation
          subst hk'
          rw [hkey] at hu
          refine .extra _ List.mem_cons_self (under_iff.mpr ?_)
          exact prefix_loopLineage (h.wf.loopName hv hl) hcolon (under_iff.mp hu)
        · exact .loop k' l' hl' hol hu
      | extra x hx hu => exact .extra x hx hu
  have hstart : Settling job [c.activation.groupId]
      { s with loops := s.loops.set ls.lineageId ls } [ls.lineageId] []
      { s with loops := s.loops.set ls.lineageId ls } := by
    refine ⟨hwf, hb, fun x hx => ?_, rfl, fun _ => id, fun _ _ _ _ _ => id, fun _ _ => rfl, by simp⟩
    exact ⟨c.activation, (hwf.of_completion h.mem).1, (List.mem_singleton.mp hx).symm⟩
  have hcomp := workPath_completions (work_of_quiet (@fillLoopCapacity_path job c _ _ _ ho))
  simp only [Sched.fillLoopCapacity, hself] at ho
  obtain ⟨hset, hw, hbusy⟩ := hstart.fill hv List.mem_cons_self (by simp)
    (fun l l' hl hl' => by rw [Option.some.inj (hl.symm.trans hl')])
    (fun l hl g hg => by
      obtain rfl := Option.some.inj (hself.symm.trans hl)
      simp [hactive] at hg) ho
  refine ⟨⟨hset.wf, hcomp ▸ h.last, ?_, hset.bounded⟩, hw, hbusy, fun k hk => ?_,
    fun x hx => fill_live ho hx, fun l hl hol hr => ?_⟩
  · rw [hset.keys]
    exact Dict.nodup_keys_set h.nodup _ _
  · rw [hset.rest k (by simpa using hk)]
    exact Dict.get_set_ne _ _ (fun he => hk he.symm)
  · obtain rfl := Option.some.inj (hls.symm.trans hl)
    refine fill_opens hself hol.1 ?_ hr ho
    simp only [LoopState.hasCapacity, hactive, List.length_nil, Nat.cast_zero, decide_eq_true_eq]
    exact hol.2

theorem Fine.close (h : Fine job c extra s) :
    Fine job c extra (s.closeLoop c.activation (job.ir.node c.record.nodeId)) := by
  unfold Sched.closeLoop
  simp only
  split
  · exact h.fail _
  next key hkey =>
    split
    · exact h
    next ls hls =>
      split
      · exact h
      · refine ⟨h.wf.close hls _, h.last, ?_, ?_⟩
        · exact Dict.nodup_keys_set h.nodup _ _
        have hback : ∀ g, Unfinished extra { s with
            loops := s.loops.set key { ls with closed := true }
            pending := s.pending.filter (fun x => !decide (x.activation.loopLineages.get
              ((job.ir.node c.record.nodeId).loopNodeId.getD "") = some key)) } g →
            Unfinished extra s g := by
          intro g hun
          refine hun.mono (fun k l hl ho => ?_) (fun x hx _ => .inl ?_) (fun _ => .inr)
          · simp only [Dict.get_set] at hl
            split_ifs at hl
            · obtain rfl := Option.some.inj hl
              simp [LoopState.canOpen, LoopState.hasNext] at ho
            · exact ⟨l, hl, ho⟩
          · simp only [Sched.liveGroups, List.mem_append] at hx ⊢
            exact hx.imp (fun hx => (List.filter_sublist.map _).subset hx) id
        intro k l hl
        simp only [Dict.get_set] at hl
        split_ifs at hl with hk
        · obtain rfl := Option.some.inj hl
          subst hk
          obtain ⟨hlen, hnamed, hfits, -⟩ := (h.bounded key ls hls).mono (fun i => hback _)
          refine ⟨hlen, hnamed, hfits, fun ho => ?_⟩
          simp [LoopState.canOpen, LoopState.hasNext] at ho
        · exact (h.bounded k l hl).mono (fun i => hback _)

end Stages

section Courses

theorem busy_of_under {g k : GroupId} (h : s.Busy k) (hu : Sched.under k g = true) : s.Busy g := by
  obtain ⟨x, hx, hxk⟩ := h
  exact ⟨x, hx, under_iff.mpr ((under_iff.mp hu).trans (under_iff.mp hxk))⟩

theorem settleSafe_of_sustained (hsus : Sustained job st c) (hb : Bounded [] st)
    (hold : ∀ key ls, s.loops.get key = some ls → ls.canOpen →
      (st.loops.get key = some ls ∧ ¬Closes job st c key) ∨
        ((∀ g ∈ ls.activeGroups, s.Busy g) ∧ s.Busy key))
    (hkept : ∀ h, Kept job st c h → ¬RootName h → s.Busy h)
    (hextra : ∀ x ∈ extra, x = c.activation.groupId ∧
      (job.ir.node c.record.nodeId).type = .break ∧
      (job.ir.node c.record.nodeId).routes ≠ []) : SettleSafe extra s := by
  intro key ls hls ho g hg hun
  rcases hold key ls hls ho with ⟨hls₀, hc₀⟩ | ⟨hbusy, -⟩
  swap
  · exact hbusy g hg
  obtain ⟨i, -, rfl⟩ := (hb key ls hls₀).named g hg
  have hfrom : (∃ h, Kept job st c h ∧ Sched.under h (iterationGroup key i) = true) →
      s.Busy (iterationGroup key i) := by
    rintro ⟨h, hk, hu⟩
    exact busy_of_under (hkept h hk (not_rootName_of_under (under_iff.mp hu))) hu
  cases hun with
  | busy hbusy => exact hbusy
  | loop k l hl hol hu =>
    rcases hold k l hl hol with ⟨hl₀, hc'⟩ | ⟨-, hbusy⟩
    · exact hfrom (hsus key ls hls₀ ho hc₀ _ hg (.inl ⟨k, l, hl₀, hol, hc', hu⟩))
    · exact busy_of_under hbusy hu
  | extra x hx hu =>
    obtain ⟨rfl, ht, hr⟩ := hextra x hx
    exact hfrom (hsus key ls hls₀ ho hc₀ _ hg (.inr ⟨ht, hr, hu⟩))

theorem busy_self {g : GroupId} (h : g ∈ s.liveGroups) : s.Busy g :=
  ⟨g, h, under_iff.mpr List.prefix_rfl⟩

theorem kept_record (hp : Pops job st c st₀) {h : GroupId} (hk : Kept job st c h) :
    h ∈ (st₀.recordCompletion job c).liveGroups ∨ (GoesOn job st c ∧ h = c.activation.groupId) := by
  cases hk with
  | queued hs _ =>
    refine .inl (List.mem_append_left _ ?_)
    simp only [Sched.recordCompletion, (pops_frame hp).1]
    exact List.mem_map_of_mem hs
  | running hr =>
    refine .inl (List.mem_append_right _ ?_)
    simp only [Sched.recordCompletion, (pops_frame hp).2.1]
    exact List.mem_map_of_mem hr
  | next hn => exact .inr ⟨hn, rfl⟩

theorem Fine.routed (hv : job.ir.Valid) (h : Fine job c extra s)
    (hextra : s.routesOf job c = [] ∨ c.activation.groupId ∈ extra) :
    ∃ u, s.routeCompletion job c = u.settleLoopGroups ∧ Fine job c extra u ∧ u.loops = s.loops ∧
      ∀ x ∈ ((s.latchCompleted c).enqueueRoutes job c).liveGroups, ¬RootName x →
        x ∈ u.liveGroups := by
  have hr : Fine job c extra ((s.latchCompleted c).enqueueRoutes job c) :=
    h.latch.enqueueRoutes hv hextra
  obtain ⟨news, heq, -⟩ := emitted_eq job (s.latchCompleted c) c
  have hsame : ((s.latchCompleted c).enqueueRoutes job c).starts = s.starts ∧
      ((s.latchCompleted c).enqueueRoutes job c).loops = s.loops := by
    rw [heq]
    exact ⟨rfl, rfl⟩
  have hlock := @locked_not_started job ((s.latchCompleted c).enqueueRoutes job c) s
    c.activation.lineageId (fun x hx m hm hl => by
      rw [hsame.1] at hx
      exact hl ▸ h.wf.unlocked x hx m hm)
  refine ⟨_, rfl, mergeUnlocked_induct (P := fun u => Fine job c extra u ∧ u.loops = s.loops ∧
    ∀ x ∈ ((s.latchCompleted c).enqueueRoutes job c).liveGroups, ¬RootName x → x ∈ u.liveGroups)
    (fun u node hn hu => ?_) hlock ⟨hr, hsame.2, fun _ hx _ => hx⟩⟩
  obtain ⟨hfine, hloops, hlive⟩ := hu
  refine ⟨hfine.merge hn, ?_, fun x hx hroot => (merge_live hfine.wf hroot).mpr (hlive x hx hroot)⟩
  unfold Sched.mergeLockedSignals
  split <;> exact hloops

theorem routesOf_record (hp : Pops job st c st₀) :
    (st₀.recordCompletion job c).routesOf job c = (st.recordCompletion job c).routesOf job c ∧
      (st₀.recordCompletion job c).loopStateOf job c =
        (st.recordCompletion job c).loopStateOf job c := by
  cases hp <;> exact ⟨rfl, rfl⟩

theorem routesOf_eq_nil (h : (job.ir.node c.record.nodeId).routes = []) :
    s.routesOf job c = [] := by
  refine List.eq_nil_iff_forall_not_mem.mpr (fun r hr => ?_)
  have := mem_of_mem_matchingRoutes hr
  simp [h] at this

theorem Fine.other (hv : job.ir.Valid) (hp : Pops job st c st₀) (hb : Bounded [] st)
    (h : Fine job c [c.activation.groupId] (st₀.recordCompletion job c)) {name : String}
    (ht : (job.ir.node c.record.nodeId).type = .other name) (hsus : Sustained job st c)
    (hs : (st₀.recordCompletion job c).routeCompletion job c = .ok s') : Fine job c [] s' := by
  obtain ⟨u, heq, hu, hloops, hlive⟩ := h.routed hv (.inr List.mem_cons_self)
  rw [heq] at hs
  have hnot : ∀ key, ¬Closes job st c key := by
    intro key hc
    have := hc.type
    simp [ht] at this
  refine ((hu.weaken (List.nil_subset _)).settle hv (by simp) ?_ hs).1
  refine settleSafe_of_sustained hsus hb (fun key ls hls _ => .inl ⟨?_, hnot key⟩)
    (fun x hk hroot => busy_self (hlive x ?_ hroot)) (by simp)
  · rw [hloops, show (st₀.recordCompletion job c).loops = st₀.loops from rfl, pops_loops hp] at hls
    exact hls
  · rcases kept_record hp hk with hx | ⟨hg, rfl⟩
    · exact live_enqueueRoutes (s := (st₀.recordCompletion job c).latchCompleted c) hx
    · have hr := hg.2
      simp only [ht, ← (routesOf_record hp).1] at hr
      exact live_group_of_route (s := (st₀.recordCompletion job c).latchCompleted c) hr

theorem Fine.route_again (hv : job.ir.Valid) (h : Fine job c extra s)
    (hw : ∀ k, Working s k)
    (hextra : s.routesOf job c = [] ∨ c.activation.groupId ∈ extra)
    (hs : s.routeCompletion job c = .ok s') : Fine job c [] s' := by
  obtain ⟨u, heq, hu, hloops, hlive⟩ := h.routed hv hextra
  rw [heq] at hs
  have hu' : Fine job c [] u := hu.weaken (by simp)
  refine (hu'.settle hv (by simp) (settleSafe_of_working hu'.bounded ?_) hs).1
  intro k ls hls ho
  obtain ⟨g, hg, x, hx, hux⟩ := hw k ls (hloops ▸ hls) ho
  obtain ⟨i, -, rfl⟩ := (h.bounded k ls (hloops ▸ hls)).named g hg
  refine ⟨_, hg, x, hlive x ?_ (not_rootName_of_under (under_iff.mp hux)), hux⟩
  exact live_enqueueRoutes (s := s.latchCompleted c) hx

theorem closedBy_same (hp : Pops job st c st₀) (hok : c.ok)
    (ht : (job.ir.node c.record.nodeId).type = .break) (hnot : ∀ key, ¬Closes job st c key) :
    (st₀.closedBy job c).loops = st.loops ∧
      (st₀.closedBy job c).liveGroups = (st₀.recordCompletion job c).liveGroups := by
  have hloops : (st₀.recordCompletion job c).loops = st.loops := by
    rw [← pops_loops hp]
    rfl
  unfold Sched.closedBy Sched.closeLoop
  simp only
  split
  · exact ⟨hloops, rfl⟩
  next key hkey =>
    split
    · exact ⟨hloops, rfl⟩
    next ls hls =>
      split
      · exact ⟨hloops, rfl⟩
      next hclosed =>
        exact absurd ⟨hok, ht, hkey, ls, hloops ▸ hls, by simpa using hclosed⟩ (hnot key)

theorem closedBy_sustains (hp : Pops job st c st₀) (hok : c.ok)
    (ht : (job.ir.node c.record.nodeId).type = .break) :
    (∀ key ls, (st₀.closedBy job c).loops.get key = some ls → ls.canOpen →
      st.loops.get key = some ls ∧ ¬Closes job st c key) ∧
    ∀ h, Kept job st c h → h ∈ (st₀.closedBy job c).liveGroups := by
  have hstay : ¬GoesOn job st c := fun hg => by simpa [ht] using hg.2
  by_cases hcl : ∃ key, Closes job st c key
  · obtain ⟨key, hcl⟩ := hcl
    obtain ⟨ls, hls, hopen⟩ := hcl.opened
    have hsingle : ∀ k, Closes job st c k → k = key :=
      fun k hk => Option.some.inj (hk.named.symm.trans hcl.named)
    rw [closedBy_eq hcl.named (pops_loops hp ▸ hls) hopen]
    refine ⟨fun k l hl ho => ?_, fun h hk => ?_⟩
    · simp only [Dict.get_set, pops_loops hp] at hl
      split_ifs at hl with hkey
      · obtain rfl := Option.some.inj hl
        simp [LoopState.canOpen, LoopState.hasNext] at ho
      · exact ⟨hl, fun hk => hkey (hsingle k hk).symm⟩
    · cases hk with
      | queued hs hnot =>
        refine List.mem_append_left _ (List.mem_map_of_mem (List.mem_filter.mpr ⟨?_, ?_⟩))
        · rw [(pops_frame hp).1]
          exact hs
        · simpa using hnot key hcl
      | running hr =>
        refine List.mem_append_right _ ?_
        simp only [Sched.recordCompletion, (pops_frame hp).2.1]
        exact List.mem_map_of_mem hr
      | next hg => exact absurd hg hstay
  · push Not at hcl
    obtain ⟨hloops, hlive⟩ := closedBy_same hp hok ht hcl
    refine ⟨fun k l hl _ => ⟨hloops ▸ hl, hcl k⟩, fun h hk => ?_⟩
    rw [hlive]
    exact (kept_record hp hk).resolve_right (fun hg => hstay hg.1)

theorem Fine.break (hv : job.ir.Valid) (hp : Pops job st c st₀) (hb : Bounded [] st)
    (h : Fine job c [c.activation.groupId] (st₀.recordCompletion job c)) (hok : c.ok)
    (ht : (job.ir.node c.record.nodeId).type = .break) (hsus : Sustained job st c)
    (hs : (st₀.closedBy job c).settleLoopGroups = .ok s) (he : s.endBranch job c = .ok s') :
    Fine job c [] s' := by
  let extra : List GroupId :=
    if (job.ir.node c.record.nodeId).routes = [] then [] else [c.activation.groupId]
  have hextra : ∀ x ∈ extra, x = c.activation.groupId ∧
      (job.ir.node c.record.nodeId).routes ≠ [] := by
    intro x hx
    by_cases hr : (job.ir.node c.record.nodeId).routes = []
    · simp [extra, hr] at hx
    · exact ⟨by simpa [extra, hr] using hx, hr⟩
  have hclosed : Fine job c extra (st₀.closedBy job c) :=
    Fine.weaken h.close (fun x hx => by simp [(hextra x hx).1])
  obtain ⟨hloops, hkept⟩ := closedBy_sustains hp hok ht
  obtain ⟨hfine, hw⟩ := hclosed.settle hv (fun x hx => (hextra x hx).1)
    (settleSafe_of_sustained hsus hb (fun key ls hls ho => .inl (hloops key ls hls ho))
      (fun x hk _ => busy_self (hkept x hk)) (fun x hx => ⟨(hextra x hx).1, ht, (hextra x hx).2⟩)) hs
  simp only [Sched.endBranch, ht, reduceCtorEq, false_and, ↓reduceIte] at he
  split_ifs at he
  · obtain rfl := Except.ok.inj he
    exact (hfine.fail _).weaken (by simp)
  · refine hfine.route_again hv hw ?_ he
    by_cases hr : (job.ir.node c.record.nodeId).routes = []
    · exact .inl (routesOf_eq_nil hr)
    · exact .inr (by simp [extra, hr])

theorem Fine.loop (hv : job.ir.Valid) (hp : Pops job st c st₀) (hb : Bounded [] st)
    (h : Fine job c [c.activation.groupId] (st₀.recordCompletion job c)) (hok : c.ok)
    (ht : (job.ir.node c.record.nodeId).type = .loop) (hsus : Sustained job st c)
    (hnew : st.loops.get c.loopKey = none)
    (ho : ((st₀.recordCompletion job c).latchCompleted c).openLoop job c = .ok s)
    {s₁ : Sched} (hs : s.settleLoopGroups = .ok s₁) (he : s₁.endBranch job c = .ok s') :
    Fine job c [] s' := by
  have hloops : ((st₀.recordCompletion job c).latchCompleted c).loops = st.loops := by
    rw [← pops_loops hp]
    rfl
  obtain ⟨hopen, hwork, hbusy, hrest, hlive, hfirst⟩ :=
    h.latch.openLoop hv hok ht (by rw [hloops]; exact hnew) ho
  have hnot : ∀ key, ¬Closes job st c key := by
    intro key hc
    have := hc.type
    simp [ht] at this
  have hopen' : Fine job c [] s := hopen.weaken (by simp)
  have hsafe : SettleSafe [] s := by
    refine settleSafe_of_sustained hsus hb (fun key ls hls hol => ?_) (fun x hk _ => ?_) (by simp)
    · by_cases hk : key = c.loopKey
      · subst hk
        obtain ⟨g, hg, hb'⟩ := hwork ls hls hol
        obtain ⟨i, -, rfl⟩ := (hopen'.bounded _ ls hls).named g hg
        refine .inr ⟨hbusy ls hls, busy_of_under hb' (under_iff.mpr ?_)⟩
        rw [comps_iterationGroup]
        exact List.prefix_append _ _
      · rw [hrest key hk, hloops] at hls
        exact .inl ⟨hls, hnot key⟩
    · rcases kept_record hp hk with hx | ⟨hg, rfl⟩
      · exact busy_self (hlive x hx)
      · have hl := hg.2
        simp only [ht] at hl
        obtain ⟨ls, hls, hol, hr⟩ := hl
        rw [← (routesOf_record hp).2] at hls
        refine ⟨ls.nextGroup, hfirst ls hls hol hr, under_iff.mpr ?_⟩
        rw [LoopState.nextGroup, (loopStateOf_eq_some hls).1, comps_iterationGroup,
          Completion.loopKey, comps_loopLineage (h.wf.colon_free hv h.mem), List.append_assoc]
        exact List.prefix_append _ _
  obtain ⟨hfine, hw⟩ := hopen'.settle hv (by simp) hsafe hs
  simp only [Sched.endBranch, ht, true_and] at he
  split_ifs at he with hfail hnone
  · obtain rfl := Except.ok.inj he
    exact hfine.fail _
  · obtain rfl := Except.ok.inj he
    exact hfine
  · refine hfine.route_again hv hw (.inl (routesOf_eq_nil ?_)) he
    have hknown := (hfine.wf.of_completion hfine.mem).2.1
    exact hv.finish_routes _ (IR.node_mem hknown).1 (Option.isSome_iff_ne_none.mpr hnone)

theorem deferLoopFailure_record (hp : Pops job st c st₀) {a : Activation}
    {e : Option RuntimeErrorInfo} :
    ((st₀.recordCompletion job c).deferLoopFailure a e).isSome = (st.deferLoopFailure a e).isSome := by
  have hloops : (st₀.recordCompletion job c).loops = st.loops := by
    rw [← pops_loops hp]
    rfl
  unfold Sched.deferLoopFailure
  rw [hloops]
  split <;> rfl

theorem processCompletion_fine (hv : job.ir.Valid) (hwf : WellFormed job st)
    (hnd : st.loops.keys.Nodup) (hb : Bounded [] st) (hp : Pops job st c st₀)
    (hcond : Settles job st c → Sustained job st c)
    (h : st₀.processCompletion job c = .ok s') : Fine job c [] s' := by
  have hrec := fine_record hwf hnd hb hp
  have hrec' : Fine job c [] (st₀.recordCompletion job c) := hrec.weaken (by simp)
  unfold Sched.processCompletion at h
  simp only at h
  split at h
  next hfail =>
    have hok : ¬c.ok := by simp [Completion.ok, hfail]
    have hnot : ∀ key, ¬Closes job st c key := fun key hc => hok hc.ok
    split at h
    next u hu =>
      have hsus := hcond (.inr ⟨hok, by rw [← deferLoopFailure_record hp, hu]; rfl⟩)
      unfold Sched.deferLoopFailure at hu
      split at hu
      · simp at hu
      · obtain rfl := Option.some.inj hu
        refine ((hrec'.defer _).settle hv (by simp) (settleSafe_of_sustained hsus hb
          (fun key ls hls _ => .inl ⟨?_, hnot key⟩) (fun x hk _ => busy_self ?_) (by simp)) h).1
        · rw [← pops_loops hp]
          exact hls
        · exact (kept_record hp hk).resolve_right (fun hg => hok hg.1.1)
    next =>
      obtain rfl := Except.ok.inj h
      exact hrec'.fail _
  next hne =>
    have hok : c.ok := fun he => hne he
    obtain ⟨s₂, h₂, h⟩ := bind_eq_ok.mp h
    obtain ⟨s₁, h₁, h₂⟩ := bind_eq_ok.mp h₂
    unfold Sched.loopBranch at h₁
    unfold Sched.breakBranch at h₂
    cases ht : (job.ir.node c.record.nodeId).type with
    | loop =>
      simp only [ht, ↓reduceIte] at h₁
      simp only [ht, reduceCtorEq, ↓reduceIte, Except.ok.injEq] at h₂
      subst h₂
      obtain ⟨s₀, h₀, h₁⟩ := bind_eq_ok.mp h₁
      exact hrec.loop hv hp hb hok ht (hcond (.inl ⟨hok, .inl ht⟩)) (hwf.loopKey_new hv hp) h₀ h₁ h
    | «break» =>
      simp only [ht, reduceCtorEq, ↓reduceIte, Except.ok.injEq] at h₁
      subst h₁
      simp only [ht, ↓reduceIte] at h₂
      exact hrec.break hv hp hb hok ht (hcond (.inl ⟨hok, .inr (.inl ht)⟩)) h₂ h
    | other name =>
      simp only [ht, reduceCtorEq, ↓reduceIte, Except.ok.injEq] at h₁ h₂
      subst h₁ h₂
      simp only [Sched.endBranch, ht, reduceCtorEq, false_and, ↓reduceIte] at h
      split_ifs at h with hfail
      · obtain rfl := Except.ok.inj h
        exact hrec'.fail _
      · exact hrec.other hv hp hb ht (hcond (.inl ⟨hok, .inr (.inr hfail)⟩)) h

end Courses

section Runs

/-- No loop is opened twice under one lineage. -/
theorem reach_loops_nodup (hv : job.ir.Valid) {m : Machine} (h : Reach job m) :
    m.sched.loops.keys.Nodup := by
  refine reach_invariant (P := fun st => st.loops.keys.Nodup) hv ?_ ?_ h
  · obtain ⟨news, heq⟩ := initial_eq job
    rw [heq]
    exact List.nodup_nil
  · intro st st' hwf hi hm
    cases micro_loops (fun _ _ => hwf.lineage) hm with
    | same he => exact he ▸ hi
    | opened _ _ _ _ _ _ _ he => exact he ▸ Dict.nodup_keys_set hi _ _
    | advanced _ _ _ _ he _ _ => exact he ▸ Dict.nodup_keys_set hi _ _

theorem idle_live (hi : Idle job st st') {x : GroupId} (hx : x ∈ st'.liveGroups) :
    x ∈ st.liveGroups := by
  cases hi with
  | @start _ s hs _ _ hd =>
    obtain ⟨hpend, hrun, -⟩ := dispatched_frame hd
    simp only [Sched.liveGroups, hpend, hrun, Sched.begun, Sched.begin, List.map_append,
      List.mem_append] at hx
    rcases hx with hx | hx | hx
    · exact List.mem_append_left _ ((List.filter_sublist.map _).subset hx)
    · exact List.mem_append_right _ hx
    · obtain rfl := List.mem_singleton.mp hx
      exact List.mem_append_left _ (List.mem_map_of_mem hs)
  | refuse | finishReplay | send => exact hx

theorem Bounded.idlePath (h : Bounded [] st) (hp : IdlePath job st st') : Bounded [] st' := by
  induction hp with
  | refl => exact h
  | @tail s s' _ hi ih =>
    have hl := idle_loops hi
    exact ih.frame hl (fun _ _ hun => hun.mono (fun _ l hl' ho => ⟨l, hl ▸ hl', ho⟩)
      (fun _ hx _ => .inl (idle_live hi hx)) (fun _ => .inr))

theorem Bounded.withinLimits (hv : job.ir.Valid) (hwf : WellFormed job st) (h : Bounded [] st) :
    WithinLimits st := by
  intro key ls hls is hnd hbusy
  obtain ⟨gs, hgs, hfits⟩ := (h key ls hls).fits
  have hsub : is.map (iterationGroup key) ⊆ gs := by
    intro g hg
    obtain ⟨i, hi, rfl⟩ := List.mem_map.mp hg
    have hun : Unfinished [] st (iterationGroup key i) := .busy (hbusy i hi)
    exact hfits i (hun.opened hv hwf (by simp) hls) hun
  have hmap : (is.map (iterationGroup key)).Nodup :=
    hnd.map (fun i j he => (iterationGroup_inj.mp he).2)
  calc is.length = (is.map (iterationGroup key)).length := (List.length_map _).symm
    _ ≤ gs.length := (List.subperm_of_subset hmap hsub).length_le
    _ ≤ _ := hgs

theorem runsWhile_bounded (hv : job.ir.Valid) {m : Machine}
    (h : RunsWhile job (fun st c => Settles job st c → Sustained job st c) m) :
    Bounded [] m.sched := by
  induction h with
  | boot =>
    refine Bounded.idlePath ?_ (startRunnable_path _)
    obtain ⟨news, heq, -, -⟩ := enqueueInitial_spec job.ir (Sched.fresh job)
    intro key ls hls
    rw [heq] at hls
    simp [Sched.addSignals, Sched.fresh] at hls
  | @step m m' hr hs hcond ih =>
    have hwf := (reach_microPath hv hr.reach).2
    rcases step_records hv hwf hs with ⟨hidle, -⟩ | ⟨c, st₀, st₁, hrec, hp, hproc, he⟩
    · exact ih.idlePath hidle
    · rw [he]
      exact (processCompletion_fine hv hwf (reach_loops_nodup hv hr.reach) ih hp (hcond c hrec)
        hproc).bounded.idlePath (resume_path st₁)

/-- In a run in which every completion that settles the loops leaves live work in each
active iteration that is to get more, no loop exceeds its concurrency limit, when
a completion has been processed or at any other time. -/
theorem withinLimits_of_sustained (hv : job.ir.Valid) {m : Machine}
    (h : RunsWhile job (fun st c => Settles job st c → Sustained job st c) m) :
    WithinLimits m.sched ∧ ∀ c st₀ st₁, Pops job m.sched c st₀ →
      (Settles job m.sched c → Sustained job m.sched c) →
      st₀.processCompletion job c = .ok st₁ → WithinLimits st₁ := by
  have hwf := (reach_microPath hv h.reach).2
  have hb := runsWhile_bounded hv h
  refine ⟨hb.withinLimits hv hwf, fun c st₀ st₁ hp hcond hproc => ?_⟩
  have hf := processCompletion_fine hv hwf (reach_loops_nodup hv h.reach) hb hp hcond hproc
  exact hf.bounded.withinLimits hv hf.wf

end Runs

/-- Two loops, each one item at a time: when the body of the first iteration is over,
the outer loop opens its second iteration and the inner loop of the first goes on. -/
theorem limits_exceeded_nested : ∃ job m c st₀ st₁, job.ir.Valid ∧ Reach job m ∧
    Pops job m.sched c st₀ ∧ st₀.processCompletion job c = .ok st₁ ∧ ¬WithinLimits st₁ := by
  obtain ⟨m, st₁, hm, hst, hmax, hbusy⟩ : ∃ m st₁, Sample.after Sample.nested
        (Sample.finish (Sample.items 2) ++ Sample.finish (Sample.items 2) ++
          [.turn, .finish 0 .success .null]) = some m ∧
      m.sched.channel.head?.bind (fun c => (Sched.processCompletion Sample.nested
        { m.sched with channel := m.sched.channel.tail } c).toOption) = some st₁ ∧
      (st₁.loops.get Sample.outerLoop).map (·.maxConcurrency) = some 1 ∧
      ∀ i ∈ [0, 1], ∃ h ∈ st₁.liveGroups,
        Sched.under h (iterationGroup Sample.outerLoop i) = true := by
    refine ⟨_, _, (Option.some_get (by decide +kernel)).symm,
      (Option.some_get (by decide +kernel)).symm, ?_⟩
    decide +kernel
  obtain ⟨c, hc, hproc⟩ := Option.bind_eq_some_iff.mp hst
  have hchannel : m.sched.channel = c :: m.sched.channel.tail :=
    (List.cons_head?_tail hc).symm
  have hok : Sched.processCompletion Sample.nested
      { m.sched with channel := m.sched.channel.tail } c = .ok st₁ := by
    cases hr : Sched.processCompletion Sample.nested
        { m.sched with channel := m.sched.channel.tail } c with
    | error f => simp [hr, Except.toOption] at hproc
    | ok s => simpa [hr, Except.toOption] using hproc
  refine ⟨_, m, c, _, st₁, Sample.nested_valid, Sample.reach_after hm, .channel hchannel, hok,
    fun hin => ?_⟩
  obtain ⟨ls, hls, hone⟩ := Option.map_eq_some_iff.mp hmax
  have := hin _ ls hls [0, 1] (by decide) hbusy
  rw [hone] at this
  exact absurd this (by decide)

/-- With one item for the inner loop both limits are kept. -/
theorem withinLimits_of_sustained_nested : ∃ m,
    RunsWhile Sample.nested (fun st c => Settles Sample.nested st c →
      Sustained Sample.nested st c) m ∧
    (m.sched.loops.get Sample.outerLoop).map (·.nextIndex) = some 2 ∧ WithinLimits m.sched := by
  obtain ⟨m, hm, hnext⟩ : ∃ m, (bootMachine Sample.nested).runScriptWhile Sample.nested
      (fun m => decide (∀ p ∈ m.sched.loops, p.2.canOpen → ∀ g ∈ p.2.activeGroups,
        ∀ q ∈ m.sched.loops, q.2.canOpen → ¬Sched.under q.1 g = true))
      (Sample.finish (Sample.items 2) ++ Sample.finish (Sample.items 1) ++ Sample.finish .null) =
        some m ∧ (m.sched.loops.get Sample.outerLoop).map (·.nextIndex) = some 2 := by
    refine ⟨_, (Option.some_get (by decide +kernel)).symm, ?_⟩
    decide +kernel
  have hrun := runsWhile_of_script (P := fun st c => Settles Sample.nested st c →
      Sustained Sample.nested st c) (fun m c m' _ ht _ _ => ?_) .boot hm
  · exact ⟨m, hrun, hnext, (withinLimits_of_sustained Sample.nested_valid hrun).1⟩
  · have htype : (Sample.nested.ir.node c.record.nodeId).type ≠ .break :=
      IR.forall_node (P := fun n => n.type ≠ .break) (by decide +kernel) (fun _ => by simp) _
    intro key ls hls ho _ g hg hunder
    rcases hunder with ⟨k, l, hl, hol, -, hu⟩ | ⟨hb, -⟩
    · exact absurd hu (of_decide_eq_true ht _ (Dict.mem_of_get hls) ho g hg _
        (Dict.mem_of_get hl) hol)
    · exact absurd hb htype

end Raticode.Rattish
