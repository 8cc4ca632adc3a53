import Raticode.RattishErase
import Raticode.Occurrences

/-! Replaying the records of a finished run. The k-th start of a key is matched
with the key's k-th record, and the records are released in their saved order. -/
namespace Raticode.Rattish
open OrderedDict Occurrences Relation

def Flight.replayKey (f : Flight) : ReplayKey := f.activation.key f.node

section Order

variable {job : Job} {st st' : Sched}

theorem WellFormed.inflight_nodup (h : WellFormed job st) : (st.inflight.map Flight.key).Nodup :=
  h.running.nodup_iff.mp (h.keys.sublist (List.sublist_append_right _ _))

/-- The starts of a node and lineage are its completions and then what is still in flight, in
order. -/
def Alternates (st : Sched) : Prop :=
  ∀ k, occurrences Flight.key (st.starts.map Start.flight) k =
    occurrences Flight.key (st.completions.map Completion.flight) k ++
      occurrences Flight.key st.inflight k

theorem Alternates.frame (h : Alternates st) (hs : st'.starts = st.starts)
    (hc : st'.completions = st.completions) (hf : st'.inflight.Perm st.inflight)
    (hnd : (st'.inflight.map Flight.key).Nodup) : Alternates st' := by
  intro k
  rw [hs, hc, occurrences_perm hf hnd]
  exact h k

theorem Alternates.micro (hv : job.ir.Valid) (hwf : WellFormed job st) (h : Alternates st)
    (hm : Micro job st st') : Alternates st' := by
  have hnd := (hwf.micro hv hm).inflight_nodup
  cases hm with
  | @complete st₀ c hp =>
    intro k
    show occurrences Flight.key (st₀.starts.map Start.flight) k =
      occurrences Flight.key ((st₀.completions ++ [c]).map Completion.flight) k ++
        occurrences Flight.key st₀.inflight k
    rw [(pops_frame hp).2.2.1, (pops_frame hp).2.2.2.1, h k,
      occurrences_perm (pops_inflight hp) hwf.inflight_nodup, List.map_append, occurrences_append,
      List.append_assoc, ← occurrences_append ([c].map Completion.flight)]
    rfl
  | work _ hw =>
    have hfields : st'.starts = st.starts ∧ st'.inflight = st.inflight := by
      cases hw with
      | latch _ => exact ⟨rfl, rfl⟩
      | quiet hq => exact ⟨quiet_starts hq, quiet_inflight hq⟩
    exact h.frame hfields.1 (work_completions hw) (.of_eq hfields.2) hnd
  | idle hi =>
    have hc : st'.completions = st.completions := idlePath_completions (.single hi)
    cases hi with
    | @start _ s _ _ _ hd =>
      intro k
      have hperm : st'.inflight.Perm (st.inflight ++ [(st.taskOf s).flight]) :=
        (started_inflight hd).trans (List.perm_append_singleton _ _).symm
      rw [hc, (dispatched_frame hd).2.2.1, occurrences_perm hperm hnd]
      show occurrences Flight.key ((st.starts ++ [_]).map Start.flight) k = _
      rw [List.map_append, occurrences_append, occurrences_append, h k, List.append_assoc]
      rfl
    | refuse => exact h
    | finishReplay => exact h.frame rfl rfl finishReplay_inflight hnd
    | send ht _ => exact h.frame rfl rfl (send_inflight ht) hnd

theorem reach_alternates (hv : job.ir.Valid) {m : Machine} (h : Reach job m) :
    Alternates m.sched := by
  refine reach_invariant hv ?_ (fun st st' hwf hi hm => hi.micro hv hwf hm) h
  obtain ⟨news, heq⟩ := initial_eq job
  rw [heq]
  exact fun _ => rfl

theorem Alternates.replayKey (h : Alternates st) (κ : ReplayKey) :
    occurrences Flight.replayKey (st.completions.map Completion.flight) κ <+:
      occurrences Flight.replayKey (st.starts.map Start.flight) κ := by
  have hsplit : ∀ l : List Flight, occurrences Flight.replayKey l κ =
      (occurrences Flight.key l (κ.1, κ.2.1)).filter (fun f => f.replayKey = κ) := by
    intro l
    simp only [occurrences, List.filter_filter]
    refine List.filter_congr fun f _ => ?_
    by_cases hf : f.replayKey = κ
    · subst hf
      simp [Flight.key, Flight.replayKey, Activation.key]
    · simp [hf]
  rw [hsplit, hsplit, h]
  exact (List.prefix_append _ _).filter _

end Order

section Frame

variable {job : Job} {c : Completion} {st st' : Sched}

structure Sched.SameQueues (st st' : Sched) : Prop where
  tasks : st'.tasks = st.tasks
  channel : st'.channel = st.channel
  replaying : st'.replaying = st.replaying
  replayStarts : st'.replayStarts = st.replayStarts
  replayReady : st'.replayReady = st.replayReady
  reused : st'.reused = st.reused
  clean : st.dirtyLineages = [] → st'.dirtyLineages = []

theorem quiet_sameQueues (h : Quiet job c st st') : st.SameQueues st' := by
  cases h with
  | prune live key =>
    unfold Sched.prune
    split <;> exact ⟨rfl, rfl, rfl, rfl, rfl, rfl, id⟩
  | merge =>
    unfold Sched.mergeLockedSignals
    split <;> exact ⟨rfl, rfl, rfl, rfl, rfl, rfl, id⟩
  | iterate =>
    refine ⟨rfl, rfl, rfl, rfl, rfl, rfl, fun h => ?_⟩
    simp [Sched.addSignals, Sched.openIteration, h]
  | _ => exact ⟨rfl, rfl, rfl, rfl, rfl, rfl, id⟩

theorem work_sameQueues (h : Work job c st st') : st.SameQueues st' := by
  cases h with
  | latch _ => exact ⟨rfl, rfl, rfl, rfl, rfl, rfl, id⟩
  | quiet hq => exact quiet_sameQueues hq

theorem workPath_sameQueues (h : WorkPath job c st st') : st.SameQueues st' := by
  induction h with
  | refl => exact ⟨rfl, rfl, rfl, rfl, rfl, rfl, id⟩
  | tail _ hw ih =>
    have hs := work_sameQueues hw
    exact ⟨hs.tasks.trans ih.tasks, hs.channel.trans ih.channel, hs.replaying.trans ih.replaying,
      hs.replayStarts.trans ih.replayStarts, hs.replayReady.trans ih.replayReady,
      hs.reused.trans ih.reused, fun h => hs.clean (ih.clean h)⟩

theorem workPath_starts (h : WorkPath job c st st') : st'.starts = st.starts := by
  induction h with
  | refl => rfl
  | tail _ hw ih =>
    rw [← ih]
    cases hw with
    | latch _ => rfl
    | quiet hq => exact quiet_starts hq

theorem microPath_starts (h : MicroPath job st st') : st.starts <+: st'.starts := by
  induction h with
  | refl => exact List.prefix_rfl
  | tail _ hm ih =>
    rcases micro_starts hm with he | ⟨s, -, -, he, -⟩
    · rw [he]
      exact ih
    · rw [he]
      exact ih.trans (List.prefix_append _ _)

def Completion.Labelled (c : Completion) : Prop :=
  c.record.key = c.activation.key c.record.nodeId ∧ c.record.result.nodeId = c.record.nodeId

theorem reach_labelled (hv : job.ir.Valid) {m : Machine} (h : Reach job m) :
    ∀ c ∈ m.sched.completions, c.Labelled := by
  refine (reach_invariant (P := fun st => (∀ c ∈ st.channel, c.Labelled) ∧
    ∀ c ∈ st.completions, c.Labelled) hv ?_ ?_ h).2
  · obtain ⟨news, heq⟩ := initial_eq job
    rw [heq]
    exact ⟨by rintro _ ⟨⟩, by rintro _ ⟨⟩⟩
  · intro st st' _ hi hm
    cases hm with
    | @complete st₀ c hp =>
      have hboth : (∀ c ∈ st₀.channel, c.Labelled) ∧ c.Labelled := by
        cases hp with
        | ready _ => exact ⟨hi.1, rfl, rfl⟩
        | channel hc =>
          have hall : ∀ x ∈ c :: _, x.Labelled := hc ▸ hi.1
          exact ⟨fun x hx => hall x (List.mem_cons_of_mem _ hx), hall c List.mem_cons_self⟩
      refine ⟨hboth.1, fun x hx => ?_⟩
      rcases List.mem_append.mp (show x ∈ st₀.completions ++ [c] from hx) with hx | hx
      · exact hi.2 x ((pops_frame hp).2.2.2.1 ▸ hx)
      · exact List.mem_singleton.mp hx ▸ hboth.2
    | work _ hw =>
      rw [work_completions hw, (work_sameQueues hw).channel]
      exact hi
    | idle hidle =>
      rw [idlePath_completions (.single hidle)]
      refine ⟨?_, hi.2⟩
      cases hidle with
      | start _ _ _ hd =>
        cases hd <;> exact hi.1
      | refuse | finishReplay => exact hi.1
      | @send i t result _ hr =>
        intro x hx
        rcases List.mem_append.mp (show x ∈ st.channel ++ [t.completion result] from hx) with hx | hx
        · exact hi.1 x hx
        · rw [List.mem_singleton.mp hx]
          simp only [allowedResult, Bool.and_eq_true, decide_eq_true_eq] at hr
          exact ⟨rfl, hr.1⟩

theorem reach_stories (hv : job.ir.Valid) {m : Machine} (h : Reach job m) {i : ℕ}
    (hi : i ≤ m.sched.completions.length) :
    ∃ s, Story job.bare ((m.sched.completions.map Completion.erase).take i) s ∧
      s.starts <+: m.sched.starts := by
  induction h with
  | refl =>
    have hs := @reach_story job hv (bootMachine job) .refl
    rw [show (bootMachine job).sched.completions = [] from boot_completions job] at hs ⊢
    exact ⟨(bootMachine job).sched.erase, by simpa using hs, List.prefix_rfl⟩
  | @tail m m' hreach hstep ih =>
    have hwf := (reach_microPath hv hreach).2
    have hgrow : m.sched.starts <+: m'.sched.starts := microPath_starts (step_microPath hv hwf hstep)
    by_cases hle : i ≤ m.sched.completions.length
    · obtain ⟨s, hs, hp⟩ := ih hle
      refine ⟨s, ?_, hp.trans hgrow⟩
      rcases step_records hv hwf hstep with ⟨-, hc⟩ | ⟨c, _, _, hr, -⟩
      · rw [hc]
        exact hs
      · rw [hr.completions, List.map_append, List.take_append_of_le_length (by simpa using hle)]
        exact hs
    · have hlen : i = m'.sched.completions.length := by
        rcases step_records hv hwf hstep with ⟨-, hc⟩ | ⟨c, _, _, hr, -⟩
        · exact absurd (hc ▸ hi) hle
        · have := hr.completions
          simp only [this, List.length_append, List.length_singleton] at hi ⊢
          omega
      refine ⟨m'.sched.erase, ?_, List.prefix_rfl⟩
      rw [List.take_of_length_le (by simp [hlen])]
      exact reach_story hv (hreach.tail hstep)

end Frame

def Job.resuming (job : Job) (records : List NodeRunRecord) (source : String) : Job :=
  { job with replay := records, replaySource := some source }

/-- What a run that passed leaves for a replay: labelled successful records, matched to their
starts in order. -/
structure Finished (job : Job) (st : Sched) : Prop where
  labelled : ∀ c ∈ st.completions, c.Labelled
  ok : ∀ c ∈ st.completions, c.ok
  nonempty : st.completions ≠ []
  matched : ∀ κ, occurrences Flight.replayKey (st.completions.map Completion.flight) κ <+:
    occurrences Flight.replayKey (st.starts.map Start.flight) κ
  starts_nodup : (st.starts.map Start.flight).Nodup
  flights_nodup : (st.completions.map Completion.flight).Nodup
  stories : ∀ i ≤ st.completions.length, ∃ s,
    Story job.bare ((st.completions.map Completion.erase).take i) s ∧ s.starts <+: st.starts
  story : Story job.bare (st.completions.map Completion.erase) st.erase
  ended : st.error ≠ none ∨ (st.running = [] ∧ st.hasRunnablePending job.ir = false)

theorem reach_finished {job : Job} {st : Sched} (hv : job.ir.Valid) (h : Reach job ⟨.done, st⟩)
    (hne : st.records ≠ []) (hok : ∀ r ∈ st.records, r.result.outcome ≠ .failure) :
    Finished job st := by
  have hwf := (reach_microPath hv h).2
  have hnd : (st.starts.map Start.flight).Nodup := by
    refine List.Nodup.of_map Flight.run ?_
    rw [List.map_map]
    exact hwf.runs
  exact {
    labelled := reach_labelled hv h
    ok := fun c hc => hok c.record (List.mem_map_of_mem hc)
    nonempty := fun he => hne (by simp [Sched.records, he])
    matched := (reach_alternates hv h).replayKey
    starts_nodup := hnd
    flights_nodup := (hwf.history.nodup_iff.mp hnd).sublist (List.sublist_append_right _ _)
    stories := fun i hi => reach_stories hv h hi
    story := reach_story hv h
    ended := (reach_accounted hv h).done rfl }

section Replay

variable {job : Job} {st t t' : Sched} {source : String} {i : ℕ}

theorem reusable_of_ok {c : Completion} (h : c.ok) : c.record.result.outcome.reusable = true := by
  unfold Completion.ok at h
  cases ho : c.record.result.outcome <;> simp_all [Outcome.reusable]

theorem Finished.replayRecords (h : Finished job st) (κ : ReplayKey) :
    (job.resuming st.records source).replayRecords κ =
      (indexed (fun c : Completion => c.flight.replayKey) st.completions κ).map
        (fun p => (p.2, p.1.record)) := by
  simp only [Job.replayRecords, Job.resuming, Sched.records, indexed, List.zipIdx_map,
    List.filter_map, List.map_map]
  congr 1
  refine List.filter_congr fun p hp => ?_
  have hm : p.1 ∈ st.completions := List.fst_mem_of_mem_zipIdx hp
  simp only [Function.comp_apply, Prod.map_fst, (h.labelled p.1 hm).1]
  rfl

theorem Finished.reusable (h : Finished job st) :
    (job.resuming st.records source).reusable = st.completions.length := by
  have hall : st.records.filter (·.result.outcome.reusable) = st.records := by
    refine List.filter_eq_self.mpr fun r hr => ?_
    obtain ⟨c, hc, rfl⟩ := List.mem_map.mp hr
    exact reusable_of_ok (h.ok c hc)
  show (st.records.filter (·.result.outcome.reusable)).length = _
  rw [hall, Sched.records, List.length_map]

/-- A state of the replay after `i` records were released: nothing is live, and of
the starts so far, those with a record are released or ready. -/
structure Replaying (st : Sched) (i : ℕ) (t : Sched) : Prop where
  tasks : t.tasks = []
  channel : t.channel = []
  replaying : t.replaying = true
  clean : t.dirtyLineages = []
  reused : t.reused = i
  counts : i < st.completions.length → ∀ κ,
    t.replayStarts κ = (occurrences Flight.replayKey (t.starts.map Start.flight) κ).length
  ready : i < st.completions.length → ∀ e ∈ t.replayReady, ∃ c,
    st.completions[e.index]? = some c ∧ c.record = e.prior ∧ c.flight = e.flight
  found : i < st.completions.length → ∀ f ∈ t.starts.map Start.flight,
    f ∈ st.completions.map Completion.flight →
    f ∈ t.completions.map Completion.flight ∨ f ∈ t.replayReady.map ReadyEntry.flight

theorem mem_replayRecords_matched (h : Finished job st) {l : List Start} {s : Start}
    (hpre : l ++ [s] <+: st.starts) {j : ℕ} {prior : NodeRunRecord}
    (hget : ((job.resuming st.records source).replayRecords s.flight.replayKey)[(occurrences
      Flight.replayKey (l.map Start.flight) s.flight.replayKey).length]? = some (j, prior)) :
    ∃ c, st.completions[j]? = some c ∧ c.record = prior ∧ c.flight = s.flight := by
  obtain ⟨rest, hrest⟩ := hpre
  rw [h.replayRecords, List.getElem?_map, Option.map_eq_some_iff] at hget
  obtain ⟨p, hp, he⟩ := hget
  obtain ⟨rfl, rfl⟩ := Prod.mk.inj he
  have hmatch := h.matched s.flight.replayKey
  rw [← hrest, List.append_assoc, List.map_append] at hmatch
  obtain ⟨h₁, h₂⟩ := indexed_matched hmatch hp
  exact ⟨p.1, h₁, rfl, h₂⟩

theorem not_recorded_of_unmatched (h : Finished job st) {l : List Start} {s : Start}
    (hpre : l ++ [s] <+: st.starts)
    (hget : ((job.resuming st.records source).replayRecords s.flight.replayKey)[(occurrences
      Flight.replayKey (l.map Start.flight) s.flight.replayKey).length]? = none) :
    s.flight ∉ st.completions.map Completion.flight := by
  obtain ⟨rest, hrest⟩ := hpre
  rw [h.replayRecords, List.getElem?_map, Option.map_eq_none_iff] at hget
  have hmatch := h.matched s.flight.replayKey
  have hnd := h.starts_nodup
  rw [← hrest, List.append_assoc, List.map_append] at hmatch hnd
  exact indexed_unmatched hmatch hnd hget

theorem occurrences_starts_snoc (l : List Start) (s : Start) (κ : ReplayKey) :
    (occurrences Flight.replayKey ((l ++ [s]).map Start.flight) κ).length =
      (occurrences Flight.replayKey (l.map Start.flight) κ).length +
        if s.flight.replayKey = κ then 1 else 0 := by
  rw [List.map_append, occurrences_append, List.length_append]
  congr 1
  by_cases hk : s.flight.replayKey = κ <;> simp [occurrences, hk]

end Replay

section Dispatch

variable {job : Job} {st : Sched} {task : Task}

def Sched.counted (st : Sched) (task : Task) : Sched :=
  { st with
    replayStarts := update st.replayStarts task.flight.replayKey
      (st.replayStarts task.flight.replayKey + 1) }

theorem dispatch_spent (hspent : job.reusable ≤ st.reused) (hr : st.replaying = true) :
    st.dispatch job task = { st with replayHeld := st.replayHeld ++ [task] } := by
  unfold Sched.dispatch Sched.replayed
  rw [if_pos (by simp [hspent])]
  simp [hr]

theorem dispatch_unmatched (hsource : job.replaySource.isSome) (hlt : st.reused < job.reusable)
    (hget : (job.replayRecords task.flight.replayKey)[st.replayStarts task.flight.replayKey]? = none)
    (hr : st.replaying = true) :
    st.dispatch job task =
      { st.counted task with replayHeld := st.replayHeld ++ [task] } := by
  unfold Sched.dispatch Sched.replayed
  rw [if_neg (by simp [hlt, Option.isSome_iff_ne_none.mp hsource])]
  dsimp only
  rw [show (job.replayRecords (task.activation.key task.node))[st.replayStarts
    (task.activation.key task.node)]? = none from hget]
  simp only [Bool.false_eq_true, ↓reduceIte]
  rw [if_pos hr]
  rfl

theorem dispatch_matched (hsource : job.replaySource.isSome) (hlt : st.reused < job.reusable)
    {index : ℕ} {prior : NodeRunRecord} (hget : (job.replayRecords task.flight.replayKey)[
      st.replayStarts task.flight.replayKey]? = some (index, prior))
    (hclean : st.dirtyLineages = []) (hreuse : prior.result.outcome.reusable = true) :
    st.dispatch job task =
      { st.counted task with
        replayReady := st.replayReady ++ [⟨index, task.node, task.activation, task.runNumber,
          prior⟩] } := by
  unfold Sched.dispatch Sched.replayed
  rw [if_neg (by simp [hlt, Option.isSome_iff_ne_none.mp hsource])]
  dsimp only
  rw [show (job.replayRecords (task.activation.key task.node))[st.replayStarts
    (task.activation.key task.node)]? = some (index, prior) from hget]
  simp only [hclean, List.contains_nil, hreuse, Bool.not_true, Bool.or_self, Bool.false_eq_true,
    ↓reduceIte]
  rw [← hclean]
  rfl

end Dispatch

section Starts

variable {job : Job} {st t t' : Sched} {source : String} {i : ℕ}

theorem Replaying.counted (hr : Replaying st i t) (hlt : i < st.completions.length) (s : Signal)
    (κ : ReplayKey) : ((t.begun s).counted (t.taskOf s)).replayStarts κ =
      (occurrences Flight.replayKey ((t.begun s).starts.map Start.flight) κ).length := by
  have hstarts := occurrences_starts_snoc t.starts ⟨t.taskOf s, t.completions.length, s.origins⟩ κ
  refine Eq.trans ?_ hstarts.symm
  rw [← hr.counts hlt κ]
  show update t.replayStarts (t.taskOf s).flight.replayKey
    (t.replayStarts (t.taskOf s).flight.replayKey + 1) κ = t.replayStarts κ +
      if (t.taskOf s).flight.replayKey = κ then 1 else 0
  by_cases hκ : (t.taskOf s).flight.replayKey = κ
  · subst hκ
    simp
  · rw [update_ne _ _ (fun he => hκ he.symm), if_neg hκ]
    rfl

theorem Replaying.start (h : Finished job st) (hr : Replaying st i t) (s : Signal)
    (hpre : (t.begun s).starts <+: st.starts) :
    Replaying st i ((t.begun s).dispatch (job.resuming st.records source) (t.taskOf s)) := by
  by_cases hlt : i < st.completions.length
  · have hcounts := hr.counts hlt
    have hold : ∀ f ∈ (t.begun s).starts.map Start.flight, f ≠ (t.taskOf s).flight →
        f ∈ t.starts.map Start.flight := by
      intro f hf hne
      have hf' : f ∈ (t.starts ++ [_]).map Start.flight := hf
      rw [List.map_append, List.mem_append] at hf'
      exact hf'.resolve_right (fun he => hne (List.mem_singleton.mp he))
    have hreused : (t.begun s).reused < (job.resuming st.records source).reusable := by
      rw [h.reusable]
      exact hr.reused.symm ▸ hlt
    cases hget : ((job.resuming st.records source).replayRecords (t.taskOf s).flight.replayKey)[
        t.replayStarts (t.taskOf s).flight.replayKey]? with
    | none =>
      have hnone := not_recorded_of_unmatched h hpre (by rw [← hcounts]; exact hget)
      rw [dispatch_unmatched rfl hreused hget hr.replaying]
      refine ⟨hr.tasks, hr.channel, hr.replaying, hr.clean, hr.reused, fun _ => hr.counted hlt s,
        fun _ => hr.ready hlt, fun _ f hf hrec => ?_⟩
      exact hr.found hlt f (hold f hf (fun he => hnone (by rw [he] at hrec; exact hrec))) hrec
    | some p =>
      obtain ⟨j, prior⟩ := p
      obtain ⟨c, hc, hrec, hflight⟩ := mem_replayRecords_matched h hpre
        (by rw [← hcounts]; exact hget)
      have hreuse : prior.result.outcome.reusable = true := by
        rw [← hrec]
        exact reusable_of_ok (h.ok c (List.mem_of_getElem? hc))
      rw [dispatch_matched rfl hreused hget hr.clean hreuse]
      refine ⟨hr.tasks, hr.channel, hr.replaying, hr.clean, hr.reused, fun _ => hr.counted hlt s,
        fun _ e he => ?_, fun _ f hf hm => ?_⟩
      · rcases List.mem_append.mp he with he | he
        · exact hr.ready hlt e he
        · rw [List.mem_singleton.mp he]
          exact ⟨c, hc, hrec, hflight⟩
      · rw [List.map_append, List.mem_append]
        by_cases hne : f = (t.taskOf s).flight
        · exact .inr (.inr (List.mem_singleton.mpr hne))
        · exact (hr.found hlt f (hold f hf hne) hm).imp id .inl
  · have hspent : (job.resuming st.records source).reusable ≤ (t.begun s).reused := by
      rw [h.reusable]
      exact hr.reused.symm ▸ not_lt.mp hlt
    rw [dispatch_spent hspent hr.replaying]
    exact ⟨hr.tasks, hr.channel, hr.replaying, hr.clean, hr.reused, fun hl => absurd hl hlt,
      fun hl => absurd hl hlt, fun hl => absurd hl hlt⟩

theorem Replaying.startRunnable (h : Finished job st) (hr : Replaying st i t)
    (hpre : (t.startRunnable (job.resuming st.records source)).starts <+: st.starts) :
    Replaying st i (t.startRunnable (job.resuming st.records source)) := by
  refine startRunnable_induct (P := fun s => s.starts <+: st.starts → Replaying st i s)
    (fun s sig _ hP hpre' => ?_) (fun _ => hr) hpre
  unfold Sched.startOne at hpre' ⊢
  split at hpre'
  next hgone =>
    rw [if_pos hgone]
    exact hP hpre'
  next hgone =>
  rw [if_neg hgone]
  split at hpre'
  next e he =>
    have hs := hP hpre'
    exact ⟨hs.tasks, hs.channel, hs.replaying, hs.clean, hs.reused, hs.counts, hs.ready, hs.found⟩
  next he =>
    have hbegun : (s.begun sig).starts <+: st.starts := by
      rw [← (dispatched_frame (@dispatch_cases (job.resuming st.records source) (s.begun sig) (s.taskOf sig))).2.2.1]
      exact hpre'
    exact (hP ((List.prefix_append _ _).trans hbegun)).start h sig hbegun

theorem Replaying.resume (h : Finished job st) (hr : Replaying st i t)
    (hpre : (t.resume (job.resuming st.records source)).starts <+: st.starts) :
    Replaying st i (t.resume (job.resuming st.records source)) := by
  unfold Sched.resume at hpre ⊢
  split
  · exact hr
  next hn =>
    rw [if_neg hn] at hpre
    exact hr.startRunnable h hpre

end Starts

section Release

variable {job : Job} {st t t' : Sched} {source : String}

theorem popEarliest_le {l others : List ReadyEntry} {e : ReadyEntry}
    (h : Sched.popEarliest l = some (e, others)) : ∀ e' ∈ l, e.index ≤ e'.index := by
  induction l generalizing e others with
  | nil => simp [Sched.popEarliest] at h
  | cons a l ih =>
    simp only [Sched.popEarliest] at h
    intro e' he'
    split at h
    next hnone =>
      obtain rfl := popEarliest_eq_none hnone
      obtain ⟨rfl, -⟩ := Prod.mk.inj (Option.some.inj h)
      exact (List.mem_singleton.mp he') ▸ le_rfl
    next m rest hm =>
      have hmin := ih hm
      split at h
      next hlt =>
        obtain ⟨rfl, -⟩ := Prod.mk.inj (Option.some.inj h)
        rcases List.mem_cons.mp he' with rfl | he'
        · exact hlt.le
        · exact hmin e' he'
      next hge =>
        obtain ⟨rfl, -⟩ := Prod.mk.inj (Option.some.inj h)
        rcases List.mem_cons.mp he' with rfl | he'
        · exact le_rfl
        · exact (not_lt.mp hge).trans (hmin e' he')

theorem readyEntry_completion_erase {e : ReadyEntry} {c : Completion} (hl : c.Labelled)
    (hrec : c.record = e.prior) (hflight : c.flight = e.flight) :
    (Sched.ReadyEntry.completion job e).erase = c.erase := by
  obtain ⟨a, r⟩ := c
  obtain ⟨index, node, activation, run, prior⟩ := e
  obtain ⟨nodeId, runNumber, lineageId, groupId, ⟨resultNode, outcome, output, error⟩, from_⟩ := r
  simp only [Completion.flight, ReadyEntry.flight, Flight.mk.injEq] at hflight
  obtain ⟨rfl, rfl, rfl⟩ := hflight
  simp only [Completion.Labelled, NodeRunRecord.key, Activation.key, Prod.mk.injEq, true_and] at hl
  obtain ⟨⟨rfl, rfl⟩, rfl⟩ := hl
  subst hrec
  rfl

/-- The replay is so far a prefix of the finished run. -/
structure Follows (st t : Sched) : Prop where
  records : t.completions.map Completion.erase =
    (st.completions.map Completion.erase).take t.completions.length
  le : t.completions.length ≤ st.completions.length
  replaying : Replaying st t.completions.length t

theorem flights_of_records (h : t.completions.map Completion.erase =
    (st.completions.map Completion.erase).take t.completions.length) :
    t.completions.map Completion.flight =
      (st.completions.map Completion.flight).take t.completions.length := by
  have hmap : ∀ l : List Completion, (l.map Completion.erase).map Completion.flight =
      l.map Completion.flight := fun l => by
    rw [List.map_map]
    rfl
  rw [← hmap, h, List.map_take, hmap]

theorem starts_of_records (hv : job.ir.Valid) (h : Finished job st) {m : Machine}
    (hreach : Reach (job.resuming st.records source) m)
    (hrec : m.sched.completions.map Completion.erase =
      (st.completions.map Completion.erase).take m.sched.completions.length)
    (hle : m.sched.completions.length ≤ st.completions.length) :
    m.sched.starts <+: st.starts := by
  obtain ⟨s, hs, hpre⟩ := h.stories _ hle
  have hstory := @reach_story (job.resuming st.records source) hv _ hreach
  rw [hrec] at hstory
  rw [hs.unique hstory] at hpre
  exact hpre

theorem Finished.index_inj (h : Finished job st) {i j : ℕ} {c c' : Completion}
    (hc : st.completions[i]? = some c) (hc' : st.completions[j]? = some c')
    (hf : c.flight = c'.flight) : i = j := by
  obtain ⟨hi, rfl⟩ := List.getElem?_eq_some_iff.mp hc
  obtain ⟨hj, rfl⟩ := List.getElem?_eq_some_iff.mp hc'
  have hi' : i < (st.completions.map Completion.flight).length := by simpa using hi
  refine (List.getElem?_inj hi' h.flights_nodup).mp ?_
  simp only [List.getElem?_map, List.getElem?_eq_getElem hi, List.getElem?_eq_getElem hj,
    Option.map_some, hf]

theorem Follows.next_ready (h : Finished job st) (hf : Follows st t) {c : Completion}
    (hc : st.completions[t.completions.length]? = some c)
    (hstart : c.flight ∈ t.starts.map Start.flight) :
    ∃ e ∈ t.replayReady, e.index = t.completions.length := by
  have hlt := (List.getElem?_eq_some_iff.mp hc).1
  have hmem : c.flight ∈ st.completions.map Completion.flight :=
    List.mem_map_of_mem (List.mem_of_getElem? hc)
  rcases hf.replaying.found hlt _ hstart hmem with hdone | hready
  · rw [flights_of_records hf.records] at hdone
    obtain ⟨j, hj⟩ := List.getElem?_of_mem hdone
    rw [List.getElem?_take] at hj
    split_ifs at hj with hjlt
    rw [List.getElem?_map, Option.map_eq_some_iff] at hj
    obtain ⟨c', hc', hflight⟩ := hj
    exact absurd (h.index_inj hc' hc hflight) hjlt.ne
  · obtain ⟨e, he, hflight⟩ := List.mem_map.mp hready
    obtain ⟨c', hc', -, hcf⟩ := hf.replaying.ready hlt e he
    exact ⟨e, he, h.index_inj hc' hc (hcf.trans hflight)⟩

theorem Follows.ready_ge (hf : Follows st t) (hwf : WellFormed (job.resuming st.records source) t)
    (hlt : t.completions.length < st.completions.length) {e : ReadyEntry}
    (he : e ∈ t.replayReady) : t.completions.length ≤ e.index := by
  by_contra hless
  obtain ⟨c, hc, -, hcf⟩ := hf.replaying.ready hlt e he
  have hnd : (t.inflight ++ t.completions.map Completion.flight).Nodup := by
    refine hwf.history.nodup_iff.mp (List.Nodup.of_map Flight.run ?_)
    rw [List.map_map]
    exact hwf.runs
  have hin : e.flight ∈ t.inflight := by
    simp only [Sched.inflight, List.mem_append]
    exact .inl (.inl (.inl (List.mem_map_of_mem he)))
  have hout : e.flight ∈ t.completions.map Completion.flight := by
    rw [flights_of_records hf.records, ← hcf]
    refine List.mem_of_getElem? (i := e.index) ?_
    rw [List.getElem?_take, if_pos (not_le.mp hless), List.getElem?_map, hc]
    rfl
  exact (List.nodup_append.mp hnd).2.2 _ hin _ hout rfl

theorem Replaying.release {e : ReadyEntry} {others : List ReadyEntry} {t₁ : Sched}
    (hf : Follows st t) (hlt : t.completions.length < st.completions.length)
    (hpop : Sched.popEarliest t.replayReady = some (e, others))
    (hw : WorkPath (job.resuming st.records source)
      (Sched.ReadyEntry.completion (job.resuming st.records source) e)
      ({ t with replayReady := others, reused := t.reused + 1 }.recordCompletion
        (job.resuming st.records source)
        (Sched.ReadyEntry.completion (job.resuming st.records source) e)) t₁) :
    Replaying st (t.completions.length + 1) t₁ := by
  have hq := workPath_sameQueues hw
  have hr := hf.replaying
  have hperm := popEarliest_perm hpop
  refine ⟨hq.tasks.trans hr.tasks, hq.channel.trans hr.channel, hq.replaying.trans hr.replaying,
    hq.clean ?_, hq.reused.trans (congrArg (· + 1) hr.reused), fun _ => ?_, fun _ e' he' => ?_,
    fun _ f hf' hm => ?_⟩
  · simp [Sched.recordCompletion, Sched.ReadyEntry.completion, Job.resuming, hr.clean]
  · rw [hq.replayStarts, workPath_starts hw]
    exact hr.counts hlt
  · rw [hq.replayReady] at he'
    exact hr.ready hlt e' (hperm.mem_iff.mpr (List.mem_cons_of_mem _ he'))
  · rw [workPath_starts hw] at hf'
    rw [hq.replayReady, workPath_completions hw]
    show f ∈ (t.completions ++ [_]).map Completion.flight ∨ f ∈ others.map ReadyEntry.flight
    rw [List.map_append, List.mem_append]
    rcases hr.found hlt f hf' hm with hdone | hready
    · exact .inl (.inl hdone)
    · rw [(hperm.map ReadyEntry.flight).mem_iff, List.map_cons, List.mem_cons] at hready
      rcases hready with rfl | hready
      · exact .inl (.inr (List.mem_singleton.mpr rfl))
      · exact .inr hready

theorem turn_of_pop {e : ReadyEntry} {others : List ReadyEntry} {t₁ : Sched}
    (hwf : WellFormed job t) (herr : t.error = none)
    (hpop : Sched.popEarliest t.replayReady = some (e, others))
    (hnext : t.replayNext job e others = .ok t₁) :
    t.turn job = .ok ⟨.head, t₁.resume job⟩ := by
  have he : e ∈ t.replayReady := (popEarliest_perm hpop).mem_iff.mpr List.mem_cons_self
  have hrun : t.running.isEmpty = false := by
    refine List.isEmpty_eq_false_iff_exists_mem.mpr ⟨e.flight.key, ?_⟩
    refine hwf.running.mem_iff.mpr (List.mem_map_of_mem ?_)
    simp only [Sched.inflight, List.mem_append]
    exact .inl (.inl (.inl (List.mem_map_of_mem he)))
  simp only [Sched.turn, hrun, Bool.false_and, Bool.false_eq_true, ↓reduceIte, herr,
    Option.isSome_none, hpop, hnext]
  rfl

theorem Follows.releases (hv : job.ir.Valid) (h : Finished job st)
    (hreach : Reach (job.resuming st.records source) ⟨.head, t⟩) (hf : Follows st t)
    {c : Completion} (hc : st.completions[t.completions.length]? = some c) :
    t.error = none ∧ ∃ e others t₁, Sched.popEarliest t.replayReady = some (e, others) ∧
      (Sched.ReadyEntry.completion (job.resuming st.records source) e).erase = c.erase ∧
      t.replayNext (job.resuming st.records source) e others = .ok t₁ := by
  have hlt := (List.getElem?_eq_some_iff.mp hc).1
  have hwf := (@reach_microPath (job.resuming st.records source) hv _ hreach).2
  obtain ⟨s', hs', -⟩ := h.stories _ (Nat.succ_le_of_lt hlt)
  rw [Nat.succ_eq_add_one, List.take_add_one, List.getElem?_map, hc] at hs'
  obtain ⟨s, s₁, hs, herr, hstart, hproc, -⟩ := hs'.last
  have hstory := @reach_story (job.resuming st.records source) hv _ hreach
  rw [hf.records] at hstory
  obtain rfl := hs.unique hstory
  refine ⟨herr, ?_⟩
  obtain ⟨e₀, he₀, hidx₀⟩ := hf.next_ready h hc hstart
  obtain ⟨⟨e, others⟩, hpop⟩ : ∃ p, Sched.popEarliest t.replayReady = some p := by
    refine Option.ne_none_iff_exists'.mp (fun hnone => ?_)
    rw [popEarliest_eq_none hnone] at he₀
    simp at he₀
  have he : e ∈ t.replayReady := (popEarliest_perm hpop).mem_iff.mpr List.mem_cons_self
  have hidx : e.index = t.completions.length :=
    le_antisymm (hidx₀ ▸ popEarliest_le hpop e₀ he₀) (hf.ready_ge hwf hlt he)
  obtain ⟨c', hc', hrec, hflight⟩ := hf.replaying.ready hlt e he
  obtain rfl : c' = c := by
    rw [hidx, hc] at hc'
    exact (Option.some.inj hc').symm
  have hsame := @readyEntry_completion_erase (job.resuming st.records source) e c'
    (h.labelled c' (List.mem_of_getElem? hc)) hrec hflight
  have hmap := @processCompletion_erase (job.resuming st.records source)
    { t with replayReady := others, reused := t.reused + 1 }
    (Sched.ReadyEntry.completion (job.resuming st.records source) e)
  rw [hsame] at hmap
  obtain ⟨t₁, ht₁, -⟩ := map_eq_ok.mp (hmap.trans hproc)
  exact ⟨e, others, t₁, hpop, hsame, ht₁⟩

theorem Follows.turn (hv : job.ir.Valid) (h : Finished job st)
    (hreach : Reach (job.resuming st.records source) ⟨.head, t⟩) (hf : Follows st t)
    (hlt : t.completions.length < st.completions.length) :
    ∃ t', t.turn (job.resuming st.records source) = .ok ⟨.head, t'⟩ ∧
      t'.completions.length = t.completions.length + 1 ∧ Follows st t' := by
  obtain ⟨c, hc⟩ : ∃ c, st.completions[t.completions.length]? = some c :=
    ⟨_, List.getElem?_eq_getElem hlt⟩
  have hwf := (@reach_microPath (job.resuming st.records source) hv _ hreach).2
  obtain ⟨herr, e, others, t₁, hpop, hsame, ht₁⟩ := hf.releases hv h hreach hc
  have hturn := turn_of_pop hwf herr hpop ht₁
  have hcomp := @processed_completions (job.resuming st.records source) hv _ _ _ _ hwf
    (.ready hpop) ht₁
  have hlen : (t₁.resume (job.resuming st.records source)).completions.length =
      t.completions.length + 1 := by simp [hcomp]
  have hrecords : (t₁.resume (job.resuming st.records source)).completions.map Completion.erase =
      (st.completions.map Completion.erase).take
        (t₁.resume (job.resuming st.records source)).completions.length := by
    rw [hlen, List.take_add_one, List.getElem?_map, hc, hcomp, List.map_append, ← hf.records,
      Option.map_some, ← hsame]
    rfl
  have hrep := Replaying.release hf hlt hpop (@processed (job.resuming st.records source) hv _ _ _ _
    hwf (.ready hpop) ht₁).work
  refine ⟨_, hturn, hlen, hrecords, hlen ▸ hlt, ?_⟩
  rw [hlen]
  exact hrep.resume h
    (starts_of_records hv h (hreach.tail (Step.turn hturn)) hrecords (hlen ▸ hlt))

theorem Follows.ended (hv : job.ir.Valid) (h : Finished job st)
    (hreach : Reach (job.resuming st.records source) ⟨.head, t⟩) (hf : Follows st t)
    (hall : t.completions.length = st.completions.length) :
    t.erase = st.erase ∧ t.turn (job.resuming st.records source) = .ok ⟨.done, t⟩ := by
  have hstory := @reach_story (job.resuming st.records source) hv _ hreach
  rw [hf.records, hall, List.take_of_length_le (by simp)] at hstory
  have hsame : Same t st := hstory.unique h.story
  refine ⟨hsame, ?_⟩
  rcases h.ended with herr | ⟨hrun, hpend⟩
  · have herr' : t.error.isSome = true := by
      rw [hsame.error]
      exact Option.isSome_iff_ne_none.mpr herr
    simp only [Sched.turn, herr', ↓reduceIte]
    split <;> rfl
  · have hrun' : t.running = st.running := hsame.field (fun _ => rfl)
    have hpend' : t.hasRunnablePending job.ir = st.hasRunnablePending job.ir :=
      hsame.field (f := fun s => s.hasRunnablePending job.ir) (fun _ => rfl)
    unfold Sched.turn
    rw [if_pos (by
      rw [hrun', hrun, show t.hasRunnablePending (job.resuming st.records source).ir = _ from hpend',
        hpend]
      rfl)]

theorem follows_boot (hv : job.ir.Valid) (h : Finished job st) :
    Follows st (Sched.boot (job.resuming st.records source)) := by
  have hc := boot_completions (job.resuming st.records source)
  have hrec : (Sched.boot (job.resuming st.records source)).completions.map Completion.erase =
      (st.completions.map Completion.erase).take
        (Sched.boot (job.resuming st.records source)).completions.length := by
    rw [hc]
    rfl
  have hle : (Sched.boot (job.resuming st.records source)).completions.length ≤
      st.completions.length := by simp [hc]
  refine ⟨hrec, hle, ?_⟩
  have hpre := @starts_of_records job st source hv h (bootMachine _) .refl hrec hle
  have hinit : Replaying st 0 (Sched.initial (job.resuming st.records source)) := by
    obtain ⟨news, heq, -, -⟩ := enqueueInitial_spec (job.resuming st.records source).ir
      (Sched.fresh (job.resuming st.records source))
    have hne : st.records ≠ [] := by
      simpa [Sched.records] using h.nonempty
    rw [Sched.initial, heq]
    exact ⟨rfl, rfl, by simp [Sched.fresh, Sched.addSignals, Job.resuming, hne], rfl, rfl,
      fun _ _ => rfl, by rintro _ _ ⟨⟩, by rintro _ _ ⟨⟩⟩
  rw [hc]
  exact hinit.startRunnable h hpre

end Release

section Run

variable {job : Job} {st : Sched} {source : String}

inductive Replays (st : Sched) : Machine → Prop
  | head {t : Sched} : Follows st t → Replays st ⟨.head, t⟩
  | done {t : Sched} : Follows st t → t.erase = st.erase → Replays st ⟨.done, t⟩

theorem Replays.follows {m : Machine} (h : Replays st m) : Follows st m.sched := by
  cases h <;> assumption

theorem Replays.step_turn {m m' : Machine} (h : Replays st m) (hs : Step job m m') :
    m.phase = .head ∧ m.sched.turn job = .ok m' := by
  have hr := h.follows.replaying
  cases hs with
  | turn ht => exact ⟨rfl, ht⟩
  | finishTask _ ht _ =>
    rw [hr.tasks] at ht
    simp at ht
  | receive hc _ =>
    cases h

theorem Replays.step (hv : job.ir.Valid) (h : Finished job st) {m m' : Machine}
    (hreach : Reach (job.resuming st.records source) m) (hm : Replays st m)
    (hs : Step (job.resuming st.records source) m m') : Replays st m' := by
  obtain ⟨hphase, hturn⟩ := hm.step_turn hs
  cases hm with
  | @head t hf =>
    rcases hf.le.lt_or_eq with hlt | hall
    · obtain ⟨t', ht', -, hf'⟩ := hf.turn hv h hreach hlt
      obtain rfl := Except.ok.inj (ht'.symm.trans hturn)
      exact .head hf'
    · obtain ⟨he, ht'⟩ := hf.ended hv h hreach hall
      obtain rfl := Except.ok.inj (ht'.symm.trans hturn)
      exact .done hf he
  | done => simp at hphase

/-- Every machine a resumed job reaches follows the finished run, to the end. -/
theorem reach_replays (hv : job.ir.Valid) (h : Finished job st) {m : Machine}
    (hreach : Reach (job.resuming st.records source) m) : Replays st m := by
  induction hreach with
  | refl => exact .head (follows_boot hv h)
  | tail hreach hs ih => exact ih.step hv h hreach hs

theorem Follows.finishes (hv : job.ir.Valid) (h : Finished job st) {t : Sched}
    (hreach : Reach (job.resuming st.records source) ⟨.head, t⟩) (hf : Follows st t) :
    ∃ t', ReflTransGen (Step (job.resuming st.records source)) ⟨.head, t⟩ ⟨.done, t'⟩ := by
  induction hk : st.completions.length - t.completions.length generalizing t with
  | zero =>
    have hall : t.completions.length = st.completions.length := by
      have := hf.le
      omega
    exact ⟨t, .single (.turn (hf.ended hv h hreach hall).2)⟩
  | succ k ih =>
    obtain ⟨t', ht', hlen, hf'⟩ := hf.turn hv h hreach (by omega)
    obtain ⟨t'', ht''⟩ := ih (hreach.tail (.turn ht')) hf' (by omega)
    exact ⟨t'', .head (.turn ht') ht''⟩

theorem replays_unique (hv : job.ir.Valid) (h : Finished job st) {t : Sched}
    (ht : Reach (job.resuming st.records source) ⟨.done, t⟩) {m : Machine}
    (hm : Reach (job.resuming st.records source) m) :
    ReflTransGen (Step (job.resuming st.records source)) m ⟨.done, t⟩ := by
  induction hm with
  | refl => exact ht
  | @tail m m' hreach hs ih =>
    obtain ⟨hphase, hturn⟩ := (reach_replays hv h hreach).step_turn hs
    rcases ReflTransGen.cases_head ih with heq | ⟨m'', hs', hrest⟩
    · rw [heq] at hphase
      simp at hphase
    · have hturn' := ((reach_replays hv h hreach).step_turn hs').2
      obtain rfl := Except.ok.inj (hturn'.symm.trans hturn)
      exact hrest

def WorkflowExecutionResult.erase (r : WorkflowExecutionResult) : WorkflowExecutionResult :=
  { r with records := r.records.map NodeRunRecord.erase }

theorem result_same {t : Sched} (h : t.erase = st.erase) (records : List NodeRunRecord) :
    (t.result (job.resuming records source)).erase = (st.result job).erase := by
  have hsame : Same t st := h
  have hrecords : t.records.map NodeRunRecord.erase = st.records.map NodeRunRecord.erase := by
    have hc : t.completions.map Completion.erase = st.completions.map Completion.erase :=
      congrArg Sched.completions h
    have hmap := congrArg (List.map Completion.record) hc
    rw [List.map_map, List.map_map] at hmap
    simp only [Sched.records, List.map_map]
    exact hmap
  have hfinal : t.finalError job.ir = st.finalError job.ir :=
    hsame.field (f := fun s => s.finalError job.ir) (fun _ => rfl)
  have hscope : t.latestScope = st.latestScope := hsame.field (fun _ => rfl)
  have hlatest : t.latestOutputs = st.latestOutputs := hsame.field (fun _ => rfl)
  unfold Sched.result
  rw [show t.finalError (job.resuming records source).ir = st.finalError job.ir from hfinal, hscope,
    hlatest]
  cases st.finalError job.ir with
  | some e => simp only [WorkflowExecutionResult.erase, hrecords]
  | none =>
    rw [show (job.resuming records source).env = job.env from rfl,
      show (job.resuming records source).ir = job.ir from rfl]
    cases Sched.collectOutputs job.env st.latestScope job.ir.outputs [] with
    | error e => simp only [WorkflowExecutionResult.erase, hrecords]
    | ok outputs => simp only [WorkflowExecutionResult.erase, hrecords]

/-- A run that returned with records, none of them a failure, is rebuilt from them:
resuming with the records starts no handler, every step leads on to the one state it
ends in, and the records and the result are those of the earlier run. -/
theorem replay_rebuilds (hv : job.ir.Valid) (h : Reach job ⟨.done, st⟩) (hne : st.records ≠ [])
    (hok : ∀ r ∈ st.records, r.result.outcome ≠ .failure) (source : String) :
    ∃ t, Reach (job.resuming st.records source) ⟨.done, t⟩ ∧
      (∀ m, Reach (job.resuming st.records source) m → m.sched.tasks = [] ∧
        ReflTransGen (Step (job.resuming st.records source)) m ⟨.done, t⟩) ∧
      (t.result (job.resuming st.records source)).erase = (st.result job).erase := by
  have hfin := reach_finished hv h hne hok
  obtain ⟨t, ht⟩ := (@follows_boot job st source hv hfin).finishes hv hfin .refl
  refine ⟨t, ht, fun m hm => ⟨?_, replays_unique hv hfin ht hm⟩, ?_⟩
  · exact (reach_replays hv hfin hm).follows.replaying.tasks
  · cases reach_replays hv hfin ht with
    | done _ he => exact result_same he _

/-- Three records of nested loops, and a run rebuilt from them. -/
theorem replay_rebuilds_nested : ∃ st t, Reach Sample.nested ⟨.done, st⟩ ∧
    st.records.length = 3 ∧
    Reach (Sample.nested.resuming st.records "earlier") ⟨.done, t⟩ ∧
    (∀ m, Reach (Sample.nested.resuming st.records "earlier") m → m.sched.tasks = [] ∧
      ReflTransGen (Step (Sample.nested.resuming st.records "earlier")) m ⟨.done, t⟩) ∧
    (t.result (Sample.nested.resuming st.records "earlier")).erase =
      (st.result Sample.nested).erase := by
  obtain ⟨m, hm, hphase, hlen, hok⟩ : ∃ m, Sample.after Sample.nested
      (Sample.finish (Sample.items 1) ++ Sample.finish (Sample.items 1) ++
        Sample.finish .null ++ [.turn]) = some m ∧ m.phase = .done ∧
      m.sched.records.length = 3 ∧ ∀ r ∈ m.sched.records, r.result.outcome ≠ .failure := by
    refine ⟨_, (Option.some_get (by decide +kernel)).symm, ?_, ?_, ?_⟩ <;> decide +kernel
  obtain ⟨phase, st⟩ := m
  obtain rfl : phase = .done := hphase
  have hreach := Sample.reach_after hm
  have hne : st.records ≠ [] := by
    intro he
    simp [he] at hlen
  obtain ⟨t, ht⟩ := replay_rebuilds Sample.nested_valid hreach hne hok "earlier"
  exact ⟨st, t, hreach, hlen, ht⟩

/-- The first node has completed and the second is running when the workflow's time
is up: the records are all successes, and resuming starts the second node. -/
theorem replay_after_timeout : ¬∀ (job : Job) (r : WorkflowExecutionResult) (source : String),
    job.ir.Valid → Executes job r → r.records ≠ [] →
    (∀ x ∈ r.records, x.result.outcome ≠ .failure) →
    ∀ m, Reach (job.resuming r.records source) m → m.sched.tasks = [] := by
  intro hclaim
  obtain ⟨m, m', hm, hphase, hne, hok, hm', htasks⟩ : ∃ m m', Sample.after Sample.chain
      (Sample.finish .null ++ [.turn]) = some m ∧ m.phase = .awaiting ∧ m.sched.records ≠ [] ∧
      (∀ r ∈ m.sched.records, r.result.outcome ≠ .failure) ∧
      Sample.after (Sample.chain.resuming m.sched.records "earlier") [.turn, .turn] = some m' ∧
      m'.sched.tasks.length = 1 := by
    refine ⟨_, _, (Option.some_get (by decide +kernel)).symm, ?_, ?_, ?_,
      (Option.some_get (by decide +kernel)).symm, ?_⟩
    · decide +kernel
    · exact List.ne_nil_of_length_pos (by decide +kernel)
    · decide +kernel
    · decide +kernel
  obtain ⟨phase, st⟩ := m
  obtain rfl : phase = .awaiting := hphase
  have hexec := @Executes.timedOut Sample.chain st 1000 (by decide) rfl (Sample.reach_after hm)
  have hnone := hclaim Sample.chain _ "earlier" Sample.chain_valid hexec hne hok m'
    (Sample.reach_after hm')
  simp [hnone] at htasks

end Run

end Raticode.Rattish
