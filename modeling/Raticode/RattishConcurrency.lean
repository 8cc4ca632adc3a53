import Raticode.RattishBreak

/-! The concurrency limit of loops. `_settle_loop_groups` compares every loop with
one list of live groups. The limit holds as long as no iteration that is about to
get work again is missing from that list. -/
namespace Raticode.Rattish
open OrderedDict Relation Components

def Sched.Busy (st : Sched) (g : GroupId) : Prop := ∃ h ∈ st.liveGroups, Sched.under h g = true

def WithinLimits (st : Sched) : Prop :=
  ∀ key ls, st.loops.get key = some ls → ∀ is : List ℕ, is.Nodup →
    (∀ i ∈ is, st.Busy (iterationGroup key i)) → is.length ≤ ls.maxConcurrency.toNat

/-- The group may have work, now or later: a live activation, a loop that can open
an iteration, or one of the groups `extra`, under it. -/
inductive Unfinished (extra : List GroupId) (st : Sched) (g : GroupId) : Prop
  | busy : st.Busy g → Unfinished extra st g
  | loop (key : LineageId) (ls : LoopState) : st.loops.get key = some ls → ls.canOpen →
      Sched.under key g = true → Unfinished extra st g
  | extra (h : GroupId) : h ∈ extra → Sched.under h g = true → Unfinished extra st g

/-- At most `max_concurrency` iterations of the loop are unfinished, and the active groups are
among those opened. -/
structure LoopBound (extra : List GroupId) (st : Sched) (key : LineageId) (ls : LoopState) :
    Prop where
  length : ls.activeGroups.length ≤ ls.maxConcurrency.toNat
  named : ∀ g ∈ ls.activeGroups, ∃ i < ls.nextIndex, g = iterationGroup key i
  fits : ∃ gs : List GroupId, gs.length ≤ ls.maxConcurrency.toNat ∧
    ∀ i < ls.nextIndex, Unfinished extra st (iterationGroup key i) → iterationGroup key i ∈ gs
  active : ls.canOpen → ∀ i < ls.nextIndex, Unfinished extra st (iterationGroup key i) →
    iterationGroup key i ∈ ls.activeGroups

def Bounded (extra : List GroupId) (st : Sched) : Prop :=
  ∀ key ls, st.loops.get key = some ls → LoopBound extra st key ls

variable {job : Job} {c : Completion} {st st' : Sched} {extra : List GroupId}

theorem under_iff {h g : GroupId} : Sched.under h g = true ↔ comps g <+: comps h := by
  rw [← eq_or_startsWith_iff g h]
  simp [Sched.under]

section Fresh

theorem WellFormed.colon_free (hv : job.ir.Valid) (hwf : WellFormed job st)
    (hc : c ∈ st.completions) : ':' ∉ c.record.nodeId.toList := by
  obtain ⟨n, hn, he⟩ := List.mem_map.mp (hwf.of_completion hc).2.1
  exact he ▸ hv.colon_free n hn

theorem WellFormed.opener (hv : job.ir.Valid) (hwf : WellFormed job st) {key : LineageId}
    {ls : LoopState} (hls : st.loops.get key = some ls) :
    ∃ c ∈ st.completions, Placed st c.activation ∧ ':' ∉ c.record.nodeId.toList ∧
      key = loopLineage c.activation.groupId c.record.nodeId c.record.runNumber := by
  obtain ⟨c, hc, ho⟩ := (hwf.loops key ls hls).opened
  refine ⟨c, hc, (hwf.of_completion hc).1, hwf.colon_free hv hc, ?_⟩
  rw [← hwf.lineage hls, ← ho.key]
  rfl

theorem WellFormed.loopName (hv : job.ir.Valid) (hwf : WellFormed job st) {key : LineageId}
    {ls : LoopState} (hls : st.loops.get key = some ls) : LoopName key := by
  obtain ⟨c, -, -, hn, he⟩ := hwf.opener hv hls
  exact ⟨_, _, _, hn, he⟩

theorem Placed.iteration_opened (hv : job.ir.Valid) (hwf : WellFormed job st) {a : Activation}
    (h : Placed st a) {key : LineageId} {ls : LoopState} {i : ℕ}
    (hls : st.loops.get key = some ls)
    (hu : comps (iterationGroup key i) <+: comps a.groupId) : i < ls.nextIndex := by
  -- by induction on the name of the group, from an iteration to what opened its loop
  induction hlen : (comps a.groupId).length using Nat.strong_induction_on generalizing a with
  | _ len ih =>
    cases h with
    | root _ hg _ => exact absurd hg (not_rootName_of_under hu)
    | iteration l j hl hj hg _ _ =>
      rw [hg] at hu
      rcases prefix_iterationGroup hu with ⟨hk, rfl⟩ | hu
      · rw [← hk, hls] at hl
        obtain rfl := Option.some.inj hl
        exact hj
      · obtain ⟨c, -, hplaced, hn, he⟩ := hwf.opener hv hl
        rw [he] at hu
        refine ih _ ?_ hplaced (prefix_loopLineage (hwf.loopName hv hls) hn hu) rfl
        rw [← hlen, hg, comps_iterationGroup, he, comps_loopLineage hn]
        simp only [List.length_append, List.length_cons]
        omega

theorem WellFormed.iteration_opened (hv : job.ir.Valid) (hwf : WellFormed job st)
    {k key : LineageId} {l ls : LoopState} {i : ℕ} (hl : st.loops.get k = some l)
    (hls : st.loops.get key = some ls) (hu : comps (iterationGroup key i) <+: comps k) :
    i < ls.nextIndex := by
  obtain ⟨c, -, hplaced, hn, he⟩ := hwf.opener hv hl
  rw [he] at hu
  exact hplaced.iteration_opened hv hwf hls (prefix_loopLineage (hwf.loopName hv hls) hn hu)

theorem WellFormed.placed_live (hwf : WellFormed job st) {h : GroupId} (hh : h ∈ st.liveGroups) :
    ∃ a, Placed st a ∧ a.groupId = h := by
  rcases List.mem_append.mp hh with hh | hh
  · obtain ⟨s, hs, rfl⟩ := List.mem_map.mp hh
    exact ⟨s.activation, hwf.placedPending s hs, rfl⟩
  · obtain ⟨k, hk, rfl⟩ := List.mem_map.mp hh
    obtain ⟨s, hs, rfl⟩ := hwf.mem_inflight hk
    exact ⟨s.task.activation, hwf.placedStarts s hs, rfl⟩

theorem Unfinished.opened (hv : job.ir.Valid) (hwf : WellFormed job st)
    (hextra : ∀ x ∈ extra, ∃ a, Placed st a ∧ a.groupId = x) {key : LineageId} {ls : LoopState}
    {i : ℕ} (hls : st.loops.get key = some ls)
    (h : Unfinished extra st (iterationGroup key i)) : i < ls.nextIndex := by
  cases h with
  | busy hb =>
    obtain ⟨g, hg, hu⟩ := hb
    obtain ⟨a, ha, rfl⟩ := hwf.placed_live hg
    exact ha.iteration_opened hv hwf hls (under_iff.mp hu)
  | loop k l hl _ hu => exact hwf.iteration_opened hv hl hls (under_iff.mp hu)
  | extra x hx hu =>
    obtain ⟨a, ha, rfl⟩ := hextra x hx
    exact ha.iteration_opened hv hwf hls (under_iff.mp hu)

end Fresh

section Keep

theorem LoopBound.mono {extra' : List GroupId} {key : LineageId} {ls : LoopState}
    (h : LoopBound extra st key ls)
    (hu : ∀ i, Unfinished extra' st' (iterationGroup key i) →
      Unfinished extra st (iterationGroup key i)) : LoopBound extra' st' key ls := by
  obtain ⟨hlen, hnamed, ⟨gs, hgs, hfits⟩, hact⟩ := h
  exact ⟨hlen, hnamed, ⟨gs, hgs, fun i hi hun => hfits i hi (hu i hun)⟩,
    fun ho i hi hun => hact ho i hi (hu i hun)⟩

theorem Bounded.frame {extra' : List GroupId} (h : Bounded extra st)
    (hl : st'.loops = st.loops)
    (hu : ∀ key i, Unfinished extra' st' (iterationGroup key i) →
      Unfinished extra st (iterationGroup key i)) : Bounded extra' st' :=
  fun key ls hls => (h key ls (hl ▸ hls)).mono (hu key)

theorem Unfinished.mono {extra' : List GroupId} {g : GroupId}
    (hl : ∀ key ls, st'.loops.get key = some ls → ls.canOpen →
      ∃ ls₀, st.loops.get key = some ls₀ ∧ ls₀.canOpen)
    (hb : ∀ h ∈ st'.liveGroups, Sched.under h g = true → h ∈ st.liveGroups ∨ h ∈ extra)
    (he : ∀ h ∈ extra', h ∈ st.liveGroups ∨ h ∈ extra) (h : Unfinished extra' st' g) :
    Unfinished extra st g := by
  have hgroup : ∀ x, (x ∈ st.liveGroups ∨ x ∈ extra) → Sched.under x g = true →
      Unfinished extra st g :=
    fun x hx hu => hx.elim (fun hx => .busy ⟨x, hx, hu⟩) (fun hx => .extra x hx hu)
  cases h with
  | busy hbusy =>
    obtain ⟨x, hx, hu⟩ := hbusy
    exact hgroup x (hb x hx hu) hu
  | loop key ls hls ho hu =>
    obtain ⟨ls₀, hls₀, ho₀⟩ := hl key ls hls ho
    exact .loop key ls₀ hls₀ ho₀ hu
  | extra x hx hu => exact hgroup x (he x hx) hu

theorem iteration_step (st : Sched) (ls : LoopState) :
    ∃ news, (st.openIteration ls).enqueueIteration ls = (st.openIteration ls).addSignals news ∧
      (st.openIteration ls).Emits ls.iterationActivation [(ls.nodeId, ls.runNumber)]
        (ls.routes.map (·.target)) news :=
  Sched.enqueue_foldl (fun r : Route => r.target) ls.iterationActivation
    [(ls.nodeId, ls.runNumber)] ls.routes (st.openIteration ls)

theorem Unfinished.of_iterate (hwf : WellFormed job st) {key : LineageId} {ls : LoopState}
    {news : List Signal} (hls : st.loops.get key = some ls) (ho : ls.canOpen)
    (hem : (st.openIteration ls).Emits ls.iterationActivation [(ls.nodeId, ls.runNumber)]
      (ls.routes.map (·.target)) news) {k : LineageId} {i : ℕ}
    (hne : iterationGroup k i ≠ ls.nextGroup)
    (h : Unfinished extra ((st.openIteration ls).addSignals news) (iterationGroup k i)) :
    Unfinished extra st (iterationGroup k i) := by
  obtain rfl := hwf.lineage hls
  cases h with
  | busy hb =>
    obtain ⟨x, hx, hu⟩ := hb
    simp only [Sched.liveGroups, Sched.addSignals, Sched.openIteration, List.map_append,
      List.mem_append] at hx
    rcases hx with (hx | hx) | hx
    · exact .busy ⟨x, List.mem_append_left _ hx, hu⟩
    · obtain ⟨s, hs, rfl⟩ := List.mem_map.mp hx
      rw [(hem.shape s hs).2.2] at hu
      rcases prefix_iterationGroup (under_iff.mp hu) with ⟨hk, hi⟩ | hu
      · exact absurd (by rw [hk, hi]; rfl) hne
      · exact .loop _ ls hls ho (under_iff.mpr hu)
    · exact .busy ⟨x, List.mem_append_right _ hx, hu⟩
  | loop k' l hl hol hu =>
    simp only [Sched.addSignals, Sched.openIteration, Dict.get_set] at hl
    split_ifs at hl with hk
    · subst hk
      exact .loop _ ls hls ho hu
    · exact .loop k' l hl hol hu
  | extra x hx hu => exact .extra x hx hu

theorem counted_length {ls : LoopState} (hlen : ls.activeGroups.length ≤ ls.maxConcurrency.toNat)
    (hcap : ls.hasCapacity = true) :
    ls.counted.activeGroups.length ≤ ls.counted.maxConcurrency.toNat := by
  simp only [LoopState.hasCapacity, decide_eq_true_eq] at hcap
  have hins : (ls.activeGroups.insert ls.nextGroup).length ≤ ls.activeGroups.length + 1 := by
    by_cases hm : ls.nextGroup ∈ ls.activeGroups
    · rw [List.insert_of_mem hm]
      omega
    · rw [List.length_insert_of_not_mem hm]
  simp only [LoopState.counted]
  split
  · exact hlen
  · omega

theorem Bounded.iterate (hv : job.ir.Valid) (hwf : WellFormed job st) (h : Bounded extra st)
    (hextra : ∀ x ∈ extra, ∃ a, Placed st a ∧ a.groupId = x) {key : LineageId} {ls : LoopState}
    {news : List Signal} (hls : st.loops.get key = some ls) (hn : ls.hasNext = true)
    (hcap : ls.hasCapacity = true)
    (hem : (st.openIteration ls).Emits ls.iterationActivation [(ls.nodeId, ls.runNumber)]
      (ls.routes.map (·.target)) news) :
    Bounded extra ((st.openIteration ls).addSignals news) := by
  have ho := canOpen_of_capacity hn hcap
  obtain rfl := hwf.lineage hls
  have hb := h _ ls hls
  -- the loop itself counts the new iteration, unless it has no routes and is over at once
  have hall : ∀ i < ls.counted.nextIndex,
      Unfinished extra ((st.openIteration ls).addSignals news) (iterationGroup ls.lineageId i) →
      iterationGroup ls.lineageId i ∈ ls.counted.activeGroups := by
    intro i hi hun
    by_cases hlt : i < ls.nextIndex
    · have hne : iterationGroup ls.lineageId i ≠ ls.nextGroup := by
        intro he
        have := (iterationGroup_inj.mp he).2
        omega
      have hm := hb.active ho i hlt (hun.of_iterate hwf hls ho hem hne)
      simp only [LoopState.counted]
      split
      · exact hm
      · exact List.mem_insert_of_mem hm
    · obtain rfl : i = ls.nextIndex := by
        have : ls.counted.nextIndex = ls.nextIndex + 1 := rfl
        omega
      by_cases hr : ls.routes = []
      · exfalso
        have hnews : news = [] := by
          cases news with
          | nil => rfl
          | cons s _ =>
            have := (hem.shape s List.mem_cons_self).1
            simp [hr] at this
        subst hnews
        refine absurd (Unfinished.opened hv hwf hextra hls
          (hun.mono ?_ (fun x hx _ => .inl ?_) (fun _ (hx : _ ∈ extra) => .inr hx))) (lt_irrefl _)
        · intro k l hl hol
          simp only [Sched.addSignals, Sched.openIteration, Dict.get_set] at hl
          split_ifs at hl with hk
          · exact ⟨ls, hk ▸ hls, ho⟩
          · exact ⟨l, hl, hol⟩
        · simpa [Sched.liveGroups, Sched.addSignals, Sched.openIteration] using hx
      · simp only [LoopState.counted, List.isEmpty_iff, hr, ↓reduceIte]
        exact List.mem_insert_self
  intro k l hl
  simp only [Sched.addSignals, Sched.openIteration, Dict.get_set] at hl
  split_ifs at hl with hk
  · obtain rfl := Option.some.inj hl
    subst hk
    have hlen := counted_length hb.length hcap
    refine ⟨hlen, fun g hg => ?_, ⟨_, hlen, hall⟩, fun _ => hall⟩
    simp only [LoopState.counted] at hg
    split at hg
    · obtain ⟨i, hi, he⟩ := hb.named g hg
      exact ⟨i, hi.trans (Nat.lt_succ_self _), he⟩
    · rcases List.mem_insert_iff.mp hg with rfl | hg
      · exact ⟨ls.nextIndex, Nat.lt_succ_self _, rfl⟩
      · obtain ⟨i, hi, he⟩ := hb.named g hg
        exact ⟨i, hi.trans (Nat.lt_succ_self _), he⟩
  · exact (h k l hl).mono (fun i hun => hun.of_iterate hwf hls ho hem
      (fun he => hk (iterationGroup_inj.mp he).1.symm))

end Keep

section Settle

def SettleSafe (extra : List GroupId) (st : Sched) : Prop :=
  ∀ key ls, st.loops.get key = some ls → ls.canOpen → ∀ g ∈ ls.activeGroups,
    Unfinished extra st g → st.Busy g

def Working (st : Sched) (key : LineageId) : Prop :=
  ∀ ls, st.loops.get key = some ls → ls.canOpen → ∃ g ∈ ls.activeGroups, st.Busy g

/-- A settling from `st₀` that has changed the loops `touched` at most and is done
with the loops `visited`. -/
structure Settling (job : Job) (extra : List GroupId) (st₀ : Sched)
    (touched visited : List LineageId) (s : Sched) : Prop where
  wf : WellFormed job s
  bounded : Bounded extra s
  placed : ∀ x ∈ extra, ∃ a, Placed s a ∧ a.groupId = x
  keys : s.loops.keys = st₀.loops.keys
  live : ∀ h ∈ st₀.liveGroups, h ∈ s.liveGroups
  back : ∀ k l i, st₀.loops.get k = some l → i < l.nextIndex →
    Unfinished extra s (iterationGroup k i) → Unfinished extra st₀ (iterationGroup k i)
  rest : ∀ k ∉ touched, s.loops.get k = st₀.loops.get k
  working : ∀ k ∈ visited, Working s k

variable {st₀ : Sched} {touched visited : List LineageId} {key : LineageId}

theorem Working.grow (hl : st'.loops.get key = st.loops.get key)
    (hlive : ∀ h ∈ st.liveGroups, h ∈ st'.liveGroups) (h : Working st key) : Working st' key := by
  intro ls hls ho
  obtain ⟨g, hg, x, hx, hu⟩ := h ls (hl ▸ hls) ho
  exact ⟨g, hg, x, hlive x hx, hu⟩

theorem prune_get {live : List GroupId} {k : LineageId} (hk : k ≠ key) :
    (st.prune live key).loops.get k = st.loops.get k := by
  unfold Sched.prune
  split
  · rfl
  · exact Dict.get_set_ne _ _ (fun he => hk he.symm)

theorem prune_get_self {live : List GroupId} {ls : LoopState} (hls : st.loops.get key = some ls) :
    (st.prune live key).loops.get key = some { ls with
      activeGroups := ls.activeGroups.filter (fun g => live.any (Sched.under · g)) } := by
  simp only [Sched.prune, hls]
  exact Dict.get_set_self _ _ _

theorem prune_keys {live : List GroupId} : (st.prune live key).loops.keys = st.loops.keys := by
  unfold Sched.prune
  split
  · rfl
  next ls hls =>
    rw [Dict.keys_set, if_pos (Dict.get_isSome_iff.mp (by simp [hls]))]

theorem prune_liveGroups {live : List GroupId} :
    (st.prune live key).liveGroups = st.liveGroups := by
  unfold Sched.prune
  split <;> rfl

theorem Unfinished.of_prune {live : List GroupId} {g : GroupId}
    (h : Unfinished extra (st.prune live key) g) : Unfinished extra st g := by
  refine h.mono (fun k l hl ho => ?_) (fun x hx _ => .inl (prune_liveGroups ▸ hx)) (fun _ => .inr)
  by_cases hk : k = key
  · subst hk
    cases hls : st.loops.get k with
    | none =>
      simp [Sched.prune, hls] at hl
    | some ls =>
      rw [prune_get_self hls] at hl
      obtain rfl := Option.some.inj hl
      exact ⟨ls, rfl, ho⟩
  · exact ⟨l, (prune_get hk) ▸ hl, ho⟩

theorem Bounded.prune {live : List GroupId} (h : Bounded extra st)
    (hs : ∀ ls, st.loops.get key = some ls → ls.canOpen → ∀ i < ls.nextIndex,
      iterationGroup key i ∈ ls.activeGroups → Unfinished extra st (iterationGroup key i) →
      live.any (Sched.under · (iterationGroup key i)) = true) :
    Bounded extra (st.prune live key) := by
  intro k l hl
  by_cases hk : k = key
  · subst hk
    cases hls : st.loops.get k with
    | none =>
      simp [Sched.prune, hls] at hl
    | some ls =>
      rw [prune_get_self hls] at hl
      obtain rfl := Option.some.inj hl
      obtain ⟨hlen, hnamed, ⟨gs, hgs, hfits⟩, hact⟩ := h k ls hls
      refine ⟨(List.length_filter_le _ _).trans hlen,
        fun g hg => hnamed g (List.mem_filter.mp hg).1, ⟨gs, hgs, fun i hi hun => hfits i hi hun.of_prune⟩, fun ho i hi hun => ?_⟩
      have hm := hact ho i hi hun.of_prune
      exact List.mem_filter.mpr ⟨hm, hs ls hls ho i hi hm hun.of_prune⟩
  · rw [prune_get hk] at hl
    exact (h k l hl).mono (fun _ hun => hun.of_prune)

theorem Settling.prune (h : Settling job extra st₀ visited visited st)
    (hsafe : SettleSafe extra st₀) (hkey : key ∉ visited) :
    Settling job extra st₀ (key :: visited) visited (st.prune st₀.liveGroups key) ∧
      ∀ ls, (st.prune st₀.liveGroups key).loops.get key = some ls → ∀ g ∈ ls.activeGroups,
        (st.prune st₀.liveGroups key).Busy g := by
  refine ⟨⟨h.wf.prune _ _, h.bounded.prune fun ls hls ho i hi hm hun => ?_, ?_, ?_, ?_, ?_, ?_,
    ?_⟩, ?_⟩
  · rw [h.rest key hkey] at hls
    obtain ⟨x, hx, hu⟩ := hsafe key ls hls ho _ hm (h.back key ls i hls hi hun)
    exact List.any_eq_true.mpr ⟨x, hx, hu⟩
  · intro x hx
    obtain ⟨a, ha, he⟩ := h.placed x hx
    exact ⟨a, ha.grow (prune_loopsGrow _ _), he⟩
  · exact prune_keys.trans h.keys
  · rw [prune_liveGroups]
    exact h.live
  · exact fun k l i hl hi hun => h.back k l i hl hi hun.of_prune
  · intro k hk
    simp only [List.mem_cons, not_or] at hk
    rw [prune_get hk.1, h.rest k hk.2]
  · intro k hk
    refine (h.working k hk).grow (prune_get ?_) (by rw [prune_liveGroups]; exact fun _ => id)
    rintro rfl
    exact hkey hk
  · intro ls hls g hg
    cases hl : st.loops.get key with
    | none =>
      simp [Sched.prune, hl] at hls
    | some l =>
      rw [prune_get_self hl] at hls
      obtain rfl := Option.some.inj hls
      obtain ⟨x, hx, hu⟩ := List.any_eq_true.mp (List.mem_filter.mp hg).2
      exact ⟨x, by rw [prune_liveGroups]; exact h.live x hx, hu⟩

theorem Sched.mem_liveGroups_of_isQueued {node : NodeId} {g : GroupId}
    (h : st.isQueued node g = true) : g ∈ st.liveGroups := by
  simp only [Sched.isQueued, Bool.or_eq_true, List.contains_iff_mem, List.any_eq_true,
    Bool.and_eq_true, decide_eq_true_eq] at h
  rcases h with h | ⟨s, hs, -, hg⟩
  · exact List.mem_append_right _ (List.mem_map.mpr ⟨_, h, rfl⟩)
  · exact List.mem_append_left _ (List.mem_map.mpr ⟨s, hs, hg⟩)

theorem live_iteration {ls : LoopState} (hr : ls.routes ≠ []) :
    ls.nextGroup ∈ ((st.openIteration ls).enqueueIteration ls).liveGroups := by
  obtain ⟨r, hm⟩ := List.exists_mem_of_ne_nil _ hr
  have hq := Sched.enqueue_foldl_queued (fun r : Route => r.target) ls.iterationActivation
    [(ls.nodeId, ls.runNumber)] ls.routes (st.openIteration ls) hm
  replace hq : ((st.openIteration ls).enqueueIteration ls).isQueued r.target ls.nextGroup = true :=
    hq
  exact Sched.mem_liveGroups_of_isQueued hq

theorem live_of_iterate {ls : LoopState} {x : GroupId} (hx : x ∈ st.liveGroups) :
    x ∈ ((st.openIteration ls).enqueueIteration ls).liveGroups := by
  obtain ⟨news, heq, -⟩ := iteration_step st ls
  rw [heq]
  simp only [Sched.liveGroups, Sched.addSignals, Sched.openIteration, List.map_append,
    List.mem_append] at hx ⊢
  exact hx.imp Or.inl id

theorem Settling.iterate (hv : job.ir.Valid)
    (h : Settling job extra st₀ touched visited st) (htouched : key ∈ touched)
    (hvisited : key ∉ visited) {ls : LoopState} (hls : st.loops.get key = some ls)
    (hn : ls.hasNext = true) (hcap : ls.hasCapacity = true)
    (hnext : ∀ l, st₀.loops.get key = some l → l.nextIndex ≤ ls.nextIndex)
    (hactive : ∀ g ∈ ls.activeGroups, st.Busy g) :
    Settling job extra st₀ touched visited ((st.openIteration ls).enqueueIteration ls) ∧
      ∀ g ∈ ls.counted.activeGroups, ((st.openIteration ls).enqueueIteration ls).Busy g := by
  obtain ⟨news, heq, hem⟩ := iteration_step st ls
  have hbusy : ls.routes ≠ [] → ((st.openIteration ls).addSignals news).Busy ls.nextGroup :=
    fun hr => heq ▸ ⟨_, live_iteration hr, under_iff.mpr List.prefix_rfl⟩
  have hlive : ∀ x ∈ st.liveGroups, x ∈ ((st.openIteration ls).addSignals news).liveGroups :=
    fun x hx => heq ▸ live_of_iterate hx
  rw [heq]
  have hlin := h.wf.lineage hls
  have hget : ∀ k, k ≠ key →
      ((st.openIteration ls).addSignals news).loops.get k = st.loops.get k := by
    intro k hk
    simp only [Sched.addSignals, Sched.openIteration]
    exact Dict.get_set_ne _ _ (fun he => hk (he ▸ hlin))
  refine ⟨⟨h.wf.iterate hv hls hem,
    h.bounded.iterate hv h.wf h.placed hls hn hcap hem, ?_, ?_, ?_, ?_, ?_, ?_⟩, ?_⟩
  · intro x hx
    obtain ⟨a, ha, he⟩ := h.placed x hx
    have hadv : ls.Advances ls.counted := ⟨rfl, Nat.le_succ _, id⟩
    exact ⟨a, ha.grow (.of_set hls (by rw [← hlin]; rfl) hadv), he⟩
  · simp only [Sched.addSignals, Sched.openIteration]
    rw [Dict.keys_set, if_pos (hlin ▸ Dict.get_isSome_iff.mp (by simp [hls])), h.keys]
  · exact fun x hx => hlive x (h.live x hx)
  · intro k l i hl hi hun
    refine h.back k l i hl hi (hun.of_iterate h.wf hls (canOpen_of_capacity hn hcap) hem ?_)
    -- the new iteration was not open when the settling began
    intro he
    obtain ⟨hk, hi'⟩ := iterationGroup_inj.mp he
    have := hnext l (by rw [← hlin, ← hk]; exact hl)
    omega
  · intro k hk
    rw [hget k (fun he => hk (he ▸ htouched)), h.rest k hk]
  · intro k hk
    exact (h.working k hk).grow (hget k (fun he => hvisited (he ▸ hk))) hlive
  · intro g hg
    simp only [LoopState.counted] at hg
    split at hg
    · obtain ⟨x, hx, hu⟩ := hactive g hg
      exact ⟨x, hlive x hx, hu⟩
    next hr =>
      rcases List.mem_insert_iff.mp hg with rfl | hg
      · exact hbusy (by simpa using hr)
      · obtain ⟨x, hx, hu⟩ := hactive g hg
        exact ⟨x, hlive x hx, hu⟩

theorem Settling.fill (hv : job.ir.Valid)
    (htouched : key ∈ touched) (hvisited : key ∉ visited) {fuel : ℕ}
    (h : Settling job extra st₀ touched visited st)
    (hnext : ∀ l ls, st₀.loops.get key = some l → st.loops.get key = some ls →
      l.nextIndex ≤ ls.nextIndex)
    (hactive : ∀ ls, st.loops.get key = some ls → ∀ g ∈ ls.activeGroups, st.Busy g)
    (hf : Sched.fill fuel key st = .ok st') :
    Settling job extra st₀ touched visited st' ∧ Working st' key ∧
      ∀ ls, st'.loops.get key = some ls → ∀ g ∈ ls.activeGroups, st'.Busy g := by
  induction fuel generalizing st with
  | zero => simp [Sched.fill] at hf
  | succ fuel ih =>
    simp only [Sched.fill] at hf
    split at hf
    next hnone =>
      obtain rfl := Except.ok.inj hf
      exact ⟨h, fun ls hls => absurd (hnone.symm.trans hls) (by simp), hactive⟩
    next ls hls =>
      have hlin := h.wf.lineage hls
      split at hf
      next hg =>
        simp only [Bool.and_eq_true] at hg
        obtain ⟨hs, ha⟩ := h.iterate hv htouched hvisited hls hg.1 hg.2
          (fun l hl => hnext l ls hl hls) (hactive ls hls)
        have hself : ((st.openIteration ls).enqueueIteration ls).loops.get key =
            some ls.counted := by
          obtain ⟨news, heq, -⟩ := iteration_step st ls
          rw [heq]
          simp only [Sched.addSignals, Sched.openIteration, hlin]
          exact Dict.get_set_self _ _ _
        refine ih hs (fun l ls' hl hls' => ?_) (fun ls' hls' => ?_) hf
        · obtain rfl := Option.some.inj (hself.symm.trans hls')
          exact (hnext l ls hl hls).trans (Nat.le_succ _)
        · obtain rfl := Option.some.inj (hself.symm.trans hls')
          exact ha
      next hg =>
        obtain rfl := Except.ok.inj hf
        refine ⟨h, fun ls' hls' ho => ?_, hactive⟩
        obtain rfl := Option.some.inj (hls.symm.trans hls')
        have hcap : ls.hasCapacity = false := by simpa [ho.1] using hg
        simp only [LoopState.hasCapacity, decide_eq_false_iff_not, not_lt] at hcap
        have hpos := ho.2
        obtain ⟨g, hm⟩ := List.exists_mem_of_length_pos (l := ls.activeGroups) (by omega)
        exact ⟨g, hm, hactive ls hls g hm⟩

theorem fill_live {fuel : ℕ} (hf : Sched.fill fuel key st = .ok st') {x : GroupId}
    (hx : x ∈ st.liveGroups) : x ∈ st'.liveGroups := by
  induction fuel generalizing st with
  | zero => simp [Sched.fill] at hf
  | succ fuel ih =>
    simp only [Sched.fill] at hf
    split at hf
    · exact Except.ok.inj hf ▸ hx
    · split at hf
      · exact ih hf (live_of_iterate hx)
      · exact Except.ok.inj hf ▸ hx

theorem fill_opens {fuel : ℕ} {ls : LoopState} (hls : st.loops.get key = some ls)
    (hn : ls.hasNext = true) (hcap : ls.hasCapacity = true) (hr : ls.routes ≠ [])
    (hf : Sched.fill fuel key st = .ok st') : ls.nextGroup ∈ st'.liveGroups := by
  cases fuel with
  | zero => simp [Sched.fill] at hf
  | succ fuel =>
    simp only [Sched.fill, hls, hn, hcap, Bool.and_self, ↓reduceIte] at hf
    exact fill_live hf (live_iteration hr)

theorem Settling.visit (hv : job.ir.Valid) (h : Settling job extra st₀ visited visited st)
    (hsafe : SettleSafe extra st₀) (hkey : key ∉ visited)
    (hf : (st.prune st₀.liveGroups key).fillLoopCapacity key = .ok st') :
    Settling job extra st₀ (key :: visited) (key :: visited) st' := by
  obtain ⟨hs, hactive⟩ := h.prune hsafe hkey
  obtain ⟨hs', hw⟩ : Settling job extra st₀ (key :: visited) visited st' ∧ Working st' key := by
    unfold Sched.fillLoopCapacity at hf
    split at hf
    next hnone =>
      obtain rfl := Except.ok.inj hf
      exact ⟨hs, fun ls hls => absurd (hnone.symm.trans hls) (by simp)⟩
    · refine And.imp_right And.left
        (hs.fill hv List.mem_cons_self hkey (fun l ls hl hls => ?_) hactive hf)
      rw [prune_get_self ((h.rest key hkey).trans hl)] at hls
      obtain rfl := Option.some.inj hls
      exact le_rfl
  exact { hs' with
    working := fun k hk => (List.mem_cons.mp hk).elim (fun he => he ▸ hw) (hs'.working k) }

theorem settle_bounded (hv : job.ir.Valid) (hwf : WellFormed job st) (hb : Bounded extra st)
    (hplaced : ∀ x ∈ extra, ∃ a, Placed st a ∧ a.groupId = x) (hnd : st.loops.keys.Nodup)
    (hsafe : SettleSafe extra st) (h : st.settleLoopGroups = .ok st') :
    ∃ touched visited, Settling job extra st touched visited st' ∧ ∀ k, Working st' k := by
  have hfold : ∀ (todo visited : List LineageId) (s : Sched), (todo ++ visited).Nodup →
      Settling job extra st visited visited s →
      todo.foldlM (fun s key => (s.prune st.liveGroups key).fillLoopCapacity key) s = .ok st' →
      ∃ done, Settling job extra st done done st' ∧ ∀ k ∈ todo ++ visited, k ∈ done := by
    intro todo
    induction todo with
    | nil =>
      intro visited s _ hs hf
      obtain rfl := Except.ok.inj hf
      exact ⟨visited, hs, fun k hk => hk⟩
    | cons key todo ih =>
      intro visited s hnd hs hf
      simp only [List.cons_append, List.nodup_cons, List.mem_append, not_or] at hnd
      rw [List.foldlM_cons] at hf
      obtain ⟨s₁, h₁, hf⟩ := bind_eq_ok.mp hf
      obtain ⟨done, hd, hall⟩ := ih (key :: visited) s₁
        (List.perm_middle.nodup_iff.mpr (List.nodup_cons.mpr ⟨by
          simpa only [List.mem_append, not_or] using hnd.1, hnd.2⟩))
        (hs.visit hv hsafe hnd.1.2 h₁) hf
      refine ⟨done, hd, fun k hk => hall k ?_⟩
      exact List.perm_middle.symm.mem_iff.mp hk
  have hstart : Settling job extra st [] [] st :=
    ⟨hwf, hb, hplaced, rfl, fun _ => id, fun _ _ _ _ _ => id, fun _ _ => rfl, by simp⟩
  obtain ⟨done, hs, hall⟩ := hfold st.loops.keys [] st (by simpa using hnd) hstart h
  refine ⟨done, done, hs, fun k ls hls ho => hs.working k ?_ ls hls ho⟩
  have hk : k ∈ st'.loops.keys := Dict.get_isSome_iff.mp (by simp [hls])
  rw [hs.keys] at hk
  exact hall k (List.mem_append_left _ hk)

end Settle

end Raticode.Rattish
