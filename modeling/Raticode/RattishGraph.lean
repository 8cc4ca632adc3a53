import Raticode.Fixpoint
import Raticode.RattishScheduler

/-! `_analyze_graph`: the activation contexts, the guaranteed sources and the nodes that
can become runnable, each computed by passes until nothing changes. The drafts of the
compiler are lowered node by node, so the analysis is stated on the lowered nodes. -/
namespace Raticode.Rattish
open Fixpoint

namespace IR

variable (ir : IR)

def ids : List NodeId := ir.nodes.map (·.id)

def size : ℕ := ir.ids.toFinset.card

/-- `route_graph[node_id]`. -/
def targets (n : Node) : List NodeId :=
  ((n.routes.map (·.target)).filter (ir.ids.contains ·)).dedup

/-- `predecessors[node_id]`; `incoming[node_id]` is the same set. -/
def predecessors (id : NodeId) : List NodeId :=
  (ir.nodes.filter (fun n => (ir.targets n).contains id)).map (·.id)

def starts : List NodeId := (ir.nodes.filter (·.needs.isEmpty)).map (·.id)

abbrev Contexts := NodeId → Finset (List NodeId)

def routedContext (n : Node) (context : List NodeId) : List NodeId :=
  if n.type = .loop ∧ n.id ∉ context then context ++ [n.id] else context

/-- `activation_contexts[target].update(routed_contexts)`. -/
def addContexts (routed : Finset (List NodeId)) (t : Contexts) (target : NodeId) :
    Contexts × Bool :=
  let updated := t target ∪ routed
  (Function.update t target updated, updated.card != (t target).card)

def routeContexts (t : Contexts) (n : Node) : Contexts × Bool :=
  if t n.id = ∅ then (t, false)
  else sweep (addContexts ((t n.id).image (routedContext n))) (ir.targets n) t

def initialContexts : Contexts := fun id => if id ∈ ir.starts then {[]} else ∅

/-- `activation_contexts`. A context repeats no loop, so there are finitely many. -/
def activationContexts : Contexts :=
  untilStable (sweep ir.routeContexts ir.nodes) (ir.size * (ir.size + 1) ^ ir.size + 1)
    ir.initialContexts

/-- What `dominators[node_id]` is updated to. -/
def updatedDominators (t : NodeId → Finset NodeId) (id : NodeId) : Finset NodeId :=
  if ir.predecessors id = [] then {id}
  else insert id ((ir.predecessors id).foldl (fun common p => common ∩ t p) ir.ids.toFinset)

def stepDominators (t : NodeId → Finset NodeId) (id : NodeId) : (NodeId → Finset NodeId) × Bool :=
  if ir.updatedDominators t id ≠ t id then
    (Function.update t id (ir.updatedDominators t id), true)
  else (t, false)

/-- `sorted(all_nodes - starts)`. -/
def dominated : List NodeId := Sched.sortedStrings (ir.ids.filter (fun id => !ir.starts.contains id))

def dominators : NodeId → Finset NodeId :=
  untilStable (sweep ir.stepDominators ir.dominated) (ir.size * ir.size + 1)
    (fun id => if id ∈ ir.starts then {id} else ir.ids.toFinset)

def stepNeedClosure (t : NodeId → Finset NodeId) (id : NodeId) : (NodeId → Finset NodeId) × Bool :=
  let expanded := t id ∪ (t id).biUnion t
  if expanded ≠ t id then (Function.update t id expanded, true) else (t, false)

def needClosure : NodeId → Finset NodeId :=
  untilStable (sweep stepNeedClosure (Sched.sortedStrings ir.ids)) (ir.size * ir.size + 1)
    (fun id => (ir.node id).needs.toFinset)

def guaranteedSources (id : NodeId) : Finset NodeId :=
  (ir.dominators id ∪ ir.needClosure id).erase id

/-- `optional` as `_lower_reference` sets it on a reference from `consumer` to the
output of a node. -/
def outputOptional (consumer symbol : NodeId) : Bool :=
  symbol ∉ ir.guaranteedSources consumer || (ir.node symbol).allowFail

def stepRunnable (t : Finset NodeId) (n : Node) : Finset NodeId × Bool :=
  if n.id ∈ t then (t, false)
  else if n.needs.all (· ∈ t) && (ir.predecessors n.id).any (· ∈ t) then (insert n.id t, true)
  else (t, false)

def potentiallyRunnable : Finset NodeId :=
  untilStable (sweep ir.stepRunnable ir.nodes) (ir.size + 1) ir.starts.toFinset

def compatible (needed node : NodeId) : Prop :=
  ∃ p ∈ ir.activationContexts needed, ∃ c ∈ ir.activationContexts node, c.take p.length = p

instance (needed node : NodeId) : Decidable (ir.compatible needed node) :=
  inferInstanceAs (Decidable (∃ p ∈ _, ∃ c ∈ _, _))

/-- The node and the requirement of each `RATTISH_INCOMPATIBLE_ACTIVATION_LINEAGE`. -/
def incompatibleLineages : List (NodeId × NodeId) :=
  ir.nodes.flatMap (fun n =>
    (n.needs.filter (fun m => m ∈ ir.ids ∧ ¬ir.compatible m n.id)).map (fun m => (n.id, m)))

/-- The node and the requirement of each `RATTISH_UNREACHABLE_REQUIREMENT`. -/
def unreachableRequirements : List (NodeId × NodeId) :=
  ir.nodes.flatMap (fun n =>
    (n.needs.filter (fun m => m ∈ ir.ids ∧ m ∉ ir.potentiallyRunnable)).map (fun m => (n.id, m)))

section Contexts

variable {ir}

theorem mem_targets {n : Node} {id : NodeId} :
    id ∈ ir.targets n ↔ (∃ r ∈ n.routes, r.target = id) ∧ id ∈ ir.ids := by
  simp [targets, List.mem_dedup]

theorem mem_predecessors {id p : NodeId} :
    p ∈ ir.predecessors id ↔ ∃ n ∈ ir.nodes, id ∈ ir.targets n ∧ n.id = p := by
  simp [predecessors, and_assoc]

theorem mem_starts {id : NodeId} : id ∈ ir.starts ↔ ∃ n ∈ ir.nodes, n.needs = [] ∧ n.id = id := by
  simp [starts, and_assoc]

/-- What every table of contexts has: contexts that repeat no loop and name known
nodes, and the empty context for the nodes without needs. -/
structure ContextsWf (ir : IR) (t : Contexts) : Prop where
  nodup : ∀ id, ∀ c ∈ t id, c.Nodup
  known : ∀ id, ∀ c ∈ t id, ∀ x ∈ c, x ∈ ir.ids.toFinset
  starts : ∀ id ∈ ir.starts, [] ∈ t id

theorem ContextsWf.bounded {t : Contexts} (h : ContextsWf ir t) :
    total ir.ids.toFinset t ≤ ir.size * (ir.size + 1) ^ ir.size :=
  total_le fun id _ => card_nodup_lists_le _ _ fun c hc => ⟨h.nodup id c hc, h.known id c hc⟩

theorem ContextsWf.add {t : Contexts} (h : ContextsWf ir t) {routed : Finset (List NodeId)}
    (hr : ∀ c ∈ routed, c.Nodup ∧ ∀ x ∈ c, x ∈ ir.ids.toFinset) (target : NodeId) :
    ContextsWf ir (addContexts routed t target).1 := by
  have hmem : ∀ id, ∀ c ∈ (addContexts routed t target).1 id, c ∈ t id ∨ c ∈ routed := by
    intro id c hc
    simp only [addContexts, Function.update_apply] at hc
    split at hc
    next he =>
      rw [he]
      exact Finset.mem_union.mp hc
    · exact .inl hc
  refine ⟨fun id c hc => ?_, fun id c hc => ?_, fun id hid => ?_⟩
  · exact (hmem id c hc).elim (h.nodup id c) (fun hc => (hr c hc).1)
  · exact (hmem id c hc).elim (h.known id c) (fun hc => (hr c hc).2)
  · simp only [addContexts, Function.update_apply]
    split
    next he => exact Finset.mem_union_left _ (he ▸ h.starts id hid)
    · exact h.starts id hid

theorem ContextsWf.routed {t : Contexts} (h : ContextsWf ir t) {n : Node} (hn : n ∈ ir.nodes) :
    ∀ c ∈ (t n.id).image (routedContext n), c.Nodup ∧ ∀ x ∈ c, x ∈ ir.ids.toFinset := by
  intro c hc
  obtain ⟨c₀, hc₀, rfl⟩ := Finset.mem_image.mp hc
  unfold routedContext
  split
  next hloop =>
    refine ⟨List.nodup_append.mpr ⟨h.nodup _ _ hc₀, by simp, ?_⟩, fun x hx => ?_⟩
    · intro a ha b hb he
      exact hloop.2 (List.mem_singleton.mp hb ▸ he ▸ ha)
    · rcases List.mem_append.mp hx with hx | hx
      · exact h.known _ _ hc₀ x hx
      · rw [List.mem_singleton.mp hx]
        exact List.mem_toFinset.mpr (List.mem_map_of_mem hn)
  · exact ⟨h.nodup _ _ hc₀, h.known _ _ hc₀⟩

theorem addContexts_grows {routed : Finset (List NodeId)} {t : Contexts} {target : NodeId}
    (ht : target ∈ ir.ids.toFinset) :
    Grows (total ir.ids.toFinset) t (addContexts routed t target) := by
  have htotal := total_update (t := t) (s := t target ∪ routed) ht
  have hcard : (t target).card ≤ (t target ∪ routed).card :=
    Finset.card_le_card Finset.subset_union_left
  simp only [Grows, addContexts, bne_iff_ne, ne_eq]
  refine ⟨by omega, fun hne => by omega⟩

theorem addContexts_same {routed : Finset (List NodeId)} (t : Contexts) (target : NodeId)
    (h : (addContexts routed t target).2 = false) :
    routed ⊆ t target ∧ (addContexts routed t target).1 = t := by
  simp only [addContexts, bne_eq_false_iff_eq] at h ⊢
  have heq : t target = t target ∪ routed :=
    Finset.eq_of_subset_of_card_le Finset.subset_union_left h.le
  rw [← heq]
  exact ⟨heq ▸ Finset.subset_union_right, Function.update_eq_self ..⟩

theorem ContextsWf.initial : ContextsWf ir ir.initialContexts := by
  have hnil : ∀ id, ∀ c ∈ ir.initialContexts id, c = [] := by
    intro id c hc
    unfold initialContexts at hc
    split at hc
    · exact Finset.mem_singleton.mp hc
    · simp at hc
  refine ⟨fun id c hc => ?_, fun id c hc => ?_, fun id hid => ?_⟩
  · rw [hnil id c hc]
    exact List.nodup_nil
  · rw [hnil id c hc]
    exact nofun
  · simp [initialContexts, hid]

theorem ContextsWf.route {t : Contexts} (h : ContextsWf ir t) {n : Node} (hn : n ∈ ir.nodes) :
    ContextsWf ir (ir.routeContexts t n).1 := by
  unfold routeContexts
  split
  · exact h
  · exact sweep_induct (fun t target _ ht => ht.add (h.routed hn) target) h

theorem routeContexts_same (t : Contexts) (n : Node) (h : (ir.routeContexts t n).2 = false) :
    (ir.routeContexts t n).1 = t := by
  unfold routeContexts at h ⊢
  split at h
  next he => rw [if_pos he]
  next he =>
    rw [if_neg he]
    exact (sweep_stable (fun t k hk => (addContexts_same t k hk).2) h).1

theorem ContextsWf.route_decreases {t : Contexts} (h : ContextsWf ir t) {n : Node}
    (hn : n ∈ ir.nodes) :
    Decreases (fun t => ir.size * (ir.size + 1) ^ ir.size - total ir.ids.toFinset t) t
      (ir.routeContexts t n) := by
  unfold routeContexts
  split
  · exact ⟨le_rfl, nofun⟩
  · refine sweep_decreases (P := ContextsWf ir) (fun t target _ ht => ht.add (h.routed hn) target)
      (fun t target htarget ht => ?_) h
    exact (addContexts_grows (List.mem_toFinset.mpr (mem_targets.mp htarget).2)).decreases
      (ht.add (h.routed hn) target).bounded

theorem activationContexts_settled : ContextsWf ir ir.activationContexts ∧
    ∀ n ∈ ir.nodes, (ir.routeContexts ir.activationContexts n).2 = false :=
  settles (fun _ _ hn ht => ht.route hn) (fun _ _ hn ht => ht.route_decreases hn)
    routeContexts_same (Nat.lt_succ_of_le (Nat.sub_le _ _)) ContextsWf.initial

theorem mem_activationContexts_of_start {id : NodeId} (h : id ∈ ir.starts) :
    [] ∈ ir.activationContexts id := activationContexts_settled.1.starts id h

theorem mem_activationContexts_of_route {n : Node} (hn : n ∈ ir.nodes) {target : NodeId}
    (ht : target ∈ ir.targets n) {c : List NodeId} (hc : c ∈ ir.activationContexts n.id) :
    routedContext n c ∈ ir.activationContexts target := by
  have hflag := activationContexts_settled.2 n hn
  unfold routeContexts at hflag
  rw [if_neg (Finset.ne_empty_of_mem hc)] at hflag
  have hall := (sweep_stable (fun t k hk => (addContexts_same t k hk).2) hflag).2 target ht
  exact (addContexts_same _ _ hall).1 (Finset.mem_image_of_mem _ hc)

end Contexts

section Dominators

variable {ir}

theorem mem_foldl_inter {t : NodeId → Finset NodeId} {l : List NodeId} {s : Finset NodeId}
    {d : NodeId} : d ∈ l.foldl (fun common p => common ∩ t p) s ↔ d ∈ s ∧ ∀ p ∈ l, d ∈ t p := by
  induction l generalizing s with
  | nil => simp
  | cons p l ih =>
    rw [List.foldl_cons, ih, Finset.mem_inter]
    simp [and_assoc]

theorem mem_updatedDominators {t : NodeId → Finset NodeId} {id d : NodeId} :
    d ∈ ir.updatedDominators t id ↔ d = id ∨
      (ir.predecessors id ≠ [] ∧ d ∈ ir.ids ∧ ∀ p ∈ ir.predecessors id, d ∈ t p) := by
  unfold updatedDominators
  split
  next he => simp [he]
  next he => simp [mem_foldl_inter, he]

theorem updatedDominators_mono {t t' : NodeId → Finset NodeId} (h : ∀ id, t' id ⊆ t id)
    (id : NodeId) : ir.updatedDominators t' id ⊆ ir.updatedDominators t id := by
  intro d hd
  rw [mem_updatedDominators] at hd ⊢
  exact hd.imp_right (fun ⟨h₁, h₂, h₃⟩ => ⟨h₁, h₂, fun p hp => h p (h₃ p hp)⟩)

theorem mem_dominated {id : NodeId} : id ∈ ir.dominated ↔ id ∈ ir.ids ∧ id ∉ ir.starts := by
  simp [dominated, Sched.sortedStrings]

/-- The tables of `dominators`: an update only takes nodes away. -/
structure DominatorsWf (ir : IR) (t : NodeId → Finset NodeId) : Prop where
  shrinks : ∀ id ∈ ir.dominated, ir.updatedDominators t id ⊆ t id
  starts : ∀ id ∈ ir.starts, t id = {id}
  known : ∀ id ∈ ir.ids, t id ⊆ ir.ids.toFinset

theorem DominatorsWf.step {t : NodeId → Finset NodeId} (h : DominatorsWf ir t) {id : NodeId}
    (hid : id ∈ ir.dominated) : DominatorsWf ir (ir.stepDominators t id).1 := by
  unfold stepDominators
  split
  · have hsub : ∀ k, Function.update t id (ir.updatedDominators t id) k ⊆ t k := by
      intro k
      rw [Function.update_apply]
      split
      next he => exact he ▸ h.shrinks id hid
      · exact Finset.Subset.refl _
    refine ⟨fun k hk => ?_, fun k hk => ?_, fun k hk => (hsub k).trans (h.known k hk)⟩
    · refine (updatedDominators_mono hsub k).trans ?_
      dsimp only
      rw [Function.update_apply]
      split
      next he => rw [he]
      · exact h.shrinks k hk
    · have hne : k ≠ id := fun he => (mem_dominated.mp hid).2 (he ▸ hk)
      exact (Function.update_of_ne hne ..).trans (h.starts k hk)
  · exact h

theorem DominatorsWf.decreases {t : NodeId → Finset NodeId} (h : DominatorsWf ir t) {id : NodeId}
    (hid : id ∈ ir.dominated) :
    Decreases (total ir.ids.toFinset) t (ir.stepDominators t id) := by
  unfold stepDominators
  split
  next hne =>
    have htotal := total_update (t := t) (s := ir.updatedDominators t id)
      (List.mem_toFinset.mpr (mem_dominated.mp hid).1)
    have hlt := Finset.card_lt_card (Finset.ssubset_iff_subset_ne.mpr ⟨h.shrinks id hid, hne⟩)
    dsimp only [Decreases]
    omega
  · exact ⟨le_rfl, nofun⟩

theorem DominatorsWf.initial :
    DominatorsWf ir (fun id => if id ∈ ir.starts then {id} else ir.ids.toFinset) := by
  have hstart : ∀ id ∈ ir.starts, id ∈ ir.ids := by
    intro id hid
    obtain ⟨n, hn, -, rfl⟩ := mem_starts.mp hid
    exact List.mem_map_of_mem hn
  refine ⟨fun id hid d hd => ?_, fun id hid => if_pos hid, fun id hid => ?_⟩
  · obtain ⟨h₁, h₂⟩ := mem_dominated.mp hid
    rw [if_neg h₂, List.mem_toFinset]
    rcases mem_updatedDominators.mp hd with rfl | ⟨-, hd, -⟩
    · exact h₁
    · exact hd
  · split
    · simpa using hid
    · exact Finset.Subset.refl _

theorem dominators_settled : DominatorsWf ir ir.dominators ∧
    ∀ id ∈ ir.dominated, ir.dominators id = ir.updatedDominators ir.dominators id := by
  have hloop : DominatorsWf ir ir.dominators ∧
      ∀ id ∈ ir.dominated, (ir.stepDominators ir.dominators id).2 = false := settles
    (fun _ _ hid ht => ht.step hid) (fun _ _ hid ht => ht.decreases hid)
    (fun t id h => by
      unfold stepDominators at h ⊢
      split at h
      · simp at h
      next he => rw [if_neg he])
    (Nat.lt_succ_of_le (total_le fun id hid => Finset.card_le_card
      (DominatorsWf.initial.known id (List.mem_toFinset.mp hid)))) DominatorsWf.initial
  obtain ⟨hwf, hstable⟩ := hloop
  refine ⟨hwf, fun id hid => ?_⟩
  have hflag := hstable id hid
  unfold stepDominators at hflag
  split at hflag
  · simp at hflag
  next he => exact (not_not.mp he).symm

theorem mem_dominators {id d : NodeId} (hid : id ∈ ir.ids) (hd : d ∈ ir.dominators id)
    (hne : d ≠ id) : id ∉ ir.starts ∧ ∀ p ∈ ir.predecessors id, d ∈ ir.dominators p := by
  have hstart : id ∉ ir.starts := by
    intro hs
    rw [dominators_settled.1.starts id hs] at hd
    exact hne (Finset.mem_singleton.mp hd)
  refine ⟨hstart, ?_⟩
  rw [dominators_settled.2 id (mem_dominated.mpr ⟨hid, hstart⟩), mem_updatedDominators] at hd
  exact (hd.resolve_left hne).2.2

end Dominators

section NeedClosure

variable {ir}

def Needs (ir : IR) (id m : NodeId) : Prop := m ∈ (ir.node id).needs

/-- The tables of `need_closure`: between the needs and their transitive closure. -/
structure NeedClosureWf (ir : IR) (t : NodeId → Finset NodeId) : Prop where
  needs : ∀ id, ∀ m, ir.Needs id m → m ∈ t id
  reached : ∀ id, ∀ m ∈ t id, Relation.TransGen ir.Needs id m

theorem NeedClosureWf.step {t : NodeId → Finset NodeId} (h : NeedClosureWf ir t) (id : NodeId) :
    NeedClosureWf ir (stepNeedClosure t id).1 := by
  unfold stepNeedClosure
  dsimp only
  split
  · refine ⟨fun k m hm => ?_, fun k m hm => ?_⟩
    · dsimp only
      rw [Function.update_apply]
      split
      next he => exact Finset.mem_union_left _ (he ▸ h.needs k m hm)
      · exact h.needs k m hm
    · dsimp only at hm
      rw [Function.update_apply] at hm
      split at hm
      next he =>
        subst he
        rcases Finset.mem_union.mp hm with hm | hm
        · exact h.reached k m hm
        · obtain ⟨x, hx, hm⟩ := Finset.mem_biUnion.mp hm
          exact (h.reached k x hx).trans (h.reached x m hm)
      · exact h.reached k m hm
  · exact h

theorem needs_known (hv : ir.Valid) {id m : NodeId} (h : ir.Needs id m) : m ∈ ir.ids :=
  ir.forall_node (P := fun n => ∀ m ∈ n.needs, m ∈ ir.ids) hv.needs_known (fun _ => nofun) id m h

theorem NeedClosureWf.bounded (hv : ir.Valid) {t : NodeId → Finset NodeId}
    (h : NeedClosureWf ir t) : total ir.ids.toFinset t ≤ ir.size * ir.size := by
  refine total_le fun id _ => Finset.card_le_card fun m hm => List.mem_toFinset.mpr ?_
  obtain ⟨x, -, hx⟩ := Relation.TransGen.tail'_iff.mp (h.reached id m hm)
  exact needs_known hv hx

theorem stepNeedClosure_grows {t : NodeId → Finset NodeId} {id : NodeId} (hid : id ∈ ir.ids) :
    Grows (total ir.ids.toFinset) t (stepNeedClosure t id) := by
  unfold stepNeedClosure
  dsimp only
  split
  next hne =>
    have htotal := total_update (t := t) (s := t id ∪ (t id).biUnion t) (List.mem_toFinset.mpr hid)
    have hlt := Finset.card_lt_card (Finset.ssubset_iff_subset_ne.mpr
      ⟨(Finset.subset_union_left : t id ⊆ t id ∪ (t id).biUnion t), hne.symm⟩)
    dsimp only [Grows]
    omega
  · exact ⟨le_rfl, nofun⟩

theorem stepNeedClosure_same {t : NodeId → Finset NodeId} {id : NodeId}
    (h : (stepNeedClosure t id).2 = false) :
    (stepNeedClosure t id).1 = t ∧ (t id).biUnion t ⊆ t id := by
  unfold stepNeedClosure at h ⊢
  dsimp only at h ⊢
  split at h
  · simp at h
  next he =>
    rw [if_neg he]
    exact ⟨rfl, Finset.union_eq_left.mp (not_not.mp he)⟩

theorem mem_needClosure (hv : ir.Valid) {id m : NodeId} (hid : id ∈ ir.ids) :
    m ∈ ir.needClosure id ↔ Relation.TransGen ir.Needs id m := by
  have hkeys : ∀ k, k ∈ Sched.sortedStrings ir.ids ↔ k ∈ ir.ids := fun k => by
    simp [Sched.sortedStrings]
  have hloop : NeedClosureWf ir ir.needClosure ∧
      ∀ id ∈ Sched.sortedStrings ir.ids, (stepNeedClosure ir.needClosure id).2 = false := settles
    (fun _ k _ ht => ht.step k)
    (fun _ k hk ht => (stepNeedClosure_grows ((hkeys k).mp hk)).decreases
      ((ht.step k).bounded hv))
    (fun t k h => (stepNeedClosure_same h).1) (Nat.lt_succ_of_le (Nat.sub_le _ _))
    ⟨fun id m hm => List.mem_toFinset.mpr hm, fun id m hm => .single (List.mem_toFinset.mp hm)⟩
  obtain ⟨hwf, hstable⟩ := hloop
  refine ⟨hwf.reached id m, fun htrans => ?_⟩
  -- along a chain of needs every node is known, and the table of its head is closed
  induction htrans using Relation.TransGen.head_induction_on with
  | single h => exact hwf.needs _ _ h
  | @head a b hab _ ih =>
    have hclosed := (stepNeedClosure_same (hstable a ((hkeys a).mpr hid))).2
    exact hclosed (Finset.mem_biUnion.mpr ⟨b, hwf.needs a b hab, ih (needs_known hv hab)⟩)

end NeedClosure

section Runnable

variable {ir}

theorem stepRunnable_grows (t : Finset NodeId) (n : Node) :
    Grows Finset.card t (ir.stepRunnable t n) := by
  unfold stepRunnable
  split
  · exact ⟨le_rfl, nofun⟩
  next hn =>
    split
    · rw [Grows, Finset.card_insert_of_notMem hn]
      exact ⟨Nat.le_succ _, fun _ => Nat.lt_succ_self _⟩
    · exact ⟨le_rfl, nofun⟩

theorem stepRunnable_same {t : Finset NodeId} {n : Node} (h : (ir.stepRunnable t n).2 = false) :
    (ir.stepRunnable t n).1 = t ∧ ((∀ m ∈ n.needs, m ∈ t) →
      (∃ p ∈ ir.predecessors n.id, p ∈ t) → n.id ∈ t) := by
  unfold stepRunnable at h ⊢
  split at h
  next he =>
    rw [if_pos he]
    exact ⟨rfl, fun _ _ => he⟩
  next he =>
    rw [if_neg he]
    split at h
    · simp at h
    next hc =>
      rw [if_neg hc]
      refine ⟨rfl, fun hneeds hpred => absurd ?_ hc⟩
      simp only [Bool.and_eq_true, List.all_eq_true, List.any_eq_true, decide_eq_true_eq]
      exact ⟨hneeds, hpred⟩

theorem potentiallyRunnable_settled :
    (∀ id ∈ ir.starts, id ∈ ir.potentiallyRunnable) ∧
      ∀ n ∈ ir.nodes, (∀ m ∈ n.needs, m ∈ ir.potentiallyRunnable) →
        (∃ p ∈ ir.predecessors n.id, p ∈ ir.potentiallyRunnable) →
          n.id ∈ ir.potentiallyRunnable := by
  have hknown : ∀ id ∈ ir.starts, id ∈ ir.ids := by
    intro id hid
    obtain ⟨n, hn, -, rfl⟩ := mem_starts.mp hid
    exact List.mem_map_of_mem hn
  have hstep : ∀ t, ∀ n ∈ ir.nodes, (t ⊆ ir.ids.toFinset ∧ ∀ id ∈ ir.starts, id ∈ t) →
      (ir.stepRunnable t n).1 ⊆ ir.ids.toFinset ∧ ∀ id ∈ ir.starts, id ∈ (ir.stepRunnable t n).1 := by
    intro t n hn ht
    unfold stepRunnable
    split
    · exact ht
    · split
      · refine ⟨Finset.insert_subset ?_ ht.1, fun id hid => Finset.mem_insert_of_mem (ht.2 id hid)⟩
        exact List.mem_toFinset.mpr (List.mem_map_of_mem hn)
      · exact ht
  have hloop : (ir.potentiallyRunnable ⊆ ir.ids.toFinset ∧
        ∀ id ∈ ir.starts, id ∈ ir.potentiallyRunnable) ∧
      ∀ n ∈ ir.nodes, (ir.stepRunnable ir.potentiallyRunnable n).2 = false := settles
    (P := fun t => t ⊆ ir.ids.toFinset ∧ ∀ id ∈ ir.starts, id ∈ t) hstep
    (fun t n hn ht => (stepRunnable_grows t n).decreases (Finset.card_le_card (hstep t n hn ht).1))
    (fun t n h => (stepRunnable_same h).1) (Nat.lt_succ_of_le (Nat.sub_le _ _))
    ⟨fun id hid => List.mem_toFinset.mpr (hknown id (List.mem_toFinset.mp hid)),
      fun id hid => List.mem_toFinset.mpr hid⟩
  obtain ⟨hwf, hstable⟩ := hloop
  exact ⟨hwf.2, fun n hn hneeds hpred => (stepRunnable_same (hstable n hn)).2 hneeds hpred⟩

end Runnable

end IR

end Raticode.Rattish
