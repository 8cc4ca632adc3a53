import Raticode.RattishGraph
import Raticode.RattishRun

/-! The dominators of `_analyze_graph`: the loop ends, and a node is dominated by the nodes that every
route path from an entry to it goes through. An entry is a node without needs, and so is a node that
no route leads to. -/
namespace Raticode.Rattish
open Fixpoint

namespace IR

inductive RoutePath (ir : IR) (entries : NodeId → Prop) : List NodeId → NodeId → Prop
  | enter {id : NodeId} : id ∈ ir.ids → entries id → RoutePath ir entries [id] id
  | follow {path : List NodeId} {id target : NodeId} : RoutePath ir entries path id →
      id ∈ ir.predecessors target → RoutePath ir entries (path ++ [target]) target

def IsEntry (ir : IR) (id : NodeId) : Prop := id ∈ ir.starts ∨ ir.predecessors id = []

variable {ir : IR} {id d : NodeId} {path : List NodeId} {t : NodeId → Finset NodeId}

theorem target_known {p : NodeId} (h : p ∈ ir.predecessors id) : id ∈ ir.ids := by
  obtain ⟨n, -, htarget, -⟩ := mem_predecessors.mp h
  exact (mem_targets.mp htarget).2

theorem predecessor_known {p : NodeId} (h : p ∈ ir.predecessors id) : p ∈ ir.ids := by
  obtain ⟨n, hn, -, rfl⟩ := mem_predecessors.mp h
  exact List.mem_map_of_mem hn

theorem RoutePath.known {entries : NodeId → Prop} (h : ir.RoutePath entries path id) :
    ∀ x ∈ path, x ∈ ir.ids := by
  induction h with
  | enter hid _ =>
    intro x hx
    rwa [List.mem_singleton.mp hx]
  | follow _ hpred ih =>
    intro x hx
    rcases List.mem_append.mp hx with hx | hx
    · exact ih x hx
    · rw [List.mem_singleton.mp hx]
      exact target_known hpred

theorem RoutePath.through {entries : NodeId → Prop} {entry : NodeId} (honly : ∀ id, entries id → id = entry)
    (h : ir.RoutePath entries path id) : entry ∈ path := by
  induction h with
  | enter _ hentry => exact List.mem_singleton.mpr (honly _ hentry).symm
  | follow _ _ ih => exact List.mem_append_left _ ih

theorem mem_path_of_dominates (hd : d ∈ ir.dominators id) (hpath : ir.RoutePath ir.IsEntry path id) :
    d ∈ path := by
  induction hpath with
  | @enter id hid hentry =>
    apply List.mem_singleton.mpr
    by_cases hstart : id ∈ ir.starts
    · rw [dominators_settled.1.starts id hstart] at hd
      exact Finset.mem_singleton.mp hd
    · have hnone : ir.predecessors id = [] := hentry.resolve_left hstart
      rw [dominators_settled.2 id (mem_dominated.mpr ⟨hid, hstart⟩), mem_updatedDominators] at hd
      rcases hd with hsame | ⟨hsome, -⟩
      · exact hsame
      · exact absurd hnone hsome
  | @follow path id target _ hpred ih =>
    by_cases hsame : d = target
    · exact List.mem_append_right _ (List.mem_singleton.mpr hsame)
    · apply List.mem_append_left
      exact ih ((mem_dominators (target_known hpred) hd hsame).2 id hpred)

def Encloses (ir : IR) (t : NodeId → Finset NodeId) : Prop :=
  ∀ id ∈ ir.ids, ∀ d ∈ ir.ids, (∀ path, ir.RoutePath ir.IsEntry path id → d ∈ path) → d ∈ t id

theorem encloses_initial :
    ir.Encloses (fun id => if id ∈ ir.starts then {id} else ir.ids.toFinset) := by
  intro id hid d hd hall
  dsimp only
  split_ifs with hstart
  · have hself := hall [id] (.enter hid (.inl hstart))
    exact Finset.mem_singleton.mpr (List.mem_singleton.mp hself)
  · exact List.mem_toFinset.mpr hd

theorem Encloses.step (h : ir.Encloses t) (k : NodeId) : ir.Encloses (ir.stepDominators t k).1 := by
  unfold stepDominators
  split
  · intro id hid d hd hall
    dsimp only
    rw [Function.update_apply]
    split_ifs with hk
    · rw [hk] at hall hid
      rw [mem_updatedDominators]
      by_cases hsame : d = k
      · exact .inl hsame
      right
      refine ⟨fun hnone => ?_, hd, fun p hp => ?_⟩
      -- Without predecessors the node is an entry, and on the path to it there is itself alone.
      · exact hsame (List.mem_singleton.mp (hall [k] (.enter hid (.inr hnone))))
      -- A path to a predecessor goes on to the node.
      · apply h p (predecessor_known hp) d hd
        intro path hpath
        rcases List.mem_append.mp (hall _ (hpath.follow hp)) with hmem | hmem
        · exact hmem
        · exact absurd (List.mem_singleton.mp hmem) hsame
    · exact h id hid d hd hall
  · exact h

theorem encloses_dominators : ir.Encloses ir.dominators := by
  apply untilStable_induct
  · exact fun t ht => sweep_induct (fun t k _ ht => ht.step k) ht
  · exact encloses_initial

theorem stepDominators_same (h : (ir.stepDominators t id).2 = false) : (ir.stepDominators t id).1 = t := by
  unfold stepDominators at h ⊢
  split at h
  · cases h
  next hsame => rw [if_neg hsame]

theorem dominators_stable : (sweep ir.stepDominators ir.dominated ir.dominators).2 = false := by
  have hstep : ∀ id ∈ ir.dominated, ir.stepDominators ir.dominators id = (ir.dominators, false) := by
    intro id hid
    rw [stepDominators, if_neg (not_not.mpr (dominators_settled.2 id hid).symm)]
  generalize ir.dominated = keys at hstep
  induction keys with
  | nil => rfl
  | cons k keys ih =>
    rw [sweep, hstep k List.mem_cons_self, Bool.false_or]
    exact ih (fun id hid => hstep id (List.mem_cons_of_mem k hid))

/-- The loop over the dominators ends with a pass that changes nothing, a node without needs is dominated by itself alone, and another
node that can be reached is dominated by the nodes on all route paths to it from the entries. -/
theorem dominators_exact (ir : IR) :
    (sweep ir.stepDominators ir.dominated ir.dominators).2 = false ∧
      (∀ more, untilStable (sweep ir.stepDominators ir.dominated) (ir.size * ir.size + 1 + more)
        (fun id => if id ∈ ir.starts then {id} else ir.ids.toFinset) = ir.dominators) ∧
      (∀ id ∈ ir.starts, ir.dominators id = {id}) ∧
      ∀ id, (∃ path, ir.RoutePath ir.IsEntry path id) →
        ∀ d, d ∈ ir.dominators id ↔ ∀ path, ir.RoutePath ir.IsEntry path id → d ∈ path := by
  have hsame : ∀ t, (sweep ir.stepDominators ir.dominated t).2 = false →
      (sweep ir.stepDominators ir.dominated t).1 = t :=
    fun t h => (sweep_stable (fun t k hk => stepDominators_same hk) h).1
  refine ⟨dominators_stable, fun more => untilStable_more hsame dominators_stable more,
    dominators_settled.1.starts, ?_⟩
  rintro id ⟨path, hpath⟩ d
  have hid : id ∈ ir.ids := by
    cases hpath with
    | enter hid _ => exact hid
    | follow _ hpred => exact target_known hpred
  constructor
  · exact fun hd path hpath => mem_path_of_dominates hd hpath
  · intro hall
    exact encloses_dominators id hid d (hpath.known d (hall path hpath)) hall

end IR

namespace Sample

def strayed : IR :=
  { nodes := [node "first" (.other "shell") [] ["second"],
      node "second" (.other "shell") ["first"] [],
      node "stray" (.other "shell") ["first"] ["second"]] }

/-- Every path from the node without needs goes through it, and it does not dominate the second. -/
theorem strayed_not_dominated : strayed.Valid ∧ ¬ ∀ id,
    (∃ path, strayed.RoutePath (· ∈ strayed.starts) path id) →
      ∀ d, d ∈ strayed.dominators id ↔ ∀ path, strayed.RoutePath (· ∈ strayed.starts) path id → d ∈ path := by
  have hstarts : strayed.starts = ["first"] := by decide
  refine ⟨by constructor <;> simp [strayed, node, route], fun hexact => ?_⟩
  have hpath : strayed.RoutePath (· ∈ strayed.starts) ["first", "second"] "second" :=
    .follow (.enter (by decide) (by decide)) (by decide)
  have hfirst : "first" ∈ strayed.dominators "second" := by
    apply (hexact "second" ⟨_, hpath⟩ "first").mpr
    intro path hpath
    apply hpath.through
    intro id hid
    rw [hstarts] at hid
    exact List.mem_singleton.mp hid
  have hstray := (IR.mem_dominators (by decide) hfirst (by decide)).2 "stray" (by decide)
  rw [IR.dominators_settled.2 "stray" (IR.mem_dominated.mpr ⟨by decide, by decide⟩),
    IR.mem_updatedDominators] at hstray
  rcases hstray with hsame | ⟨hsome, -⟩
  · exact absurd hsame (by decide)
  · exact hsome (by decide)

end Sample

end Raticode.Rattish
