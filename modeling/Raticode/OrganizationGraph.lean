import Raticode.DepthFirst
import Raticode.OrganizationTasks

/-! The tasks of an organization as a graph: their dependencies and their parents. `validate_task`
looks at what it reaches from the task that is edited, and keeps the whole graph sound. -/
namespace Raticode.Organizations
open PyDocument OrderedDict Attempt DepthFirst

/-! ### The graph -/

def DependsOn (tasks : List Task) (a b : Str) : Prop := ∃ t ∈ tasks, t.id = a ∧ b ∈ t.dependsOn

def ChildOf (tasks : List Task) (a b : Str) : Prop :=
  ∃ t ∈ tasks, t.id = a ∧ present t.parentId = some b

/-- Dependencies and parents are tasks of the organization, and neither leads round in a circle. A
task has one parent at most, so that the parents make a forest. -/
structure GraphSound (tasks : List Task) : Prop where
  dependencies : ∀ a b, DependsOn tasks a b → ∃ t ∈ tasks, t.id = b
  acyclic : ∀ a, ¬ Relation.TransGen (DependsOn tasks) a a
  parents : ∀ a b, ChildOf tasks a b → ∃ t ∈ tasks, t.id = b
  forest : ∀ a, ¬ Relation.TransGen (ChildOf tasks) a a

def edited : List Task → Task → List Task
  | [], t => [t]
  | u :: us, t => if u.id = t.id then t :: us else u :: edited us t

/-- `validate_task` without its two walks over the graph. -/
def otherChecks (config : OrganizationConfig) (tasks : List Task) (t : Task) : Except String Task := do
  let runs := t.status = .inProgress || t.status = .done
  require (!(t.approvalRequired && runs && t.approvedRevision.isNone))
    "This task needs approval of its current plan"
  require (!(t.reviewRequired && t.status = .done && t.acceptedRevision.isNone))
    "An independent reviewer must accept this result"
  require ((present t.reviewer).all (fun r => t.assignee ≠ some r && config.isEmployee r))
    "Reviewer must be a different, existing employee"
  require ((present t.goalId).all config.goalRecords.contains) "Unknown goal"
  let t ← inEpic config t
  require (!runs || t.dependsOn.all (finished tasks).contains)
    "Dependencies must finish before this task can run or complete"
  require (t.status ≠ .done || strip t.evidence ≠ []) "Completed tasks need evidence"
  require ((present t.assignee).all config.isEmployee) "Unknown employee"
  require ((present t.project).all (fun p => config.projects.any (fun x => x.id = p)))
    "Unknown organization initiative"
  require (!(t.recurring && t.intervalSeconds ≠ 0 && t.intervalSeconds < 60))
    "Recurring intervals must be at least 60 seconds"
  return t

/-! ### Tasks by their identifiers -/

def depsOf (tasks : List Task) (id : Str) : Option (List Str) :=
  (tasks.find? (fun t => t.id = id)).map (·.dependsOn)

def parentOf (tasks : List Task) (id : Str) : Option (Option Str) :=
  (tasks.find? (fun t => t.id = id)).map (fun t => present t.parentId)

section Lookup

variable {tasks : List Task} {t : Task} {id : Str}

theorem find_isSome : (tasks.find? (fun t => t.id = id)).isSome ↔ ∃ t ∈ tasks, t.id = id := by
  simp [List.find?_isSome]

theorem find_of_mem (hn : (tasks.map (·.id)).Nodup) (ht : t ∈ tasks) :
    tasks.find? (fun u => u.id = t.id) = some t := by
  cases hf : tasks.find? (fun u => u.id = t.id) with
  | none => simpa using List.find?_eq_none.mp hf t ht
  | some u =>
    have hu : u ∈ tasks := List.mem_of_find?_eq_some hf
    have hid : u.id = t.id := by simpa using List.find?_some hf
    rw [List.inj_on_of_nodup_map hn hu ht hid]

theorem edge_depsOf (hn : (tasks.map (·.id)).Nodup) {a b : Str} :
    Edge (depsOf tasks) a b ↔ DependsOn tasks a b := by
  constructor
  · rintro ⟨ys, hys, hb⟩
    obtain ⟨t, ht, rfl⟩ := Option.map_eq_some_iff.mp hys
    have hid : t.id = a := by simpa using List.find?_some ht
    exact ⟨t, List.mem_of_find?_eq_some ht, hid, hb⟩
  · rintro ⟨t, ht, rfl, hb⟩
    refine ⟨t.dependsOn, ?_, hb⟩
    rw [depsOf, find_of_mem hn ht]
    rfl

theorem edge_parentOf (hn : (tasks.map (·.id)).Nodup) {a b : Str} :
    Edge (single (parentOf tasks)) a b ↔ ChildOf tasks a b := by
  constructor
  · rintro ⟨ys, hys, hb⟩
    obtain ⟨p, hp, rfl⟩ := Option.map_eq_some_iff.mp hys
    obtain ⟨t, ht, rfl⟩ := Option.map_eq_some_iff.mp hp
    have hid : t.id = a := by simpa using List.find?_some ht
    exact ⟨t, List.mem_of_find?_eq_some ht, hid, by simpa using hb⟩
  · rintro ⟨t, ht, rfl, hb⟩
    refine ⟨(present t.parentId).toList, ?_, by simp [hb]⟩
    rw [single, parentOf, find_of_mem hn ht]
    rfl

theorem depsOf_isSome : (depsOf tasks id).isSome ↔ ∃ t ∈ tasks, t.id = id := by
  rw [depsOf, Option.isSome_map, find_isSome]

theorem parentOf_isSome : (parentOf tasks id).isSome ↔ ∃ t ∈ tasks, t.id = id := by
  rw [parentOf, Option.isSome_map, find_isSome]

theorem single_isSome {up : Str → Option (Option Str)} : (single up id).isSome ↔ (up id).isSome := by
  rw [single, Option.isSome_map]

end Lookup

/-! ### Soundness, vertex by vertex -/

theorem graphSound_iff {tasks : List Task} (hn : (tasks.map (·.id)).Nodup) :
    GraphSound tasks ↔ (∀ t ∈ tasks, Sound (depsOf tasks) t.id) ∧
      ∀ t ∈ tasks, Sound (single (parentOf tasks)) t.id := by
  have hdeps : Edge (depsOf tasks) = DependsOn tasks :=
    funext fun a => funext fun b => propext (edge_depsOf hn)
  have hparents : Edge (single (parentOf tasks)) = ChildOf tasks :=
    funext fun a => funext fun b => propext (edge_parentOf hn)
  have hkeys {next : Str → Option (List Str)} (hsome : ∀ id, (next id).isSome → ∃ t ∈ tasks, t.id = id) :
      ∀ id, (next id).isSome → id ∈ tasks.map (·.id) := by
    intro id hid
    obtain ⟨t, ht, rfl⟩ := hsome id hid
    exact List.mem_map_of_mem ht
  -- A vertex on a cycle has a successor, and so is a task.
  have hstart {r : Str → Str → Prop} {a : Str} (hr : ∀ b, r a b → ∃ t ∈ tasks, t.id = a)
      (hcycle : Relation.TransGen r a a) : ∃ t ∈ tasks, t.id = a := by
    obtain ⟨b, hb, -⟩ := Relation.TransGen.head'_iff.mp hcycle
    exact hr b hb
  constructor
  · intro h
    constructor
    · intro t ht
      refine sound_of_acyclic (hkeys fun id => depsOf_isSome.mp) ?_ ?_ (depsOf_isSome.mpr ⟨t, ht, rfl⟩)
      · intro a b hab
        exact depsOf_isSome.mpr (h.dependencies a b ((edge_depsOf hn).mp hab))
      · rw [hdeps]
        exact h.acyclic
    · intro t ht
      refine sound_of_acyclic (hkeys fun id hid => parentOf_isSome.mp (single_isSome.mp hid)) ?_ ?_
        (single_isSome.mpr (parentOf_isSome.mpr ⟨t, ht, rfl⟩))
      · intro a b hab
        exact single_isSome.mpr (parentOf_isSome.mpr (h.parents a b ((edge_parentOf hn).mp hab)))
      · rw [hparents]
        exact h.forest
  · rintro ⟨hd, hp⟩
    constructor
    · rintro a b ⟨t, ht, rfl, hb⟩
      obtain ⟨ys, hys⟩ := ((hd t ht).edge ((edge_depsOf hn).mpr ⟨t, ht, rfl, hb⟩)).there
      exact depsOf_isSome.mp (by rw [hys]; rfl)
    · intro a hcycle
      obtain ⟨t, ht, rfl⟩ := hstart (fun b ⟨t, ht, hid, _⟩ => ⟨t, ht, hid⟩) hcycle
      exact (hd t ht).acyclic (hdeps ▸ hcycle)
    · rintro a b ⟨t, ht, rfl, hb⟩
      obtain ⟨ys, hys⟩ := ((hp t ht).edge ((edge_parentOf hn).mpr ⟨t, ht, rfl, hb⟩)).there
      exact parentOf_isSome.mp (single_isSome.mp (by rw [hys]; rfl))
    · intro a hcycle
      obtain ⟨t, ht, rfl⟩ := hstart (fun b ⟨t, ht, hid, _⟩ => ⟨t, ht, hid⟩) hcycle
      exact (hp t ht).acyclic (hparents ▸ hcycle)

section Edit

variable {config : OrganizationConfig} {tasks : List Task} {t : Task} {id : Str}

theorem find_edited : (edited tasks t).find? (fun u => u.id = id) =
    if id = t.id then some t else tasks.find? (fun u => u.id = id) := by
  induction tasks with
  | nil => simp [edited, eq_comm]
  | cons u us ih =>
    rw [edited]
    by_cases hu : u.id = t.id
    · rw [if_pos hu, List.find?_cons, List.find?_cons, hu]
      by_cases hid : id = t.id
      · simp [hid]
      · have hne : ¬ t.id = id := Ne.symm hid
        simp [hid, hne]
    · rw [if_neg hu, List.find?_cons, List.find?_cons, ih]
      by_cases hid : u.id = id
      · have hne : ¬ id = t.id := fun h => hu (hid.trans h)
        simp [hid, hne]
      · simp [hid]

theorem mem_edited_ids : id ∈ (edited tasks t).map (·.id) ↔ id ∈ tasks.map (·.id) ∨ id = t.id := by
  induction tasks with
  | nil => simp [edited]
  | cons u us ih =>
    rw [edited]
    by_cases hu : u.id = t.id
    · rw [if_pos hu, List.map_cons, List.map_cons, List.mem_cons, List.mem_cons, hu]
      tauto
    · rw [if_neg hu, List.map_cons, List.map_cons, List.mem_cons, List.mem_cons, ih, or_assoc]

theorem nodup_edited (hn : (tasks.map (·.id)).Nodup) : ((edited tasks t).map (·.id)).Nodup := by
  induction tasks with
  | nil => simp [edited]
  | cons u us ih =>
    obtain ⟨hu, hn⟩ := List.nodup_cons.mp hn
    rw [edited]
    by_cases heq : u.id = t.id
    · rw [if_pos heq]
      have ht : t.id ∉ us.map (·.id) := heq ▸ hu
      exact List.nodup_cons.mpr ⟨ht, hn⟩
    · rw [if_neg heq]
      refine List.nodup_cons.mpr ⟨fun hmem => ?_, ih hn⟩
      rcases mem_edited_ids.mp hmem with h | h
      · exact hu h
      · exact heq h

theorem depsOf_edited : depsOf (edited tasks t) =
    fun id => if id = t.id then some t.dependsOn else depsOf tasks id := by
  funext id
  rw [depsOf, find_edited]
  split_ifs
  · rfl
  · rfl

theorem parentOf_edited : single (parentOf (edited tasks t)) =
    fun id => if id = t.id then some (present t.parentId).toList else single (parentOf tasks) id := by
  funext id
  rw [single, parentOf, find_edited]
  split_ifs
  · rfl
  · rfl

theorem graphSound_edited (hn : (tasks.map (·.id)).Nodup) (hs : GraphSound tasks) :
    GraphSound (edited tasks t) ↔ Sound (depsOf (edited tasks t)) t.id ∧
      Sound (single (parentOf (edited tasks t))) t.id := by
  obtain ⟨hdeps, hparents⟩ := (graphSound_iff hn).mp hs
  have hself : ∃ u ∈ edited tasks t, u.id = t.id := by
    have hmem : t.id ∈ (edited tasks t).map (·.id) := mem_edited_ids.mpr (.inr rfl)
    simpa using hmem
  have hcases : ∀ u ∈ edited tasks t, (∃ v ∈ tasks, v.id = u.id) ∨ u.id = t.id := by
    intro u hu
    have hmem := mem_edited_ids.mp (List.mem_map_of_mem (f := (·.id)) hu)
    simpa using hmem
  rw [graphSound_iff (nodup_edited hn)]
  constructor
  · rintro ⟨hd, hp⟩
    obtain ⟨u, hu, hid⟩ := hself
    exact ⟨hid ▸ hd u hu, hid ▸ hp u hu⟩
  · rintro ⟨hd, hp⟩
    rw [depsOf_edited] at hd ⊢
    rw [parentOf_edited] at hp ⊢
    constructor
    · intro u hu
      refine sound_update (fun id hid => ?_) hd ((hcases u hu).imp_left fun h => depsOf_isSome.mpr h)
      obtain ⟨v, hv, rfl⟩ := depsOf_isSome.mp hid
      exact hdeps v hv
    · intro u hu
      refine sound_update (fun id hid => ?_) hp
        ((hcases u hu).imp_left fun h => single_isSome.mpr (parentOf_isSome.mpr h))
      obtain ⟨v, hv, rfl⟩ := parentOf_isSome.mp (single_isSome.mp hid)
      exact hparents v hv

end Edit

/-! ### The two loops -/

section Loops

variable {config : OrganizationConfig} {tasks : List Task} {t : Task}

theorem cycles_of_search {graph : Dict Str (List Str)} {n : ℕ} {s : Search Str} {verdict : Bool}
    (h : search graph.get n s = some verdict) :
    cycles graph n s.pending s.visiting s.visited = verdict := by
  induction n generalizing s with
  | zero => contradiction
  | succ n ih =>
    obtain ⟨pending, visiting, visited⟩ := s
    rw [search] at h
    cases pending with
    | nil => simpa [turn, cycles] using h
    | cons top rest =>
      obtain ⟨id, leaving⟩ := top
      cases leaving with
      | true => exact ih h
      | false =>
        -- The tests for membership are the same ones on both sides.
        simp only [turn, List.contains_iff_mem] at h
        simp only [cycles, List.contains_iff_mem]
        by_cases hleft : id ∈ visited
        · simp only [hleft, if_true] at h ⊢
          exact ih h
        · simp only [hleft, if_false] at h ⊢
          cases hnext : graph.get id with
          | none => simpa [hnext] using h
          | some ys =>
            simp only [hnext] at h ⊢
            by_cases hway : id ∈ visiting
            · simp only [hway, if_true] at h ⊢
              exact Option.some.inj h
            · simp only [hway, if_false] at h ⊢
              exact ih h

theorem parentCycles_of_climb {parents : Dict Str (Option Str)} {n : ℕ} {seen : List Str}
    {parent : Option Str} {verdict : Bool}
    (h : climb (fun id => (parents.get id).map present) n seen (present parent) = some verdict) :
    parentCycles parents n seen parent = verdict := by
  induction n generalizing seen parent with
  | zero => contradiction
  | succ n ih =>
    rw [parentCycles]
    cases hp : present parent with
    | none => simpa [climb, hp] using h
    | some p =>
      simp only [hp, climb, List.contains_iff_mem] at h ⊢
      by_cases hseen : p ∈ seen
      · simp only [hseen, if_true] at h ⊢
        exact Option.some.inj h
      · simp only [hseen, if_false] at h ⊢
        cases hnext : parents.get p with
        | none => simpa [hnext] using h
        | some next =>
          simp only [hnext, Option.map_some] at h
          exact ih h

theorem search_dependencies (tasks : List Task) (t : Task) :
    ∃ verdict, search (dependencies t tasks).get
        (2 + ((dependencies t tasks).map (fun p => p.2.length + 1)).sum) ⟨[(t.id, false)], [], []⟩ =
          some verdict ∧
      (verdict = false ↔ Sound (dependencies t tasks).get t.id) := by
  set graph := dependencies t tasks with hgraph
  have hnodup : graph.keys.Nodup := by
    apply Dict.nodup_keys_set
    apply Dict.nodup_keys_written
    exact List.nodup_nil
  apply search_iff graph.keys
  · exact fun id hid => Dict.get_isSome_iff.mp hid
  · -- Nothing has been entered: the work is what the entries of the graph weigh.
    have hweights : (graph.keys.map (fun id => ((graph.get id).getD []).length + 1)).sum =
        (graph.map (fun p => p.2.length + 1)).sum := by
      rw [Dict.keys, List.map_map]
      congr 1
      apply List.map_congr_left
      rintro ⟨id, ys⟩ hmem
      simp [Dict.get_of_mem hnodup hmem]
    have hwork : work graph.get graph.keys ⟨[(t.id, false)], [], []⟩ =
        (graph.map (fun p => p.2.length + 1)).sum := by
      rw [← hweights, work]
      congr 2
      simp
    simp only [DepthFirst.measure, hwork, List.length_singleton]
    omega

theorem climb_parents (tasks : List Task) (t : Task) :
    ∃ verdict, climb (fun id => (Dict.get (tasks.foldl (fun d u => Dict.set d u.id u.parentId) []) id).map
        present) (tasks.length + 1) [t.id] (present t.parentId) = some verdict ∧
      (verdict = false ↔ Sound (rerouted (fun id =>
        (Dict.get (tasks.foldl (fun d u => Dict.set d u.id u.parentId) []) id).map present) t.id
          (present t.parentId)) t.id) := by
  set parents : Dict Str (Option Str) := tasks.foldl (fun d u => Dict.set d u.id u.parentId) []
    with hparents
  apply climb_iff parents.keys
  · intro id hid
    rw [Option.isSome_map] at hid
    exact Dict.get_isSome_iff.mp hid
  · have hlen : parents.keys.length ≤ 0 + tasks.length :=
      Dict.length_written (fun u : Task => u.id) (fun u => u.parentId) tasks []
    omega

theorem cycles_eq_false (hn : (tasks.map (·.id)).Nodup) :
    cycles (dependencies t tasks) (2 + ((dependencies t tasks).map (fun p => p.2.length + 1)).sum)
        [(t.id, false)] [] [] = false ↔ Sound (depsOf (edited tasks t)) t.id := by
  have hget : (dependencies t tasks).get = depsOf (edited tasks t) := by
    rw [depsOf_edited]
    funext id
    rw [dependencies, Dict.get_set, Dict.get_written hn]
    by_cases hid : id = t.id
    · simp [hid]
    · have hne : ¬ t.id = id := Ne.symm hid
      simp [hid, hne, depsOf]
  obtain ⟨verdict, hsearch, hverdict⟩ := search_dependencies tasks t
  rw [cycles_of_search hsearch, hverdict, hget]

theorem parentCycles_eq_false (hn : (tasks.map (·.id)).Nodup) :
    parentCycles (tasks.foldl (fun d u => Dict.set d u.id u.parentId) []) (tasks.length + 1) [t.id]
        t.parentId = false ↔ Sound (single (parentOf (edited tasks t))) t.id := by
  have hget : (fun id => (Dict.get (tasks.foldl (fun d u => Dict.set d u.id u.parentId) []) id).map
      present) = parentOf tasks := by
    funext id
    rw [Dict.get_written hn, parentOf]
    simp [Function.comp_def]
  obtain ⟨verdict, hclimb, hverdict⟩ := climb_parents tasks t
  rw [parentCycles_of_climb hclimb, hverdict, hget, parentOf_edited]
  rfl

end Loops

/-! ### What `validate_task` accepts -/

section Accepts

variable {config : OrganizationConfig} {tasks : List Task} {t t' : Task}

theorem ok_bind {ε α β : Type} {a : α} {f : α → Except ε β} : (Except.ok a >>= f) = f a := rfl

theorem validateTask_eq_ok : validateTask config tasks t = .ok t' ↔
    otherChecks config tasks t = .ok t' ∧
      cycles (dependencies t tasks) (2 + ((dependencies t tasks).map (fun p => p.2.length + 1)).sum)
        [(t.id, false)] [] [] = false ∧
      parentCycles (tasks.foldl (fun d u => Dict.set d u.id u.parentId) []) (tasks.length + 1) [t.id]
        t.parentId = false := by
  simp only [validateTask, otherChecks, require_bind]
  cases hu : inEpic config t with
  | error e =>
    constructor
    · rintro ⟨-, -, -, -, hok⟩
      contradiction
    · rintro ⟨⟨-, -, -, -, hok⟩, -⟩
      contradiction
  | ok u =>
    -- The project is settled before the walks, which do not look at it.
    obtain ⟨project, rfl⟩ := inEpic_ok hu
    simp only [ok_bind, require_bind, Bool.not_eq_true']
    constructor
    · rintro ⟨ha, hr, hv, hg, hc, hd, he, hw, hp, hup, hi, hok⟩
      exact ⟨⟨ha, hr, hv, hg, hd, he, hw, hp, hi, hok⟩, hc, hup⟩
    · rintro ⟨⟨ha, hr, hv, hg, hd, he, hw, hp, hi, hok⟩, hc, hup⟩
      exact ⟨ha, hr, hv, hg, hc, hd, he, hw, hp, hup, hi, hok⟩

theorem validateTask_accepts (hn : (tasks.map (·.id)).Nodup) (hs : GraphSound tasks) :
    validateTask config tasks t = .ok t' ↔
      otherChecks config tasks t = .ok t' ∧ GraphSound (edited tasks t) := by
  rw [validateTask_eq_ok, cycles_eq_false hn, parentCycles_eq_false hn, graphSound_edited hn hs]

end Accepts

end Raticode.Organizations
