import Raticode.OrganizationDeeds
import Raticode.OrganizationGraph

/-! The graph of the tasks, over all that happens to an organization. -/
namespace Raticode.Organizations
open PyDocument OrderedDict MarkedList Attempt DepthFirst

/-! ### What the graph reads of a task -/

def links (t : Task) : Str × List Str × Option Str := (t.id, t.dependsOn, present t.parentId)

def Known (tasks : List Task) (t : Task) : Prop :=
  ∀ id, id ∈ t.dependsOn ∨ present t.parentId = some id → ∃ u ∈ tasks, u.id = id

section Links

variable {tasks xs ys : List Task} {t u : Task}

theorem ids_congr (h : ys.map links = xs.map links) : ys.map (·.id) = xs.map (·.id) := by
  have hfirst := congrArg (List.map Prod.fst) h
  rwa [List.map_map, List.map_map] at hfirst

theorem there_congr (h : ys.map (·.id) = xs.map (·.id)) (id : Str) :
    (∃ t ∈ ys, t.id = id) ↔ ∃ t ∈ xs, t.id = id := by
  have hmem : id ∈ ys.map (·.id) ↔ id ∈ xs.map (·.id) := by rw [h]
  simpa using hmem

theorem dependsOn_iff {a b : Str} :
    DependsOn tasks a b ↔ ∃ l ∈ tasks.map links, l.1 = a ∧ b ∈ l.2.1 := by
  simp [DependsOn, links]

theorem childOf_iff {a b : Str} :
    ChildOf tasks a b ↔ ∃ l ∈ tasks.map links, l.1 = a ∧ l.2.2 = some b := by
  simp [ChildOf, links]

theorem graphSound_congr (h : ys.map links = xs.map links) (hs : GraphSound xs) : GraphSound ys := by
  have hdeps : DependsOn ys = DependsOn xs := by
    funext a b
    rw [dependsOn_iff, dependsOn_iff, h]
  have hparents : ChildOf ys = ChildOf xs := by
    funext a b
    rw [childOf_iff, childOf_iff, h]
  have hthere := there_congr (ids_congr h)
  constructor
  · intro a b hab
    exact (hthere b).mpr (hs.dependencies a b (hdeps ▸ hab))
  · rw [hdeps]
    exact hs.acyclic
  · intro a b hab
    exact (hthere b).mpr (hs.parents a b (hparents ▸ hab))
  · rw [hparents]
    exact hs.forest

theorem links_set {i : ℕ} (hi : tasks[i]? = some u) (hl : links t = links u) :
    (tasks.set i t).map links = tasks.map links := by
  have hlinks : (tasks.map links)[i]? = some (links t) := by
    rw [List.getElem?_map, hi, hl]
    rfl
  obtain ⟨hlt, hget⟩ := List.getElem?_eq_some_iff.mp hlinks
  rw [List.map_set, ← hget, List.set_getElem_self hlt]

theorem edited_set {i : ℕ} (hi : tasks.findIdx? (fun u => u.id = t.id) = some i) :
    edited tasks t = tasks.set i t := by
  induction tasks generalizing i with
  | nil => simp at hi
  | cons u us ih =>
    rw [List.findIdx?_cons] at hi
    by_cases hu : u.id = t.id
    · simp only [hu, decide_true, if_true, Option.some.injEq] at hi
      subst hi
      rw [edited, if_pos hu, List.set_cons_zero]
    · simp only [hu, decide_false, Bool.false_eq_true, if_false, Option.map_eq_some_iff] at hi
      obtain ⟨j, hj, rfl⟩ := hi
      rw [edited, if_neg hu, ih hj, List.set_cons_succ]

theorem edited_fresh (ht : t.id ∉ tasks.map (·.id)) : edited tasks t = tasks ++ [t] := by
  induction tasks with
  | nil => rfl
  | cons u us ih =>
    rw [List.map_cons, List.mem_cons, not_or] at ht
    have hne : ¬ u.id = t.id := fun h => ht.1 h.symm
    rw [edited, if_neg hne, ih ht.2, List.cons_append]

theorem links_edited (hl : links u = links t) :
    (edited tasks u).map links = (edited tasks t).map links := by
  have hid : u.id = t.id := congrArg Prod.fst hl
  induction tasks with
  | nil => simp [edited, hl]
  | cons v vs ih =>
    rw [edited, edited, hid]
    split_ifs
    · rw [List.map_cons, List.map_cons, hl]
    · rw [List.map_cons, List.map_cons, ih]

theorem graphSound_extend (hs : GraphSound tasks) (hnew : t.id ∉ tasks.map (·.id))
    (hknown : Known tasks t) : GraphSound (tasks ++ [t]) := by
  have hold : ∀ id, (∃ u ∈ tasks, u.id = id) → id ≠ t.id := by
    rintro id ⟨u, hu, rfl⟩ heq
    exact hnew (heq ▸ List.mem_map_of_mem hu)
  have hgrow : ∀ id, (∃ u ∈ tasks, u.id = id) → ∃ u ∈ tasks ++ [t], u.id = id := by
    rintro id ⟨u, hu, hid⟩
    exact ⟨u, List.mem_append_left _ hu, hid⟩
  -- No edge leads to the new task, so that a circle has none of the edges from it.
  have hcircle {r r' : Str → Str → Prop} (hedge : ∀ a b, r' a b → (a ≠ t.id → r a b) ∧ b ≠ t.id)
      (hr : ∀ a, ¬ Relation.TransGen r a a) (a : Str) : ¬ Relation.TransGen r' a a := by
    intro hcycle
    have hne : a ≠ t.id := by
      obtain ⟨b, -, hb⟩ := Relation.TransGen.tail'_iff.mp hcycle
      exact (hedge b a hb).2
    have hway : ∀ b, Relation.TransGen r' a b → Relation.TransGen r a b ∧ b ≠ t.id := by
      intro b hb
      induction hb with
      | single h => exact ⟨.single ((hedge _ _ h).1 hne), (hedge _ _ h).2⟩
      | tail _ h ih => exact ⟨ih.1.tail ((hedge _ _ h).1 ih.2), (hedge _ _ h).2⟩
    exact hr a (hway a hcycle).1
  have hdeps : ∀ a b, DependsOn (tasks ++ [t]) a b →
      (a ≠ t.id → DependsOn tasks a b) ∧ ∃ u ∈ tasks, u.id = b := by
    rintro a b ⟨u, hu, rfl, hb⟩
    rcases List.mem_append.mp hu with hu | hu
    · exact ⟨fun _ => ⟨u, hu, rfl, hb⟩, hs.dependencies u.id b ⟨u, hu, rfl, hb⟩⟩
    · obtain rfl := List.mem_singleton.mp hu
      exact ⟨fun hne => absurd rfl hne, hknown b (.inl hb)⟩
  have hparents : ∀ a b, ChildOf (tasks ++ [t]) a b →
      (a ≠ t.id → ChildOf tasks a b) ∧ ∃ u ∈ tasks, u.id = b := by
    rintro a b ⟨u, hu, rfl, hb⟩
    rcases List.mem_append.mp hu with hu | hu
    · exact ⟨fun _ => ⟨u, hu, rfl, hb⟩, hs.parents u.id b ⟨u, hu, rfl, hb⟩⟩
    · obtain rfl := List.mem_singleton.mp hu
      exact ⟨fun hne => absurd rfl hne, hknown b (.inr hb)⟩
  constructor
  · exact fun a b hab => hgrow b (hdeps a b hab).2
  · exact hcircle (fun a b hab => ⟨(hdeps a b hab).1, hold b (hdeps a b hab).2⟩) hs.acyclic
  · exact fun a b hab => hgrow b (hparents a b hab).2
  · exact hcircle (fun a b hab => ⟨(hparents a b hab).1, hold b (hparents a b hab).2⟩) hs.forest

end Links

/-! ### One event -/

section Steps

variable {h : Host} {now : ℚ} {org : Org} {m : Moment} {c c' : Company}

theorem Minor.links {t t' : Task} (hm : Minor t t') : links t' = links t := hm.field fun _ => rfl

theorem graphSound_of_validateTask {config : OrganizationConfig} {tasks : List Task} {t t' : Task}
    (hn : (tasks.map (·.id)).Nodup) (hs : GraphSound tasks)
    (hok : validateTask config tasks t = .ok t') : GraphSound (edited tasks t) :=
  ((validateTask_accepts hn hs).mp hok).2

theorem updateTask_validated {actor : Actor} {expectedRevision : ℕ} {asked : Changes} {t t' : Task}
    (hok : updateTask h now org actor expectedRevision asked t = .ok t') :
    ∃ u valid, validateTask org.config org.tasks u = .ok valid ∧ links u = links t' ∧ t'.id = t.id := by
  simp only [updateTask, require_bind] at hok
  obtain ⟨-, -, -, -, hok⟩ := hok
  obtain ⟨-, -, hok⟩ := bind_ok hok
  simp only [require_bind] at hok
  obtain ⟨-, -, hok⟩ := hok
  obtain ⟨placed, hplaced, hok⟩ := bind_ok hok
  obtain ⟨-, -, hok⟩ := bind_ok hok
  obtain ⟨valid, hvalid, hok⟩ := bind_ok hok
  obtain ⟨-, -, hok⟩ := bind_ok hok
  obtain ⟨path, rfl⟩ := validateWorkspace_ok hplaced
  obtain ⟨⟨project, rfl⟩, -⟩ := validateTask_ok hvalid
  refine ⟨_, _, hvalid, ?_⟩
  by_cases hp : pulls (asked.differing t) t = true
  · rw [if_pos hp] at hok
    cases hok
    exact ⟨rfl, rfl⟩
  · rw [if_neg hp] at hok
    cases hok
    exact ⟨rfl, rfl⟩

theorem graphSound_changeTask {actor : Actor} {call : TaskCall} {taskId : Str} {i : ℕ} {t t' : Task}
    (hn : (org.tasks.map (·.id)).Nodup) (hs : GraphSound org.tasks)
    (hf : org.find taskId = some (i, t)) (hok : changeTask h now org i actor call t = .ok t') :
    t'.id = t.id ∧ GraphSound (org.tasks.set i t') := by
  have ht := Org.getElem?_of_find hf
  have hstay (hl : links t' = links t) : t'.id = t.id ∧ GraphSound (org.tasks.set i t') :=
    ⟨congrArg Prod.fst hl, graphSound_congr (links_set ht hl) hs⟩
  cases call with
  | comment body unblock =>
    obtain ⟨comments, rfl | ⟨-, -, rfl⟩⟩ := commentTask_ok hok
    · exact hstay rfl
    · exact hstay rfl
  | approve expectedRevision => exact hstay (by rw [approveTask_ok hok]; rfl)
  | review expectedRevision decision body =>
    obtain ⟨-, -, -, comments, acceptedAt, evidence, project, rfl⟩ := reviewTask_ok hok
    exact hstay rfl
  | reopen expectedRevision changes =>
    obtain ⟨-, -, turns, rfl⟩ := reopenTask_ok hok
    exact hstay rfl
  | update expectedRevision changes =>
    obtain ⟨u, valid, hvalid, hl, hid⟩ := updateTask_validated hok
    refine ⟨hid, ?_⟩
    have hindex : org.tasks.findIdx? (fun v => v.id = t'.id) = some i := by
      obtain ⟨j, hj, htask⟩ := Option.bind_eq_some_iff.mp hf
      obtain ⟨v, -, hpair⟩ := Option.map_eq_some_iff.mp htask
      obtain rfl : j = i := congrArg Prod.fst hpair
      have htaskId : t.id = taskId := by
        obtain ⟨hlt, hpred, -⟩ := List.findIdx?_eq_some_iff_getElem.mp hj
        obtain ⟨hlt', hget⟩ := List.getElem?_eq_some_iff.mp ht
        rw [hget] at hpred
        exact of_decide_eq_true hpred
      rw [hid, htaskId]
      exact hj
    rw [← edited_set hindex]
    exact graphSound_congr (links_edited hl.symm) (graphSound_of_validateTask hn hs hvalid)

/-- Task ids are distinct, the graph of parents and dependencies has no cycle, and routines name
known tasks. -/
structure GraphKept (c : Company) : Prop where
  ids : (c.tasks.map (·.id)).Nodup
  graph : GraphSound c.tasks
  drafts : ∀ p ∈ c.routines, Known c.tasks p.2.task

theorem Known.mono {xs ys : List Task} {t : Task} (hk : Known xs t)
    (hsub : ∀ id, (∃ u ∈ xs, u.id = id) → ∃ u ∈ ys, u.id = id) : Known ys t :=
  fun id hid => hsub id (hk id hid)

theorem Moves.graph {drafts : List Task} {fresh : ℕ → Str} {n : ℕ}
    (hmoves : Moves m drafts fresh c n c') (hn : (c'.tasks.map (·.id)).Nodup) (hs : GraphSound c.tasks)
    (hk : ∀ t ∈ drafts, Known c.tasks t) : GraphSound c'.tasks := by
  induction hmoves with
  | refl => exact hs
  | @upkeep _ a b _ hkeeps ih =>
    rw [hkeeps.keeps.ids] at hn
    refine graphSound_congr ?_ (ih hn)
    exact hkeeps.keeps.map_eq (fun _ _ _ hquiet => hquiet.links) (fun _ hfalse => hfalse)
  | @add _ a b hmoves ha ih =>
    obtain ⟨t, hmade, hid, htasks⟩ := ha.added
    rw [htasks, List.map_append, List.nodup_append] at hn
    obtain ⟨hn, -, hfresh⟩ := hn
    have hnew : t.id ∉ a.tasks.map (·.id) := fun hmem => hfresh t.id hmem t.id (by simp) rfl
    have hthere : ∀ id, (∃ u ∈ c.tasks, u.id = id) → ∃ u ∈ a.tasks, u.id = id := by
      intro id hu
      have hmem : id ∈ c.tasks.map (·.id) := by simpa using hu
      have hgrown : id ∈ a.tasks.map (·.id) := by
        rw [hmoves.ids]
        exact List.mem_append_left _ hmem
      simpa using hgrown
    rw [htasks]
    apply graphSound_extend (ih hn) hnew
    cases hmade with
    | occurrence r hr occurrence fresh last hlast =>
      have hdraft := (hk r.task hr).mono hthere
      rintro id (hdep | hparent)
      · -- The draft's dependencies, and the occurrence before.
        cases last with
        | none => exact hdraft id (.inl hdep)
        | some before =>
          have hmem : id ∈ (r.task.dependsOn ++ [before]).dedup := hdep
          rw [List.mem_dedup, List.mem_append, List.mem_singleton] at hmem
          rcases hmem with hmem | rfl
          · exact hdraft id (.inl hmem)
          · exact hlast id rfl
      · exact hdraft id (.inr hparent)
    | checkIn fresh employee =>
      rintro id (hdep | hparent)
      · exact absurd hdep List.not_mem_nil
      · contradiction
    | recheck fresh description employee =>
      rintro id (hdep | hparent)
      · exact absurd hdep List.not_mem_nil
      · contradiction

theorem nodup_of_unused {drafts : List Task} {fresh : ℕ → Str} {n k : ℕ} {run : List Str}
    (hmoves : Moves m drafts fresh c n c') (hn : (c.tasks.map (·.id)).Nodup) (hle : n ≤ k)
    (hunused : c.unused (run ++ c.freshIds fresh k) = true) : (c'.tasks.map (·.id)).Nodup := by
  simp only [Company.unused, Bool.and_eq_true, decide_eq_true_eq] at hunused
  obtain ⟨hnodup, hall⟩ := hunused
  have hsub : List.Sublist ((List.range n).map (fun k => fresh (c.tasks.length + k)))
      (c.freshIds fresh k) := (List.range_sublist.mpr hle).map _
  rw [hmoves.ids]
  refine List.nodup_append.mpr ⟨hn, (List.nodup_append.mp hnodup).2.1.sublist hsub, ?_⟩
  rintro id hid id' hid' rfl
  have hone := List.all_eq_true.mp hall id (List.mem_append_right _ (hsub.subset hid'))
  simp only [Bool.and_eq_true, Bool.not_eq_true'] at hone
  simp [hid] at hone

theorem known_of_validateTask {config : OrganizationConfig} {tasks : List Task} {t t' : Task}
    (hn : (tasks.map (·.id)).Nodup) (hs : GraphSound tasks)
    (hok : validateTask config tasks t = .ok t') : Known tasks t := by
  have hsound := graphSound_of_validateTask hn hs hok
  have hself : t ∈ edited tasks t := by
    have hfind : (edited tasks t).find? (fun u => u.id = t.id) = some t := by
      rw [find_edited, if_pos rfl]
    exact List.mem_of_find?_eq_some hfind
  have hother : ∀ id, (∃ u ∈ edited tasks t, u.id = id) → id ≠ t.id → ∃ u ∈ tasks, u.id = id := by
    rintro id ⟨u, hu, rfl⟩ hne
    have hmem := (mem_edited_ids.mp (List.mem_map_of_mem (f := (·.id)) hu)).resolve_right hne
    simpa using hmem
  rintro id (hdep | hparent)
  · have hedge : DependsOn (edited tasks t) t.id id := ⟨t, hself, rfl, hdep⟩
    refine hother id (hsound.dependencies t.id id hedge) ?_
    rintro rfl
    exact hsound.acyclic t.id (.single hedge)
  · have hedge : ChildOf (edited tasks t) t.id id := ⟨t, hself, rfl, hparent⟩
    refine hother id (hsound.parents t.id id hedge) ?_
    rintro rfl
    exact hsound.forest t.id (.single hedge)

structure Grown (xs ys : List Task) : Prop where
  ids : (ys.map (·.id)).Nodup
  graph : GraphSound ys
  there : ∀ id, (∃ u ∈ xs, u.id = id) → ∃ u ∈ ys, u.id = id

theorem Grown.links {xs ys zs : List Task} (h : Grown xs ys) (hl : zs.map links = ys.map links) :
    Grown xs zs where
  ids := ids_congr hl ▸ h.ids
  graph := graphSound_congr hl h.graph
  there := fun id hu => (there_congr (ids_congr hl) id).mpr (h.there id hu)

theorem GraphKept.grown (h : GraphKept c) : Grown c.tasks c.tasks := ⟨h.ids, h.graph, fun _ hu => hu⟩

theorem call_grown (h : GraphKept c) (caller : Caller) (taskId : Str) (call : TaskCall) :
    Grown c.tasks (c.call m caller taskId call).tasks := by
  rcases call_cases m.toHost m.now c.world caller taskId call with
    hsame | ⟨i, t, t₁, hf, -, -, hok, he⟩
  · have htasks : (c.call m caller taskId call).tasks = c.tasks := congrArg (fun w => w.org.tasks) hsame
    rw [htasks]
    exact h.grown
  · have ht := Org.getElem?_of_find hf
    have hi := (List.getElem?_eq_some_iff.mp ht).1
    obtain ⟨hid, hset⟩ := graphSound_changeTask h.ids h.graph hf hok
    have hlinks : (c.call m caller taskId call).tasks.map links = (c.tasks.set i t₁).map links := by
      refine he.there.map_eq (fun j u u' hu => ?_) (fun _ hfalse => hfalse)
      obtain ⟨hget, ⟨rfl, -, -, hquiet⟩ | hquiet⟩ := hu
      · rw [List.getElem?_set_self hi] at hget
        obtain rfl := Option.some.inj hget
        exact hquiet.links.trans (minor_restarted caller.actor t₁).links
      · exact hquiet.links
    have hids : (c.tasks.set i t₁).map (·.id) = c.tasks.map (·.id) := by
      have hsome : (c.tasks.map (·.id))[i]? = some t₁.id := by
        rw [List.getElem?_map, hid]
        exact congrArg (Option.map (·.id)) ht
      obtain ⟨hlt, hget⟩ := List.getElem?_eq_some_iff.mp hsome
      rw [List.map_set, ← hget, List.set_getElem_self hlt]
    exact Grown.links ⟨hids ▸ h.ids, hset, fun id => (there_congr hids id).mpr⟩ hlinks

theorem create_grown {caller : Caller} {fresh : Str} {draft : Task} (h : GraphKept c)
    (hunused : c.unused [fresh] = true) :
    Grown c.tasks (c.world.create m.toHost caller fresh draft).org.tasks := by
  simp only [World.create]
  split_ifs
  · exact h.grown
  · cases hok : createTask m.toHost c.world.org caller fresh draft with
    | error e => exact h.grown
    | ok t =>
      set added : World := c.world.become (mover caller.actor) none (c.world.org.add t) with hadded
      obtain ⟨-, path, project, ht, hvalid⟩ := createTask_cases hok
      obtain ⟨parentId, approvalRequired, reviewRequired, parentRunId, hproposal⟩ :=
        proposal_eq c.world.org caller fresh draft
      have hid : t.id = fresh := by
        rw [ht, hproposal]
        rfl
      have hnew : t.id ∉ c.tasks.map (·.id) := by
        simp only [Company.unused, List.all_cons, List.all_nil, Bool.and_true, Bool.and_eq_true,
          Bool.not_eq_true'] at hunused
        rw [hid]
        simpa using hunused.2.1
      have hlinks : added.unblock.org.tasks.map links = (c.tasks ++ [t]).map links :=
        (keeps_unblock added).map_eq (fun _ _ _ hquiet => hquiet.links) (fun _ hfalse => hfalse)
      have hids : ((c.tasks ++ [t]).map (·.id)).Nodup := by
        rw [← edited_fresh hnew]
        exact nodup_edited h.ids
      have hsound : GraphSound (c.tasks ++ [t]) := by
        rw [← edited_fresh hnew]
        refine graphSound_congr (links_edited ?_) (graphSound_of_validateTask h.ids h.graph hvalid)
        rw [ht]
        rfl
      refine Grown.links ⟨hids, hsound, fun id hu => ?_⟩ hlinks
      obtain ⟨u, hu, hid⟩ := hu
      exact ⟨u, List.mem_append_left _ hu, hid⟩

theorem moves_grown {drafts : List Task} {fresh : ℕ → Str} {n k : ℕ} {run : List Str}
    (hmoves : Moves m drafts fresh c n c') (h : GraphKept c) (hle : n ≤ k)
    (hdrafts : drafts = c.routines.map (·.2.task))
    (hunused : c.unused (run ++ c.freshIds fresh k) = true) : Grown c.tasks c'.tasks := by
  have hids := nodup_of_unused hmoves h.ids hle hunused
  refine ⟨hids, hmoves.graph hids h.graph fun t ht => ?_, fun id hu => ?_⟩
  · rw [hdrafts] at ht
    obtain ⟨p, hp, rfl⟩ := List.mem_map.mp ht
    exact h.drafts p hp
  · have hmem : id ∈ c'.tasks.map (·.id) := by
      obtain ⟨u, hu, rfl⟩ := hu
      rw [hmoves.ids]
      exact List.mem_append_left _ (List.mem_map_of_mem hu)
    simpa using hmem

theorem deed_links {step : Moment × Event} {i : ℕ} {t t' : Task}
    (hcall : ∀ caller taskId call, step.2 ≠ .call caller taskId call) (hd : Deed c step i t t') :
    links t' = links t := by
  obtain ⟨m, event⟩ := step
  cases event with
  | call caller taskId call => exact absurd rfl (hcall caller taskId call)
  | experiment ids employee reason =>
    rcases hd with ⟨-, -, tasks, valid, hvalid, hplaced⟩ | rfl
    · obtain ⟨path, rfl⟩ := validateWorkspace_ok hplaced
      obtain ⟨⟨project, rfl⟩, -⟩ := validateTask_ok hvalid
      rfl
    · rfl
  | launch taskId expectedRevision authorization =>
    rcases hd with ⟨-, -, rfl⟩ | rfl
    · rfl
    · rfl
  | dispatch elsewhere run fresh =>
    rcases hd with ⟨a, t₁, reserved, rootKey, hquiet, -, rfl⟩ | hquiet
    · exact hquiet.links
    · exact hquiet.links
  | _ => exact (Deed.minor hd rfl).links

theorem grown_of_moves {drafts : List Task} {fresh : ℕ → Str} {n k : ℕ}
    (hmoves : Moves m drafts fresh c n c') (h : GraphKept c) (hle : n ≤ k)
    (hdrafts : drafts = c.routines.map (·.2.task))
    (hunused : c.unused (c.freshIds fresh k) = true) : Grown c.tasks c'.tasks := by
  have hnil : c.unused ([] ++ c.freshIds fresh k) = true := hunused
  exact moves_grown hmoves h hle hdrafts hnil

theorem act_grown (h : GraphKept c) (step : Moment × Event) : Grown c.tasks (c.act step).tasks := by
  have he := act_evolves c step
  obtain ⟨m, event⟩ := step
  cases event with
  | call caller taskId call => exact call_grown h caller taskId call
  | create caller fresh draft =>
    simp only [Company.act, Company.create]
    split_ifs with hunused
    · exact create_grown h hunused
    · exact h.grown
  | checkMemories caller fresh changed =>
    simp only [Company.act]
    split_ifs with hunused
    · obtain ⟨n, hn, hmoves⟩ :=
        checkMemories_moves m (c.routines.map (·.2.task)) c caller fresh changed
      exact grown_of_moves hmoves h hn rfl hunused
    · exact h.grown
  | triggerRoutine fresh routineId occurrence =>
    simp only [Company.act]
    split_ifs with hunused
    · cases hok : c.triggerRoutine m fresh routineId occurrence with
      | error e => exact h.grown
      | ok c' =>
        obtain ⟨n, hn, hmoves⟩ := triggerRoutine_moves hok
        exact grown_of_moves hmoves h hn rfl hunused
    · exact h.grown
  | dispatch elsewhere run fresh =>
    simp only [Company.act, Company.schedule]
    split_ifs with hfree
    · cases hok : c.dispatch m elsewhere run fresh with
      | error e => exact h.grown
      | ok result =>
        obtain ⟨c', pos⟩ := result
        simp only [Bool.and_eq_true] at hfree
        obtain ⟨n, hn, a, hmoves, hstarted⟩ := dispatch_moves hok
        have hunused : c.unused
            ([run] ++ c.freshIds fresh (c.routines.length + c.config.employees.length)) = true :=
          hfree.1.1.1
        have hgrown := moves_grown hmoves h hn rfl hunused
        cases hstarted with
        | none => exact hgrown
        | @one i t reserved rootKey ht hv =>
          have hlinks : links (claimTask run reserved t) = links t := rfl
          exact hgrown.links (links_set ht hlinks)
    · exact h.grown
  | _ =>
    refine h.grown.links (he.map_eq (fun _ _ _ hd => deed_links ?_ hd) (fun _ hfalse => hfalse))
    exact fun _ _ _ hcall => by cases hcall

theorem act_graph (c : Company) (step : Moment × Event) (h : GraphKept c) : GraphKept (c.act step) := by
  have hgrown := act_grown h step
  refine ⟨hgrown.ids, hgrown.graph, fun p hp => ?_⟩
  by_cases hsave : ∀ r revision, step.2 ≠ .saveRoutine r revision
  · obtain ⟨q, hq, hdraft⟩ := List.mem_map.mp (act_drafts hsave hp)
    exact hdraft ▸ (h.drafts q hq).mono hgrown.there
  · push Not at hsave
    obtain ⟨r, revision, hstep⟩ := hsave
    obtain ⟨m, event⟩ := step
    subst hstep
    simp only [Company.act] at hp ⊢
    cases hok : c.saveRoutine m r revision with
    | error e =>
      rw [hok] at hp
      exact h.drafts p hp
    | ok c' =>
      rw [hok] at hp
      simp only [Company.saveRoutine] at hok
      obtain ⟨-, -, hok⟩ := bind_ok hok
      obtain ⟨valid, hvalid, hok⟩ := bind_ok hok
      obtain ⟨-, -, hok⟩ := bind_ok hok
      rw [require_bind] at hok
      obtain ⟨-, hok⟩ := hok
      cases hok
      rcases Dict.mem_set hp with hold | hnew
      · exact h.drafts p hold
      · rw [hnew]
        exact known_of_validateTask h.ids h.graph hvalid

end Steps

/-! ### All that happens -/

section Runs

variable {m : Moment} {config : OrganizationConfig} {package : List PackageTask} {c : Company}

theorem found_graph (hfound : found m config package = .ok c) : GraphKept c := by
  obtain ⟨hn, hc, he⟩ := found_cases hfound
  have hlinks : c.tasks.map links = (package.map (·.toTask m)).map links := by
    refine he.map_eq ?_ (fun _ hfalse => hfalse)
    rintro i t t' ⟨project, rfl⟩
    rfl
  have halone : ∀ l ∈ (package.map (·.toTask m)).map links, l.2.1 = [] ∧ l.2.2 = none := by
    intro l hl
    rw [List.map_map] at hl
    obtain ⟨p, -, rfl⟩ := List.mem_map.mp hl
    exact ⟨rfl, rfl⟩
  have hdeps : ∀ a b, ¬ DependsOn (package.map (·.toTask m)) a b := by
    intro a b hab
    obtain ⟨l, hl, -, hb⟩ := dependsOn_iff.mp hab
    rw [(halone l hl).1] at hb
    exact List.not_mem_nil hb
  have hparents : ∀ a b, ¬ ChildOf (package.map (·.toTask m)) a b := by
    intro a b hab
    obtain ⟨l, hl, -, hb⟩ := childOf_iff.mp hab
    rw [(halone l hl).2] at hb
    contradiction
  have hroutines : c.routines = [] := by rw [hc]
  refine ⟨?_, graphSound_congr hlinks ?_, fun p hp => by simp [hroutines] at hp⟩
  · have hids : (package.map (·.toTask m)).map (·.id) = package.map (·.id) := by
      rw [List.map_map]
      rfl
    rw [ids_congr hlinks, hids]
    exact hn
  · constructor
    · exact fun a b hab => absurd hab (hdeps a b)
    · intro a hcycle
      obtain ⟨b, hab, -⟩ := Relation.TransGen.head'_iff.mp hcycle
      exact hdeps a b hab
    · exact fun a b hab => absurd hab (hparents a b)
    · intro a hcycle
      obtain ⟨b, hab, -⟩ := Relation.TransGen.head'_iff.mp hcycle
      exact hparents a b hab

/-- In every state that an organization comes to, its tasks make a sound graph, and `validate_task`
accepts an edit exactly where its other checks do and the whole graph is sound after the edit. Its
two loops end on every graph. -/
theorem task_graph_stays_sound (hfound : found m config package = .ok c) (steps : List (Moment × Event)) :
    (((c.run steps).tasks.map (·.id)).Nodup ∧ GraphSound (c.run steps).tasks) ∧
      (∀ rules t t', validateTask rules (c.run steps).tasks t = .ok t' ↔
        otherChecks rules (c.run steps).tasks t = .ok t' ∧ GraphSound (edited (c.run steps).tasks t)) ∧
      ∀ (tasks : List Task) (t : Task),
        (∃ verdict, search (dependencies t tasks).get
            (2 + ((dependencies t tasks).map (fun p => p.2.length + 1)).sum)
            ⟨[(t.id, false)], [], []⟩ = some verdict ∧
          cycles (dependencies t tasks)
            (2 + ((dependencies t tasks).map (fun p => p.2.length + 1)).sum)
            [(t.id, false)] [] [] = verdict) ∧
        ∃ verdict, climb (fun id =>
            (Dict.get (tasks.foldl (fun d u => Dict.set d u.id u.parentId) []) id).map present)
            (tasks.length + 1) [t.id] (present t.parentId) = some verdict ∧
          parentCycles (tasks.foldl (fun d u => Dict.set d u.id u.parentId) []) (tasks.length + 1)
            [t.id] t.parentId = verdict := by
  have hkept : GraphKept (c.run steps) := run_invariant act_graph (found_graph hfound) steps
  refine ⟨⟨hkept.ids, hkept.graph⟩, fun rules t t' => validateTask_accepts hkept.ids hkept.graph, ?_⟩
  intro tasks t
  obtain ⟨verdict, hsearch, -⟩ := search_dependencies tasks t
  obtain ⟨verdict', hclimb, -⟩ := climb_parents tasks t
  exact ⟨⟨verdict, hsearch, cycles_of_search hsearch⟩, verdict', hclimb, parentCycles_of_climb hclimb⟩

end Runs

def pairPackage : List PackageTask :=
  [{ id := text "a", title := text "First" }, { id := text "b", title := text "Second" }]

def pairCompany : Company :=
  { world := { org := { running := false, tasks := pairPackage.map (·.toTask (plainMoment 0)) } } }

def pairSteps : List (Moment × Event) :=
  [(plainMoment 0, .call { actor := .user } (text "b") (.update 1 { dependsOn := some [text "a"] })),
    (plainMoment 0, .call { actor := .user } (text "a") (.update 1 { dependsOn := some [text "b"] }))]

theorem task_graph_stays_sound_pair :
    (pairCompany.run pairSteps).tasks.map (·.dependsOn) = [[], [text "a"]] ∧
      GraphSound (pairCompany.run pairSteps).tasks := by
  have hfound : found (plainMoment 0) {} pairPackage = .ok pairCompany := rfl
  exact ⟨by decide +kernel, (task_graph_stays_sound hfound pairSteps).1.2⟩

end Raticode.Organizations
