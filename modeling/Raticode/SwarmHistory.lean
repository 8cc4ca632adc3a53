import Mathlib.Data.List.Nodup
import Raticode.SwarmStore

/-! What the stored swarm stands for: loading it gives the last saved swarm as the events since
have changed it, and no row of an earlier save is left in it. -/
namespace Raticode.Swarms
open PyDocument OrderedDict

variable {ρ β γ δ η : Type}

section Intended

def lastHundred {α : Type} (l : List α) : List α := l.drop (l.length - 100)

def Agent.tracesAfter (e : Event ρ) (a : Agent ρ (List (Item ρ))) : List (Item ρ) :=
  lastHundred ((a.lists .traces).getD [] ++ [e.item])

def Run.heard (e : Event ρ) (attemptId : Option Str) (r : Run ρ (List (Item ρ))) :
    Run ρ (List (Item ρ)) :=
  { r.updateAgent e.agent (fun a => a.active e (a.tracesAfter e)) with
    lists := fun field =>
      if field = .attempts then
        (r.lists field).map (List.map (Item.stamp attemptId e.timestamp))
      else r.lists field }

def Swarm.heard (e : Event ρ) (s : Swarm ρ (List (Item ρ))) : Swarm ρ (List (Item ρ)) :=
  match s.run.bind (fun run => (run.agentStates.get e.agent).map (run, ·)) with
  | none => s
  | some (run, state) =>
    { s with updatedAt := some e.timestamp, run := some (run.heard e state.attemptId) }

def Call.intended (s : Option (Swarm ρ (List (Item ρ)))) :
    Call ρ η → Option (Swarm ρ (List (Item ρ)))
  | .save swarm _ => some swarm
  | .activity e => s.map (Swarm.heard e)

def Call.archived : Call ρ η → List (Str × η)
  | .save _ history => history
  | .activity _ => []

def Store.NoLeftovers (s : Store ρ η) : Call ρ η → Prop
  | .save _ _ => True
  | .activity e => ∀ body ∈ s.body, ∀ run ∈ body.run, ∀ state ∈ run.agentStates.get e.agent,
      state.lists .traces = none → s.table run.id (collection (.agent e.agent) .traces) = []

def Clean (s : Store ρ η) : List (Call ρ η) → Prop
  | [] => True
  | call :: rest => s.NoLeftovers call ∧ Clean (s.step call) rest

end Intended

section Collections

theorem append_colon_inj {u v w x : Str} {c : ℕ} (hv : c ∉ v) (hx : c ∉ x)
    (h : u ++ c :: v = w ++ c :: x) : u = w ∧ v = x := by
  have hrev : v.reverse ++ c :: u.reverse = x.reverse ++ c :: w.reverse := by
    have hr := congrArg List.reverse h
    simpa using hr
  have hbefore : ∀ (l r : Str), c ∉ l → (l.reverse ++ c :: r).takeWhile (· ≠ c) = l.reverse := by
    intro l r hl
    rw [List.takeWhile_append_of_pos (by simpa using fun a ha => ne_of_mem_of_not_mem ha hl)]
    simp
  have heq : v.reverse = x.reverse := by
    rw [← hbefore v u.reverse hv, hrev, hbefore x w.reverse hx]
  have hvx : v = x := List.reverse_injective heq
  subst hvx
  exact ⟨List.append_cancel_right h, rfl⟩

theorem collection_inj {o o' : Owner} {f f' : Field} :
    collection o f = collection o' f' ↔ o = o' ∧ f = f' := by
  refine ⟨fun h => ?_, fun ⟨ho, hf⟩ => ho ▸ hf ▸ rfl⟩
  have hcolon : ∀ f : Field, 58 ∉ f.name := by
    intro f
    cases f <;> decide
  have hjoin : ∀ (o : Owner) (f : Field), collection o f = o.name ++ 58 :: f.name := by
    intro o f
    rw [collection, List.append_assoc]
    rfl
  rw [hjoin, hjoin] at h
  obtain ⟨ho, hf⟩ := append_colon_inj (hcolon f) (hcolon f') h
  constructor
  · cases o with
    | run =>
      cases o' with
      | run => rfl
      | agent key => exact absurd ho (by simp [Owner.name, text])
    | agent key =>
      cases o' with
      | run => exact absurd ho (by simp [Owner.name, text])
      | agent key' => exact congrArg Owner.agent (List.append_cancel_left ho)
  · revert hf
    cases f <;> cases f' <;> first | (intro _; rfl) | (intro hf; exact absurd hf (by decide))

theorem Field.mem_all (f : Field) : f ∈ Field.all := by cases f <;> decide

theorem mem_storedLists {r : Run ρ β} {c : Str} {v : β} : (c, v) ∈ r.storedLists ↔
    (∃ f, c = collection .run f ∧ r.lists f = some v) ∨
      ∃ p ∈ r.agentStates, ∃ f, c = collection (.agent p.1) f ∧ p.2.lists f = some v := by
  have hgroup : ∀ (o : Owner) (lists : Field → Option β),
      (c, v) ∈ Field.all.filterMap (fun f => (lists f).map (fun w => (collection o f, w))) ↔
        ∃ f, c = collection o f ∧ lists f = some v := by
    intro o lists
    simp only [List.mem_filterMap, Option.map_eq_some_iff, Prod.mk.injEq]
    constructor
    · rintro ⟨f, -, w, hw, rfl, rfl⟩
      exact ⟨f, rfl, hw⟩
    · rintro ⟨f, rfl, hf⟩
      exact ⟨f, f.mem_all, v, hf, rfl, rfl⟩
  rw [Run.storedLists, List.flatMap_cons, List.mem_append, hgroup, List.mem_flatMap]
  refine or_congr_right ⟨?_, ?_⟩
  · rintro ⟨group, hg, hmem⟩
    obtain ⟨p, hp, rfl⟩ := List.mem_map.mp hg
    exact ⟨p, hp, (hgroup _ _).mp hmem⟩
  · rintro ⟨p, hp, hmem⟩
    exact ⟨_, List.mem_map_of_mem hp, (hgroup _ _).mpr hmem⟩

theorem Run.eq_of_key {r : Run ρ β} {p q : Str × Agent ρ β} (hp : p ∈ r.agentStates)
    (hq : q ∈ r.agentStates) (h : p.1 = q.1) : p = q := List.inj_on_of_nodup_map r.distinct hp hq h

theorem storedLists_unique {r : Run ρ β} {c : Str} {v w : β} (hv : (c, v) ∈ r.storedLists)
    (hw : (c, w) ∈ r.storedLists) : v = w := by
  rcases mem_storedLists.mp hv with ⟨f, rfl, hf⟩ | ⟨p, hp, f, rfl, hf⟩
  · rcases mem_storedLists.mp hw with ⟨f', hc, hf'⟩ | ⟨p, hp, f', hc, hf'⟩
    · obtain ⟨-, rfl⟩ := collection_inj.mp hc
      exact Option.some.inj (hf.symm.trans hf')
    · exact absurd (collection_inj.mp hc).1 (by simp)
  · rcases mem_storedLists.mp hw with ⟨f', hc, hf'⟩ | ⟨q, hq, f', hc, hf'⟩
    · exact absurd (collection_inj.mp hc).1 (by simp)
    · obtain ⟨ho, rfl⟩ := collection_inj.mp hc
      obtain rfl := r.eq_of_key hp hq (Owner.agent.inj ho)
      exact Option.some.inj (hf.symm.trans hf')

end Collections

section Numbered

def numbered (start : ℕ) : List (Item ρ) → Rows ρ
  | [] => []
  | v :: vs => (start, v) :: numbered (start + 1) vs

variable {start : ℕ} {values : List (Item ρ)}

@[simp] theorem numbered_nil (start : ℕ) : numbered start ([] : List (Item ρ)) = [] := rfl

theorem numbered_cons (start : ℕ) (v : Item ρ) (vs : List (Item ρ)) :
    numbered start (v :: vs) = (start, v) :: numbered (start + 1) vs := rfl

theorem numbered_append (u v : List (Item ρ)) :
    numbered start (u ++ v) = numbered start u ++ numbered (start + u.length) v := by
  induction u generalizing start with
  | nil => rfl
  | cons x u ih =>
    rw [List.cons_append, numbered_cons, numbered_cons, ih, List.cons_append, List.length_cons]
    congr 3
    omega

theorem map_snd_numbered : (numbered start values).map Prod.snd = values := by
  induction values generalizing start with
  | nil => rfl
  | cons v vs ih => rw [numbered_cons, List.map_cons, ih]

theorem map_numbered (f : Item ρ → Item ρ) :
    (numbered start values).map (fun row => (row.1, f row.2)) = numbered start (values.map f) := by
  induction values generalizing start with
  | nil => rfl
  | cons v vs ih => rw [numbered_cons, List.map_cons, ih, List.map_cons, numbered_cons]

theorem mem_numbered {row : ℕ × Item ρ} (h : row ∈ numbered start values) :
    start ≤ row.1 ∧ row.1 < start + values.length := by
  induction values generalizing start with
  | nil => cases h
  | cons v vs ih =>
    rw [List.length_cons]
    rcases List.mem_cons.mp h with rfl | h
    · simp
    · have := ih h
      omega

theorem nextPosition_numbered (hne : values ≠ []) :
    nextPosition (numbered start values) = start + values.length := by
  have hmax : ∀ (vs : List (Item ρ)) (k m : ℕ), m ≤ k →
      ((numbered k vs).map (fun row => row.1 + 1)).foldl max m =
        if vs = [] then m else k + vs.length := by
    intro vs
    induction vs with
    | nil => exact fun _ _ _ => rfl
    | cons v vs ih =>
      intro k m hm
      rw [numbered_cons, List.map_cons, List.foldl_cons, max_eq_right (by simp only; omega),
        ih (k + 1) (k + 1) le_rfl, if_neg (List.cons_ne_nil v vs), List.length_cons]
      split_ifs with hvs
      · rw [hvs, List.length_nil]
      · omega
  rw [nextPosition, hmax values start 0 (Nat.zero_le _), if_neg hne]

theorem filter_numbered (bound : ℕ) :
    (numbered start values).filter (fun row => bound ≤ row.1) =
      numbered (start + (bound - start)) (values.drop (bound - start)) := by
  induction values generalizing start with
  | nil => rw [List.drop_nil]; rfl
  | cons v vs ih =>
    by_cases hle : bound ≤ start
    · have hzero : bound - start = 0 := by omega
      have hall : (numbered start (v :: vs)).filter (fun row => decide (bound ≤ row.1)) =
          numbered start (v :: vs) := by
        apply List.filter_eq_self.mpr
        intro row hrow
        have := (mem_numbered hrow).1
        exact decide_eq_true (by omega)
      rw [hall, hzero, List.drop_zero, Nat.add_zero]
    · obtain ⟨k, hk⟩ : ∃ k, bound - start = k + 1 := ⟨bound - start - 1, by omega⟩
      have hrest : bound - (start + 1) = k := by omega
      rw [numbered_cons, List.filter_cons, if_neg (by simpa using hle), ih, hk, hrest,
        List.drop_succ_cons]
      congr 1
      omega

theorem upsert_next {rows : Rows ρ} {position : ℕ} (h : ∀ row ∈ rows, row.1 < position)
    (item : Item ρ) : upsert rows position item = rows ++ [(position, item)] := by
  have hall : rows.filter (fun row => decide (row.1 < position)) = rows :=
    List.filter_eq_self.mpr (fun row hrow => decide_eq_true (h row hrow))
  have hnone : rows.filter (fun row => decide (position < row.1)) = [] := by
    apply List.filter_eq_nil_iff.mpr
    intro row hrow
    have := h row hrow
    simp only [decide_eq_true_eq]
    omega
  rw [upsert, hall, hnone]

theorem kept_numbered (item : Item ρ) :
    ∃ start', (upsert (numbered start values) (nextPosition (numbered start values)) item).filter
      (fun row => nextPosition (numbered start values) - 99 ≤ row.1) =
        numbered start' (lastHundred (values ++ [item])) := by
  by_cases hne : values = []
  · subst hne
    exact ⟨0, rfl⟩
  · have hlast : ∀ row ∈ numbered start values, row.1 < start + values.length :=
      fun row hrow => (mem_numbered hrow).2
    have happend : numbered start values ++ [(start + values.length, item)] =
        numbered start (values ++ [item]) := (numbered_append values [item]).symm
    rw [nextPosition_numbered hne, upsert_next hlast, happend, filter_numbered]
    refine ⟨start + (start + values.length - 99 - start), ?_⟩
    have hcount : start + values.length - 99 - start = (values ++ [item]).length - 100 := by
      rw [List.length_append, List.length_singleton]
      omega
    rw [lastHundred, hcount]

theorem writeRows_eq (rows : Rows ρ) : writeRows rows values = numbered 0 values := by
  -- the values written so far, and rows that lie beyond them
  have hfold : ∀ (vs : List (Item ρ)) (k : ℕ) (before beyond : Rows ρ),
      (∀ row ∈ before, row.1 < k) → (∀ row ∈ beyond, k ≤ row.1) →
      ∃ beyond', (∀ row ∈ beyond', k + vs.length ≤ row.1) ∧
        (vs.zipIdx k).foldl (fun rows p => upsert rows p.2 p.1) (before ++ beyond) =
          before ++ numbered k vs ++ beyond' := by
    intro vs
    induction vs with
    | nil =>
      intro k before beyond _ hbeyond
      exact ⟨beyond, hbeyond, by simp⟩
    | cons v vs ih =>
      intro k before beyond hbefore hbeyond
      have hstep : upsert (before ++ beyond) k v =
          (before ++ [(k, v)]) ++ beyond.filter (fun row => k < row.1) := by
        have hfirst : before.filter (fun row => decide (row.1 < k)) = before :=
          List.filter_eq_self.mpr (fun row hrow => decide_eq_true (hbefore row hrow))
        have hnone : beyond.filter (fun row => decide (row.1 < k)) = [] :=
          List.filter_eq_nil_iff.mpr (fun row hrow => by simpa using hbeyond row hrow)
        have hno : before.filter (fun row => decide (k < row.1)) = [] :=
          List.filter_eq_nil_iff.mpr (fun row hrow => by simpa using (hbefore row hrow).le)
        rw [upsert, List.filter_append, List.filter_append, hfirst, hnone, hno, List.append_nil,
          List.nil_append, List.append_assoc, List.singleton_append]
      obtain ⟨beyond', hb, heq⟩ := ih (k + 1) (before ++ [(k, v)])
        (beyond.filter (fun row => k < row.1)) (by
          intro row hrow
          rcases List.mem_append.mp hrow with hrow | hrow
          · exact (hbefore row hrow).trans (Nat.lt_succ_self k)
          · rw [List.mem_singleton.mp hrow]
            exact Nat.lt_succ_self k) (by
          intro row hrow
          exact of_decide_eq_true (List.mem_filter.mp hrow).2)
      refine ⟨beyond', fun row hrow => ?_, ?_⟩
      · have := hb row hrow
        rw [List.length_cons]
        omega
      · rw [List.zipIdx_cons, List.foldl_cons, hstep, heq, numbered_cons, List.append_assoc before]
        rfl
  obtain ⟨beyond, hbeyond, heq⟩ := hfold values 0 [] rows (fun _ h => absurd h List.not_mem_nil)
    (fun row _ => Nat.zero_le row.1)
  rw [List.nil_append] at heq
  have hall : (numbered 0 values).filter (fun row => decide (row.1 < values.length)) =
      numbered 0 values := by
    apply List.filter_eq_self.mpr
    intro row hrow
    have := (mem_numbered hrow).2
    exact decide_eq_true (by omega)
  have hnone : beyond.filter (fun row => decide (row.1 < values.length)) = [] := by
    apply List.filter_eq_nil_iff.mpr
    intro row hrow
    have := hbeyond row hrow
    simp only [decide_eq_true_eq]
    omega
  rw [writeRows, heq, List.nil_append, List.filter_append, hall, hnone, List.append_nil]

end Numbered

section Kept

theorem Agent.mapLists_mapLists (g : Field → β → γ) (k : Field → γ → δ) (a : Agent ρ β) :
    (a.mapLists g).mapLists k = a.mapLists (fun f v => k f (g f v)) := by
  simp only [Agent.mapLists, Option.map_map]
  rfl

theorem Run.mapLists_mapLists (g : Str → β → γ) (k : Str → γ → δ) (r : Run ρ β) :
    (r.mapLists g).mapLists k = r.mapLists (fun c v => k c (g c v)) := by
  simp only [Run.mapLists, Option.map_map, List.map_map, Function.comp_def,
    Agent.mapLists_mapLists]

theorem Run.mapLists_self {g : Str → β → β} {r : Run ρ β}
    (h : ∀ c v, (c, v) ∈ r.storedLists → g c v = v) : r.mapLists g = r := by
  have hagents : r.agentStates.map (fun p =>
      (p.1, p.2.mapLists (fun f => g (collection (.agent p.1) f)))) =
      r.agentStates.map (fun p => p) := by
    apply List.map_congr_left
    intro p hp
    have hlists : (fun f => (p.2.lists f).map (g (collection (.agent p.1) f))) = p.2.lists := by
      funext f
      cases hf : p.2.lists f with
      | none => rfl
      | some v =>
        exact congrArg some (h _ v (mem_storedLists.mpr (.inr ⟨p, hp, f, rfl, hf⟩)))
    simp only [Agent.mapLists, hlists]
  have hlists : (fun f => (r.lists f).map (g (collection .run f))) = r.lists := by
    funext f
    cases hf : r.lists f with
    | none => rfl
    | some v => exact congrArg some (h _ v (mem_storedLists.mpr (.inl ⟨f, rfl, hf⟩)))
  simp only [Run.mapLists, hagents, hlists, List.map_id']

def Table.Holds (t : Table ρ) (run : Run ρ (List (Item ρ))) : Prop :=
  ∀ c values, (c, values) ∈ run.storedLists → ∃ start, t run.id c = numbered start values

def Swarm.bare (s : Swarm ρ β) : Swarm ρ Unit := s.mapLists (fun _ _ _ => ())

/-- The stored body and the rows of the runs are the swarm. -/
structure Store.Represents (s : Store ρ η) (swarm : Swarm ρ (List (Item ρ))) : Prop where
  body : ∃ body, s.body = some body ∧ body.bare = swarm.bare
  table : ∀ run ∈ swarm.run, s.table.Holds run

theorem Swarm.mapLists_bare (g : Str → Str → Unit → γ) (s : Swarm ρ β) :
    s.bare.mapLists g = s.mapLists (fun r c _ => g r c ()) := by
  cases hrun : s.run with
  | none => simp only [bare, mapLists, hrun, Option.map_none]
  | some run =>
    simp only [bare, mapLists, hrun, Option.map_some, Run.mapLists_mapLists]
    rfl

theorem Store.Represents.load {s : Store ρ η} {swarm : Swarm ρ (List (Item ρ))}
    (h : s.Represents swarm) : s.load = some swarm := by
  obtain ⟨body, hbody, hbare⟩ := h.body
  let found : Str → Str → Unit → List (Item ρ) := fun r c _ => (s.table r c).map Prod.snd
  have hload : body.mapLists (fun r c _ => found r c ()) =
      swarm.mapLists (fun r c _ => found r c ()) := by
    rw [← Swarm.mapLists_bare, ← Swarm.mapLists_bare, hbare]
  have hself : swarm.mapLists (fun r c _ => found r c ()) = swarm := by
    cases hrun : swarm.run with
    | none =>
      obtain ⟨updatedAt, run, rest⟩ := swarm
      cases hrun
      rfl
    | some run =>
      have hsame : run.mapLists (fun c _ => found run.id c ()) = run := by
        apply Run.mapLists_self
        intro c v hv
        obtain ⟨start, hrows⟩ := h.table run hrun c v hv
        simp only [found, hrows, map_snd_numbered]
      obtain ⟨updatedAt, run', rest⟩ := swarm
      cases hrun
      simp only [Swarm.mapLists, Option.map_some, hsame]
  rw [Store.load, hbody, Option.map_some]
  exact congrArg some (hload.trans hself)

theorem foldl_write {run c : Str} {values : List (Item ρ)} {entries : List (Str × List (Item ρ))}
    (hone : ∀ e ∈ entries, e.1 = c → e.2 = values) {t : Table ρ}
    (h : (∃ e ∈ entries, e.1 = c) ∨ t run c = numbered 0 values) :
    entries.foldl (Table.write run) t run c = numbered 0 values := by
  induction entries generalizing t with
  | nil =>
    rcases h with ⟨e, he, -⟩ | h
    · cases he
    · exact h
  | cons e rest ih =>
    rw [List.foldl_cons]
    apply ih (fun e' he' => hone e' (List.mem_cons_of_mem _ he'))
    by_cases hc : e.1 = c
    · right
      rw [Table.write, if_pos ⟨rfl, hc.symm⟩, hone e List.mem_cons_self hc, writeRows_eq]
    · rcases h with ⟨e', he', hc'⟩ | h
      · rcases List.mem_cons.mp he' with rfl | he'
        · exact absurd hc' hc
        · exact .inl ⟨e', he', hc'⟩
      · right
        rw [Table.write, if_neg (fun hboth => hc hboth.2.symm), h]

theorem Store.represents_save (swarm : Swarm ρ (List (Item ρ))) (history : List (Str × η))
    (s : Store ρ η) : (s.save swarm history).Represents swarm := by
  constructor
  · refine ⟨_, rfl, ?_⟩
    cases hrun : swarm.run with
    | none => simp only [Swarm.bare, Swarm.mapLists, hrun, Option.map_none]
    | some run =>
      simp only [Swarm.bare, Swarm.mapLists, hrun, Option.map_some, Run.mapLists_mapLists]
  · intro run hrun c values hmem
    have hrun' : swarm.run = some run := hrun
    refine ⟨0, ?_⟩
    simp only [Store.save, hrun', if_true]
    apply foldl_write
    · rintro ⟨c', v⟩ he rfl
      exact storedLists_unique he hmem
    · exact .inl ⟨_, hmem, rfl⟩

end Kept

section Heard

variable {s s' : Store ρ η} {swarm : Swarm ρ (List (Item ρ))} {e : Event ρ}

theorem agentStates_get_mapLists (g : Str → β → γ) (r : Run ρ β) (key : Str) :
    (r.mapLists g).agentStates.get key =
      (r.agentStates.get key).map (fun a => a.mapLists (fun f => g (collection (.agent key) f))) := by
  rw [Run.mapLists]
  simp only
  induction r.agentStates with
  | nil => rfl
  | cons p rest ih =>
    rw [List.map_cons, Dict.get, Dict.get]
    split_ifs with hk
    · rw [Option.map_some, hk]
    · exact ih

theorem same_agent {body : Swarm ρ ℕ} (hbare : body.bare = swarm.bare) :
    (body.run.bind (fun run => (run.agentStates.get e.agent).map (run, ·)) = none ∧
      swarm.heard e = swarm) ∨
    ∃ run state full fullState, body.run = some run ∧ swarm.run = some full ∧
      run.agentStates.get e.agent = some state ∧ full.agentStates.get e.agent = some fullState ∧
      run.mapLists (fun _ _ => ()) = full.mapLists (fun _ _ => ()) ∧
      state.mapLists (fun _ _ => ()) = fullState.mapLists (fun _ _ => ()) := by
  have h := congrArg Swarm.run hbare
  simp only [Swarm.bare, Swarm.mapLists] at h
  cases hrun : body.run with
  | none =>
    rw [hrun, Option.map_none, eq_comm, Option.map_eq_none_iff] at h
    exact .inl ⟨rfl, by simp only [Swarm.heard, h, Option.bind_none]⟩
  | some run =>
    rw [hrun, Option.map_some, eq_comm, Option.map_eq_some_iff] at h
    obtain ⟨full, hfull, heq⟩ := h
    have hget := agentStates_get_mapLists (fun _ _ => ()) run e.agent
    rw [← heq, agentStates_get_mapLists] at hget
    cases hstate : run.agentStates.get e.agent with
    | none =>
      rw [hstate, Option.map_none, Option.map_eq_none_iff] at hget
      refine .inl ⟨by simp only [Option.bind_some, hstate, Option.map_none], ?_⟩
      simp only [Swarm.heard, hfull, Option.bind_some, hget, Option.map_none]
    | some state =>
      rw [hstate, Option.map_some, Option.map_eq_some_iff] at hget
      obtain ⟨fullState, hfullState, hsame⟩ := hget
      exact .inr ⟨run, state, full, fullState, rfl, hfull, hstate, hfullState, heq.symm, hsame.symm⟩

theorem updateAgent_bare (r : Run ρ β) (key : Str) (traces : Agent ρ β → β) :
    (r.updateAgent key (fun a => a.active e (traces a))).mapLists (fun _ _ => ()) =
      (r.mapLists (fun _ _ => ())).updateAgent key (Agent.active e ()) := by
  simp only [Run.updateAgent, Run.mapLists, List.map_map, Run.mk.injEq, true_and, and_true]
  apply List.map_congr_left
  intro p _
  simp only [Function.comp_apply]
  split_ifs with hk
  · simp only [Agent.mapLists, Agent.active, Prod.mk.injEq, Agent.mk.injEq, true_and, and_true]
    funext f
    split_ifs <;> rfl
  · rfl

theorem Run.heard_bare (r : Run ρ (List (Item ρ))) (attemptId : Option Str) :
    (r.heard e attemptId).mapLists (fun _ _ => ()) =
      (r.mapLists (fun _ _ => ())).updateAgent e.agent (Agent.active e ()) := by
  rw [← updateAgent_bare r e.agent (fun a => a.tracesAfter e)]
  simp only [Run.heard, Run.mapLists, Run.mk.injEq, true_and, and_true]
  funext f
  split_ifs with hf
  · rw [Option.map_map]
    rfl
  · rfl

theorem Run.heard_held {full : Run ρ (List (Item ρ))} {fullState : Agent ρ (List (Item ρ))}
    (ht : s.table.Holds full) (hget : full.agentStates.get e.agent = some fullState)
    (hclean : fullState.lists .traces = none → s.tracesOf e full.id = []) :
    (s.itemsAfter e full.id fullState.attemptId).Holds (full.heard e fullState.attemptId) := by
  have hin : (e.agent, fullState) ∈ full.agentStates := Dict.mem_of_get hget
  intro c values hmem
  change ∃ start, s.itemsAfter e full.id fullState.attemptId full.id c = numbered start values
  rcases mem_storedLists.mp hmem with ⟨f, rfl, hf⟩ | ⟨p, hp, f, rfl, hf⟩
  · have hother : collection .run f ≠ collection (.agent e.agent) .traces :=
      fun h => by simpa using (collection_inj.mp h).1
    simp only [Store.itemsAfter, Run.heard] at hf ⊢
    rw [if_neg (fun h => hother h.2)]
    split_ifs at hf with hattempts
    · subst hattempts
      obtain ⟨values, hvalues, rfl⟩ := Option.map_eq_some_iff.mp hf
      obtain ⟨start, hrows⟩ := ht _ _ (mem_storedLists.mpr (.inl ⟨_, rfl, hvalues⟩))
      refine ⟨start, ?_⟩
      rw [if_pos ⟨trivial, rfl⟩, hrows, map_numbered]
    · rw [if_neg (fun h => hattempts (collection_inj.mp h.2).2)]
      exact ht _ _ (mem_storedLists.mpr (.inl ⟨f, rfl, hf⟩))
  · obtain ⟨q, hq, rfl⟩ := List.mem_map.mp hp
    have hrun : collection (.agent q.1) f ≠ collection .run .attempts :=
      fun h => by simpa using (collection_inj.mp h).1
    simp only [Store.itemsAfter]
    by_cases hkey : q.1 = e.agent
    · obtain rfl : q = (e.agent, fullState) := full.eq_of_key hq hin hkey
      simp only [if_true, Agent.active] at hf
      split_ifs at hf with htraces
      -- the traces of the agent itself
      · subst htraces
        cases hf
        rw [if_pos ⟨trivial, rfl⟩]
        obtain ⟨start, hrows⟩ : ∃ start, s.tracesOf e full.id =
            numbered start ((fullState.lists .traces).getD []) := by
          cases hlist : fullState.lists .traces with
          | none => exact ⟨0, hclean hlist⟩
          | some old => exact ht _ _ (mem_storedLists.mpr (.inr ⟨_, hin, _, rfl, hlist⟩))
        rw [hrows]
        exact kept_numbered e.item
      · rw [if_neg (fun h => htraces (collection_inj.mp h.2).2), if_neg (fun h => hrun h.2)]
        exact ht _ _ (mem_storedLists.mpr (.inr ⟨_, hin, f, rfl, hf⟩))
    · simp only [if_neg hkey] at hf
      have hother : collection (.agent q.1) f ≠ collection (.agent e.agent) .traces :=
        fun h => hkey (Owner.agent.inj (collection_inj.mp h).1)
      rw [if_neg (fun h => hother h.2), if_neg (fun h => hrun h.2)]
      exact ht _ _ (mem_storedLists.mpr (.inr ⟨q, hq, f, rfl, hf⟩))

theorem Store.Represents.activity (h : s.Represents swarm)
    (hclean : s.NoLeftovers (.activity e : Call ρ η)) :
    (s.step (.activity e)).Represents (swarm.heard e) := by
  obtain ⟨body, hbody, hbare⟩ := h.body
  rcases same_agent (e := e) hbare with ⟨hnone, hsame⟩ |
    ⟨run, state, full, fullState, hrun, hfull, hstate, hfullState, hrunBare, hstateBare⟩
  -- the call raises, and nothing is changed
  · have hact : s.activity e = none := by
      simp only [Store.activity, hbody, Option.bind_some]
      cases hrun : body.run with
      | none => rfl
      | some run =>
        rw [hrun, Option.bind_some, Option.map_eq_none_iff] at hnone
        simp only [Option.bind_some, hnone, Option.map_none]
    rw [hsame]
    simpa only [Store.step, hact, Option.getD_none] using h
  · have hid : run.id = full.id := congrArg Run.id hrunBare
    have hattempt : state.attemptId = fullState.attemptId := congrArg Agent.attemptId hstateBare
    have hact : s.activity e = some { s with
        body := some { body with
          updatedAt := some e.timestamp
          run := some (run.updateAgent e.agent
            (Agent.active e (min 100 (nextPosition (s.tracesOf e run.id) + 1)))) }
        table := s.itemsAfter e run.id state.attemptId } := by
      simp only [Store.activity, hbody, hrun, hstate, Option.bind_some, Option.map_some]
    have hheard : swarm.heard e = { swarm with
        updatedAt := some e.timestamp
        run := some (full.heard e fullState.attemptId) } := by
      simp only [Swarm.heard, hfull, Option.bind_some, hfullState, Option.map_some]
    rw [Store.step, hact, Option.getD_some, hheard]
    constructor
    · refine ⟨_, rfl, ?_⟩
      have hrest : body.rest = swarm.rest := congrArg Swarm.rest hbare
      simp only [Swarm.bare, Swarm.mapLists, Option.map_some, Swarm.mk.injEq, true_and,
        Option.some.injEq]
      refine ⟨?_, hrest⟩
      have hleft := updateAgent_bare (e := e) run e.agent
        (fun _ => min 100 (nextPosition (s.tracesOf e run.id) + 1))
      rw [hleft, hrunBare, full.heard_bare]
    · intro run' hrun'
      obtain rfl := Option.some.inj hrun'
      -- the row lacks the traces exactly if the swarm does
      have hleft : fullState.lists .traces = none → s.tracesOf e full.id = [] := by
        intro hnone
        have hlist := congrFun (congrArg Agent.lists hstateBare) .traces
        simp only [Agent.mapLists, hnone, Option.map_none, Option.map_eq_none_iff] at hlist
        rw [← hid]
        exact hclean body hbody run hrun state hstate hlist
      rw [hid, hattempt]
      exact Run.heard_held (h.table full hfull) hfullState hleft

end Heard

section Faithful

theorem Store.activity_history {s : Store ρ η} (e : Event ρ) :
    (s.step (.activity e)).history = s.history := by
  rw [Store.step]
  cases hact : s.activity e with
  | none => rfl
  | some s' =>
    obtain ⟨body, -, hact⟩ := Option.bind_eq_some_iff.mp hact
    obtain ⟨run, -, hact⟩ := Option.bind_eq_some_iff.mp hact
    obtain ⟨state, -, rfl⟩ := Option.map_eq_some_iff.mp hact
    rfl

theorem get_append (d e : Dict Str η) (key : Str) :
    Dict.get (d ++ e) key = (d.get key).or (e.get key) := by
  induction d with
  | nil => rfl
  | cons p rest ih =>
    rw [List.cons_append, Dict.get, Dict.get]
    split_ifs
    · rfl
    · exact ih

theorem get_archive (h : Dict Str η) (runs : List (Str × η)) (key : Str) :
    (runs.foldl (fun h run => h.setDefault run.1 run.2) h).get key =
      Dict.get (h ++ runs) key := by
  induction runs generalizing h with
  | nil => rw [List.append_nil]; rfl
  | cons run rest ih =>
    have hsame : ∀ k, (h.setDefault run.1 run.2).get k = Dict.get (h ++ [run]) k := by
      intro k
      rw [get_append, Dict.setDefault]
      cases hget : h.get run.1 with
      | some v =>
        rw [Option.isSome_some, if_pos rfl]
        cases hk : h.get k with
        | some w => rfl
        | none =>
          have hne : run.1 ≠ k := by
            rintro rfl
            rw [hget] at hk
            cases hk
          simp [Dict.get, hne]
      | none =>
        rw [Option.isSome_none, if_neg Bool.false_ne_true, Dict.get_set]
        split_ifs with hk
        · subst hk
          simp [hget, Dict.get]
        · simp [Dict.get, hk]
    rw [List.foldl_cons, ih, get_append, hsame, ← get_append, List.append_assoc]
    rfl

/-- Whatever was saved and whatever happened since: the stored swarm is the last saved one with
the events since, and an archived run is its first version. -/
theorem storage_faithful (calls : List (Call ρ η)) (hclean : Clean Store.empty calls) :
    (calls.foldl Store.step Store.empty).load = calls.foldl Call.intended none ∧
    ∀ key, (calls.foldl Store.step Store.empty).history.get key =
      Dict.get (calls.flatMap Call.archived) key := by
  have hswarm : ∀ (calls : List (Call ρ η)) (s : Store ρ η)
      (swarm : Option (Swarm ρ (List (Item ρ)))), Clean s calls →
      (s.body = none ∧ swarm = none ∨ ∃ w, swarm = some w ∧ s.Represents w) →
      (calls.foldl Store.step s).load = calls.foldl Call.intended swarm := by
    intro calls
    induction calls with
    | nil =>
      rintro s swarm - (⟨hbody, rfl⟩ | ⟨w, rfl, hw⟩)
      · rw [List.foldl_nil, List.foldl_nil, Store.load, hbody, Option.map_none]
      · exact hw.load
    | cons call rest ih =>
      intro s swarm hclean hs
      apply ih _ _ hclean.2
      cases call with
      | save swarm' history => exact .inr ⟨swarm', rfl, s.represents_save swarm' history⟩
      | activity e =>
        rcases hs with ⟨hbody, rfl⟩ | ⟨w, rfl, hw⟩
        · have hact : s.activity e = none := by rw [Store.activity, hbody, Option.bind_none]
          exact .inl ⟨by rw [Store.step, hact, Option.getD_none, hbody], rfl⟩
        · exact .inr ⟨_, rfl, hw.activity hclean.1⟩
  have hhistory : ∀ (calls : List (Call ρ η)) (s : Store ρ η) (key : Str),
      (calls.foldl Store.step s).history.get key =
        Dict.get (s.history ++ calls.flatMap Call.archived) key := by
    intro calls
    induction calls with
    | nil => intro s key; rw [List.flatMap_nil, List.append_nil]; rfl
    | cons call rest ih =>
      intro s key
      rw [List.foldl_cons, ih, List.flatMap_cons, ← List.append_assoc, get_append,
        get_append]
      congr 1
      cases call with
      | save swarm' history => exact get_archive s.history history key
      | activity e => rw [Store.activity_history, Call.archived, List.append_nil]
  exact ⟨hswarm calls _ _ hclean (.inl ⟨rfl, rfl⟩), fun key => hhistory calls _ key⟩

end Faithful

section Samples

def quiet : Swarm Unit (List (Item Unit)) where
  updatedAt := some (text "t1")
  run := some
    { id := text "r"
      agentStates := [(text "a",
        { activity := none, lastActivityAt := none, attemptId := none
          lists := fun field => if field = .traces then some [] else none, rest := () })]
      distinct := List.nodup_singleton _
      lists := fun _ => none, rest := () }
  rest := ()

def hello : Event Unit where
  agent := text "a"
  said := text "Reading."
  item := { id := none, lastActivityAt := none, rest := () }
  timestamp := text "t2"

/-- An event also says when the swarm was updated. -/
theorem heard_updates :
    (([.save quiet [], .activity hello].foldl Store.step
      (Store.empty : Store Unit Unit)).load.bind Swarm.updatedAt) = some (text "t2") ∧
    quiet.updatedAt = some (text "t1") ∧ text "t1" ≠ text "t2" :=
  ⟨rfl, rfl, by decide⟩

theorem storage_faithful_hello :
    Clean (Store.empty : Store Unit Unit) [.save quiet [], .activity hello] ∧
    (([.save quiet [], .activity hello].foldl Store.step (Store.empty : Store Unit Unit)).load =
      [.save quiet [], .activity hello].foldl (@Call.intended Unit Unit) none ∧
    ∀ key, ([.save quiet [], .activity hello].foldl Store.step
        (Store.empty : Store Unit Unit)).history.get key =
      Dict.get ([Call.save quiet [], .activity hello].flatMap Call.archived) key) := by
  have hclean : Clean (Store.empty : Store Unit Unit) [.save quiet [], .activity hello] := by
    refine ⟨trivial, ?_, trivial⟩
    rintro _ ⟨⟩ _ ⟨⟩ _ ⟨⟩ ⟨⟩
  exact ⟨hclean, storage_faithful _ hclean⟩

end Samples

end Raticode.Swarms
