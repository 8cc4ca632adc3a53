import Mathlib.Logic.Relation
import Mathlib.Order.WellFounded
import Mathlib.Data.Fintype.Basic
import Mathlib.Data.Finite.Defs
import Mathlib.Order.Preorder.Finite
import Mathlib.Algebra.BigOperators.Group.List.Basic
import Mathlib.Algebra.GroupWithZero.Nat

/-! A depth-first search for cycles and missing vertices, with one stack that holds the vertices to
enter and, below the successors of a vertex, a mark to leave it. -/
namespace DepthFirst

variable {α : Type*} [DecidableEq α]

/-- The stack, whose marks are `true`, and the vertices on the way and those that are left. -/
structure Search (α : Type*) where
  pending : List (α × Bool)
  visiting : List α := []
  visited : List α := []

/-- One turn of the search: another one follows, or the verdict, which is `true` where a vertex is
missing or closes a cycle. -/
def turn (next : α → Option (List α)) (s : Search α) : Search α ⊕ Bool :=
  match s.pending with
  | [] => .inr false
  | (x, true) :: rest => .inl ⟨rest, s.visiting.filter (· ≠ x), x :: s.visited⟩
  | (x, false) :: rest =>
    if s.visited.contains x then .inl { s with pending := rest }
    else match next x with
      | none => .inr true
      | some ys =>
        if s.visiting.contains x then .inr true
        else .inl ⟨ys.reverse.map (fun y => (y, false)) ++ (x, true) :: rest, x :: s.visiting, s.visited⟩

/-- The search, for a number of turns; `none` where they do not suffice. -/
def search (next : α → Option (List α)) : ℕ → Search α → Option Bool
  | 0, _ => none
  | n + 1, s => match turn next s with
    | .inl s' => search next n s'
    | .inr verdict => some verdict

inductive Sound (next : α → Option (List α)) : α → Prop where
  | intro {x : α} {ys : List α} (hx : next x = some ys) (h : ∀ y ∈ ys, Sound next y) : Sound next x

def Edge (next : α → Option (List α)) (x y : α) : Prop := ∃ ys, next x = some ys ∧ y ∈ ys

variable {next : α → Option (List α)} {x y : α}

/-! ### Sound vertices -/

omit [DecidableEq α] in
theorem Sound.there (h : Sound next x) : ∃ ys, next x = some ys := by
  cases h with
  | intro hx _ => exact ⟨_, hx⟩

omit [DecidableEq α] in
theorem Sound.edge (h : Sound next x) (he : Edge next x y) : Sound next y := by
  obtain ⟨ys, hx, hy⟩ := he
  cases h with
  | intro hx' h =>
    have hys := Option.some.inj (hx.symm.trans hx')
    exact h y (hys ▸ hy)

omit [DecidableEq α] in
theorem Sound.acyclic (h : Sound next x) : ¬ Relation.TransGen (Edge next) x x := by
  -- The induction is on the soundness: a cycle through a vertex passes through a successor of it.
  induction h with
  | intro hx _ ih =>
    intro hcycle
    obtain ⟨y, ⟨ys, hys, hy⟩, hback⟩ := Relation.TransGen.head'_iff.mp hcycle
    have heq := Option.some.inj (hx.symm.trans hys)
    have hround : Relation.TransGen (Edge next) y y :=
      Relation.TransGen.tail' hback ⟨ys, hys, hy⟩
    exact ih y (heq ▸ hy) hround

omit [DecidableEq α] in
theorem sound_of_acyclic {keys : List α} (hkeys : ∀ x, (next x).isSome → x ∈ keys)
    (hthere : ∀ x y, Edge next x y → (next y).isSome)
    (hacyclic : ∀ x, ¬ Relation.TransGen (Edge next) x x) (hx : (next x).isSome) :
    Sound next x := by
  let below : {x // x ∈ keys} → {x // x ∈ keys} → Prop :=
    fun a b => Relation.TransGen (Edge next) b.1 a.1
  have hfinite : Finite {x // x ∈ keys} := keys.finite_toSet
  have htrans : IsTrans {x // x ∈ keys} below := ⟨fun a b c hab hbc => hbc.trans hab⟩
  have hirrefl : Std.Irrefl below := ⟨fun a => hacyclic a.1⟩
  have hwf : WellFounded below := Finite.wellFounded_of_trans_of_irrefl below
  have hall : ∀ a : {x // x ∈ keys}, (next a.1).isSome → Sound next a.1 := by
    intro a
    induction a using hwf.induction with
    | _ a ih =>
      intro ha
      obtain ⟨ys, hys⟩ := Option.isSome_iff_exists.mp ha
      refine .intro hys fun y hy => ?_
      have hedge : Edge next a.1 y := ⟨ys, hys, hy⟩
      have hsome := hthere a.1 y hedge
      exact ih ⟨y, hkeys y hsome⟩ (Relation.TransGen.single hedge) hsome
  exact hall ⟨x, hkeys x hx⟩ hx

theorem sound_update {ys : List α} (hold : ∀ x, (next x).isSome → Sound next x)
    (hy : Sound (fun z => if z = y then some ys else next z) y) (hx : (next x).isSome ∨ x = y) :
    Sound (fun z => if z = y then some ys else next z) x := by
  rcases hx with hx | rfl
  · have hsound := hold x hx
    clear hx
    -- The induction is on the soundness before: a way either avoids the vertex or comes to it.
    induction hsound with
    | @intro x zs hzs _ ih =>
      by_cases hxy : x = y
      · exact hxy ▸ hy
      · have hnext : (fun z => if z = y then some ys else next z) x = some zs := by
          simp only [hxy, if_false, hzs]
        exact .intro hnext ih
  · exact hy

/-! ### What a search finds -/

/-- What holds between the turns of a search: the vertices that are left are sound, and the
successors of a vertex on the way are left or still above its mark. -/
structure Sinks (next : α → Option (List α)) (start : α) (s : Search α) : Prop where
  visited : ∀ x ∈ s.visited, Sound next x
  marks : ∀ above x below, s.pending = above ++ (x, true) :: below →
    ∃ ys, next x = some ys ∧ ∀ y ∈ ys, y ∈ s.visited ∨ ∃ b, (y, b) ∈ above
  start : start ∈ s.visited ∨ ∃ b, (start, b) ∈ s.pending

/-- The open nodes of the stack form a path, each reaching everything above it, and a node being
visited is open. -/
structure Climbs (next : α → Option (List α)) (s : Search α) : Prop where
  pending : ∀ x b, (x, b) ∈ s.pending → Sound next x
  below : ∀ above x rest, s.pending = above ++ (x, true) :: rest → ∀ y b, (y, b) ∈ above →
    Relation.TransGen (Edge next) x y
  visiting : ∀ x ∈ s.visiting, (x, true) ∈ s.pending

omit [DecidableEq α] in
theorem split_append {new rest above below : List (α × Bool)} {m : α}
    (hnew : ∀ x, (x, true) ∉ new) (h : new ++ rest = above ++ (m, true) :: below) :
    ∃ above', above = new ++ above' ∧ rest = above' ++ (m, true) :: below := by
  rcases List.append_eq_append_iff.mp h with ⟨above', ha, hr⟩ | ⟨c, hc, hr⟩
  · exact ⟨above', ha, hr⟩
  · cases c with
    | nil => exact ⟨[], by simpa using hc.symm, by simpa using hr.symm⟩
    | cons p c =>
      have hp : p = (m, true) := by
        have hhead := congrArg List.head? hr
        simpa using hhead.symm
      have hmem : (m, true) ∈ new := by
        rw [hc, hp]
        exact List.mem_append_right _ List.mem_cons_self
      exact absurd hmem (hnew m)

theorem turn_cases {s s' : Search α} (h : turn next s = .inl s') :
    (∃ x rest, s.pending = (x, true) :: rest ∧
      s' = ⟨rest, s.visiting.filter (· ≠ x), x :: s.visited⟩) ∨
    (∃ x rest, s.pending = (x, false) :: rest ∧ x ∈ s.visited ∧ s' = { s with pending := rest }) ∨
    (∃ x rest ys, s.pending = (x, false) :: rest ∧ x ∉ s.visited ∧ x ∉ s.visiting ∧
      next x = some ys ∧ s' = ⟨ys.reverse.map (fun y => (y, false)) ++ (x, true) :: rest,
        x :: s.visiting, s.visited⟩) := by
  unfold turn at h
  split at h
  · contradiction
  · rename_i x rest hp
    exact .inl ⟨x, rest, hp, (Sum.inl.inj h).symm⟩
  · rename_i x rest hp
    right
    by_cases hleft : s.visited.contains x = true
    · rw [if_pos hleft] at h
      exact .inl ⟨x, rest, hp, by simpa using hleft, (Sum.inl.inj h).symm⟩
    · rw [if_neg hleft] at h
      cases hys : next x with
      | none =>
        rw [hys] at h
        contradiction
      | some ys =>
        simp only [hys] at h
        split_ifs at h with hway
        exact .inr ⟨x, rest, ys, hp, by simpa using hleft, by simpa using hway, hys,
          (Sum.inl.inj h).symm⟩

theorem turn_verdict {s : Search α} {verdict : Bool} (h : turn next s = .inr verdict) :
    (s.pending = [] ∧ verdict = false) ∨
    (∃ x rest, s.pending = (x, false) :: rest ∧ (next x = none ∨ x ∈ s.visiting) ∧
      verdict = true) := by
  unfold turn at h
  split at h
  · rename_i hp
    exact .inl ⟨hp, (Sum.inr.inj h).symm⟩
  · contradiction
  · rename_i x rest hp
    right
    by_cases hleft : s.visited.contains x = true
    · rw [if_pos hleft] at h
      contradiction
    · rw [if_neg hleft] at h
      cases hys : next x with
      | none =>
        rw [hys] at h
        exact ⟨x, rest, hp, .inl hys, (Sum.inr.inj h).symm⟩
      | some ys =>
        simp only [hys] at h
        split_ifs at h with hway
        exact ⟨x, rest, hp, .inr (by simpa using hway), (Sum.inr.inj h).symm⟩

theorem sinks_turn {start : α} {s s' : Search α} (h : Sinks next start s)
    (hturn : turn next s = .inl s') : Sinks next start s' := by
  rcases turn_cases hturn with ⟨x, rest, hp, rfl⟩ | ⟨x, rest, hp, hx, rfl⟩ |
    ⟨x, rest, ys, hp, -, -, hys, rfl⟩
  · -- The vertex is left: all its successors are, since nothing is above its mark.
    have hsound : Sound next x := by
      obtain ⟨ys, hys, hall⟩ := h.marks [] x rest hp
      exact .intro hys fun y hy => h.visited y ((hall y hy).resolve_right (by simp))
    have hkept {y : α} {above : List (α × Bool)}
        (hy : y ∈ s.visited ∨ ∃ b, (y, b) ∈ (x, true) :: above) :
        y ∈ x :: s.visited ∨ ∃ b, (y, b) ∈ above := by
      rcases hy with hv | ⟨b, hb⟩
      · exact .inl (List.mem_cons_of_mem _ hv)
      · rcases List.mem_cons.mp hb with heq | hb
        · cases heq
          exact .inl List.mem_cons_self
        · exact .inr ⟨b, hb⟩
    constructor
    · intro v hv
      rcases List.mem_cons.mp hv with rfl | hv
      · exact hsound
      · exact h.visited v hv
    · intro above m below hsplit
      have hsplit' : s.pending = ((x, true) :: above) ++ (m, true) :: below := by
        rw [hp, show rest = above ++ (m, true) :: below from hsplit]
        rfl
      obtain ⟨ys, hys, hall⟩ := h.marks _ m below hsplit'
      exact ⟨ys, hys, fun y hy => hkept (hall y hy)⟩
    · exact hkept (hp ▸ h.start)
  · -- The vertex has been left before.
    have hkept {y : α} {above : List (α × Bool)}
        (hy : y ∈ s.visited ∨ ∃ b, (y, b) ∈ (x, false) :: above) :
        y ∈ s.visited ∨ ∃ b, (y, b) ∈ above := by
      rcases hy with hv | ⟨b, hb⟩
      · exact .inl hv
      · rcases List.mem_cons.mp hb with heq | hb
        · cases heq
          exact .inl hx
        · exact .inr ⟨b, hb⟩
    constructor
    · exact h.visited
    · intro above m below hsplit
      have hsplit' : s.pending = ((x, false) :: above) ++ (m, true) :: below := by
        rw [hp, show rest = above ++ (m, true) :: below from hsplit]
        rfl
      obtain ⟨ys, hys, hall⟩ := h.marks _ m below hsplit'
      exact ⟨ys, hys, fun y hy => hkept (hall y hy)⟩
    · exact hkept (hp ▸ h.start)
  · -- The vertex is entered: its successors are above its mark, and its mark where it was.
    have hnew : ∀ z, (z, true) ∉ ys.reverse.map (fun y => (y, false)) := by simp
    have hkept {y : α} {above : List (α × Bool)}
        (hy : y ∈ s.visited ∨ ∃ b, (y, b) ∈ (x, false) :: above) :
        y ∈ s.visited ∨
          ∃ b, (y, b) ∈ ys.reverse.map (fun y => (y, false)) ++ (x, true) :: above := by
      rcases hy with hv | ⟨b, hb⟩
      · exact .inl hv
      · right
        rcases List.mem_cons.mp hb with heq | hb
        · cases heq
          exact ⟨true, List.mem_append_right _ List.mem_cons_self⟩
        · exact ⟨b, List.mem_append_right _ (List.mem_cons_of_mem _ hb)⟩
    constructor
    · exact h.visited
    · intro above m below hsplit
      obtain ⟨above', rfl, hrest⟩ := split_append hnew hsplit
      cases above' with
      | nil =>
        simp only [List.nil_append, List.cons.injEq, Prod.mk.injEq, and_true] at hrest
        obtain ⟨rfl, rfl⟩ := hrest
        refine ⟨ys, hys, fun y hy => .inr ⟨false, ?_⟩⟩
        rw [List.append_nil, List.mem_map]
        exact ⟨y, List.mem_reverse.mpr hy, rfl⟩
      | cons p above' =>
        rw [List.cons_append, List.cons.injEq] at hrest
        obtain ⟨rfl, hrest⟩ := hrest
        have hsplit' : s.pending = ((x, false) :: above') ++ (m, true) :: below := by
          rw [hp, hrest]
          rfl
        obtain ⟨zs, hzs, hall⟩ := h.marks _ m below hsplit'
        exact ⟨zs, hzs, fun y hy => hkept (hall y hy)⟩
    · exact hkept (hp ▸ h.start)

theorem climbs_turn {s s' : Search α} (h : Climbs next s) (hturn : turn next s = .inl s') :
    Climbs next s' := by
  -- A mark in the rest of the stack was a mark before, with one more entry above it.
  have hrest {x : α} {b : Bool} {rest : List (α × Bool)} (hp : s.pending = (x, b) :: rest) :
      ∀ above m below, rest = above ++ (m, true) :: below → ∀ y c, (y, c) ∈ (x, b) :: above →
        Relation.TransGen (Edge next) m y := by
    intro above m below hsplit
    have hsplit' : s.pending = ((x, b) :: above) ++ (m, true) :: below := by
      rw [hp, hsplit]
      rfl
    exact h.below _ m below hsplit'
  rcases turn_cases hturn with ⟨x, rest, hp, rfl⟩ | ⟨x, rest, hp, -, rfl⟩ |
    ⟨x, rest, ys, hp, -, -, hys, rfl⟩
  · constructor
    · exact fun y b hy => h.pending y b (hp ▸ List.mem_cons_of_mem _ hy)
    · exact fun above m below hsplit y c hy =>
        hrest hp above m below hsplit y c (List.mem_cons_of_mem _ hy)
    · intro v hv
      obtain ⟨hv, hne⟩ := List.mem_filter.mp hv
      have hmem : (v, true) ∈ (x, true) :: rest := hp ▸ h.visiting v hv
      have hvx : v ≠ x := by simpa using hne
      simpa [hvx] using hmem
  · constructor
    · exact fun y b hy => h.pending y b (hp ▸ List.mem_cons_of_mem _ hy)
    · exact fun above m below hsplit y c hy =>
        hrest hp above m below hsplit y c (List.mem_cons_of_mem _ hy)
    · intro v hv
      have hmem : (v, true) ∈ (x, false) :: rest := hp ▸ h.visiting v hv
      simpa using hmem
  · have hsound : Sound next x := h.pending x false (hp ▸ List.mem_cons_self)
    have hnew : ∀ z, (z, true) ∉ ys.reverse.map (fun y => (y, false)) := by simp
    have hsucc {y : α} {b : Bool} (hy : (y, b) ∈ ys.reverse.map (fun y => (y, false))) :
        Edge next x y := by
      obtain ⟨z, hz, heq⟩ := List.mem_map.mp hy
      cases heq
      exact ⟨ys, hys, List.mem_reverse.mp hz⟩
    constructor
    · intro y b hy
      rcases List.mem_append.mp hy with hy | hy
      · exact hsound.edge (hsucc hy)
      · rcases List.mem_cons.mp hy with heq | hy
        · cases heq
          exact hsound
        · exact h.pending y b (hp ▸ List.mem_cons_of_mem _ hy)
    · intro above m below hsplit y c hy
      obtain ⟨above', rfl, hafter⟩ := split_append hnew hsplit
      cases above' with
      | nil =>
        rw [List.nil_append, List.cons.injEq, Prod.mk.injEq] at hafter
        obtain ⟨⟨rfl, -⟩, -⟩ := hafter
        rw [List.append_nil] at hy
        exact Relation.TransGen.single (hsucc hy)
      | cons p above' =>
        rw [List.cons_append, List.cons.injEq] at hafter
        obtain ⟨rfl, hbelow⟩ := hafter
        have hx : Relation.TransGen (Edge next) m x :=
          hrest hp above' m below hbelow x false List.mem_cons_self
        rcases List.mem_append.mp hy with hy | hy
        · exact hx.tail (hsucc hy)
        · rcases List.mem_cons.mp hy with heq | hy
          · cases heq
            exact hx
          · exact hrest hp above' m below hbelow y c (List.mem_cons_of_mem _ hy)
    · intro v hv
      rcases List.mem_cons.mp hv with rfl | hv
      · exact List.mem_append_right _ List.mem_cons_self
      · have hmem : (v, true) ∈ (x, false) :: rest := hp ▸ h.visiting v hv
        have hmem' : (v, true) ∈ rest := by simpa using hmem
        exact List.mem_append_right _ (List.mem_cons_of_mem _ hmem')

/-- A search that ends without a cycle has found everything below its start well founded. -/
theorem sound_of_search {start : α} {n : ℕ} {s : Search α} (h : Sinks next start s)
    (hrun : search next n s = some false) : Sound next start := by
  induction n generalizing s with
  | zero => contradiction
  | succ n ih =>
    rw [search] at hrun
    cases hturn : turn next s with
    | inl s' =>
      rw [hturn] at hrun
      exact ih (sinks_turn h hturn) hrun
    | inr verdict =>
      rw [hturn] at hrun
      obtain rfl : verdict = false := Option.some.inj hrun
      rcases turn_verdict hturn with ⟨hp, -⟩ | ⟨x, rest, -, -, hv⟩
      · have hstart := h.start
        simp only [hp, List.not_mem_nil, exists_false, or_false] at hstart
        exact h.visited start hstart
      · contradiction

/-- From well founded nodes it never reports one. -/
theorem search_of_sound {n : ℕ} {s : Search α} (h : Climbs next s) :
    search next n s ≠ some true := by
  induction n generalizing s with
  | zero => nofun
  | succ n ih =>
    rw [search]
    cases hturn : turn next s with
    | inl s' => exact ih (climbs_turn h hturn)
    | inr verdict =>
      rcases turn_verdict hturn with ⟨-, rfl⟩ | ⟨x, rest, hp, hfound, -⟩
      · nofun
      · have hsound : Sound next x := h.pending x false (hp ▸ List.mem_cons_self)
        rcases hfound with hnone | hway
        · obtain ⟨ys, hys⟩ := hsound.there
          rw [hys] at hnone
          contradiction
        · -- A vertex on the way has its mark in the stack, so that the top lies below itself.
          have hmem : (x, true) ∈ (x, false) :: rest := hp ▸ h.visiting x hway
          have hmem' : (x, true) ∈ rest := by simpa using hmem
          obtain ⟨above, below, hsplit⟩ := List.append_of_mem hmem'
          have hcycle := h.below ((x, false) :: above) x below (by rw [hp, hsplit]; rfl) x false
            List.mem_cons_self
          exact absurd hcycle hsound.acyclic

/-! ### The search ends -/

def work (next : α → Option (List α)) (keys : List α) (s : Search α) : ℕ :=
  ((keys.filter (fun x => x ∉ s.visited ∧ x ∉ s.visiting)).map
    (fun x => ((next x).getD []).length + 1)).sum

def measure (next : α → Option (List α)) (keys : List α) (s : Search α) : ℕ :=
  s.pending.length + work next keys s

omit [DecidableEq α] in
theorem sum_filter_le (weight : α → ℕ) {p q : α → Bool} (keys : List α)
    (hle : ∀ x, p x = true → q x = true) :
    ((keys.filter p).map weight).sum ≤ ((keys.filter q).map weight).sum := by
  induction keys with
  | nil => exact le_rfl
  | cons x keys ih =>
    by_cases hp : p x = true
    · simp only [List.filter_cons, hp, hle x hp, if_true, List.map_cons, List.sum_cons]
      omega
    · by_cases hq : q x = true
      · simp only [List.filter_cons, hp, hq, if_true, List.map_cons, List.sum_cons]
        simp only [Bool.false_eq_true, if_false]
        omega
      · simpa only [List.filter_cons, hp, hq, Bool.false_eq_true, if_false] using ih

theorem sum_filter_lt (weight : α → ℕ) {p q : α → Bool} {keys : List α} {x : α} (hx : x ∈ keys)
    (hle : ∀ y, p y = true → q y = true) (hp : p x = false) (hq : q x = true) :
    ((keys.filter p).map weight).sum + weight x ≤ ((keys.filter q).map weight).sum := by
  induction keys with
  | nil => simp at hx
  | cons y keys ih =>
    by_cases hxy : x = y
    · subst hxy
      have hrest := sum_filter_le weight keys hle
      simp only [List.filter_cons, hp, hq, if_true, List.map_cons, List.sum_cons]
      simp only [Bool.false_eq_true, if_false]
      omega
    · have hrest := ih ((List.mem_cons.mp hx).resolve_left hxy)
      by_cases hpy : p y = true
      · simp only [List.filter_cons, hpy, hle y hpy, if_true, List.map_cons, List.sum_cons]
        omega
      · by_cases hqy : q y = true
        · simp only [List.filter_cons, hpy, hqy, if_true, List.map_cons, List.sum_cons]
          simp only [Bool.false_eq_true, if_false]
          omega
        · simpa only [List.filter_cons, hpy, hqy, Bool.false_eq_true, if_false] using hrest

theorem measure_turn {keys : List α} (hkeys : ∀ x, (next x).isSome → x ∈ keys) {s s' : Search α}
    (hturn : turn next s = .inl s') : measure next keys s' < measure next keys s := by
  rcases turn_cases hturn with ⟨x, rest, hp, rfl⟩ | ⟨x, rest, hp, -, rfl⟩ |
    ⟨x, rest, ys, hp, hleft, hway, hys, rfl⟩
  · have hwork : work next keys ⟨rest, s.visiting.filter (· ≠ x), x :: s.visited⟩ ≤
        work next keys s := by
      apply sum_filter_le
      intro y hy
      have hy' : (y ≠ x ∧ y ∉ s.visited) ∧ (y ∉ s.visiting ∨ y = x) := by simpa using hy
      have hgoal : y ∉ s.visited ∧ y ∉ s.visiting := ⟨hy'.1.2, hy'.2.resolve_right hy'.1.1⟩
      simpa using hgoal
    simp only [measure, hp, List.length_cons]
    omega
  · simp only [measure, work, hp, List.length_cons]
    omega
  · have hwork : work next keys ⟨ys.reverse.map (fun y => (y, false)) ++ (x, true) :: rest,
        x :: s.visiting, s.visited⟩ + (ys.length + 1) ≤ work next keys s := by
      have hone := sum_filter_lt (fun y => ((next y).getD []).length + 1)
        (p := fun y => decide (y ∉ s.visited ∧ y ∉ x :: s.visiting))
        (q := fun y => decide (y ∉ s.visited ∧ y ∉ s.visiting))
        (hkeys x (by rw [hys]; rfl)) (fun y hy => ?_) (by simp) (by simp [hleft, hway])
      · simpa only [work, hys, Option.getD_some] using hone
      · have hy' : y ∉ s.visited ∧ y ≠ x ∧ y ∉ s.visiting := by simpa using hy
        simpa using And.intro hy'.1 hy'.2.2
    simp only [measure, hp, List.length_append, List.length_map, List.length_reverse,
      List.length_cons]
    omega

theorem search_ends {keys : List α} (hkeys : ∀ x, (next x).isSome → x ∈ keys) {n : ℕ}
    {s : Search α} (hn : measure next keys s < n) : ∃ verdict, search next n s = some verdict := by
  induction n generalizing s with
  | zero => omega
  | succ n ih =>
    rw [search]
    cases hturn : turn next s with
    | inl s' =>
      have hless := measure_turn hkeys hturn
      exact ih (by omega)
    | inr verdict => exact ⟨verdict, rfl⟩

theorem search_iff (keys : List α) (hkeys : ∀ x, (next x).isSome → x ∈ keys) {n : ℕ} {start : α}
    (hn : measure next keys ⟨[(start, false)], [], []⟩ < n) :
    ∃ verdict, search next n ⟨[(start, false)], [], []⟩ = some verdict ∧
      (verdict = false ↔ Sound next start) := by
  obtain ⟨verdict, hv⟩ := search_ends hkeys hn
  refine ⟨verdict, hv, fun hfalse => ?_, fun hsound => ?_⟩
  · subst hfalse
    refine sound_of_search ?_ hv
    refine ⟨nofun, fun above x below hsplit => ?_, .inr ⟨false, List.mem_cons_self⟩⟩
    rcases List.append_eq_singleton_iff.mp hsplit.symm with ⟨-, heq⟩ | ⟨-, heq⟩
    · simp at heq
    · simp at heq
  · have hclimbs : Climbs next ⟨[(start, false)], [], []⟩ := by
      refine ⟨fun x b hx => ?_, fun above x rest hsplit => ?_, nofun⟩
      · have heq : x = start ∧ b = false := by simpa using hx
        exact heq.1 ▸ hsound
      · rcases List.append_eq_singleton_iff.mp hsplit.symm with ⟨-, heq⟩ | ⟨-, heq⟩
        · simp at heq
        · simp at heq
    cases verdict with
    | false => rfl
    | true => exact absurd hv (search_of_sound hclimbs)

/-! ### The way up, where a vertex has one successor at most -/

/-- The way from a vertex to the end, over the ones that have been seen: `true` where one is missing
or comes back. -/
def climb (up : α → Option (Option α)) : ℕ → List α → Option α → Option Bool
  | 0, _, _ => none
  | _ + 1, _, none => some false
  | n + 1, seen, some x =>
    if seen.contains x then some true
    else match up x with
      | none => some true
      | some y => climb up n (x :: seen) y

def single (up : α → Option (Option α)) (x : α) : Option (List α) := (up x).map Option.toList

variable {up : α → Option (Option α)}

def rerouted (up : α → Option (Option α)) (start : α) (above : Option α) (x : α) :
    Option (List α) := if x = start then some above.toList else single up x

/-- A climb that reaches the top without meeting a seen node leaves no cycle after the reroute. -/
theorem sound_of_climb {start : α} {above : Option α} {n : ℕ} {seen : List α} {x : Option α}
    (hseen : start ∈ seen) (hrun : climb up n seen x = some false) :
    ∀ y ∈ x, Sound (rerouted up start above) y := by
  induction n generalizing seen x with
  | zero => contradiction
  | succ n ih =>
    cases x with
    | none => nofun
    | some x =>
      rintro y hy
      obtain rfl : x = y := Option.some.inj hy
      rw [climb] at hrun
      by_cases hx : seen.contains x = true
      · rw [if_pos hx] at hrun
        contradiction
      rw [if_neg hx] at hrun
      have hne : x ≠ start := fun heq => hx (by simpa [heq] using hseen)
      cases hup : up x with
      | none => simp [hup] at hrun
      | some z =>
        rw [hup] at hrun
        have hnext : rerouted up start above x = some z.toList := by
          simp only [rerouted, hne, if_false, single, hup, Option.map_some]
        refine .intro hnext fun w hw => ?_
        exact ih (List.mem_cons_of_mem _ hseen) hrun w (by simpa using hw)

/-- Where the reroute makes no cycle the climb never meets a seen node. -/
theorem climb_of_sound {start : α} {above : Option α} {n : ℕ} {seen : List α} {x : Option α}
    (hstart : start ∈ seen) (hsound : ∀ y ∈ x, Sound (rerouted up start above) y)
    (hseen : ∀ y ∈ x, ∀ z ∈ seen, Relation.TransGen (Edge (rerouted up start above)) z y) :
    climb up n seen x ≠ some true := by
  induction n generalizing seen x with
  | zero => nofun
  | succ n ih =>
    cases x with
    | none => nofun
    | some x =>
      have hx := hsound x rfl
      simp only [climb]
      split_ifs with hmem
      · have hcycle := hseen x rfl x (by simpa using hmem)
        exact absurd hcycle hx.acyclic
      · have hne : x ≠ start := fun heq => hmem (by simpa [heq] using hstart)
        have hnext : rerouted up start above x = single up x := by
          simp only [rerouted, hne, if_false]
        cases hup : up x with
        | none =>
          obtain ⟨ys, hys⟩ := hx.there
          rw [hnext, single, hup] at hys
          contradiction
        | some z =>
          have hedge : ∀ y ∈ z, Edge (rerouted up start above) x y := by
            intro y hy
            refine ⟨z.toList, ?_, by simpa using hy⟩
            rw [hnext, single, hup]
            rfl
          refine ih (List.mem_cons_of_mem _ hstart) (fun y hy => hx.edge (hedge y hy)) ?_
          intro y hy w hw
          rcases List.mem_cons.mp hw with rfl | hw
          · exact Relation.TransGen.single (hedge y hy)
          · exact (hseen x rfl w hw).tail (hedge y hy)

theorem climb_ends {keys : List α} (hkeys : ∀ x, (up x).isSome → x ∈ keys) {n : ℕ} {seen : List α}
    {x : Option α} (hn : (keys.filter (fun y => y ∉ seen)).length < n) :
    ∃ verdict, climb up n seen x = some verdict := by
  induction n generalizing seen x with
  | zero => omega
  | succ n ih =>
    cases x with
    | none => exact ⟨false, rfl⟩
    | some x =>
      simp only [climb]
      split_ifs with hmem
      · exact ⟨true, rfl⟩
      · cases hup : up x with
        | none => exact ⟨true, rfl⟩
        | some z =>
          apply ih
          have hone := sum_filter_lt (fun _ => 1)
            (p := fun y => decide (y ∉ x :: seen)) (q := fun y => decide (y ∉ seen))
            (hkeys x (by rw [hup]; rfl)) (fun y hy => ?_) (by simp) (by simpa using hmem)
          · simp only [List.map_const', List.sum_replicate, Nat.nsmul_eq_mul, mul_one] at hone
            omega
          · have hy' : y ≠ x ∧ y ∉ seen := by simpa using hy
            simpa using hy'.2

theorem climb_iff (keys : List α) (hkeys : ∀ x, (up x).isSome → x ∈ keys) {n : ℕ} {start : α}
    {above : Option α} (hn : keys.length < n) :
    ∃ verdict, climb up n [start] above = some verdict ∧
      (verdict = false ↔ Sound (rerouted up start above) start) := by
  have hless : (keys.filter (fun y => y ∉ [start])).length < n :=
    (List.length_filter_le _ _).trans_lt hn
  obtain ⟨verdict, hv⟩ := climb_ends hkeys hless
  have hnext : rerouted up start above start = some above.toList := by simp only [rerouted, if_true]
  refine ⟨verdict, hv, fun hfalse => ?_, fun hsound => ?_⟩
  · subst hfalse
    have hall : ∀ y ∈ above, Sound (rerouted up start above) y :=
      sound_of_climb List.mem_cons_self hv
    exact .intro hnext fun y hy => hall y (by simpa using hy)
  · have hedge : ∀ y ∈ above, Edge (rerouted up start above) start y :=
      fun y hy => ⟨above.toList, hnext, by simpa using hy⟩
    have hnot : climb up n [start] above ≠ some true := by
      refine climb_of_sound List.mem_cons_self (fun y hy => hsound.edge (hedge y hy)) ?_
      intro y hy z hz
      obtain rfl := List.mem_singleton.mp hz
      exact Relation.TransGen.single (hedge y hy)
    cases verdict with
    | false => rfl
    | true => exact absurd hv hnot

end DepthFirst
