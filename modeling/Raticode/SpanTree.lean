import Mathlib.Algebra.BigOperators.Group.List.Basic
import Mathlib.Algebra.GroupWithZero.Nat
import Mathlib.Algebra.Order.BigOperators.Group.List
import Mathlib.Algebra.Order.Group.Nat

/-! Trees whose nodes stand for parts of a text, where the parts are given by the
weight of the text before them. Each symbol has a size, the number of bytes of its
encoding for instance. -/
namespace SpanTree
variable {σ : Type*}

inductive Outline (σ : Type*) where
  | node (start stop : ℕ) (covers : List σ → Prop) (children : List (Outline σ))

namespace Outline

def start : Outline σ → ℕ
  | .node start _ _ _ => start

def stop : Outline σ → ℕ
  | .node _ stop _ _ => stop

end Outline

variable (size : σ → ℕ)

def weight (w : List σ) : ℕ := (w.map size).sum

def Slice (w : List σ) (start stop : ℕ) (part : List σ) : Prop :=
  ∃ u v, w = u ++ part ++ v ∧ weight size u = start ∧ weight size (u ++ part) = stop

def Boundary (w : List σ) (offset : ℕ) : Prop := ∃ u, u <+: w ∧ weight size u = offset

mutual
/-- For a relation that says which text stands between two offsets: a node stands
for a text it covers, and its children lie inside it. -/
def Faithful (stands : ℕ → ℕ → List σ → Prop) : Outline σ → Prop
  | .node start stop covers children =>
    (∃ part, stands start stop part ∧ covers part) ∧ Nested stands start stop children

def Nested (stands : ℕ → ℕ → List σ → Prop) (low high : ℕ) : List (Outline σ) → Prop
  | [] => low ≤ high
  | tree :: trees => low ≤ tree.start ∧ Faithful stands tree ∧ Nested stands tree.stop high trees
end

variable {size} {w u v part : List σ} {a b c d low high : ℕ} {tree : Outline σ} {trees : List (Outline σ)}

@[simp] theorem weight_nil : weight size ([] : List σ) = 0 := rfl

@[simp] theorem weight_append : weight size (u ++ v) = weight size u + weight size v := by
  simp [weight]

@[simp] theorem weight_cons {s : σ} : weight size (s :: v) = size s + weight size v := by
  simp [weight]

theorem weight_mono (h : u <+: v) : weight size u ≤ weight size v := by
  obtain ⟨t, rfl⟩ := h
  simp

theorem Slice.le (h : Slice size w a b part) : a ≤ b := by
  obtain ⟨u, v, -, rfl, rfl⟩ := h
  simp

theorem Slice.start (h : Slice size w a b part) : Boundary size w a := by
  obtain ⟨u, v, rfl, rfl, -⟩ := h
  exact ⟨u, by simp [List.append_assoc], rfl⟩

theorem Slice.stop (h : Slice size w a b part) : Boundary size w b := by
  obtain ⟨u, v, rfl, -, rfl⟩ := h
  exact ⟨u ++ part, List.prefix_append _ _, rfl⟩

theorem Boundary.slice (ha : Boundary size w a) (hb : Boundary size w b) (hle : a ≤ b) :
    ∃ part, Slice size w a b part := by
  obtain ⟨u, hu, rfl⟩ := ha
  obtain ⟨v, hv, rfl⟩ := hb
  rcases List.prefix_or_prefix_of_prefix hu hv with ⟨t, rfl⟩ | hvu
  · obtain ⟨x, rfl⟩ := hv
    exact ⟨t, u, x, rfl, rfl, rfl⟩
  · -- The later boundary is no further, so both are at the same offset.
    have hsame : weight size v = weight size u := le_antisymm (weight_mono hvu) hle
    obtain ⟨x, rfl⟩ := hv
    exact ⟨[], v, x, by simp, hsame, by simp⟩

theorem Boundary.le (ha : Boundary size w a) : a ≤ weight size w := by
  obtain ⟨u, hu, rfl⟩ := ha
  exact weight_mono hu

theorem boundary_zero : Boundary size w 0 := ⟨[], List.nil_prefix, rfl⟩

theorem boundary_weight : Boundary size w (weight size w) := ⟨w, List.prefix_rfl, rfl⟩

theorem Faithful.le (h : Faithful (Slice size w) tree) : tree.start ≤ tree.stop := by
  cases tree with
  | node start stop covers children =>
    obtain ⟨⟨part, hpart, -⟩, -⟩ := h
    exact hpart.le

theorem Faithful.start (h : Faithful (Slice size w) tree) : Boundary size w tree.start := by
  cases tree with
  | node start stop covers children =>
    obtain ⟨⟨part, hpart, -⟩, -⟩ := h
    exact hpart.start

theorem Faithful.stop (h : Faithful (Slice size w) tree) : Boundary size w tree.stop := by
  cases tree with
  | node start stop covers children =>
    obtain ⟨⟨part, hpart, -⟩, -⟩ := h
    exact hpart.stop

theorem Nested.le (h : Nested (Slice size w) low high trees) : low ≤ high := by
  induction trees generalizing low with
  | nil => exact h
  | cons tree trees ih =>
    obtain ⟨hlow, htree, hrest⟩ := h
    exact (hlow.trans htree.le).trans (ih hrest)

theorem Nested.mono (h : Nested (Slice size w) b c trees) (hlow : a ≤ b) (hhigh : c ≤ d) :
    Nested (Slice size w) a d trees := by
  induction trees generalizing a b with
  | nil =>
    have hbc : b ≤ c := h
    exact (hlow.trans hbc).trans hhigh
  | cons tree trees ih =>
    obtain ⟨hstart, htree, hrest⟩ := h
    exact ⟨hlow.trans hstart, htree, ih hrest le_rfl⟩

theorem Nested.append {more : List (Outline σ)} (h : Nested (Slice size w) a b trees)
    (hmore : Nested (Slice size w) b c more) : Nested (Slice size w) a c (trees ++ more) := by
  induction trees generalizing a with
  | nil =>
    have hab : a ≤ b := h
    exact hmore.mono hab le_rfl
  | cons tree trees ih =>
    obtain ⟨hstart, htree, hrest⟩ := h
    exact ⟨hstart, htree, ih hrest⟩

theorem Nested.cons (h : Nested (Slice size w) a b [tree]) (hrest : Nested (Slice size w) b c trees) :
    Nested (Slice size w) a c (tree :: trees) :=
  h.append hrest

theorem Faithful.nested (h : Faithful (Slice size w) tree) (hlow : low ≤ tree.start)
    (hhigh : tree.stop ≤ high) : Nested (Slice size w) low high [tree] :=
  ⟨hlow, h, hhigh⟩

theorem Nested.head (h : Nested (Slice size w) low high [tree]) :
    low ≤ tree.start ∧ Faithful (Slice size w) tree ∧ tree.stop ≤ high := h

theorem Nested.tighten {first last : Outline σ} (h : Nested (Slice size w) low high trees)
    (hfirst : trees.head? = some first) (hlast : trees.getLast? = some last) :
    low ≤ first.start ∧ last.stop ≤ high ∧ Nested (Slice size w) first.start last.stop trees := by
  induction trees generalizing low first with
  | nil => cases hfirst
  | cons tree trees ih =>
    cases hfirst
    obtain ⟨hlow, htree, hrest⟩ := h
    cases trees with
    | nil =>
      cases hlast
      exact ⟨hlow, hrest, le_rfl, htree, le_rfl⟩
    | cons next trees =>
      obtain ⟨hnext, hhigh, htail⟩ := ih hrest rfl (by simpa using hlast)
      exact ⟨hlow, hhigh, le_rfl, htree, htail.mono hnext le_rfl⟩

theorem Nested.ends {first last : Outline σ} (h : Nested (Slice size w) low high trees)
    (hfirst : trees.head? = some first) (hlast : trees.getLast? = some last) :
    Boundary size w first.start ∧ Boundary size w last.stop := by
  induction trees generalizing low first with
  | nil => cases hfirst
  | cons tree trees ih =>
    cases hfirst
    obtain ⟨-, htree, hrest⟩ := h
    refine ⟨htree.start, ?_⟩
    cases trees with
    | nil =>
      cases hlast
      exact htree.stop
    | cons next trees => exact (ih hrest rfl (by simpa using hlast)).2

structure Row (size : σ → ℕ) (w : List σ) (low high : ℕ) (first last : Outline σ)
    (trees : List (Outline σ)) : Prop where
  low : low ≤ first.start
  high : last.stop ≤ high
  start : Boundary size w first.start
  stop : Boundary size w last.stop
  nested : Nested (Slice size w) first.start last.stop trees

theorem Nested.row {α : Type*} {f : α → Outline σ} {items : List α} {x y : α}
    (h : Nested (Slice size w) low high (items.map f)) (hx : items.head? = some x)
    (hy : items.getLast? = some y) : Row size w low high (f x) (f y) (items.map f) := by
  have hfirst : (items.map f).head? = some (f x) := by
    rw [List.head?_map, hx]
    rfl
  have hlast : (items.map f).getLast? = some (f y) := by
    rw [List.getLast?_map, hy]
    rfl
  obtain ⟨hlow, hhigh, hnested⟩ := h.tighten hfirst hlast
  obtain ⟨hstart, hstop⟩ := h.ends hfirst hlast
  exact ⟨hlow, hhigh, hstart, hstop, hnested⟩

theorem faithful_node (ha : Boundary size w a) (hb : Boundary size w b)
    (hchildren : Nested (Slice size w) a b trees) :
    Faithful (Slice size w) (.node a b (fun _ => True) trees) := by
  obtain ⟨part, hpart⟩ := ha.slice hb hchildren.le
  exact ⟨⟨part, hpart, trivial⟩, hchildren⟩

theorem faithful_leaf {covers : List σ → Prop} (hpart : Slice size w a b part) (hc : covers part) :
    Faithful (Slice size w) (.node a b covers []) :=
  ⟨⟨part, hpart, hc⟩, hpart.le⟩

mutual
theorem Faithful.imp {stands stands' : ℕ → ℕ → List σ → Prop}
    (h : ∀ a b part, stands a b part → stands' a b part) :
    ∀ tree : Outline σ, Faithful stands tree → Faithful stands' tree
  | .node a b _ children, ⟨⟨part, hpart, hc⟩, hchildren⟩ =>
    ⟨⟨part, h a b part hpart, hc⟩, Nested.imp h a b children hchildren⟩

theorem Nested.imp {stands stands' : ℕ → ℕ → List σ → Prop}
    (h : ∀ a b part, stands a b part → stands' a b part) (low high : ℕ) :
    ∀ trees : List (Outline σ), Nested stands low high trees → Nested stands' low high trees
  | [], hle => hle
  | tree :: trees, ⟨hlow, htree, hrest⟩ =>
    ⟨hlow, Faithful.imp h tree htree, Nested.imp h tree.stop high trees hrest⟩
end

end SpanTree
