import Mathlib.Data.List.Basic

/-! Values kept in a list, each position with a mark that no operation reads. A step changes the
values; the marks follow what it did to each of them. -/
namespace MarkedList

variable {α μ : Type*}

/-- The list `ys` comes from `xs`: every value is kept, changed as `R` allows, and what is added
at the end meets `N`. -/
structure Evolves (R : ℕ → α → α → Prop) (N : α → Prop) (xs ys : List α) : Prop where
  kept : ∀ (i : ℕ) (a : α), xs[i]? = some a → ∃ b, ys[i]? = some b ∧ R i a b
  added : ∀ (i : ℕ) (b : α), xs[i]? = none → ys[i]? = some b → N b

namespace Evolves

variable {R R' : ℕ → α → α → Prop} {N N' : α → Prop} {xs ys : List α}

theorem mono (h : Evolves R N xs ys) (hR : ∀ i a b, R i a b → R' i a b) (hN : ∀ b, N b → N' b) :
    Evolves R' N' xs ys := by
  constructor
  · intro i a ha
    obtain ⟨b, hb, hab⟩ := h.kept i a ha
    exact ⟨b, hb, hR i a b hab⟩
  · exact fun i b hi hb => hN b (h.added i b hi hb)

theorem there (h : Evolves R N xs ys) : Evolves (fun i a b => xs[i]? = some a ∧ R i a b) N xs ys := by
  constructor
  · intro i a ha
    obtain ⟨b, hb, hab⟩ := h.kept i a ha
    exact ⟨b, hb, ha, hab⟩
  · exact h.added

theorem refl (hR : ∀ i a, R i a a) (xs : List α) : Evolves R N xs xs := by
  constructor
  · exact fun i a ha => ⟨a, ha, hR i a⟩
  · intro i b hi hb
    rw [hi] at hb
    contradiction

theorem map_eq {β : Type*} {f : α → β} (h : Evolves R N xs ys) (hR : ∀ i a b, R i a b → f b = f a)
    (hN : ∀ b, ¬ N b) : ys.map f = xs.map f := by
  apply List.ext_getElem?
  intro i
  rw [List.getElem?_map, List.getElem?_map]
  cases hx : xs[i]? with
  | none =>
    cases hy : ys[i]? with
    | none => rfl
    | some b => exact absurd (h.added i b hx hy) (hN b)
  | some a =>
    obtain ⟨b, hy, hab⟩ := h.kept i a hx
    rw [hy, Option.map_some, Option.map_some, hR i a b hab]

theorem trans {zs : List α} (h : Evolves R N xs ys) (h' : Evolves R' N' ys zs) :
    Evolves (fun i a c => ∃ b, R i a b ∧ R' i b c) (fun c => N' c ∨ ∃ i b, N b ∧ R' i b c) xs zs := by
  constructor
  · intro i a ha
    obtain ⟨b, hb, hab⟩ := h.kept i a ha
    obtain ⟨c, hc, hbc⟩ := h'.kept i b hb
    exact ⟨c, hc, b, hab, hbc⟩
  · intro i c hi hc
    cases hb : ys[i]? with
    | none => exact .inl (h'.added i c hb hc)
    | some b =>
      obtain ⟨d, hd, hbd⟩ := h'.kept i b hb
      obtain rfl : d = c := Option.some.inj (hd.symm.trans hc)
      exact .inr ⟨i, b, h.added i b hi hb, hbd⟩

theorem map {f : α → α} (hf : ∀ i a, R i a (f a)) (xs : List α) : Evolves R N xs (xs.map f) := by
  constructor
  · intro i a ha
    exact ⟨f a, by rw [List.getElem?_map, ha]; rfl, hf i a⟩
  · intro i b hi hb
    rw [List.getElem?_map, hi] at hb
    contradiction

theorem set_at {i : ℕ} {a b : α} (ha : xs[i]? = some a) :
    Evolves (fun j c d => (j = i ∧ c = a ∧ d = b) ∨ (j ≠ i ∧ d = c)) N xs (xs.set i b) := by
  constructor
  · intro j c hc
    by_cases hij : i = j
    · subst hij
      rw [ha] at hc
      cases hc
      exact ⟨b, by rw [List.getElem?_set_self', ha]; rfl, .inl ⟨rfl, rfl, rfl⟩⟩
    · exact ⟨c, by rw [List.getElem?_set_ne hij, hc], .inr ⟨Ne.symm hij, rfl⟩⟩
  · intro j c hj hc
    have hlen : xs.length ≤ j := List.getElem?_eq_none_iff.mp hj
    rw [List.getElem?_eq_none (by rw [List.length_set]; exact hlen)] at hc
    contradiction

theorem set (hR : ∀ i a, R i a a) {i : ℕ} {a b : α} (ha : xs[i]? = some a) (hab : R i a b) :
    Evolves R N xs (xs.set i b) := by
  apply (set_at (N := N) ha).mono
  · rintro j c d (⟨rfl, rfl, rfl⟩ | ⟨-, rfl⟩)
    · exact hab
    · exact hR j d
  · exact fun _ h => h

theorem append (hR : ∀ i a, R i a a) {b : α} (hb : N b) (xs : List α) :
    Evolves R N xs (xs ++ [b]) := by
  constructor
  · intro i a ha
    have hi : i < xs.length := (List.getElem?_eq_some_iff.mp ha).1
    exact ⟨a, by rw [List.getElem?_append_left hi, ha], hR i a⟩
  · intro i c hi hc
    have hlen : xs.length ≤ i := List.getElem?_eq_none_iff.mp hi
    rw [List.getElem?_append_right hlen] at hc
    have hmem : c ∈ [b] := List.mem_of_getElem? hc
    rw [List.mem_singleton] at hmem
    exact hmem ▸ hb

end Evolves

/-- How marks follow the values: `seen` is the mark of a value that was there, `start` that of
a value that is added. -/
structure Watch (α μ : Type*) where
  seen : ℕ → α → α → μ → μ
  start : α → μ

def Watch.follow (w : Watch α μ) (xs ys : List α) (marks : ℕ → μ) : ℕ → μ := fun i =>
  match xs[i]?, ys[i]? with
  | some a, some b => w.seen i a b (marks i)
  | none, some b => w.start b
  | _, none => marks i

def Every (P : α → μ → Prop) (xs : List α) (marks : ℕ → μ) : Prop :=
  ∀ (i : ℕ) (a : α), xs[i]? = some a → P a (marks i)

variable {w : Watch α μ} {xs ys : List α} {marks : ℕ → μ}

theorem follow_kept {i : ℕ} {a b : α} (ha : xs[i]? = some a) (hb : ys[i]? = some b) :
    w.follow xs ys marks i = w.seen i a b (marks i) := by
  simp only [Watch.follow, ha, hb]

theorem follow_added {i : ℕ} {b : α} (ha : xs[i]? = none) (hb : ys[i]? = some b) :
    w.follow xs ys marks i = w.start b := by
  simp only [Watch.follow, ha, hb]

theorem Every.follow {R : ℕ → α → α → Prop} {N : α → Prop} {P Q : α → μ → Prop}
    (h : Every P xs marks) (he : Evolves R N xs ys)
    (hR : ∀ i a b, R i a b → P a (marks i) → Q b (w.seen i a b (marks i)))
    (hN : ∀ b, N b → Q b (w.start b)) :
    Every Q ys (w.follow xs ys marks) := by
  intro i b hb
  cases ha : xs[i]? with
  | none =>
    rw [follow_added ha hb]
    exact hN b (he.added i b ha hb)
  | some a =>
    rw [follow_kept ha hb]
    obtain ⟨c, hc, hac⟩ := he.kept i a ha
    obtain rfl : c = b := Option.some.inj (hc.symm.trans hb)
    exact hR i a c hac (h i a ha)

end MarkedList
