import Mathlib.Data.List.Induction

/-! Chains of messages, each of which carries the hash of the one before it. -/
namespace HashChain

/-- Messages are hashed, and name the hash before them. -/
structure Linking (M D : Type*) where
  hash : M → D
  previous : M → D

/-- A message of one list and another of the other list have one hash. -/
def Collide {M D : Type*} (hash : M → D) (l k : List M) : Prop :=
  ∃ x ∈ l, ∃ y ∈ k, x ≠ y ∧ hash x = hash y

namespace Linking

variable {M D : Type*} (c : Linking M D)

def Linked : D → List M → Prop
  | _, [] => True
  | expected, m :: l => c.previous m = expected ∧ Linked (c.hash m) l

/-- The hash that the next message has to name. -/
def head (start : D) (l : List M) : D := l.foldl (fun _ m => c.hash m) start

variable {c} {start : D}

theorem head_concat (l : List M) (m : M) : c.head start (l ++ [m]) = c.hash m := by
  rw [head, List.foldl_append]
  rfl

theorem head_eq (l : List M) : c.head start l = (l.getLast?.map c.hash).getD start := by
  induction l using List.reverseRecOn with
  | nil => rfl
  | append_singleton l m _ => rw [head_concat, List.getLast?_concat]; rfl

theorem linked_append {l k : List M} :
    c.Linked start (l ++ k) ↔ c.Linked start l ∧ c.Linked (c.head start l) k := by
  induction l generalizing start with
  | nil => simp [Linked, head]
  | cons m l ih =>
    rw [List.cons_append, Linked, Linked, ih, and_assoc]
    rfl

theorem linked_concat {l : List M} {m : M} :
    c.Linked start (l ++ [m]) ↔ c.Linked start l ∧ c.previous m = c.head start l := by
  rw [linked_append]
  simp [Linked]

/-- A chain is all in its head, unless a message of it collides with one of the other chain. -/
theorem eq_of_head (hstart : ∀ m, c.hash m ≠ start) {l k : List M} (hl : c.Linked start l)
    (hk : c.Linked start k) (h : c.head start l = c.head start k) : l = k ∨ Collide c.hash l k := by
  induction l using List.reverseRecOn generalizing k with
  | nil =>
    rcases List.eq_nil_or_concat k with rfl | ⟨k, m, rfl⟩
    · exact .inl rfl
    · rw [List.concat_eq_append, head_concat] at h
      exact absurd h.symm (hstart m)
  | append_singleton l m ih =>
    rcases List.eq_nil_or_concat k with rfl | ⟨k, m', rfl⟩
    · rw [head_concat] at h
      exact absurd h (hstart m)
    · rw [List.concat_eq_append] at hk h ⊢
      rw [head_concat, head_concat] at h
      obtain ⟨hinit, hm⟩ := linked_concat.mp hl
      obtain ⟨hinit', hm'⟩ := linked_concat.mp hk
      by_cases heq : m = m'
      · subst heq
        rcases ih hinit hinit' (hm.symm.trans hm') with hlk | ⟨x, hx, y, hy, hxy⟩
        · exact .inl (by rw [hlk])
        · exact .inr ⟨x, List.mem_append_left _ hx, y, List.mem_append_left _ hy, hxy⟩
      · exact .inr ⟨m, by simp, m', by simp, heq, h⟩

end Linking

end HashChain
