import Mathlib.Data.List.Infix
import Mathlib.Data.List.DropRight
import Mathlib.Tactic.Common

/-! Leftmost scans. A matcher is tried at each position of a word; where it
succeeds the scan records the match and resumes after it, elsewhere it records
the symbol. Replacement of a literal is the scan whose matcher is that literal. -/
namespace Scan

variable {σ α : Type*}

/-- The scan of a word, with `skip` symbols of an earlier match still to pass. A
match `(a, n)` takes the symbol it is found at and the `n` symbols after it. -/
def pieces (m : List σ → Option (α × ℕ)) : ℕ → List σ → List (α ⊕ σ)
  | _, [] => []
  | skip + 1, _ :: cs => pieces m skip cs
  | 0, c :: cs =>
    match m (c :: cs) with
    | some (a, n) => .inl a :: pieces m n cs
    | none => .inr c :: pieces m 0 cs

variable {m : List σ → Option (α × ℕ)}

theorem pieces_skip (m : List σ → Option (α × ℕ)) (k : ℕ) (w : List σ) :
    pieces m k w = pieces m 0 (w.drop k) := by
  induction k generalizing w with
  | zero => rfl
  | succ k ih =>
    cases w with
    | nil => simp [pieces]
    | cons c cs => simpa [pieces] using ih cs

theorem pieces_of_some {c : σ} {cs : List σ} {a : α} {n : ℕ} (h : m (c :: cs) = some (a, n)) :
    pieces m 0 (c :: cs) = .inl a :: pieces m 0 (cs.drop n) := by
  rw [← pieces_skip]
  simp [pieces, h]

theorem pieces_of_none {c : σ} {cs : List σ} (h : m (c :: cs) = none) :
    pieces m 0 (c :: cs) = .inr c :: pieces m 0 cs := by
  simp [pieces, h]

theorem pieces_eq_nil {w : List σ} : pieces m 0 w = [] ↔ w = [] := by
  cases w with
  | nil => simp [pieces]
  | cons c cs => cases h : m (c :: cs) <;> simp [pieces, h]

theorem pieces_append_of_none {u : List σ} (w : List σ)
    (h : ∀ c ∈ u, ∀ cs, m (c :: cs) = none) :
    pieces m 0 (u ++ w) = u.map .inr ++ pieces m 0 w := by
  induction u with
  | nil => rfl
  | cons c u ih =>
    rw [List.cons_append, pieces_of_none (h c (by simp) _), ih (fun d hd => h d (by simp [hd]))]
    rfl

section Literal
variable [DecidableEq σ]

def literal (old w : List σ) : Option (Unit × ℕ) :=
  if old.isPrefixOf w then some ((), old.length - 1) else none

/-- Every leftmost occurrence of `old` replaced by `new`. -/
def replace (old new w : List σ) : List σ :=
  (pieces (literal old) 0 w).flatMap (Sum.elim (fun _ => new) (fun c => [c]))

variable {old new : List σ}

@[simp] theorem replace_nil : replace old new [] = [] := rfl

theorem replace_literal (hne : old ≠ []) (w : List σ) :
    replace old new (old ++ w) = new ++ replace old new w := by
  obtain ⟨c, cs, rfl⟩ := List.exists_cons_of_ne_nil hne
  have hm : literal (c :: cs) (c :: (cs ++ w)) = some ((), cs.length) := by simp [literal]
  rw [replace, List.cons_append, pieces_of_some hm]
  simp [replace]

theorem replace_cons {c : σ} {cs : List σ} (h : ¬ old <+: c :: cs) :
    replace old new (c :: cs) = c :: replace old new cs := by
  have hm : literal old (c :: cs) = none := by simp [literal, h]
  rw [replace, pieces_of_none hm]
  simp [replace]

theorem replace_append {d : σ} {ds u : List σ} (w : List σ) (h : d ∉ u) :
    replace (d :: ds) new (u ++ w) = u ++ replace (d :: ds) new w := by
  have hm : ∀ c ∈ u, ∀ cs, literal (d :: ds) (c :: cs) = none := by
    intro c hc cs
    have hne : d ≠ c := fun he => h (he ▸ hc)
    simp [literal, hne]
  rw [replace, pieces_append_of_none w hm, replace, List.flatMap_append]
  congr 1
  simp [List.flatMap_map]

theorem replace_induction (hne : old ≠ []) {motive : List σ → Prop} (nil : motive [])
    (literal : ∀ w, motive w → motive (old ++ w))
    (copy : ∀ c cs, ¬ old <+: c :: cs → motive cs → motive (c :: cs)) (w : List σ) : motive w := by
  induction hn : w.length using Nat.strong_induction_on generalizing w with
  | _ n ih =>
    by_cases hfront : old <+: w
    · obtain ⟨v, hv⟩ := hfront
      have hlength : v.length < n := by
        have hpos := List.length_pos_of_ne_nil hne
        rw [← hn, ← hv, List.length_append]
        omega
      rw [← hv]
      exact literal v (ih v.length hlength v rfl)
    · cases w with
      | nil => exact nil
      | cons c cs =>
        apply copy c cs hfront
        exact ih cs.length (by rw [← hn, List.length_cons]; omega) cs rfl

omit [DecidableEq σ] in
theorem infix_of_append {t u v : List σ} (ht : t ≠ []) (hu : u ≠ []) (hapart : ∀ c ∈ t, c ∉ u)
    (h : t <:+: u ++ v) : t <:+: v := by
  induction u with
  | nil => exact absurd rfl hu
  | cons d u ih =>
    rw [List.cons_append, List.infix_cons_iff] at h
    rcases h with hfront | hrest
    · obtain ⟨c, t, rfl⟩ := List.exists_cons_of_ne_nil ht
      have hc : c = d := (List.cons_prefix_cons.mp hfront).1
      exact absurd (by simp [hc]) (hapart c (by simp))
    · by_cases he : u = []
      · simpa [he] using hrest
      · exact ih he (fun c hc hcu => hapart c hc (by simp [hcu])) hrest

section Apart
variable {t : List σ} (hold : old ≠ []) (hnew : new ≠ []) (ht : ∀ c ∈ t, c ∉ new)
include hold hnew ht

theorem prefix_of_replace {w : List σ} (h : t <+: replace old new w) : t <+: w := by
  induction w using replace_induction hold generalizing t with
  | nil => simpa using h
  | literal w ih =>
    rw [replace_literal hold] at h
    cases t with
    | nil => exact List.nil_prefix
    | cons c t =>
      obtain ⟨d, ds, rfl⟩ := List.exists_cons_of_ne_nil hnew
      have hc : c = d := (List.cons_prefix_cons.mp h).1
      exact absurd (by simp [hc]) (ht c (by simp))
  | copy c cs hfront ih =>
    rw [replace_cons hfront] at h
    cases t with
    | nil => exact List.nil_prefix
    | cons d t =>
      rw [List.cons_prefix_cons] at h ⊢
      exact ⟨h.1, ih (fun c hc => ht c (by simp [hc])) h.2⟩

theorem infix_of_replace {w : List σ} (h : t <:+: replace old new w) : t <:+: w := by
  by_cases hempty : t = []
  · simp [hempty]
  induction w using replace_induction hold with
  | nil => simpa using h
  | literal w ih =>
    rw [replace_literal hold] at h
    apply List.IsInfix.trans (ih (infix_of_append hempty hnew ht h))
    exact (List.suffix_append old w).isInfix
  | copy c cs hfront ih =>
    rw [replace_cons hfront, List.infix_cons_iff] at h
    rcases h with hstart | hrest
    · rw [← replace_cons hfront] at hstart
      exact (prefix_of_replace hold hnew ht hstart).isInfix
    · exact List.infix_cons (ih hrest)

end Apart

theorem not_infix_replace (hold : old ≠ []) (hnew : new ≠ []) (hapart : ∀ c ∈ old, c ∉ new) (w : List σ) :
    ¬ old <:+: replace old new w := by
  intro h
  induction w using replace_induction hold with
  | nil => exact hold (by simpa using h)
  | literal w ih =>
    rw [replace_literal hold] at h
    exact ih (infix_of_append hold hnew hapart h)
  | copy c cs hfront ih =>
    rw [replace_cons hfront, List.infix_cons_iff] at h
    rcases h with hstart | hrest
    · rw [← replace_cons hfront] at hstart
      exact hfront (prefix_of_replace hold hnew hapart hstart)
    · exact ih hrest

theorem replace_eq_self {w : List σ} (h : ¬ old <:+: w) : replace old new w = w := by
  induction w with
  | nil => rfl
  | cons c cs ih =>
    rw [List.infix_cons_iff, not_or] at h
    rw [replace_cons h.1, ih h.2]

end Literal

/-- The word without the symbols of the class `p` at its two ends. -/
def trim (p : σ → Bool) (w : List σ) : List σ := (w.dropWhile p).rdropWhile p

theorem mem_dropWhile {p : σ → Bool} {w : List σ} {x : σ} (hx : x ∈ w) (hp : p x = false) :
    x ∈ w.dropWhile p := by
  induction w with
  | nil => exact hx
  | cons c w ih =>
    rw [List.dropWhile_cons]
    split
    next hc =>
      rcases List.mem_cons.mp hx with rfl | hx
      · simp [hp] at hc
      · exact ih hx
    · exact hx

theorem mem_trim {p : σ → Bool} {w : List σ} {x : σ} (hx : x ∈ w) (hp : p x = false) :
    x ∈ trim p w := by
  rw [trim, List.rdropWhile, List.mem_reverse]
  exact mem_dropWhile (List.mem_reverse.mpr (mem_dropWhile hx hp)) hp

theorem rdropWhile_append {p : σ → Bool} {x : σ} (hx : p x = false) (u v : List σ) :
    (u ++ x :: v).rdropWhile p = u ++ (x :: v).rdropWhile p := by
  have hmem : (v.reverse ++ [x]).dropWhile p ≠ [] :=
    List.ne_nil_of_mem (mem_dropWhile (by simp) hx)
  have hsplit : (u ++ x :: v).reverse = (v.reverse ++ [x]) ++ u.reverse := by simp
  rw [List.rdropWhile, hsplit, List.dropWhile_append]
  simp [List.rdropWhile, hmem]

theorem rdropWhile_cons {p : σ → Bool} {x : σ} (hx : p x = false) (v : List σ) :
    ∃ w, (x :: v).rdropWhile p = x :: w := by
  obtain ⟨w, hw⟩ := List.rdropWhile_prefix p (l := x :: v)
  cases hd : (x :: v).rdropWhile p with
  | nil =>
    have hall := List.rdropWhile_eq_nil_iff.mp hd x (by simp)
    simp [hx] at hall
  | cons y u =>
    rw [hd] at hw
    exact ⟨u, by rw [(List.cons.inj hw).1]⟩

theorem trim_append {p : σ → Bool} {x : σ} (hx : p x = false) {u : List σ} (hu : trim p u ≠ [])
    (v : List σ) : ∃ w, trim p (u ++ x :: v) = trim p u ++ w ++ (x :: v).rdropWhile p ∧
      ∀ c ∈ w, p c = true := by
  have hdrop : u.dropWhile p ≠ [] := fun he => hu (by simp [trim, he])
  refine ⟨(u.dropWhile p).rtakeWhile p, ?_, fun c hc => List.mem_rtakeWhile_imp hc⟩
  rw [trim, List.dropWhile_append, if_neg (by simpa using hdrop), rdropWhile_append hx, trim,
    List.rdropWhile_append_rtakeWhile]

theorem dropWhile_flatMap {τ : Type*} {f : τ → List σ} {p : σ → Bool} {q : τ → Bool}
    (h : ∀ t, (∃ c, f t = [c] ∧ p c = q t) ∨ ∃ c cs, f t = c :: cs ∧ p c = false ∧ q t = false)
    (w : List τ) : (w.flatMap f).dropWhile p = (w.dropWhile q).flatMap f := by
  induction w with
  | nil => rfl
  | cons t w ih =>
    rcases h t with ⟨c, hf, hp⟩ | ⟨c, cs, hf, hp, hq⟩
    · rw [List.flatMap_cons, hf, List.singleton_append, List.dropWhile_cons, List.dropWhile_cons, hp]
      split
      · exact ih
      · rw [List.flatMap_cons, hf, List.singleton_append]
    · rw [List.flatMap_cons, hf, List.cons_append, List.dropWhile_cons, List.dropWhile_cons, hp, hq]
      simp [hf]

/-- The word split at its first suffix on which `stop` holds. -/
def before (stop : List σ → Bool) : List σ → Option (List σ × List σ)
  | [] => if stop [] then some ([], []) else none
  | c :: cs =>
    if stop (c :: cs) then some ([], c :: cs)
    else (before stop cs).map (fun p => (c :: p.1, p.2))

theorem before_append {stop : List σ → Bool} {w u v : List σ} (h : before stop w = some (u, v)) :
    w = u ++ v := by
  induction w generalizing u v with
  | nil =>
    simp only [before] at h
    split at h
    · cases h
      rfl
    · cases h
  | cons c cs ih =>
    simp only [before] at h
    split at h
    · cases h
      rfl
    · simp only [Option.map_eq_some_iff] at h
      obtain ⟨⟨u', v'⟩, hb, he⟩ := h
      cases he
      rw [ih hb]
      rfl

theorem before_append_of_not {stop : List σ → Bool} {u : List σ} (w : List σ)
    (h : ∀ c ∈ u, ∀ cs, stop (c :: cs) = false) :
    before stop (u ++ w) = (before stop w).map (fun p => (u ++ p.1, p.2)) := by
  induction u with
  | nil => simp
  | cons c u ih =>
    rw [List.cons_append, before, h c (by simp), ih (fun d hd => h d (by simp [hd]))]
    simp [Function.comp_def]

theorem before_stop {stop : List σ → Bool} {w u v : List σ} (h : before stop w = some (u, v)) :
    stop v = true := by
  induction w generalizing u v with
  | nil =>
    simp only [before] at h
    split at h
    next hs =>
      cases h
      exact hs
    · cases h
  | cons c cs ih =>
    simp only [before] at h
    split at h
    next hs =>
      cases h
      exact hs
    · simp only [Option.map_eq_some_iff] at h
      obtain ⟨⟨u', v'⟩, hb, he⟩ := h
      cases he
      exact ih hb

theorem before_of_stop {stop : List σ → Bool} {v : List σ} (h : stop v = true) (u : List σ) :
    ∃ u' x, before stop (u ++ v) = some (u', x ++ v) ∧ u = u' ++ x := by
  induction u with
  | nil =>
    refine ⟨[], [], ?_, rfl⟩
    cases v <;> simp [before, h]
  | cons c u ih =>
    rw [List.cons_append, before]
    split
    · exact ⟨[], c :: u, rfl, rfl⟩
    · obtain ⟨u', x, hb, hu⟩ := ih
      exact ⟨c :: u', x, by simp [hb], by rw [hu]; rfl⟩

theorem before_append_right {stop : List σ → Bool} (hs : ∀ c cs cs', stop (c :: cs) = stop (c :: cs'))
    (hnil : stop [] = false) {w u v : List σ} (h : before stop w = some (u, v)) (x : List σ) :
    before stop (w ++ x) = some (u, v ++ x) := by
  induction w generalizing u v with
  | nil => simp [before, hnil] at h
  | cons c cs ih =>
    rw [before] at h
    rw [List.cons_append, before, hs c (cs ++ x) cs]
    split at h
    next hc =>
      cases h
      simp [hc]
    next hc =>
      obtain ⟨⟨u', v'⟩, hb, he⟩ := Option.map_eq_some_iff.mp h
      cases he
      simp [hc, ih hb]

end Scan
