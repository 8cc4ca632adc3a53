import Mathlib.Algebra.Order.BigOperators.Group.Finset
import Mathlib.Data.Fintype.BigOperators
import Mathlib.Data.Finset.Option

/-! Loops of the form `while changed`: passes over a list of keys, each with a flag
that says whether it changed the table, repeated until one changes nothing. -/
namespace Fixpoint

variable {T κ : Type*} {step : T → κ → T × Bool} {keys : List κ} {t : T} {P : T → Prop}

def sweep (step : T → κ → T × Bool) : List κ → T → T × Bool
  | [], t => (t, false)
  | k :: ks, t => ((sweep step ks (step t k).1).1, (step t k).2 || (sweep step ks (step t k).1).2)

/-- Passes until one changes nothing, at most `fuel` of them. -/
def untilStable (pass : T → T × Bool) : ℕ → T → T
  | 0, t => t
  | fuel + 1, t => if (pass t).2 then untilStable pass fuel (pass t).1 else (pass t).1

theorem sweep_induct (hstep : ∀ t, ∀ k ∈ keys, P t → P (step t k).1) (h : P t) :
    P (sweep step keys t).1 := by
  induction keys generalizing t with
  | nil => exact h
  | cons k ks ih =>
    exact ih (fun t k hk => hstep t k (List.mem_cons_of_mem _ hk)) (hstep t k List.mem_cons_self h)

theorem untilStable_induct {pass : T → T × Bool} (hpass : ∀ t, P t → P (pass t).1) (fuel : ℕ)
    (h : P t) : P (untilStable pass fuel t) := by
  induction fuel generalizing t with
  | zero => exact h
  | succ fuel ih =>
    simp only [untilStable]
    split
    · exact ih (hpass t h)
    · exact hpass t h

theorem sweep_stable (hsame : ∀ t k, (step t k).2 = false → (step t k).1 = t)
    (h : (sweep step keys t).2 = false) :
    (sweep step keys t).1 = t ∧ ∀ k ∈ keys, (step t k).2 = false := by
  induction keys with
  | nil => exact ⟨rfl, nofun⟩
  | cons k ks ih =>
    simp only [sweep, Bool.or_eq_false_iff] at h
    have hk := hsame t k h.1
    rw [hk] at h
    obtain ⟨h₁, h₂⟩ := ih h.2
    refine ⟨?_, fun k' hk' => ?_⟩
    · simp only [sweep, hk, h₁]
    · rcases List.mem_cons.mp hk' with rfl | hk'
      · exact h.1
      · exact h₂ k' hk'

section Measure

variable {μ : T → ℕ}

def Decreases (μ : T → ℕ) (t : T) (r : T × Bool) : Prop :=
  μ r.1 ≤ μ t ∧ (r.2 = true → μ r.1 < μ t)

theorem sweep_decreases (hinv : ∀ t, ∀ k ∈ keys, P t → P (step t k).1)
    (hμ : ∀ t, ∀ k ∈ keys, P t → Decreases μ t (step t k)) (h : P t) :
    Decreases μ t (sweep step keys t) := by
  induction keys generalizing t with
  | nil => exact ⟨le_rfl, nofun⟩
  | cons k ks ih =>
    obtain ⟨h₁, h₂⟩ := hμ t k List.mem_cons_self h
    obtain ⟨i₁, i₂⟩ := ih (fun t k hk => hinv t k (List.mem_cons_of_mem _ hk))
      (fun t k hk => hμ t k (List.mem_cons_of_mem _ hk)) (hinv t k List.mem_cons_self h)
    refine ⟨i₁.trans h₁, fun hc => ?_⟩
    rcases Bool.or_eq_true_iff.mp hc with hc | hc
    · exact i₁.trans_lt (h₂ hc)
    · exact (i₂ hc).trans_le h₁

theorem untilStable_stable {pass : T → T × Bool} (hinv : ∀ t, P t → P (pass t).1)
    (hμ : ∀ t, P t → Decreases μ t (pass t)) (hsame : ∀ t, (pass t).2 = false → (pass t).1 = t)
    {fuel : ℕ} (hfuel : μ t < fuel) (h : P t) :
    P (untilStable pass fuel t) ∧ (pass (untilStable pass fuel t)).2 = false := by
  induction fuel generalizing t with
  | zero => omega
  | succ fuel ih =>
    simp only [untilStable]
    split
    next hc =>
      have hlt := (hμ t h).2 hc
      exact ih (by omega) (hinv t h)
    next hc =>
      have hc' : (pass t).2 = false := by simpa using hc
      rw [hsame t hc']
      exact ⟨h, hc'⟩

theorem untilStable_more {pass : T → T × Bool} (hsame : ∀ t, (pass t).2 = false → (pass t).1 = t)
    {fuel : ℕ} (h : (pass (untilStable pass fuel t)).2 = false) (more : ℕ) :
    untilStable pass (fuel + more) t = untilStable pass fuel t := by
  induction fuel generalizing t with
  | zero =>
    cases more with
    | zero => rfl
    | succ more =>
      change (pass t).2 = false at h
      simp only [untilStable, h, Bool.false_eq_true, if_false]
      exact hsame t h
  | succ fuel ih =>
    rw [Nat.add_right_comm]
    simp only [untilStable] at h ⊢
    split at h
    next hc =>
      rw [if_pos hc, if_pos hc]
      exact ih h
    next hc => rw [if_neg hc, if_neg hc]

theorem settles (hinv : ∀ t, ∀ k ∈ keys, P t → P (step t k).1)
    (hμ : ∀ t, ∀ k ∈ keys, P t → Decreases μ t (step t k))
    (hsame : ∀ t k, (step t k).2 = false → (step t k).1 = t) {fuel : ℕ} (hfuel : μ t < fuel)
    (h : P t) : P (untilStable (sweep step keys) fuel t) ∧
      ∀ k ∈ keys, (step (untilStable (sweep step keys) fuel t) k).2 = false := by
  have hloop : P (untilStable (sweep step keys) fuel t) ∧
      (sweep step keys (untilStable (sweep step keys) fuel t)).2 = false :=
    untilStable_stable (fun t ht => sweep_induct hinv ht) (fun t ht => sweep_decreases hinv hμ ht)
      (fun t hc => (sweep_stable hsame hc).1) hfuel h
  obtain ⟨h₁, h₂⟩ := hloop
  exact ⟨h₁, (sweep_stable hsame h₂).2⟩

def Grows (ν : T → ℕ) (t : T) (r : T × Bool) : Prop := ν t ≤ ν r.1 ∧ (r.2 = true → ν t < ν r.1)

theorem Grows.decreases {ν : T → ℕ} {b : ℕ} {r : T × Bool} (h : Grows ν t r) (hb : ν r.1 ≤ b) :
    Decreases (fun t => b - ν t) t r :=
  ⟨Nat.sub_le_sub_left h.1 b, fun hc => Nat.sub_lt_sub_left ((h.2 hc).trans_le hb) (h.2 hc)⟩

end Measure

section Table

variable {α : Type*}

def total (ids : Finset κ) (t : κ → Finset α) : ℕ := ∑ k ∈ ids, (t k).card

theorem total_update [DecidableEq κ] {ids : Finset κ} {t : κ → Finset α} {k : κ} {s : Finset α}
    (hk : k ∈ ids) : total ids (Function.update t k s) + (t k).card = total ids t + s.card := by
  have hsplit : ∀ u : κ → Finset α, total ids u = (u k).card + ∑ i ∈ ids.erase k, (u i).card :=
    fun u => (Finset.add_sum_erase ids (fun i => (u i).card) hk).symm
  have hrest : ∑ i ∈ ids.erase k, (Function.update t k s i).card = ∑ i ∈ ids.erase k, (t i).card :=
    Finset.sum_congr rfl fun i hi => by rw [Function.update_of_ne (Finset.ne_of_mem_erase hi)]
  rw [hsplit, hsplit t, hrest, Function.update_self]
  omega

theorem total_le {ids : Finset κ} {t : κ → Finset α} {b : ℕ}
    (h : ∀ k ∈ ids, (t k).card ≤ b) : total ids t ≤ ids.card * b := by
  simpa [total] using Finset.sum_le_card_nsmul ids (fun k => (t k).card) b h

theorem card_nodup_lists_le [DecidableEq α] (letters : Finset α) (S : Finset (List α))
    (h : ∀ l ∈ S, l.Nodup ∧ ∀ x ∈ l, x ∈ letters) :
    S.card ≤ (letters.card + 1) ^ letters.card := by
  have hlen : ∀ l ∈ S, l.length ≤ letters.card := fun l hl => by
    rw [← List.toFinset_card_of_nodup (h l hl).1]
    exact Finset.card_le_card (fun x hx => (h l hl).2 x (List.mem_toFinset.mp hx))
  have hcard : (Fintype.piFinset (fun _ : Fin letters.card => letters.insertNone)).card =
      (letters.card + 1) ^ letters.card := by
    simp [Fintype.card_piFinset]
  rw [← hcard]
  refine Finset.card_le_card_of_injOn (fun l i => l[i.val]?) (fun l hl => ?_)
    (fun a ha b hb hab => ?_)
  · rw [Finset.mem_coe, Fintype.mem_piFinset]
    intro i
    rw [Finset.mem_insertNone]
    exact fun x hx => (h l hl).2 x (List.mem_of_getElem? hx)
  · refine List.ext_getElem? fun i => ?_
    by_cases hi : i < letters.card
    · exact congrFun hab ⟨i, hi⟩
    · rw [List.getElem?_eq_none ((hlen a ha).trans (not_lt.mp hi)),
        List.getElem?_eq_none ((hlen b hb).trans (not_lt.mp hi))]

end Table

end Fixpoint
