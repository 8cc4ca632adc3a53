import Mathlib.Data.List.Basic

/-! Runs of a step function whose every step meets a condition on the state it starts from,
and what such a run preserves. -/
namespace Raticode.Guarded

variable {σ α : Type*} (step : σ → α → σ) (guard : σ → α → Prop)

def Along : σ → List α → Prop
  | _, [] => True
  | s, a :: as => guard s a ∧ Along (step s a) as

instance decidableAlong [∀ s a, Decidable (guard s a)] : ∀ s as, Decidable (Along step guard s as)
  | _, [] => inferInstanceAs (Decidable True)
  | s, a :: as =>
    have : Decidable (Along step guard (step s a) as) := decidableAlong (step s a) as
    inferInstanceAs (Decidable (guard s a ∧ Along step guard (step s a) as))

variable {step guard} {s : σ}

theorem Along.invariant {I : σ → Prop} (hstep : ∀ s a, I s → guard s a → I (step s a)) (hs : I s)
    {as : List α} (h : Along step guard s as) : I (as.foldl step s) := by
  induction as generalizing s with
  | nil => exact hs
  | cons a as ih => exact ih (hstep s a hs h.1) h.2

theorem along_append {as bs : List α} :
    Along step guard s (as ++ bs) ↔ Along step guard s as ∧ Along step guard (as.foldl step s) bs := by
  induction as generalizing s with
  | nil => exact ⟨fun h => ⟨trivial, h⟩, fun h => h.2⟩
  | cons a as ih =>
    change guard s a ∧ Along step guard (step s a) (as ++ bs) ↔ _
    rw [ih, ← and_assoc]
    rfl

end Raticode.Guarded
