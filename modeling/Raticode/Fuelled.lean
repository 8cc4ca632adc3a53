import Mathlib.Order.Lattice
import Mathlib.Data.Nat.Basic

/-! Recursions that are given fuel. One that returns gives the same result for every
amount of fuel from some amount on. -/
namespace Fuelled
variable {α β γ : Type*}

/-- From some amount of fuel on the result is `a`. -/
def Gives (run : ℕ → Option α) (a : α) : Prop := ∃ n, ∀ m ≥ n, run m = some a

def Returns (run : ℕ → Option α) : Prop := ∃ a, Gives run a

theorem Gives.pure (a : α) : Gives (fun _ => some a) a := ⟨0, fun _ _ => rfl⟩

theorem Gives.bind {f : ℕ → Option α} {g : α → ℕ → Option β} {a : α} {b : β} (hf : Gives f a)
    (hg : Gives (g a) b) : Gives (fun n => (f n).bind (fun a => g a n)) b := by
  obtain ⟨n, hn⟩ := hf
  obtain ⟨k, hk⟩ := hg
  refine ⟨max n k, fun m hm => ?_⟩
  simp only [hn m (le_trans (le_max_left n k) hm), Option.bind_some]
  exact hk m (le_trans (le_max_right n k) hm)

theorem Gives.map {run : ℕ → Option α} {a : α} (f : α → β) (h : Gives run a) :
    Gives (fun n => (run n).map f) (f a) := by
  obtain ⟨n, hn⟩ := h
  refine ⟨n, fun m hm => ?_⟩
  simp only [hn m hm, Option.map_some]

theorem Gives.succ {f : ℕ → Option α} {a : α} (h : Gives (fun n => f (n + 1)) a) : Gives f a := by
  obtain ⟨n, hn⟩ := h
  refine ⟨n + 1, fun m hm => ?_⟩
  obtain ⟨k, rfl⟩ := Nat.exists_eq_add_of_le' (Nat.one_le_of_lt hm)
  exact hn k (by omega)

theorem Returns.pure (a : α) : Returns (fun _ => some a) := ⟨a, .pure a⟩

theorem Returns.succ {f : ℕ → Option α} (h : Returns (fun n => f (n + 1))) : Returns f :=
  h.imp (fun _ h => h.succ)

theorem Returns.bind {f : ℕ → Option α} {g : α → ℕ → Option β} (hf : Returns f)
    (hg : ∀ a, Returns (g a)) : Returns (fun n => (f n).bind (fun a => g a n)) := by
  obtain ⟨a, ha⟩ := hf
  obtain ⟨b, hb⟩ := hg a
  exact ⟨b, ha.bind hb⟩

theorem Returns.mapM {f : β → ℕ → Option α} {l : List β} (h : ∀ b ∈ l, Returns (f b)) :
    Returns (fun n => l.mapM (fun b => f b n)) := by
  induction l with
  | nil => exact .pure []
  | cons b l ih =>
    simp only [List.mapM_cons]
    exact (h b List.mem_cons_self).bind (fun a =>
      (ih (fun c hc => h c (List.mem_cons_of_mem _ hc))).bind (fun as => .pure (a :: as)))

theorem Returns.foldlM {f : γ → β → ℕ → Option γ} (h : ∀ c b, Returns (f c b)) (l : List β)
    (c : γ) : Returns (fun n => l.foldlM (fun c b => f c b n) c) := by
  induction l generalizing c with
  | nil => exact .pure c
  | cons b l ih =>
    simp only [List.foldlM_cons]
    exact (h c b).bind ih

end Fuelled
