import Raticode.Attempt

/-! Two runs of a program from states that a view of the state does not tell apart: the same
is seen of both. -/
namespace Attempt
variable {ε σ τ α β : Type} (view : σ → τ)

def seen (x : EStateM ε σ α) (s : σ) : Except ε α × τ :=
  match x s with
  | .ok a t => (.ok a, view t)
  | .error e t => (.error e, view t)

def Unseeing (x : EStateM ε σ α) : Prop :=
  ∀ s t, view s = view t → seen view x s = seen view x t

variable {view} {s t : σ}

theorem seen_pure (a : α) (h : view s = view t) :
    seen view (pure a : EStateM ε σ α) s = seen view (pure a) t := by
  change (Except.ok a, view s) = (Except.ok a, view t)
  rw [h]

theorem seen_fail (e : ε) (h : view s = view t) :
    seen view (fail e : EStateM ε σ α) s = seen view (fail e) t := by
  change (Except.error e, view s) = (Except.error e, view t)
  rw [h]

theorem seen_lift (x : Except ε α) (h : view s = view t) :
    seen view (lift x : EStateM ε σ α) s = seen view (lift x) t := by
  cases x with
  | ok a => exact seen_pure a h
  | error e => exact seen_fail e h

theorem seen_put {u v : σ} (h : view u = view v) :
    seen view (put u : EStateM ε σ Unit) s = seen view (put v) t := by
  change (Except.ok (), view u) = (Except.ok (), view v)
  rw [h]

theorem seen_bind_of_run {x y : EStateM ε σ α} {f g : α → EStateM ε σ β}
    (hx : seen view x s = seen view y t)
    (hf : ∀ a s' t', x s = .ok a s' → y t = .ok a t' → view s' = view t' →
      seen view (f a) s' = seen view (g a) t') :
    seen view (x >>= f) s = seen view (y >>= g) t := by
  unfold seen at hx hf ⊢
  simp only [bind, EStateM.bind]
  cases hxs : x s with
  | ok a s' =>
    cases hyt : y t with
    | ok b t' =>
      rw [hxs, hyt] at hx
      obtain ⟨hab, hview⟩ := Prod.mk.inj hx
      cases hab
      exact hf a s' t' hxs hyt hview
    | error e t' =>
      rw [hxs, hyt] at hx
      cases (Prod.mk.inj hx).1
  | error e s' =>
    cases hyt : y t with
    | ok b t' =>
      rw [hxs, hyt] at hx
      cases (Prod.mk.inj hx).1
    | error e' t' =>
      rw [hxs, hyt] at hx
      obtain ⟨hab, hview⟩ := Prod.mk.inj hx
      cases hab
      exact Prod.ext rfl hview

theorem seen_bind {x y : EStateM ε σ α} {f g : α → EStateM ε σ β}
    (hx : seen view x s = seen view y t)
    (hf : ∀ a s' t', view s' = view t' → seen view (f a) s' = seen view (g a) t') :
    seen view (x >>= f) s = seen view (y >>= g) t :=
  seen_bind_of_run hx (fun a s' t' _ _ => hf a s' t')

theorem seen_peek {f g : σ → EStateM ε σ α} (h : seen view (f s) s = seen view (g t) t) :
    seen view (peek >>= f) s = seen view (peek >>= g) t := h

namespace Unseeing

theorem pure (a : α) : Unseeing view (Pure.pure a : EStateM ε σ α) := fun _ _ h => seen_pure a h

theorem bind {x : EStateM ε σ α} {f : α → EStateM ε σ β} (hx : Unseeing view x)
    (hf : ∀ a, Unseeing view (f a)) : Unseeing view (x >>= f) :=
  fun s t h => seen_bind (hx s t h) (fun a => hf a)

end Unseeing

end Attempt
