import Mathlib.Tactic.Common

/-! Rules for programs that carry a state and may stop with an error, where the
state survives the error. -/
namespace Attempt
variable {ε σ α β : Type}

def peek : EStateM ε σ σ := fun s => .ok s s

def put (s : σ) : EStateM ε σ Unit := fun _ => .ok () s

def fail (e : ε) : EStateM ε σ α := fun s => .error e s

def lift : Except ε α → EStateM ε σ α
  | .ok a => pure a
  | .error e => fail e

inductive Lap (α : Type) where
  | stop
  | last (a : α)
  | next (a : α)

def Lap.items : Lap α → List α
  | .stop => []
  | .last a => [a]
  | .next a => [a]

/-- The items of a loop. The number of turns is bounded, and the error `e` stands
for running out of them. -/
def collect (e : ε) (body : EStateM ε σ (Lap α)) : ℕ → EStateM ε σ (List α)
  | 0 => fail e
  | n + 1 => do
    match ← body with
    | .stop => pure []
    | .last a => pure [a]
    | .next a => do
      let items ← collect e body n
      pure (a :: items)

theorem bind_ok {x : Except ε α} {f : α → Except ε β} {b : β} (h : (x >>= f) = .ok b) :
    ∃ a, x = .ok a ∧ f a = .ok b := by
  cases x with
  | error e => cases h
  | ok a => exact ⟨a, rfl, h⟩

def require (c : Bool) (e : ε) : Except ε Unit := if c then .ok () else .error e

theorem require_bind {c : Bool} {e : ε} {f : Unit → Except ε β} {b : β} :
    (require c e >>= f) = .ok b ↔ c = true ∧ f () = .ok b := by
  cases c with
  | true => exact ⟨fun h => ⟨rfl, h⟩, fun h => h.2⟩
  | false => exact ⟨fun h => (nomatch h), fun h => (nomatch h.1)⟩

theorem bind_error {x : Except ε α} {f : α → Except ε β} {e : ε} (h : (x >>= f) = .error e) :
    x = .error e ∨ ∃ a, x = .ok a ∧ f a = .error e := by
  cases x with
  | error e' => exact .inl (congrArg Except.error (Except.error.inj h))
  | ok a => exact .inr ⟨a, rfl, h⟩

theorem require_error {c : Bool} {e e' : ε} (h : require c e = .error e') : e' = e := by
  cases c with
  | true => cases h
  | false => exact (Except.error.inj h).symm

theorem mapM_ok {f : α → Except ε β} {g : α → β} {l : List α} (h : ∀ a ∈ l, f a = .ok (g a)) :
    l.mapM f = .ok (l.map g) := by
  induction l with
  | nil => rfl
  | cons a l ih =>
    rw [List.mapM_cons, h a List.mem_cons_self, ih (fun b hb => h b (List.mem_cons_of_mem a hb))]
    rfl

/-- Started in a state, a program that returns establishes `Q` and one that stops
establishes `E`. -/
def Wp (x : EStateM ε σ α) (Q : α → σ → Prop) (E : ε → σ → Prop) (s : σ) : Prop :=
  match x s with
  | .ok a s' => Q a s'
  | .error e s' => E e s'

variable {Q : α → σ → Prop} {E : ε → σ → Prop} {s : σ}

@[simp] theorem wp_pure (a : α) : Wp (pure a : EStateM ε σ α) Q E s ↔ Q a s := Iff.rfl

@[simp] theorem wp_peek {Q : σ → σ → Prop} : Wp (peek : EStateM ε σ σ) Q E s ↔ Q s s := Iff.rfl

@[simp] theorem wp_put {Q : Unit → σ → Prop} (t : σ) :
    Wp (put t : EStateM ε σ Unit) Q E s ↔ Q () t := Iff.rfl

@[simp] theorem wp_fail (e : ε) : Wp (fail e : EStateM ε σ α) Q E s ↔ E e s := Iff.rfl

@[simp] theorem wp_bind (x : EStateM ε σ β) (f : β → EStateM ε σ α) :
    Wp (x >>= f) Q E s ↔ Wp x (fun b s' => Wp (f b) Q E s') E s := by
  simp only [Wp, bind, EStateM.bind]
  cases x s <;> rfl

theorem run_bind_ok {x : EStateM ε σ β} {f : β → EStateM ε σ α} {b : β} {t : σ}
    (h : x s = .ok b t) : (x >>= f) s = f b t := by
  simp only [bind, EStateM.bind, h]

theorem run_bind_error {x : EStateM ε σ β} {f : β → EStateM ε σ α} {e : ε} {t : σ}
    (h : x s = .error e t) : (x >>= f) s = .error e t := by
  simp only [bind, EStateM.bind, h]

theorem wp_lift (x : Except ε α) :
    Wp (lift x : EStateM ε σ α) Q E s ↔
      (∀ a, x = .ok a → Q a s) ∧ ∀ e, x = .error e → E e s := by
  cases x with
  | ok a => simp [lift]
  | error e => simp [lift]

theorem Wp.mono {x : EStateM ε σ α} {Q' : α → σ → Prop} {E' : ε → σ → Prop} (h : Wp x Q E s)
    (hq : ∀ a t, Q a t → Q' a t) (he : ∀ e t, E e t → E' e t) : Wp x Q' E' s := by
  unfold Wp at h ⊢
  cases hx : x s with
  | ok a t =>
    rw [hx] at h
    exact hq a t h
  | error e t =>
    rw [hx] at h
    exact he e t h

theorem Wp.ok {x : EStateM ε σ α} {a : α} {t : σ} (h : Wp x Q E s) (hx : x s = .ok a t) : Q a t := by
  unfold Wp at h
  rw [hx] at h
  exact h

theorem Wp.error {x : EStateM ε σ α} {e : ε} {t : σ} (h : Wp x Q E s) (hx : x s = .error e t) :
    E e t := by
  unfold Wp at h
  rw [hx] at h
  exact h

def Preserves (P : σ → Prop) (x : EStateM ε σ α) : Prop :=
  ∀ s, P s → Wp x (fun _ => P) (fun _ => P) s

namespace Preserves
variable {P : σ → Prop}

theorem pure (a : α) : Preserves P (Pure.pure a : EStateM ε σ α) := fun _ h => h

theorem fail (e : ε) : Preserves P (Attempt.fail e : EStateM ε σ α) := fun _ h => h

theorem lift (x : Except ε α) : Preserves P (Attempt.lift x : EStateM ε σ α) := by
  cases x with
  | ok a => exact pure a
  | error e => exact fail e

theorem put {t : σ} (h : P t) : Preserves P (Attempt.put t : EStateM ε σ Unit) := fun _ _ => h

theorem bind {x : EStateM ε σ β} {f : β → EStateM ε σ α} (hx : Preserves P x)
    (hf : ∀ b, Preserves P (f b)) : Preserves P (x >>= f) := by
  intro s hs
  rw [wp_bind]
  exact (hx s hs).mono (fun b t ht => hf b t ht) (fun _ _ ht => ht)

theorem peek {f : σ → EStateM ε σ α} (hf : ∀ s, P s → Preserves P (f s)) :
    Preserves P (Attempt.peek >>= f) := fun s hs => hf s hs s hs

end Preserves

theorem wp_collect_end {body : EStateM ε σ (Lap α)} {e : ε} {Z : σ → Prop}
    (hbody : ∀ s, Wp body (fun lap t => (∀ a, lap ≠ .next a) → Z t) (fun _ _ => True) s) (n : ℕ)
    (s : σ) : Wp (collect e body n) (fun _ t => Z t) (fun _ _ => True) s := by
  induction n generalizing s with
  | zero => trivial
  | succ n ih =>
    unfold collect
    rw [wp_bind]
    refine (hbody s).mono (fun lap t h => ?_) (fun _ _ _ => trivial)
    cases lap with
    | stop => exact h (fun a ha => by cases ha)
    | last b => exact h (fun a ha => by cases ha)
    | next b =>
      rw [wp_bind]
      exact (ih t).mono (fun _ _ hz => hz) (fun _ _ _ => trivial)

end Attempt
