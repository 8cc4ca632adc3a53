import Raticode.Attempt

/-! Two programs that carry a state and may stop with an error, run side by side.
One follows the other where it returns what the other returns and stops where the
other stops, up to given relations; errors of the other may be excused. -/
namespace Attempt
variable {ε σ α β α' β' : Type}

def Alike (E : ε → ε → Prop) (A : α → α' → Prop) : Except ε α → Except ε α' → Prop
  | .ok a, .ok a' => A a a'
  | .error e, .error e' => E e e'
  | _, _ => False

section Alike
variable {E : ε → ε → Prop} {A : α → α' → Prop} {B : β → β' → Prop}

theorem Alike.bind {x : Except ε α} {x' : Except ε α'} {f : α → Except ε β} {f' : α' → Except ε β'}
    (h : Alike E A x x') (hf : ∀ a a', A a a' → Alike E B (f a) (f' a')) :
    Alike E B (x >>= f) (x' >>= f') := by
  cases x with
  | error e =>
    cases x' with
    | error e' => exact h
    | ok a' => exact h.elim
  | ok a =>
    cases x' with
    | error e' => exact h.elim
    | ok a' => exact hf a a' h

theorem Alike.refl {A : α → α → Prop} (hE : ∀ e, E e e) (hA : ∀ a, A a a) (x : Except ε α) :
    Alike E A x x := by
  cases x with
  | error e => exact hE e
  | ok a => exact hA a

end Alike

/-- What is asked of the ends of two programs. Where the comparison is selective, it is
about results of the second that are singled out, whatever its errors, and the first
may be allowed to stop there. Otherwise errors of the second that are not excused
correspond to errors of the first. -/
structure Accord (ε σ : Type) where
  selective : Prop
  mayStop : Prop
  excused : ε → Prop
  errors : ε → σ → ε → Prop

/-- What the first program does where the second returns a result that `P` singles
out, and where it stops with an error that is not excused. -/
def Mirrors (A : Accord ε σ) (P : α' → Prop) (x : EStateM ε σ α) (x' : EStateM ε σ α')
    (Q : α → σ → α' → σ → Prop) (s s' : σ) : Prop :=
  match x' s' with
  | .ok a' t' => (A.selective → P a') → (∃ a t, x s = .ok a t ∧ Q a t a' t') ∨
      (A.selective ∧ A.mayStop ∧ ∃ e t, x s = .error e t)
  | .error e' _ => A.selective ∨ A.excused e' ∨ ∃ e t, x s = .error e t ∧ A.errors e t e'

section Mirrors
variable {A : Accord ε σ} {P : α' → Prop} {s s' : σ}
  {x : EStateM ε σ α} {x' : EStateM ε σ α'} {Q : α → σ → α' → σ → Prop}

abbrev Any (α : Type) : α → Prop := fun _ => True

theorem mirrors_ok {a : α} {t : σ} {a' : α'} {t' : σ} (hx : x s = .ok a t) (hx' : x' s' = .ok a' t')
    (h : (A.selective → P a') → Q a t a' t') : Mirrors A P x x' Q s s' := by
  unfold Mirrors
  rw [hx']
  exact fun hP => .inl ⟨a, t, hx, h hP⟩

theorem mirrors_pure {a : α} {a' : α'} (h : (A.selective → P a') → Q a s a' s') :
    Mirrors A P (pure a : EStateM ε σ α) (pure a' : EStateM ε σ α') Q s s' :=
  mirrors_ok rfl rfl h

theorem mirrors_error {e e' : ε} {t t' : σ} (hx : x s = .error e t) (hx' : x' s' = .error e' t')
    (h : A.errors e t e') : Mirrors A P x x' Q s s' := by
  unfold Mirrors
  rw [hx']
  exact .inr (.inr ⟨e, t, hx, h⟩)

theorem mirrors_fail {e e' : ε} (h : A.errors e s e') :
    Mirrors A P (fail e : EStateM ε σ α) (fail e' : EStateM ε σ α') Q s s' :=
  mirrors_error rfl rfl h

theorem mirrors_excused {e' : ε} {t' : σ} (hx' : x' s' = .error e' t') (h : A.excused e') :
    Mirrors A P x x' Q s s' := by
  unfold Mirrors
  rw [hx']
  exact .inr (.inl h)

theorem mirrors_ignored {e' : ε} {t' : σ} (hsel : A.selective) (hx' : x' s' = .error e' t') :
    Mirrors A P x x' Q s s' := by
  unfold Mirrors
  rw [hx']
  exact .inl hsel

theorem mirrors_stop {e : ε} {t : σ} (hsel : A.selective) (hstop : A.mayStop)
    (hx : x s = .error e t) : Mirrors A P x x' Q s s' := by
  unfold Mirrors
  cases x' s' with
  | ok a' t' => exact fun _ => .inr ⟨hsel, hstop, e, t, hx⟩
  | error e' t' => exact .inl hsel

theorem mirrors_put {t t' : σ} {P : Unit → Prop} {Q : Unit → σ → Unit → σ → Prop}
    (h : Q () t () t') : Mirrors A P (put t) (put t') Q s s' :=
  mirrors_ok rfl rfl (fun _ => h)

theorem Mirrors.bind {R : α → σ → α' → σ → Prop} {P' : β' → Prop} {Q : β → σ → β' → σ → Prop}
    {f : α → EStateM ε σ β} {f' : α' → EStateM ε σ β'} (h : Mirrors A P x x' R s s')
    (hP : A.selective → ∀ a' t' b' u', f' a' t' = .ok b' u' → P' b' → P a')
    (hf : ∀ a t a' t', R a t a' t' → Mirrors A P' (f a) (f' a') Q t t') :
    Mirrors A P' (x >>= f) (x' >>= f') Q s s' := by
  unfold Mirrors at h ⊢
  simp only [Bind.bind, EStateM.bind] at h ⊢
  cases hx' : x' s' with
  | error e' t' =>
    rw [hx'] at h
    rcases h with h | h | ⟨e, t, hx, h⟩
    · exact .inl h
    · exact .inr (.inl h)
    · exact .inr (.inr ⟨e, t, by rw [hx], h⟩)
  | ok a' t' =>
    rw [hx'] at h
    have hrest (a : α) (t : σ) (hR : R a t a' t') := hf a t a' t' hR
    unfold Mirrors at hrest
    simp only
    cases hf' : f' a' t' with
    | ok b' u' =>
      simp only [hf'] at hrest
      intro hb
      rcases h (fun hsel => hP hsel a' t' b' u' hf' (hb hsel)) with ⟨a, t, hx, hR⟩ | ⟨hsel, hstop, e, t, hx⟩
      · rcases hrest a t hR hb with ⟨b, u, hfa, hQ⟩ | ⟨hsel, hstop, e, u, hfa⟩
        · exact .inl ⟨b, u, by rw [hx]; exact hfa, hQ⟩
        · exact .inr ⟨hsel, hstop, e, u, by rw [hx]; exact hfa⟩
      · exact .inr ⟨hsel, hstop, e, t, by rw [hx]⟩
    | error e' u' =>
      simp only [hf'] at hrest
      by_cases hsel : A.selective
      · exact .inl hsel
      · rcases h (fun hs => absurd hs hsel) with ⟨a, t, hx, hR⟩ | ⟨hs, -⟩
        · rcases hrest a t hR with hr | hr | ⟨e, u, hfa, he⟩
          · exact .inl hr
          · exact .inr (.inl hr)
          · exact .inr (.inr ⟨e, u, by rw [hx]; exact hfa, he⟩)
        · exact absurd hs hsel

theorem Mirrors.andThen {R : α → σ → α' → σ → Prop} {P' : β' → Prop} {Q : β → σ → β' → σ → Prop}
    {f : α → EStateM ε σ β} {f' : α' → EStateM ε σ β'} (h : Mirrors A (Any α') x x' R s s')
    (hf : ∀ a t a' t', R a t a' t' → Mirrors A P' (f a) (f' a') Q t t') :
    Mirrors A P' (x >>= f) (x' >>= f') Q s s' :=
  h.bind (fun _ _ _ _ _ _ _ => trivial) hf

theorem mirrors_peek {P : β' → Prop} {f : σ → EStateM ε σ β} {f' : σ → EStateM ε σ β'}
    {Q : β → σ → β' → σ → Prop} (h : Mirrors A P (f s) (f' s') Q s s') :
    Mirrors A P (peek >>= f) (peek >>= f') Q s s' := h

theorem mirrors_lift {y : Except ε α} {y' : Except ε α'} {E : ε → ε → Prop} {B : α → α' → Prop}
    (h : Alike E B y y') (hE : ∀ e e', E e e' → A.errors e s e')
    (hQ : ∀ a a', B a a' → Q a s a' s') :
    Mirrors A P (lift y : EStateM ε σ α) (lift y' : EStateM ε σ α') Q s s' := by
  cases y with
  | error e =>
    cases y' with
    | error e' => exact mirrors_fail (hE e e' h)
    | ok a' => exact h.elim
  | ok a =>
    cases y' with
    | error e' => exact h.elim
    | ok a' => exact mirrors_pure (fun _ => hQ a a' h)

theorem Mirrors.mono {P' : α' → Prop} {Q' : α → σ → α' → σ → Prop} (h : Mirrors A P x x' Q s s')
    (hP : ∀ a', P' a' → P a') (hQ : ∀ a t a' t', Q a t a' t' → Q' a t a' t') :
    Mirrors A P' x x' Q' s s' := by
  unfold Mirrors at h ⊢
  cases hx' : x' s' with
  | error e' t' =>
    rw [hx'] at h
    exact h
  | ok a' t' =>
    rw [hx'] at h
    intro ha
    rcases h (fun hsel => hP a' (ha hsel)) with ⟨a, t, hx, hQ'⟩ | hstop
    · exact .inl ⟨a, t, hx, hQ a t a' t' hQ'⟩
    · exact .inr hstop

theorem Mirrors.runs (h : Mirrors A P x x' Q s s') :
    Mirrors A P x x' (fun a t a' t' => Q a t a' t' ∧ x s = .ok a t ∧ x' s' = .ok a' t') s s' := by
  unfold Mirrors at h ⊢
  cases hx' : x' s' with
  | error e' t' =>
    rw [hx'] at h
    exact h
  | ok a' t' =>
    rw [hx'] at h
    intro ha
    rcases h ha with ⟨a, t, hx, hQ⟩ | hstop
    · exact .inl ⟨a, t, hx, hQ, hx, rfl⟩
    · exact .inr hstop

theorem Mirrors.ok {a' : α'} {t' : σ} (h : Mirrors A P x x' Q s s') (hx' : x' s' = .ok a' t')
    (hP : A.selective → P a') : (∃ a t, x s = .ok a t ∧ Q a t a' t') ∨
      (A.selective ∧ A.mayStop ∧ ∃ e t, x s = .error e t) := by
  unfold Mirrors at h
  rw [hx'] at h
  exact h hP

theorem Mirrors.error {e' : ε} {t' : σ} (h : Mirrors A P x x' Q s s') (hx' : x' s' = .error e' t') :
    A.selective ∨ A.excused e' ∨ ∃ e t, x s = .error e t ∧ A.errors e t e' := by
  unfold Mirrors at h
  rw [hx'] at h
  exact h

inductive LapAlike (B : α → α' → Prop) : Lap α → Lap α' → Prop
  | stop : LapAlike B .stop .stop
  | last {a : α} {a' : α'} (h : B a a') : LapAlike B (.last a) (.last a')
  | next {a : α} {a' : α'} (h : B a a') : LapAlike B (.next a) (.next a')

theorem mirrors_collect {body : EStateM ε σ (Lap α)} {body' : EStateM ε σ (Lap α')} {e e' : ε}
    {B : α → α' → Prop} {R : σ → σ → Prop} (hX : A.excused e')
    (hbody : ∀ s s', R s s' → Mirrors A (fun lap => ∀ a ∈ lap.items, P a) body body'
      (fun lap t lap' t' => LapAlike B lap lap' ∧ R t t') s s')
    {n n' : ℕ} (hn : n' ≤ n) (hs : R s s') :
    Mirrors A (fun items => ∀ a ∈ items, P a) (collect e body n) (collect e' body' n')
      (fun items t items' t' => List.Forall₂ B items items' ∧ R t t') s s' := by
  induction n' generalizing n s s' with
  | zero => exact mirrors_excused rfl hX
  | succ n' ih =>
    obtain ⟨n, rfl⟩ : ∃ m, n = m + 1 := ⟨n - 1, by omega⟩
    refine (hbody s s' hs).bind ?_ ?_
    · intro _ lap t items u hrest hitems a ha
      cases lap with
      | stop => cases ha
      | last b =>
        cases hrest
        exact hitems a ha
      | next b =>
        simp only [Bind.bind, EStateM.bind] at hrest
        split at hrest
        · cases hrest
          exact hitems a (by simpa [Lap.items] using .inl (by simpa [Lap.items] using ha))
        · cases hrest
    · rintro lap t lap' t' ⟨hlap, ht⟩
      cases hlap with
      | stop => exact mirrors_pure (fun _ => ⟨.nil, ht⟩)
      | last h => exact mirrors_pure (fun _ => ⟨.cons h .nil, ht⟩)
      | next h =>
        refine (ih (by omega) ht).bind ?_ ?_
        · intro _ items u more v hrest hmore a ha
          cases hrest
          exact hmore a (List.mem_cons_of_mem _ ha)
        · rintro items u items' u' ⟨hitems, hu⟩
          exact mirrors_pure (fun _ => ⟨.cons h hitems, hu⟩)

end Mirrors

end Attempt
