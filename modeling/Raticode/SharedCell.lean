import Mathlib.Data.List.Basic

/-! Programs that share one cell. Each read and each write is a step of its own, and between two
steps of a program any other program may take a step. -/
namespace SharedCell

/-- A program over a cell that holds a `σ`. What it reads comes with a moment, such as a reading
of a clock. -/
inductive Program (σ τ α : Type) where
  | done (result : α)
  | read (next : σ → τ → Program σ τ α)
  | write (value : σ) (next : Program σ τ α)

variable {σ τ α β κ : Type}

namespace Program

def bind : Program σ τ α → (α → Program σ τ β) → Program σ τ β
  | .done a, f => f a
  | .read next, f => .read (fun value moment => (next value moment).bind f)
  | .write value next, f => .write value (next.bind f)

theorem bind_assoc {γ : Type} (x : Program σ τ α) (f : α → Program σ τ β) (g : β → Program σ τ γ) :
    (x.bind f).bind g = x.bind (fun a => (f a).bind g) := by
  induction x with
  | done a => rfl
  | read next ih =>
    apply congrArg read
    funext value moment
    exact ih value moment
  | write value next ih => exact congrArg (write value) ih

def alone (moment : τ) : Program σ τ α → σ → α × List σ
  | .done a, _ => (a, [])
  | .read next, cell => alone moment (next cell moment) cell
  | .write value next, _ =>
    let rest := alone moment next value
    (rest.1, value :: rest.2)

@[simp] theorem alone_done (moment : τ) (a : α) (cell : σ) :
    (done a : Program σ τ α).alone moment cell = (a, []) := rfl

@[simp] theorem alone_read (moment : τ) (next : σ → τ → Program σ τ α) (cell : σ) :
    (read next).alone moment cell = (next cell moment).alone moment cell := rfl

@[simp] theorem alone_write (moment : τ) (value : σ) (next : Program σ τ α) (cell : σ) :
    (write value next).alone moment cell =
      ((next.alone moment value).1, value :: (next.alone moment value).2) := rfl

theorem alone_bind (moment : τ) (x : Program σ τ α) (f : α → Program σ τ β) (cell : σ) :
    (x.bind f).alone moment cell =
      let first := x.alone moment cell
      let last := (f first.1).alone moment (first.2.getLast?.getD cell)
      (last.1, first.2 ++ last.2) := by
  induction x generalizing cell with
  | done a => rfl
  | read next ih => exact ih cell moment cell
  | write value next ih =>
    have hlast : ∀ values : List σ,
        (value :: values).getLast?.getD cell = values.getLast?.getD value := by
      intro values
      cases values with
      | nil => rfl
      | cons v values => simp [List.getLast?_cons]
    simp only [bind, alone_write, ih, hlast, List.cons_append]

def Keeps (P : σ → Prop) : Program σ τ α → Prop
  | .done _ => True
  | .read next => ∀ value moment, P value → (next value moment).Keeps P
  | .write value next => P value ∧ next.Keeps P

variable {P : σ → Prop}

theorem Keeps.bind {x : Program σ τ α} {f : α → Program σ τ β} (hx : x.Keeps P)
    (hf : ∀ a, (f a).Keeps P) : (x.bind f).Keeps P := by
  induction x with
  | done a => exact hf a
  | read next ih => exact fun value moment hv => ih value moment (hx value moment hv)
  | write value next ih => exact ⟨hx.1, ih hx.2⟩

theorem Keeps.alone {x : Program σ τ α} (hx : x.Keeps P) (moment : τ) {cell : σ} (hc : P cell) :
    ∀ value ∈ (x.alone moment cell).2, P value := by
  induction x generalizing cell with
  | done a => exact fun value hv => absurd hv List.not_mem_nil
  | read next ih => exact ih cell moment (hx cell moment hc) hc
  | write value next ih =>
    intro v hv
    rcases List.mem_cons.mp hv with rfl | hrest
    · exact hx.1
    · exact ih hx.2 hx.1 v hrest

end Program

structure Thread (κ σ τ α : Type) where
  call : κ
  program : Program σ τ α
  seen : Option σ

structure Pool (κ σ τ α : Type) where
  cell : σ
  threads : List (Thread κ σ τ α)

inductive Act (κ τ : Type) where
  | starts (call : κ)
  | steps (i : ℕ) (moment : τ)

def Thread.advance (t : Thread κ σ τ α) (cell : σ) (moment : τ) : σ × Thread κ σ τ α :=
  match t.program with
  | .done _ => (cell, t)
  | .read next => (cell, { t with program := next cell moment, seen := some cell })
  | .write value next => (value, { t with program := next, seen := some value })

namespace Thread
variable {t : Thread κ σ τ α} {cell : σ} {moment : τ}

theorem advance_done {result : α} (h : t.program = .done result) : t.advance cell moment = (cell, t) := by
  simp only [advance, h]

theorem advance_read {next : σ → τ → Program σ τ α} (h : t.program = .read next) :
    t.advance cell moment = (cell, { t with program := next cell moment, seen := some cell }) := by
  simp only [advance, h]

theorem advance_write {value : σ} {next : Program σ τ α} (h : t.program = .write value next) :
    t.advance cell moment = (value, { t with program := next, seen := some value }) := by
  simp only [advance, h]

end Thread

namespace Pool
variable (code : κ → Program σ τ α)

def act (p : Pool κ σ τ α) : Act κ τ → Pool κ σ τ α
  | .starts call => { p with threads := p.threads ++ [⟨call, code call, none⟩] }
  | .steps i moment =>
    match p.threads[i]? with
    | none => p
    | some t =>
      let after := t.advance p.cell moment
      ⟨after.1, p.threads.set i after.2⟩

def run (p : Pool κ σ τ α) (acts : List (Act κ τ)) : Pool κ σ τ α := acts.foldl (act code) p

variable {code} {p : Pool κ σ τ α}

theorem act_steps {i : ℕ} {moment : τ} {t : Thread κ σ τ α} (h : p.threads[i]? = some t) :
    act code p (.steps i moment) =
      ⟨(t.advance p.cell moment).1, p.threads.set i (t.advance p.cell moment).2⟩ := by
  simp only [act, h]

theorem act_absent {i : ℕ} {moment : τ} (h : p.threads[i]? = none) :
    act code p (.steps i moment) = p := by
  simp only [act, h]

theorem getElem?_act {a : Act κ τ} {j : ℕ} {t : Thread κ σ τ α} (h : (act code p a).threads[j]? = some t) :
    p.threads[j]? = some t ∨
    (∃ call, a = .starts call ∧ t = ⟨call, code call, none⟩ ∧ j = p.threads.length) ∨
    ∃ moment t₀, a = .steps j moment ∧ p.threads[j]? = some t₀ ∧ t = (t₀.advance p.cell moment).2 := by
  cases a with
  | starts call =>
    have hlist : (p.threads ++ [⟨call, code call, none⟩])[j]? = some t := h
    rcases Nat.lt_or_ge j p.threads.length with hlt | hge
    · left
      rwa [List.getElem?_append_left hlt] at hlist
    · rw [List.getElem?_append_right hge] at hlist
      obtain ⟨hj, ht⟩ := List.getElem?_eq_some_iff.mp hlist
      simp only [List.length_singleton] at hj
      refine .inr (.inl ⟨call, rfl, ?_, by omega⟩)
      rw [← ht]
      simp
  | steps i moment =>
    cases hi : p.threads[i]? with
    | none =>
      rw [act_absent hi] at h
      exact .inl h
    | some t₀ =>
      rw [act_steps hi] at h
      have hlist : (p.threads.set i (t₀.advance p.cell moment).2)[j]? = some t := h
      rw [List.getElem?_set] at hlist
      by_cases hij : i = j
      · rw [if_pos hij] at hlist
        rw [hij] at hi
        have hlt : i < p.threads.length := by
          rw [hij]
          exact (List.getElem?_eq_some_iff.mp hi).1
        rw [if_pos hlt] at hlist
        refine .inr (.inr ⟨moment, t₀, by rw [hij], hi, ?_⟩)
        exact (Option.some.inj hlist).symm
      · rw [if_neg hij] at hlist
        exact .inl hlist

/-- The cell changes only when a thread that stands at a write takes a step. -/
theorem cell_act (code : κ → Program σ τ α) (p : Pool κ σ τ α) (a : Act κ τ) : (act code p a).cell = p.cell ∨
    ∃ i moment t value next, a = .steps i moment ∧ p.threads[i]? = some t ∧
      t.program = .write value next ∧ (act code p a).cell = value := by
  cases a with
  | starts call => exact .inl rfl
  | steps i moment =>
    cases hi : p.threads[i]? with
    | none => exact .inl (congrArg Pool.cell (act_absent hi))
    | some t =>
      rw [act_steps hi]
      cases hp : t.program with
      | done result => exact .inl (by rw [Thread.advance_done hp])
      | read next => exact .inl (by rw [Thread.advance_read hp])
      | write value next =>
        exact .inr ⟨i, moment, t, value, next, rfl, hi, hp, by rw [Thread.advance_write hp]⟩

end Pool

end SharedCell
