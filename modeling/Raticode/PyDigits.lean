import Raticode.PyJson

/-! The digits of a natural number, as they are printed and as `PyJson` reads them back in front of
what may follow a number inside a list or an object. -/
namespace PyJson

theorem isDigit_toDigits {n : ℕ} {c : Char} (hc : c ∈ Nat.toDigits 10 n) : isDigit c = true := by
  have hdigit := Nat.isDigit_of_mem_toDigits (by decide) (by decide) hc
  simp only [Char.isDigit, Bool.and_eq_true, decide_eq_true_eq] at hdigit
  rw [isDigit, Bool.and_eq_true]
  exact ⟨decide_eq_true hdigit.1, decide_eq_true hdigit.2⟩

theorem natOf_toDigits (n : ℕ) : natOf (Nat.toDigits 10 n) = n := by
  have hdigits : Nat.ofDigitChars 10 (Nat.toDigits 10 n) 0 = n := Nat.ofDigitChars_ten_toDigits
  exact hdigits

theorem toDigits_head_ne {n : ℕ} (hn : 0 < n) : (Nat.toDigits 10 n).head? ≠ some '0' := by
  induction n using Nat.strong_induction_on with
  | _ n ih =>
    by_cases hsmall : n < 10
    · rw [Nat.toDigits_of_lt_base hsmall]
      have hall : ∀ n < 10, 0 < n → [n.digitChar].head? ≠ some '0' := by decide
      exact hall n hsmall hn
    · have hq : 0 < n / 10 := by omega
      rw [Nat.toDigits_of_base_le (by decide) (by omega)]
      rw [List.head?_append_of_ne_nil _ Nat.toDigits_ne_nil]
      exact ih (n / 10) (by omega) hq

def Closes (rest : List Char) : Prop := ∀ c ∈ rest.head?, c = ',' ∨ c = ']' ∨ c = '}'

theorem closes_cons {c : Char} (h : c = ',' ∨ c = ']' ∨ c = '}') (w : List Char) :
    Closes (c :: w) := by
  intro d hd
  obtain rfl := Option.some.inj hd
  exact h

theorem readWhole_append (n : ℕ) {rest : List Char} (h : Closes rest) :
    readWhole (Nat.toDigits 10 n ++ rest) = (Nat.toDigits 10 n, rest) := by
  have hall : ∀ c ∈ Nat.toDigits 10 n, isDigit c = true := fun c hc => isDigit_toDigits hc
  have hrest : rest.takeWhile isDigit = [] ∧ rest.dropWhile isDigit = rest := by
    cases rest with
    | nil => exact ⟨rfl, rfl⟩
    | cons c w =>
      have hc : isDigit c = false := by
        rcases h c rfl with rfl | rfl | rfl <;> rfl
      rw [List.takeWhile_cons, List.dropWhile_cons, hc]
      exact ⟨rfl, rfl⟩
  obtain ⟨d, ds, hds⟩ := List.exists_cons_of_ne_nil (Nat.toDigits_ne_nil (b := 10) (n := n))
  by_cases hzero : n = 0
  · subst hzero
    rw [Nat.toDigits_zero]
    rfl
  · -- A number that is not zero is not printed with a zero in front.
    have hd : d ≠ '0' := by
      rintro rfl
      exact toDigits_head_ne (Nat.pos_of_ne_zero hzero) (by rw [hds]; rfl)
    have hplain : readWhole (Nat.toDigits 10 n ++ rest) =
        ((Nat.toDigits 10 n ++ rest).takeWhile isDigit,
          (Nat.toDigits 10 n ++ rest).dropWhile isDigit) := by
      rw [hds, List.cons_append, readWhole]
      intro w hw
      exact hd (List.cons.inj hw).1
    rw [hplain, List.takeWhile_append_of_pos hall, List.dropWhile_append_of_pos hall, hrest.1,
      hrest.2, List.append_nil]

theorem readParts_closes {rest : List Char} (h : Closes rest) :
    readFraction rest = ([], rest) ∧ readExponent rest = (none, rest) := by
  cases rest with
  | nil => exact ⟨rfl, rfl⟩
  | cons c w =>
    rcases h c rfl with rfl | rfl | rfl
    all_goals exact ⟨rfl, by simp [readExponent]⟩

theorem numeral_toDigits_append (n : ℕ) {rest : List Char} (h : Closes rest) :
    numeral (Nat.toDigits 10 n ++ rest) = some (⟨false, Nat.toDigits 10 n, [], none⟩, rest) := by
  have hne : Nat.toDigits 10 n ≠ [] := Nat.toDigits_ne_nil
  obtain ⟨hfraction, hexponent⟩ := readParts_closes h
  obtain ⟨d, ds, hds⟩ := List.exists_cons_of_ne_nil hne
  have hd : d ≠ '-' := by
    rintro rfl
    have hdigit := isDigit_toDigits (n := n) (c := '-') (by rw [hds]; exact List.mem_cons_self)
    exact absurd hdigit (by decide)
  have hread := readWhole_append n h
  rw [hds, List.cons_append] at hread ⊢
  rw [numeral]
  · simp [hread, hfraction, hexponent]
  · intro w hw
    exact hd (List.cons.inj hw).1

end PyJson
