import Raticode.RattishSelectors

/-! Predicates that are printed: the words and quotes their text is cut into, and what the parser makes
of each. -/
namespace Raticode.Rattish
open PyText (isSpace isLetter isAlnum lower identifier)

namespace Ast

def Comparable.bare : Comparable → Comparable
  | .reference r => .reference r.bare
  | .string _ value _ => .string [] value nowhere
  | .boolean _ value _ => .boolean [] value nowhere
  | .null _ _ => .null [] nowhere
  | .integer _ value _ => .integer [] value nowhere
  | .number _ value _ => .number [] value nowhere

def Predicate.bare : Predicate → Predicate
  | .logical operator _ left right _ => .logical operator [] left.bare right.bare nowhere
  | .not _ operand _ => .not [] operand.bare nowhere
  | .group operand _ => .group operand.bare nowhere
  | .status _ succeeded _ => .status [] succeeded nowhere
  | .exists _ r _ => .exists [] r.bare nowhere
  | .nullTest r isNull _ _ => .nullTest r.bare isNull [] nowhere
  | .comparison operator _ left right _ => .comparison operator [] left.bare right.bare nowhere
  | .reference r _ => .reference r.bare nowhere

def Comparable.printable : Comparable → Bool
  | .reference r => r.unbroken
  | .number _ value _ => value.isSome
  | _ => true

def Predicate.printable : Predicate → Bool
  | .logical _ _ left right _ => left.printable && right.printable
  | .not _ operand _ => operand.printable
  | .group operand _ => operand.printable
  | .status _ _ _ => true
  | .exists _ r _ => r.unbroken
  | .nullTest r _ _ _ => r.unbroken
  | .comparison _ _ left right _ => left.printable && right.printable
  | .reference r _ => r.unbroken

def Comparable.doubles : Comparable → List ℚ
  | .number _ value _ => value.toList
  | _ => []

def Predicate.doubles : Predicate → List ℚ
  | .logical _ _ left right _ => left.doubles ++ right.doubles
  | .not _ operand _ => operand.doubles
  | .group operand _ => operand.doubles
  | .comparison _ _ left right _ => left.doubles ++ right.doubles
  | _ => []

def Comparable.quoted : Comparable → Bool
  | .string _ _ _ => true
  | _ => false

end Ast

open Ast (Comparable)

structure Rereads (floatText : ℚ → Text) (q : ℚ) : Prop where
  number : ∃ n, number? (floatText q) = some n ∧ PyJson.toDouble n.value = some q
  fractional : integer? (floatText q) = none

theorem number_chars {w : Text} {n : PyJson.Numeral} (h : number? w = some n) :
    (∀ c ∈ w, PyJson.isDigit c = true ∨ c ∈ "+-.eE".toList) ∧
      ∃ c ∈ w.head?, c = '-' ∨ PyJson.isDigit c = true := by
  unfold number? at h
  split at h
  · next m hnumeral =>
    unfold PyJson.numeral at hnumeral
    split at hnumeral
    next negative unsigned hsign =>
      simp only at hnumeral
      split at hnumeral
      · cases hnumeral
      · next hwhole =>
        obtain ⟨hsplit, hdigits⟩ := PyJson.readWhole_spec hwhole
        have hpart : PyJson.NumberPart unsigned [] := by
          have hrest : (PyJson.readExponent (PyJson.readFraction (PyJson.readWhole unsigned).2).2).2 = [] :=
            congrArg Prod.snd (Option.some.inj hnumeral)
          rw [← hrest]
          exact (PyJson.NumberPart.trans ⟨_, hsplit, fun c hc => .inl (hdigits c hc)⟩
            (PyJson.readFraction_part _)).trans (PyJson.readExponent_part _)
        obtain ⟨t, ht, hchars⟩ := hpart
        rw [List.append_nil] at ht
        subst ht
        split at hsign
        · next u =>
          cases hsign
          refine ⟨?_, '-', rfl, .inl rfl⟩
          intro c hc
          rcases List.mem_cons.mp hc with rfl | hc
          · exact .inr (by decide)
          · exact hchars c hc
        · cases hsign
          obtain ⟨c, whole, hcons⟩ := List.exists_cons_of_ne_nil hwhole
          refine ⟨hchars, c, ?_, .inr (hdigits c (by simp [hcons]))⟩
          rw [hsplit, hcons]
          rfl
  · cases h

theorem number_of_integer {w : Text} {n : PyJson.Numeral} (h : integer? w = some n) :
    number? w = some n := by
  unfold integer? at h
  unfold number?
  split at h
  · next m hm =>
    split at h
    · exact h
    · cases h
  · cases h

theorem word_of_number {w : Text} {n : PyJson.Numeral} (h : number? w = some n) :
    ∀ c ∈ w, isPredicateWord c = true := by
  intro c hc
  rcases (number_chars h).1 c hc with hdigit | hmark
  · exact word_of_digit hdigit
  · have hall : ∀ c ∈ "+-.eE".toList, isPredicateWord c = true :=
      List.all_eq_true.mp (by decide)
    exact hall c hmark

section Comparables
variable {cfg : ParserConfig} {text : Text} {line : SourceLine} {base : ℕ}

def Composed (cfg : ParserConfig) : Comparable → Prop
  | .reference r => Referable cfg r
  | .integer _ value _ => Convertible cfg value.natAbs
  | _ => True

inductive Comparand (cfg : ParserConfig) (line : SourceLine) (base : ℕ) (t : PredicateToken) :
    Comparable → Prop
  | reference {r : Ast.Reference} (found : tryReference cfg line t.value (base + t.startIndex) = .ok (some r)) :
      Comparand cfg line base t (.reference r)
  | string {value : Text} {span : SourceSpan} (quoted : t.quoted = true) :
      Comparand cfg line base t (.string t.value value span)
  | boolean {value : Bool} {span : SourceSpan}
      (word : lower t.value = (if value then "true" else "false").toList) :
      Comparand cfg line base t (.boolean t.value value span)
  | null {span : SourceSpan} (word : lower t.value = "null".toList) :
      Comparand cfg line base t (.null t.value span)
  | integer {n : PyJson.Numeral} {value : ℤ} {span : SourceSpan} (found : integer? t.value = some n)
      (fits : intOf cfg n = .ok value) : Comparand cfg line base t (.integer t.value value span)
  | number {n : PyJson.Numeral} {span : SourceSpan} (found : number? t.value = some n) :
      Comparand cfg line base t (.number t.value (PyJson.toDouble n.value) span)

theorem operand_of_comparable {t : PredicateToken} {c : Comparable}
    (h : comparable cfg text line base t = .ok c) : Comparand cfg line base t c := by
  unfold comparable at h
  obtain ⟨found, hfound, h⟩ := Attempt.bind_ok h
  cases found with
  | some r =>
    rw [← Except.ok.inj h]
    exact .reference hfound
  | none =>
    dsimp only at h
    split at h
    · next hquoted =>
      split at h
      · rw [← Except.ok.inj h]
        exact .string hquoted
      · cases h
    · split at h
      · next htrue =>
        rw [← Except.ok.inj h]
        exact .boolean htrue
      · split at h
        · next hfalse =>
          rw [← Except.ok.inj h]
          exact .boolean hfalse
        · split at h
          · next hnull =>
            rw [← Except.ok.inj h]
            exact .null hnull
          · split at h
            · next n _ hn =>
              obtain ⟨z, hz, h⟩ := Attempt.bind_ok h
              rw [← Except.ok.inj h]
              exact .integer hn hz
            · next n _ hn =>
              rw [← Except.ok.inj h]
              exact .number hn
            · cases h

theorem composed_of_comparable {t : PredicateToken} {c : Comparable}
    (h : comparable cfg text line base t = .ok c) : Composed cfg c := by
  cases operand_of_comparable h with
  | reference found => exact referable_of_tryReference found
  | integer found fits => exact convertible_of_intOf found fits
  | string quoted => trivial
  | boolean word => trivial
  | null word => trivial
  | number found => trivial

end Comparables

/-! Cutting a text into tokens. -/

def PredicateToken.piece (t : PredicateToken) : Bool × Text := (t.quoted, t.value)

inductive Cuts : Text → List (Bool × Text) → Prop
  | nil : Cuts [] []
  | space {c : Char} {cs : Text} {pieces : List (Bool × Text)} (hspace : isSpace c = true)
      (rest : Cuts cs pieces) : Cuts (c :: cs) pieces
  | token {c : Char} {cs : Text} {piece : Bool × Text} {pieces : List (Bool × Text)}
      (hspace : isSpace c = false) (hpiece : tokenAt c cs = piece) (hne : piece.2 ≠ [])
      (rest : Cuts ((c :: cs).drop piece.2.length) pieces) : Cuts (c :: cs) (piece :: pieces)

theorem tokenize_endless {n index : ℕ} {c : Char} {cs : Text} (hspace : isSpace c = false)
    (hempty : (tokenAt c cs).2 = []) : tokenize (n + 1) index (c :: cs) = .error .endless := by
  rw [tokenize, if_neg (by simp [hspace])]
  cases hsymbol : predicateSymbols.find? (fun symbol => symbol.isPrefixOf (c :: cs)) with
  | some symbol =>
    have hall : ∀ symbol ∈ predicateSymbols, symbol ≠ [] := by decide
    simp only [tokenAt, hsymbol] at hempty
    exact absurd hempty (hall symbol (List.mem_of_find?_eq_some hsymbol))
  | none =>
    simp only [tokenAt, hsymbol] at hempty ⊢
    by_cases hquote : c = '"'
    · rw [if_pos hquote] at hempty
      cases hempty
    · rw [if_neg hquote] at hempty
      have hword : ¬isPredicateWord c = true := by
        intro hword
        rw [List.takeWhile_cons_of_pos hword] at hempty
        cases hempty
      simp only [if_neg hquote, if_neg hword]

theorem cuts_of_tokenize {n index : ℕ} {w : Text} {tokens : Tokens}
    (h : tokenize n index w = .ok tokens) : Cuts w (tokens.map PredicateToken.piece) := by
  induction n generalizing index w tokens with
  | zero =>
    cases w with
    | nil =>
      rw [← Except.ok.inj h]
      exact .nil
    | cons c cs => cases h
  | succ n ih =>
    cases w with
    | nil =>
      rw [← Except.ok.inj h]
      exact .nil
    | cons c cs =>
      cases hspace : isSpace c with
      | true =>
        rw [tokenize, if_pos hspace] at h
        exact .space hspace (ih h)
      | false =>
        by_cases hempty : (tokenAt c cs).2 = []
        · rw [tokenize_endless hspace hempty] at h
          cases h
        · rw [tokenize_token hspace hempty] at h
          obtain ⟨more, hmore, h⟩ := Attempt.bind_ok h
          rw [← Except.ok.inj h]
          exact .token hspace rfl hempty (ih hmore)

theorem tokenize_of_cuts {w : Text} {pieces : List (Bool × Text)} (h : Cuts w pieces) :
    ∀ n index, w.length ≤ n →
      ∃ tokens, tokenize n index w = .ok tokens ∧ tokens.map PredicateToken.piece = pieces := by
  induction h with
  | nil =>
    intro n index _
    refine ⟨[], ?_, rfl⟩
    cases n <;> rfl
  | @space c cs pieces hspace rest ih =>
    intro n index hn
    cases n with
    | zero => cases hn
    | succ n =>
      obtain ⟨tokens, htokens, hpieces⟩ := ih n (index + 1) (Nat.le_of_succ_le_succ hn)
      exact ⟨tokens, by rw [tokenize, if_pos hspace, htokens], hpieces⟩
  | @token c cs piece pieces hspace hpiece hne rest ih =>
    intro n index hn
    cases n with
    | zero => cases hn
    | succ n =>
      have hpos : 0 < piece.2.length := List.length_pos_iff.mpr hne
      have hshort : ((c :: cs).drop piece.2.length).length ≤ n := by
        rw [List.length_drop]
        omega
      obtain ⟨tokens, htokens, hpieces⟩ := ih n (index + piece.2.length) hshort
      refine ⟨⟨piece.1, piece.2, index, index + piece.2.length⟩ :: tokens, ?_,
        by rw [List.map_cons, hpieces]; rfl⟩
      rw [tokenize_token hspace (by rw [hpiece]; exact hne), hpiece]
      show (tokenize n _ _ >>= fun more => _) = _
      rw [htokens]
      rfl

def Ends (after : Text) : Prop := ∀ c rest, after = c :: rest → c = ' ' ∨ c = ')'

def Leads (w : Text) (pieces : List (Bool × Text)) : Prop :=
  ∀ after all, Ends after → (Cuts (w ++ after) all ↔ ∃ more, all = pieces ++ more ∧ Cuts after more)

def Breaks (P : Bool × Text → Prop) (w : Text) : Prop :=
  ∀ after all, Cuts (w ++ after) all → ∃ piece ∈ all, P piece

theorem cuts_space {w : Text} {all : List (Bool × Text)} : Cuts (' ' :: w) all ↔ Cuts w all := by
  constructor
  · intro h
    cases h with
    | space hspace rest => exact rest
    | token hspace => exact absurd hspace (by decide)
  · exact .space (by decide)

theorem cuts_token {c : Char} {cs : Text} {piece : Bool × Text} {all : List (Bool × Text)}
    (hspace : isSpace c = false) (hpiece : tokenAt c cs = piece) (hne : piece.2 ≠ []) :
    Cuts (c :: cs) all ↔
      ∃ more, all = piece :: more ∧ Cuts ((c :: cs).drop piece.2.length) more := by
  constructor
  · intro h
    cases h with
    | space hblank =>
      rw [hspace] at hblank
      cases hblank
    | token _ hsame _ rest =>
      rw [hpiece] at hsame
      subst hsame
      exact ⟨_, rfl, rest⟩
  · rintro ⟨more, rfl, hmore⟩
    exact .token hspace hpiece hne hmore

theorem cuts_parenthesis {c : Char} (hc : c = '(' ∨ c = ')') {w : Text} {all : List (Bool × Text)} :
    Cuts (c :: w) all ↔ ∃ more, all = (false, [c]) :: more ∧ Cuts w more := by
  have hspace : isSpace c = false := by
    rcases hc with rfl | rfl <;> decide
  have htoken : tokenAt c w = (false, [c]) := by
    rcases hc with rfl | rfl <;> simp [tokenAt, predicateSymbols, List.isPrefixOf]
  exact cuts_token hspace htoken (List.cons_ne_nil _ _)

theorem leads_token {c : Char} {cs : Text} {quoted : Bool} (hspace : isSpace c = false)
    (htoken : ∀ after, Ends after → tokenAt c (cs ++ after) = (quoted, c :: cs)) :
    Leads (c :: cs) [(quoted, c :: cs)] := by
  intro after all hends
  have hcuts : Cuts (c :: (cs ++ after)) all ↔ _ :=
    cuts_token hspace (htoken after hends) (List.cons_ne_nil _ _)
  have hdrop : (c :: (cs ++ after)).drop (c :: cs).length = after := by
    rw [← List.cons_append, List.drop_left]
  rw [hdrop] at hcuts
  exact hcuts

theorem leads_word {w : Text} (hword : ∀ d ∈ w, isPredicateWord d = true)
    (hquote : ∃ c ∈ w.head?, c ≠ '"') : Leads w [(false, w)] := by
  obtain ⟨c, hhead, hquote⟩ := hquote
  obtain ⟨cs, rfl⟩ : ∃ cs, w = c :: cs := by
    cases w with
    | nil => cases hhead
    | cons d cs => exact ⟨cs, by rw [Option.some.inj hhead]⟩
  have hc := hword c List.mem_cons_self
  have hsplit := hc
  simp only [isPredicateWord, Bool.and_eq_true, Bool.not_eq_true'] at hsplit
  refine leads_token hsplit.1 ?_
  intro after hends
  have hsign : c ∉ ['<', '>', '=', '!', '(', ')'] := by
    intro hmem
    have hall : ['<', '>', '=', '!', '(', ')'].all (fun c => !isPredicateWord c) = true := by decide
    have hno := List.all_eq_true.mp hall c hmem
    rw [hc] at hno
    cases hno
  have htake : (c :: (cs ++ after)).takeWhile isPredicateWord = c :: cs := by
    rw [← List.cons_append, List.takeWhile_append_of_pos hword]
    cases after with
    | nil => rw [List.takeWhile_nil, List.append_nil]
    | cons d rest =>
      have hd : isPredicateWord d = false := by
        rcases hends d rest rfl with rfl | rfl <;> decide
      rw [List.takeWhile_cons_of_neg (by simp [hd]), List.append_nil]
  rw [tokenAt_plain hsign, if_neg hquote, htake]

theorem leads_quoted (value : Text) : Leads (dumpText value) [(true, dumpText value)] := by
  refine leads_token (by decide) ?_
  intro after _
  rw [tokenAt_plain (by decide), if_pos rfl, List.append_assoc, List.singleton_append,
    quotedTail_dump]

theorem leads_symbol {symbol : Text} (hsymbol : symbol ∈ predicateSymbols) :
    Leads symbol [(false, symbol)] := by
  have hsymbols : predicateSymbols = [['<', '='], ['>', '='], ['=', '='], ['!', '='], ['<'], ['>'], ['('],
      [')']] := by decide
  rw [hsymbols] at hsymbol
  simp only [List.mem_cons, List.not_mem_nil, or_false] at hsymbol
  have hends : ∀ after, Ends after → after = [] ∨ ∃ c rest, after = c :: rest ∧ (c = ' ' ∨ c = ')') := by
    intro after h
    cases after with
    | nil => exact .inl rfl
    | cons c rest => exact .inr ⟨c, rest, rfl, h c rest rfl⟩
  rcases hsymbol with rfl | rfl | rfl | rfl | rfl | rfl | rfl | rfl <;>
  · refine leads_token (by decide) ?_
    intro after h
    rcases hends after h with rfl | ⟨c, rest, rfl, rfl | rfl⟩ <;>
      simp [tokenAt, predicateSymbols, List.isPrefixOf]

theorem leads_operator (operator : Ast.Comparison) :
    Leads operator.text [(false, operator.text)] := by
  cases operator with
  | contains => exact leads_word (List.all_eq_true.mp (by decide)) ⟨'c', rfl, by decide⟩
  | «matches» => exact leads_word (List.all_eq_true.mp (by decide)) ⟨'m', rfl, by decide⟩
  | _ => exact leads_symbol (by decide)

theorem Leads.append {u w : Text} {first second : List (Bool × Text)} (hu : Leads u first)
    (hw : Leads w second) : Leads (u ++ ' ' :: w) (first ++ second) := by
  intro after all hends
  have hblank : Ends (' ' :: (w ++ after)) := fun c rest h => .inl (List.cons.inj h).1.symm
  rw [List.append_assoc, List.cons_append, hu _ all hblank]
  constructor
  · rintro ⟨more, rfl, hmore⟩
    obtain ⟨rest, rfl, hrest⟩ := (hw after more hends).mp (cuts_space.mp hmore)
    exact ⟨rest, by rw [List.append_assoc], hrest⟩
  · rintro ⟨rest, rfl, hrest⟩
    exact ⟨second ++ rest, by rw [List.append_assoc],
      cuts_space.mpr ((hw after _ hends).mpr ⟨rest, rfl, hrest⟩)⟩

theorem Leads.group {w : Text} {pieces : List (Bool × Text)} (hw : Leads w pieces) :
    Leads ('(' :: (w ++ [')'])) ((false, ['(']) :: (pieces ++ [(false, [')'])])) := by
  intro after all hends
  have hclose : Ends (')' :: after) := fun c rest h => .inr (List.cons.inj h).1.symm
  rw [List.cons_append, List.append_assoc, List.singleton_append, cuts_parenthesis (.inl rfl)]
  constructor
  · rintro ⟨more, rfl, hmore⟩
    obtain ⟨rest, rfl, hrest⟩ := (hw _ more hclose).mp hmore
    obtain ⟨last, rfl, hlast⟩ := (cuts_parenthesis (.inr rfl)).mp hrest
    exact ⟨last, by simp, hlast⟩
  · rintro ⟨last, rfl, hlast⟩
    refine ⟨pieces ++ (false, [')']) :: last, by simp, (hw _ _ hclose).mpr ⟨_, rfl, ?_⟩⟩
    exact (cuts_parenthesis (.inr rfl)).mpr ⟨last, rfl, hlast⟩

section Again
variable {cfg : ParserConfig} {floatText : ℚ → Text}

theorem tryReference_none {w : Text} (h : identifier w = none) (line : SourceLine) (start : ℕ) :
    tryReference cfg line w start = .ok none := by
  rw [tryReference, h]

theorem tryReference_literal (line : SourceLine) (start : ℕ) {w : Text}
    (hw : w ∈ ["true".toList, "false".toList, "null".toList]) : tryReference cfg line w start = .ok none := by
  have hall : ∀ w ∈ ["true".toList, "false".toList, "null".toList], ∃ root, identifier w = some root ∧
      (!referenceRoots.contains (lower root) || decide (root.length = w.length)) = true := by
    intro w hw
    simp only [List.mem_cons, List.not_mem_nil, or_false] at hw
    rcases hw with rfl | rfl | rfl <;> exact ⟨_, rfl, by decide⟩
  obtain ⟨root, hroot, hno⟩ := hall w hw
  rw [tryReference, hroot]
  exact if_pos hno

def isNumberStart (c : Char) : Bool := c = '-' || PyJson.isDigit c

theorem identifier_of_number {w : Text} {n : PyJson.Numeral} (h : number? w = some n) :
    identifier w = none := by
  obtain ⟨-, c, hc, hstart⟩ := number_chars h
  cases w with
  | nil => cases hc
  | cons d w =>
    obtain rfl : d = c := by simpa using hc
    have hletter : isLetter d = false := by
      rcases hstart with rfl | hdigit
      · decide
      · have hle : d.toNat ≤ 57 := by
          simp only [PyJson.isDigit, Bool.and_eq_true, decide_eq_true_eq] at hdigit
          exact hdigit.2
        by_contra hletter
        simp only [isLetter, Bool.not_eq_false, Bool.or_eq_true, Bool.and_eq_true, decide_eq_true_eq]
          at hletter
        rcases hletter with h | h
        · have hge : 97 ≤ d.toNat := h.1
          omega
        · have hge : 65 ≤ d.toNat := h.1
          omega
    simp [identifier, hletter]

theorem leads_number {w : Text} {n : PyJson.Numeral} (h : number? w = some n) : Leads w [(false, w)] := by
  obtain ⟨-, c, hc, hstart⟩ := number_chars h
  refine leads_word (word_of_number h) ⟨c, hc, ?_⟩
  rintro rfl
  exact absurd hstart (by decide)

theorem lower_number {w : Text} {n : PyJson.Numeral} (h : number? w = some n) {k : Text}
    (hk : ∃ c ∈ k.head?, isLetter c = true) : lower w ≠ k := by
  intro hsame
  obtain ⟨-, c, hc, hstart⟩ := number_chars h
  obtain ⟨d, hd, hletter⟩ := hk
  have hlower : PyText.lowerChar c = d := by
    rw [← hsame, lower, List.head?_map, hc] at hd
    exact Option.some.inj hd
  have halnum : isAlnum c = true ∨ c = '-' := by
    rcases hstart with hdash | hdigit
    · exact .inr hdash
    · left
      rw [isAlnum, Bool.or_eq_true]
      exact .inr hdigit
  have hnot : isLetter c = false := by
    have hnone := identifier_of_number h
    cases w with
    | nil => cases hc
    | cons e w =>
      obtain rfl : e = c := by simpa using hc
      by_contra hyes
      rw [identifier, if_pos (by simpa using hyes)] at hnone
      cases hnone
  rw [← hlower, (lower_alnum halnum).2.2.1, hnot] at hletter
  cases hletter

theorem comparable_integer {w : Text} {n : PyJson.Numeral} {value : ℤ} (h : integer? w = some n)
    (hfits : intOf cfg n = .ok value) (text : Text) (line : SourceLine) (base start stop : ℕ) :
    comparable cfg text line base ⟨false, w, start, stop⟩ =
      .ok (.integer w value (line.span (base + start) (base + stop))) := by
  have hnumber := number_of_integer h
  have htrue := lower_number hnumber (k := "true".toList) ⟨'t', rfl, by decide⟩
  have hfalse := lower_number hnumber (k := "false".toList) ⟨'f', rfl, by decide⟩
  have hnull := lower_number hnumber (k := "null".toList) ⟨'n', rfl, by decide⟩
  unfold comparable
  simp only [tryReference_none (identifier_of_number hnumber), htrue, hfalse, hnull, if_false, h, hfits]
  rfl

theorem comparable_double {w : Text} {n : PyJson.Numeral} (h : number? w = some n)
    (hfractional : integer? w = none) (text : Text) (line : SourceLine) (base start stop : ℕ) :
    comparable cfg text line base ⟨false, w, start, stop⟩ =
      .ok (.number w (PyJson.toDouble n.value) (line.span (base + start) (base + stop))) := by
  have htrue := lower_number h (k := "true".toList) ⟨'t', rfl, by decide⟩
  have hfalse := lower_number h (k := "false".toList) ⟨'f', rfl, by decide⟩
  have hnull := lower_number h (k := "null".toList) ⟨'n', rfl, by decide⟩
  unfold comparable
  simp only [tryReference_none (identifier_of_number h), htrue, hfalse, hnull, if_false, h, hfractional]
  rfl

theorem Composed.again {c : Comparable} (h : Composed cfg c) (hprintable : c.printable = true)
    (hfloat : ∀ q ∈ c.doubles, Rereads floatText q) :
    ∃ w, c.text floatText = some w ∧ Leads w [(c.quoted, w)] ∧
      ∀ text line base start stop, ∃ c',
        comparable cfg text line base ⟨c.quoted, w, start, stop⟩ = .ok c' ∧ c'.bare = c.bare := by
  cases c with
  | reference r =>
    refine ⟨r.text, rfl, ?_, ?_⟩
    · refine leads_word (Referable.word h hprintable) ?_
      have hall : ∀ root ∈ referenceRoots, ∃ c ∈ root.head?, c ≠ '"' := by
        intro root hroot
        have hhead : ∀ root ∈ referenceRoots, root.head?.any (fun c => decide (c ≠ '"')) = true := by
          decide
        simpa [Option.any_eq_true] using hhead root hroot
      obtain ⟨c, hc, hne⟩ := hall _ (Referable.root h)
      refine ⟨c, ?_, hne⟩
      rw [Ast.Reference.text]
      exact List.mem_head?_append_of_mem_head? hc
    · intro text line base start stop
      obtain ⟨r', hr', hbare⟩ := Referable.again h line (base + start)
      refine ⟨.reference r', ?_, by rw [Comparable.bare, hbare]; rfl⟩
      unfold comparable
      simp only [hr']
      rfl
  | string source value span =>
    refine ⟨dumpText value, rfl, leads_quoted value, ?_⟩
    intro text line base start stop
    refine ⟨.string (dumpText value) value (line.span (base + start) (base + stop)), ?_, rfl⟩
    unfold comparable
    simp only [tryReference_none (show identifier (dumpText value) = none from rfl), jsonLoads_dump]
    rfl
  | boolean source value span =>
    cases value with
    | true =>
      refine ⟨"true".toList, rfl, leads_word (List.all_eq_true.mp (by decide)) ⟨'t', rfl, by decide⟩, ?_⟩
      intro text line base start stop
      refine ⟨.boolean "true".toList true (line.span (base + start) (base + stop)), ?_, rfl⟩
      unfold comparable
      simp only [tryReference_literal line (base + start) (w := "true".toList) (by decide)]
      rfl
    | false =>
      refine ⟨"false".toList, rfl, leads_word (List.all_eq_true.mp (by decide)) ⟨'f', rfl, by decide⟩, ?_⟩
      intro text line base start stop
      refine ⟨.boolean "false".toList false (line.span (base + start) (base + stop)), ?_, rfl⟩
      unfold comparable
      simp only [tryReference_literal line (base + start) (w := "false".toList) (by decide)]
      rfl
  | null source span =>
    refine ⟨"null".toList, rfl, leads_word (List.all_eq_true.mp (by decide)) ⟨'n', rfl, by decide⟩, ?_⟩
    intro text line base start stop
    refine ⟨.null "null".toList (line.span (base + start) (base + stop)), ?_, rfl⟩
    unfold comparable
    simp only [tryReference_literal line (base + start) (w := "null".toList) (by decide)]
    rfl
  | integer source value span =>
    have hinteger := integer_intText value
    have hnumber := number_of_integer hinteger
    refine ⟨intText value, rfl, leads_number hnumber, ?_⟩
    intro text line base start stop
    refine ⟨.integer (intText value) value (line.span (base + start) (base + stop)), ?_, rfl⟩
    have hfits : intOf cfg ⟨value < 0, Nat.toDigits 10 value.natAbs, [], none⟩ = .ok value := by
      have hconvertible : cfg.maxDigits.any (· < (Nat.toDigits 10 value.natAbs).length) = false := h
      rw [intOf, if_neg (by simp [hconvertible]), toInt_intText]
    exact comparable_integer hinteger hfits text line base start stop
  | number source value span =>
    cases value with
    | none => cases hprintable
    | some q =>
      obtain ⟨⟨n, hnumber, hdouble⟩, hfractional⟩ := hfloat q (by simp [Comparable.doubles])
      refine ⟨floatText q, rfl, leads_number hnumber, ?_⟩
      intro text line base start stop
      refine ⟨.number (floatText q) (some q) (line.span (base + start) (base + stop)), ?_, rfl⟩
      rw [← hdouble]
      exact comparable_double hnumber hfractional text line base start stop

end Again

section Breaks
variable {P : Bool × Text → Prop} {u w : Text} {pieces : List (Bool × Text)}

theorem Breaks.left (h : Breaks P u) (w : Text) : Breaks P (u ++ w) := by
  intro after all hall
  rw [List.append_assoc] at hall
  exact h _ all hall

theorem Breaks.right (h : Breaks P w) (hu : Leads u pieces) : Breaks P (u ++ ' ' :: w) := by
  intro after all hall
  have hblank : Ends (' ' :: (w ++ after)) := fun c rest h => .inl (List.cons.inj h).1.symm
  rw [List.append_assoc, List.cons_append] at hall
  obtain ⟨more, rfl, hmore⟩ := (hu _ all hblank).mp hall
  obtain ⟨piece, hpiece, hP⟩ := h after more (cuts_space.mp hmore)
  exact ⟨piece, List.mem_append_right _ hpiece, hP⟩

theorem Breaks.group (h : Breaks P w) : Breaks P ('(' :: (w ++ [')'])) := by
  intro after all hall
  rw [List.cons_append, List.append_assoc] at hall
  obtain ⟨more, rfl, hmore⟩ := (cuts_parenthesis (.inl rfl)).mp hall
  obtain ⟨piece, hpiece, hP⟩ := h _ more hmore
  exact ⟨piece, List.mem_cons_of_mem _ hpiece, hP⟩

end Breaks

end Raticode.Rattish
