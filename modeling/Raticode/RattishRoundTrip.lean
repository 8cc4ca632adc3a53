import Raticode.RattishReparsing

/-! The parser on tokens that play the parts of others. -/
namespace Raticode.Rattish
open PyText (lower)
open Ast (Comparable)

section Lockstep
variable {cfg : ParserConfig} {site site' : Site} {allowStatus : Bool} {tokens tokens' : Tokens}

abbrev Parallel (cfg : ParserConfig) (site site' : Site) : Tokens → Tokens → Prop :=
  List.Forall₂ (Matches cfg site site')

abbrev Both (cfg : ParserConfig) (site site' : Site) (x x' : Option (PredicateToken × Tokens)) : Prop :=
  (x = none ∧ x' = none) ∨ ∃ t rest t' rest', x = some (t, rest) ∧ x' = some (t', rest') ∧
    Parallel cfg site site' rest rest'

theorem acceptWord_both (word : String) (hword : word.toList ∈ reservedWords)
    (h : Parallel cfg site site' tokens tokens') :
    Both cfg site site' (acceptWord word tokens) (acceptWord word tokens') := by
  cases h with
  | nil => exact .inl ⟨rfl, rfl⟩
  | @cons t t' rest rest' ht hrest =>
    have hmark := ht.mark _ hword
    simp only [acceptWord]
    by_cases hsame : lower t.value = word.toList
    · rw [if_pos hsame, if_pos (hmark.mp hsame)]
      exact .inr ⟨t, rest, t', rest', rfl, rfl, hrest⟩
    · rw [if_neg hsame, if_neg (fun h => hsame (hmark.mpr h))]
      exact .inl ⟨rfl, rfl⟩

theorem lower_parenthesis {c : Char} (hc : c = '(' ∨ c = ')') (w : Text) : lower w = [c] ↔ w = [c] := by
  have hlower : ∀ d : Char, PyText.lowerChar d = c ↔ d = c := by
    intro d
    constructor
    · intro h
      have hascii : ∀ n < 128, PyText.lowerChar (Char.ofNat n) = c → Char.ofNat n = c := by
        rcases hc with rfl | rfl <;> decide
      by_cases hlt : d.toNat < 128
      · have hsame := hascii d.toNat hlt
        rw [Char.ofNat_toNat] at hsame
        exact hsame h
      · by_cases hk : d = '\u212a'
        · subst hk
          rcases hc with rfl | rfl <;> exact absurd h (by decide)
        · have hlow : PyText.lowerChar d = d := by
            have hupper : ¬(d.val ≥ 65 ∧ d.val ≤ 90) := by
              intro h
              have hle : d.toNat ≤ 90 := h.2
              omega
            rw [PyText.lowerChar, if_neg hk]
            exact dif_neg hupper
          rw [← hlow, h]
    · rintro rfl
      rcases hc with rfl | rfl <;> decide
  cases w with
  | nil => simp [lower]
  | cons d w => simp [lower, hlower]

theorem acceptSymbol_both (symbol : String) (hsymbol : symbol = "(" ∨ symbol = ")")
    (h : Parallel cfg site site' tokens tokens') :
    Both cfg site site' (acceptSymbol symbol tokens) (acceptSymbol symbol tokens') := by
  cases h with
  | nil => exact .inl ⟨rfl, rfl⟩
  | @cons t t' rest rest' ht hrest =>
    have hmark : t.value = symbol.toList ↔ t'.value = symbol.toList := by
      rcases hsymbol with rfl | rfl
      · have hlower := lower_parenthesis (c := '(') (.inl rfl)
        exact (hlower t.value).symm.trans ((ht.mark ['('] (by decide)).trans (hlower t'.value))
      · have hlower := lower_parenthesis (c := ')') (.inr rfl)
        exact (hlower t.value).symm.trans ((ht.mark [')'] (by decide)).trans (hlower t'.value))
    simp only [acceptSymbol]
    by_cases hsame : t.value = symbol.toList
    · rw [if_pos hsame, if_pos (hmark.mp hsame)]
      exact .inr ⟨t, rest, t', rest', rfl, rfl, hrest⟩
    · rw [if_neg hsame, if_neg (fun h => hsame (hmark.mpr h))]
      exact .inl ⟨rfl, rfl⟩

theorem acceptOperator_some {operator : Ast.Comparison} {t : PredicateToken} (rest : Tokens)
    (h : lower t.value = operator.text) : acceptOperator (t :: rest) = some (operator, t, rest) := by
  simp only [acceptOperator, h]
  cases operator <;> rfl

theorem acceptOperator_both (h : Parallel cfg site site' tokens tokens') :
    (acceptOperator tokens = none ∧ acceptOperator tokens' = none) ∨ ∃ operator t rest t' rest',
      acceptOperator tokens = some (operator, t, rest) ∧
      acceptOperator tokens' = some (operator, t', rest') ∧ Parallel cfg site site' rest rest' := by
  cases h with
  | nil => exact .inl ⟨rfl, rfl⟩
  | @cons t t' rest rest' ht hrest =>
    have hmember : ∀ operator : Ast.Comparison, operator.text ∈ reservedWords := by
      intro operator
      cases operator <;> decide
    cases hfirst : acceptOperator (t :: rest) with
    | some accepted =>
      obtain ⟨operator, t₁, rest₁⟩ := accepted
      obtain ⟨hcons, hword⟩ := acceptOperator_value hfirst
      obtain ⟨rfl, rfl⟩ := List.cons.inj hcons
      have hword' := (ht.mark _ (hmember operator)).mp hword
      exact .inr ⟨operator, t, rest, t', rest', rfl, acceptOperator_some rest' hword', hrest⟩
    | none =>
      cases hsecond : acceptOperator (t' :: rest') with
      | none => exact .inl ⟨rfl, rfl⟩
      | some accepted =>
        obtain ⟨operator, t₁, rest₁⟩ := accepted
        obtain ⟨hcons, hword⟩ := acceptOperator_value hsecond
        obtain ⟨rfl, rfl⟩ := List.cons.inj hcons
        rw [acceptOperator_some rest ((ht.mark _ (hmember operator)).mpr hword)] at hfirst
        cases hfirst

theorem acceptStatus_both (allowStatus : Bool) (h : Parallel cfg site site' tokens tokens') :
    (acceptStatus allowStatus tokens = none ∧ acceptStatus allowStatus tokens' = none) ∨
      ∃ succeeded t rest t' rest', acceptStatus allowStatus tokens = some (succeeded, t, rest) ∧
        acceptStatus allowStatus tokens' = some (succeeded, t', rest') ∧
        Parallel cfg site site' rest rest' := by
  unfold acceptStatus
  cases allowStatus with
  | false => exact .inl ⟨rfl, rfl⟩
  | true =>
    rcases acceptWord_both "succeeded" (by decide) h with
      ⟨h₁, h₂⟩ | ⟨t, rest, t', rest', h₁, h₂, hrest⟩
    · rcases acceptWord_both "failed" (by decide) h with
        ⟨h₃, h₄⟩ | ⟨t, rest, t', rest', h₃, h₄, hrest⟩
      · exact .inl ⟨by simp [h₁, h₃], by simp [h₂, h₄]⟩
      · exact .inr ⟨false, t, rest, t', rest', by simp [h₁, h₃], by simp [h₂, h₄], hrest⟩
    · exact .inr ⟨true, t, rest, t', rest', by simp [h₁], by simp [h₂], hrest⟩

def Tracks (cfg : ParserConfig) (site site' : Site)
    (x x' : Except Failure (Ast.Predicate × Tokens)) : Prop :=
  ∀ p rest, x = .ok (p, rest) → ∃ p' rest', x' = .ok (p', rest') ∧ p'.bare = p.bare ∧
    Parallel cfg site site' rest rest'

theorem expectWord_follows {word : String} {t : PredicateToken} {rest : Tokens} (hword : word.toList ∈ reservedWords)
    (htokens : Parallel cfg site site' tokens tokens')
    (h : expectWord cfg site.text site.line site.base word tokens = .ok (t, rest)) :
    ∃ t' rest', expectWord cfg site'.text site'.line site'.base word tokens' = .ok (t', rest') ∧
      Parallel cfg site site' rest rest' := by
  unfold expectWord at h ⊢
  rcases acceptWord_both word hword htokens with ⟨h₁, h₂⟩ | ⟨t₁, rest₁, t', rest', h₁, h₂, hrest⟩
  · simp only [h₁] at h
    cases h
  · simp only [h₁] at h
    cases h
    exact ⟨t', rest', by simp only [h₂], hrest⟩

theorem expectSymbol_follows {symbol : String} {t : PredicateToken} {rest : Tokens}
    (hsymbol : symbol = "(" ∨ symbol = ")") (htokens : Parallel cfg site site' tokens tokens')
    (h : expectSymbol cfg site.text site.line site.base symbol tokens = .ok (t, rest)) :
    ∃ t' rest', expectSymbol cfg site'.text site'.line site'.base symbol tokens' = .ok (t', rest') ∧
      Parallel cfg site site' rest rest' := by
  unfold expectSymbol at h ⊢
  rcases acceptSymbol_both symbol hsymbol htokens with ⟨h₁, h₂⟩ | ⟨t₁, rest₁, t', rest', h₁, h₂, hrest⟩
  · simp only [h₁] at h
    cases h
  · simp only [h₁] at h
    cases h
    exact ⟨t', rest', by simp only [h₂], hrest⟩

theorem nextOperand_follows {t : PredicateToken} {rest : Tokens} {c : Comparable}
    (htokens : Parallel cfg site site' tokens tokens')
    (h : nextToken cfg site.text site.line site.base tokens = .ok (t, rest)) (hc : site.Takes cfg t c) :
    ∃ t' rest' c', nextToken cfg site'.text site'.line site'.base tokens' = .ok (t', rest') ∧
      site'.Takes cfg t' c' ∧ c'.bare = c.bare ∧ Parallel cfg site site' rest rest' := by
  obtain rfl := nextToken_eq h
  cases htokens with
  | @cons _ t' _ rest' ht hrest =>
    obtain ⟨c', hc', hbare⟩ := ht.operand c hc
    exact ⟨t', rest', c', rfl, hc', hbare, hrest⟩

theorem bare_reference {c : Comparable} {r : Ast.Reference} (h : c.bare = .reference r) :
    ∃ r', c = .reference r' ∧ r'.bare = r := by
  cases c with
  | reference r' => exact ⟨r', rfl, Comparable.reference.inj h⟩
  | _ => cases h

theorem predicateReference_of_takes {t : PredicateToken} {r : Ast.Reference}
    (h : site.Takes cfg t (.reference r)) :
    predicateReference cfg site.text site.line site.base t = .ok r := by
  cases operand_of_comparable h with
  | reference found =>
    unfold predicateReference
    simp only [found]
    rfl

theorem parseComparison_follows (htokens : Parallel cfg site site' tokens tokens') :
    Tracks cfg site site' (parseComparison cfg site.text site.line site.base tokens)
      (parseComparison cfg site'.text site'.line site'.base tokens') := by
  intro p rest h
  unfold parseComparison at h ⊢
  obtain ⟨⟨leftToken, afterLeft⟩, hnext, hbody⟩ := Attempt.bind_ok h
  clear h
  obtain ⟨left, hleft, h⟩ := Attempt.bind_ok hbody
  clear hbody
  obtain ⟨leftToken', afterLeft', left', hnext', hleft', hbare, hafter⟩ :=
    nextOperand_follows htokens hnext hleft
  have hcomparable : comparable cfg site'.text site'.line site'.base leftToken' = .ok left' := hleft'
  simp only at h
  simp only [hnext', hcomparable, bind, Except.bind]
  rcases acceptWord_both "is" (by decide) hafter with
    ⟨h₁, h₂⟩ | ⟨is, afterIs, is', afterIs', h₁, h₂, hrest⟩
  · simp only [h₁] at h
    simp only [h₂]
    rcases acceptOperator_both hafter with
      ⟨h₃, h₄⟩ | ⟨operator, o, afterOperator, o', afterOperator', h₃, h₄, hrest⟩
    · simp only [h₃] at h
      simp only [h₄]
      cases left with
      | reference r =>
        obtain ⟨r', rfl, hr⟩ := bare_reference hbare
        cases h
        exact ⟨.reference r' r'.span, afterLeft', rfl, by simp only [Ast.Predicate.bare, hr], hafter⟩
      | _ => cases h
    · simp only [h₃] at h
      obtain ⟨⟨rightToken, afterRight⟩, hright, hbody⟩ := Attempt.bind_ok h
      obtain ⟨right, hrightOperand, hend⟩ := Attempt.bind_ok hbody
      obtain ⟨rightToken', afterRight', right', hright', hoperand', hbare', hafter'⟩ :=
        nextOperand_follows hrest hright hrightOperand
      have hcomparable' : comparable cfg site'.text site'.line site'.base rightToken' = .ok right' :=
        hoperand'
      cases hend
      simp only [h₄, hright', hcomparable']
      exact ⟨_, afterRight', rfl, by simp only [Ast.Predicate.bare, hbare, hbare'], hafter'⟩
  · simp only [h₁] at h
    simp only [h₂]
    obtain ⟨⟨null, afterNull⟩, hnull, hbody⟩ := Attempt.bind_ok h
    cases left with
    | reference r =>
      obtain ⟨r', rfl, hr⟩ := bare_reference hbare
      cases hbody
      have hnot : (acceptNot afterIs').1 = (acceptNot afterIs).1 ∧
          Parallel cfg site site' (acceptNot afterIs).2 (acceptNot afterIs').2 := by
        unfold acceptNot
        rcases acceptWord_both "not" (by decide) hrest with
          ⟨h₃, h₄⟩ | ⟨t, more, t', more', h₃, h₄, hmore⟩
        · rw [h₃, h₄]
          exact ⟨rfl, hrest⟩
        · rw [h₃, h₄]
          exact ⟨rfl, hmore⟩
      obtain ⟨null', afterNull', hnull', hend⟩ := expectWord_follows (by decide) hnot.2 hnull
      simp only [hnull', hnot.1]
      exact ⟨_, afterNull', rfl, by simp only [Ast.Predicate.bare, hr], hend⟩
    | _ => cases hbody

theorem parseAtom_follows (htokens : Parallel cfg site site' tokens tokens') :
    Tracks cfg site site' (parseAtom cfg site.text site.line site.base allowStatus tokens)
      (parseAtom cfg site'.text site'.line site'.base allowStatus tokens') := by
  intro p rest h
  unfold parseAtom at h ⊢
  rcases acceptStatus_both allowStatus htokens with
    ⟨h₁, h₂⟩ | ⟨succeeded, t, after, t', after', h₁, h₂, hrest⟩
  · simp only [h₁] at h
    simp only [h₂]
    rcases acceptWord_both "exists" (by decide) htokens with
      ⟨h₃, h₄⟩ | ⟨keyword, after, keyword', after', h₃, h₄, hrest⟩
    · simp only [h₃] at h
      simp only [h₄]
      exact parseComparison_follows htokens p rest h
    · simp only [h₃] at h
      obtain ⟨⟨t, afterToken⟩, hnext, hbody⟩ := Attempt.bind_ok h
      obtain ⟨r, hr, hend⟩ := Attempt.bind_ok hbody
      obtain ⟨t', afterToken', c', hnext', hc', hbare, hafter⟩ :=
        nextOperand_follows hrest hnext (takes_reference hr)
      obtain ⟨r', rfl, hr'⟩ := bare_reference hbare
      cases hend
      simp only [h₄, hnext', predicateReference_of_takes hc', bind, Except.bind]
      exact ⟨_, afterToken', rfl, by simp only [Ast.Predicate.bare, hr'], hafter⟩
  · simp only [h₁] at h
    cases h
    simp only [h₂]
    exact ⟨_, after', rfl, rfl, hrest⟩

structure ParsesFollow (cfg : ParserConfig) (site site' : Site) (allowStatus : Bool) (n : ℕ) : Prop where
  or : ∀ tokens tokens', Parallel cfg site site' tokens tokens' →
    Tracks cfg site site' (parseOr cfg site.text site.line site.base allowStatus n tokens)
      (parseOr cfg site'.text site'.line site'.base allowStatus n tokens')
  orTail : ∀ left left' tokens tokens', left'.bare = left.bare → Parallel cfg site site' tokens tokens' →
    Tracks cfg site site' (parseOrTail cfg site.text site.line site.base allowStatus n left tokens)
      (parseOrTail cfg site'.text site'.line site'.base allowStatus n left' tokens')
  and : ∀ tokens tokens', Parallel cfg site site' tokens tokens' →
    Tracks cfg site site' (parseAnd cfg site.text site.line site.base allowStatus n tokens)
      (parseAnd cfg site'.text site'.line site'.base allowStatus n tokens')
  andTail : ∀ left left' tokens tokens', left'.bare = left.bare → Parallel cfg site site' tokens tokens' →
    Tracks cfg site site' (parseAndTail cfg site.text site.line site.base allowStatus n left tokens)
      (parseAndTail cfg site'.text site'.line site'.base allowStatus n left' tokens')
  unary : ∀ tokens tokens', Parallel cfg site site' tokens tokens' →
    Tracks cfg site site' (parseUnary cfg site.text site.line site.base allowStatus n tokens)
      (parseUnary cfg site'.text site'.line site'.base allowStatus n tokens')
  primary : ∀ tokens tokens', Parallel cfg site site' tokens tokens' →
    Tracks cfg site site' (parsePrimary cfg site.text site.line site.base allowStatus n tokens)
      (parsePrimary cfg site'.text site'.line site'.base allowStatus n tokens')

theorem parsesFollow (n : ℕ) : ParsesFollow cfg site site' allowStatus n := by
  induction n with
  | zero =>
    constructor
    · intro tokens tokens' _ p rest h
      simp [parseOr] at h
    · intro left left' tokens tokens' _ _ p rest h
      simp [parseOrTail] at h
    · intro tokens tokens' _ p rest h
      simp [parseAnd] at h
    · intro left left' tokens tokens' _ _ p rest h
      simp [parseAndTail] at h
    · intro tokens tokens' _ p rest h
      simp [parseUnary] at h
    · intro tokens tokens' _ p rest h
      simp [parsePrimary] at h
  | succ n ih =>
    constructor
    · intro tokens tokens' htokens p rest h
      unfold parseOr at h ⊢
      obtain ⟨⟨left, after⟩, hleft, hbody⟩ := Attempt.bind_ok h
      obtain ⟨left', after', hleft', hbare, hafter⟩ := ih.and _ _ htokens _ _ hleft
      simp only [hleft', bind, Except.bind]
      exact ih.orTail _ _ _ _ hbare hafter p rest hbody
    · intro left left' tokens tokens' hbare htokens p rest h
      unfold parseOrTail at h ⊢
      rcases acceptWord_both "or" (by decide) htokens with
        ⟨h₁, h₂⟩ | ⟨t, after, t', after', h₁, h₂, hrest⟩
      · simp only [h₁] at h
        cases h
        simp only [h₂]
        exact ⟨left', tokens', rfl, hbare, htokens⟩
      · simp only [h₁] at h
        obtain ⟨⟨right, afterRight⟩, hright, hbody⟩ := Attempt.bind_ok h
        obtain ⟨right', afterRight', hright', hbare', hafter⟩ := ih.and _ _ hrest _ _ hright
        simp only [h₂, hright', bind, Except.bind]
        refine ih.orTail _ _ _ _ ?_ hafter p rest hbody
        simp only [Ast.Predicate.bare, hbare, hbare']
    · intro tokens tokens' htokens p rest h
      unfold parseAnd at h ⊢
      obtain ⟨⟨left, after⟩, hleft, hbody⟩ := Attempt.bind_ok h
      obtain ⟨left', after', hleft', hbare, hafter⟩ := ih.unary _ _ htokens _ _ hleft
      simp only [hleft', bind, Except.bind]
      exact ih.andTail _ _ _ _ hbare hafter p rest hbody
    · intro left left' tokens tokens' hbare htokens p rest h
      unfold parseAndTail at h ⊢
      rcases acceptWord_both "and" (by decide) htokens with
        ⟨h₁, h₂⟩ | ⟨t, after, t', after', h₁, h₂, hrest⟩
      · simp only [h₁] at h
        cases h
        simp only [h₂]
        exact ⟨left', tokens', rfl, hbare, htokens⟩
      · simp only [h₁] at h
        obtain ⟨⟨right, afterRight⟩, hright, hbody⟩ := Attempt.bind_ok h
        obtain ⟨right', afterRight', hright', hbare', hafter⟩ := ih.unary _ _ hrest _ _ hright
        simp only [h₂, hright', bind, Except.bind]
        refine ih.andTail _ _ _ _ ?_ hafter p rest hbody
        simp only [Ast.Predicate.bare, hbare, hbare']
    · intro tokens tokens' htokens p rest h
      unfold parseUnary at h ⊢
      rcases acceptWord_both "not" (by decide) htokens with
        ⟨h₁, h₂⟩ | ⟨t, after, t', after', h₁, h₂, hrest⟩
      · simp only [h₁] at h
        simp only [h₂]
        exact ih.primary _ _ htokens p rest h
      · simp only [h₁] at h
        obtain ⟨⟨operand, afterOperand⟩, hoperand, hbody⟩ := Attempt.bind_ok h
        obtain ⟨operand', afterOperand', hoperand', hbare, hafter⟩ := ih.unary _ _ hrest _ _ hoperand
        cases hbody
        simp only [h₂, hoperand', bind, Except.bind]
        exact ⟨_, afterOperand', rfl, by simp only [Ast.Predicate.bare, hbare], hafter⟩
    · intro tokens tokens' htokens p rest h
      unfold parsePrimary at h ⊢
      rcases acceptSymbol_both "(" (.inl rfl) htokens with
        ⟨h₁, h₂⟩ | ⟨t, after, t', after', h₁, h₂, hrest⟩
      · simp only [h₁] at h
        simp only [h₂]
        exact parseAtom_follows htokens p rest h
      · simp only [h₁] at h
        obtain ⟨⟨operand, afterOperand⟩, hoperand, hbody⟩ := Attempt.bind_ok h
        obtain ⟨operand', afterOperand', hoperand', hbare, hafter⟩ := ih.or _ _ hrest _ _ hoperand
        obtain ⟨⟨closing, afterClosing⟩, hclosing, hend⟩ := Attempt.bind_ok hbody
        obtain ⟨closing', afterClosing', hclosing', hlast⟩ := expectSymbol_follows (.inr rfl) hafter hclosing
        cases hend
        simp only [h₂, hoperand', hclosing', bind, Except.bind]
        exact ⟨_, afterClosing', rfl, by simp only [Ast.Predicate.bare, hbare], hlast⟩

end Lockstep

section RoundTrip
variable {cfg : ParserConfig} {floatText : ℚ → Text} {allowStatus : Bool}

theorem quoted_of_cuts {w : Text} {pieces : List (Bool × Text)} (h : Cuts w pieces) :
    ∀ piece ∈ pieces, piece.1 = true → piece.2.head? = some '"' := by
  induction h with
  | nil => exact fun _ hpiece => absurd hpiece List.not_mem_nil
  | space _ _ ih => exact ih
  | @token c cs piece pieces hspace hpiece hne rest ih =>
    intro piece' hmem hquoted
    rcases List.mem_cons.mp hmem with rfl | hmem
    · unfold tokenAt at hpiece
      split at hpiece
      · rw [← hpiece] at hquoted
        cases hquoted
      · split at hpiece
        · rw [← hpiece]
          rfl
        · rw [← hpiece] at hquoted
          cases hquoted
    · exact ih piece' hmem hquoted

theorem quoted_of_tokenize {n index : ℕ} {w : Text} {tokens : Tokens}
    (h : tokenize n index w = .ok tokens) : ∀ t ∈ tokens, Quoted t :=
  fun t ht => quoted_of_cuts (cuts_of_tokenize h) t.piece (List.mem_map_of_mem ht)

theorem parsePredicate_iff (site : Site) {p : Ast.Predicate} :
    parsePredicate cfg site.text site.line site.base allowStatus = .ok p ↔
      ∃ tokens, tokenize site.text.length 0 site.text = .ok tokens ∧
        parseOr cfg site.text site.line site.base allowStatus (4 * tokens.length + 4) tokens = .ok (p, []) := by
  unfold parsePredicate
  constructor
  · intro h
    obtain ⟨tokens, htokens, hbody⟩ := Attempt.bind_ok h
    obtain ⟨⟨predicate, rest⟩, hparse, hend⟩ := Attempt.bind_ok hbody
    cases rest with
    | nil =>
      cases hend
      exact ⟨tokens, htokens, hparse⟩
    | cons token rest => cases hend
  · rintro ⟨tokens, htokens, hparse⟩
    simp only [htokens, hparse, bind, Except.bind]
    rfl

end RoundTrip

section Example

/-- The line of a route, `  review: when ..`. -/
def routeLine (text : Text) : SourceLine where
  number := 9
  text := text
  startOffset := 120
  endOffset := 120 + byteLength text
  hasNewline := false

def routeSite (text : Text) : Site := ⟨text, routeLine text, 0⟩

/-- `not Input.a >= 1.5`. -/
def halfText : Text :=
  ['n', 'o', 't', ' ', 'I', 'n', 'p', 'u', 't', '.', 'a', ' ', '>', '=', ' ', '1', '.', '5']

def halfSpan (start stop : ℕ) : SourceSpan := (routeLine halfText).span start stop

def half : Ast.Predicate :=
  .not ['n', 'o', 't'] (.comparison .ge ['>', '=']
    (.reference ⟨⟨['I', 'n', 'p', 'u', 't'], ['i', 'n', 'p', 'u', 't'], halfSpan 4 9⟩,
      [.dot ['a'] .identifier (halfSpan 10 11)], halfSpan 4 11⟩)
    (.number ['1', '.', '5'] (PyJson.toDouble (PyJson.Numeral.value ⟨false, ['1'], ['5'], none⟩))
      (halfSpan 15 18)) (halfSpan 4 18)) (halfSpan 0 18)

def halfDigits (_ : ℚ) : Text := ['1', '.', '5']

theorem half_parsed : parsePredicate asciiConfig halfText (routeLine halfText) 0 true = .ok half := by
  rfl

theorem rereads_half : ∀ q ∈ half.doubles, Rereads halfDigits q := by
  intro q hq
  have hdoubles : half.doubles =
      (PyJson.toDouble (PyJson.Numeral.value ⟨false, ['1'], ['5'], none⟩)).toList := by
    simp only [half, Ast.Predicate.doubles, Comparable.doubles, List.nil_append]
  rw [hdoubles] at hq
  have hdouble := Option.mem_toList.mp hq
  exact ⟨⟨⟨false, ['1'], ['5'], none⟩, rfl, hdouble⟩, rfl⟩

def escapedBlank : Text :=
  ['i', 'n', 'p', 'u', 't', '[', '"', 'a', '\\', 'u', '0', '0', '2', '0', 'b', '"', ']']

def printedBlank : Text := ['i', 'n', 'p', 'u', 't', '[', '"', 'a', ' ', 'b', '"', ']']

def blankMember : Ast.Predicate :=
  let span := (routeLine escapedBlank).span
  .reference ⟨⟨['i', 'n', 'p', 'u', 't'], ['i', 'n', 'p', 'u', 't'], span 0 5⟩,
    [.bracket ['a', ' ', 'b'] (span 5 17)], span 0 17⟩ (span 0 17)

theorem blank_parsed :
    parsePredicate asciiConfig escapedBlank (routeLine escapedBlank) 0 true = .ok blankMember := by
  rfl

end Example

end Raticode.Rattish
