import Raticode.RattishReprinting

/-! A predicate that is printed is parsed again: its tokens play the parts of those it was parsed from,
unless one of its references is cut. -/
namespace Raticode.Rattish
open PyText (lower identifier)
open Ast (Comparable)

def reservedWords : List Text :=
  ["or", "and", "not", "(", ")", "succeeded", "failed", "exists", "is", "null", "==", "!=", "<", "<=",
    ">", ">=", "contains", "matches"].map String.toList

structure Site where
  text : Text
  line : SourceLine
  base : ℕ

def Site.Takes (cfg : ParserConfig) (site : Site) (t : PredicateToken) (c : Comparable) : Prop :=
  comparable cfg site.text site.line site.base t = .ok c

inductive Spells (cfg : ParserConfig) (site : Site) : Tokens → Ast.Predicate → Prop
  | logical {operator : Ast.LogicalOperator} {t : PredicateToken} {first second : Tokens}
      {left right : Ast.Predicate} {span : SourceSpan} (word : lower t.value = operator.text)
      (spellsLeft : Spells cfg site first left) (spellsRight : Spells cfg site second right) :
      Spells cfg site (first ++ t :: second) (.logical operator t.value left right span)
  | not {t : PredicateToken} {more : Tokens} {operand : Ast.Predicate} {span : SourceSpan}
      (word : lower t.value = "not".toList) (spells : Spells cfg site more operand) :
      Spells cfg site (t :: more) (.not t.value operand span)
  | group {opening closing : PredicateToken} {more : Tokens} {operand : Ast.Predicate} {span : SourceSpan}
      (opens : opening.value = ['(']) (closes : closing.value = [')'])
      (spells : Spells cfg site more operand) :
      Spells cfg site (opening :: (more ++ [closing])) (.group operand span)
  | status {t : PredicateToken} {succeeded : Bool} {span : SourceSpan}
      (word : lower t.value = (if succeeded then "succeeded" else "failed").toList) :
      Spells cfg site [t] (.status t.value succeeded span)
  | present {keyword t : PredicateToken} {r : Ast.Reference} {span : SourceSpan}
      (word : lower keyword.value = "exists".toList) (takes : site.Takes cfg t (.reference r)) :
      Spells cfg site [keyword, t] (.exists keyword.value r span)
  | isNull {t is null : PredicateToken} {r : Ast.Reference} {source : Text} {span : SourceSpan}
      (takes : site.Takes cfg t (.reference r)) (isWord : lower is.value = "is".toList)
      (nullWord : lower null.value = "null".toList) :
      Spells cfg site [t, is, null] (.nullTest r true source span)
  | isNotNull {t is not null : PredicateToken} {r : Ast.Reference} {source : Text} {span : SourceSpan}
      (takes : site.Takes cfg t (.reference r)) (isWord : lower is.value = "is".toList)
      (notWord : lower not.value = "not".toList) (nullWord : lower null.value = "null".toList) :
      Spells cfg site [t, is, not, null] (.nullTest r false source span)
  | comparison {operator : Ast.Comparison} {l o r : PredicateToken} {left right : Comparable}
      {span : SourceSpan} (takesLeft : site.Takes cfg l left) (word : lower o.value = operator.text)
      (takesRight : site.Takes cfg r right) :
      Spells cfg site [l, o, r] (.comparison operator o.value left right span)
  | reference {t : PredicateToken} {r : Ast.Reference} {span : SourceSpan}
      (takes : site.Takes cfg t (.reference r)) : Spells cfg site [t] (.reference r span)

/-! What the parser reads is spelled by its tokens. -/

section Parsed
variable {cfg : ParserConfig} {site : Site} {allowStatus : Bool}

theorem acceptWord_value {word : String} {tokens rest : Tokens} {t : PredicateToken}
    (h : acceptWord word tokens = some (t, rest)) : tokens = t :: rest ∧ lower t.value = word.toList := by
  unfold acceptWord at h
  split at h
  · split at h
    · next hword =>
      cases h
      exact ⟨rfl, hword⟩
    · cases h
  · cases h

theorem acceptSymbol_value {symbol : String} {tokens rest : Tokens} {t : PredicateToken}
    (h : acceptSymbol symbol tokens = some (t, rest)) : tokens = t :: rest ∧ t.value = symbol.toList := by
  unfold acceptSymbol at h
  split at h
  · split at h
    · next hsymbol =>
      cases h
      exact ⟨rfl, hsymbol⟩
    · cases h
  · cases h

theorem acceptOperator_value {tokens rest : Tokens} {t : PredicateToken} {operator : Ast.Comparison}
    (h : acceptOperator tokens = some (operator, t, rest)) :
    tokens = t :: rest ∧ lower t.value = operator.text := by
  unfold acceptOperator at h
  split at h
  · cases h
  · next token more =>
    obtain ⟨op, hop, he⟩ := Option.map_eq_some_iff.mp h
    cases he
    refine ⟨rfl, ?_⟩
    have htext : ∀ s : String, String.ofList (lower t.value) = s → lower t.value = s.toList := by
      intro s hs
      rw [← hs, String.toList_ofList]
    split at hop <;> first
      | (cases hop; exact htext _ (by assumption))
      | cases hop

theorem acceptStatus_value {tokens rest : Tokens} {t : PredicateToken} {succeeded : Bool}
    (h : acceptStatus allowStatus tokens = some (succeeded, t, rest)) :
    tokens = t :: rest ∧ lower t.value = (if succeeded then "succeeded" else "failed").toList := by
  unfold acceptStatus at h
  split at h
  · cases h
  · split at h
    · next hword =>
      cases h
      exact acceptWord_value hword
    · obtain ⟨accepted, hword, he⟩ := Option.map_eq_some_iff.mp h
      cases he
      exact acceptWord_value hword

theorem expectWord_value {word : String} {tokens rest : Tokens} {t : PredicateToken}
    (h : expectWord cfg site.text site.line site.base word tokens = .ok (t, rest)) :
    tokens = t :: rest ∧ lower t.value = word.toList := by
  unfold expectWord at h
  split at h
  · next haccepted =>
    cases h
    exact acceptWord_value haccepted
  · cases h

theorem expectSymbol_value {symbol : String} {tokens rest : Tokens} {t : PredicateToken}
    (h : expectSymbol cfg site.text site.line site.base symbol tokens = .ok (t, rest)) :
    tokens = t :: rest ∧ t.value = symbol.toList := by
  unfold expectSymbol at h
  split at h
  · next haccepted =>
    cases h
    exact acceptSymbol_value haccepted
  · cases h

theorem takes_reference {t : PredicateToken} {r : Ast.Reference}
    (h : predicateReference cfg site.text site.line site.base t = .ok r) : site.Takes cfg t (.reference r) := by
  unfold predicateReference at h
  obtain ⟨found, hfound, h⟩ := Attempt.bind_ok h
  cases found with
  | none => cases h
  | some r' =>
    unfold Site.Takes comparable
    rw [← Except.ok.inj h]
    simp only [hfound]
    rfl

def SpellsFirst (cfg : ParserConfig) (site : Site) (before tokens : Tokens) (p : Ast.Predicate)
    (rest : Tokens) : Prop :=
  ∃ taken, tokens = taken ++ rest ∧ Spells cfg site (before ++ taken) p

theorem parseComparison_spells {tokens rest : Tokens} {p : Ast.Predicate}
    (h : parseComparison cfg site.text site.line site.base tokens = .ok (p, rest)) :
    SpellsFirst cfg site [] tokens p rest := by
  unfold parseComparison at h
  obtain ⟨⟨leftToken, afterLeft⟩, hnext, hbody⟩ := Attempt.bind_ok h
  clear h
  obtain rfl := nextToken_eq hnext
  obtain ⟨left, hleft, h⟩ := Attempt.bind_ok hbody
  clear hbody
  simp only at h
  split at h
  · next is afterIs his =>
    obtain ⟨rfl, hisWord⟩ := acceptWord_value his
    obtain ⟨⟨null, afterNull⟩, hnull, hbody⟩ := Attempt.bind_ok h
    clear h
    obtain ⟨htail, hnullWord⟩ := expectWord_value hnull
    cases left with
    | reference r =>
      cases hbody
      unfold acceptNot at htail ⊢
      split at htail
      · next not afterNot hnot =>
        obtain ⟨rfl, hnotWord⟩ := acceptWord_value hnot
        simp only at htail
        subst htail
        simp only
        exact ⟨[leftToken, is, not, null], rfl, .isNotNull hleft hisWord hnotWord hnullWord⟩
      · next hnot =>
        simp only at htail
        subst htail
        simp only
        exact ⟨[leftToken, is, null], rfl, .isNull hleft hisWord hnullWord⟩
    | _ => cases hbody
  · split at h
    · next operator operatorToken afterOperator hoperator =>
      obtain ⟨rfl, hword⟩ := acceptOperator_value hoperator
      obtain ⟨⟨rightToken, afterRight⟩, hright, hbody⟩ := Attempt.bind_ok h
      clear h
      obtain rfl := nextToken_eq hright
      obtain ⟨right, hrightOperand, h⟩ := Attempt.bind_ok hbody
      cases h
      exact ⟨[leftToken, operatorToken, rightToken], rfl, .comparison hleft hword hrightOperand⟩
    · cases left with
      | reference r =>
        cases h
        exact ⟨[leftToken], rfl, .reference hleft⟩
      | _ => cases h

theorem parseAtom_spells {tokens rest : Tokens} {p : Ast.Predicate}
    (h : parseAtom cfg site.text site.line site.base allowStatus tokens = .ok (p, rest)) :
    SpellsFirst cfg site [] tokens p rest := by
  unfold parseAtom at h
  split at h
  · next succeeded t after hstatus =>
    obtain ⟨rfl, hword⟩ := acceptStatus_value hstatus
    cases h
    exact ⟨[t], rfl, .status hword⟩
  · split at h
    · next keyword after hexists =>
      obtain ⟨rfl, hword⟩ := acceptWord_value hexists
      obtain ⟨⟨t, afterToken⟩, hnext, hbody⟩ := Attempt.bind_ok h
      clear h
      obtain rfl := nextToken_eq hnext
      obtain ⟨r, hr, h⟩ := Attempt.bind_ok hbody
      cases h
      exact ⟨[keyword, t], rfl, .present hword (takes_reference hr)⟩
    · exact parseComparison_spells h

structure ParsesSpell (cfg : ParserConfig) (site : Site) (allowStatus : Bool) (n : ℕ) : Prop where
  or : ∀ tokens p rest, parseOr cfg site.text site.line site.base allowStatus n tokens = .ok (p, rest) →
    SpellsFirst cfg site [] tokens p rest
  orTail : ∀ before left tokens p rest, Spells cfg site before left →
    parseOrTail cfg site.text site.line site.base allowStatus n left tokens = .ok (p, rest) →
    SpellsFirst cfg site before tokens p rest
  and : ∀ tokens p rest, parseAnd cfg site.text site.line site.base allowStatus n tokens = .ok (p, rest) →
    SpellsFirst cfg site [] tokens p rest
  andTail : ∀ before left tokens p rest, Spells cfg site before left →
    parseAndTail cfg site.text site.line site.base allowStatus n left tokens = .ok (p, rest) →
    SpellsFirst cfg site before tokens p rest
  unary : ∀ tokens p rest,
    parseUnary cfg site.text site.line site.base allowStatus n tokens = .ok (p, rest) →
    SpellsFirst cfg site [] tokens p rest
  primary : ∀ tokens p rest,
    parsePrimary cfg site.text site.line site.base allowStatus n tokens = .ok (p, rest) →
    SpellsFirst cfg site [] tokens p rest

theorem parsesSpell (n : ℕ) : ParsesSpell cfg site allowStatus n := by
  induction n with
  | zero =>
    constructor
    · intro tokens p rest h
      simp [parseOr] at h
    · intro before left tokens p rest _ h
      simp [parseOrTail] at h
    · intro tokens p rest h
      simp [parseAnd] at h
    · intro before left tokens p rest _ h
      simp [parseAndTail] at h
    · intro tokens p rest h
      simp [parseUnary] at h
    · intro tokens p rest h
      simp [parsePrimary] at h
  | succ n ih =>
    constructor
    · intro tokens p rest h
      unfold parseOr at h
      obtain ⟨⟨left, after⟩, hleft, hbody⟩ := Attempt.bind_ok h
      obtain ⟨first, htaken, hfirst⟩ := ih.and _ _ _ hleft
      obtain ⟨more, hrest, hmore⟩ := ih.orTail _ _ _ _ _ hfirst hbody
      subst htaken hrest
      exact ⟨first ++ more, by rw [List.append_assoc], hmore⟩
    · intro before left tokens p rest hbefore h
      unfold parseOrTail at h
      split at h
      · cases h
        exact ⟨[], rfl, by rw [List.append_nil]; exact hbefore⟩
      · next operator after haccept =>
        obtain ⟨htokens, hword⟩ := acceptWord_value haccept
        obtain ⟨⟨right, afterRight⟩, hright, hbody⟩ := Attempt.bind_ok h
        obtain ⟨second, htaken, hsecond⟩ := ih.and _ _ _ hright
        have hlogical : ∀ span, Spells cfg site (before ++ operator :: ([] ++ second))
            (.logical .or operator.value left right span) := fun _ => .logical hword hbefore hsecond
        obtain ⟨more, hrest, hmore⟩ := ih.orTail _ _ _ _ _ (hlogical _) hbody
        subst htokens htaken hrest
        exact ⟨operator :: second ++ more, by simp, by simpa using hmore⟩
    · intro tokens p rest h
      unfold parseAnd at h
      obtain ⟨⟨left, after⟩, hleft, hbody⟩ := Attempt.bind_ok h
      obtain ⟨first, htaken, hfirst⟩ := ih.unary _ _ _ hleft
      obtain ⟨more, hrest, hmore⟩ := ih.andTail _ _ _ _ _ hfirst hbody
      subst htaken hrest
      exact ⟨first ++ more, by rw [List.append_assoc], hmore⟩
    · intro before left tokens p rest hbefore h
      unfold parseAndTail at h
      split at h
      · cases h
        exact ⟨[], rfl, by rw [List.append_nil]; exact hbefore⟩
      · next operator after haccept =>
        obtain ⟨htokens, hword⟩ := acceptWord_value haccept
        obtain ⟨⟨right, afterRight⟩, hright, hbody⟩ := Attempt.bind_ok h
        obtain ⟨second, htaken, hsecond⟩ := ih.unary _ _ _ hright
        have hlogical : ∀ span, Spells cfg site (before ++ operator :: ([] ++ second))
            (.logical .and operator.value left right span) := fun _ => .logical hword hbefore hsecond
        obtain ⟨more, hrest, hmore⟩ := ih.andTail _ _ _ _ _ (hlogical _) hbody
        subst htokens htaken hrest
        exact ⟨operator :: second ++ more, by simp, by simpa using hmore⟩
    · intro tokens p rest h
      unfold parseUnary at h
      split at h
      · next operator after haccept =>
        obtain ⟨htokens, hword⟩ := acceptWord_value haccept
        obtain ⟨⟨operand, afterOperand⟩, hoperand, hbody⟩ := Attempt.bind_ok h
        cases hbody
        obtain ⟨more, htaken, hmore⟩ := ih.unary _ _ _ hoperand
        subst htokens htaken
        exact ⟨operator :: more, rfl, .not hword hmore⟩
      · exact ih.primary _ _ _ h
    · intro tokens p rest h
      unfold parsePrimary at h
      split at h
      · next opening after hsymbol =>
        obtain ⟨htokens, hopens⟩ := acceptSymbol_value hsymbol
        obtain ⟨⟨operand, afterOperand⟩, hoperand, hbody⟩ := Attempt.bind_ok h
        obtain ⟨⟨closing, afterClosing⟩, hclosing, hend⟩ := Attempt.bind_ok hbody
        cases hend
        obtain ⟨hafter, hcloses⟩ := expectSymbol_value hclosing
        obtain ⟨more, htaken, hmore⟩ := ih.or _ _ _ hoperand
        subst htokens htaken hafter
        exact ⟨opening :: (more ++ [closing]), by simp, .group hopens hcloses hmore⟩
      · exact parseAtom_spells h

end Parsed

/-! The parts that tokens play. -/

section Parts
variable {cfg : ParserConfig} {site site' : Site}

theorem mark_chars {k : Text} (hk : k ∈ reservedWords) : '.' ∉ k ∧ '[' ∉ k ∧ k.head? ≠ some '"' ∧
    (k.head?.any isNumberStart) = false ∧ lower k = k := by
  have hall : ∀ k ∈ reservedWords, '.' ∉ k ∧ '[' ∉ k ∧ k.head? ≠ some '"' ∧
      (k.head?.any isNumberStart) = false ∧ lower k = k := by decide
  exact hall k hk

theorem readSelectors_start {line : SourceLine} {root : Text} {n cursor : ℕ} {c : Char} {w : Text}
    {before : List Ast.RefSelector} {jsonMode : Bool} {all : List Ast.RefSelector}
    (h : readSelectors cfg line root n cursor (c :: w) before jsonMode = .ok (some all)) :
    c = '.' ∨ c = '[' := by
  unfold readSelectors at h
  split at h
  · next heq => cases heq
  · cases h
  · next heq =>
    exact .inl (List.cons.inj heq).1
  · next heq =>
    exact .inr (List.cons.inj heq).1
  · cases h

theorem selector_of_tryReference {line : SourceLine} {w : Text} {start : ℕ} {r : Ast.Reference}
    (h : tryReference cfg line w start = .ok (some r)) : '.' ∈ w ∨ '[' ∈ w := by
  unfold tryReference at h
  split at h
  · cases h
  · next root hroot =>
    split at h
    · cases h
    · next hknown =>
      obtain ⟨found, hread, hr⟩ := Attempt.bind_ok h
      cases found with
      | none => cases hr
      | some selectors =>
        cases hdrop : w.drop root.length with
        | nil =>
          obtain ⟨hleading, -, -⟩ := PyText.identifier_eq_some hroot
          have hsame : root.length = w.length :=
            Nat.le_antisymm hleading.length_le (List.drop_eq_nil_iff.mp hdrop)
          simp [hsame] at hknown
        | cons c v =>
          rw [hdrop] at hread
          have hmem : c ∈ w := by
            apply List.mem_of_mem_drop (i := root.length)
            rw [hdrop]
            exact List.mem_cons_self
          rcases readSelectors_start hread with rfl | rfl
          · exact .inl hmem
          · exact .inr hmem

theorem mem_lower {c : Char} {w : Text} (h : c ∈ w) (hc : PyText.lowerChar c = c) : c ∈ lower w := by
  rw [← hc]
  exact List.mem_map_of_mem h

theorem Comparand.mark {line : SourceLine} {base : ℕ} {t : PredicateToken} {c : Comparable}
    (h : Comparand cfg line base t c) (hquoted : t.quoted = true → t.value.head? = some '"')
    (hmark : lower t.value ∈ reservedWords) :
    lower t.value = "null".toList ∧ c.bare = .null [] nowhere := by
  obtain ⟨hdot, hbracket, hquote, hstart, -⟩ := mark_chars hmark
  have hnumber : ∀ n, number? t.value ≠ some n := by
    intro n hn
    obtain ⟨-, c, hc, hnumber⟩ := number_chars hn
    have hlower : PyText.lowerChar c = c := by
      have hall : ∀ n < 128, isNumberStart (Char.ofNat n) = true →
          PyText.lowerChar (Char.ofNat n) = Char.ofNat n := by decide
      have hlt : c.toNat < 128 := by
        rcases hnumber with rfl | hdigit
        · decide
        · simp only [PyJson.isDigit, Bool.and_eq_true, decide_eq_true_eq] at hdigit
          exact Nat.lt_of_le_of_lt (show c.toNat ≤ 57 from hdigit.2) (by decide)
      have hsame := hall c.toNat hlt
      rw [Char.ofNat_toNat] at hsame
      exact hsame (by simpa [isNumberStart] using hnumber)
    rw [lower, List.head?_map, Option.mem_def.mp hc, Option.map_some, hlower] at hstart
    simp only [isNumberStart, Option.any_some, Bool.or_eq_false_iff, decide_eq_false_iff_not] at hstart
    rcases hnumber with hdash | hdigit
    · exact hstart.1 hdash
    · rw [hstart.2] at hdigit
      cases hdigit
  cases h with
  | reference found =>
    rcases selector_of_tryReference found with hmem | hmem
    · exact absurd (mem_lower hmem (by decide)) hdot
    · exact absurd (mem_lower hmem (by decide)) hbracket
  | string quoted =>
    have hhead := hquoted quoted
    rw [lower, List.head?_map, hhead] at hquote
    exact absurd rfl hquote
  | @boolean value span word =>
    rw [word] at hmark
    cases value <;> exact absurd hmark (by decide)
  | null word => exact ⟨word, rfl⟩
  | integer found fits => exact absurd (number_of_integer found) (hnumber _)
  | number found => exact absurd found (hnumber _)

theorem Comparand.null_word {line : SourceLine} {base : ℕ} {t : PredicateToken} {c : Comparable}
    (h : Comparand cfg line base t c) (hc : c.bare = .null [] nowhere) : lower t.value = "null".toList := by
  cases h with
  | null word => exact word
  | reference found => cases hc
  | string quoted => cases hc
  | boolean word => cases hc
  | integer found fits => cases hc
  | number found => cases hc

structure Matches (cfg : ParserConfig) (site site' : Site) (t t' : PredicateToken) : Prop where
  mark : ∀ k ∈ reservedWords, lower t.value = k ↔ lower t'.value = k
  operand : ∀ c, site.Takes cfg t c → ∃ c', site'.Takes cfg t' c' ∧ c'.bare = c.bare

def Stands (cfg : ParserConfig) (site : Site) (t : PredicateToken) (piece : Bool × Text) : Prop :=
  ∀ site' start stop, Matches cfg site site' t ⟨piece.1, piece.2, start, stop⟩

def Quoted (t : PredicateToken) : Prop := t.quoted = true → t.value.head? = some '"'

theorem stands_mark (cfg : ParserConfig) (site : Site) {t : PredicateToken} {k : Text} (hquoted : Quoted t) (hk : k ∈ reservedWords)
    (hword : lower t.value = k) : Stands cfg site t (false, k) := by
  intro site' start stop
  obtain ⟨-, -, -, -, hlower⟩ := mark_chars hk
  refine ⟨?_, ?_⟩
  · intro k' _
    show lower t.value = k' ↔ lower k = k'
    rw [hword, hlower]
  · intro c hc
    obtain ⟨hnull, hbare⟩ := (operand_of_comparable hc).mark hquoted (hword ▸ hk)
    have hsame : k = "null".toList := hword.symm.trans hnull
    subst hsame
    refine ⟨.null "null".toList (site'.line.span (site'.base + start) (site'.base + stop)), ?_, hbare.symm⟩
    unfold Site.Takes comparable
    simp only [tryReference_literal site'.line (site'.base + start) (w := "null".toList) (by decide)]
    rfl

theorem stands_operand {t : PredicateToken} {c : Comparable} {w : Text} (hquoted : Quoted t)
    (hc : site.Takes cfg t c) (hw : c.quoted = true → w.head? = some '"')
    (hagain : ∀ text line base start stop, ∃ c',
      comparable cfg text line base ⟨c.quoted, w, start, stop⟩ = .ok c' ∧ c'.bare = c.bare) :
    Stands cfg site t (c.quoted, w) := by
  intro site' start stop
  obtain ⟨c', hc', hbare⟩ := hagain site'.text site'.line site'.base start stop
  have hoperand := operand_of_comparable hc
  have hoperand' := operand_of_comparable hc'
  refine ⟨?_, ?_⟩
  · intro k hk
    constructor
    · intro hword
      obtain ⟨hnull, hcnull⟩ := hoperand.mark hquoted (hword ▸ hk)
      exact (hoperand'.null_word (hbare.trans hcnull)).trans (hnull.symm.trans hword)
    · intro hword
      obtain ⟨hnull, hcnull⟩ := hoperand'.mark hw (hword ▸ hk)
      exact (hoperand.null_word (hbare.symm.trans hcnull)).trans (hnull.symm.trans hword)
  · intro d hd
    have hsame : d = c := Except.ok.inj (hd.symm.trans hc)
    exact ⟨c', hc', by rw [hbare, hsame]⟩

end Parts

/-! The pieces of a printed predicate. -/

section Printed
variable {cfg : ParserConfig} {site : Site} {floatText : ℚ → Text}

theorem leads_keyword {k : Text} (hk : k ∈ ["or", "and", "not", "succeeded", "failed", "exists", "is",
    "null"].map String.toList) : Leads k [(false, k)] := by
  have hall : ∀ k ∈ ["or", "and", "not", "succeeded", "failed", "exists", "is", "null"].map String.toList,
      k.all isPredicateWord = true ∧ k.head?.any (fun c => decide (c ≠ '"')) = true := by decide
  obtain ⟨hword, hhead⟩ := hall k hk
  obtain ⟨c, hc, hne⟩ := (Option.any_eq_true _ _).mp hhead
  exact leads_word (List.all_eq_true.mp hword) ⟨c, hc, by simpa using hne⟩

theorem Site.Takes.leads {t : PredicateToken} {c : Comparable} (hc : site.Takes cfg t c)
    (floatText : ℚ → Text) (hquoted : Quoted t) (hprintable : c.printable = true)
    (hfloat : ∀ q ∈ c.doubles, Rereads floatText q) :
    ∃ w, c.text floatText = some w ∧ Leads w [(c.quoted, w)] ∧ Stands cfg site t (c.quoted, w) := by
  obtain ⟨w, htext, hleads, hagain⟩ := (composed_of_comparable hc).again hprintable hfloat
  refine ⟨w, htext, hleads, stands_operand hquoted hc ?_ hagain⟩
  intro hstring
  cases c with
  | string source value span =>
    rw [← Option.some.inj htext]
    rfl
  | _ => cases hstring

theorem Site.Takes.leads_reference {t : PredicateToken} {r : Ast.Reference}
    (hc : site.Takes cfg t (.reference r)) (hquoted : Quoted t) (hunbroken : r.unbroken = true) :
    Leads r.text [(false, r.text)] ∧ Stands cfg site t (false, r.text) := by
  obtain ⟨w, htext, hleads, hstands⟩ := hc.leads (fun _ => []) hquoted hunbroken
    (fun q hq => absurd hq List.not_mem_nil)
  rw [← Option.some.inj htext] at hleads hstands
  exact ⟨hleads, hstands⟩

theorem Spells.leads {tokens : Tokens} {p : Ast.Predicate} (h : Spells cfg site tokens p)
    (hquoted : ∀ t ∈ tokens, Quoted t) (hprintable : p.printable = true)
    (hfloat : ∀ q ∈ p.doubles, Rereads floatText q) :
    ∃ w pieces, p.text floatText = some w ∧ Leads w pieces ∧
      List.Forall₂ (Stands cfg site) tokens pieces := by
  induction h with
  | @logical operator t first second left right span word _ _ ihLeft ihRight =>
    simp only [Ast.Predicate.printable, Bool.and_eq_true] at hprintable
    have hmember : operator.text ∈ reservedWords ∧ Leads operator.text [(false, operator.text)] := by
      cases operator <;> exact ⟨by decide, leads_keyword (by decide)⟩
    obtain ⟨w, pieces, htext, hleads, hstands⟩ := ihLeft
      (fun t ht => hquoted t (List.mem_append_left _ ht)) hprintable.1
      (fun q hq => hfloat q (List.mem_append_left _ hq))
    obtain ⟨w', pieces', htext', hleads', hstands'⟩ := ihRight
      (fun t ht => hquoted t (List.mem_append_right _ (List.mem_cons_of_mem _ ht))) hprintable.2
      (fun q hq => hfloat q (List.mem_append_right _ hq))
    have hmark := stands_mark cfg site
      (hquoted t (List.mem_append_right _ List.mem_cons_self)) hmember.1 word
    refine ⟨_, _, ?_, hleads.append (hmember.2.append hleads'),
      List.rel_append hstands (.cons hmark hstands')⟩
    simp only [Ast.Predicate.text, htext, htext']
    rfl
  | @not t more operand span word _ ih =>
    obtain ⟨w, pieces, htext, hleads, hstands⟩ := ih
      (fun t ht => hquoted t (List.mem_cons_of_mem _ ht)) hprintable hfloat
    have hmark := stands_mark cfg site (hquoted t List.mem_cons_self) (by decide) word
    refine ⟨_, _, ?_, (leads_keyword (by decide)).append hleads, .cons hmark hstands⟩
    simp only [Ast.Predicate.text, htext]
    rfl
  | @group opening closing more operand span opens closes _ ih =>
    obtain ⟨w, pieces, htext, hleads, hstands⟩ := ih
      (fun t ht => hquoted t (List.mem_cons_of_mem _ (List.mem_append_left _ ht))) hprintable hfloat
    have hopening := stands_mark cfg site (k := ['('])
      (hquoted opening List.mem_cons_self) (by decide) (by rw [opens]; rfl)
    have hclosing := stands_mark cfg site (k := [')'])
      (hquoted closing (List.mem_cons_of_mem _ (List.mem_append_right _ List.mem_cons_self)))
      (by decide) (by rw [closes]; rfl)
    refine ⟨_, _, ?_, hleads.group, .cons hopening (List.rel_append hstands (.cons hclosing .nil))⟩
    simp only [Ast.Predicate.text, htext]
    rfl
  | @status t succeeded span word =>
    have hmark : (if succeeded then "succeeded" else "failed").toList ∈ reservedWords ∧
        Leads (if succeeded then "succeeded" else "failed").toList
          [(false, (if succeeded then "succeeded" else "failed").toList)] := by
      cases succeeded <;> exact ⟨by decide, leads_keyword (by decide)⟩
    refine ⟨_, _, ?_, hmark.2, .cons (stands_mark cfg site (hquoted t List.mem_cons_self) hmark.1 word) .nil⟩
    cases succeeded <;> rfl
  | @present keyword t r span word takes =>
    obtain ⟨hleads, hstands⟩ := takes.leads_reference
      (hquoted t (List.mem_cons_of_mem _ List.mem_cons_self)) hprintable
    have hmark := stands_mark cfg site (hquoted keyword List.mem_cons_self)
      (by decide) word
    exact ⟨_, _, rfl, (leads_keyword (k := "exists".toList) (by decide)).append hleads,
      .cons hmark (.cons hstands .nil)⟩
  | @isNull t is null r source span takes isWord nullWord =>
    obtain ⟨hleads, hstands⟩ := takes.leads_reference (hquoted t List.mem_cons_self) hprintable
    have hkeywords := (leads_keyword (k := "is".toList) (by decide)).append
      (leads_keyword (k := "null".toList) (by decide))
    have his := stands_mark cfg site (hquoted is (by simp)) (by decide) isWord
    have hnull := stands_mark cfg site (hquoted null (by simp)) (by decide) nullWord
    exact ⟨_, _, rfl, hleads.append hkeywords, .cons hstands (.cons his (.cons hnull .nil))⟩
  | @isNotNull t is not null r source span takes isWord notWord nullWord =>
    obtain ⟨hleads, hstands⟩ := takes.leads_reference (hquoted t List.mem_cons_self) hprintable
    have hkeywords := (leads_keyword (k := "is".toList) (by decide)).append
      ((leads_keyword (k := "not".toList) (by decide)).append
        (leads_keyword (k := "null".toList) (by decide)))
    have his := stands_mark cfg site (hquoted is (by simp)) (by decide) isWord
    have hnot := stands_mark cfg site (hquoted not (by simp)) (by decide) notWord
    have hnull := stands_mark cfg site (hquoted null (by simp)) (by decide) nullWord
    exact ⟨_, _, rfl, hleads.append hkeywords,
      .cons hstands (.cons his (.cons hnot (.cons hnull .nil)))⟩
  | @comparison operator l o r left right span takesLeft word takesRight =>
    simp only [Ast.Predicate.printable, Bool.and_eq_true] at hprintable
    obtain ⟨w, htext, hleads, hstands⟩ := takesLeft.leads floatText (hquoted l List.mem_cons_self) hprintable.1
      (fun q hq => hfloat q (List.mem_append_left _ hq))
    obtain ⟨w', htext', hleads', hstands'⟩ := takesRight.leads floatText (hquoted r (by simp)) hprintable.2
      (fun q hq => hfloat q (List.mem_append_right _ hq))
    have hmember : operator.text ∈ reservedWords := by
      cases operator <;> decide
    have hmark := stands_mark cfg site (hquoted o (by simp)) hmember word
    refine ⟨_, _, ?_, hleads.append ((leads_operator operator).append hleads'),
      .cons hstands (.cons hmark (.cons hstands' .nil))⟩
    simp only [Ast.Predicate.text, htext, htext']
    rfl
  | @reference t r span takes =>
    obtain ⟨hleads, hstands⟩ := takes.leads_reference (hquoted t List.mem_cons_self) hprintable
    exact ⟨_, _, rfl, hleads, .cons hstands .nil⟩

def Meaningless (cfg : ParserConfig) (piece : Bool × Text) : Prop :=
  lower piece.2 ∉ reservedWords ∧
    ∀ (site : Site) start stop c, ¬site.Takes cfg ⟨piece.1, piece.2, start, stop⟩ c

theorem Referable.breaks {r : Ast.Reference} (h : Referable cfg r) (hbroken : r.unbroken = false) :
    Breaks (Meaningless cfg) r.text := by
  intro after all hall
  obtain ⟨c, w, hword, hc, hnone⟩ := h.torn hbroken after
  have hroots : ∀ root ∈ referenceRoots, identifier root = some root ∧
      root.head?.any (fun c => decide (c ∉ ['<', '>', '=', '!', '(', ')']) && !PyText.isSpace c &&
        decide (c ≠ '"')) = true := by decide
  obtain ⟨hidentifier, hhead⟩ := hroots _ h.root
  obtain ⟨d, hd, hplain⟩ := (Option.any_eq_true _ _).mp hhead
  simp only [Bool.and_eq_true, decide_eq_true_eq, Bool.not_eq_true'] at hplain
  obtain ⟨ds, hcons⟩ : ∃ ds, r.text ++ after = d :: ds := by
    rw [Ast.Reference.text]
    cases hroot : r.root.canonical with
    | nil =>
      rw [hroot] at hd
      cases hd
    | cons e es =>
      rw [hroot] at hd
      rw [← Option.some.inj hd]
      exact ⟨_, rfl⟩
  have htoken : tokenAt d ds = (false, r.root.canonical ++ c :: w) := by
    rw [tokenAt_plain hplain.1.1, if_neg hplain.2, ← hcons, hword]
  rw [hcons] at hall
  obtain ⟨more, rfl, -⟩ := (cuts_token hplain.1.2 htoken (by simp)).mp hall
  have hmem : c ∈ r.root.canonical ++ c :: w := List.mem_append_right _ List.mem_cons_self
  have hlower : c ∈ lower (r.root.canonical ++ c :: w) := by
    refine mem_lower hmem ?_
    rcases hc with rfl | rfl <;> decide
  have hmark : lower (r.root.canonical ++ c :: w) ∉ reservedWords := by
    intro hmark
    obtain ⟨hdot, hbracket, -⟩ := mark_chars hmark
    rcases hc with rfl | rfl
    · exact hdot hlower
    · exact hbracket hlower
  have hstart : identifier (r.root.canonical ++ c :: w) = some r.root.canonical := by
    have hend : PyText.isAlnum c = false ∧ c ≠ '-' := by
      rcases hc with rfl | rfl <;> decide
    exact PyText.identifier_append hidentifier hend.1 hend.2 w
  have hnumber : ∀ n, number? (r.root.canonical ++ c :: w) ≠ some n := by
    intro n hn
    rw [identifier_of_number hn] at hstart
    cases hstart
  refine ⟨_, List.mem_cons_self, hmark, ?_⟩
  intro site start stop operand htakes
  cases operand_of_comparable htakes with
  | reference found =>
    rw [hnone] at found
    cases found
  | string quoted => cases quoted
  | @boolean value span word =>
    have hliteral : ∀ v : Bool, '.' ∉ (if v then "true" else "false").toList ∧
        '[' ∉ (if v then "true" else "false").toList := by decide
    simp only [word] at hlower
    rcases hc with rfl | rfl
    · exact (hliteral value).1 hlower
    · exact (hliteral value).2 hlower
  | null word => exact hmark (word ▸ by decide)
  | integer found fits => exact hnumber _ (number_of_integer found)
  | number found => exact hnumber _ found

theorem Site.Takes.breaks {t : PredicateToken} {c : Comparable} {w : Text} (hc : site.Takes cfg t c)
    (floatText : ℚ → Text) (hunprintable : c.printable = false) (hw : c.text floatText = some w) :
    Breaks (Meaningless cfg) w := by
  have hcomposed := composed_of_comparable hc
  cases c with
  | reference r =>
    rw [← Option.some.inj hw]
    exact Referable.breaks hcomposed hunprintable
  | number source value span =>
    cases value with
    | none => cases hw
    | some q => cases hunprintable
  | _ => cases hunprintable

theorem Site.Takes.breaks_reference {t : PredicateToken} {r : Ast.Reference}
    (hc : site.Takes cfg t (.reference r)) (hbroken : r.unbroken = false) :
    Breaks (Meaningless cfg) r.text :=
  hc.breaks (fun _ => []) hbroken rfl

theorem Spells.breaks {tokens : Tokens} {p : Ast.Predicate} (h : Spells cfg site tokens p)
    (hquoted : ∀ t ∈ tokens, Quoted t) (hunprintable : p.printable = false)
    (hfloat : ∀ q ∈ p.doubles, Rereads floatText q) :
    ∀ w, p.text floatText = some w → Breaks (Meaningless cfg) w := by
  induction h with
  | @logical operator t first second left right span word spellsLeft _ ihLeft ihRight =>
    intro w hw
    have hkeyword : Leads operator.text [(false, operator.text)] := by
      cases operator <;> exact leads_keyword (by decide)
    have hfirst := fun t ht => hquoted t (List.mem_append_left _ ht)
    have hdoubles := fun q hq => hfloat q (List.mem_append_left _ hq)
    obtain ⟨u, hu, hw⟩ := Option.bind_eq_some_iff.mp hw
    obtain ⟨v, hv, hw⟩ := Option.bind_eq_some_iff.mp hw
    rw [← Option.some.inj hw]
    cases hleft : left.printable with
    | false => exact (ihLeft hfirst hleft hdoubles u hu).left _
    | true =>
      simp only [Ast.Predicate.printable, hleft, Bool.true_and] at hunprintable
      obtain ⟨u', pieces, hu', hleads, -⟩ := spellsLeft.leads hfirst hleft hdoubles
      obtain rfl : u' = u := Option.some.inj (hu'.symm.trans hu)
      have hright := ihRight (fun t ht => hquoted t (List.mem_append_right _ (List.mem_cons_of_mem _ ht)))
        hunprintable (fun q hq => hfloat q (List.mem_append_right _ hq)) v hv
      exact (hright.right hkeyword).right hleads
  | @not t more operand span word _ ih =>
    intro w hw
    obtain ⟨u, hu, hw⟩ := Option.bind_eq_some_iff.mp hw
    rw [← Option.some.inj hw]
    exact (ih (fun t ht => hquoted t (List.mem_cons_of_mem _ ht)) hunprintable hfloat u hu).right
      (leads_keyword (k := "not".toList) (by decide))
  | @group opening closing more operand span opens closes _ ih =>
    intro w hw
    obtain ⟨u, hu, hw⟩ := Option.bind_eq_some_iff.mp hw
    rw [← Option.some.inj hw]
    exact (ih (fun t ht => hquoted t (List.mem_cons_of_mem _ (List.mem_append_left _ ht))) hunprintable
      hfloat u hu).group
  | status word => cases hunprintable
  | present word takes =>
    intro w hw
    rw [← Option.some.inj hw]
    exact (takes.breaks_reference hunprintable).right (leads_keyword (k := "exists".toList) (by decide))
  | isNull takes isWord nullWord =>
    intro w hw
    rw [← Option.some.inj hw]
    exact (takes.breaks_reference hunprintable).left _
  | isNotNull takes isWord notWord nullWord =>
    intro w hw
    rw [← Option.some.inj hw]
    exact (takes.breaks_reference hunprintable).left _
  | @comparison operator l o r left right span takesLeft word takesRight =>
    intro w hw
    obtain ⟨u, hu, hw⟩ := Option.bind_eq_some_iff.mp hw
    obtain ⟨v, hv, hw⟩ := Option.bind_eq_some_iff.mp hw
    rw [← Option.some.inj hw]
    cases hleft : left.printable with
    | false => exact (takesLeft.breaks floatText hleft hu).left _
    | true =>
      simp only [Ast.Predicate.printable, hleft, Bool.true_and] at hunprintable
      obtain ⟨u', hu', hleads, -⟩ := takesLeft.leads floatText (hquoted l List.mem_cons_self) hleft
        (fun q hq => hfloat q (List.mem_append_left _ hq))
      obtain rfl : u' = u := Option.some.inj (hu'.symm.trans hu)
      exact ((takesRight.breaks floatText hunprintable hv).right (leads_operator operator)).right hleads
  | reference takes =>
    intro w hw
    rw [← Option.some.inj hw]
    exact takes.breaks_reference hunprintable

theorem Spells.meaning {tokens : Tokens} {p : Ast.Predicate} (h : Spells cfg site tokens p) :
    ∀ t ∈ tokens, lower t.value ∈ reservedWords ∨ ∃ c, site.Takes cfg t c := by
  induction h with
  | @logical operator t first second left right span word _ _ ihLeft ihRight =>
    intro t' ht'
    rcases List.mem_append.mp ht' with ht' | ht'
    · exact ihLeft t' ht'
    · rcases List.mem_cons.mp ht' with rfl | ht'
      · left
        rw [word]
        cases operator <;> decide
      · exact ihRight t' ht'
  | not word _ ih =>
    intro t' ht'
    rcases List.mem_cons.mp ht' with rfl | ht'
    · exact .inl (word ▸ by decide)
    · exact ih t' ht'
  | group opens closes _ ih =>
    intro t' ht'
    rcases List.mem_cons.mp ht' with rfl | ht'
    · exact .inl (by rw [opens]; decide)
    · rcases List.mem_append.mp ht' with ht' | ht'
      · exact ih t' ht'
      · rw [List.mem_singleton.mp ht', closes]
        exact .inl (by decide)
  | @status t succeeded span word =>
    intro t' ht'
    rw [List.mem_singleton.mp ht', word]
    cases succeeded <;> exact .inl (by decide)
  | present word takes =>
    simp only [List.forall_mem_cons, List.not_mem_nil, IsEmpty.forall_iff, implies_true, and_true]
    exact ⟨.inl (word ▸ by decide), .inr ⟨_, takes⟩⟩
  | isNull takes isWord nullWord =>
    simp only [List.forall_mem_cons, List.not_mem_nil, IsEmpty.forall_iff, implies_true, and_true]
    exact ⟨.inr ⟨_, takes⟩, .inl (isWord ▸ by decide), .inl (nullWord ▸ by decide)⟩
  | isNotNull takes isWord notWord nullWord =>
    simp only [List.forall_mem_cons, List.not_mem_nil, IsEmpty.forall_iff, implies_true, and_true]
    exact ⟨.inr ⟨_, takes⟩, .inl (isWord ▸ by decide), .inl (notWord ▸ by decide),
      .inl (nullWord ▸ by decide)⟩
  | @comparison operator l o r left right span takesLeft word takesRight =>
    have hmark : operator.text ∈ reservedWords := by
      cases operator <;> decide
    simp only [List.forall_mem_cons, List.not_mem_nil, IsEmpty.forall_iff, implies_true, and_true]
    exact ⟨.inr ⟨_, takesLeft⟩, .inl (word ▸ hmark), .inr ⟨_, takesRight⟩⟩
  | reference takes =>
    simp only [List.forall_mem_cons, List.not_mem_nil, IsEmpty.forall_iff, implies_true, and_true]
    exact .inr ⟨_, takes⟩

end Printed

end Raticode.Rattish
