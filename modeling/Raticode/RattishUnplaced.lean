import Raticode.Lockstep
import Raticode.RattishParser

/-! A document without its spans. The readers of one line give the same, up to
spans, on two lines with the same text. -/
namespace Raticode.Rattish
open Attempt

def nowhere : SourceSpan := ⟨⟨0, 0, 0⟩, ⟨0, 0, 0⟩⟩

namespace Ast

def Identifier.unplaced (i : Identifier) : Identifier := { i with span := nowhere }

def RefSelector.unplaced : RefSelector → RefSelector
  | .dot source role _ => .dot source role nowhere
  | .bracket source _ => .bracket source nowhere
  | .index source value _ => .index source value nowhere

def Reference.unplaced (r : Reference) : Reference :=
  ⟨r.root.unplaced, r.selectors.map RefSelector.unplaced, nowhere⟩

def Comparable.unplaced : Comparable → Comparable
  | .reference r => .reference r.unplaced
  | .string source value _ => .string source value nowhere
  | .boolean source value _ => .boolean source value nowhere
  | .null source _ => .null source nowhere
  | .integer source value _ => .integer source value nowhere
  | .number source value _ => .number source value nowhere

def Predicate.unplaced : Predicate → Predicate
  | .logical operator source left right _ => .logical operator source left.unplaced right.unplaced nowhere
  | .not source operand _ => .not source operand.unplaced nowhere
  | .group operand _ => .group operand.unplaced nowhere
  | .status source succeeded _ => .status source succeeded nowhere
  | .exists source r _ => .exists source r.unplaced nowhere
  | .nullTest r isNull source _ => .nullTest r.unplaced isNull source nowhere
  | .comparison operator source left right _ =>
    .comparison operator source left.unplaced right.unplaced nowhere
  | .reference r _ => .reference r.unplaced nowhere

def MapKey.unplaced : MapKey → MapKey
  | .identifier i => .identifier i.unplaced
  | .string source value _ => .string source value nowhere

mutual
def Val.unplaced : Val → Val
  | .identifierValue source canonical _ => .identifierValue source canonical nowhere
  | .string style source value _ => .string style source value nowhere
  | .json source value _ => .json source value nowhere
  | .boolean source value _ => .boolean source value nowhere
  | .none source _ => .none source nowhere
  | .null source _ => .null source nowhere
  | .duration source amount unitSource canonicalUnit _ =>
    .duration source amount unitSource canonicalUnit nowhere
  | .integer source value _ => .integer source value nowhere
  | .number source value _ => .number source value nowhere
  | .reference r => .reference r.unplaced
  | .expression e _ => .expression e.unplaced nowhere
  | .list items _ => .list (unplacedItems items) nowhere
  | .map entries _ => .map (unplacedEntries entries) nowhere

def unplacedItems : List Val → List Val
  | [] => []
  | value :: values => value.unplaced :: unplacedItems values

def unplacedEntries : List (MapKey × Val × SourceSpan) → List (MapKey × Val × SourceSpan)
  | [] => []
  | (key, value, _) :: entries => (key.unplaced, value.unplaced, nowhere) :: unplacedEntries entries
end

def Field.unplaced (f : Field) : Field := ⟨f.name.unplaced, f.value.unplaced, nowhere⟩

def RouteMode.unplaced : RouteMode → RouteMode
  | .unconditional => .unconditional
  | .when predicate => .when predicate.unplaced
  | .otherwise => .otherwise

def Route.unplaced (r : Route) : Route := ⟨r.target.unplaced, r.mode.unplaced, nowhere⟩

def BindingEntry.unplaced : BindingEntry → BindingEntry
  | .source keyword reference _ => .source keyword reference.unplaced nowhere
  | .default keyword value _ => .default keyword value.unplaced nowhere

def Binding.unplaced : Binding → Binding
  | .compact name value _ => .compact name.unplaced value.unplaced nowhere
  | .expanded name entries _ => .expanded name.unplaced (entries.map BindingEntry.unplaced) nowhere

def Entry.unplaced : Entry → Entry
  | .field f => .field f.unplaced
  | .needs source form nodes _ => .needs source form (nodes.map Identifier.unplaced) nowhere
  | .routes source form rs _ => .routes source form (rs.map Route.unplaced) nowhere
  | .bindings source bs _ => .bindings source (bs.map Binding.unplaced) nowhere

def Version.unplaced (v : Version) : Version := { v with span := nowhere }

def Workflow.unplaced (w : Workflow) : Workflow :=
  ⟨w.keywordSource, w.entries.map Field.unplaced, nowhere⟩

def NodeDecl.unplaced (n : NodeDecl) : NodeDecl :=
  ⟨n.keywordSource, n.name.unplaced, n.entries.map Entry.unplaced, nowhere⟩

def Document.unplaced (d : Document) : Document :=
  ⟨d.sourceId, nowhere, d.version.unplaced, d.workflow.unplaced, d.nodes.map NodeDecl.unplaced⟩

end Ast

def Failure.unplaced : Failure → Failure
  | .parseError diagnostic => .parseError { diagnostic with span := nowhere }
  | e => e

def SameBy {α β : Type} (f : α → β) (a a' : α) : Prop := f a = f a'

abbrev Agree {α β : Type} (f : α → β) (x x' : Except Failure α) : Prop :=
  Alike (SameBy Failure.unplaced) (SameBy f) x x'

theorem Agree.refl {α β : Type} (f : α → β) (x : Except Failure α) : Agree f x x :=
  Alike.refl (E := SameBy Failure.unplaced) (A := SameBy f) (fun _ => rfl) (fun _ => rfl) x

section Terms
variable {cfg : ParserConfig} {line line' : SourceLine}

theorem canonical?_unplaced (s : Ast.RefSelector) : s.unplaced.canonical? = s.canonical? := by
  rcases s with ⟨_, _ | _, _⟩ | _ | _ <;> rfl

theorem getElem?_canonical {selectors selectors' : List Ast.RefSelector} (i : ℕ)
    (h : SameBy (List.map Ast.RefSelector.unplaced) selectors selectors') :
    selectors[i]?.bind Ast.RefSelector.canonical? = selectors'[i]?.bind Ast.RefSelector.canonical? := by
  have hi : (selectors.map Ast.RefSelector.unplaced)[i]? =
      (selectors'.map Ast.RefSelector.unplaced)[i]? := by rw [h]
  rw [List.getElem?_map, List.getElem?_map] at hi
  cases hs : selectors[i]? with
  | none =>
    cases hs' : selectors'[i]? with
    | none => rfl
    | some s' => simp [hs, hs'] at hi
  | some s =>
    cases hs' : selectors'[i]? with
    | none => simp [hs, hs'] at hi
    | some s' =>
      rw [hs, hs'] at hi
      have heq : s.unplaced = s'.unplaced := Option.some.inj hi
      simp only [Option.bind_some]
      rw [← canonical?_unplaced s, ← canonical?_unplaced s', heq]

theorem jsonModeAfter_same {root : Text} {jsonMode : Bool} {selectors selectors' : List Ast.RefSelector}
    (h : SameBy (List.map Ast.RefSelector.unplaced) selectors selectors') :
    jsonModeAfter root selectors jsonMode = jsonModeAfter root selectors' jsonMode := by
  have hlen : selectors.length = selectors'.length := by
    have := congrArg List.length h
    simpa using this
  unfold jsonModeAfter
  rw [getElem?_canonical 0 h, getElem?_canonical 1 h, hlen]

theorem bracketSelector_agree (inner : Text) (span span' : SourceSpan) :
    Agree (Option.map Ast.RefSelector.unplaced) (bracketSelector cfg inner span)
      (bracketSelector cfg inner span') := by
  unfold bracketSelector
  split
  next n _ =>
    cases intOf cfg n with
    | error e => rfl
    | ok z =>
      simp only [Except.map]
      split <;> rfl
  · split <;> rfl

theorem append_same {selectors selectors' : List Ast.RefSelector} {s s' : Ast.RefSelector}
    (h : SameBy (List.map Ast.RefSelector.unplaced) selectors selectors')
    (hs : s.unplaced = s'.unplaced) :
    SameBy (List.map Ast.RefSelector.unplaced) (selectors ++ [s]) (selectors' ++ [s']) := by
  unfold SameBy at h ⊢
  rw [List.map_append, List.map_append, h, List.map_singleton, List.map_singleton, hs]

theorem readSelectors_agree (root : Text) (n cursor : ℕ) (rest : Text)
    (selectors selectors' : List Ast.RefSelector) (jsonMode : Bool)
    (h : SameBy (List.map Ast.RefSelector.unplaced) selectors selectors') :
    Agree (Option.map (List.map Ast.RefSelector.unplaced))
      (readSelectors cfg line root n cursor rest selectors jsonMode)
      (readSelectors cfg line' root n cursor rest selectors' jsonMode) := by
  fun_induction readSelectors cfg line root n cursor rest selectors jsonMode
    generalizing selectors' with
  | case1 =>
    unfold readSelectors
    exact congrArg some h
  | case2 _ _ _ _ hne =>
    rw [readSelectors]
    · rfl
    · exact hne
  | case3 _ _ _ _ _ hnone =>
    simp only [readSelectors, hnone]
    rfl
  | case4 n cursor rest selectors jsonMode source hsegment role stop more ih =>
    simp only [readSelectors, hsegment]
    have hmore : SameBy (List.map Ast.RefSelector.unplaced) more
        (selectors' ++ [.dot source role (line'.span (cursor + 1) stop)]) := append_same h rfl
    rw [jsonModeAfter_same hmore]
    refine (Agree.refl id (jsonModeAfter root _ jsonMode)).bind ?_
    rintro mode _ rfl
    exact ih mode _ hmore
  | case5 _ _ _ _ _ hnone =>
    simp only [readSelectors, hnone]
    rfl
  | case6 n cursor rest selectors jsonMode inner after hsplit stop ih =>
    simp only [readSelectors, hsplit]
    refine (bracketSelector_agree inner _ _).bind ?_
    intro found found' hfound
    cases found with
    | none =>
      cases found' with
      | none => rfl
      | some s' => cases hfound
    | some s =>
      cases found' with
      | none => cases hfound
      | some s' => exact ih s _ (append_same h (Option.some.inj hfound))
  | case7 n cursor rest selectors jsonMode hnil hzero hdot hbracket =>
    rw [readSelectors]
    · rfl
    · exact hzero
    · exact hnil
    · exact hdot
    · exact hbracket

theorem tryReference_agree (text : Text) (start : ℕ) :
    Agree (Option.map Ast.Reference.unplaced) (tryReference cfg line text start)
      (tryReference cfg line' text start) := by
  unfold tryReference
  split
  · rfl
  · split
    · rfl
    · refine (readSelectors_agree _ _ _ _ [] [] false rfl).bind ?_
      intro found found' hfound
      cases found with
      | none =>
        cases found' with
        | none => rfl
        | some s' => cases hfound
      | some s =>
        cases found' with
        | none => cases hfound
        | some s' =>
          have hs : s.map Ast.RefSelector.unplaced = s'.map Ast.RefSelector.unplaced :=
            Option.some.inj hfound
          simp [Alike, SameBy, pure, Except.pure, Ast.Reference.unplaced, hs, identifierJson,
            Ast.Identifier.unplaced]

variable {text : Text} {base : ℕ} {allowStatus : Bool}

theorem predicateError_agree {α β : Type} (f : α → β) (message : String)
    (token : Option PredicateToken) :
    Agree f (predicateError cfg text line base message token : Except Failure α)
      (predicateError cfg text line' base message token) :=
  rfl

theorem nextToken_agree (tokens : Tokens) :
    Agree id (nextToken cfg text line base tokens) (nextToken cfg text line' base tokens) := by
  unfold nextToken
  split
  · rfl
  · exact predicateError_agree _ _ _

theorem expectWord_agree (word : String) (tokens : Tokens) :
    Agree id (expectWord cfg text line base word tokens)
      (expectWord cfg text line' base word tokens) := by
  unfold expectWord
  split
  · rfl
  · exact predicateError_agree _ _ _

theorem expectSymbol_agree (symbol : String) (tokens : Tokens) :
    Agree id (expectSymbol cfg text line base symbol tokens)
      (expectSymbol cfg text line' base symbol tokens) := by
  unfold expectSymbol
  split
  · rfl
  · exact predicateError_agree _ _ _

theorem comparable_agree (token : PredicateToken) :
    Agree Ast.Comparable.unplaced (comparable cfg text line base token)
      (comparable cfg text line' base token) := by
  unfold comparable
  refine (tryReference_agree _ _).bind ?_
  intro found found' hfound
  cases found with
  | some r =>
    cases found' with
    | none => cases hfound
    | some r' => exact congrArg Ast.Comparable.reference (Option.some.inj hfound)
  | none =>
    cases found' with
    | some r' => cases hfound
    | none =>
      simp only
      split
      · split
        · rfl
        · exact predicateError_agree _ _ _
      · split
        · rfl
        · split
          · rfl
          · split
            · rfl
            · split
              · refine (Agree.refl id (intOf cfg _)).bind ?_
                rintro z _ rfl
                rfl
              · rfl
              · exact predicateError_agree _ _ _

theorem predicateReference_agree (token : PredicateToken) :
    Agree Ast.Reference.unplaced (predicateReference cfg text line base token)
      (predicateReference cfg text line' base token) := by
  unfold predicateReference
  refine (tryReference_agree _ _).bind ?_
  intro found found' hfound
  cases found with
  | some r =>
    cases found' with
    | none => cases hfound
    | some r' => exact Option.some.inj hfound
  | none =>
    cases found' with
    | some r' => cases hfound
    | none => exact predicateError_agree _ _ _

def unplacedHead (p : Ast.Predicate × Tokens) : Ast.Predicate × Tokens := (p.1.unplaced, p.2)

theorem comparable_cases {left left' : Ast.Comparable} (h : left.unplaced = left'.unplaced) :
    (∃ r r', left = .reference r ∧ left' = .reference r' ∧ r.unplaced = r'.unplaced) ∨
      (∀ r, left ≠ .reference r) ∧ ∀ r, left' ≠ .reference r := by
  cases left with
  | reference r =>
    cases left' with
    | reference r' => exact .inl ⟨r, r', rfl, rfl, Ast.Comparable.reference.inj h⟩
    | _ => cases h
  | _ =>
    cases left' with
    | reference r' => cases h
    | _ => exact .inr ⟨fun r => nofun, fun r => nofun⟩

theorem parseComparison_agree (tokens : Tokens) :
    Agree unplacedHead (parseComparison cfg text line base tokens)
      (parseComparison cfg text line' base tokens) := by
  unfold parseComparison
  refine (nextToken_agree tokens).bind ?_
  rintro ⟨leftToken, rest⟩ _ rfl
  refine (comparable_agree leftToken).bind ?_
  intro left left' hleft
  have hcases := comparable_cases hleft
  simp only
  split
  · refine (expectWord_agree "null" _).bind ?_
    rintro ⟨nullToken, rest⟩ _ rfl
    rcases hcases with ⟨r, r', rfl, rfl, hr⟩ | ⟨hnone, hnone'⟩
    · simp only [Alike, SameBy, unplacedHead, pure, Except.pure, Ast.Predicate.unplaced, hr, id]
    · simp only
      exact predicateError_agree _ _ _
  · split
    · refine (nextToken_agree _).bind ?_
      rintro ⟨rightToken, rest⟩ _ rfl
      refine (comparable_agree rightToken).bind ?_
      intro right right' hright
      have hl : left.unplaced = left'.unplaced := hleft
      have hr : right.unplaced = right'.unplaced := hright
      simp only [Alike, SameBy, unplacedHead, pure, Except.pure, Ast.Predicate.unplaced, hl, hr, id]
    · rcases hcases with ⟨r, r', rfl, rfl, hr⟩ | ⟨hnone, hnone'⟩
      · simp only [Alike, SameBy, unplacedHead, pure, Except.pure, Ast.Predicate.unplaced, hr]
      · simp only
        exact predicateError_agree _ _ _

theorem parseAtom_agree (tokens : Tokens) :
    Agree unplacedHead (parseAtom cfg text line base allowStatus tokens)
      (parseAtom cfg text line' base allowStatus tokens) := by
  unfold parseAtom
  split
  · rfl
  · split
    · refine (nextToken_agree _).bind ?_
      rintro ⟨token, rest⟩ _ rfl
      refine (predicateReference_agree token).bind ?_
      intro r r' hr
      simp only [Alike, SameBy, unplacedHead, pure, Except.pure, Ast.Predicate.unplaced]
      rw [hr]
    · exact parseComparison_agree tokens

structure PredicatesAgree (cfg : ParserConfig) (line line' : SourceLine) (text : Text) (base : ℕ)
    (allowStatus : Bool) (n : ℕ) : Prop where
  or : ∀ tokens, Agree unplacedHead (parseOr cfg text line base allowStatus n tokens)
    (parseOr cfg text line' base allowStatus n tokens)
  orTail : ∀ left left' tokens, left.unplaced = left'.unplaced →
    Agree unplacedHead (parseOrTail cfg text line base allowStatus n left tokens)
      (parseOrTail cfg text line' base allowStatus n left' tokens)
  and : ∀ tokens, Agree unplacedHead (parseAnd cfg text line base allowStatus n tokens)
    (parseAnd cfg text line' base allowStatus n tokens)
  andTail : ∀ left left' tokens, left.unplaced = left'.unplaced →
    Agree unplacedHead (parseAndTail cfg text line base allowStatus n left tokens)
      (parseAndTail cfg text line' base allowStatus n left' tokens)
  unary : ∀ tokens, Agree unplacedHead (parseUnary cfg text line base allowStatus n tokens)
    (parseUnary cfg text line' base allowStatus n tokens)
  primary : ∀ tokens, Agree unplacedHead (parsePrimary cfg text line base allowStatus n tokens)
    (parsePrimary cfg text line' base allowStatus n tokens)

theorem unplacedHead_eq {p p' : Ast.Predicate × Tokens} (h : SameBy unplacedHead p p') :
    p.1.unplaced = p'.1.unplaced ∧ p.2 = p'.2 := by
  exact Prod.mk.inj h

theorem predicatesAgree (n : ℕ) : PredicatesAgree cfg line line' text base allowStatus n := by
  induction n with
  | zero =>
    constructor <;> intros <;> rfl
  | succ n ih =>
    constructor
    · intro tokens
      unfold parseOr
      refine (ih.and tokens).bind ?_
      rintro ⟨left, rest⟩ ⟨left', rest'⟩ h
      obtain ⟨hleft, rfl⟩ := unplacedHead_eq h
      exact ih.orTail left left' _ hleft
    · intro left left' tokens hleft
      unfold parseOrTail
      split
      · simp only [Alike, SameBy, unplacedHead, hleft]
      · refine (ih.and _).bind ?_
        rintro ⟨right, rest⟩ ⟨right', rest'⟩ h
        obtain ⟨hright, rfl⟩ := unplacedHead_eq h
        apply ih.orTail
        simp only [Ast.Predicate.unplaced, hleft, hright]
    · intro tokens
      unfold parseAnd
      refine (ih.unary tokens).bind ?_
      rintro ⟨left, rest⟩ ⟨left', rest'⟩ h
      obtain ⟨hleft, rfl⟩ := unplacedHead_eq h
      exact ih.andTail left left' _ hleft
    · intro left left' tokens hleft
      unfold parseAndTail
      split
      · simp only [Alike, SameBy, unplacedHead, hleft]
      · refine (ih.unary _).bind ?_
        rintro ⟨right, rest⟩ ⟨right', rest'⟩ h
        obtain ⟨hright, rfl⟩ := unplacedHead_eq h
        apply ih.andTail
        simp only [Ast.Predicate.unplaced, hleft, hright]
    · intro tokens
      unfold parseUnary
      split
      · refine (ih.unary _).bind ?_
        rintro ⟨operand, rest⟩ ⟨operand', rest'⟩ h
        obtain ⟨hoperand, rfl⟩ := unplacedHead_eq h
        simp only [Alike, SameBy, unplacedHead, pure, Except.pure, Ast.Predicate.unplaced]
        rw [hoperand]
      · exact ih.primary tokens
    · intro tokens
      unfold parsePrimary
      split
      · refine (ih.or _).bind ?_
        rintro ⟨operand, rest⟩ ⟨operand', rest'⟩ h
        obtain ⟨hoperand, rfl⟩ := unplacedHead_eq h
        refine (expectSymbol_agree ")" _).bind ?_
        rintro ⟨closing, rest⟩ _ rfl
        simp only [Alike, SameBy, unplacedHead, pure, Except.pure, Ast.Predicate.unplaced]
        rw [hoperand]
        rfl
      · exact parseAtom_agree tokens

theorem parsePredicate_agree :
    Agree Ast.Predicate.unplaced (parsePredicate cfg text line base allowStatus)
      (parsePredicate cfg text line' base allowStatus) := by
  unfold parsePredicate
  refine (Agree.refl id (tokenize text.length 0 text)).bind ?_
  rintro tokens _ rfl
  refine ((predicatesAgree _).or _).bind ?_
  rintro ⟨predicate, rest⟩ ⟨predicate', rest'⟩ h
  obtain ⟨hpredicate, rfl⟩ := unplacedHead_eq h
  cases rest with
  | nil => exact hpredicate
  | cons token rest => exact predicateError_agree _ _ _

end Terms

end Raticode.Rattish
