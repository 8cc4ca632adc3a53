import Raticode.RattishFailureRoutes

/-! Repeated routes: the signature by which the compiler tells that a node repeats a
route, and when it agrees with what the routes lower to. -/
namespace Raticode.Rattish
open OrderedDict

namespace Ast

/-- `_semantic_value` of a selector: its kind, notation, role and canonical spelling, or
its index. -/
inductive SelectorValue where
  | member (bracket : Bool) (role : Role) (canonical : Option Text)
  | index (value : ℕ)
  deriving DecidableEq

def RefSelector.semanticValue : RefSelector → SelectorValue
  | .dot source .identifier _ => .member false .identifier (some (PyText.lower source))
  | .dot _ .jsonMember _ => .member false .jsonMember none
  | .bracket _ _ => .member true .jsonMember none
  | .index _ value _ => .index value

structure ReferenceValue where
  root : Text
  selectors : List SelectorValue
  deriving DecidableEq

def Reference.semanticValue (reference : Reference) : ReferenceValue :=
  ⟨reference.root.canonical, reference.selectors.map RefSelector.semanticValue⟩

inductive ComparableValue where
  | reference (reference : ReferenceValue)
  | string (value : Text)
  | boolean (value : Bool)
  | null
  | integer (value : ℤ)
  | number (value : Option ℚ) (negative : Bool)
  deriving DecidableEq

/-- The sign of a double that its value does not tell, of a zero or an infinity. -/
def signBit (source : Text) (value : Option ℚ) : Bool :=
  source.head? = some '-' && (value = some 0 || value = none)

def Comparable.semanticValue : Comparable → ComparableValue
  | .reference r => .reference r.semanticValue
  | .string _ value _ => .string value
  | .boolean _ value _ => .boolean value
  | .null _ _ => .null
  | .integer _ value _ => .integer value
  | .number source value _ => .number value (signBit source value)

/-- `_semantic_value` of a predicate. The spelling of an operator stays, that of a
status and of `exists` goes. -/
inductive PredicateValue where
  | logical (operator : LogicalOperator) (operatorSource : Text) (left right : PredicateValue)
  | not (operatorSource : Text) (operand : PredicateValue)
  | group (operand : PredicateValue)
  | status (succeeded : Bool)
  | exists (reference : ReferenceValue)
  | nullTest (reference : ReferenceValue) (isNull : Bool) (operatorSource : Text)
  | comparison (operator : Comparison) (operatorSource : Text) (left right : ComparableValue)
  | reference (reference : ReferenceValue)
  deriving DecidableEq

def Predicate.semanticValue : Predicate → PredicateValue
  | .logical operator source left right _ =>
    .logical operator source left.semanticValue right.semanticValue
  | .not source operand _ => .not source operand.semanticValue
  | .group operand _ => .group operand.semanticValue
  | .status _ succeeded _ => .status succeeded
  | .exists _ r _ => .exists r.semanticValue
  | .nullTest r isNull source _ => .nullTest r.semanticValue isNull source
  | .comparison operator source left right _ =>
    .comparison operator source left.semanticValue right.semanticValue
  | .reference r _ => PredicateValue.reference r.semanticValue

inductive ModeValue where
  | unconditional
  | when (predicate : PredicateValue)
  | otherwise
  deriving DecidableEq

/-- `_semantic_value` of a route. Its sorted JSON text is the signature of the route;
two texts are equal exactly when the values are. -/
structure RouteValue where
  target : Text
  mode : ModeValue
  deriving DecidableEq

def Route.semanticValue (route : Route) : RouteValue where
  target := route.target.canonical
  mode := match route.mode with
    | .unconditional => .unconditional
    | .when predicate => .when predicate.semanticValue
    | .otherwise => .otherwise

end Ast

section Analysis
variable (draft : Draft)

def duplicateRoute (route : Ast.Route) : Diagnostic :=
  let target := String.ofList route.target.canonical
  { code := "RATTISH_DUPLICATE_ROUTE"
    message := "Node " ++ quoted draft.nodeId ++ " repeats the same route to " ++
      quoted target ++ "."
    span := route.span
    details := [("source_node", draft.nodeId), ("target", target)] }

/-- The part of `_analyze_graph` that reports repeated routes, from the signatures seen
so far on. -/
def duplicateRoutes : List Ast.RouteValue → List Ast.Route → List Diagnostic
  | _, [] => []
  | seen, route :: routes =>
    (if route.semanticValue ∈ seen then [duplicateRoute draft route] else []) ++
      duplicateRoutes (route.semanticValue :: seen) routes

def ReportedFor (first second : Ast.Route) : Prop :=
  duplicateRoutes draft [first.semanticValue] [second] ≠ []

theorem reportedFor_iff (first second : Ast.Route) :
    ReportedFor draft first second ↔ second.semanticValue = first.semanticValue := by
  simp [ReportedFor, duplicateRoutes]

end Analysis

def lowerMode (source : Draft) (drafts : Dict NodeId Draft) : Ast.RouteMode → Option RouteMode
  | .unconditional => some .unconditional
  | .when predicate => (lowerPredicate source drafts predicate).map .conditional
  | .otherwise => some .otherwise

def lowerRoute (source : Draft) (drafts : Dict NodeId Draft) (route : Ast.Route) : Option Route := do
  let mode ← lowerMode source drafts route.mode
  return { target := String.ofList route.target.canonical, mode := mode,
           eligibleOutcomes := [.success, .allowedFailure] }

namespace Ast

def RefSelector.Alike : RefSelector → RefSelector → Prop
  | .dot a .identifier _, .dot b .identifier _ => PyText.lower a = PyText.lower b
  | .dot _ .jsonMember _, .dot _ .jsonMember _ => True
  | .bracket _ _, .bracket _ _ => True
  | .index _ m _, .index _ n _ => m = n
  | _, _ => False

def Reference.Alike (a b : Reference) : Prop :=
  a.root.canonical = b.root.canonical ∧ List.Forall₂ RefSelector.Alike a.selectors b.selectors

def Comparable.Alike : Comparable → Comparable → Prop
  | .reference a, .reference b => a.Alike b
  | .string _ v _, .string _ w _ => v = w
  | .boolean _ v _, .boolean _ w _ => v = w
  | .null _ _, .null _ _ => True
  | .integer _ v _, .integer _ w _ => v = w
  | .number s v _, .number s' w _ => v = w ∧ signBit s v = signBit s' w
  | _, _ => False

/-- Predicates that differ in nothing but the names of JSON members and the case of
`exists`, `failed` and `succeeded`. -/
def Predicate.Alike : Predicate → Predicate → Prop
  | .logical op s l r _, .logical op' s' l' r' _ => op = op' ∧ s = s' ∧ l.Alike l' ∧ r.Alike r'
  | .not s p _, .not s' q _ => s = s' ∧ p.Alike q
  | .group p _, .group q _ => p.Alike q
  | .status _ b _, .status _ b' _ => b = b'
  | .exists _ a _, .exists _ b _ => a.Alike b
  | .nullTest a n s _, .nullTest b n' s' _ => a.Alike b ∧ n = n' ∧ s = s'
  | .comparison op s l r _, .comparison op' s' l' r' _ => op = op' ∧ s = s' ∧ l.Alike l' ∧ r.Alike r'
  | .reference a _, .reference b _ => a.Alike b
  | _, _ => False

def RouteMode.Alike : RouteMode → RouteMode → Prop
  | .unconditional, .unconditional => True
  | .when p, .when q => p.Alike q
  | .otherwise, .otherwise => True
  | _, _ => False

def Route.Alike (r s : Route) : Prop :=
  r.target.canonical = s.target.canonical ∧ r.mode.Alike s.mode

def Comparable.SpelledAlike : Comparable → Comparable → Prop
  | .reference a, .reference b => a.Alike b
  | .number s v _, .number s' w _ => signBit s v = signBit s' w
  | _, _ => True

/-- Predicates with the same parentheses, whose operator words are spelled alike, whose
references are written in one notation and whose zeros have one sign. -/
def Predicate.SpelledAlike : Predicate → Predicate → Prop
  | .logical _ s l r _, .logical _ s' l' r' _ => s = s' ∧ l.SpelledAlike l' ∧ r.SpelledAlike r'
  | .not s p _, .not s' q _ => s = s' ∧ p.SpelledAlike q
  | .group p _, .group q _ => p.SpelledAlike q
  | .status _ _ _, .status _ _ _ => True
  | .exists _ a _, .exists _ b _ => a.Alike b
  | .nullTest a _ s _, .nullTest b _ s' _ => a.Alike b ∧ s = s'
  | .comparison _ s l r _, .comparison _ s' l' r' _ =>
    s = s' ∧ l.SpelledAlike l' ∧ r.SpelledAlike r'
  | .reference a _, .reference b _ => a.Alike b
  | _, _ => False

def Route.SpelledAlike (r s : Route) : Prop :=
  match r.mode, s.mode with
  | .when p, .when q => p.SpelledAlike q
  | _, _ => True

theorem RefSelector.semanticValue_eq_iff (a b : RefSelector) :
    a.semanticValue = b.semanticValue ↔ a.Alike b := by
  rcases a with ⟨_, _ | _, _⟩ | _ | _ <;> rcases b with ⟨_, _ | _, _⟩ | _ | _ <;>
    simp [RefSelector.semanticValue, RefSelector.Alike]

theorem Reference.semanticValue_eq_iff (a b : Reference) :
    a.semanticValue = b.semanticValue ↔ a.Alike b := by
  have hselectors : a.selectors.map RefSelector.semanticValue =
        b.selectors.map RefSelector.semanticValue ↔
      List.Forall₂ RefSelector.Alike a.selectors b.selectors := by
    rw [← List.forall₂_eq_eq_eq, List.forall₂_map_left_iff, List.forall₂_map_right_iff]
    simp only [RefSelector.semanticValue_eq_iff]
  simp only [Reference.semanticValue, ReferenceValue.mk.injEq, hselectors, Reference.Alike]

theorem Comparable.semanticValue_eq_iff (a b : Comparable) :
    a.semanticValue = b.semanticValue ↔ a.Alike b := by
  cases a <;> cases b <;>
    simp [Comparable.semanticValue, Comparable.Alike, Reference.semanticValue_eq_iff]

theorem Predicate.semanticValue_eq_iff (p q : Predicate) :
    p.semanticValue = q.semanticValue ↔ p.Alike q := by
  induction p generalizing q with
  | logical op s l r span ihl ihr =>
    cases q <;> simp [Predicate.semanticValue, Predicate.Alike, ihl, ihr]
  | not s p span ih => cases q <;> simp [Predicate.semanticValue, Predicate.Alike, ih]
  | group p span ih => cases q <;> simp [Predicate.semanticValue, Predicate.Alike, ih]
  | status | «exists» | nullTest | reference =>
    cases q <;> simp [Predicate.semanticValue, Predicate.Alike, Reference.semanticValue_eq_iff]
  | comparison op s l r span =>
    cases q <;> simp [Predicate.semanticValue, Predicate.Alike, Comparable.semanticValue_eq_iff]

theorem Route.semanticValue_eq_iff (r s : Route) : r.semanticValue = s.semanticValue ↔ r.Alike s := by
  obtain ⟨target, mode, span⟩ := r
  obtain ⟨target', mode', span'⟩ := s
  cases mode <;> cases mode' <;>
    simp [Route.semanticValue, Route.Alike, RouteMode.Alike, Predicate.semanticValue_eq_iff]

theorem Predicate.Alike.spelledAlike {p q : Predicate} (h : p.Alike q) : p.SpelledAlike q := by
  have hoperand : ∀ {a b : Comparable}, a.Alike b → a.SpelledAlike b := by
    intro a b hab
    cases a <;> cases b <;> grind [Comparable.Alike, Comparable.SpelledAlike]
  induction p generalizing q with
  | logical op s l r span ihl ihr =>
    cases q <;> simp only [Predicate.Alike] at h
    exact ⟨h.2.1, ihl h.2.2.1, ihr h.2.2.2⟩
  | not s p span ih =>
    cases q <;> simp only [Predicate.Alike] at h
    exact ⟨h.1, ih h.2⟩
  | group p span ih =>
    cases q <;> simp only [Predicate.Alike] at h
    exact ih h
  | comparison op s l r span =>
    cases q <;> simp only [Predicate.Alike] at h
    exact ⟨h.2.1, hoperand h.2.2.1, hoperand h.2.2.2⟩
  | nullTest a n s span =>
    cases q <;> simp only [Predicate.Alike] at h
    exact ⟨h.1, h.2.2⟩
  | status | «exists» | reference =>
    cases q <;> simp_all [Predicate.Alike, Predicate.SpelledAlike]

end Ast

def Selector.member? : Selector → Option String
  | .member name => some name
  | .index _ => none

def Reference.members (r : Reference) : List String :=
  r.symbol.toList ++ r.path.filterMap Selector.member?

def Operand.members : Operand → List String
  | .reference r => r.members
  | .literal _ => []

def Predicate.members : Predicate → List String
  | .logical _ left right => left.members ++ right.members
  | .not operand => operand.members
  | .status _ => []
  | .exists r => r.members
  | .nullTest _ r => r.members
  | .reference r => r.members
  | .comparison _ left right => left.members ++ right.members

def Route.members (route : Route) : List String :=
  match route.mode with
  | .conditional predicate => predicate.members
  | _ => []

structure SameBut {α : Type*} (members : α → List String) (x y : α) : Prop where
  count : (members x).length = (members y).length
  equal : members x = members y → x = y

theorem lowerPath_fst (schema : Keywords Schema) (selectors : List Ast.RefSelector) :
    (lowerPath schema selectors).1 = selectors.map Ast.RefSelector.toSelector := by
  induction selectors generalizing schema with
  | nil => rfl
  | cons selector rest ih => simp only [lowerPath, ih, List.map_cons]

theorem sameBut_path {as bs : List Ast.RefSelector} (h : List.Forall₂ Ast.RefSelector.Alike as bs) :
    SameBut (List.filterMap Selector.member?) (as.map Ast.RefSelector.toSelector)
      (bs.map Ast.RefSelector.toSelector) := by
  induction h with
  | nil => exact ⟨rfl, fun _ => rfl⟩
  | @cons a b as bs hab hrest ih =>
    obtain ⟨hcount, hequal⟩ := ih
    rcases a with ⟨_, _ | _, _⟩ | _ | _ <;> rcases b with ⟨_, _ | _, _⟩ | _ | _ <;>
      simp only [Ast.RefSelector.Alike] at hab <;>
      constructor <;>
      simp_all [Ast.RefSelector.toSelector, Selector.member?, List.filterMap_cons]

theorem canonical?_alike {a b : Ast.RefSelector} (h : a.Alike b) : a.canonical? = b.canonical? := by
  rcases a with ⟨_, _ | _, _⟩ | _ | _ <;> rcases b with ⟨_, _ | _, _⟩ | _ | _ <;>
    simp_all [Ast.RefSelector.Alike, Ast.RefSelector.canonical?]

theorem sameBut_symbol {symbol symbol' : Option String} {path path' : List Selector}
    (hsymbol : symbol.isSome = symbol'.isSome)
    (hpath : SameBut (List.filterMap Selector.member?) path path') (root : ReferenceRoot)
    (channel : Option Channel) (optional : Bool) :
    SameBut Reference.members ⟨root, symbol, channel, path, optional⟩
      ⟨root, symbol', channel, path', optional⟩ := by
  obtain ⟨hcount, hequal⟩ := hpath
  cases symbol with
  | none =>
    cases symbol' with
    | some s => simp at hsymbol
    | none =>
      constructor
      · simpa [Reference.members] using hcount
      · intro h
        simpa [Reference.members] using hequal h
  | some s =>
    cases symbol' with
    | none => simp at hsymbol
    | some t =>
      constructor
      · simpa [Reference.members] using hcount
      · intro h
        obtain ⟨rfl, hpaths⟩ := List.cons.inj h
        rw [hequal hpaths]

section
variable {consumer : Draft} {drafts : Dict NodeId Draft}

theorem sameBut_rest (schema schema' : Keywords Schema) {as bs : List Ast.RefSelector}
    (h : List.Forall₂ Ast.RefSelector.Alike as bs) :
    SameBut (List.filterMap Selector.member?) (lowerPath schema as).1 (lowerPath schema' bs).1 := by
  rw [lowerPath_fst, lowerPath_fst]
  exact sameBut_path h

theorem sameBut_refl {α : Type*} (members : α → List String) (x : α) : SameBut members x x :=
  ⟨rfl, fun _ => rfl⟩

theorem sameBut_reference {a b : Ast.Reference} (h : a.Alike b) {x y : Reference × Keywords Schema}
    (ha : lowerReference consumer drafts a = some x) (hb : lowerReference consumer drafts b = some y) :
    SameBut Reference.members x.1 y.1 := by
  obtain ⟨⟨_, root, _⟩, as, _⟩ := a
  obtain ⟨⟨_, root', _⟩, bs, _⟩ := b
  obtain ⟨rfl, hselectors⟩ := h
  simp only [lowerReference] at ha hb
  cases hselectors with
  | nil =>
    have hxy : x = y := by
      rw [← Option.some.injEq, ← ha, ← hb]
    subst hxy
    exact sameBut_refl _ _
  | @cons f g as bs hfg hrest =>
    split at ha
    next first second rest hroot hsel =>
      obtain ⟨rfl, htail⟩ := List.cons.inj hsel
      subst htail
      cases hrest with
      | @cons _ second' _ rest' hsecond hrest =>
        rw [hroot] at hb
        simp only [← canonical?_alike hfg, ← canonical?_alike hsecond] at hb
        simp only [bind, Option.bind_eq_some_iff] at ha hb
        obtain ⟨symbol, hsymbol, channel, hchannel, ha⟩ := ha
        obtain ⟨symbol', hsymbol', channel', hchannel', hb⟩ := hb
        obtain rfl : symbol = symbol' := by
          rw [hsymbol] at hsymbol'
          exact Option.some.inj hsymbol'
        obtain rfl : channel = channel' := by
          rw [hchannel] at hchannel'
          exact Option.some.inj hchannel'
        split at ha
        next producer hproducer hget =>
          rw [hproducer, hget] at hb
          cases ha
          cases hb
          exact sameBut_symbol rfl (sameBut_rest _ _ hrest) _ _ _
        next hstatus =>
          rw [hstatus] at hb
          cases ha
          cases hb
          exact sameBut_refl _ _
        next herror =>
          rw [herror] at hb
          cases ha
          cases hb
          exact sameBut_symbol rfl (sameBut_rest _ _ hrest) _ _ _
        next hstatus herror houtput =>
          split at hb
          next producer hproducer hget => exact (houtput producer hproducer hget).elim
          next hchannel => exact (hstatus hchannel).elim
          next hchannel => exact (herror hchannel).elim
          next =>
            cases ha
            cases hb
            exact sameBut_refl _ _
    next first rest hroot hsel =>
      obtain ⟨rfl, rfl⟩ := List.cons.inj hsel
      rw [hroot] at hb
      cases ha
      cases hb
      exact sameBut_symbol (by rfl) (sameBut_rest _ _ hrest) _ _ _
    next first rest hroot hsel =>
      obtain ⟨rfl, rfl⟩ := List.cons.inj hsel
      rw [hroot] at hb
      cases ha
      cases hb
      exact sameBut_symbol (by rfl) (sameBut_rest _ _ hrest) _ _ _
    next first rest hroot hsel =>
      obtain ⟨rfl, rfl⟩ := List.cons.inj hsel
      rw [hroot] at hb
      cases ha
      cases hb
      exact sameBut_symbol (by rfl) (sameBut_refl _ _) _ _ _
    next hroot hlong =>
      cases hrest with
      | nil =>
        rw [hroot] at hb
        cases ha
        cases hb
        exact sameBut_refl _ _
      | cons => exact (hlong _ _ _ rfl).elim
    next hroot hnone => exact (hnone _ _ rfl).elim
    next hroot hnone => exact (hnone _ _ rfl).elim
    next hroot hnone => exact (hnone _ _ rfl).elim
    next => cases ha

theorem lowerLogical_injective : Function.Injective lowerLogical := by
  intro a b h
  cases a <;> cases b <;> simp_all [lowerLogical]

theorem lowerComparison_injective : Function.Injective lowerComparison := by
  intro a b h
  cases a <;> cases b <;> simp_all [lowerComparison]

theorem sameBut_operand {a b : Ast.Comparable} (h : a.Alike b) {x y : Operand × Keywords Schema}
    (ha : lowerOperand consumer drafts a = some x) (hb : lowerOperand consumer drafts b = some y) :
    SameBut Operand.members x.1 y.1 := by
  cases a with
  | reference a =>
    cases b with
    | reference b =>
      simp only [lowerOperand, Option.map_eq_some_iff] at ha hb
      obtain ⟨l, hl, rfl⟩ := ha
      obtain ⟨m, hm, rfl⟩ := hb
      obtain ⟨hcount, hequal⟩ := sameBut_reference h hl hm
      exact ⟨hcount, fun hmembers => congrArg Operand.reference (hequal hmembers)⟩
    | _ => exact h.elim
  | _ =>
    cases b <;> simp only [Ast.Comparable.Alike] at h
    all_goals
      have hxy : x = y := by
        rw [← Option.some.injEq, ← ha, ← hb]
        simp_all [lowerOperand, operandLiteral]
      rw [hxy]
      exact sameBut_refl _ _

theorem SameBut.append {α β : Type*} {f : α → List String} {g : β → List String} {x x' : α} {y y' : β}
    (hx : SameBut f x x') (hy : SameBut g y y') :
    (f x ++ g y).length = (f x' ++ g y').length ∧
      (f x ++ g y = f x' ++ g y' → x = x' ∧ y = y') := by
  constructor
  · rw [List.length_append, List.length_append, hx.count, hy.count]
  · intro h
    obtain ⟨hleft, hright⟩ := List.append_inj h hx.count
    exact ⟨hx.equal hleft, hy.equal hright⟩

theorem sameBut_predicate {p q : Ast.Predicate} (h : p.Alike q) {x y : Predicate}
    (hp : lowerPredicate consumer drafts p = some x) (hq : lowerPredicate consumer drafts q = some y) :
    SameBut Predicate.members x y := by
  induction p generalizing q x y with
  | logical op s l r span ihl ihr =>
    cases q <;> simp only [Ast.Predicate.Alike] at h
    obtain ⟨rfl, rfl, hleft, hright⟩ := h
    simp only [lowerPredicate, bind, Option.bind_eq_some_iff, pure, Option.some.injEq] at hp hq
    obtain ⟨xl, hxl, xr, hxr, rfl⟩ := hp
    obtain ⟨yl, hyl, yr, hyr, rfl⟩ := hq
    obtain ⟨hcount, hequal⟩ := (ihl hleft hxl hyl).append (ihr hright hxr hyr)
    refine ⟨hcount, fun hmembers => ?_⟩
    obtain ⟨rfl, rfl⟩ := hequal hmembers
    rfl
  | not s p span ih =>
    cases q <;> simp only [Ast.Predicate.Alike] at h
    simp only [lowerPredicate, bind, Option.bind_eq_some_iff, pure, Option.some.injEq] at hp hq
    obtain ⟨x, hx, rfl⟩ := hp
    obtain ⟨y, hy, rfl⟩ := hq
    obtain ⟨hcount, hequal⟩ := ih h.2 hx hy
    exact ⟨hcount, fun hmembers => congrArg Predicate.not (hequal hmembers)⟩
  | group p span ih =>
    cases q <;> simp only [Ast.Predicate.Alike] at h
    exact ih h hp hq
  | status s b span =>
    cases q <;> simp only [Ast.Predicate.Alike] at h
    subst h
    have hxy : x = y := by
      rw [← Option.some.injEq, ← hp, ← hq, lowerPredicate, lowerPredicate]
    rw [hxy]
    exact sameBut_refl _ _
  | «exists» s a span =>
    cases q <;> simp only [Ast.Predicate.Alike] at h
    simp only [lowerPredicate, bind, Option.bind_eq_some_iff, pure, Option.some.injEq] at hp hq
    obtain ⟨x, hx, rfl⟩ := hp
    obtain ⟨y, hy, rfl⟩ := hq
    obtain ⟨hcount, hequal⟩ := sameBut_reference h hx hy
    exact ⟨hcount, fun hmembers => congrArg Predicate.exists (hequal hmembers)⟩
  | nullTest a isNull s span =>
    cases q <;> simp only [Ast.Predicate.Alike] at h
    obtain ⟨h, rfl, rfl⟩ := h
    simp only [lowerPredicate, bind, Option.bind_eq_some_iff, pure, Option.some.injEq] at hp hq
    obtain ⟨x, hx, rfl⟩ := hp
    obtain ⟨y, hy, rfl⟩ := hq
    obtain ⟨hcount, hequal⟩ := sameBut_reference h hx hy
    exact ⟨hcount, fun hmembers => congrArg (Predicate.nullTest isNull) (hequal hmembers)⟩
  | comparison op s l r span =>
    cases q <;> simp only [Ast.Predicate.Alike] at h
    obtain ⟨rfl, rfl, hleft, hright⟩ := h
    simp only [lowerPredicate, bind, Option.bind_eq_some_iff, pure, Option.some.injEq] at hp hq
    obtain ⟨xl, hxl, xr, hxr, rfl⟩ := hp
    obtain ⟨yl, hyl, yr, hyr, rfl⟩ := hq
    obtain ⟨hcount, hequal⟩ := (sameBut_operand hleft hxl hyl).append (sameBut_operand hright hxr hyr)
    refine ⟨hcount, fun hmembers => ?_⟩
    obtain ⟨hl, hr⟩ := hequal hmembers
    simp only [hl, hr]
  | reference a span =>
    cases q <;> simp only [Ast.Predicate.Alike] at h
    simp only [lowerPredicate, bind, Option.bind_eq_some_iff, pure, Option.some.injEq] at hp hq
    obtain ⟨x, hx, rfl⟩ := hp
    obtain ⟨y, hy, rfl⟩ := hq
    obtain ⟨hcount, hequal⟩ := sameBut_reference h hx hy
    exact ⟨hcount, fun hmembers => congrArg Predicate.reference (hequal hmembers)⟩

theorem alike_of_literal {a b : Ast.Comparable} (h : a.SpelledAlike b) {v : Value}
    (ha : operandLiteral a = some v) (hb : operandLiteral b = some v) : a.Alike b := by
  cases a <;> cases b <;>
    simp only [operandLiteral, Option.map_eq_some_iff, Option.some.injEq, reduceCtorEq] at ha hb <;>
    grind [Ast.Comparable.Alike, Ast.Comparable.SpelledAlike, String.ofList_injective]

theorem lowerOperand_literal {a : Ast.Comparable} {x : Operand × Keywords Schema}
    (ha : lowerOperand consumer drafts a = some x) (hno : ∀ r, a ≠ .reference r) :
    ∃ v, operandLiteral a = some v ∧ x.1 = .literal v := by
  cases a with
  | reference r => exact absurd rfl (hno r)
  | _ =>
    simp only [lowerOperand, Option.map_eq_some_iff] at ha
    obtain ⟨v, hv, rfl⟩ := ha
    exact ⟨v, hv, rfl⟩

theorem alike_of_operand {a b : Ast.Comparable} (h : a.SpelledAlike b) {x y : Operand × Keywords Schema}
    (ha : lowerOperand consumer drafts a = some x) (hb : lowerOperand consumer drafts b = some y)
    (heq : x.1 = y.1) : a.Alike b := by
  have hliteral : ∀ {c : Ast.Comparable} {z : Operand × Keywords Schema} {r : Reference},
      lowerOperand consumer drafts c = some z → z.1 = .reference r → ∃ s, c = .reference s := by
    intro c z r hc hz
    by_contra hno
    obtain ⟨v, -, hv⟩ := lowerOperand_literal hc (by simpa using hno)
    rw [hv] at hz
    contradiction
  cases hx : x.1 with
  | reference r =>
    obtain ⟨s, rfl⟩ := hliteral ha hx
    obtain ⟨t, rfl⟩ := hliteral hb (heq ▸ hx)
    exact h
  | literal v =>
    have hno : ∀ {c : Ast.Comparable} {z : Operand × Keywords Schema},
        lowerOperand consumer drafts c = some z → z.1 = .literal v → ∀ r, c ≠ .reference r := by
      rintro c z hc hz r rfl
      simp only [lowerOperand, Option.map_eq_some_iff] at hc
      obtain ⟨l, -, rfl⟩ := hc
      contradiction
    have hy : y.1 = .literal v := heq ▸ hx
    obtain ⟨v', hv', hxv⟩ := lowerOperand_literal ha (hno ha hx)
    obtain ⟨w', hw', hyw⟩ := lowerOperand_literal hb (hno hb hy)
    rw [hx] at hxv
    rw [hy] at hyw
    cases hxv
    cases hyw
    exact alike_of_literal h hv' hw'

theorem alike_of_lowered {p q : Ast.Predicate} (h : p.SpelledAlike q) {x : Predicate}
    (hp : lowerPredicate consumer drafts p = some x) (hq : lowerPredicate consumer drafts q = some x) :
    p.Alike q := by
  induction p generalizing q x with
  | logical op s l r span ihl ihr =>
    cases q <;> simp only [Ast.Predicate.SpelledAlike] at h
    simp only [lowerPredicate, bind, Option.bind_eq_some_iff, pure, Option.some.injEq] at hp hq
    obtain ⟨xl, hxl, xr, hxr, rfl⟩ := hp
    obtain ⟨yl, hyl, yr, hyr, heq⟩ := hq
    injection heq with hop hl hr
    subst hl
    subst hr
    have hoperator : op = _ := lowerLogical_injective hop.symm
    exact ⟨hoperator, h.1, ihl h.2.1 hxl hyl, ihr h.2.2 hxr hyr⟩
  | not s p span ih =>
    cases q <;> simp only [Ast.Predicate.SpelledAlike] at h
    simp only [lowerPredicate, bind, Option.bind_eq_some_iff, pure, Option.some.injEq] at hp hq
    obtain ⟨x, hx, rfl⟩ := hp
    obtain ⟨y, hy, heq⟩ := hq
    injection heq with hoperand
    subst hoperand
    exact ⟨h.1, ih h.2 hx hy⟩
  | group p span ih =>
    cases q <;> simp only [Ast.Predicate.SpelledAlike] at h
    exact ih h hp hq
  | status s b span =>
    cases q <;> simp only [Ast.Predicate.SpelledAlike] at h
    simp only [lowerPredicate, Option.some.injEq] at hp hq
    rw [← hp] at hq
    injection hq with hstatus
    exact hstatus.symm
  | «exists» s a span =>
    cases q <;> simp only [Ast.Predicate.SpelledAlike] at h
    exact h
  | nullTest a isNull s span =>
    cases q <;> simp only [Ast.Predicate.SpelledAlike] at h
    simp only [lowerPredicate, bind, Option.bind_eq_some_iff, pure, Option.some.injEq] at hp hq
    obtain ⟨x, hx, rfl⟩ := hp
    obtain ⟨y, hy, heq⟩ := hq
    injection heq with hnull
    exact ⟨h.1, hnull.symm, h.2⟩
  | comparison op s l r span =>
    cases q <;> simp only [Ast.Predicate.SpelledAlike] at h
    simp only [lowerPredicate, bind, Option.bind_eq_some_iff, pure, Option.some.injEq] at hp hq
    obtain ⟨xl, hxl, xr, hxr, rfl⟩ := hp
    obtain ⟨yl, hyl, yr, hyr, heq⟩ := hq
    injection heq with hop hl hr
    have hoperator : op = _ := lowerComparison_injective hop.symm
    exact ⟨hoperator, h.1, alike_of_operand h.2.1 hxl hyl hl.symm, alike_of_operand h.2.2 hxr hyr hr.symm⟩
  | reference a span =>
    cases q <;> simp only [Ast.Predicate.SpelledAlike] at h
    exact h

theorem sameBut_route {r s : Ast.Route} (h : r.Alike s) {l m : Route}
    (hr : lowerRoute consumer drafts r = some l) (hs : lowerRoute consumer drafts s = some m) :
    l = m ↔ l.members = m.members := by
  obtain ⟨target, mode, span⟩ := r
  obtain ⟨target', mode', span'⟩ := s
  obtain ⟨htarget, hmode⟩ := h
  constructor
  · exact congrArg Route.members
  · intro hmembers
    simp only [lowerRoute, bind, Option.bind_eq_some_iff, pure, Option.some.injEq] at hr hs
    obtain ⟨lmode, hl, rfl⟩ := hr
    obtain ⟨mmode, hm, rfl⟩ := hs
    simp only at htarget
    cases mode <;> cases mode' <;> simp only [Ast.RouteMode.Alike] at hmode
    case when p q =>
      simp only [lowerMode, Option.map_eq_some_iff] at hl hm
      obtain ⟨x, hx, rfl⟩ := hl
      obtain ⟨y, hy, rfl⟩ := hm
      have hxy : x = y := (sameBut_predicate hmode hx hy).equal hmembers
      rw [hxy, htarget]
    all_goals
      cases hl
      cases hm
      rw [htarget]

theorem Ast.Route.Alike.spelledAlike {r s : Ast.Route} (h : r.Alike s) : r.SpelledAlike s := by
  obtain ⟨target, mode, span⟩ := r
  obtain ⟨target', mode', span'⟩ := s
  obtain ⟨-, hmode⟩ := h
  cases mode <;> cases mode' <;> simp only [Ast.RouteMode.Alike, Ast.Route.SpelledAlike] at hmode ⊢
  exact hmode.spelledAlike

theorem alike_of_lowerRoute {r s : Ast.Route} (h : r.SpelledAlike s) {l : Route}
    (hr : lowerRoute consumer drafts r = some l) (hs : lowerRoute consumer drafts s = some l) :
    r.Alike s := by
  obtain ⟨target, mode, span⟩ := r
  obtain ⟨target', mode', span'⟩ := s
  simp only [lowerRoute, bind, Option.bind_eq_some_iff, pure, Option.some.injEq] at hr hs
  obtain ⟨lmode, hl, rfl⟩ := hr
  obtain ⟨mmode, hm, heq⟩ := hs
  injection heq with htarget hmode
  subst hmode
  refine ⟨(String.ofList_injective htarget).symm, ?_⟩
  cases mode <;> cases mode' <;> simp only [lowerMode, Option.map_eq_some_iff, Option.some.injEq] at hl hm
  case when.when p q =>
    obtain ⟨x, hx, rfl⟩ := hl
    obtain ⟨y, hy, heq⟩ := hm
    injection heq with hxy
    subst hxy
    exact alike_of_lowered h hx hy
  all_goals grind [Ast.RouteMode.Alike]

/-- A route is reported for an earlier one exactly when the two lower to the same, as long
as two routes that are alike otherwise test the same names, and two that lower to the
same are spelled alike. -/
theorem duplicate_routes_exact_iff {r s : Ast.Route} {l m : Route}
    (hr : lowerRoute consumer drafts r = some l) (hs : lowerRoute consumer drafts s = some m) :
    (ReportedFor consumer r s ↔ l = m) ↔
      (r.Alike s → l.members = m.members) ∧ (l = m → r.SpelledAlike s) := by
  have hreported : ReportedFor consumer r s ↔ r.Alike s := by
    rw [reportedFor_iff, eq_comm]
    exact Ast.Route.semanticValue_eq_iff r s
  rw [hreported]
  constructor
  · intro h
    constructor
    · intro halike
      exact congrArg Route.members (h.mp halike)
    · intro hsame
      exact (h.mpr hsame).spelledAlike
  · intro h
    obtain ⟨hmembers, hspelled⟩ := h
    constructor
    · intro halike
      exact (sameBut_route halike hr hs).mpr (hmembers halike)
    · intro hsame
      subst hsame
      exact alike_of_lowerRoute (hspelled rfl) hr hs

end

section Samples

/-- `input.data.<name>` -/
def dataMember (name : String) : Ast.Reference :=
  ⟨word "input", [.dot "data".toList .identifier somewhere,
    .dot name.toList .jsonMember somewhere], somewhere⟩

/-- `next when input.data.<name> == 1` -/
def memberRoute (name : String) : Ast.Route :=
  ⟨word "next", .when (.comparison .eq "==".toList (.reference (dataMember name))
    (.integer "1".toList 1 somewhere) somewhere), somewhere⟩

/-- `next when succeeded <operator> failed` -/
def caseRoute (operator : String) : Ast.Route :=
  ⟨word "next", .when (.logical .and operator.toList (.status "succeeded".toList true somewhere)
    (.status "failed".toList false somewhere) somewhere), somewhere⟩

/-- The route that `memberRoute` lowers to. -/
def loweredMember (name : String) : Route where
  target := "next"
  mode := .conditional (.comparison .eq
    (.reference ⟨.input, some "data", none, [.member name], false⟩) (.literal (.int 1)))
  eligibleOutcomes := [.success, .allowedFailure]

theorem lower_memberRoute (name : String) :
    lowerRoute reader [] (memberRoute name) = some (loweredMember name) := by
  have htarget : String.ofList (word "next").canonical = "next" := by decide
  have hroot : String.ofList (word "input").canonical = "input" := by decide
  have hsymbol : (Ast.RefSelector.dot ['d', 'a', 't', 'a'] .identifier somewhere).symbol = "data" := by
    decide
  have hname : (Ast.RefSelector.dot name.toList .jsonMember somewhere).toSelector = .member name := by
    simp [Ast.RefSelector.toSelector]
  simp [lowerRoute, lowerMode, memberRoute, lowerPredicate, lowerOperand, dataMember, lowerReference,
    hroot, hsymbol, htarget, hname, lowerPath, operandLiteral, lowerComparison, loweredMember]

/-- A route that stands twice is reported. -/
theorem duplicate_routes_exact_member :
    ReportedFor reader (memberRoute "x") (memberRoute "x") ↔ loweredMember "x" = loweredMember "x" := by
  refine (duplicate_routes_exact_iff (lower_memberRoute "x") (lower_memberRoute "x")).mpr ?_
  refine ⟨fun _ => rfl, fun _ => ?_⟩
  simp [memberRoute, Ast.Route.SpelledAlike, Ast.Predicate.SpelledAlike, Ast.Comparable.SpelledAlike,
    dataMember, Ast.Reference.Alike, Ast.RefSelector.Alike]

/-- Routes that test different members are reported, and routes that differ in the case of a
word are not. -/
theorem duplicate_routes_inexact :
    (ReportedFor reader (memberRoute "x") (memberRoute "y") ∧
      lowerRoute reader [] (memberRoute "x") = some (loweredMember "x") ∧
      lowerRoute reader [] (memberRoute "y") = some (loweredMember "y") ∧
      loweredMember "x" ≠ loweredMember "y") ∧
    ¬ReportedFor reader (caseRoute "and") (caseRoute "AND") ∧
      lowerRoute reader [] (caseRoute "and") = lowerRoute reader [] (caseRoute "AND") ∧
      (lowerRoute reader [] (caseRoute "and")).isSome = true := by
  refine ⟨⟨?_, lower_memberRoute "x", lower_memberRoute "y", ?_⟩, ?_, rfl, rfl⟩
  · rw [reportedFor_iff]
    rfl
  · intro h
    have hmembers : ["data", "x"] = ["data", "y"] := congrArg Route.members h
    simp at hmembers
  · rw [reportedFor_iff, Ast.Route.semanticValue_eq_iff]
    simp [caseRoute, Ast.Route.Alike, Ast.RouteMode.Alike, Ast.Predicate.Alike]

end Samples

end Raticode.Rattish
