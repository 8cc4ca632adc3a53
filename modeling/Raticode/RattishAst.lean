import Raticode.PyText
import Raticode.RattishValue

/-! The source AST of a Rattish document, with the spans the parser records. -/
namespace Raticode.Rattish

abbrev Text := List Char

structure SourcePosition where
  offset : ℕ
  line : ℕ
  column : ℕ
  deriving DecidableEq, Repr

structure SourceSpan where
  start : SourcePosition
  stop : SourcePosition
  deriving DecidableEq, Repr

namespace Ast

structure Identifier where
  source : Text
  canonical : Text
  span : SourceSpan
  deriving DecidableEq

inductive Role where
  | identifier
  | jsonMember
  deriving DecidableEq

inductive RefSelector where
  | dot (source : Text) (role : Role) (span : SourceSpan)
  | bracket (source : Text) (span : SourceSpan)
  | index (source : Text) (value : ℕ) (span : SourceSpan)
  deriving DecidableEq

/-- `selector["canonical"]`, `none` where the selector has no such key. -/
def RefSelector.canonical? : RefSelector → Option (Option String)
  | .dot source .identifier _ => some (some (String.ofList (PyText.lower source)))
  | .dot _ .jsonMember _ => some none
  | .bracket _ _ => some none
  | .index _ _ _ => none

structure Reference where
  root : Identifier
  selectors : List RefSelector
  span : SourceSpan
  deriving DecidableEq

inductive StringStyle where
  | quoted | bare | block
  deriving DecidableEq

inductive LogicalOperator where
  | and | or
  deriving DecidableEq

inductive Comparison where
  | eq | ne | lt | le | gt | ge | contains | matches
  deriving DecidableEq

/-- An operand of a comparison: a reference or a literal. A number is a double,
`none` where the text overflows to infinity. -/
inductive Comparable where
  | reference (reference : Reference)
  | string (source value : Text) (span : SourceSpan)
  | boolean (source : Text) (value : Bool) (span : SourceSpan)
  | null (source : Text) (span : SourceSpan)
  | integer (source : Text) (value : ℤ) (span : SourceSpan)
  | number (source : Text) (value : Option ℚ) (span : SourceSpan)

inductive Predicate where
  | logical (operator : LogicalOperator) (operatorSource : Text) (left right : Predicate)
      (span : SourceSpan)
  | not (operatorSource : Text) (operand : Predicate) (span : SourceSpan)
  | group (operand : Predicate) (span : SourceSpan)
  | status (source : Text) (succeeded : Bool) (span : SourceSpan)
  | exists (keywordSource : Text) (reference : Reference) (span : SourceSpan)
  | nullTest (reference : Reference) (isNull : Bool) (operatorSource : Text) (span : SourceSpan)
  | comparison (operator : Comparison) (operatorSource : Text) (left right : Comparable)
      (span : SourceSpan)
  | reference (reference : Reference) (span : SourceSpan)

inductive MapKey where
  | identifier (identifier : Identifier)
  | string (source value : Text) (span : SourceSpan)

inductive Val where
  | identifierValue (source canonical : Text) (span : SourceSpan)
  | string (style : StringStyle) (source value : Text) (span : SourceSpan)
  | json (source : Text) (value : Option Value) (span : SourceSpan)
  | boolean (source : Text) (value : Bool) (span : SourceSpan)
  | none (source : Text) (span : SourceSpan)
  | null (source : Text) (span : SourceSpan)
  | duration (source : Text) (amount : ℕ) (unitSource canonicalUnit : Text) (span : SourceSpan)
  | integer (source : Text) (value : ℤ) (span : SourceSpan)
  | number (source : Text) (value : Option ℚ) (span : SourceSpan)
  | reference (reference : Reference)
  | expression (expression : Predicate) (span : SourceSpan)
  | list (items : List Val) (span : SourceSpan)
  | map (entries : List (MapKey × Val × SourceSpan)) (span : SourceSpan)

structure Field where
  name : Identifier
  value : Val
  span : SourceSpan

inductive RouteMode where
  | unconditional
  | when (predicate : Predicate)
  | otherwise

structure Route where
  target : Identifier
  mode : RouteMode
  span : SourceSpan

inductive Form where
  | scalar | list
  deriving DecidableEq

inductive BindingEntry where
  | source (keywordSource : Text) (reference : Reference) (span : SourceSpan)
  | default (keywordSource : Text) (value : Val) (span : SourceSpan)

inductive Binding where
  | compact (name : Identifier) (value : Val) (span : SourceSpan)
  | expanded (name : Identifier) (entries : List BindingEntry) (span : SourceSpan)

inductive Entry where
  | field (field : Field)
  | needs (keywordSource : Text) (form : Form) (nodes : List Identifier) (span : SourceSpan)
  | routes (keywordSource : Text) (form : Form) (routes : List Route) (span : SourceSpan)
  | bindings (keywordSource : Text) (bindings : List Binding) (span : SourceSpan)

structure Workflow where
  keywordSource : Text
  entries : List Field
  span : SourceSpan

structure NodeDecl where
  keywordSource : Text
  name : Identifier
  entries : List Entry
  span : SourceSpan

structure Version where
  keywordSource : Text
  valueSource : Text
  value : ℕ
  span : SourceSpan

structure Document where
  sourceId : String
  span : SourceSpan
  version : Version
  workflow : Workflow
  nodes : List NodeDecl

end Ast

end Raticode.Rattish
