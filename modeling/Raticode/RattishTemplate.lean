import Mathlib.Data.List.Sort
import Raticode.PyText
import Raticode.RattishValue

/-! Prompt templates: placeholders in double braces over the values a node binds.
The first part is the parser and the renderer as the source has them, where an
escaped delimiter is carried through as a sentinel text. The second part reads
a template without sentinels and says when the renderer agrees with it. -/
namespace Raticode.Rattish
open OrderedDict PyText

def openSentinel : List Char :=
  ['\x00', 'R', 'A', 'T', 'T', 'I', 'S', 'H', '_', 'O', 'P', 'E', 'N', '\x00']

def closeSentinel : List Char :=
  ['\x00', 'R', 'A', 'T', 'T', 'I', 'S', 'H', '_', 'C', 'L', 'O', 'S', 'E', '\x00']

inductive TemplateError where
  | unmatchedDelimiter
  | invalidPlaceholder (expression : List Char)
  | notBound (name : List Char)
  | unresolved (source : List Char)
  /-- `ValueError` of `int`, which the parser does not catch. -/
  | notDecimal (text : List Char)
  deriving DecidableEq

def TemplateError.message (repr : List Char → String) : TemplateError → String
  | .unmatchedDelimiter => "Prompt contains an unmatched placeholder delimiter."
  | .invalidPlaceholder expression => "Invalid prompt placeholder " ++ repr expression ++ "."
  | .notBound name => "Prompt placeholder " ++ repr name ++ " does not name a bound input."
  | .unresolved source => "Prompt placeholder " ++ repr source ++ " could not be resolved."
  | .notDecimal text => "invalid literal for int() with base 10: " ++ repr text

structure PromptPlaceholder where
  source : List Char
  name : List Char
  selectors : List Selector
  deriving DecidableEq

/-- `template.replace("{{{{", open).replace("}}}}", close)`. -/
def protect (template : List Char) : List Char :=
  Scan.replace ['}', '}', '}', '}'] closeSentinel
    (Scan.replace ['{', '{', '{', '{'] openSentinel template)

/-- `_PLACEHOLDER` at one position. The pattern is lazy, so the first `}}` closes,
and `.` excludes a line feed from the group but not from the whitespace around it. -/
def placeholderAt : List Char → Option (List Char × ℕ)
  | '{' :: '{' :: body =>
    match Scan.before (fun w => ['}', '}'].isPrefixOf w) body with
    | some (content, _) =>
      if '\n' ∈ strip content then none else some (strip content, content.length + 3)
    | none => none
  | _ => none

/-- `_PLACEHOLDER.fullmatch`, where the group runs to the last `}}`. -/
def fullPlaceholder : List Char → Option (List Char)
  | '{' :: '{' :: body =>
    if ['}', '}'].isSuffixOf body then
      let content := body.take (body.length - 2)
      if '\n' ∈ strip content then none else some (strip content)
    else none
  | _ => none

/-- The loop of `_parse_expression` over what follows the name. -/
def parseSelectors (expression : List Char) : ℕ → List Char → Except TemplateError (List Selector)
  | _, [] => .ok []
  | 0, _ => .error (.invalidPlaceholder expression)
  | fuel + 1, '.' :: cs =>
    match identifier cs with
    | none => .error (.invalidPlaceholder expression)
    | some member => do
      return .member (String.ofList member) :: (← parseSelectors expression fuel
        (cs.drop member.length))
  | fuel + 1, '[' :: cs =>
    match Scan.before (fun w => [']'].isPrefixOf w) cs with
    | none => .error (.invalidPlaceholder expression)
    | some (raw, rest) =>
      if isDigit raw then
        match toNat? raw with
        | none => .error (.notDecimal raw)
        | some n => do return .index n :: (← parseSelectors expression fuel (rest.drop 1))
      else
        match jsonString raw with
        | none => .error (.invalidPlaceholder expression)
        | some member => do
          return .member (String.ofList member) :: (← parseSelectors expression fuel (rest.drop 1))
  | _, _ => .error (.invalidPlaceholder expression)

/-- `_parse_expression`. A selector takes at least one character, so the length
bounds the loop. -/
def parseExpression (expression : List Char) : Except TemplateError PromptPlaceholder :=
  match identifier expression with
  | none => .error (.invalidPlaceholder expression)
  | some name => do
    let selectors ← parseSelectors expression expression.length (expression.drop name.length)
    return ⟨expression, name, selectors⟩

/-- Whether `{{` or `}}` is in the text. -/
def hasDelimiter (text : List Char) : Bool :=
  text.tails.any (fun w => ['{', '{'].isPrefixOf w || ['}', '}'].isPrefixOf w)

def parsePromptTemplate (template : String) : Except TemplateError (List PromptPlaceholder) := do
  let scanned := Scan.pieces placeholderAt 0 (protect template.toList)
  let placeholders ← (scanned.filterMap Sum.getLeft?).mapM parseExpression
  if hasDelimiter (scanned.filterMap Sum.getRight?) then throw .unmatchedDelimiter
  return placeholders

def validatePromptTemplate (template : String) (names : List String) :
    Except TemplateError (List PromptPlaceholder) := do
  let placeholders ← parsePromptTemplate template
  match placeholders.find? (fun p => !names.contains (String.ofList (lower p.name))) with
  | some p => throw (.notBound p.name)
  | none => return placeholders

/-- `{name.lower(): value for name, value in values.items()}`. -/
def canonicalValues (values : Dict String Value) : Dict String Value :=
  values.foldl (fun d p => d.set (String.ofList (lower p.1.toList)) p.2) []

def selectStrict : Value → Selector → Option Value
  | .obj fields, .member name => Dict.get fields name
  | .arr items, .index i => items[i]?
  | _, _ => none

def placeholderValue (canonical : Dict String Value) (placeholder : PromptPlaceholder) :
    Except TemplateError Value :=
  match (canonical.get (String.ofList (lower placeholder.name))).bind
    (fun v => placeholder.selectors.foldlM selectStrict v) with
  | some v => .ok v
  | none => .error (.unresolved placeholder.source)

section Rendering
-- `repr` of a finite double.
variable (floatRepr : ℚ → List Char)

def quoteAscii (s : String) : List Char := '"' :: s.toList.flatMap asciiEscape ++ ['"']

mutual
/-- `json.dumps(value, sort_keys=True, separators=(",", ":"))`. -/
def dumpsCompact : Value → List Char
  | .null => ['n', 'u', 'l', 'l']
  | .bool true => ['t', 'r', 'u', 'e']
  | .bool false => ['f', 'a', 'l', 's', 'e']
  | .int z => (toString z).toList
  | .float q => floatRepr q
  | .str s => quoteAscii s
  | .arr items => '[' :: [','].intercalate (dumpsItems items) ++ [']']
  | .obj fields =>
    '{' :: [','].intercalate (((dumpsFields fields).mergeSort (fun a b => decide (a.1 ≤ b.1))).map
      (fun p => quoteAscii p.1 ++ ':' :: p.2)) ++ ['}']

def dumpsItems : List Value → List (List Char)
  | [] => []
  | v :: vs => dumpsCompact v :: dumpsItems vs

def dumpsFields : List (String × Value) → List (String × List Char)
  | [] => []
  | (k, v) :: fs => (k, dumpsCompact v) :: dumpsFields fs
end

def valueText : Value → List Char
  | .str s => s.toList
  | v => dumpsCompact floatRepr v

/-- The function that `_PLACEHOLDER.sub` calls for each match. -/
def replaceHole (canonical : Dict String Value) (expression : List Char) :
    Except TemplateError (List Char) := do
  let placeholder ← parseExpression expression
  return valueText floatRepr (← placeholderValue canonical placeholder)

/-- `_PLACEHOLDER.sub(replace, protected)`. -/
def substitute (canonical : Dict String Value) :
    List (List Char ⊕ Char) → Except TemplateError (List Char)
  | [] => .ok []
  | .inl expression :: ps => do
    let text ← replaceHole floatRepr canonical expression
    return text ++ (← substitute canonical ps)
  | .inr c :: ps => do return c :: (← substitute canonical ps)

def restore (text : List Char) : List Char :=
  Scan.replace closeSentinel ['}', '}'] (Scan.replace openSentinel ['{', '{'] text)

def renderTemplateValue (template : String) (values : Dict String Value) :
    Except TemplateError Value :=
  let canonical := canonicalValues values
  let protected_ := protect template.toList
  match fullPlaceholder protected_ with
  | some expression => do placeholderValue canonical (← parseExpression expression)
  | none => do
    let rendered ← substitute floatRepr canonical (Scan.pieces placeholderAt 0 protected_)
    if hasDelimiter rendered then throw .unmatchedDelimiter
    return .str (String.ofList (restore rendered))

end Rendering

end Raticode.Rattish
