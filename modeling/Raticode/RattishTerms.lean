import Raticode.PyJson
import Raticode.RattishLexer

/-! The readers inside one line: references and predicates. -/
namespace Raticode.Rattish
open PyText (lower lowerWord identifier)

inductive SyntaxPhase where
  | lexer | parser
  deriving DecidableEq, Repr

/-- A diagnostic of the parser; its severity is always `error`. -/
structure SyntaxDiagnostic where
  code : String
  phase : SyntaxPhase
  message : String
  file : String
  span : SourceSpan

/-- How a parse can end without a result. Apart from `RattishParseError` these are
the exceptions of the language, a loop that never ends, and a recursion deeper than
the model follows, which no parse reaches. -/
inductive Failure where
  | parseError (diagnostic : SyntaxDiagnostic)
  | indexError | keyError | assertionError | valueError
  | endless
  | depth

structure ParserConfig where
  sourceId : String
  /-- The most digits `int` converts, `none` for no limit. -/
  maxDigits : Option ℕ
  isWord : Char → Bool
  /-- The texts of the errors of `json.loads` on a text. -/
  jsonMessage : Text → String
  stringMessage : Text → String

section
variable (cfg : ParserConfig)

def parseErrorAt (code message : String) (span : SourceSpan) (phase : SyntaxPhase := .parser) : Failure :=
  .parseError ⟨code, phase, message, cfg.sourceId, span⟩

/-- `_raise`. -/
def raised (code message : String) (line : SourceLine) (start stop : ℕ) (phase : SyntaxPhase := .parser) :
    Failure :=
  parseErrorAt cfg code message (line.span start stop) phase

/-- `int(text)` of digits. -/
def natOf (digits : Text) : Except Failure ℕ :=
  if cfg.maxDigits.any (· < digits.length) then .error .valueError else .ok (PyJson.natOf digits)

/-- `json.loads(text)`, with the member names checked where asked. -/
def jsonLoads (unique : Bool) (text : Text) : Except PyJson.Failure PyJson.Json :=
  PyJson.loads ⟨cfg.maxDigits, unique⟩ text

end

/-- `_INTEGER.fullmatch`. -/
def integer? (text : Text) : Option PyJson.Numeral :=
  match PyJson.numeral text with
  | some (n, []) => if n.isInteger then some n else none
  | _ => none

/-- `_NUMBER.fullmatch`. -/
def number? (text : Text) : Option PyJson.Numeral :=
  match PyJson.numeral text with
  | some (n, []) => some n
  | _ => none

/-- `int(text)` of a text that `_INTEGER` matches. -/
def intOf (cfg : ParserConfig) (n : PyJson.Numeral) : Except Failure ℤ :=
  if cfg.maxDigits.any (· < n.whole.length) then .error .valueError else .ok n.toInt

def identifierJson (source : Text) (span : SourceSpan) : Ast.Identifier :=
  ⟨source, lowerWord source, span⟩

def untilUnquoted (target : Char) : Bool → Bool → Text → Option (Text × Text)
  | _, _, [] => none
  | quoted, escaped, c :: cs =>
    let next (quoted escaped : Bool) :=
      (untilUnquoted target quoted escaped cs).map (fun p => (c :: p.1, p.2))
    if escaped then next quoted false
    else if c = '\\' && quoted then next quoted true
    else if c = '"' then next (!quoted) false
    else if c = target && !quoted then some ([], cs)
    else next quoted false

section Reference
variable (cfg : ParserConfig) (line : SourceLine)

def referenceRoots : List Text :=
  ["input", "node", "loop", "trigger", "secret", "workflow"].map String.toList

def segment (jsonMode : Bool) (w : Text) : Option Text :=
  let inside (c : Char) : Bool := PyText.isAlnum c || (jsonMode && c = '_')
  match w with
  | [] => none
  | c :: cs =>
    if PyText.isLetter c || (jsonMode && c = '_') then some (c :: PyText.hyphenTail inside cs)
    else if PyJson.isDigit c then some (w.takeWhile PyJson.isDigit)
    else none

/-- Whether JSON members are read after a dotted segment. The second selector of a
`node` reference and the first of a `loop` reference are asked for their canonical
spelling, which an index does not have. -/
def jsonModeAfter (root : Text) (selectors : List Ast.RefSelector) (jsonMode : Bool) :
    Except Failure Bool :=
  if root = "node".toList && 2 ≤ selectors.length then
    match selectors[1]?.bind Ast.RefSelector.canonical? with
    | none => .error .keyError
    | some canonical => .ok (jsonMode || canonical = some "output" || canonical = some "error")
  else if root = "input".toList || root = "trigger".toList then .ok true
  else if root = "loop".toList then
    match selectors[0]?.bind Ast.RefSelector.canonical? with
    | none => .error .keyError
    | some canonical => .ok (canonical = some "item")
  else .ok jsonMode

/-- The selector in brackets, `none` where the text is no reference. -/
def bracketSelector (inner : Text) (span : SourceSpan) :
    Except Failure (Option Ast.RefSelector) :=
  match integer? inner with
  | some n => (intOf cfg n).map (fun z =>
      if 0 ≤ z then some (.index inner z.toNat span) else none)
  | none =>
    match jsonLoads cfg false inner with
    | .ok (.str member) => .ok (some (.bracket member span))
    | .ok _ => .ok none
    | .error .digits => .error .valueError
    | .error _ => .ok none

/-- The selectors of a reference from a cursor on, `none` where the text is no
reference. Each turn takes at least one character. -/
def readSelectors (root : Text) : ℕ → ℕ → Text → List Ast.RefSelector → Bool →
    Except Failure (Option (List Ast.RefSelector))
  | _, _, [], selectors, _ => .ok (some selectors)
  | 0, _, _, _, _ => .error .depth
  | n + 1, cursor, '.' :: rest, selectors, jsonMode =>
    match segment jsonMode rest with
    | none => .ok none
    | some source => do
      let role : Ast.Role := if jsonMode then .jsonMember else .identifier
      let stop := cursor + 1 + source.length
      let selectors := selectors ++ [.dot source role (line.span (cursor + 1) stop)]
      let jsonMode ← jsonModeAfter root selectors jsonMode
      readSelectors root n stop (rest.drop source.length) selectors jsonMode
  | n + 1, cursor, '[' :: rest, selectors, _ =>
    match untilUnquoted ']' false false rest with
    | none => .ok none
    | some (inner, after) => do
      let stop := cursor + inner.length + 2
      match ← bracketSelector cfg inner (line.span cursor stop) with
      | none => return none
      | some selector => readSelectors root n stop after (selectors ++ [selector]) true
  | _, _, _, _, _ => .ok none

/-- `_try_reference`: `none` where the text is no reference. -/
def tryReference (text : Text) (start : ℕ) : Except Failure (Option Ast.Reference) :=
  match identifier text with
  | none => .ok none
  | some root =>
    if !referenceRoots.contains (lower root) || root.length = text.length then .ok none
    else do
      let selectors ← readSelectors cfg line (lower root) text.length (start + root.length)
        (text.drop root.length) [] false
      return selectors.map (fun selectors =>
        ⟨identifierJson root (line.span start (start + root.length)), selectors,
          line.span start (start + text.length)⟩)

end Reference

structure PredicateToken where
  quoted : Bool
  value : Text
  startIndex : ℕ
  endIndex : ℕ

def predicateSymbols : List Text :=
  ["<=", ">=", "==", "!=", "<", ">", "(", ")"].map String.toList

def quotedTail : Bool → Text → Text
  | _, [] => []
  | escaped, c :: cs =>
    if escaped then c :: quotedTail false cs
    else if c = '\\' then c :: quotedTail true cs
    else if c = '"' then [c]
    else c :: quotedTail false cs

def isPredicateWord (c : Char) : Bool := !PyText.isSpace c && !"()<>!=".toList.contains c

/-- `_tokenize` from an index on. At a lone `!` or `=` the scanner takes empty
words for ever. -/
def tokenize : ℕ → ℕ → Text → Except Failure (List PredicateToken)
  | _, _, [] => .ok []
  | 0, _, _ => .error .depth
  | n + 1, index, c :: cs =>
    let take (quoted : Bool) (value : Text) : Except Failure (List PredicateToken) := do
      let stop := index + value.length
      return ⟨quoted, value, index, stop⟩ :: (← tokenize n stop ((c :: cs).drop value.length))
    if PyText.isSpace c then tokenize n (index + 1) cs
    else
      match predicateSymbols.find? (fun symbol => symbol.isPrefixOf (c :: cs)) with
      | some symbol => take false symbol
      | none =>
        if c = '"' then take true ('"' :: quotedTail false cs)
        else if isPredicateWord c then take false ((c :: cs).takeWhile isPredicateWord)
        else .error .endless

section Predicate
variable (cfg : ParserConfig) (text : Text) (line : SourceLine) (base : ℕ) (allowStatus : Bool)

def tokenSpan (token : PredicateToken) : SourceSpan :=
  line.span (base + token.startIndex) (base + token.endIndex)

/-- `_error`. -/
def predicateError {α : Type} (message : String) (token : Option PredicateToken) :
    Except Failure α :=
  .error (parseErrorAt cfg "RATTISH_EXPECTED_TOKEN" message (match token with
    | some token => tokenSpan line base token
    | none => line.span (base + text.length) (base + text.length)))

abbrev Tokens := List PredicateToken

/-- `_accept_word`, with the token that was accepted. -/
def acceptWord (word : String) : Tokens → Option (PredicateToken × Tokens)
  | token :: rest => if lower token.value = word.toList then some (token, rest) else none
  | [] => none

/-- Whether `not` comes next, and what follows. -/
def acceptNot (tokens : Tokens) : Bool × Tokens :=
  match acceptWord "not" tokens with
  | some (_, rest) => (true, rest)
  | none => (false, tokens)

/-- `succeeded` or `failed`, where the parser takes them. -/
def acceptStatus (allowStatus : Bool) (tokens : Tokens) : Option (Bool × PredicateToken × Tokens) :=
  if !allowStatus then none
  else
    match acceptWord "succeeded" tokens with
    | some (token, rest) => some (true, token, rest)
    | none => (acceptWord "failed" tokens).map (fun p => (false, p.1, p.2))

def acceptSymbol (symbol : String) : Tokens → Option (PredicateToken × Tokens)
  | token :: rest => if token.value = symbol.toList then some (token, rest) else none
  | [] => none

def expectWord (word : String) (tokens : Tokens) : Except Failure (PredicateToken × Tokens) :=
  match acceptWord word tokens with
  | some accepted => .ok accepted
  | none => predicateError cfg text line base ("Expected '" ++ word ++ "'.") tokens.head?

def expectSymbol (symbol : String) (tokens : Tokens) : Except Failure (PredicateToken × Tokens) :=
  match acceptSymbol symbol tokens with
  | some accepted => .ok accepted
  | none => predicateError cfg text line base ("Expected '" ++ symbol ++ "'.") tokens.head?

def nextToken (tokens : Tokens) : Except Failure (PredicateToken × Tokens) :=
  match tokens with
  | token :: rest => .ok (token, rest)
  | [] => predicateError cfg text line base "Unexpected end of predicate." none

def acceptOperator : Tokens → Option (Ast.Comparison × PredicateToken × Tokens)
  | [] => none
  | token :: rest =>
    (match String.ofList (lower token.value) with
      | "==" => some .eq
      | "!=" => some .ne
      | "<" => some .lt
      | "<=" => some .le
      | ">" => some .gt
      | ">=" => some .ge
      | "contains" => some .contains
      | "matches" => some .matches
      | _ => none : Option Ast.Comparison).map (·, token, rest)

def comparable (token : PredicateToken) : Except Failure Ast.Comparable := do
  let span := tokenSpan line base token
  match ← tryReference cfg line token.value (base + token.startIndex) with
  | some reference => return .reference reference
  | none =>
    if token.quoted then
      match jsonLoads cfg false token.value with
      | .ok (.str value) => return .string token.value value span
      | _ => predicateError cfg text line base "Invalid quoted predicate string." (some token)
    else if lower token.value = "true".toList then return .boolean token.value true span
    else if lower token.value = "false".toList then return .boolean token.value false span
    else if lower token.value = "null".toList then return .null token.value span
    else
      match integer? token.value, number? token.value with
      | some n, _ => return .integer token.value (← intOf cfg n) span
      | none, some n => return .number token.value (PyJson.toDouble n.value) span
      | none, none =>
        predicateError cfg text line base "Expected a predicate reference or literal." (some token)

/-- `_reference`. -/
def predicateReference (token : PredicateToken) : Except Failure Ast.Reference := do
  match ← tryReference cfg line token.value (base + token.startIndex) with
  | some reference => return reference
  | none => predicateError cfg text line base "Expected a reference." (some token)

def spanTo (start : PredicateToken) (stop : SourcePosition) : SourceSpan :=
  ⟨(tokenSpan line base start).start, stop⟩

def predicateSpan : Ast.Predicate → SourceSpan
  | .logical _ _ _ _ span => span
  | .not _ _ span => span
  | .group _ span => span
  | .status _ _ span => span
  | .exists _ _ span => span
  | .nullTest _ _ _ span => span
  | .comparison _ _ _ _ span => span
  | .reference _ span => span

/-- The end of `_parse_primary`: a null test, a comparison or a reference alone. -/
def parseComparison (tokens : Tokens) : Except Failure (Ast.Predicate × Tokens) := do
  let (leftToken, rest) ← nextToken cfg text line base tokens
  let left ← comparable cfg text line base leftToken
  match acceptWord "is" rest with
  | some (operatorStart, rest) =>
    let (negated, rest) := acceptNot rest
    let (nullToken, rest) ← expectWord cfg text line base "null" rest
    match left with
    | .reference reference =>
      return (.nullTest reference (!negated)
        ((text.take nullToken.endIndex).drop operatorStart.startIndex)
        (spanTo line base leftToken (tokenSpan line base nullToken).stop), rest)
    | _ => predicateError cfg text line base "Null tests require a reference." (some leftToken)
  | none =>
    match acceptOperator rest with
    | some (operator, operatorToken, rest) =>
      let (rightToken, rest) ← nextToken cfg text line base rest
      let right ← comparable cfg text line base rightToken
      return (.comparison operator operatorToken.value left right
        (spanTo line base leftToken (tokenSpan line base rightToken).stop), rest)
    | none =>
      match left with
      | .reference reference => return (.reference reference reference.span, rest)
      | _ =>
        predicateError cfg text line base "A standalone predicate must be a Boolean reference."
          (some leftToken)

/-- `_parse_primary` without its parentheses. -/
def parseAtom (tokens : Tokens) : Except Failure (Ast.Predicate × Tokens) :=
  match acceptStatus allowStatus tokens with
  | some (succeeded, token, rest) =>
    .ok (.status token.value succeeded (tokenSpan line base token), rest)
  | none =>
    match acceptWord "exists" tokens with
    | some (keyword, rest) => do
      let (token, rest) ← nextToken cfg text line base rest
      let reference ← predicateReference cfg text line base token
      return (.exists keyword.value reference (spanTo line base keyword reference.span.stop), rest)
    | none => parseComparison cfg text line base tokens

mutual
def parseOr : ℕ → Tokens → Except Failure (Ast.Predicate × Tokens)
  | 0, _ => .error .depth
  | n + 1, tokens => do
    let (left, rest) ← parseAnd n tokens
    parseOrTail n left rest

def parseOrTail : ℕ → Ast.Predicate → Tokens → Except Failure (Ast.Predicate × Tokens)
  | 0, _, _ => .error .depth
  | n + 1, left, tokens =>
    match acceptWord "or" tokens with
    | none => .ok (left, tokens)
    | some (operator, rest) => do
      let (right, rest) ← parseAnd n rest
      parseOrTail n (.logical .or operator.value left right
        ⟨(predicateSpan left).start, (predicateSpan right).stop⟩) rest

def parseAnd : ℕ → Tokens → Except Failure (Ast.Predicate × Tokens)
  | 0, _ => .error .depth
  | n + 1, tokens => do
    let (left, rest) ← parseUnary n tokens
    parseAndTail n left rest

def parseAndTail : ℕ → Ast.Predicate → Tokens → Except Failure (Ast.Predicate × Tokens)
  | 0, _, _ => .error .depth
  | n + 1, left, tokens =>
    match acceptWord "and" tokens with
    | none => .ok (left, tokens)
    | some (operator, rest) => do
      let (right, rest) ← parseUnary n rest
      parseAndTail n (.logical .and operator.value left right
        ⟨(predicateSpan left).start, (predicateSpan right).stop⟩) rest

def parseUnary : ℕ → Tokens → Except Failure (Ast.Predicate × Tokens)
  | 0, _ => .error .depth
  | n + 1, tokens =>
    match acceptWord "not" tokens with
    | some (operator, rest) => do
      let (operand, rest) ← parseUnary n rest
      return (.not operator.value operand (spanTo line base operator (predicateSpan operand).stop),
        rest)
    | none => parsePrimary n tokens

def parsePrimary : ℕ → Tokens → Except Failure (Ast.Predicate × Tokens)
  | 0, _ => .error .depth
  | n + 1, tokens =>
    match acceptSymbol "(" tokens with
    | some (opening, rest) => do
      let (operand, rest) ← parseOr n rest
      let (closing, rest) ← expectSymbol cfg text line base ")" rest
      return (.group operand (spanTo line base opening (tokenSpan line base closing).stop), rest)
    | none => parseAtom cfg text line base allowStatus tokens
end

/-- `PredicateParser(text, ..).parse()`. -/
def parsePredicate : Except Failure Ast.Predicate := do
  let tokens ← tokenize text.length 0 text
  let (predicate, rest) ← parseOr cfg text line base allowStatus (4 * tokens.length + 4) tokens
  match rest with
  | [] => return predicate
  | token :: _ => predicateError cfg text line base "Unexpected predicate token." (some token)

end Predicate

end Raticode.Rattish
