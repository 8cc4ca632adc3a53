import Raticode.Attempt
import Raticode.RattishTerms

/-! The parser of a document: a shared cursor over the lines, moved by routines for
fields, blocks, lists, maps, bindings and routes. The state is the lines from the
cursor on, and an error leaves it where the routine stopped. -/
namespace Raticode.Rattish
open PyText (lower lowerWord identifier strip foldChar isSpace)
open Attempt

abbrev Parse (α : Type) := EStateM Failure (List SourceLine) α

def rstrip (text : Text) : Text := text.rdropWhile isSpace

/-- `text.index(part)`, `none` where it raises. -/
def find (part : Text) : Text → Option ℕ
  | [] => if part = [] then some 0 else none
  | c :: cs => if part.isPrefixOf (c :: cs) then some 0 else (find part cs).map (· + 1)

def isIdentifier (text : Text) : Bool := identifier text = some text

/-- `_strip_comment`: what stands before a `#` outside quotes and brackets. -/
def stripComment : Bool → Bool → ℕ → Text → Text
  | _, _, _, [] => []
  | quoted, escaped, depth, c :: cs =>
    if escaped then c :: stripComment quoted false depth cs
    else if c = '\\' && quoted then c :: stripComment quoted true depth cs
    else if c = '"' then c :: stripComment (!quoted) false depth cs
    else if quoted then c :: stripComment quoted false depth cs
    else if c = '\x7b' || c = '[' then c :: stripComment quoted false (depth + 1) cs
    else if c = '\x7d' || c = ']' then c :: stripComment quoted false (depth - 1) cs
    else if c = '#' && depth = 0 then []
    else c :: stripComment quoted false depth cs

def inlineText (raw : Text) : Text :=
  rstrip (stripComment false false 0 (raw.dropWhile isIndent))

def keyword? (word : String) (text : Text) : Option (Text × Text) :=
  let source := text.take word.length
  if source.map foldChar = word.toList then some (source, text.drop word.length) else none

def isHeaderEnd (text : Text) : Bool :=
  match text.dropWhile isSpace with
  | [] => true
  | c :: _ => c = '#'

section Lines
variable (cfg : ParserConfig)

def lineView (line : SourceLine) : LineView :=
  let indent := line.text.takeWhile isIndent
  ⟨line, indentColumns line.text, indent.length, line.text.drop indent.length⟩

def view (line : SourceLine) : Except Failure LineView :=
  let view := lineView line
  if view.indentColumns % 2 = 1 then
    .error (raised cfg "RATTISH_INVALID_INDENTATION"
      "Indentation must use an even number of columns." line 0 view.contentIndex .lexer)
  else .ok view

/-- `_raise_line_indent`. -/
def lineIndentError (view : LineView) (expected : ℕ) : Failure :=
  raised cfg "RATTISH_INVALID_INDENTATION" ("Expected " ++ toString expected ++
    " indentation columns, found " ++ toString view.indentColumns ++ ".") view.line 0
    view.contentIndex .lexer

def LineView.isIgnorable (view : LineView) : Bool :=
  view.content = [] || view.content.head? = some '#'

def viewHere : Parse LineView := do
  match ← peek with
  | [] => fail .indexError
  | line :: _ => lift (view cfg line)

def advance : Parse Unit := do put (← peek).tail

def atEofLine : List SourceLine → Bool
  | [line] => line.text = []
  | _ => false

def skipIgnorable : Parse Unit
  | [] => .ok () []
  | line :: lines =>
    match view cfg line with
    | .error e => .error e (line :: lines)
    | .ok v => if v.isIgnorable then skipIgnorable lines else .ok () (line :: lines)

/-- `_next_meaningful_index`, as the lines from there on. -/
def nextMeaningful : List SourceLine → Except Failure (Option (List SourceLine))
  | [] => .ok none
  | line :: lines =>
    match view cfg line with
    | .error e => .error e
    | .ok v => if v.isIgnorable then nextMeaningful lines else .ok (some (line :: lines))

structure FieldParts where
  key : Text
  rest : Text
  keyStart : ℕ
  keyEnd : ℕ
  valueStart : ℕ

/-- The common part of `_split_field` and `_split_map_entry`. -/
def splitEntry (missing : String) (keyProblem : Text → Option String) (view : LineView) :
    Except Failure FieldParts :=
  match untilUnquoted ':' false false view.content with
  | none => .error (raised cfg "RATTISH_EXPECTED_TOKEN" missing view.line view.contentIndex
      view.line.text.length)
  | some (before, after) =>
    match keyProblem (strip before), find (strip before) view.content with
    | some message, _ => .error (raised cfg "RATTISH_INVALID_TOKEN" message view.line
        view.contentIndex (view.contentIndex + before.length) .lexer)
    | none, none => .error .valueError
    | none, some index =>
      let keyStart := view.contentIndex + index
      .ok ⟨strip before, inlineText after, keyStart, keyStart + (strip before).length,
        view.contentIndex + before.length + 1 + (after.takeWhile isIndent).length⟩

def splitField (view : LineView) : Except Failure FieldParts :=
  splitEntry cfg "Expected ':' after field name."
    (fun key => if isIdentifier key then none else some "Field name must be a Rattish identifier.")
    view

def splitMapEntry (view : LineView) : Except Failure FieldParts :=
  splitEntry cfg "Expected ':' after map key."
    (fun key =>
      if key.head? = some '"' then
        match jsonLoads cfg false key with
        | .ok (.str _) => none
        | _ => some "Quoted map key must use JSON string syntax."
      else if isIdentifier key then none
      else some "Map key must be an identifier or JSON string.")
    view

def mapKeyJson (key : Text) (span : SourceSpan) : Ast.MapKey :=
  match key.head?, jsonLoads cfg false key with
  | some '"', .ok (.str value) => .string key value span
  | _, _ => .identifier (identifierJson key span)

end Lines

section Values
variable (cfg : ParserConfig)

mutual
def toValue : PyJson.Json → Option Value
  | .null => some .null
  | .bool b => some (.bool b)
  | .int z => some (.int z)
  | .float q => q.map .float
  | .str s => some (.str (String.ofList s))
  | .arr items => (toValues items).map .arr
  | .obj members => (toMembers members).map .obj

def toValues : List PyJson.Json → Option (List Value)
  | [] => some []
  | item :: items => do return (← toValue item) :: (← toValues items)

def toMembers : List (Text × PyJson.Json) → Option (List (String × Value))
  | [] => some []
  | (name, item) :: members => do
    return (String.ofList name, ← toValue item) :: (← toMembers members)
end

inductive JsonScan where
  | closed (length : ℕ)
  | surplus (index : ℕ)
  | pending (depth : ℕ) (quoted escaped : Bool)

def scanJson : ℕ → ℕ → Bool → Bool → Text → JsonScan
  | _, depth, quoted, escaped, [] => .pending depth quoted escaped
  | index, depth, quoted, escaped, c :: cs =>
    if escaped then scanJson (index + 1) depth quoted false cs
    else if c = '\\' && quoted then scanJson (index + 1) depth quoted true cs
    else if c = '"' then scanJson (index + 1) depth (!quoted) false cs
    else if quoted then scanJson (index + 1) depth quoted false cs
    else if c = '\x7b' || c = '[' then scanJson (index + 1) (depth + 1) quoted false cs
    else if c = '\x7d' || c = ']' then
      if depth = 0 then .surplus index
      else if depth = 1 then .closed (index + 1)
      else scanJson (index + 1) (depth - 1) quoted false cs
    else scanJson (index + 1) depth quoted false cs

/-- One line of `_collect_json`: the text up to the closing bracket and where it
ends, or what is still open. -/
def jsonLine (depth : ℕ) (quoted escaped : Bool) (text : Text) (line : SourceLine) (start : ℕ) :
    Except Failure ((Text × SourcePosition) ⊕ (ℕ × Bool × Bool)) :=
  match scanJson 0 depth quoted escaped text with
  | .surplus index => .error (raised cfg "RATTISH_INVALID_JSON"
      "Embedded JSON closes more containers than it opens." line (start + index)
      (start + index + 1) .lexer)
  | .closed length =>
    let remainder := text.drop length
    if strip remainder ≠ [] && (remainder.dropWhile isSpace).head? ≠ some '#' then
      .error (raised cfg "RATTISH_INVALID_JSON" "Unexpected source after embedded JSON value." line
        (start + length) (start + text.length) .lexer)
    else .ok (.inl (text.take length, line.position (start + length)))
  | .pending depth quoted escaped => .ok (.inr (depth, quoted, escaped))

/-- `_collect_json` from one of its lines on. Lines are taken off the cursor while
brackets are open. -/
def collectJson (unterminated : Failure) (depth : ℕ) (quoted escaped : Bool) (text : Text)
    (line : SourceLine) (start : ℕ) : Parse (Text × SourcePosition)
  | [] =>
    match jsonLine cfg depth quoted escaped text line start with
    | .error e => .error e []
    | .ok (.inl result) => .ok result []
    | .ok (.inr _) => .error unterminated []
  | next :: lines =>
    match jsonLine cfg depth quoted escaped text line start with
    | .error e => .error e (next :: lines)
    | .ok (.inl result) => .ok result (next :: lines)
    | .ok (.inr (depth, quoted, escaped)) =>
      if atEofLine (next :: lines) then .error unterminated (next :: lines)
      else
        match collectJson unterminated depth quoted escaped next.text next 0 lines with
        | .ok (more, stop) rest => .ok (text ++ '\n' :: more, stop) rest
        | .error e rest => .error e rest

/-- `_DURATION.fullmatch`: the amount and the unit. -/
def duration? (text : Text) : Option (Text × Text) :=
  let amount := text.takeWhile PyJson.isDigit
  let unitSource := text.drop amount.length
  if amount ≠ [] && amount.head? ≠ some '0' &&
      ["ms", "s", "m", "h", "d"].contains (String.ofList (unitSource.map foldChar))
  then some (amount, unitSource) else none

/-- The values of one word, `none` where the text is a reference or bare text. -/
def parseWord (text : Text) (span : SourceSpan) : Except Failure (Option Ast.Val) :=
  let lowered := lower text
  if lowered = "true".toList then .ok (some (.boolean text true span))
  else if lowered = "false".toList then .ok (some (.boolean text false span))
  else if lowered = "none".toList then .ok (some (.none text span))
  else if lowered = "null".toList then .ok (some (.null text span))
  else
    match duration? text, integer? text, number? text with
    | some (amount, unitSource), _, _ => do
      return some (.duration text (← natOf cfg amount) unitSource (lower unitSource) span)
    | none, some n, _ => do return some (.integer text (← intOf cfg n) span)
    | none, none, some n => .ok (some (.number text (PyJson.toDouble n.value) span))
    | none, none, none => .ok none

def parseJson (text : Text) (line : SourceLine) (start : ℕ) : Parse Ast.Val := do
  let failure (message : String) : Failure :=
    raised cfg "RATTISH_INVALID_JSON" message line start (start + text.length) .lexer
  let (source, stop) ← collectJson cfg (failure "Embedded JSON value is not terminated.") 0 false
    false text line start
  match jsonLoads cfg true source with
  | .ok value => return .json source (toValue value) ⟨line.position start, stop⟩
  | .error .digits => fail .valueError
  | .error _ => fail (failure (cfg.jsonMessage source))

/-- `_parse_inline_value` of a value that is no node type. -/
def parseInlineValue (text : Text) (line : SourceLine) (start : ℕ) : Parse Ast.Val :=
  let span := line.span start (start + text.length)
  match text.head? with
  | some '"' =>
    match jsonLoads cfg false text with
    | .ok (.str value) => return .string .quoted text value span
    | _ => fail (raised cfg "RATTISH_UNTERMINATED_STRING" (cfg.stringMessage text) line start
        (start + text.length) .lexer)
  | some '\x7b' => parseJson cfg text line start
  | some '[' => parseJson cfg text line start
  | _ => do
    match ← lift (parseWord cfg text span) with
    | some value => return value
    | none =>
      match ← lift (tryReference cfg line text start) with
      | some reference => return .reference reference
      | none => return .string .bare text text span

/-- `_parse_inline_value` of a node type. -/
def parseIdentifierValue (text : Text) (line : SourceLine) (start : ℕ) : Parse Ast.Val :=
  if isIdentifier text then
    return .identifierValue text (lower text) (line.span start (start + text.length))
  else fail (raised cfg "RATTISH_INVALID_TOKEN" "Node type must be a Rattish identifier." line start
    (start + text.length) .lexer)

def valueSpan : Ast.Val → SourceSpan
  | .identifierValue _ _ span => span
  | .string _ _ _ span => span
  | .json _ _ span => span
  | .boolean _ _ span => span
  | .none _ span => span
  | .null _ span => span
  | .duration _ _ _ _ span => span
  | .integer _ _ span => span
  | .number _ _ span => span
  | .reference reference => reference.span
  | .expression _ span => span
  | .list _ span => span
  | .map _ span => span

def valueFieldEnd (value : Ast.Val) (line : SourceLine) : SourcePosition :=
  let stop := (valueSpan value).stop
  if stop.line = line.number then line.lineEnd else stop

def wordAt (word : String) (before : Option Char) (text : Text) : Bool :=
  let isWord (c : Option Char) : Bool := c.any cfg.isWord
  match keyword? word text with
  | some (source, after) =>
    isWord before != isWord source.head? && isWord source.getLast? != isWord after.head?
  | none => false

def operatorAfter (before : Option Char) : Text → Bool
  | [] => false
  | c :: cs =>
    c = '<' || c = '>' || (c = '=' && cs.head? = some '=') || (c = '!' && cs.head? = some '=') ||
      ["contains", "matches", "and", "or"].any (fun word => wordAt cfg word before (c :: cs)) ||
      operatorAfter (some c) cs

/-- The search of `_parse_binding_value` for an operator. -/
def looksLikeExpression (text : Text) : Bool :=
  operatorAfter cfg none text || ["not", "exists"].any (fun word =>
    match keyword? word text with
    | some (_, after) => after.head?.any isSpace
    | none => false)

def parseBindingValue (text : Text) (line : SourceLine) (start : ℕ) : Parse Ast.Val :=
  if looksLikeExpression cfg text then do
    let expression ← lift (parsePredicate cfg text line start false)
    return .expression expression (predicateSpan expression)
  else parseInlineValue cfg text line start

end Values

section Blocks
variable (cfg : ParserConfig)

def takeBlock (fieldIndent : ℕ) : Parse (List LineView)
  | [] => .ok [] []
  | line :: lines =>
    match view cfg line with
    | .error e => .error e (line :: lines)
    | .ok v =>
      if v.content ≠ [] && v.indentColumns ≤ fieldIndent then .ok [] (line :: lines)
      else
        match takeBlock fieldIndent lines with
        | .ok views rest => .ok (v :: views) rest
        | .error e rest => .error e rest

def removeIndentColumns : ℕ → Text → Text
  | _, [] => []
  | columns, c :: cs =>
    if 0 < columns && isIndent c then removeIndentColumns (columns - (if c = '\t' then 2 else 1)) cs
    else c :: cs

def blockText (fieldIndent : ℕ) (views : List LineView) : Text :=
  let indents := (views.filter (fun v => v.content ≠ [])).map LineView.indentColumns
  let trimColumns := indents.min?.getD (fieldIndent + 2)
  let pieces := views.map (fun v =>
    if strip v.line.text = [] then [] else removeIndentColumns trimColumns v.line.text)
  let value := (List.intercalate ['\n'] pieces).rdropWhile (· = '\n')
  if pieces.any (· ≠ []) then value ++ ['\n'] else value

def parseBlockString (fieldIndent : ℕ) (marker : SourceLine) : Parse Ast.Val := do
  let first := (← peek).head?
  let views ← takeBlock cfg fieldIndent
  let stop := match views.getLast? with
    | some v => v.line.lineEnd
    | none => marker.lineEnd
  let start : SourcePosition := match first with
    | some line => ⟨line.startOffset, line.number, 1⟩
    | none => ⟨stop.offset, stop.line, 1⟩
  let value := blockText fieldIndent views
  return .string .block value value ⟨start, stop⟩

def nestedValue (blockValue : ℕ → Parse Ast.Val) (indent : ℕ) (missing : Failure) :
    Parse Ast.Val := do
  skipIgnorable cfg
  match ← peek with
  | [] => fail missing
  | line :: _ => do
    let v ← lift (view cfg line)
    if v.indentColumns ≠ indent then fail missing else blockValue indent

def moreEntries (indent : ℕ) : Parse Bool := do
  match ← lift (nextMeaningful cfg (← peek)) with
  | none => return false
  | some [] => return false
  | some (line :: lines) => do
    let v ← lift (view cfg line)
    if v.indentColumns = indent then do
      put (line :: lines)
      return true
    else return false

/-- One entry of `_parse_value_map`. -/
def mapEntry (blockValue : ℕ → Parse Ast.Val) (indent : ℕ) :
    Parse (Lap (Ast.MapKey × Ast.Val × SourceSpan)) := do
  skipIgnorable cfg
  match ← peek with
  | [] => return .stop
  | line :: _ => do
    let v ← lift (view cfg line)
    if v.indentColumns < indent then return .stop
    else if v.indentColumns ≠ indent then fail (lineIndentError cfg v indent)
    else do
      let parts ← lift (splitMapEntry cfg v)
      let key := mapKeyJson cfg parts.key (line.span parts.keyStart parts.keyEnd)
      advance
      let (value, stop) ← if parts.rest ≠ [] then do
          let value ← parseInlineValue cfg parts.rest line parts.valueStart
          pure (value, valueFieldEnd value line)
        else do
          let value ← nestedValue cfg blockValue (indent + 2)
            (raised cfg "RATTISH_EXPECTED_TOKEN" "Map entry requires a value or nested block." line
              parts.keyStart parts.keyEnd)
          pure (value, (valueSpan value).stop)
      let entry := (key, value, ⟨line.position parts.keyStart, stop⟩)
      if ← moreEntries cfg indent then return .next entry else return .last entry

def parseValueMap (blockValue : ℕ → Parse Ast.Val) (indent : ℕ) : Parse Ast.Val := do
  let entries ← collect .depth (mapEntry cfg blockValue indent) ((← peek).length + 1)
  match entries.head?, entries.getLast? with
  | some (_, _, first), some (_, _, last) => return .map entries ⟨first.start, last.stop⟩
  | _, _ => fail .assertionError

/-- One item of `_parse_value_list`, with the ends of its part of the source. -/
def listItem (blockValue : ℕ → Parse Ast.Val) (indent : ℕ) :
    Parse (Lap (Ast.Val × SourceSpan)) := do
  skipIgnorable cfg
  match ← peek with
  | [] => return .stop
  | line :: _ => do
    let v ← lift (view cfg line)
    match v.content with
    | '-' :: raw =>
      if v.indentColumns ≠ indent then return .stop
      else if raw ≠ [] && !raw.head?.any isIndent then
        fail (raised cfg "RATTISH_INVALID_TOKEN" "List marker '-' must be followed by whitespace."
          line v.contentIndex (v.contentIndex + 1) .lexer)
      else do
        let rest := inlineText raw
        advance
        let (value, stop) ← if rest ≠ [] then do
            let value ← parseInlineValue cfg rest line
              (v.contentIndex + 1 + (raw.takeWhile isIndent).length)
            pure (value, valueFieldEnd value line)
          else do
            skipIgnorable cfg
            let value ← parseValueMap cfg blockValue (indent + 2)
            pure (value, (valueSpan value).stop)
        return .next (value, ⟨line.position v.contentIndex, stop⟩)
    | _ => return .stop

def parseValueList (blockValue : ℕ → Parse Ast.Val) (indent : ℕ) : Parse Ast.Val := do
  let items ← collect .depth (listItem cfg blockValue indent) ((← peek).length + 1)
  match items.head?, items.getLast? with
  | some (_, first), some (_, last) =>
    return .list (items.map Prod.fst) ⟨first.start, last.stop⟩
  | _, _ => fail .assertionError

/-- `_parse_block_value`, down to a nesting. -/
def parseBlockValue : ℕ → ℕ → Parse Ast.Val
  | 0, _ => fail .depth
  | n + 1, indent => do
    let v ← viewHere cfg
    if v.indentColumns ≠ indent then fail (lineIndentError cfg v indent)
    else
      match v.content with
      | '-' :: raw =>
        if raw = [] || raw.head?.any isIndent then parseValueList cfg (parseBlockValue n) indent
        else parseValueMap cfg (parseBlockValue n) indent
      | _ => parseValueMap cfg (parseBlockValue n) indent

def parseGenericField (indent : ℕ) : Parse Ast.Field := do
  let v ← viewHere cfg
  let parts ← lift (splitField cfg v)
  let line := v.line
  advance
  let (value, stop) ← if parts.rest = ['|'] then do
      let value ← parseBlockString cfg indent line
      pure (value, (valueSpan value).stop)
    else if parts.rest ≠ [] then do
      let value ← if lower parts.key = "type".toList
        then parseIdentifierValue cfg parts.rest line parts.valueStart
        else parseInlineValue cfg parts.rest line parts.valueStart
      pure (value, valueFieldEnd value line)
    else do
      let value ← nestedValue cfg (parseBlockValue cfg ((← peek).length + 1)) (indent + 2)
        (raised cfg "RATTISH_EXPECTED_TOKEN" ("Field '" ++ String.ofList parts.key ++
          "' requires a value or nested block.") line parts.keyStart parts.keyEnd)
      pure (value, (valueSpan value).stop)
  return ⟨identifierJson parts.key (line.span parts.keyStart parts.keyEnd), value,
    ⟨line.position parts.keyStart, stop⟩⟩

def entryLine (parentIndent : ℕ) : Parse (Option LineView) := do
  skipIgnorable cfg
  match ← peek with
  | [] => return none
  | line :: lines =>
    if atEofLine (line :: lines) then return none
    else do
      let v ← lift (view cfg line)
      if v.indentColumns ≤ parentIndent then return none
      else if v.indentColumns ≠ parentIndent + 2 then
        fail (lineIndentError cfg v (parentIndent + 2))
      else return some v

def parseGenericEntries (parentIndent : ℕ) : Parse (List Ast.Field) := do
  collect .depth (do
    match ← entryLine cfg parentIndent with
    | none => return .stop
    | some _ => return .next (← parseGenericField cfg (parentIndent + 2))) ((← peek).length + 1)

end Blocks

section Entries
variable (cfg : ParserConfig) (eof : SourcePosition)

/-- `_raise_eof`. -/
def eofError (message : String) : Failure :=
  parseErrorAt cfg "RATTISH_EXPECTED_TOKEN" message ⟨eof, eof⟩

def identifierValue (source : Text) (line : SourceLine) (index : ℕ) :
    Except Failure Ast.Identifier :=
  if isIdentifier source then .ok (identifierJson source (line.span index (index + source.length)))
  else .error (raised cfg "RATTISH_INVALID_TOKEN" "Expected a Rattish identifier." line index
    (index + source.length) .lexer)

def markedLine (indent : ℕ) : Parse (Option (LineView × Text)) := do
  skipIgnorable cfg
  match ← peek with
  | [] => return none
  | line :: _ => do
    let v ← lift (view cfg line)
    match v.content with
    | '-' :: raw => if v.indentColumns = indent then return some (v, raw) else return none
    | _ => return none

/-- `_parse_identifier_list`, each identifier with the end of its line. -/
def parseIdentifierList (indent : ℕ) : Parse (List (Ast.Identifier × SourcePosition)) := do
  let values ← collect .depth (do
    match ← markedLine cfg indent with
    | none => return .stop
    | some (v, raw) => do
      let rest := inlineText raw
      match find rest v.content with
      | none => fail .valueError
      | some index => do
        let value ← lift (identifierValue cfg rest v.line (v.contentIndex + index))
        advance
        return .next (value, v.line.lineEnd)) ((← peek).length + 1)
  if values = [] then fail (eofError cfg eof "Expected one or more list items.")
  else return values

def parseNeeds (v : LineView) (parts : FieldParts) (indent : ℕ) : Parse Ast.Entry := do
  let line := v.line
  let keyword := (line.text.drop parts.keyStart).take 5
  let start := line.position parts.keyStart
  advance
  if parts.rest ≠ [] then do
    let node ← lift (identifierValue cfg parts.rest line parts.valueStart)
    return .needs keyword .scalar [node] ⟨start, line.lineEnd⟩
  else do
    let nodes ← parseIdentifierList cfg eof (indent + 2)
    return .needs keyword .list (nodes.map Prod.fst)
      ⟨start, (nodes.getLast?.map Prod.snd).getD line.lineEnd⟩

def parseRoute (text : Text) (line : SourceLine) (start : ℕ) : Except Failure Ast.Route :=
  match identifier text with
  | none => .error (raised cfg "RATTISH_EXPECTED_TOKEN" "Route requires a target node ID." line start
      (start + text.length))
  | some target => do
    let after := text.drop target.length
    let remainder := strip after
    let targetJson := identifierJson target (line.span start (start + target.length))
    let span := line.span start (start + text.length)
    if lower remainder = "otherwise".toList then return ⟨targetJson, .otherwise, span⟩
    else if "when ".toList.isPrefixOf (lower remainder) then
      let predicateText := strip (remainder.drop 5)
      match find predicateText after with
      | none => .error .valueError
      | some index =>
        let predicate ← parsePredicate cfg predicateText line (start + target.length + index) true
        return ⟨targetJson, .when predicate, span⟩
    else if remainder ≠ [] then
      .error (raised cfg "RATTISH_EXPECTED_TOKEN"
        "Expected 'when <predicate>' or 'otherwise' after route target." line
        (start + target.length) (start + text.length))
    else return ⟨targetJson, .unconditional, span⟩

def parseRoutes (v : LineView) (parts : FieldParts) (indent : ℕ) : Parse Ast.Entry := do
  let line := v.line
  let keyword := (line.text.drop parts.keyStart).take 2
  let start := line.position parts.keyStart
  advance
  if parts.rest ≠ [] then do
    let route ← lift (parseRoute cfg parts.rest line parts.valueStart)
    return .routes keyword .scalar [route] ⟨start, line.lineEnd⟩
  else do
    let routes ← collect .depth (do
      match ← markedLine cfg (indent + 2) with
      | none => return .stop
      | some (item, raw) => do
        let route ← lift (parseRoute cfg (inlineText raw) item.line
          (item.contentIndex + 1 + (raw.takeWhile isIndent).length))
        advance
        return .next (route, item.line.lineEnd)) ((← peek).length + 1)
    match routes.getLast? with
    | none => fail (eofError cfg eof "Expected one or more routes.")
    | some (_, stop) => return .routes keyword .list (routes.map Prod.fst) ⟨start, stop⟩

def bindingEntry (indent : ℕ) : Parse (Lap Ast.BindingEntry) := do
  skipIgnorable cfg
  match ← peek with
  | [] => return .stop
  | line :: _ => do
    let v ← lift (view cfg line)
    if v.indentColumns ≠ indent then return .stop
    else do
      let parts ← lift (splitField cfg v)
      let canonical := lower parts.key
      if (canonical ≠ "from".toList && canonical ≠ "default".toList) || parts.rest = [] then
        fail (raised cfg "RATTISH_EXPECTED_TOKEN"
          "Expanded binding accepts from and optional default fields." line parts.keyStart
          line.text.length)
      else do
        let value ← parseInlineValue cfg parts.rest line parts.valueStart
        let span : SourceSpan := ⟨line.position parts.keyStart, line.lineEnd⟩
        if canonical = "from".toList then
          match value with
          | .reference reference => do
            advance
            return .next (.source parts.key reference span)
          | _ => fail (raised cfg "RATTISH_EXPECTED_TOKEN"
              "Expanded binding from field requires a reference." line parts.valueStart
              line.text.length)
        else do
          advance
          return .next (.default parts.key value span)

def bindingEntrySpan : Ast.BindingEntry → SourceSpan
  | .source _ _ span => span
  | .default _ _ span => span

/-- One binding of `_parse_bindings`. -/
def parseBinding (indent : ℕ) : Parse (Lap Ast.Binding) := do
  skipIgnorable cfg
  match ← peek with
  | [] => return .stop
  | line :: _ => do
    let v ← lift (view cfg line)
    if v.indentColumns ≠ indent then return .stop
    else do
      let parts ← lift (splitField cfg v)
      let name := identifierJson parts.key (line.span parts.keyStart parts.keyEnd)
      let start := line.position parts.keyStart
      advance
      if parts.rest ≠ [] then do
        let value ← parseBindingValue cfg parts.rest line parts.valueStart
        return .next (.compact name value ⟨start, valueFieldEnd value line⟩)
      else do
        let entries ← collect .depth (bindingEntry cfg (indent + 2)) ((← peek).length + 1)
        match entries.getLast? with
        | none => fail (raised cfg "RATTISH_EXPECTED_TOKEN"
            "Expanded binding requires a from field and may include a default field." line
            parts.keyStart line.text.length)
        | some last => return .next (.expanded name entries ⟨start, (bindingEntrySpan last).stop⟩)

def bindingSpan : Ast.Binding → SourceSpan
  | .compact _ _ span => span
  | .expanded _ _ span => span

def parseBindings (v : LineView) (parts : FieldParts) (indent : ℕ) : Parse Ast.Entry := do
  let line := v.line
  if parts.rest ≠ [] then
    fail (raised cfg "RATTISH_EXPECTED_TOKEN" "with requires an indented binding block." line
      parts.keyStart line.text.length)
  else do
    advance
    let bindings ← collect .depth (parseBinding cfg (indent + 2)) ((← peek).length + 1)
    match bindings.getLast? with
    | none => fail (eofError cfg eof "Expected one or more bindings.")
    | some last =>
      return .bindings ((line.text.drop parts.keyStart).take 4) bindings
        ⟨line.position parts.keyStart, (bindingSpan last).stop⟩

/-- One entry of `_parse_node_entries`. -/
def nodeEntry (parentIndent : ℕ) : Parse (Lap Ast.Entry) := do
  match ← entryLine cfg parentIndent with
  | none => return .stop
  | some v => do
    let parts ← lift (splitField cfg v)
    let canonical := lower parts.key
    let entry ← if canonical = "needs".toList then parseNeeds cfg eof v parts (parentIndent + 2)
      else if canonical = "to".toList then parseRoutes cfg eof v parts (parentIndent + 2)
      else if canonical = "with".toList then parseBindings cfg eof v parts (parentIndent + 2)
      else do
        let field ← parseGenericField cfg (parentIndent + 2)
        pure (.field field)
    return .next entry

def parseNodeEntries (parentIndent : ℕ) : Parse (List Ast.Entry) := do
  collect .depth (nodeEntry cfg eof parentIndent) ((← peek).length + 1)

end Entries

section Document
variable (cfg : ParserConfig) (eof : SourcePosition)

def versionLine? (content : Text) : Option (Text × Text) := do
  let (word, rest) ← (keyword? "rattish" content).or (keyword? "radish" content)
  match rest.dropWhile isSpace with
  | ':' :: rest =>
    let value := rest.dropWhile isSpace
    let digits := value.takeWhile PyJson.isDigit
    if digits ≠ [] && isHeaderEnd (value.drop digits.length) then some (word, digits) else none
  | _ => none

def parseVersion : Parse Ast.Version := do
  match ← peek with
  | [] => fail (eofError cfg eof "Expected 'Rattish: 1'.")
  | line :: _ => do
    let v ← lift (view cfg line)
    if v.indentColumns ≠ 0 then fail (lineIndentError cfg v 0)
    else
      match versionLine? v.content with
      | none => fail (raised cfg "RATTISH_EXPECTED_TOKEN" "Expected a Rattish version directive." line
          v.contentIndex line.text.length)
      | some (word, digits) => do
        let value ← lift (natOf cfg digits)
        advance
        return ⟨word, digits, value, ⟨line.position v.contentIndex, line.lineEnd⟩⟩

/-- `_declaration_header` of the workflow: its keyword. -/
def workflowHeader (v : LineView) : Except Failure Text :=
  if v.indentColumns ≠ 0 then .error (lineIndentError cfg v 0)
  else
    let missing := raised cfg "RATTISH_UNEXPECTED_DECLARATION" "Expected Workflow declaration." v.line
      v.contentIndex v.line.text.length
    match keyword? "workflow" v.content with
    | some (word, rest) =>
      match rest.dropWhile isSpace with
      | ':' :: rest => if isHeaderEnd rest then .ok word else .error missing
      | _ => .error missing
    | none => .error missing

def isFoldedLetter (c : Char) : Bool := PyText.isLetter (foldChar c)

def isFoldedAlnum (c : Char) : Bool := PyText.isAlnum (foldChar c)

def nodeLine? (content : Text) : Option (Text × ℕ × Text) := do
  let (word, rest) ← keyword? "node" content
  let blanks := rest.takeWhile isIndent
  match rest.drop blanks.length with
  | c :: cs =>
    let name := c :: PyText.hyphenTail isFoldedAlnum cs
    if blanks ≠ [] && isFoldedLetter c then
      match (cs.drop (name.length - 1)).dropWhile isSpace with
      | ':' :: rest =>
        if isHeaderEnd rest then some (word, word.length + blanks.length, name) else none
      | _ => none
    else none
  | [] => none

def nodeHeader (v : LineView) : Except Failure (Text × Ast.Identifier) :=
  if v.indentColumns ≠ 0 then .error (lineIndentError cfg v 0)
  else
    match nodeLine? v.content with
    | none => .error (raised cfg "RATTISH_UNEXPECTED_DECLARATION" "Expected a Node declaration." v.line
        v.contentIndex v.line.text.length)
    | some (word, index, name) =>
      let start := v.contentIndex + index
      .ok (word, identifierJson name (v.line.span start (start + name.length)))

/-- `_parse_workflow`. The cursor is taken to be on a line. -/
def parseWorkflow : Parse Ast.Workflow := do
  let v ← viewHere cfg
  let word ← lift (workflowHeader cfg v)
  advance
  let entries ← parseGenericEntries cfg 0
  match entries.getLast? with
  | none => fail (raised cfg "RATTISH_EXPECTED_TOKEN" "Workflow requires at least one field." v.line
      v.contentIndex v.line.text.length)
  | some last => return ⟨word, entries, ⟨v.line.position v.contentIndex, last.span.stop⟩⟩

def entrySpan : Ast.Entry → SourceSpan
  | .field field => field.span
  | .needs _ _ _ span => span
  | .routes _ _ _ span => span
  | .bindings _ _ span => span

def parseNode : Parse Ast.NodeDecl := do
  let v ← viewHere cfg
  let (word, name) ← lift (nodeHeader cfg v)
  advance
  let entries ← parseNodeEntries cfg eof 0
  match entries.getLast? with
  | none => fail (raised cfg "RATTISH_EXPECTED_TOKEN" "Node requires at least one field." v.line
      v.contentIndex v.line.text.length)
  | some last => return ⟨word, name, entries, ⟨v.line.position v.contentIndex, (entrySpan last).stop⟩⟩

def parseHeader : Parse (Ast.Version × Ast.Workflow) := do
  skipIgnorable cfg
  let version ← parseVersion cfg eof
  skipIgnorable cfg
  let workflow ← parseWorkflow cfg
  return (version, workflow)

def moreNodes : Parse Bool := do
  skipIgnorable cfg
  match ← peek with
  | [] => return false
  | lines => return !atEofLine lines

/-- The nodes of `RattishParser.parse`. -/
def parseNodes : Parse (List Ast.NodeDecl) := do
  collect .depth (do
    if ← moreNodes cfg then return .next (← parseNode cfg eof) else return .stop)
    ((← peek).length + 1)

def documentOf (cfg : ParserConfig) (source : Text) (header : Ast.Version × Ast.Workflow)
    (nodes : List Ast.NodeDecl) : Ast.Document :=
  ⟨cfg.sourceId, ⟨⟨0, 1, 1⟩, documentEnd source⟩, header.1, header.2, nodes⟩

def parse (cfg : ParserConfig) (source : Text) : Except Failure Ast.Document :=
  let program : Parse Ast.Document := do
    let header ← parseHeader cfg (documentEnd source)
    let nodes ← parseNodes cfg (documentEnd source)
    return documentOf cfg source header nodes
  match program (physicalLines source) with
  | .ok document _ => .ok document
  | .error e _ => .error e

def asciiConfig : ParserConfig where
  sourceId := "workflow.rattish"
  maxDigits := some 4300
  isWord c := c.isAlphanum || c = '_'
  jsonMessage _ := "Expecting value: line 1 column 1 (char 0)"
  stringMessage _ := "Unterminated string starting at: line 1 column 1 (char 0)"

end Document

end Raticode.Rattish
