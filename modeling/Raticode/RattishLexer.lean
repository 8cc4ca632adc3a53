import Raticode.RattishAst

/-! The source as physical lines. A line keeps the byte offsets of its ends, and
positions inside it are counted in characters and in bytes of UTF-8. -/
namespace Raticode.Rattish

/-- `len(text.encode("utf-8"))`. -/
def byteLength (text : Text) : ℕ := (text.map Char.utf8Size).sum

structure SourceLine where
  number : ℕ
  text : Text
  startOffset : ℕ
  endOffset : ℕ
  hasNewline : Bool
  deriving DecidableEq

namespace SourceLine

def position (line : SourceLine) (characterIndex : ℕ) : SourcePosition :=
  ⟨line.startOffset + byteLength (line.text.take characterIndex), line.number, characterIndex + 1⟩

def lineEnd (line : SourceLine) : SourcePosition :=
  if line.hasNewline then ⟨line.endOffset, line.number + 1, 1⟩ else line.position line.text.length

def span (line : SourceLine) (start stop : ℕ) : SourceSpan :=
  ⟨line.position start, line.position stop⟩

end SourceLine

structure LineView where
  line : SourceLine
  indentColumns : ℕ
  contentIndex : ℕ
  content : Text

/-- The characters that end a line for `str.splitlines`. -/
def isLineBreak (c : Char) : Bool :=
  "\n\r\x0b\x0c\x1c\x1d\x1e\u0085\u2028\u2029".toList.contains c

def sourceOf (lines : List String) : Text := lines.flatMap (fun line => line.toList ++ ['\n'])

@[simp] theorem sourceOf_nil : sourceOf [] = [] := rfl

theorem sourceOf_cons (line : Text) (lines : List String) :
    sourceOf (String.ofList line :: lines) = line ++ '\n' :: sourceOf lines := by
  rw [sourceOf, List.flatMap_cons, String.toList_ofList, List.append_assoc]
  rfl

def splitlines : Text → List Text
  | [] => []
  | '\r' :: '\n' :: rest => ['\r', '\n'] :: splitlines rest
  | c :: rest =>
    if isLineBreak c then [c] :: splitlines rest
    else
      match splitlines rest with
      | [] => [[c]]
      | line :: lines => (c :: line) :: lines

def endsWithNewline (text : Text) : Bool :=
  text.getLast? = some '\n' || text.getLast? = some '\r'

def chomp (raw : Text) : Text :=
  if ['\r', '\n'] <:+ raw then raw.dropLast.dropLast
  else if endsWithNewline raw then raw.dropLast
  else raw

def numberLines : ℕ → ℕ → List Text → List SourceLine
  | _, _, [] => []
  | number, offset, raw :: rest =>
    ⟨number, chomp raw, offset, offset + byteLength raw, endsWithNewline raw⟩ ::
      numberLines (number + 1) (offset + byteLength raw) rest

def physicalLines (source : Text) : List SourceLine :=
  let lines := numberLines 1 0 (splitlines source)
  if lines.isEmpty then [⟨1, [], 0, 0, false⟩]
  else if endsWithNewline source then
    lines ++ [⟨lines.length + 1, [], byteLength source, byteLength source, false⟩]
  else lines

def isIndent (c : Char) : Bool := c = ' ' || c = '\t'

def indentColumns (text : Text) : ℕ :=
  ((text.takeWhile isIndent).map (fun c => if c = '\t' then 2 else 1)).sum

/-- `_document_end` of the parser. A source whose newlines are all returns counts
two lines. -/
def documentEnd (source : Text) : SourcePosition :=
  if endsWithNewline source then
    ⟨byteLength source, if source.contains '\n' then source.count '\n' + 1 else 2, 1⟩
  else
    match (physicalLines source).getLast? with
    | some line => line.position line.text.length
    | none => ⟨0, 1, 1⟩

end Raticode.Rattish
