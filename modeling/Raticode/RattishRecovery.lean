import Raticode.RattishParser

/-! The recovering parser of the editor: it keeps the nodes that parse and skips to
the next declaration after one that does not. -/
namespace Raticode.Rattish
open Attempt

structure InvalidSourceRegion where
  span : SourceSpan
  source : Text

/-- What `parse_recovering` returns, but for the tokens. -/
structure RecoveringParseResult where
  ast : Option Ast.Document
  diagnostics : List SyntaxDiagnostic
  invalidRegions : List InvalidSourceRegion

/-- `source_bytes[start:stop].decode("utf-8")`, for offsets between characters. -/
def textBetween : ℕ → ℕ → Text → Text
  | _, _, [] => []
  | start, stop, c :: cs =>
    if stop = 0 then []
    else if start = 0 then c :: textBetween 0 (stop - c.utf8Size) cs
    else textBetween (start - c.utf8Size) (stop - c.utf8Size) cs

/-- A line that starts with `Node` and a blank in column 0. -/
def startsDeclaration (text : Text) : Bool :=
  match keyword? "node" text with
  | some (_, c :: _) => isIndent c
  | _ => false

/-- `_next_declaration_index`, as the lines from there on. -/
def nextDeclaration (lines : List SourceLine) : List SourceLine :=
  lines.dropWhile (fun line => !startsDeclaration line.text)

def later (lines lines' : List SourceLine) : List SourceLine :=
  if lines.length ≤ lines'.length then lines else lines'

structure Recovered where
  nodes : List Ast.NodeDecl
  diagnostics : List SyntaxDiagnostic
  invalidRegions : List InvalidSourceRegion

section Recovery
variable (cfg : ParserConfig) (source : Text)

def invalidRegion (first : SourceLine) (next : List SourceLine) : InvalidSourceRegion :=
  let start := first.position 0
  let stop := match next with
    | [] => documentEnd source
    | line :: _ => line.position 0
  ⟨⟨start, stop⟩, textBetween start.offset stop.offset source⟩

/-- The loop of `parse_recovering`. -/
def recoverNodes : ℕ → List SourceLine → Except Failure Recovered
  | 0, _ => .error .depth
  | n + 1, lines =>
    match moreNodes cfg lines with
    | .error e _ => .error e
    | .ok false _ => .ok ⟨[], [], []⟩
    | .ok true [] => .ok ⟨[], [], []⟩
    | .ok true (first :: more) =>
      match parseNode cfg (documentEnd source) (first :: more) with
      | .ok node after =>
        (recoverNodes n after).map (fun r => { r with nodes := node :: r.nodes })
      | .error (.parseError diagnostic) stopped =>
        let next := nextDeclaration (later stopped more)
        (recoverNodes n next).map (fun r => { r with
          diagnostics := diagnostic :: r.diagnostics
          invalidRegions := invalidRegion source first next :: r.invalidRegions })
      | .error e _ => .error e

def parseRecovering : Except Failure RecoveringParseResult :=
  match parseHeader cfg (documentEnd source) (physicalLines source) with
  | .error (.parseError diagnostic) _ => .ok ⟨none, [diagnostic], []⟩
  | .error e _ => .error e
  | .ok header rest =>
    (recoverNodes cfg source (rest.length + 1) rest).map (fun r =>
      ⟨some (documentOf cfg source header r.nodes), r.diagnostics, r.invalidRegions⟩)

end Recovery

end Raticode.Rattish
