import Mathlib.Data.List.Basic
import Mathlib.Logic.Function.Basic
import Raticode.PyDocument

/-! A part of the POSIX shell: words with quotes, patterns, tests, lists of commands, `if`, `case`
and `for`, with their text. The words that a generator has quoted are texts, which are read as the
shell reads them. -/
namespace ShellScript
open PyDocument

/-! Words that are texts. -/

/-- A character of a word, or a `*` outside of quotes. -/
inductive Item where
  | char (c : ℕ)
  | star
  deriving DecidableEq

inductive Quoting where
  | outside | single | double

def isOrdinary (c : ℕ) : Bool :=
  (48 ≤ c && c ≤ 57) || (65 ≤ c && c ≤ 90) || (97 ≤ c && c ≤ 122) || (text "-_./:,+@%").contains c

def isActive (c : ℕ) : Bool := (text "$`\\").contains c

def wordItems : Quoting → Str → Option (List Item)
  | .outside, [] => some []
  | .outside, c :: cs =>
    if c = 39 then wordItems .single cs
    else if c = 34 then wordItems .double cs
    else if c = 42 then (wordItems .outside cs).map (.star :: ·)
    else if isOrdinary c then (wordItems .outside cs).map (.char c :: ·)
    else none
  | .single, [] => none
  | .single, c :: cs =>
    if c = 39 then wordItems .outside cs else (wordItems .single cs).map (.char c :: ·)
  | .double, [] => none
  | .double, c :: cs =>
    if c = 34 then wordItems .outside cs
    else if isActive c then none
    else (wordItems .double cs).map (.char c :: ·)

def readPattern (raw : Str) : Option (List Item) := if raw = [] then none else wordItems .outside raw

def Item.char? : Item → Option ℕ
  | .char c => some c
  | .star => none

def readWord (raw : Str) : Option Str := (readPattern raw).bind (fun items => items.mapM Item.char?)

def accepts : List Item → Str → Bool
  | [], s => s = []
  | .char c :: items, s =>
    match s with
    | [] => false
    | d :: s => c = d && accepts items s
  | .star :: items, s => s.tails.any (accepts items)

section Items

def chars (s : Str) : List Item := s.map Item.char

theorem mapM_chars (s : Str) : (chars s).mapM Item.char? = some s := by
  induction s with
  | nil => rfl
  | cons c s ih =>
    have hih : (s.map Item.char).mapM Item.char? = some s := ih
    simp only [chars, List.map_cons, List.mapM_cons, Item.char?, hih]
    rfl

theorem accepts_append (s : Str) (items : List Item) (value : Str) :
    accepts (chars s ++ items) value = (s.isPrefixOf value && accepts items (value.drop s.length)) := by
  induction s generalizing value with
  | nil => simp [chars]
  | cons c s ih =>
    cases value with
    | nil => simp [chars, accepts]
    | cons d value =>
      have hih := ih value
      unfold chars at hih ⊢
      simp only [List.map_cons, List.cons_append, accepts, hih, List.isPrefixOf_cons_cons, List.length_cons,
        List.drop_succ_cons, Bool.and_assoc]
      rfl

theorem accepts_chars (s value : Str) : accepts (chars s) value = decide (value = s) := by
  induction s generalizing value with
  | nil => rfl
  | cons c s ih =>
    cases value with
    | nil => rfl
    | cons d value =>
      have hih := ih value
      unfold chars at hih ⊢
      simp only [List.map_cons, accepts, hih, List.cons.injEq, Bool.decide_and]
      rw [decide_eq_decide.mpr (eq_comm (a := c) (b := d))]

end Items

/-! Scripts. -/

inductive Piece (ν : Type) where
  | lit (text : Str)
  | var (v : ν)

inductive Word (ν : Type) where
  | raw (text : Str)
  | quoted (pieces : List (Piece ν))
  /-- `$v`, where it is not split. -/
  | bare (v : ν)
  /-- `"${v:-}"`. -/
  | orEmpty (v : ν)
  /-- `$((v + 1))`. -/
  | succ (v : ν)
  | firstArg
  | argCount
  | nothing

inductive Test (ν : Type) where
  | isEmpty (w : Word ν)
  | nonEmpty (w : Word ν)
  | same (w w' : Word ν)
  | numEq (w : Word ν) (n : ℕ)
  | numGe (w : Word ν) (n : ℕ)
  | isFile (w : Word ν)
  | isExecutable (w : Word ν)
  | and (t t' : Test ν)
  | or (t t' : Test ν)

inductive Layout where
  | line | block

mutual

inductive Stmt (ν : Type) where
  | assign (pairs : List (ν × Word ν))
  | seq (first second : Stmt ν)
  | ifThen (layout : Layout) (test : Test ν) (body : Stmt ν)
  | ifElse (test : Test ν) (body other : Stmt ν)
  | case (layout : Layout) (word : Word ν) (branches : Branches ν)
  | forArgs (v : ν) (body : Stmt ν)
  | forFields (v field ifs : ν) (body : Stmt ν)
  | exec (words : List (Word ν))
  | exit (status : ℕ)
  /-- `echo`, to the standard error. -/
  | report (w : Word ν)
  | setGlob (isOff : Bool)
  | leave
  | proceed

/-- The branches of a `case`, each with its patterns. -/
inductive Branches (ν : Type) where
  | none
  | branch (patterns : List Str) (body : Stmt ν) (rest : Branches ν)

end

structure Shell (ν : Type) where
  vars : ν → Str
  noglob : Bool

structure Host where
  args : List Str
  isFile : Str → Bool
  isExecutable : Str → Bool

inductive Flow where
  | next
  | leaves
  | proceeds
  | execs (argv : List Str)
  | exits (status : ℕ)
  | fails
  deriving DecidableEq

def numeral (n : ℕ) : Str := (Nat.toDigits 10 n).map Char.toNat

def toNumber (s : Str) : ℕ := s.foldl (fun n c => 10 * n + (c - 48)) 0

def fields (separators s : Str) : List Str :=
  let parts := s.splitOnP (fun c => separators.contains c)
  if parts.getLast? = some [] then parts.dropLast else parts

section
variable {ν : Type} [DecidableEq ν] (h : Host)

def Shell.set (s : Shell ν) (v : ν) (value : Str) : Shell ν := { s with vars := Function.update s.vars v value }

def Piece.value (s : Shell ν) : Piece ν → Str
  | .lit text => text
  | .var v => s.vars v

def Word.value (s : Shell ν) : Word ν → Str
  | .raw text => (readWord text).getD []
  | .quoted pieces => pieces.flatMap (Piece.value s)
  | .bare v => s.vars v
  | .orEmpty v => s.vars v
  | .succ v => numeral (toNumber (s.vars v) + 1)
  | .firstArg => h.args.headD []
  | .argCount => numeral h.args.length
  | .nothing => []

def Test.holds (s : Shell ν) : Test ν → Bool
  | .isEmpty w => w.value h s = []
  | .nonEmpty w => w.value h s ≠ []
  | .same w w' => w.value h s = w'.value h s
  | .numEq w n => toNumber (w.value h s) = n
  | .numGe w n => n ≤ toNumber (w.value h s)
  | .isFile w => h.isFile (w.value h s)
  | .isExecutable w => h.isExecutable (w.value h s)
  | .and t t' => t.holds s && t'.holds s
  | .or t t' => t.holds s || t'.holds s

def matchesAny (patterns : List Str) (value : Str) : Bool :=
  patterns.any (fun raw => (readPattern raw).any (fun items => accepts items value))

/-- A `for` over these values. -/
def loop (body : Shell ν → Shell ν × Flow) (v : ν) : List Str → Shell ν → Shell ν × Flow
  | [], s => (s, .next)
  | value :: values, s =>
    match body (s.set v value) with
    | (s', .next) => loop body v values s'
    | (s', .proceeds) => loop body v values s'
    | (s', .leaves) => (s', .next)
    | (s', flow) => (s', flow)

def andThen (r : Shell ν × Flow) (k : Shell ν → Shell ν × Flow) : Shell ν × Flow :=
  match r with
  | (s, .next) => k s
  | (s, flow) => (s, flow)

mutual

def Stmt.eval : Stmt ν → Shell ν → Shell ν × Flow
  | .assign pairs, s => (pairs.foldl (fun s p => s.set p.1 (p.2.value h s)) s, .next)
  | .seq first second, s => andThen (first.eval s) second.eval
  | .ifThen _ test body, s => if test.holds h s then body.eval s else (s, .next)
  | .ifElse test body other, s => if test.holds h s then body.eval s else other.eval s
  | .case _ word branches, s => branches.eval (word.value h s) s
  | .forArgs v body, s => loop body.eval v h.args s
  | .forFields v field ifs body, s =>
    if s.noglob then loop body.eval v (fields (s.vars ifs) (s.vars field)) s else (s, .fails)
  | .exec words, s => (s, .execs (words.map (Word.value h s) ++ h.args))
  | .exit status, s => (s, .exits status)
  | .report _, s => (s, .next)
  | .setGlob isOff, s => ({ s with noglob := isOff }, .next)
  | .leave, s => (s, .leaves)
  | .proceed, s => (s, .proceeds)

def Branches.eval : Branches ν → Str → Shell ν → Shell ν × Flow
  | .none, _, s => (s, .next)
  | .branch patterns body rest, value, s =>
    if matchesAny patterns value then body.eval s else rest.eval value s

end

/-! What the shell has to read of a command before it runs it. -/

omit [DecidableEq ν] in
def Word.isReadable : Word ν → Bool
  | .raw text => (readWord text).isSome
  | _ => true

def Test.isReadable : Test ν → Bool
  | .isEmpty w | .nonEmpty w | .numEq w _ | .numGe w _ | .isFile w | .isExecutable w => w.isReadable
  | .same w w' => w.isReadable && w'.isReadable
  | .and t t' | .or t t' => t.isReadable && t'.isReadable

mutual

def Stmt.isReadable : Stmt ν → Bool
  | .assign pairs => pairs.all (fun p => p.2.isReadable)
  | .seq first second => first.isReadable && second.isReadable
  | .ifThen _ test body => test.isReadable && body.isReadable
  | .ifElse test body other => test.isReadable && body.isReadable && other.isReadable
  | .case _ word branches => word.isReadable && branches.isReadable
  | .forArgs _ body => body.isReadable
  | .forFields _ _ _ body => body.isReadable
  | .exec words => words.all Word.isReadable
  | .report w => w.isReadable
  | .exit _ | .setGlob _ | .leave | .proceed => true

def Branches.isReadable : Branches ν → Bool
  | .none => true
  | .branch patterns body rest =>
    patterns.all (fun raw => (readPattern raw).isSome) && body.isReadable && rest.isReadable

end

def run : List (Stmt ν) → Shell ν → Flow
  | [], _ => .exits 0
  | command :: commands, s =>
    if command.isReadable then
      match command.eval h s with
      | (_, .execs argv) => .execs argv
      | (_, .exits status) => .exits status
      | (_, .fails) => .fails
      | (s', _) => run commands s'
    else .fails

end

section Running
variable {ν : Type}

@[simp] theorem andThen_next (s : Shell ν) (k : Shell ν → Shell ν × Flow) : andThen (s, .next) k = k s := rfl

variable {h : Host} {s s' : Shell ν} {v : ν}

@[simp] theorem Word.value_bare (s : Shell ν) (v : ν) : (Word.bare v).value h s = s.vars v := rfl

@[simp] theorem Word.value_succ (s : Shell ν) (v : ν) :
    (Word.succ v).value h s = numeral (toNumber (s.vars v) + 1) := rfl

@[simp] theorem Word.value_nothing (s : Shell ν) : (Word.nothing : Word ν).value h s = [] := rfl

theorem Word.value_raw {raw w : Str} (hraw : readWord raw = some w) (s : Shell ν) :
    (Word.raw raw).value h s = w := by
  simp only [Word.value, hraw, Option.getD_some]

variable [DecidableEq ν]

@[simp] theorem toNumber_numeral (n : ℕ) : toNumber (numeral n) = n := by
  unfold toNumber numeral
  rw [List.foldl_map]
  have hdigits := Nat.ofDigitChars_toDigits (b := 10) (n := n) (by decide) (by decide)
  rw [Nat.ofDigitChars_eq_foldl] at hdigits
  exact hdigits

@[simp] theorem Shell.set_self (s : Shell ν) (v : ν) (value : Str) : (s.set v value).vars v = value :=
  Function.update_self ..

theorem Shell.set_ne (s : Shell ν) {v v' : ν} (hne : v' ≠ v) (value : Str) :
    (s.set v value).vars v' = s.vars v' := Function.update_of_ne hne ..

theorem run_next {command : Stmt ν} {commands : List (Stmt ν)} (s' : Shell ν)
    (hreadable : command.isReadable = true) (heval : command.eval h s = (s', .next)) : run h (command :: commands) s = run h commands s' := by
  simp only [run, hreadable, if_true, heval]

theorem run_execs {command : Stmt ν} {commands : List (Stmt ν)} {argv : List Str} (s' : Shell ν)
    (hreadable : command.isReadable = true) (heval : command.eval h s = (s', .execs argv)) :
    run h (command :: commands) s = .execs argv := by
  simp only [run, hreadable, if_true, heval]

theorem run_unreadable {command : Stmt ν} {commands : List (Stmt ν)} (hreadable : command.isReadable = false) :
    run h (command :: commands) s = .fails := by
  simp only [run, hreadable, Bool.false_eq_true, if_false]

theorem loop_cons {body : Shell ν → Shell ν × Flow} {value : Str} {values : List Str} {flow : Flow}
    (hbody : body (s.set v value) = (s', flow)) (hflow : flow = .next ∨ flow = .proceeds) :
    loop body v (value :: values) s = loop body v values s' := by
  rcases hflow with rfl | rfl
  · simp only [loop, hbody]
  · simp only [loop, hbody]

end Running

/-! The text of a script. -/
section Text
variable {ν : Type} (name : ν → Str)

def Piece.render : Piece ν → Str
  | .lit text => text
  | .var v => text "$" ++ name v

def Word.render : Word ν → Str
  | .raw text => text
  | .quoted pieces => text "\"" ++ pieces.flatMap (Piece.render name) ++ text "\""
  | .bare v => text "$" ++ name v
  | .orEmpty v => text "\"$\x7b" ++ name v ++ text ":-\x7d\""
  | .succ v => text "$((" ++ name v ++ text " + 1))"
  | .firstArg => text "\"$1\""
  | .argCount => text "\"$#\""
  | .nothing => []

def Test.render : Test ν → Str
  | .isEmpty w => text "[ -z " ++ w.render name ++ text " ]"
  | .nonEmpty w => text "[ -n " ++ w.render name ++ text " ]"
  | .same w w' => text "[ " ++ w.render name ++ text " = " ++ w'.render name ++ text " ]"
  | .numEq w n => text "[ " ++ w.render name ++ text " -eq " ++ numeral n ++ text " ]"
  | .numGe w n => text "[ " ++ w.render name ++ text " -ge " ++ numeral n ++ text " ]"
  | .isFile w => text "[ -f " ++ w.render name ++ text " ]"
  | .isExecutable w => text "[ -x " ++ w.render name ++ text " ]"
  | .and t t' => t.render ++ text " && " ++ t'.render
  | .or t t' => t.render ++ text " || " ++ t'.render

def indent (lines : List Str) : List Str := lines.map (text "  " ++ ·)

def inLine (lines : List Str) : Str := List.intercalate (text "; ") lines

mutual

def Stmt.lines : Stmt ν → List Str
  | .assign pairs => [List.intercalate (text " ")
      (pairs.map (fun p => name p.1 ++ text "=" ++ p.2.render name))]
  | .seq first second => first.lines ++ second.lines
  | .ifThen .line test body =>
    [text "if " ++ test.render name ++ text "; then " ++ inLine body.lines ++ text "; fi"]
  | .ifThen .block test body =>
    [text "if " ++ test.render name ++ text "; then"] ++ indent body.lines ++ [text "fi"]
  | .ifElse test body other =>
    [text "if " ++ test.render name ++ text "; then " ++ inLine body.lines ++ text "; else " ++
      inLine other.lines ++ text "; fi"]
  | .case .line word branches =>
    [text "case " ++ word.render name ++ text " in " ++ List.intercalate (text " ") branches.lines ++
      text " esac"]
  | .case .block word branches =>
    [text "case " ++ word.render name ++ text " in"] ++ indent branches.lines ++ [text "esac"]
  | .forArgs v body =>
    [text "for " ++ name v ++ text " in \"$@\"; do"] ++ indent body.lines ++ [text "done"]
  | .forFields v field _ body =>
    [text "for " ++ name v ++ text " in $" ++ name field ++ text "; do"] ++ indent body.lines ++
      [text "done"]
  | .exec words => [text "exec " ++ List.intercalate (text " ") (words.map (Word.render name)) ++ text " \"$@\""]
  | .exit status => [text "exit " ++ numeral status]
  | .report w => [text "echo " ++ w.render name ++ text " >&2"]
  | .setGlob isOff => [text "set " ++ (if isOff then text "-f" else text "+f")]
  | .leave => [text "break"]
  | .proceed => [text "continue"]

def Branches.lines : Branches ν → List Str
  | .none => []
  | .branch patterns body rest =>
    [List.intercalate (text "|") patterns ++ text ") " ++ inLine body.lines ++ text ";;"] ++ rest.lines

end

def render (commands : List (Stmt ν)) : List Str := commands.flatMap (Stmt.lines name)

theorem lines_foldr_seq {α : Type*} (command : α → Stmt ν) (xs : List α) (rest : Stmt ν) :
    (xs.foldr (fun x rest => Stmt.seq (command x) rest) rest).lines name =
      xs.flatMap (fun x => (command x).lines name) ++ rest.lines name := by
  induction xs with
  | nil => rfl
  | cons x xs ih => rw [List.foldr_cons, Stmt.lines, ih, List.flatMap_cons, List.append_assoc]

theorem lines_foldr_branch {α : Type*} (patterns : α → List Str) (body : α → Stmt ν) (xs : List α)
    (rest : Branches ν) : (xs.foldr (fun x rest => Branches.branch (patterns x) (body x) rest) rest).lines name =
      xs.map (fun x => List.intercalate (text "|") (patterns x) ++ text ") " ++ inLine ((body x).lines name) ++
        text ";;") ++ rest.lines name := by
  induction xs with
  | nil => rfl
  | cons x xs ih =>
    rw [List.foldr_cons, Branches.lines, ih, List.map_cons]
    rfl

end Text

end ShellScript
