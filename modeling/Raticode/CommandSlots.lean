import Raticode.ShellScript

/-! `gofer.core.command_slots`: the slot class of a command, as the hook finds it, and the script
that wraps the program and finds it again. -/
namespace Raticode.CommandSlots
open PyDocument ShellScript

/-- `CLASSES`. -/
inductive SlotClass where
  | browser | test | build
  deriving DecidableEq, Repr

def SlotClass.name : SlotClass → Str
  | .browser => text "browser"
  | .test => text "test"
  | .build => text "build"

structure ToolRule where
  patterns : List (Str × Option SlotClass) := []
  default : Option SlotClass := none
  valueOptions : List Str := []
  flags : List (Str × SlotClass) := []
  shortVersion : Bool := false

def aliases : List (Str × Str) := [(text "gradlew", text "gradle"), (text "mvnw", text "mvn")]

/-- `TRIVIAL_ONLY_ARGUMENTS`, sorted. -/
def trivialOnlyArguments : List Str := [text "-V", text "-h"]

/-- `TRIVIAL_ARGUMENTS`, sorted. -/
def trivialArguments : List Str := [text "--help", text "--version"]

def heldEnv : Str := text "RATICODE_COMMAND_SLOT_HELD"

/-! The hook. -/

/-- `pattern.split("*")`. -/
def splitStars (pattern : Str) : List Str := pattern.splitOn 42

/-- A full match of `".*".join(parts)`, with each part escaped and a dot for any character. -/
def fullmatch : List Str → Str → Bool
  | [], _ => false
  | [part], value => value = part
  | part :: parts, value => part.isPrefixOf value && (value.drop part.length).tails.any (fullmatch parts)

/-- `_match`. -/
def isMatch (pattern value : Str) : Bool := fullmatch (splitStars pattern) value

/-- What the loop of `classify` has found. -/
structure Progress where
  positionals : List Str := []
  flagClass : Option SlotClass := none
  skip : Bool := false

def seeFlag (arg : Str) (found : Option SlotClass) (flag : Str × SlotClass) : Option SlotClass :=
  if arg = flag.1 && found.isNone then some flag.2 else found

namespace ToolRule
variable (rule : ToolRule)

def isTrivialOnly (args : List Str) : Bool :=
  match args with
  | [arg] => arg ∈ trivialOnlyArguments || (rule.shortVersion && arg = text "-v")
  | _ => false

def seeFlags (arg : Str) (flagClass : Option SlotClass) : Option SlotClass :=
  rule.flags.foldl (seeFlag arg) flagClass

def place (p : Progress) (arg : Str) : Progress :=
  if 2 ≤ p.positionals.length then p
  else if arg ∈ rule.valueOptions then { p with skip := true }
  else if (text "-").isPrefixOf arg then p
  else { p with positionals := p.positionals ++ [arg] }

def see (p : Progress) (arg : Str) : Progress :=
  if p.skip then { p with skip := false }
  else rule.place { p with flagClass := rule.seeFlags arg p.flagClass } arg

/-- The loop of `classify`; `none` where it returns. -/
def seeAll : List Str → Progress → Option Progress
  | [], p => some p
  | arg :: args, p => if arg ∈ trivialArguments then none else seeAll args (rule.see p arg)

/-- `f"{words[0]} {words[1]}"`. -/
def subject (positionals : List Str) : Str :=
  (positionals.getD 0 []) ++ text " " ++ (positionals.getD 1 [])

def firstMatch (patterns : List (Str × Option SlotClass)) (subject : Str) : Option SlotClass :=
  match patterns with
  | [] => rule.default
  | (pattern, kind) :: rest => if isMatch pattern subject then kind else firstMatch rest subject

/-- `classify`, with the rule of the tool. -/
def classify (args : List Str) : Option SlotClass :=
  if rule.isTrivialOnly args then none
  else match rule.seeAll args {} with
    | none => none
    | some p =>
      match p.flagClass with
      | some kind => some kind
      | none => rule.firstMatch rule.patterns (subject p.positionals)

end ToolRule

/-- `classify`, for the rules that there are. -/
def classify (tools : Str → Option ToolRule) (tool : Str) (args : List Str) : Option SlotClass :=
  match tools ((aliases.lookup tool).getD tool) with
  | none => none
  | some rule => rule.classify args

/-! The wrapper. -/

def shellQuote (value : Str) : Str :=
  text "'" ++ value.flatMap (fun c => if c = 39 then text "'\"'\"'" else [c]) ++ text "'"

def shellPattern (pattern : Str) : Str :=
  List.intercalate (text "*") ((splitStars pattern).map (fun part => if part ≠ [] then shellQuote part else []))

def shellAlternatives (values : List Str) : Str := List.intercalate (text "|") (values.map shellQuote)

def ToolRule.trivial (rule : ToolRule) : List Str :=
  trivialOnlyArguments ++ if rule.shortVersion then [text "-v"] else []

/-- The lines of `wrapper_script`. -/
def wrapperScript (rule : ToolRule) (tool binDir cli : Str) : List Str :=
  [text "#!/bin/sh",
    text "# Raticode command slot wrapper for " ++ tool ++ text ". Raticode rewrites this file.",
    text "self=" ++ shellQuote binDir,
    text "real=",
    text "set -f",
    text "old_ifs=$IFS",
    text "IFS=:",
    text "for dir in $PATH; do",
    text "  if [ -z \"$dir\" ] || [ \"$dir\" = \"$self\" ]; then continue; fi",
    text "  if [ -f \"$dir/" ++ tool ++ text "\" ] && [ -x \"$dir/" ++ tool ++ text "\" ]; then real=\"$dir/" ++
      tool ++ text "\"; break; fi",
    text "done",
    text "IFS=$old_ifs",
    text "set +f",
    text "if [ -z \"$real\" ]; then",
    text "  echo \"" ++ tool ++ text ": command not found\" >&2",
    text "  exit 127",
    text "fi",
    text "if [ -n \"$\x7b" ++ heldEnv ++ text ":-\x7d\" ]; then exec \"$real\" \"$@\"; fi",
    text "if [ \"$#\" -eq 1 ]; then",
    text "  case \"$1\" in " ++ shellAlternatives rule.trivial ++ text ") exec \"$real\" \"$@\";; esac",
    text "fi",
    text "sub1= sub2= count=0 skip= class=",
    text "for arg in \"$@\"; do",
    text "  case \"$arg\" in " ++ shellAlternatives trivialArguments ++ text ") exec \"$real\" \"$@\";; esac",
    text "  if [ -n \"$skip\" ]; then skip=; continue; fi"] ++
  rule.flags.map (fun flag =>
    text "  if [ \"$arg\" = " ++ shellQuote flag.1 ++ text " ] && [ -z \"$class\" ]; then class=" ++ flag.2.name ++
      text "; fi") ++
  [text "  if [ \"$count\" -ge 2 ]; then continue; fi",
    text "  case \"$arg\" in"] ++
  (if rule.valueOptions ≠ [] then
    [text "    " ++ shellAlternatives rule.valueOptions ++ text ") skip=1; continue;;"] else []) ++
  [text "    -*) continue;;",
    text "  esac",
    text "  count=$((count + 1))",
    text "  if [ \"$count\" -eq 1 ]; then sub1=$arg; else sub2=$arg; fi",
    text "done",
    text "if [ -z \"$class\" ]; then",
    text "  case \"$sub1 $sub2\" in"] ++
  rule.patterns.map (fun entry =>
    text "    " ++ shellPattern entry.1 ++ text ") " ++
      (match entry.2 with
        | none => text "exec \"$real\" \"$@\""
        | some kind => text "class=" ++ kind.name) ++ text ";;") ++
  (match rule.default with
    | some kind => [text "    *) class=" ++ kind.name ++ text ";;"]
    | none => []) ++
  [text "  esac",
    text "fi",
    text "if [ -z \"$class\" ]; then exec \"$real\" \"$@\"; fi",
    text "exec " ++ shellQuote cli ++ text " slot run --class \"$class\" -- \"$real\" \"$@\"",
    []]

/-! The same script as the shell reads it. -/

inductive Var where
  | self | real | oldIfs | ifs | dir | path | held | sub1 | sub2 | count | skip | slotClass | arg
  deriving DecidableEq

def Var.name : Var → Str
  | .self => text "self"
  | .real => text "real"
  | .oldIfs => text "old_ifs"
  | .ifs => text "IFS"
  | .dir => text "dir"
  | .path => text "PATH"
  | .held => heldEnv
  | .sub1 => text "sub1"
  | .sub2 => text "sub2"
  | .count => text "count"
  | .skip => text "skip"
  | .slotClass => text "class"
  | .arg => text "arg"

abbrev Command := Stmt Var

/-- `"$v"`. -/
def value (v : Var) : Word Var := .quoted [.var v]

/-- `"$dir/tool"`. -/
def program (tool : Str) : Word Var := .quoted [.var .dir, .lit (text "/" ++ tool)]

def direct : Command := .exec [value .real]

def setClass (kind : SlotClass) : Command := .assign [(.slotClass, .raw kind.name)]

def searchBody (tool : Str) : Command :=
  .seq (.ifThen .line (.or (.isEmpty (value .dir)) (.same (value .dir) (value .self))) .proceed)
    (.ifThen .line (.and (.isFile (program tool)) (.isExecutable (program tool)))
      (.seq (.assign [(.real, program tool)]) .leave))

def searchCommands (tool binDir : Str) : List Command :=
  [.assign [(.self, .raw (shellQuote binDir))],
    .assign [(.real, .nothing)],
    .setGlob true,
    .assign [(.oldIfs, .bare .ifs)],
    .assign [(.ifs, .raw (text ":"))],
    .forFields .dir .path .ifs (searchBody tool),
    .assign [(.ifs, .bare .oldIfs)],
    .setGlob false,
    .ifThen .block (.isEmpty (value .real))
      (.seq (.report (.quoted [.lit (tool ++ text ": command not found")])) (.exit 127))]

def handOnCommands (rule : ToolRule) : List Command :=
  [.ifThen .line (.nonEmpty (.orEmpty .held)) direct,
    .ifThen .block (.numEq .argCount 1)
      (.case .line .firstArg (.branch (rule.trivial.map shellQuote) direct .none))]

def flagCommand (flag : Str × SlotClass) : Command :=
  .ifThen .line (.and (.same (value .arg) (.raw (shellQuote flag.1))) (.isEmpty (value .slotClass)))
    (setClass flag.2)

def optionBranches (rule : ToolRule) : Branches Var :=
  let rest := Branches.branch [text "-*"] .proceed .none
  if rule.valueOptions ≠ [] then
    .branch (rule.valueOptions.map shellQuote) (.seq (.assign [(.skip, .raw (text "1"))]) .proceed) rest
  else rest

def countCommand : Command :=
  .seq (.assign [(.count, .succ .count)])
    (.ifElse (.numEq (value .count) 1) (.assign [(.sub1, .bare .arg)]) (.assign [(.sub2, .bare .arg)]))

def positionalCommand (rule : ToolRule) : Command :=
  .seq (.ifThen .line (.numGe (value .count) 2) .proceed)
    (.seq (.case .block (value .arg) (optionBranches rule)) countCommand)

def argumentCommand (rule : ToolRule) : Command :=
  .seq (.case .line (value .arg) (.branch (trivialArguments.map shellQuote) direct .none))
    (.seq (.ifThen .line (.nonEmpty (value .skip)) (.seq (.assign [(.skip, .nothing)]) .proceed))
      (rule.flags.foldr (fun flag rest => .seq (flagCommand flag) rest) (positionalCommand rule)))

def chooseCommand : Option SlotClass → Command
  | none => direct
  | some kind => setClass kind

def patternBranches (rule : ToolRule) : Branches Var :=
  rule.patterns.foldr (fun entry rest => .branch [shellPattern entry.1] (chooseCommand entry.2) rest)
    (match rule.default with
      | some kind => .branch [text "*"] (setClass kind) .none
      | none => .none)

def classCommands (rule : ToolRule) (cli : Str) : List Command :=
  [.assign [(.sub1, .nothing), (.sub2, .nothing), (.count, .raw (text "0")), (.skip, .nothing),
      (.slotClass, .nothing)],
    .forArgs .arg (argumentCommand rule),
    .ifThen .block (.isEmpty (value .slotClass))
      (.case .block (.quoted [.var .sub1, .lit (text " "), .var .sub2]) (patternBranches rule)),
    .ifThen .line (.isEmpty (value .slotClass)) direct,
    .exec [.raw (shellQuote cli), .raw (text "slot"), .raw (text "run"), .raw (text "--class"),
      value .slotClass, .raw (text "--"), value .real]]

def commands (rule : ToolRule) (tool binDir cli : Str) : List Command :=
  searchCommands tool binDir ++ handOnCommands rule ++ classCommands rule cli

end Raticode.CommandSlots
