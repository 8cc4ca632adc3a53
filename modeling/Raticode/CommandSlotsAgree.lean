import Raticode.CommandSlots

/-! The wrapper of a tool takes a slot exactly where the hook does, unless it cannot be read. -/
namespace Raticode.CommandSlots
open PyDocument ShellScript

/-! The script is the text that is written. -/
section Text

theorem text_append (a b : String) : text a ++ text b = text (a ++ b) := by
  unfold text
  rw [String.toList_append, List.map_append]

theorem text_append_append (a b : String) (s : Str) : text a ++ (text b ++ s) = text (a ++ b) ++ s := by
  rw [← List.append_assoc, text_append]

theorem numeral_texts : numeral 1 = text "1" ∧ numeral 2 = text "2" ∧ numeral 127 = text "127" := by decide

theorem render_append {ν : Type} (name : ν → Str) (first second : List (Stmt ν)) :
    render name (first ++ second) = render name first ++ render name second := List.flatMap_append

theorem render_search (tool binDir : Str) : render Var.name (searchCommands tool binDir) =
    [text "self=" ++ shellQuote binDir,
      text "real=",
      text "set -f",
      text "old_ifs=$IFS",
      text "IFS=:",
      text "for dir in $PATH; do",
      text "  if [ -z \"$dir\" ] || [ \"$dir\" = \"$self\" ]; then continue; fi",
      text "  if [ -f \"$dir/" ++ tool ++ text "\" ] && [ -x \"$dir/" ++ tool ++ text "\" ]; then real=\"$dir/" ++
        tool ++ text "\"; break; fi",
      text "done",
      text "IFS=$old_ifs",
      text "set +f",
      text "if [ -z \"$real\" ]; then",
      text "  echo \"" ++ tool ++ text ": command not found\" >&2",
      text "  exit 127",
      text "fi"] := by
  simp only [render, searchCommands, searchBody, List.flatMap_cons, List.flatMap_nil, Stmt.lines, Test.render, Word.render,
    Piece.render, value, program, Var.name, inLine, indent, List.map_cons, List.map_nil, List.append_assoc,
    List.append_nil, List.cons_append, List.nil_append, if_true, if_false, Bool.false_eq_true, List.intercalate,
    List.intersperse, List.flatten_cons, List.flatten_nil, text_append, text_append_append, String.reduceAppend,
    numeral_texts]

theorem render_handOn (rule : ToolRule) : render Var.name (handOnCommands rule) =
    [text "if [ -n \"$\x7b" ++ heldEnv ++ text ":-\x7d\" ]; then exec \"$real\" \"$@\"; fi",
      text "if [ \"$#\" -eq 1 ]; then",
      text "  case \"$1\" in " ++ shellAlternatives rule.trivial ++ text ") exec \"$real\" \"$@\";; esac",
      text "fi"] := by
  simp only [render, handOnCommands, direct, List.flatMap_cons, List.flatMap_nil, Stmt.lines, Branches.lines,
    Test.render, Word.render, Piece.render, value, Var.name, inLine, indent, List.map_cons, List.map_nil,
    List.append_assoc, List.append_nil, List.cons_append, List.nil_append, List.intercalate, List.intersperse,
    List.flatten_cons, List.flatten_nil, text_append, text_append_append, String.reduceAppend, numeral_texts,
    shellAlternatives]

def flagLine (flag : Str × SlotClass) : Str :=
  text "if [ \"$arg\" = " ++ shellQuote flag.1 ++ text " ] && [ -z \"$class\" ]; then class=" ++ flag.2.name ++
    text "; fi"

theorem lines_flag (flag : Str × SlotClass) : (flagCommand flag).lines Var.name = [flagLine flag] := by
  simp only [flagCommand, flagLine, setClass, Stmt.lines, Test.render, Word.render, Piece.render, value, Var.name,
    inLine, List.flatMap_cons, List.flatMap_nil, List.map_cons, List.map_nil, List.append_assoc, List.append_nil,
    List.intercalate, List.intersperse, List.flatten_cons, List.flatten_nil, text_append, text_append_append,
    String.reduceAppend]

theorem lines_flags (flags : List (Str × SlotClass)) (rest : Command) :
    (flags.foldr (fun flag rest => Stmt.seq (flagCommand flag) rest) rest).lines Var.name =
      flags.map flagLine ++ rest.lines Var.name := by
  rw [lines_foldr_seq]
  simp only [lines_flag, List.map_eq_flatMap]

theorem lines_positional (rule : ToolRule) : (positionalCommand rule).lines Var.name =
    [text "if [ \"$count\" -ge 2 ]; then continue; fi",
      text "case \"$arg\" in"] ++
    (if rule.valueOptions ≠ [] then
      [text "  " ++ shellAlternatives rule.valueOptions ++ text ") skip=1; continue;;"] else []) ++
    [text "  -*) continue;;",
      text "esac",
      text "count=$((count + 1))",
      text "if [ \"$count\" -eq 1 ]; then sub1=$arg; else sub2=$arg; fi"] := by
  unfold positionalCommand optionBranches countCommand
  split_ifs
  · simp only [Stmt.lines, Branches.lines, Test.render, Word.render, Piece.render, value, Var.name, inLine, indent,
      List.flatMap_cons, List.flatMap_nil, List.map_cons, List.map_nil, List.append_assoc, List.append_nil,
      List.cons_append, List.nil_append, List.intercalate, List.intersperse, List.flatten_cons, List.flatten_nil,
      text_append, String.reduceAppend, numeral_texts, shellAlternatives]
  · simp only [Stmt.lines, Branches.lines, Test.render, Word.render, Piece.render, value, Var.name, inLine, indent,
      List.flatMap_cons, List.flatMap_nil, List.map_cons, List.map_nil, List.append_assoc, List.append_nil,
      List.cons_append, List.nil_append, List.intercalate, List.intersperse, List.flatten_cons, List.flatten_nil,
      text_append, String.reduceAppend, numeral_texts]

def patternLine (entry : Str × Option SlotClass) : Str :=
  shellPattern entry.1 ++ text ") " ++
    (match entry.2 with
      | none => text "exec \"$real\" \"$@\""
      | some kind => text "class=" ++ kind.name) ++ text ";;"

theorem lines_patterns (rule : ToolRule) : (patternBranches rule).lines Var.name =
    rule.patterns.map patternLine ++
      match rule.default with
      | some kind => [text "*) class=" ++ kind.name ++ text ";;"]
      | none => [] := by
  rw [patternBranches, lines_foldr_branch]
  congr 1
  · apply List.map_congr_left
    intro entry _
    obtain ⟨pattern, kind⟩ := entry
    cases kind with
    | none =>
      simp only [patternLine, chooseCommand, direct, Stmt.lines, Word.render, Piece.render, value, Var.name, inLine,
        List.flatMap_cons, List.flatMap_nil, List.map_cons, List.map_nil, List.append_assoc, List.append_nil,
        List.intercalate, List.intersperse, List.flatten_cons, List.flatten_nil, text_append,
        String.reduceAppend]
    | some kind =>
      simp only [patternLine, chooseCommand, setClass, Stmt.lines, Word.render, Var.name, inLine, List.map_cons, List.map_nil,
        List.append_assoc, List.append_nil, List.intercalate, List.intersperse, List.flatten_cons,
        List.flatten_nil, text_append_append, String.reduceAppend]
  · cases rule.default with
    | none => rfl
    | some kind =>
      simp only [Branches.lines, setClass, Stmt.lines, Word.render, Var.name, inLine, List.map_cons,
        List.map_nil, List.append_assoc, List.append_nil, List.intercalate, List.intersperse,
        List.flatten_cons, List.flatten_nil, text_append, text_append_append, String.reduceAppend]

theorem indent_append (first second : List Str) : indent (first ++ second) = indent first ++ indent second :=
  List.map_append

theorem render_class (rule : ToolRule) (cli : Str) : render Var.name (classCommands rule cli) =
    [text "sub1= sub2= count=0 skip= class=",
      text "for arg in \"$@\"; do",
      text "  case \"$arg\" in " ++ shellAlternatives trivialArguments ++ text ") exec \"$real\" \"$@\";; esac",
      text "  if [ -n \"$skip\" ]; then skip=; continue; fi"] ++
    rule.flags.map (fun flag => text "  " ++ flagLine flag) ++
    [text "  if [ \"$count\" -ge 2 ]; then continue; fi",
      text "  case \"$arg\" in"] ++
    (if rule.valueOptions ≠ [] then
      [text "    " ++ shellAlternatives rule.valueOptions ++ text ") skip=1; continue;;"] else []) ++
    [text "    -*) continue;;",
      text "  esac",
      text "  count=$((count + 1))",
      text "  if [ \"$count\" -eq 1 ]; then sub1=$arg; else sub2=$arg; fi",
      text "done",
      text "if [ -z \"$class\" ]; then",
      text "  case \"$sub1 $sub2\" in"] ++
    rule.patterns.map (fun entry => text "    " ++ patternLine entry) ++
    (match rule.default with
      | some kind => [text "    *) class=" ++ kind.name ++ text ";;"]
      | none => []) ++
    [text "  esac",
      text "fi",
      text "if [ -z \"$class\" ]; then exec \"$real\" \"$@\"; fi",
      text "exec " ++ shellQuote cli ++ text " slot run --class \"$class\" -- \"$real\" \"$@\""] := by
  have hoptions : indent (if rule.valueOptions ≠ [] then
        [text "  " ++ shellAlternatives rule.valueOptions ++ text ") skip=1; continue;;"] else []) =
      if rule.valueOptions ≠ [] then
        [text "    " ++ shellAlternatives rule.valueOptions ++ text ") skip=1; continue;;"] else [] := by
    split_ifs
    · simp only [indent, List.map_cons, List.map_nil, List.append_assoc, text_append_append, String.reduceAppend]
    · rfl
  have hdefault : indent (indent (match rule.default with
        | some kind => [text "*) class=" ++ kind.name ++ text ";;"]
        | none => [])) = match rule.default with
        | some kind => [text "    *) class=" ++ kind.name ++ text ";;"]
        | none => [] := by
    cases rule.default with
    | none => rfl
    | some kind =>
      simp only [indent, List.map_cons, List.map_nil, List.append_assoc, text_append_append, String.reduceAppend]
  simp only [render, classCommands, argumentCommand, List.flatMap_cons, List.flatMap_nil, Stmt.lines, lines_flags,
    lines_positional, lines_patterns, indent_append, hoptions, hdefault]
  simp only [indent, direct, Branches.lines, Test.render, Word.render, Piece.render, value, Var.name, inLine,
    Stmt.lines, List.map_map, Function.comp_def, List.flatMap_cons, List.flatMap_nil, List.map_cons, List.map_nil,
    List.append_assoc, List.append_nil, List.cons_append, List.nil_append, List.intercalate, List.intersperse,
    List.flatten_cons, List.flatten_nil, text_append, text_append_append, String.reduceAppend,
    shellAlternatives]

-- How much is left after `simp only` depends on which matchers the definitions share.
set_option linter.unreachableTactic false in
set_option linter.unusedTactic false in
set_option linter.unnecessarySeqFocus false in
theorem wrapperScript_render (rule : ToolRule) (tool binDir cli : Str) :
    wrapperScript rule tool binDir cli =
      [text "#!/bin/sh",
        text "# Raticode command slot wrapper for " ++ tool ++ text ". Raticode rewrites this file."] ++
      render Var.name (commands rule tool binDir cli) ++ [[]] := by
  unfold commands
  rw [render_append, render_append, render_search, render_handOn, render_class]
  unfold wrapperScript
  simp only [flagLine, patternLine, List.append_assoc, text_append_append, String.reduceAppend, List.cons_append,
    List.nil_append] <;> rfl

end Text

/-! What the shell reads where a text has been quoted. -/
section Quotes

theorem wordItems_quoted (value rest : Str) :
    wordItems .single (value.flatMap (fun c => if c = 39 then text "'\"'\"'" else [c]) ++ 39 :: rest) =
      (wordItems .outside rest).map (chars value ++ ·) := by
  induction value with
  | nil => simp [wordItems, chars]
  | cons c value ih =>
    rw [List.flatMap_cons, List.append_assoc]
    by_cases hc : c = 39
    · -- The quote ends, another kind of quotes has it, and the quote begins again.
      have hescape : text "'\"'\"'" = [39, 34, 39, 34, 39] := by decide
      have hactive : isActive 39 = false := by decide
      rw [if_pos hc, hc]
      simp only [hescape] at ih ⊢
      simp only [List.cons_append, List.nil_append, wordItems, if_true, hactive, Bool.false_eq_true, if_false, ih,
        Option.map_map, show ¬ (34 : ℕ) = 39 by decide, show ¬ (39 : ℕ) = 34 by decide]
      rfl
    · rw [if_neg hc]
      simp only [List.cons_append, List.nil_append, wordItems, if_neg hc, ih, Option.map_map]
      rfl

theorem wordItems_shellQuote (value rest : Str) :
    wordItems .outside (shellQuote value ++ rest) = (wordItems .outside rest).map (chars value ++ ·) := by
  have hquote : text "'" = [39] := by decide
  unfold shellQuote
  rw [hquote, List.append_assoc, List.append_assoc]
  simp only [List.cons_append, List.nil_append, wordItems, if_true]
  exact wordItems_quoted value rest

theorem shellQuote_ne_nil (value : Str) : shellQuote value ≠ [] := by
  unfold shellQuote
  intro h
  simp at h
  exact absurd h.1 (by decide)

theorem readPattern_shellQuote (value : Str) : readPattern (shellQuote value) = some (chars value) := by
  have hread := wordItems_shellQuote value []
  rw [List.append_nil] at hread
  unfold readPattern
  rw [if_neg (shellQuote_ne_nil value), hread]
  simp [wordItems]

theorem readWord_shellQuote (value : Str) : readWord (shellQuote value) = some value := by
  unfold readWord
  rw [readPattern_shellQuote, Option.bind_some, mapM_chars]

theorem matchesAny_shellQuote (values : List Str) (value : Str) :
    matchesAny (values.map shellQuote) value = decide (value ∈ values) := by
  unfold matchesAny
  induction values with
  | nil => rfl
  | cons first values ih =>
    rw [List.map_cons, List.any_cons, ih, readPattern_shellQuote, Option.any_some, accepts_chars,
      ← Bool.decide_or]
    exact decide_eq_decide.mpr List.mem_cons.symm

def itemsOf : List Str → List Item
  | [] => []
  | [part] => chars part
  | part :: parts => chars part ++ .star :: itemsOf parts

theorem wordItems_part (part rest : Str) :
    wordItems .outside ((if part ≠ [] then shellQuote part else []) ++ rest) =
      (wordItems .outside rest).map (chars part ++ ·) := by
  split_ifs with hpart
  · exact wordItems_shellQuote part rest
  · rw [not_not.mp hpart]
    simp [chars]

theorem wordItems_parts (parts : List Str) :
    wordItems .outside (List.intercalate (text "*")
      (parts.map (fun part => if part ≠ [] then shellQuote part else []))) = some (itemsOf parts) := by
  have hstar : text "*" = [42] := by decide
  rw [hstar]
  induction parts with
  | nil => rfl
  | cons part parts ih =>
    cases parts with
    | nil =>
      have hread := wordItems_part part []
      rw [List.append_nil] at hread
      simp only [List.map_cons, List.map_nil, List.intercalate_singleton, hread]
      simp [wordItems, itemsOf]
    | cons next parts =>
      rw [List.map_cons] at ih
      rw [List.map_cons, List.map_cons, List.intercalate_cons_cons, List.append_assoc, wordItems_part]
      simp only [List.cons_append, List.nil_append, wordItems, show ¬ (42 : ℕ) = 39 by decide,
        show ¬ (42 : ℕ) = 34 by decide, if_true, if_false, ih, Option.map_some, itemsOf]

theorem accepts_itemsOf {parts : List Str} (hparts : parts ≠ []) (value : Str) :
    accepts (itemsOf parts) value = fullmatch parts value := by
  induction parts generalizing value with
  | nil => exact absurd rfl hparts
  | cons part parts ih =>
    cases parts with
    | nil => exact accepts_chars part value
    | cons next parts =>
      have hrest : accepts (itemsOf (next :: parts)) = fullmatch (next :: parts) := by
        funext value
        exact ih (by simp) value
      simp only [itemsOf, accepts_append, accepts, hrest, fullmatch]

theorem splitStars_ne_nil (pattern : Str) : splitStars pattern ≠ [] := List.splitOn_ne_nil _ _

theorem readPattern_shellPattern {pattern : Str} (hpattern : pattern ≠ []) :
    readPattern (shellPattern pattern) = some (itemsOf (splitStars pattern)) := by
  have hne : shellPattern pattern ≠ [] := by
    intro hnil
    have hjoin : List.intercalate [42] (splitStars pattern) = pattern := List.intercalate_splitOn 42
    unfold shellPattern at hnil
    cases hsplit : splitStars pattern with
    | nil => exact splitStars_ne_nil pattern hsplit
    | cons part parts =>
      cases parts with
      | nil =>
        rw [hsplit] at hnil hjoin
        simp only [List.map_cons, List.map_nil, List.intercalate_singleton] at hnil hjoin
        rw [hjoin, if_pos hpattern] at hnil
        exact shellQuote_ne_nil pattern hnil
      | cons next parts =>
        rw [hsplit, List.map_cons, List.map_cons, List.intercalate_cons_cons] at hnil
        simp only [List.append_eq_nil_iff] at hnil
        exact absurd hnil.1.2 (by decide)
  unfold readPattern
  rw [if_neg hne]
  exact wordItems_parts _

theorem readPattern_empty : readPattern (shellPattern []) = none := by decide

theorem matchesAny_shellPattern {pattern : Str} (hpattern : pattern ≠ []) (value : Str) :
    matchesAny [shellPattern pattern] value = isMatch pattern value := by
  unfold matchesAny isMatch
  simp only [List.any_cons, List.any_nil, Bool.or_false, readPattern_shellPattern hpattern, Option.any_some]
  exact accepts_itemsOf (splitStars_ne_nil pattern) value

theorem accepts_star (value : Str) : accepts [.star] value = true := by
  simp only [accepts, List.any_eq_true, decide_eq_true_eq]
  exact ⟨[], by simp, rfl⟩

theorem matchesAny_star (value : Str) : matchesAny [text "*"] value = true := by
  have hread : readPattern (text "*") = some [.star] := by decide
  simp only [matchesAny, List.any_cons, List.any_nil, hread, Option.any_some, accepts_star, Bool.or_false]

theorem matchesAny_option (value : Str) : matchesAny [text "-*"] value = (text "-").isPrefixOf value := by
  have hread : readPattern (text "-*") = some [.char 45, .star] := by decide
  have hhyphen : text "-" = [45] := by decide
  simp only [matchesAny, List.any_cons, List.any_nil, hread, Option.any_some, Bool.or_false, hhyphen]
  cases value with
  | nil => rfl
  | cons c value =>
    have hstar := accepts_star value
    simp only [accepts] at hstar ⊢
    simp [hstar, List.isPrefixOf, eq_comm, Bool.beq_eq_decide_eq]

end Quotes

/-! The search of the real program. -/
section Search
variable {h : Host} {s : Shell Var} {tool binDir : Str}

/-- `"$dir/tool"`. -/
def programPath (tool dir : Str) : Str := dir ++ (text "/" ++ tool)

def isUsable (h : Host) (tool binDir dir : Str) : Bool :=
  !(dir = [] || dir = binDir) && (h.isFile (programPath tool dir) && h.isExecutable (programPath tool dir))

def findReal (h : Host) (tool binDir path : Str) : Option Str :=
  ((fields (text ":") path).find? (isUsable h tool binDir)).map (programPath tool)

@[simp] theorem value_value (s : Shell Var) (v : Var) : (value v).value h s = s.vars v := by
  simp only [value, Word.value, List.flatMap_cons, List.flatMap_nil, Piece.value, List.append_nil]

@[simp] theorem value_program (s : Shell Var) (tool : Str) :
    (program tool).value h s = programPath tool (s.vars .dir) := by
  simp only [program, Word.value, List.flatMap_cons, List.flatMap_nil, Piece.value, List.append_nil, programPath]

@[simp] theorem value_shellQuote (s : Shell Var) (w : Str) : (Word.raw (shellQuote w)).value h s = w := by
  simp only [Word.value, readWord_shellQuote, Option.getD_some]

theorem eval_searchBody (h : Host) (tool : Str) (hself : s.vars .self = binDir) (dir : Str) :
    (searchBody tool).eval h (s.set .dir dir) =
      if dir = [] || dir = binDir then (s.set .dir dir, .proceeds)
      else if isUsable h tool binDir dir then
        ((s.set .dir dir).set .real (programPath tool dir), .leaves)
      else (s.set .dir dir, .next) := by
  have hself' : (s.set .dir dir).vars .self = binDir := by
    rw [Shell.set_ne _ (by decide), hself]
  simp only [searchBody, Stmt.eval, Test.holds, value_value, value_program, Shell.set_self, hself', List.foldl_cons,
    List.foldl_nil, isUsable]
  by_cases hskip : (decide (dir = []) || decide (dir = binDir)) = true
  · simp only [hskip, if_true]
    rfl
  · rw [Bool.not_eq_true] at hskip
    simp only [hskip, Bool.false_eq_true, if_false, andThen_next, Bool.not_false, Bool.true_and, Shell.set_self]

theorem loop_search (h : Host) (tool : Str) (dirs : List Str) (hself : s.vars .self = binDir) :
    ∃ s', loop ((searchBody tool).eval h) .dir dirs s = (s', .next) ∧
      s'.vars .real = ((dirs.find? (isUsable h tool binDir)).map (programPath tool)).getD (s.vars .real) ∧
      s'.vars .held = s.vars .held := by
  induction dirs generalizing s with
  | nil => exact ⟨s, rfl, rfl, rfl⟩
  | cons dir dirs ih =>
    have hself' : (s.set .dir dir).vars .self = binDir := by
      rw [Shell.set_ne _ (by decide), hself]
    have hbody := eval_searchBody h tool hself dir
    have hrest := ih hself'
    rw [Shell.set_ne _ (by decide), Shell.set_ne _ (by decide)] at hrest
    cases hskip : decide (dir = []) || decide (dir = binDir) with
    | true =>
      have husable : isUsable h tool binDir dir = false := by
        simp only [isUsable, hskip, Bool.not_true, Bool.false_and]
      rw [hskip, if_pos rfl] at hbody
      rw [loop_cons hbody (.inr rfl), List.find?_cons_of_neg (by simp [husable])]
      exact hrest
    | false =>
      rw [hskip, if_neg Bool.false_ne_true] at hbody
      cases husable : isUsable h tool binDir dir with
      | false =>
        rw [husable, if_neg Bool.false_ne_true] at hbody
        rw [loop_cons hbody (.inl rfl), List.find?_cons_of_neg (by simp [husable])]
        exact hrest
      | true =>
        rw [husable, if_pos rfl] at hbody
        refine ⟨(s.set .dir dir).set .real (programPath tool dir), ?_, ?_, ?_⟩
        · simp only [loop, hbody]
        · rw [List.find?_cons_of_pos husable, Shell.set_self]
          rfl
        · rw [Shell.set_ne _ (by decide), Shell.set_ne _ (by decide)]

theorem run_search {real : Str} (hreal : findReal h tool binDir (s.vars .path) = some real)
    (rest : List Command) : ∃ s', run h (searchCommands tool binDir ++ rest) s = run h rest s' ∧
      s'.vars .real = real ∧ s'.vars .held = s.vars .held := by
  have hcolon : readWord (text ":") = some (text ":") := by decide
  have hquoted := readWord_shellQuote binDir
  -- The variables before the loop.
  let s₁ := s.set .self binDir
  let s₂ := s₁.set .real []
  let s₃ : Shell Var := { s₂ with noglob := true }
  let s₄ := s₃.set .oldIfs (s₃.vars .ifs)
  let s₅ := s₄.set .ifs (text ":")
  have hpath : s₅.vars .path = s.vars .path := rfl
  have hifs : s₅.vars .ifs = text ":" := rfl
  have hheld : s₅.vars .held = s.vars .held := rfl
  obtain ⟨s₆, hloop, hfound, hheld'⟩ := loop_search h tool
    (fields (text ":") (s.vars .path)) (show s₅.vars .self = binDir from rfl)
  have hfound' : s₆.vars .real = real := by
    rw [hfound]
    unfold findReal at hreal
    rw [hreal]
    rfl
  have hne : real ≠ [] := by
    unfold findReal at hreal
    obtain ⟨dir, -, hdir⟩ := Option.map_eq_some_iff.mp hreal
    rw [← hdir, programPath]
    simp [show text "/" = [47] by decide]
  let s₇ := s₆.set .ifs (s₆.vars .oldIfs)
  let s₈ : Shell Var := { s₇ with noglob := false }
  have hreal₈ : s₈.vars .real = real := hfound'
  refine ⟨s₈, ?_, hreal₈, hheld'.trans hheld⟩
  unfold searchCommands
  simp only [List.cons_append, List.nil_append]
  rw [run_next s₁ (by simp [Stmt.isReadable, Word.isReadable, hquoted])
      (by simp only [Stmt.eval, List.foldl_cons, List.foldl_nil, Word.value, hquoted]; rfl),
    run_next s₂ rfl rfl, run_next s₃ rfl rfl, run_next s₄ rfl rfl,
    run_next s₅ (by simp [Stmt.isReadable, Word.isReadable, hcolon])
      (by simp only [Stmt.eval, List.foldl_cons, List.foldl_nil, Word.value, hcolon]; rfl),
    run_next s₆ rfl (by rw [← hloop]; rfl), run_next s₇ rfl rfl, run_next s₈ rfl rfl,
    run_next s₈ rfl (by
      simp only [Stmt.eval, Test.holds, value_value, hreal₈, hne, decide_false, Bool.false_eq_true, if_false])]

end Search

/-! The arguments. -/
section Arguments
variable {h : Host} {s : Shell Var} {rule : ToolRule} {p : Progress} {real : Str}

/-- The variables of the loop are what `classify` has found. -/
structure Tracks (real : Str) (p : Progress) (s : Shell Var) : Prop where
  real : s.vars .real = real
  skip : s.vars .skip = if p.skip then text "1" else []
  slotClass : s.vars .slotClass = (p.flagClass.map SlotClass.name).getD []
  count : s.vars .count = numeral p.positionals.length
  length : p.positionals.length ≤ 2
  sub1 : s.vars .sub1 = p.positionals.getD 0 []
  sub2 : s.vars .sub2 = p.positionals.getD 1 []

theorem name_ne_nil (kind : SlotClass) : kind.name ≠ [] := by
  cases kind with
  | browser => decide
  | test => decide
  | build => decide

theorem readWord_name (kind : SlotClass) : readWord kind.name = some kind.name := by
  cases kind with
  | browser => decide
  | test => decide
  | build => decide

theorem Tracks.set_arg (hs : Tracks real p s) (arg : Str) : Tracks real p (s.set .arg arg) := by
  refine ⟨?_, ?_, ?_, ?_, hs.length, ?_, ?_⟩
  · rw [Shell.set_ne _ (by decide), hs.real]
  · rw [Shell.set_ne _ (by decide), hs.skip]
  · rw [Shell.set_ne _ (by decide), hs.slotClass]
  · rw [Shell.set_ne _ (by decide), hs.count]
  · rw [Shell.set_ne _ (by decide), hs.sub1]
  · rw [Shell.set_ne _ (by decide), hs.sub2]

theorem Tracks.set_skip (hs : Tracks real p s) (skip : Bool) :
    Tracks real { p with skip } (s.set .skip (if skip then text "1" else [])) := by
  refine ⟨?_, ?_, ?_, ?_, hs.length, ?_, ?_⟩
  · rw [Shell.set_ne _ (by decide), hs.real]
  · rw [Shell.set_self]
  · rw [Shell.set_ne _ (by decide), hs.slotClass]
  · rw [Shell.set_ne _ (by decide), hs.count]
  · rw [Shell.set_ne _ (by decide), hs.sub1]
  · rw [Shell.set_ne _ (by decide), hs.sub2]

theorem Tracks.set_class (hs : Tracks real p s) (kind : SlotClass) :
    Tracks real { p with flagClass := some kind } (s.set .slotClass kind.name) := by
  refine ⟨?_, ?_, ?_, ?_, hs.length, ?_, ?_⟩
  · rw [Shell.set_ne _ (by decide), hs.real]
  · rw [Shell.set_ne _ (by decide), hs.skip]
  · rw [Shell.set_self]
    rfl
  · rw [Shell.set_ne _ (by decide), hs.count]
  · rw [Shell.set_ne _ (by decide), hs.sub1]
  · rw [Shell.set_ne _ (by decide), hs.sub2]

theorem eval_direct (h : Host) (hreal : s.vars .real = real) :
    direct.eval h s = (s, .execs (real :: h.args)) := by
  simp only [direct, Stmt.eval, List.map_cons, List.map_nil, value_value, hreal, List.cons_append, List.nil_append]

theorem eval_setClass (h : Host) (s : Shell Var) (kind : SlotClass) :
    (setClass kind).eval h s = (s.set .slotClass kind.name, .next) := by
  simp only [setClass, Stmt.eval, List.foldl_cons, List.foldl_nil, Word.value, readWord_name, Option.getD_some]

theorem eval_flag (hs : Tracks real p s) {arg : Str} (harg : s.vars .arg = arg) (flag : Str × SlotClass) :
    ∃ s', (flagCommand flag).eval h s = (s', .next) ∧ s'.vars .arg = arg ∧
      Tracks real { p with flagClass := seeFlag arg p.flagClass flag } s' := by
  have hempty : decide (s.vars .slotClass = []) = p.flagClass.isNone := by
    rw [hs.slotClass]
    cases p.flagClass with
    | none => rfl
    | some kind => exact decide_eq_false (name_ne_nil kind)
  simp only [flagCommand, Stmt.eval, Test.holds, value_value, value_shellQuote, hempty, harg, seeFlag]
  split_ifs
  · exact ⟨_, eval_setClass h s flag.2, (Shell.set_ne _ (by decide) _).trans harg, hs.set_class flag.2⟩
  · exact ⟨s, rfl, harg, hs⟩

theorem eval_flags (flags : List (Str × SlotClass)) (rest : Command) (hs : Tracks real p s) {arg : Str}
    (harg : s.vars .arg = arg) : ∃ s',
    (flags.foldr (fun flag rest => Stmt.seq (flagCommand flag) rest) rest).eval h s = rest.eval h s' ∧
    s'.vars .arg = arg ∧ Tracks real { p with flagClass := flags.foldl (seeFlag arg) p.flagClass } s' := by
  induction flags generalizing s p with
  | nil => exact ⟨s, rfl, harg, hs⟩
  | cons flag flags ih =>
    obtain ⟨s', heval, harg', htracks⟩ := eval_flag (h := h) hs harg flag
    obtain ⟨s'', heval', harg'', htracks'⟩ := ih htracks harg'
    refine ⟨s'', ?_, harg'', htracks'⟩
    simp only [List.foldr_cons, Stmt.eval, heval, andThen_next]
    exact heval'

theorem eval_options (h : Host) (s : Shell Var) (rule : ToolRule) (arg : Str) :
    (optionBranches rule).eval h arg s =
    if arg ∈ rule.valueOptions then (s.set .skip (text "1"), .proceeds)
    else if (text "-").isPrefixOf arg then (s, .proceeds)
    else (s, .next) := by
  have hone : readWord (text "1") = some (text "1") := by decide
  unfold optionBranches
  by_cases hoptions : rule.valueOptions ≠ []
  · simp only [if_pos hoptions, Branches.eval, matchesAny_shellQuote, matchesAny_option, decide_eq_true_eq,
      Stmt.eval, List.foldl_cons, List.foldl_nil, Word.value_raw hone, andThen_next]
  · have hnot : arg ∉ rule.valueOptions := by
      rw [not_not.mp hoptions]
      exact List.not_mem_nil
    simp only [if_neg hoptions, Branches.eval, matchesAny_option, if_neg hnot, Stmt.eval]

theorem Tracks.append (hs : Tracks real p s) {arg : Str} (harg : s.vars .arg = arg)
    (hlt : p.positionals.length < 2) : ∃ s',
    countCommand.eval h s = (s', .next) ∧
    Tracks real { p with positionals := p.positionals ++ [arg] } s' := by
  have hcount : numeral (toNumber (s.vars .count) + 1) = numeral (p.positionals ++ [arg]).length := by
    rw [hs.count, toNumber_numeral, List.length_append, List.length_singleton]
  simp only [countCommand, Stmt.eval, List.foldl_cons, List.foldl_nil, Word.value_succ, Word.value_bare, hcount,
    andThen_next, Test.holds, value_value, Shell.set_self, toNumber_numeral, Shell.set_ne s (show Var.arg ≠ Var.count by decide), harg]
  cases hp : p.positionals with
  | nil =>
    refine ⟨_, rfl, ?_, ?_, ?_, ?_, ?_, ?_, ?_⟩
    · rw [Shell.set_ne _ (by decide), Shell.set_ne _ (by decide), hs.real]
    · rw [Shell.set_ne _ (by decide), Shell.set_ne _ (by decide), hs.skip]
    · rw [Shell.set_ne _ (by decide), Shell.set_ne _ (by decide), hs.slotClass]
    · rw [Shell.set_ne _ (by decide), Shell.set_self]
    · simp
    · rw [Shell.set_self]
      rfl
    · rw [Shell.set_ne _ (by decide), Shell.set_ne _ (by decide), hs.sub2, hp]
      rfl
  | cons first others =>
    have hothers : others = [] := by
      rw [hp, List.length_cons] at hlt
      exact List.length_eq_zero_iff.mp (by omega)
    rw [hothers] at hp ⊢
    refine ⟨_, rfl, ?_, ?_, ?_, ?_, ?_, ?_, ?_⟩
    · rw [Shell.set_ne _ (by decide), Shell.set_ne _ (by decide), hs.real]
    · rw [Shell.set_ne _ (by decide), Shell.set_ne _ (by decide), hs.skip]
    · rw [Shell.set_ne _ (by decide), Shell.set_ne _ (by decide), hs.slotClass]
    · rw [Shell.set_ne _ (by decide), Shell.set_self]
    · simp
    · rw [Shell.set_ne _ (by decide), Shell.set_ne _ (by decide), hs.sub1, hp]
      rfl
    · rw [Shell.set_self]
      rfl

theorem eval_positional (hs : Tracks real p s) {arg : Str} (harg : s.vars .arg = arg) : ∃ s' flow,
    (positionalCommand rule).eval h s = (s', flow) ∧ (flow = .next ∨ flow = .proceeds) ∧
    Tracks real (rule.place p arg) s' := by
  have hcount : toNumber (s.vars .count) = p.positionals.length := by
    rw [hs.count, toNumber_numeral]
  unfold positionalCommand ToolRule.place
  simp only [Stmt.eval, Test.holds, value_value, hcount, decide_eq_true_eq]
  by_cases hfull : 2 ≤ p.positionals.length
  · simp only [if_pos hfull]
    exact ⟨s, .proceeds, rfl, .inr rfl, hs⟩
  · simp only [if_neg hfull, andThen_next]
    rw [eval_options, harg]
    by_cases hoption : arg ∈ rule.valueOptions
    · simp only [if_pos hoption]
      exact ⟨_, .proceeds, rfl, .inr rfl, hs.set_skip true⟩
    · simp only [if_neg hoption]
      by_cases hhyphen : (text "-").isPrefixOf arg = true
      · simp only [if_pos hhyphen]
        exact ⟨s, .proceeds, rfl, .inr rfl, hs⟩
      · simp only [if_neg hhyphen]
        obtain ⟨s', heval, htracks⟩ := hs.append (h := h) harg (by omega)
        exact ⟨s', .next, heval, .inl rfl, htracks⟩

theorem eval_argument (rule : ToolRule) (hs : Tracks real p s) (arg : Str) :
    (arg ∈ trivialArguments → ∃ s', (argumentCommand rule).eval h (s.set .arg arg) =
      (s', .execs (real :: h.args))) ∧
    (arg ∉ trivialArguments → ∃ s' flow, (argumentCommand rule).eval h (s.set .arg arg) = (s', flow) ∧
      (flow = .next ∨ flow = .proceeds) ∧ Tracks real (rule.see p arg) s') := by
  have htracks := hs.set_arg arg
  have harg : (s.set .arg arg).vars .arg = arg := Shell.set_self ..
  generalize s.set .arg arg = s₀ at htracks harg ⊢
  unfold argumentCommand
  simp only [Stmt.eval, value_value, harg, Branches.eval, matchesAny_shellQuote, decide_eq_true_eq]
  constructor
  · intro htrivial
    refine ⟨s₀, ?_⟩
    rw [if_pos htrivial, eval_direct h htracks.real]
    rfl
  · intro htrivial
    rw [if_neg htrivial, andThen_next]
    simp only [Test.holds, value_value, htracks.skip, ToolRule.see]
    cases hskip : p.skip with
    | true =>
      have hone : decide (text "1" ≠ []) = true := by decide
      simp only [if_true, hone]
      exact ⟨_, .proceeds, rfl, .inr rfl, htracks.set_skip false⟩
    | false =>
      simp only [Bool.false_eq_true, if_false, ne_eq, not_true_eq_false, decide_false, andThen_next]
      obtain ⟨s', heval, harg', htracks'⟩ :=
        eval_flags (h := h) rule.flags (positionalCommand rule) htracks harg
      rw [heval]
      simp only [hskip] at htracks'
      exact eval_positional htracks' harg'

theorem loop_arguments (rule : ToolRule) (args : List Str) (hs : Tracks real p s) :
    match rule.seeAll args p with
    | none => ∃ s', loop ((argumentCommand rule).eval h) .arg args s = (s', .execs (real :: h.args))
    | some p' => ∃ s', loop ((argumentCommand rule).eval h) .arg args s = (s', .next) ∧ Tracks real p' s' := by
  induction args generalizing s p with
  | nil => exact ⟨s, rfl, hs⟩
  | cons arg args ih =>
    obtain ⟨htrivial, hother⟩ := eval_argument (h := h) rule hs arg
    unfold ToolRule.seeAll
    by_cases harg : arg ∈ trivialArguments
    · simp only [if_pos harg]
      obtain ⟨s', heval⟩ := htrivial harg
      exact ⟨s', by simp only [loop, heval]⟩
    · simp only [if_neg harg]
      obtain ⟨s', flow, heval, hflow, htracks⟩ := hother harg
      rw [loop_cons heval hflow]
      exact ih htracks

end Arguments

/-! The class. -/
section Class
variable {h : Host} {s : Shell Var} {rule : ToolRule} {real : Str}

def ToolRule.isWritable (rule : ToolRule) : Bool := rule.patterns.all (fun entry => entry.1 ≠ [])

def Chooses (h : Host) (real : Str) (kind : Option SlotClass) (r : Shell Var × Flow) : Prop :=
  (kind = none ∧ ∃ s, r = (s, .execs (real :: h.args))) ∨
    ∃ s, r = (s, .next) ∧ s.vars .real = real ∧ s.vars .slotClass = (kind.map SlotClass.name).getD []

theorem eval_patterns (hwritable : rule.isWritable = true) (hreal : s.vars .real = real)
    (hempty : s.vars .slotClass = []) (subject : Str) :
    Chooses h real (rule.firstMatch rule.patterns subject) ((patternBranches rule).eval h subject s) := by
  unfold ToolRule.isWritable at hwritable
  unfold patternBranches
  have hset : ∀ kind : SlotClass, Chooses h real (some kind) ((setClass kind).eval h s) := by
    intro kind
    rw [eval_setClass]
    exact .inr ⟨_, rfl, (Shell.set_ne _ (by decide) _).trans hreal, Shell.set_self ..⟩
  generalize rule.patterns = patterns at hwritable ⊢
  induction patterns with
  | nil =>
    simp only [List.foldr_nil, ToolRule.firstMatch]
    cases rule.default with
    | none => exact .inr ⟨s, rfl, hreal, hempty⟩
    | some kind =>
      simp only [Branches.eval, matchesAny_star, if_true]
      exact hset kind
  | cons entry patterns ih =>
    obtain ⟨pattern, kind⟩ := entry
    rw [List.all_cons, Bool.and_eq_true, decide_eq_true_eq] at hwritable
    simp only [List.foldr_cons, Branches.eval, matchesAny_shellPattern hwritable.1, ToolRule.firstMatch]
    by_cases hmatch : isMatch pattern subject = true
    · simp only [if_pos hmatch]
      cases kind with
      | none =>
        rw [chooseCommand, eval_direct h hreal]
        exact .inl ⟨rfl, s, rfl⟩
      | some kind => exact hset kind
    · simp only [if_neg hmatch]
      exact ih hwritable.2

theorem isReadable_setClass (kind : SlotClass) : (setClass kind).isReadable = true := by
  simp [setClass, Stmt.isReadable, Word.isReadable, readWord_name]

theorem isReadable_direct : direct.isReadable = true := by decide

theorem isReadable_patterns (rule : ToolRule) : (patternBranches rule).isReadable = rule.isWritable := by
  unfold patternBranches ToolRule.isWritable
  induction rule.patterns with
  | nil =>
    have hstar : (readPattern (text "*")).isSome = true := by decide
    cases rule.default with
    | none => rfl
    | some kind => simp [Branches.isReadable, isReadable_setClass, hstar]
  | cons entry patterns ih =>
    obtain ⟨pattern, kind⟩ := entry
    have hpattern : (readPattern (shellPattern pattern)).isSome = decide (pattern ≠ []) := by
      by_cases hnil : pattern = []
      · rw [hnil, readPattern_empty]
        rfl
      · rw [readPattern_shellPattern hnil]
        simp [hnil]
    have hbody : (chooseCommand kind).isReadable = true := by
      cases kind with
      | none => exact isReadable_direct
      | some kind => exact isReadable_setClass kind
    simp only [List.foldr_cons, Branches.isReadable, List.all_cons, List.all_nil, hpattern, hbody, ih, Bool.and_true]

theorem isReadable_argument (rule : ToolRule) : (argumentCommand rule).isReadable = true := by
  have hone : (readWord (text "1")).isSome = true := by decide
  have hhyphen : (readPattern (text "-*")).isSome = true := by decide
  have hoptions : (optionBranches rule).isReadable = true := by
    unfold optionBranches
    split_ifs
    · simp [Branches.isReadable, Stmt.isReadable, Word.isReadable, hone, hhyphen, readPattern_shellQuote]
    · simp [Branches.isReadable, Stmt.isReadable, hhyphen]
  have hpositional : (positionalCommand rule).isReadable = true := by
    simp [positionalCommand, countCommand, Stmt.isReadable, Test.isReadable, Word.isReadable, value, hoptions]
  have hflag : ∀ flag, (flagCommand flag).isReadable = true := by
    intro flag
    simp [Stmt.isReadable, flagCommand, Test.isReadable, Word.isReadable, value, readWord_shellQuote,
      isReadable_setClass]
  have hflags : (rule.flags.foldr (fun flag rest => Stmt.seq (flagCommand flag) rest)
      (positionalCommand rule)).isReadable = true := by
    induction rule.flags with
    | nil => exact hpositional
    | cons flag flags ih => simp only [List.foldr_cons, Stmt.isReadable, hflag, ih, Bool.and_self]
  simp [argumentCommand, Stmt.isReadable, Branches.isReadable, Test.isReadable, Word.isReadable, value,
    readPattern_shellQuote, isReadable_direct, hflags]

end Class

/-! The whole script. -/
section Script
variable {h : Host} {s : Shell Var} {rule : ToolRule} {real tool binDir cli : Str}

def ToolRule.isHandedOn (rule : ToolRule) (args : List Str) : Bool :=
  rule.isTrivialOnly args || args.any (fun arg => arg ∈ trivialArguments)

theorem seeAll_none (rule : ToolRule) (args : List Str) (p : Progress) :
    (rule.seeAll args p).isNone = args.any (fun arg => arg ∈ trivialArguments) := by
  induction args generalizing p with
  | nil => rfl
  | cons arg args ih =>
    unfold ToolRule.seeAll
    rw [List.any_cons]
    by_cases harg : arg ∈ trivialArguments
    · simp [harg]
    · simp [harg, ih]

def slotCommand (cli real : Str) (kind : SlotClass) (args : List Str) : List Str :=
  [cli, text "slot", text "run", text "--class", kind.name, text "--", real] ++ args

/-- What `classify` says that is run. -/
def wanted (cli real : Str) (args : List Str) : Option SlotClass → Flow
  | none => .execs (real :: args)
  | some kind => .execs (slotCommand cli real kind args)

theorem run_handOn (hreal : s.vars .real = real) (hheld : s.vars .held = []) (rest : List Command) :
    run h (handOnCommands rule ++ rest) s =
      if rule.isTrivialOnly h.args then .execs (real :: h.args) else run h rest s := by
  have hlone : (Stmt.ifThen .block (.numEq .argCount 1)
      (.case .line .firstArg (.branch (rule.trivial.map shellQuote) direct .none)) : Command).eval h s =
      if rule.isTrivialOnly h.args then (s, .execs (real :: h.args)) else (s, .next) := by
    simp only [Stmt.eval, Branches.eval, Test.holds, matchesAny_shellQuote, decide_eq_true_eq,
      eval_direct h hreal, Word.value, toNumber_numeral]
    cases hargs : h.args with
    | nil => rfl
    | cons arg args =>
      cases args with
      | nil =>
        have htrivial : rule.isTrivialOnly [arg] = decide (arg ∈ rule.trivial) := by
          unfold ToolRule.isTrivialOnly ToolRule.trivial
          cases rule.shortVersion with
          | false => simp
          | true => simp
        simp [htrivial]
      | cons next args => simp [ToolRule.isTrivialOnly]
  have hreadable : (Stmt.ifThen .block (.numEq .argCount 1)
      (.case .line .firstArg (.branch (rule.trivial.map shellQuote) direct .none)) : Command).isReadable = true := by
    simp [Stmt.isReadable, Branches.isReadable, Test.isReadable, Word.isReadable, readPattern_shellQuote,
      isReadable_direct]
  unfold handOnCommands
  simp only [List.cons_append, List.nil_append]
  rw [run_next s rfl (by simp [Stmt.eval, Test.holds, Word.value, hheld])]
  by_cases hlone' : rule.isTrivialOnly h.args = true
  · rw [if_pos hlone'] at hlone ⊢
    exact run_execs s hreadable hlone
  · rw [if_neg hlone'] at hlone ⊢
    exact run_next s hreadable hlone

theorem subject_tracks {p : Progress} (hs : Tracks real p s) :
    (Word.quoted [.var .sub1, .lit (text " "), .var .sub2] : Word Var).value h s =
      ToolRule.subject p.positionals := by
  simp only [Word.value, List.flatMap_cons, List.flatMap_nil, Piece.value, hs.sub1, hs.sub2, ToolRule.subject,
    List.append_nil, List.append_assoc]

theorem run_slot (hreal : s.vars .real = real) {kind : Option SlotClass}
    (hkind : s.vars .slotClass = (kind.map SlotClass.name).getD []) :
    run h [.ifThen .line (.isEmpty (value .slotClass)) direct,
      .exec [.raw (shellQuote cli), .raw (text "slot"), .raw (text "run"), .raw (text "--class"),
        value .slotClass, .raw (text "--"), value .real]] s = wanted cli real h.args kind := by
  have hslot : readWord (text "slot") = some (text "slot") := by decide
  have hrun : readWord (text "run") = some (text "run") := by decide
  have hclass : readWord (text "--class") = some (text "--class") := by decide
  have hend : readWord (text "--") = some (text "--") := by decide
  cases kind with
  | none =>
    apply run_execs s
    · rfl
    · have hempty : s.vars .slotClass = [] := hkind
      simp only [Stmt.eval, Test.holds, value_value, hempty, decide_true, if_true]
      exact eval_direct h hreal
  | some kind =>
    have hname : s.vars .slotClass = kind.name := hkind
    have hne := name_ne_nil kind
    rw [run_next s rfl (by
      simp only [Stmt.eval, Test.holds, value_value, hname, hne, decide_false, Bool.false_eq_true, if_false])]
    apply run_execs s
    · simp [Stmt.isReadable, Word.isReadable, readWord_shellQuote, hslot, hrun, hclass, hend, value]
    · simp only [Stmt.eval, List.map_cons, List.map_nil, value_value, value_shellQuote, Word.value_raw hslot,
        Word.value_raw hrun, Word.value_raw hclass, Word.value_raw hend, hname, hreal, slotCommand]

theorem run_commands (hreal : findReal h tool binDir (s.vars .path) = some real) (hheld : s.vars .held = []) :
    run h (commands rule tool binDir cli) s =
      if rule.isHandedOn h.args then .execs (real :: h.args)
      else if rule.isWritable then wanted cli real h.args (rule.classify h.args)
      else .fails := by
  have hzero : readWord (text "0") = some (text "0") := by decide
  unfold commands
  rw [List.append_assoc]
  obtain ⟨s₁, hsearch, hreal₁, hheld₁⟩ := run_search hreal (handOnCommands rule ++ classCommands rule cli)
  rw [hsearch, run_handOn hreal₁ (hheld₁.trans hheld)]
  unfold ToolRule.isHandedOn ToolRule.classify
  by_cases hlone : rule.isTrivialOnly h.args = true
  · simp only [hlone, if_true, Bool.true_or]
  rw [Bool.not_eq_true] at hlone
  simp only [hlone, Bool.false_eq_true, if_false, Bool.false_or]
  -- The variables of the loop are set.
  let s₂ := ((((s₁.set .sub1 []).set .sub2 []).set .count (text "0")).set .skip []).set .slotClass []
  have hs₂ : Tracks real {} s₂ := ⟨hreal₁, rfl, rfl, rfl, by decide, rfl, rfl⟩
  have hreadable : (Stmt.forArgs .arg (argumentCommand rule) : Command).isReadable = true :=
    isReadable_argument rule
  have hloop := loop_arguments (h := h) rule h.args hs₂
  have hnone := seeAll_none rule h.args {}
  unfold classCommands
  rw [run_next s₂ (by simp [Stmt.isReadable, Word.isReadable, hzero])
    (by simp only [Stmt.eval, List.foldl_cons, List.foldl_nil, Word.value_nothing, Word.value_raw hzero]; rfl)]
  cases hsee : rule.seeAll h.args {} with
  | none =>
    rw [hsee] at hloop hnone
    obtain ⟨s₃, heval⟩ := hloop
    have hfor : (Stmt.forArgs .arg (argumentCommand rule) : Command).eval h s₂ =
        (s₃, .execs (real :: h.args)) := heval
    rw [← hnone]
    exact run_execs s₃ hreadable hfor
  | some p =>
    rw [hsee] at hloop hnone
    obtain ⟨s₃, heval, hs₃⟩ := hloop
    have hfor : (Stmt.forArgs .arg (argumentCommand rule) : Command).eval h s₂ = (s₃, .next) := heval
    rw [run_next s₃ hreadable hfor, ← hnone]
    simp only [Option.isNone_some, Bool.false_eq_true, if_false]
    have hread : (Stmt.ifThen .block (.isEmpty (value .slotClass)) (.case .block
        (.quoted [.var .sub1, .lit (text " "), .var .sub2]) (patternBranches rule)) : Command).isReadable =
        rule.isWritable := by
      simp [Stmt.isReadable, Test.isReadable, Word.isReadable, value, isReadable_patterns]
    cases hwritable : rule.isWritable with
    | false =>
      rw [hwritable] at hread
      rw [run_unreadable hread]
      rfl
    | true =>
      rw [hwritable] at hread
      simp only [if_true]
      cases hflag : p.flagClass with
      | some kind =>
        -- A flag has chosen the class, and the patterns are left out.
        have hname : s₃.vars .slotClass = kind.name := by
          rw [hs₃.slotClass, hflag]
          rfl
        have hne := name_ne_nil kind
        rw [run_next s₃ hread (by
          simp only [Stmt.eval, Test.holds, value_value, hname, hne, decide_false, Bool.false_eq_true, if_false])]
        exact run_slot hs₃.real hname
      | none =>
        have hempty : s₃.vars .slotClass = [] := by
          rw [hs₃.slotClass, hflag]
          rfl
        have hchoose := eval_patterns (h := h) hwritable hs₃.real hempty (ToolRule.subject p.positionals)
        have hstep : (Stmt.ifThen .block (.isEmpty (value .slotClass)) (.case .block
            (.quoted [.var .sub1, .lit (text " "), .var .sub2]) (patternBranches rule)) : Command).eval h s₃ =
            (patternBranches rule).eval h (ToolRule.subject p.positionals) s₃ := by
          simp only [Stmt.eval, Test.holds, value_value, hempty, decide_true, if_true, subject_tracks hs₃]
        simp only
        rcases hchoose with ⟨hkind, s₄, heval'⟩ | ⟨s₄, heval', hreal₄, hclass₄⟩
        · rw [run_execs s₄ hread (hstep.trans heval'), hkind]
          rfl
        · rw [run_next s₄ hread (hstep.trans heval')]
          exact run_slot hreal₄ hclass₄

/-- What was run is what `classify` says: in a slot of a class exactly where that is the class, and
directly exactly where there is none. -/
def Agrees (cli real : Str) (args : List Str) (kind : Option SlotClass) (flow : Flow) : Prop :=
  (∀ found, flow = .execs (slotCommand cli real found args) ↔ kind = some found) ∧
    (flow = .execs (real :: args) ↔ kind = none)

theorem slotCommand_ne (kind : SlotClass) (args : List Str) : slotCommand cli real kind args ≠ real :: args := by
  intro h
  have hlength := congrArg List.length h
  simp only [slotCommand, List.length_append, List.length_cons, List.length_nil] at hlength
  omega

theorem slotCommand_inj {kind kind' : SlotClass} {args : List Str}
    (hsame : slotCommand cli real kind args = slotCommand cli real kind' args) : kind = kind' := by
  have hname : kind.name = kind'.name := by
    simpa only [slotCommand, List.cons_append, List.nil_append, List.cons.injEq, true_and, and_true] using hsame
  revert hname
  cases kind with
  | browser => cases kind' <;> decide
  | test => cases kind' <;> decide
  | build => cases kind' <;> decide

theorem agrees_wanted (cli real : Str) (args : List Str) (kind : Option SlotClass) :
    Agrees cli real args kind (wanted cli real args kind) := by
  cases kind with
  | none =>
    refine ⟨fun found => ?_, by simp [wanted]⟩
    simpa [wanted] using (slotCommand_ne found args).symm
  | some kind =>
    refine ⟨fun found => ?_, by simpa [wanted] using slotCommand_ne kind args⟩
    simp only [wanted, Flow.execs.injEq, Option.some.injEq]
    exact ⟨slotCommand_inj, fun he => by rw [he]⟩

theorem not_agrees_fails (args : List Str) (kind : Option SlotClass) :
    ¬ Agrees cli real args kind .fails := by
  intro ⟨hslot, hdirect⟩
  cases kind with
  | none => exact absurd (hdirect.mpr rfl) (by simp)
  | some kind => exact absurd ((hslot kind).mpr rfl) (by simp)

theorem classify_of_isHandedOn {args : List Str} (hon : rule.isHandedOn args = true) :
    rule.classify args = none := by
  unfold ToolRule.isHandedOn at hon
  rw [← seeAll_none rule args {}, Bool.or_eq_true] at hon
  unfold ToolRule.classify
  rcases hon with hlone | hnone
  · rw [if_pos hlone]
  · rw [Option.isNone_iff_eq_none.mp hnone]
    split_ifs
    · rfl
    · rfl

theorem classify_of_rule {tools : Str → Option ToolRule} (htool : tools tool = some rule)
    (halias : aliases.lookup tool = none) (args : List Str) : classify tools tool args = rule.classify args := by
  unfold classify
  rw [halias, Option.getD_none, htool]

/-- The wrapper agrees with the hook exactly where no pattern of the tool is empty, or the
arguments are handed on before the patterns are read. -/
theorem wrapper_agrees_iff (h : Host) (s : Shell Var) (tools : Str → Option ToolRule) (rule : ToolRule)
    (tool binDir cli real : Str) (htool : tools tool = some rule) (halias : aliases.lookup tool = none)
    (hreal : findReal h tool binDir (s.vars .path) = some real) (hheld : s.vars .held = []) :
    Agrees cli real h.args (classify tools tool h.args) (run h (commands rule tool binDir cli) s) ↔
      rule.isWritable = true ∨ rule.isHandedOn h.args = true := by
  rw [run_commands hreal hheld, classify_of_rule htool halias]
  by_cases hon : rule.isHandedOn h.args = true
  · have hagrees := agrees_wanted cli real h.args none
    rw [if_pos hon, classify_of_isHandedOn hon]
    exact ⟨fun _ => .inr hon, fun _ => hagrees⟩
  · rw [if_neg hon]
    cases hwritable : rule.isWritable with
    | true => exact ⟨fun _ => .inl rfl, fun _ => agrees_wanted cli real h.args _⟩
    | false =>
      refine ⟨fun hagrees => absurd hagrees (not_agrees_fails h.args _), fun hor => ?_⟩
      rcases hor with hor | hor
      · cases hor
      · exact absurd hor hon

end Script

/-! A tool with one pattern. -/
section Examples

def exampleHost : Host := ⟨[text "unit"], fun _ => true, fun _ => true⟩

def exampleShell : Shell Var := ⟨fun v => if v = .path then text "/usr/bin" else [], false⟩

/-- Everything that begins with `unit` is a test. -/
def unitRule : ToolRule := { patterns := [(text "unit*", some .test)] }

def emptyRule : ToolRule := { patterns := [([], some .test)] }

theorem exampleReal : findReal exampleHost (text "tool") (text "/slots") (exampleShell.vars .path) =
    some (text "/usr/bin/tool") := by decide +kernel

theorem unitRule_agrees :
    Agrees (text "cli") (text "/usr/bin/tool") exampleHost.args
        (classify (fun _ => some unitRule) (text "tool") exampleHost.args)
        (run exampleHost (commands unitRule (text "tool") (text "/slots") (text "cli")) exampleShell) ↔
      unitRule.isWritable = true ∨ unitRule.isHandedOn exampleHost.args = true :=
  wrapper_agrees_iff exampleHost exampleShell (fun _ => some unitRule) unitRule (text "tool") (text "/slots")
    (text "cli") (text "/usr/bin/tool") rfl (by decide) exampleReal rfl

example : run exampleHost (commands unitRule (text "tool") (text "/slots") (text "cli")) exampleShell =
    .execs (slotCommand (text "cli") (text "/usr/bin/tool") .test [text "unit"]) := by decide +kernel

/-- The script cannot be read, and the program is not run. -/
theorem emptyRule_fails :
    ¬ Agrees (text "cli") (text "/usr/bin/tool") exampleHost.args
      (classify (fun _ => some emptyRule) (text "tool") exampleHost.args)
      (run exampleHost (commands emptyRule (text "tool") (text "/slots") (text "cli")) exampleShell) := by
  have hfails : run exampleHost (commands emptyRule (text "tool") (text "/slots") (text "cli")) exampleShell =
      .fails := by
    rw [run_commands exampleReal rfl]
    decide +kernel
  rw [hfails]
  exact not_agrees_fails _ _

end Examples

end Raticode.CommandSlots
