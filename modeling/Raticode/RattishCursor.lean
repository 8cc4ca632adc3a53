import Raticode.RattishSpans

/-! What the readers of the cursor take. The lines it still has to read follow each
other in the source, so what a routine reads lies between the cursor before it and
the cursor after it. -/
namespace Raticode.Rattish
open SpanTree PyText Attempt

section Lines
variable {source : Text} {lines rest : List SourceLine} {line : SourceLine}

def offsetOf (source : Text) : List SourceLine → ℕ
  | [] => byteLength source
  | line :: _ => line.startOffset

def Consecutive (source : Text) : List SourceLine → Prop
  | [] => True
  | line :: lines => LineAt source line ∧ line.endOffset = offsetOf source lines ∧
      (∀ next ∈ lines, line.number < next.number) ∧ Consecutive source lines

theorem Consecutive.suffix (h : Consecutive source lines) (hs : rest <:+ lines) :
    Consecutive source rest := by
  induction lines with
  | nil =>
    obtain rfl := List.suffix_nil.mp hs
    trivial
  | cons line lines ih =>
    rcases List.suffix_cons_iff.mp hs with rfl | hs
    · exact h
    · exact ih h.2.2.2 hs

theorem Consecutive.boundary (h : Consecutive source lines) :
    Boundary Char.utf8Size source (offsetOf source lines) := by
  cases lines with
  | nil => exact boundary_weight
  | cons line lines => exact h.1.boundary_start

theorem LineAt.start_le_end (h : LineAt source line) : line.startOffset ≤ line.endOffset :=
  (h.position_le 0).1.trans (h.position_le 0).2

theorem Consecutive.offset_le (h : Consecutive source lines) (hs : rest <:+ lines) :
    offsetOf source lines ≤ offsetOf source rest := by
  induction lines with
  | nil =>
    obtain rfl := List.suffix_nil.mp hs
    exact le_rfl
  | cons line lines ih =>
    rcases List.suffix_cons_iff.mp hs with rfl | hs
    · exact le_rfl
    · have hnext : line.endOffset ≤ offsetOf source rest := by
        rw [h.2.1]
        exact ih h.2.2.2 hs
      exact h.1.start_le_end.trans hnext

theorem splitlines_flatten (text : Text) : (splitlines text).flatten = text := by
  fun_induction splitlines text with
  | case1 => rfl
  | case2 rest ih => simp [ih]
  | case3 c rest _ hc ih => simp [ih]
  | case4 c rest _ hc hnil ih =>
    rw [hnil] at ih
    simp [← ih]
  | case5 c rest _ hc line lines hcons ih =>
    rw [hcons] at ih
    simp [← ih]

theorem chomp_append (raw : Text) :
    ∃ newline, raw = chomp raw ++ newline ∧ (endsWithNewline raw = false → newline = []) := by
  unfold chomp
  split
  next hcrlf =>
    obtain ⟨u, rfl⟩ := hcrlf
    refine ⟨['\r', '\n'], ?_, ?_⟩
    · have hdrop : (u ++ ['\r', '\n']).dropLast.dropLast = u := by
        rw [show u ++ ['\r', '\n'] = u ++ ['\r'] ++ ['\n'] by simp, List.dropLast_concat,
          List.dropLast_concat]
      rw [hdrop]
    · intro hend
      simp [endsWithNewline] at hend
  next =>
    split
    next hend =>
      have hne : raw ≠ [] := by
        rintro rfl
        simp [endsWithNewline] at hend
      refine ⟨[raw.getLast hne], (List.dropLast_append_getLast hne).symm, ?_⟩
      intro hfalse
      rw [hend] at hfalse
      cases hfalse
    next => exact ⟨[], by simp, fun _ => rfl⟩

theorem splitlines_mem {text raw : Text} (h : raw ∈ splitlines text) :
    ∃ body stop, raw = body ++ stop ∧ (∀ c ∈ body, isLineBreak c = false) ∧
      (stop = [] ∨ stop = ['\r', '\n'] ∨ ∃ c, stop = [c] ∧ isLineBreak c = true) := by
  fun_induction splitlines text generalizing raw with
  | case1 => cases h
  | case2 rest ih =>
    rcases List.mem_cons.mp h with rfl | h
    · exact ⟨[], _, rfl, by simp, .inr (.inl rfl)⟩
    · exact ih h
  | case3 c rest _ hc ih =>
    rcases List.mem_cons.mp h with rfl | h
    · exact ⟨[], _, rfl, by simp, .inr (.inr ⟨c, rfl, hc⟩)⟩
    · exact ih h
  | case4 c rest _ hc hnil ih =>
    obtain rfl := List.mem_singleton.mp h
    exact ⟨[c], [], rfl, by simpa using hc, .inl rfl⟩
  | case5 c rest _ hc line lines hcons ih =>
    rcases List.mem_cons.mp h with rfl | h
    · obtain ⟨body, stop, rfl, hbody, hstop⟩ := ih (hcons ▸ List.mem_cons_self)
      refine ⟨c :: body, stop, rfl, fun d hd => ?_, hstop⟩
      rcases List.mem_cons.mp hd with rfl | hd
      · simpa using hc
      · exact hbody d hd
    · exact ih (hcons ▸ List.mem_cons_of_mem _ h)

theorem chomp_unbroken {text raw : Text} (h : raw ∈ splitlines text) :
    '\n' ∉ chomp raw ∧ '\r' ∉ chomp raw := by
  obtain ⟨body, stop, rfl, hbody, hstop⟩ := splitlines_mem h
  have hclean : '\n' ∉ body ∧ '\r' ∉ body :=
    ⟨fun hm => absurd (hbody _ hm) (by decide), fun hm => absurd (hbody _ hm) (by decide)⟩
  have hlast : ¬ ['\r', '\n'] <:+ body := by
    rintro ⟨u, rfl⟩
    exact hclean.1 (by simp)
  rcases hstop with rfl | rfl | ⟨c, rfl, hc⟩
  · have hend : endsWithNewline (body ++ []) = false := by
      rw [List.append_nil, endsWithNewline, Bool.or_eq_false_iff, decide_eq_false_iff_not,
        decide_eq_false_iff_not]
      exact ⟨fun hl => hclean.1 (List.mem_of_getLast? hl),
        fun hl => hclean.2 (List.mem_of_getLast? hl)⟩
    rw [List.append_nil] at hend ⊢
    rw [chomp, if_neg hlast, if_neg (by simp [hend])]
    exact hclean
  · have hdrop : chomp (body ++ ['\r', '\n']) = body := by
      rw [chomp, if_pos (List.suffix_append _ _),
        show body ++ ['\r', '\n'] = body ++ ['\r'] ++ ['\n'] by simp, List.dropLast_concat,
        List.dropLast_concat]
    rw [hdrop]
    exact hclean
  · have hpair : ¬ ['\r', '\n'] <:+ body ++ [c] := by
      rintro ⟨u, hu⟩
      have hinit : u ++ ['\r'] = body := by
        have hcut := congrArg List.dropLast hu
        rw [List.dropLast_concat, show u ++ ['\r', '\n'] = u ++ ['\r'] ++ ['\n'] by simp,
          List.dropLast_concat] at hcut
        exact hcut
      exact hclean.2 (hinit ▸ by simp)
    rw [chomp, if_neg hpair]
    split
    · rw [List.dropLast_concat]
      exact hclean
    next hend =>
      have hne : c ≠ '\n' ∧ c ≠ '\r' := by
        simp only [endsWithNewline, List.getLast?_concat, Option.some.injEq, Bool.or_eq_true,
          decide_eq_true_eq, not_or] at hend
        exact hend
      simp [hclean, hne.1.symm, hne.2.symm]

theorem numberLines_numbers {number offset : ℕ} {raws : List Text} {line : SourceLine}
    (h : line ∈ numberLines number offset raws) :
    number ≤ line.number ∧ line.number < number + raws.length := by
  induction raws generalizing number offset with
  | nil => cases h
  | cons raw raws ih =>
    rcases List.mem_cons.mp h with rfl | h
    · simp
    · have hrec := ih h
      rw [List.length_cons]
      omega

theorem numberLines_consecutive (before after : Text) {number offset : ℕ} {raws : List Text}
    {more : List SourceLine} (hsource : source = before ++ raws.flatten ++ after)
    (hoffset : offset = byteLength before) (hmore : Consecutive source more)
    (hend : offsetOf source more = byteLength (before ++ raws.flatten))
    (hnumber : ∀ line ∈ more, number + raws.length ≤ line.number)
    (hraws : ∀ raw ∈ raws, '\n' ∉ chomp raw ∧ '\r' ∉ chomp raw) :
    Consecutive source (numberLines number offset raws ++ more) := by
  induction raws generalizing number offset before with
  | nil => exact hmore
  | cons raw raws ih =>
    obtain ⟨newline, hraw, hnone⟩ := chomp_append raw
    have hnext : offset + byteLength raw = byteLength (before ++ raw) := by
      simp [hoffset, byteLength_eq_weight]
    have hrest : Consecutive source
        (numberLines (number + 1) (offset + byteLength raw) raws ++ more) := by
      apply ih (before ++ raw) (by simp [hsource]) hnext (by simpa using hend)
      · intro line hline
        have := hnumber line hline
        rw [List.length_cons] at this
        omega
      · exact fun r hr => hraws r (List.mem_cons_of_mem _ hr)
    refine ⟨⟨⟨before, newline, raws.flatten ++ after, ?_, hoffset, ?_, hnone⟩,
      hraws raw List.mem_cons_self⟩, ?_, ?_, hrest⟩
    · rw [hsource, List.append_assoc before (chomp raw) newline, ← hraw]
      simp
    · rw [List.append_assoc before (chomp raw) newline, ← hraw]
      exact hnext
    · cases raws with
      | nil =>
        change offset + byteLength raw = offsetOf source more
        rw [hend, hnext]
        simp
      | cons raw' raws => rfl
    · intro next hmem
      rcases List.mem_append.mp hmem with hmem | hmem
      · have := (numberLines_numbers hmem).1
        simp only
        omega
      · have := hnumber next hmem
        rw [List.length_cons] at this
        simp only
        omega

theorem physicalLines_consecutive (source : Text) : Consecutive source (physicalLines source) := by
  have hflatten := splitlines_flatten source
  have hlength : (numberLines 1 0 (splitlines source)).length = (splitlines source).length := by
    have hgen : ∀ (raws : List Text) (n o : ℕ), (numberLines n o raws).length = raws.length := by
      intro raws
      induction raws with
      | nil => intro n o; rfl
      | cons raw raws ih => intro n o; simp [numberLines, ih]
    exact hgen _ _ _
  unfold physicalLines
  simp only
  split
  next hempty =>
    have hnil : source = [] := by
      rw [List.isEmpty_iff, ← List.length_eq_zero_iff, hlength, List.length_eq_zero_iff] at hempty
      rw [← hflatten, hempty]
      rfl
    subst hnil
    exact ⟨⟨⟨[], [], [], rfl, rfl, rfl, fun _ => rfl⟩, by simp⟩, rfl, by simp, trivial⟩
  next =>
    split
    next =>
      apply numberLines_consecutive [] [] (by simp [hflatten]) rfl
      · exact ⟨⟨⟨source, [], [], by simp, rfl, by simp, fun _ => rfl⟩, by simp⟩, rfl, by simp,
          trivial⟩
      · simp [offsetOf, hflatten]
      · intro line hline
        obtain rfl := List.mem_singleton.mp hline
        simp only [hlength]
        omega
      · exact fun raw hraw => chomp_unbroken hraw
    next =>
      have hlines : Consecutive source (numberLines 1 0 (splitlines source) ++ []) := by
        apply numberLines_consecutive [] [] (by simp [hflatten]) rfl
        · trivial
        · simp [offsetOf, hflatten]
        · simp
        · exact fun raw hraw => chomp_unbroken hraw
      simpa using hlines

end Lines

section Views
variable {cfg : ParserConfig} {line : SourceLine} {v : LineView}

theorem view_eq (h : view cfg line = .ok v) : v = lineView line := by
  unfold view at h
  simp only at h
  split at h
  · cases h
  · cases h
    rfl

theorem lineView_at (line : SourceLine) :
    At line (lineView line).contentIndex (lineView line).content := by
  refine ⟨line.text.takeWhile isIndent, [], ?_, rfl⟩
  have hpre : line.text.takeWhile isIndent <+: line.text := List.takeWhile_prefix _
  simp only [lineView, List.append_nil]
  exact (List.prefix_iff_eq_append.mp hpre).symm

theorem find_spec {part w : Text} {i : ℕ} (h : find part w = some i) :
    ∃ p q, w = p ++ part ++ q ∧ p.length = i := by
  induction w generalizing i with
  | nil =>
    unfold find at h
    split at h
    next hpart =>
      cases h
      exact ⟨[], [], by simp [hpart], rfl⟩
    · cases h
  | cons c cs ih =>
    unfold find at h
    split at h
    next hpre =>
      cases h
      obtain ⟨q, hq⟩ := List.isPrefixOf_iff_prefix.mp hpre
      exact ⟨[], q, by simp [hq], rfl⟩
    · obtain ⟨j, hj, rfl⟩ := Option.map_eq_some_iff.mp h
      obtain ⟨p, q, hpq, hp⟩ := ih hj
      exact ⟨c :: p, q, by simp [hpq], by simp [hp]⟩

theorem find_le {part w p q : Text} {i : ℕ} (h : find part w = some i) (hw : w = p ++ part ++ q) :
    i ≤ p.length := by
  induction w generalizing i p with
  | nil =>
    unfold find at h
    split at h
    · cases h
      exact Nat.zero_le _
    · cases h
  | cons c cs ih =>
    unfold find at h
    split at h
    next =>
      cases h
      exact Nat.zero_le _
    next hpre =>
      obtain ⟨j, hj, rfl⟩ := Option.map_eq_some_iff.mp h
      cases p with
      | nil =>
        rw [List.nil_append] at hw
        exact absurd (List.isPrefixOf_iff_prefix.mpr ⟨q, hw.symm⟩) hpre
      | cons d p =>
        have hcs : cs = p ++ part ++ q := (List.cons.inj hw).2
        have := ih hj hcs
        rw [List.length_cons]
        omega

theorem prefix_stripComment (quoted escaped : Bool) (depth : ℕ) (w : Text) :
    stripComment quoted escaped depth w <+: w := by
  induction w generalizing quoted escaped depth with
  | nil => exact List.nil_prefix
  | cons c cs ih =>
    unfold stripComment
    repeat' split
    all_goals first
      | exact List.cons_prefix_cons.mpr ⟨rfl, ih _ _ _⟩
      | exact List.nil_prefix

theorem prefix_rstrip (w : Text) : rstrip w <+: w := List.rdropWhile_prefix _ _

theorem inlineText_at {i : ℕ} {raw : Text} (h : At line i raw) :
    At line (i + (raw.takeWhile isIndent).length) (inlineText raw) := by
  have hsplit : raw.takeWhile isIndent ++ raw.dropWhile isIndent = raw :=
    List.takeWhile_append_dropWhile
  rw [← hsplit] at h
  exact h.right.prefix ((prefix_rstrip _).trans (prefix_stripComment _ _ _ _))

theorem strip_infix (w : Text) : ∃ p q, w = p ++ strip w ++ q := by
  refine ⟨w.takeWhile isSpace, (w.dropWhile isSpace).rtakeWhile isSpace, ?_⟩
  rw [strip, Scan.trim, List.append_assoc, List.rdropWhile_append_rtakeWhile,
    List.takeWhile_append_dropWhile]

structure PartsAt (line : SourceLine) (parts : FieldParts) : Prop where
  key : At line parts.keyStart parts.key
  keyEnd : parts.keyEnd = parts.keyStart + parts.key.length
  value : At line parts.valueStart parts.rest
  order : parts.keyEnd ≤ parts.valueStart

theorem splitEntry_spec {missing : String} {keyProblem : Text → Option String} {parts : FieldParts}
    (h : splitEntry cfg missing keyProblem (lineView line) = .ok parts) :
    PartsAt line parts ∧ keyProblem parts.key = none := by
  have hat := lineView_at line
  unfold splitEntry at h
  split at h
  · cases h
  next before after hsplit =>
    have hcontent := untilUnquoted_append hsplit
    split at h
    · cases h
    · cases h
    next index hproblem hindex =>
      cases h
      refine ⟨⟨?_, rfl, ?_, ?_⟩, hproblem⟩
      · obtain ⟨p, q, hpq, rfl⟩ := find_spec hindex
        rw [hpq] at hat
        exact hat.left.right
      · rw [hcontent, show before ++ ':' :: after = (before ++ [':']) ++ after by simp] at hat
        have hright := inlineText_at hat.right
        rw [List.length_append, List.length_singleton, ← add_assoc] at hright
        exact hright
      · -- The key is found no later than where it stands before the colon.
        obtain ⟨p, q, hpq⟩ := strip_infix before
        have hle : index ≤ p.length := by
          apply find_le hindex (q := q ++ ':' :: after)
          rw [hcontent]
          conv_lhs => rw [hpq]
          simp
        have hlen : before.length = p.length + (strip before).length + q.length := by
          conv_lhs => rw [hpq]
          simp [add_assoc]
        simp only
        omega

end Views

abbrev Yields {α : Type} (x : Parse α) (lines : List SourceLine)
    (Q : α → List SourceLine → Prop) : Prop :=
  Wp x Q (fun _ _ => True) lines

theorem yields_iff {α : Type} {x : Parse α} {lines : List SourceLine}
    {Q : α → List SourceLine → Prop} :
    Yields x lines Q ↔ ∀ a rest, x lines = .ok a rest → Q a rest := by
  unfold Yields Wp
  cases x lines with
  | ok a rest => simp
  | error e rest => simp

section Inline
variable {cfg : ParserConfig} {source text : Text} {line : SourceLine} {start : ℕ}
  {lines rest : List SourceLine} {value : Ast.Val}

theorem value_tree_stop (value : Ast.Val) : value.tree.stop = (valueSpan value).stop.offset := by
  cases value with
  | string style _ _ _ => cases style <;> rfl
  | _ => rfl

def EndsOn (source : Text) (line : SourceLine) (rest : List SourceLine) (stop : SourcePosition) :
    Prop :=
  (stop.line = line.number ∧ stop.offset ≤ line.endOffset) ∨
    (line.number < stop.line ∧ stop.offset ≤ offsetOf source rest)

structure ValueAt (source : Text) (line : SourceLine) (start : ℕ) (rest : List SourceLine)
    (value : Ast.Val) : Prop where
  faithful : Faithful (Part source) value.tree
  start : value.tree.start = (line.position start).offset
  ends : EndsOn source line rest (valueSpan value).stop

structure Behind (source : Text) (line : SourceLine) (lines : List SourceLine) : Prop where
  located : LineAt source line
  consecutive : Consecutive source lines
  offset : line.endOffset ≤ offsetOf source lines
  numbers : ∀ next ∈ lines, line.number < next.number

theorem EndsOn.position (hline : LineAt source line) (i : ℕ) :
    EndsOn source line rest (line.position i) :=
  .inl ⟨rfl, (hline.position_le i).2⟩

theorem leaf_valueAt (hline : LineAt source line) (hat : At line start text)
    (htree : value.tree = spanNode (line.span start (start + text.length)) (· = text) [])
    (hspan : valueSpan value = line.span start (start + text.length)) :
    ValueAt source line start rest value := by
  have hleaf := hat.leaf hline
  refine ⟨by rw [htree]; exact hleaf, by rw [htree]; rfl, ?_⟩
  rw [hspan]
  exact EndsOn.position hline _

theorem parseWord_spec {span : SourceSpan} (h : parseWord cfg text span = .ok (some value)) :
    value.tree = spanNode span (· = text) [] ∧ valueSpan value = span := by
  unfold parseWord at h
  simp only at h
  split at h
  · cases h
    exact ⟨rfl, rfl⟩
  · split at h
    · cases h
      exact ⟨rfl, rfl⟩
    · split at h
      · cases h
        exact ⟨rfl, rfl⟩
      · split at h
        · cases h
          exact ⟨rfl, rfl⟩
        · split at h
          · obtain ⟨amount, -, h⟩ := bind_ok h
            cases h
            exact ⟨rfl, rfl⟩
          · obtain ⟨z, -, h⟩ := bind_ok h
            cases h
            exact ⟨rfl, rfl⟩
          · cases h
            exact ⟨rfl, rfl⟩
          · cases h

theorem scanJson_closed {index depth n : ℕ} {quoted escaped : Bool} {w : Text}
    (h : scanJson index depth quoted escaped w = .closed n) :
    ∃ u c v, w = u ++ c :: v ∧ n = index + u.length + 1 ∧ (c = '\x7d' ∨ c = ']') := by
  induction w generalizing index depth quoted escaped with
  | nil => simp [scanJson] at h
  | cons c cs ih =>
    have hnext : ∀ {d : ℕ} {q e : Bool}, scanJson (index + 1) d q e cs = .closed n →
        ∃ u b v, c :: cs = u ++ b :: v ∧ n = index + u.length + 1 ∧ (b = '\x7d' ∨ b = ']') := by
      intro d q e hrec
      obtain ⟨u, b, v, rfl, hn, hb⟩ := ih hrec
      refine ⟨c :: u, b, v, rfl, ?_, hb⟩
      rw [List.length_cons]
      omega
    unfold scanJson at h
    split at h
    · exact hnext h
    · split at h
      · exact hnext h
      · split at h
        · exact hnext h
        · split at h
          · exact hnext h
          · split at h
            · exact hnext h
            · split at h
              next hbracket =>
                split at h
                · cases h
                · split at h
                  · cases h
                    exact ⟨[], c, cs, rfl, rfl, by simpa using hbracket⟩
                  · exact hnext h
              · exact hnext h

theorem jsonLine_spec {depth : ℕ} {quoted escaped : Bool} {result : Text × SourcePosition}
    (h : jsonLine cfg depth quoted escaped text line start = .ok (.inl result)) :
    ∃ u c v, text = u ++ c :: v ∧ (c = '\x7d' ∨ c = ']') ∧ result.1 = u ++ [c] ∧
      result.2 = line.position (start + (u ++ [c]).length) := by
  unfold jsonLine at h
  split at h
  · cases h
  next n hscan =>
    simp only at h
    split at h
    · cases h
    · cases h
      obtain ⟨u, c, v, rfl, hn, hc⟩ := scanJson_closed hscan
      have hlen : n = (u ++ [c]).length := by
        rw [List.length_append, List.length_singleton]
        omega
      refine ⟨u, c, v, rfl, hc, ?_, ?_⟩
      · rw [hlen, show u ++ c :: v = (u ++ [c]) ++ v by simp, List.take_left]
      · rw [hlen]
  · cases h

structure JsonEnd (source : Text) (line : SourceLine) (start : ℕ) (lines rest : List SourceLine)
    (stop : SourcePosition) : Prop where
  suffix : rest <:+ lines
  boundary : Boundary Char.utf8Size source stop.offset
  order : (line.position start).offset ≤ stop.offset
  ends : EndsOn source line rest stop

theorem jsonEnd_of_jsonLine {depth : ℕ} {quoted escaped : Bool} {result : Text × SourcePosition}
    (h : jsonLine cfg depth quoted escaped text line start = .ok (.inl result))
    (hline : LineAt source line) (hat : At line start text) :
    JsonEnd source line start lines lines result.2 := by
  obtain ⟨u, c, v, rfl, -, -, hstop⟩ := jsonLine_spec h
  rw [show u ++ c :: v = (u ++ [c]) ++ v by simp] at hat
  rw [hstop]
  exact ⟨List.suffix_rfl, hat.right.boundary hline, position_mono (Nat.le_add_right _ _),
    EndsOn.position hline _⟩

theorem collectJson_spec {unterminated : Failure} {depth : ℕ} {quoted escaped : Bool}
    {result : Text × SourcePosition}
    (h : collectJson cfg unterminated depth quoted escaped text line start lines = .ok result rest)
    (hbehind : Behind source line lines) (hat : At line start text) :
    JsonEnd source line start lines rest result.2 := by
  induction lines generalizing depth quoted escaped text line start result with
  | nil =>
    unfold collectJson at h
    split at h
    · cases h
    next hone =>
      cases h
      exact jsonEnd_of_jsonLine hone hbehind.located hat
    · cases h
  | cons next lines ih =>
    unfold collectJson at h
    split at h
    · cases h
    next hone =>
      cases h
      exact jsonEnd_of_jsonLine hone hbehind.located hat
    next =>
      split at h
      · cases h
      · split at h
        next more stop after hmore =>
          cases h
          -- The next line is taken, and the brackets close on it or later.
          have hlines := hbehind.consecutive
          have hnext : Behind source next lines :=
            ⟨hlines.1, hlines.2.2.2, hlines.2.1.le, hlines.2.2.1⟩
          have hwhole : At next 0 next.text := ⟨[], [], by simp, rfl⟩
          obtain ⟨hsuffix, hboundary, hafter, hends⟩ := ih hmore hnext hwhole
          have hnumber : line.number < next.number := hbehind.numbers next List.mem_cons_self
          have hoffset : line.endOffset ≤ next.startOffset := hbehind.offset
          have hrest : next.endOffset ≤ offsetOf source rest := by
            rw [hlines.2.1]
            exact hlines.2.2.2.offset_le hsuffix
          refine ⟨hsuffix.trans (List.suffix_cons _ _), hboundary, ?_, .inr ?_⟩
          · have hstart := (hbehind.located.position_le start).2
            have hpos := (hnext.located.position_le 0).1
            exact ((hstart.trans hoffset).trans hpos).trans hafter
          · rcases hends with ⟨hsame, hle⟩ | ⟨hlater, hle⟩
            · rw [hsame]
              exact ⟨hnumber, hle.trans hrest⟩
            · exact ⟨hnumber.trans hlater, hle⟩
        · cases h

theorem collectJson_returns (unterminated : Failure) (depth : ℕ) (quoted escaped : Bool)
    (hbehind : Behind source line lines) (hat : At line start text) :
    Yields (collectJson cfg unterminated depth quoted escaped text line start) lines
      (fun result rest => JsonEnd source line start lines rest result.2) :=
  yields_iff.mpr (fun _ _ h => collectJson_spec h hbehind hat)

theorem parseJson_spec (hbehind : Behind source line lines) (hat : At line start text) :
    Yields (parseJson cfg text line start) lines
      (fun value rest => rest <:+ lines ∧ ValueAt source line start rest value) := by
  unfold parseJson
  simp only [Yields, wp_bind]
  refine (collectJson_returns _ _ _ _ hbehind hat).mono (fun result rest hend => ?_)
    (fun _ _ _ => trivial)
  obtain ⟨json, stop⟩ := result
  cases jsonLoads cfg true json with
  | ok value =>
    have hstart := hat.boundary hbehind.located
    exact ⟨hend.suffix, faithful_node hstart hend.boundary hend.order, rfl, hend.ends⟩
  | error e => cases e <;> trivial

theorem parseInlineValue_spec (hbehind : Behind source line lines) (hat : At line start text) :
    Yields (parseInlineValue cfg text line start) lines
      (fun value rest => rest <:+ lines ∧ ValueAt source line start rest value) := by
  unfold parseInlineValue
  simp only
  split
  · cases jsonLoads cfg false text with
    | error e => trivial
    | ok json =>
      cases json with
      | str value => exact ⟨List.suffix_rfl, leaf_valueAt hbehind.located hat rfl rfl⟩
      | _ => trivial
  · exact parseJson_spec hbehind hat
  · exact parseJson_spec hbehind hat
  · simp only [Yields, wp_bind, wp_lift]
    refine ⟨fun word hword => ?_, fun _ _ => trivial⟩
    cases word with
    | some value =>
      obtain ⟨htree, hspan⟩ := parseWord_spec hword
      exact ⟨List.suffix_rfl, leaf_valueAt hbehind.located hat htree hspan⟩
    | none =>
      simp only [wp_bind, wp_lift]
      refine ⟨fun found hfound => ?_, fun _ _ => trivial⟩
      cases found with
      | some reference =>
        obtain ⟨hfaithful, hspan⟩ := tryReference_spec hfound hbehind.located hat
        refine ⟨List.suffix_rfl, hfaithful, ?_, ?_⟩
        · exact congrArg (fun span => span.start.offset) hspan
        · rw [valueSpan, hspan]
          exact EndsOn.position hbehind.located _
      | none => exact ⟨List.suffix_rfl, leaf_valueAt hbehind.located hat rfl rfl⟩

theorem valueFieldEnd_spec (hbehind : Behind source line lines) (hsuffix : rest <:+ lines)
    (h : ValueAt source line start rest value) :
    value.tree.stop ≤ (valueFieldEnd value line).offset ∧
      (valueFieldEnd value line).offset ≤ offsetOf source rest ∧
      Boundary Char.utf8Size source (valueFieldEnd value line).offset := by
  have hrest := hbehind.offset.trans (hbehind.consecutive.offset_le hsuffix)
  unfold valueFieldEnd
  simp only
  rw [value_tree_stop]
  rcases h.ends with ⟨hsame, hle⟩ | ⟨hlater, hle⟩
  · rw [if_pos hsame, lineEnd_offset hbehind.located]
    exact ⟨hle, hrest, hbehind.located.boundary_end⟩
  · rw [if_neg (by omega)]
    refine ⟨le_rfl, hle, ?_⟩
    rw [← value_tree_stop]
    exact h.faithful.stop

end Inline

section Cursor
variable {cfg : ParserConfig} {source : Text} {lines rest : List SourceLine} {line : SourceLine}
  {α : Type} {Q : α → List SourceLine → Prop}

@[simp] theorem yields_lift (x : Except Failure α) :
    Yields (lift x : Parse α) lines Q ↔ ∀ a, x = .ok a → Q a lines := by
  simp [Yields, wp_lift]

@[simp] theorem yields_fail (e : Failure) : Yields (fail e : Parse α) lines Q := trivial

theorem Yields.mono {x : Parse α} {Q' : α → List SourceLine → Prop} (h : Yields x lines Q)
    (hq : ∀ a rest, Q a rest → Q' a rest) : Yields x lines Q' :=
  Wp.mono h hq (fun _ _ _ => trivial)

@[simp] theorem yields_bind {β : Type} (x : Parse β) (f : β → Parse α) :
    Yields (x >>= f) lines Q ↔ Yields x lines (fun b rest => Yields (f b) rest Q) := by
  simp [Yields]

@[simp] theorem yields_pure (a : α) : Yields (pure a : Parse α) lines Q ↔ Q a lines := Iff.rfl

@[simp] theorem yields_peek {Q : List SourceLine → List SourceLine → Prop} :
    Yields (peek : Parse (List SourceLine)) lines Q ↔ Q lines lines := Iff.rfl

@[simp] theorem yields_put {Q : Unit → List SourceLine → Prop} (t : List SourceLine) :
    Yields (put t : Parse Unit) lines Q ↔ Q () t := Iff.rfl

@[simp] theorem yields_advance {Q : Unit → List SourceLine → Prop} :
    Yields advance lines Q ↔ Q () lines.tail := by
  simp [advance]

theorem skipIgnorable_spec : Yields (skipIgnorable cfg) lines (fun _ rest => rest <:+ lines) := by
  induction lines with
  | nil => exact List.suffix_rfl
  | cons line lines ih =>
    unfold Yields Wp skipIgnorable
    cases view cfg line with
    | error e => trivial
    | ok v =>
      simp only
      split
      next h =>
        split at h
        · have hrest : Yields (skipIgnorable cfg) lines (fun _ rest => rest <:+ lines) := ih
          exact (hrest.ok h).trans (List.suffix_cons _ _)
        · cases h
          exact List.suffix_rfl
      next => trivial

theorem nextMeaningful_suffix (h : nextMeaningful cfg lines = .ok (some rest)) : rest <:+ lines := by
  induction lines with
  | nil => cases h
  | cons line lines ih =>
    unfold nextMeaningful at h
    split at h
    · cases h
    · split at h
      · exact (ih h).trans (List.suffix_cons _ _)
      · cases h
        exact List.suffix_rfl

theorem moreEntries_spec {indent : ℕ} :
    Yields (moreEntries cfg indent) lines (fun _ rest => rest <:+ lines) := by
  unfold moreEntries
  simp only [yields_bind, yields_peek, yields_lift]
  intro found hfound
  split
  · exact List.suffix_rfl
  · exact List.suffix_rfl
  next line rest =>
    simp only [yields_bind, yields_lift]
    intro v _
    split
    · simp only [yields_bind, yields_put, yields_pure]
      exact nextMeaningful_suffix hfound
    · exact List.suffix_rfl

theorem Consecutive.behind (h : Consecutive source (line :: lines)) : Behind source line lines :=
  ⟨h.1, h.2.2.2, h.2.1.le, h.2.2.1⟩

def Reads (source : Text) (x : Parse α) (trees : α → List (Outline Char)) : Prop :=
  ∀ lines, Consecutive source lines → Yields x lines (fun a rest => rest <:+ lines ∧
    Nested (Part source) (offsetOf source lines) (offsetOf source rest) (trees a))

theorem reads_collect {body : Parse (Lap α)} {tree : α → Outline Char}
    (hbody : Reads source body (fun turn => turn.items.map tree)) (e : Failure) (n : ℕ) :
    Reads source (collect e body n) (fun items => items.map tree) := by
  intro lines hlines
  induction n generalizing lines with
  | zero => trivial
  | succ n ih =>
    unfold collect
    rw [yields_bind]
    refine (hbody lines hlines).mono (fun turn middle hturn => ?_)
    obtain ⟨hsuffix, hnested⟩ := hturn
    cases turn with
    | stop => exact ⟨hsuffix, hnested⟩
    | last a => exact ⟨hsuffix, hnested⟩
    | next a =>
      simp only [yields_bind, yields_pure]
      refine (ih middle (hlines.suffix hsuffix)).mono (fun items rest hitems => ?_)
      exact ⟨hitems.1.trans hsuffix, Nested.cons hnested hitems.2⟩

theorem reads_skip {x : Parse α} {trees : α → List (Outline Char)} (h : Reads source x trees) :
    Reads source (do skipIgnorable cfg; x) trees := by
  intro lines hlines
  rw [yields_bind]
  refine skipIgnorable_spec.mono (fun _ middle hsuffix => ?_)
  refine (h middle (hlines.suffix hsuffix)).mono (fun a rest hread => ?_)
  exact ⟨hread.1.trans hsuffix, hread.2.mono (hlines.offset_le hsuffix) le_rfl⟩

end Cursor

end Raticode.Rattish
