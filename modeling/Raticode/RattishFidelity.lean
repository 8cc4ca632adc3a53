import Raticode.RattishBlocks

/-! Every span of a parsed document is the part of the source it stands for, and the
spans of the parts of a declaration lie in order inside its own. -/
namespace Raticode.Rattish
open SpanTree PyText Attempt

section Entries
variable {cfg : ParserConfig} {eof : SourcePosition} {source text : Text}
  {lines rest : List SourceLine} {line : SourceLine} {indent start : ℕ}

def endedTree (tree : Outline Char) (stop : SourcePosition) : Outline Char :=
  .node tree.start stop.offset unspelled [tree]

theorem endedTree_nested {tree : Outline Char} {low : ℕ} (hbehind : Behind source line lines)
    (h : Nested (Part source) low line.endOffset [tree]) :
    Nested (Part source) low (offsetOf source lines) [endedTree tree line.lineEnd] := by
  obtain ⟨hlow, hfaithful, hstop⟩ := h.head
  have hend := lineEnd_offset hbehind.located
  have hboundary := hbehind.located.boundary_end
  rw [← hend] at hstop hboundary
  refine Faithful.nested (faithful_node hfaithful.start hboundary
    (hfaithful.nested le_rfl hstop)) hlow ?_
  change line.lineEnd.offset ≤ _
  rw [hend]
  exact hbehind.offset

theorem markedLine_spec :
    Yields (markedLine cfg indent) lines (fun found rest => rest <:+ lines ∧
      ∀ v raw, found = some (v, raw) → ∃ line more, rest = line :: more ∧ v = lineView line ∧
        v.content = '-' :: raw) := by
  unfold markedLine
  rw [yields_bind]
  refine skipIgnorable_spec.mono (fun _ rest hsuffix => ?_)
  simp only [yields_bind, yields_peek]
  split
  · exact ⟨hsuffix, by simp⟩
  next line more =>
    simp only [yields_bind, yields_lift]
    intro v hv
    obtain rfl := view_eq hv
    split
    next raw hcontent =>
      split
      · refine ⟨hsuffix, fun w raw' hw => ?_⟩
        cases hw
        exact ⟨line, more, rfl, rfl, hcontent⟩
      · exact ⟨hsuffix, by simp⟩
    · exact ⟨hsuffix, by simp⟩

theorem identifierValue_spec {i : ℕ} {identifier : Ast.Identifier}
    (h : identifierValue cfg text line i = .ok identifier) (hline : LineAt source line)
    (hat : At line i text) :
    Nested (Part source) (line.position i).offset (line.position (i + text.length)).offset
      [identifier.tree] := by
  unfold identifierValue at h
  split at h
  · cases h
    exact identifier_nested hline hat
  · cases h

/-- One turn of `parseIdentifierList`. -/
def identifierItem (cfg : ParserConfig) (indent : ℕ) :
    Parse (Lap (Ast.Identifier × SourcePosition)) := do
  match ← markedLine cfg indent with
  | none => return .stop
  | some (v, raw) => do
    let rest := inlineText raw
    match find rest v.content with
    | none => fail .valueError
    | some index => do
      let value ← lift (identifierValue cfg rest v.line (v.contentIndex + index))
      advance
      return .next (value, v.line.lineEnd)

theorem parseIdentifierList_spec (hlines : Consecutive source lines) :
    Yields (parseIdentifierList cfg eof indent) lines (fun values rest => values ≠ [] ∧
      rest <:+ lines ∧ Nested (Part source) (offsetOf source lines) (offsetOf source rest)
        (values.map (fun p => endedTree p.1.tree p.2))) := by
  unfold parseIdentifierList
  simp only [yields_bind, yields_peek]
  have hcollect : Reads source (collect .depth (identifierItem cfg indent) (lines.length + 1))
      (fun values => values.map (fun p => endedTree p.1.tree p.2)) := by
    apply reads_collect
    intro lines hlines
    unfold identifierItem
    rw [yields_bind]
    refine markedLine_spec.mono (fun found middle hmiddle => ?_)
    obtain ⟨hsuffix, hfound⟩ := hmiddle
    have hle := hlines.offset_le hsuffix
    split
    · exact ⟨hsuffix, hle⟩
    next v raw =>
      obtain ⟨line, more, rfl, rfl, hcontent⟩ := hfound v raw rfl
      have hbehind := (hlines.suffix hsuffix).behind
      simp only
      split
      · trivial
      next index hindex =>
        simp only [yields_bind, yields_lift, yields_advance, yields_pure, List.tail_cons]
        intro identifier hidentifier
        obtain ⟨p, q, hpq, rfl⟩ := find_spec hindex
        have hat := lineView_at line
        rw [hpq] at hat
        have hnested := identifierValue_spec hidentifier hbehind.located hat.left.right
        have hline : Nested (Part source) (offsetOf source (line :: more)) line.endOffset
            [identifier.tree] :=
          hnested.mono (hbehind.located.position_le _).1 (hbehind.located.position_le _).2
        exact ⟨(List.suffix_cons _ _).trans hsuffix, (endedTree_nested hbehind hline).mono hle le_rfl⟩
  refine (hcollect lines hlines).mono (fun values rest hvalues => ?_)
  split
  · trivial
  next hne => exact ⟨hne, hvalues⟩

theorem scalar_nested {parts : FieldParts} {tree : Outline Char} (hbehind : Behind source line lines)
    (hparts : PartsAt line parts)
    (h : Nested (Part source) (line.position parts.valueStart).offset line.endOffset [tree]) :
    Nested (Part source) line.startOffset (offsetOf source lines)
      [spanNode ⟨line.position parts.keyStart, line.lineEnd⟩ unspelled [tree]] := by
  have hend := lineEnd_offset hbehind.located
  have hbefore : (line.position parts.keyStart).offset ≤ (line.position parts.valueStart).offset := by
    apply position_mono
    have := hparts.order
    have := hparts.keyEnd
    omega
  refine nested_spanNode (hbehind.located.position_le _).1 ?_
    (hparts.key.boundary hbehind.located) ?_ (h.mono hbefore hend.ge)
  · rw [hend]
    exact hbehind.offset
  · rw [hend]
    exact hbehind.located.boundary_end

theorem LineAt.nested_nil (hline : LineAt source line) (i : ℕ) :
    Nested (Part source) (line.position i).offset line.endOffset [] :=
  (hline.position_le i).2

theorem listed_nested {α : Type} {outer inner : α → Outline Char} {front : List (Outline Char)}
    {items : List α} {last : α} {stop : SourcePosition} {i : ℕ} (hbehind : Behind source line lines)
    (hi : Boundary Char.utf8Size source (line.position i).offset)
    (hfront : Nested (Part source) (line.position i).offset line.endOffset front)
    (h : Nested (Part source) (offsetOf source lines) (offsetOf source rest) (items.map outer))
    (hinner : ∀ a, Faithful (Part source) (outer a) →
      Nested (Part source) (outer a).start (outer a).stop [inner a])
    (hlast : items.getLast? = some last) (hstop : stop.offset = (outer last).stop) :
    Nested (Part source) line.startOffset (offsetOf source rest)
      [spanNode ⟨line.position i, stop⟩ unspelled (front ++ items.map inner)] := by
  obtain ⟨first, hfirst⟩ : ∃ first, items.head? = some first := by
    cases items with
    | nil => cases hlast
    | cons a items => exact ⟨a, rfl⟩
  have hrow := Nested.row h hfirst hlast
  have hitems := Nested.inner hrow.nested hinner
  have hchildren := hfront.append (hitems.mono (hbehind.offset.trans hrow.low) hstop.ge)
  refine nested_spanNode (hbehind.located.position_le _).1 ?_ hi ?_ hchildren
  · rw [hstop]
    exact hrow.high
  · rw [hstop]
    exact hrow.stop

theorem endedTree_inner {tree : Outline Char} {stop : SourcePosition}
    (h : Faithful (Part source) (endedTree tree stop)) :
    Nested (Part source) (endedTree tree stop).start (endedTree tree stop).stop [tree] := h.2

def ReadsEntry (source : Text) (line : SourceLine) (lines : List SourceLine) (x : Parse Ast.Entry) :
    Prop :=
  Yields x (line :: lines) (fun entry rest => rest <:+ line :: lines ∧
    Nested (Part source) line.startOffset (offsetOf source rest) [entry.tree])

theorem parseNeeds_spec {parts : FieldParts} (hlines : Consecutive source (line :: lines))
    (hparts : PartsAt line parts) :
    ReadsEntry source line lines (parseNeeds cfg eof (lineView line) parts indent) := by
  have hbehind := hlines.behind
  unfold ReadsEntry parseNeeds
  simp only [yields_bind, yields_advance, List.tail_cons]
  split
  · simp only [yields_bind, yields_lift, yields_pure]
    intro node hnode
    have hnested := identifierValue_spec hnode hbehind.located hparts.value
    exact ⟨List.suffix_cons _ _, scalar_nested hbehind hparts
      (hnested.mono le_rfl (hbehind.located.position_le _).2)⟩
  · simp only [yields_bind, yields_pure]
    refine (parseIdentifierList_spec hbehind.consecutive).mono (fun nodes rest hnodes => ?_)
    obtain ⟨hne, hsuffix, hnested⟩ := hnodes
    have hlast := List.getLast?_eq_some_getLast hne
    have hitems := listed_nested hbehind (hparts.key.boundary hbehind.located)
      (hbehind.located.nested_nil _) hnested (fun p => endedTree_inner) hlast rfl
    refine ⟨hsuffix.trans (List.suffix_cons _ _), ?_⟩
    simp only [hlast, Ast.Entry.tree, List.map_map]
    exact hitems

theorem parseRoute_spec {route : Ast.Route} (h : parseRoute cfg text line start = .ok route)
    (hline : LineAt source line) (hat : At line start text) :
    Nested (Part source) (line.position start).offset (line.position (start + text.length)).offset
      [route.tree] := by
  unfold parseRoute at h
  split at h
  · cases h
  next target htarget =>
    obtain ⟨after, rfl⟩ := (identifier_eq_some htarget).1
    rw [List.drop_left] at h
    have hslice := hat.slice hline
    have htree := identifier_nested hline hat.left
    have hlast : (line.position (start + target.length)).offset ≤
        (line.position (start + (target ++ after).length)).offset := by
      apply position_mono
      rw [List.length_append]
      omega
    -- A route without a predicate has its target only.
    have halone : Nested (Part source) (line.position start).offset
        (line.position (start + (target ++ after).length)).offset
        [spanNode (line.span start (start + (target ++ after).length)) unspelled
          [(identifierJson target (line.span start (start + target.length))).tree]] :=
      nested_spanNode le_rfl le_rfl hslice.start hslice.stop (htree.mono le_rfl hlast)
    simp only at h
    split at h
    · cases h
      exact halone
    · split at h
      · split at h
        · cases h
        next index hindex =>
          obtain ⟨predicate, hpredicate, h⟩ := bind_ok h
          cases h
          obtain ⟨p, q, hpq, rfl⟩ := find_spec hindex
          have hafter := hat.right
          rw [hpq] at hafter
          have hnested := parsePredicate_spec hpredicate hline hafter.left.right
          refine nested_spanNode le_rfl le_rfl hslice.start hslice.stop
            (htree.cons (hnested.mono (position_mono (by omega)) (position_mono ?_)))
          have hlen := congrArg List.length hpq
          simp only [List.length_append] at hlen ⊢
          omega
      · split at h
        · cases h
        · cases h
          exact halone

/-- One turn of `parseRoutes`. -/
def routeItem (cfg : ParserConfig) (indent : ℕ) : Parse (Lap (Ast.Route × SourcePosition)) := do
  match ← markedLine cfg (indent + 2) with
  | none => return .stop
  | some (item, raw) => do
    let route ← lift (parseRoute cfg (inlineText raw) item.line
      (item.contentIndex + 1 + (raw.takeWhile isIndent).length))
    advance
    return .next (route, item.line.lineEnd)

theorem parseRoutes_spec {parts : FieldParts} (hlines : Consecutive source (line :: lines))
    (hparts : PartsAt line parts) :
    ReadsEntry source line lines (parseRoutes cfg eof (lineView line) parts indent) := by
  have hbehind := hlines.behind
  unfold ReadsEntry parseRoutes
  simp only [yields_bind, yields_advance, List.tail_cons]
  split
  · simp only [yields_bind, yields_lift, yields_pure]
    intro route hroute
    have hnested := parseRoute_spec hroute hbehind.located hparts.value
    exact ⟨List.suffix_cons _ _, scalar_nested hbehind hparts
      (hnested.mono le_rfl (hbehind.located.position_le _).2)⟩
  · simp only [yields_bind, yields_peek]
    have hcollect : Reads source (collect .depth (routeItem cfg indent) (lines.length + 1))
        (fun routes => routes.map (fun p => endedTree p.1.tree p.2)) := by
      apply reads_collect
      intro lines hlines
      unfold routeItem
      rw [yields_bind]
      refine markedLine_spec.mono (fun found middle hmiddle => ?_)
      obtain ⟨hsuffix, hfound⟩ := hmiddle
      have hle := hlines.offset_le hsuffix
      split
      · exact ⟨hsuffix, hle⟩
      next item raw =>
        obtain ⟨line, more, rfl, rfl, hcontent⟩ := hfound item raw rfl
        have hbehind := (hlines.suffix hsuffix).behind
        have hat := lineView_at line
        rw [hcontent] at hat
        have hraw : At line ((lineView line).contentIndex + 1) raw := At.right (t := ['-']) hat
        simp only [yields_bind, yields_lift, yields_advance, yields_pure, List.tail_cons]
        intro route hroute
        have hnested := parseRoute_spec hroute hbehind.located (inlineText_at hraw)
        have hline : Nested (Part source) (offsetOf source (line :: more)) line.endOffset
            [route.tree] :=
          hnested.mono (hbehind.located.position_le _).1 (hbehind.located.position_le _).2
        exact ⟨(List.suffix_cons _ _).trans hsuffix, (endedTree_nested hbehind hline).mono hle le_rfl⟩
    refine (hcollect lines hbehind.consecutive).mono (fun routes rest hroutes => ?_)
    split
    · trivial
    next stop hlast =>
      refine ⟨hroutes.1.trans (List.suffix_cons _ _), ?_⟩
      have hitems := listed_nested hbehind (hparts.key.boundary hbehind.located)
        (hbehind.located.nested_nil _) hroutes.2 (fun p => endedTree_inner) hlast rfl
      simp only [Ast.Entry.tree, List.map_map]
      exact hitems

theorem isStart_of_isSpace {c : Char} (h : PyJson.isStart c = true) : isSpace c = false := by
  simp only [PyJson.isStart, Bool.or_eq_true, List.contains_iff_mem] at h
  rcases h with h | h
  · simp only [PyJson.isDigit, Bool.and_eq_true, decide_eq_true_eq, Char.le_def] at h
    have hlow : 48 ≤ c.toNat := h.1
    have hhigh : c.toNat ≤ 57 := h.2
    simp only [isSpace, Bool.or_eq_false_iff, Bool.and_eq_false_iff, decide_eq_false_iff_not,
      beq_eq_false_iff_ne]
    omega
  · have hmarks : "[]\x7b\x7d,:\"-ntfNI".toList.all (fun x => !isSpace x) = true := by decide
    simpa using List.all_eq_true.mp hmarks c h

structure OnLine (source : Text) (line : SourceLine) (start : ℕ) (value : Ast.Val) : Prop where
  faithful : Faithful (Part source) value.tree
  start : value.tree.start = (line.position start).offset
  stop : value.tree.stop ≤ line.endOffset

def TookLine (cfg : ParserConfig) (text : Text) (lines : List SourceLine) (value : Ast.Val) : Prop :=
  ∃ next more j span v, next ∈ lines.head? ∧ value = .json (text ++ '\n' :: more) v span ∧
    jsonLoads cfg true (text ++ '\n' :: more) = .ok j ∧
    ∀ s c w, next.text = s ++ c :: w → (∀ x ∈ s, isIndent x = true) → c ≠ '\x7d' → c ≠ ']' →
      ∃ w', more = s ++ c :: w'

theorem collectJson_reaches {unterminated : Failure} {depth : ℕ} {quoted escaped : Bool}
    {result : Text × SourcePosition}
    (h : collectJson cfg unterminated depth quoted escaped text line start lines = .ok result rest)
    {s w : Text} {c : Char} (htext : text = s ++ c :: w) (hs : ∀ x ∈ s, isIndent x = true)
    (hbrace : c ≠ '\x7d') (hbracket : c ≠ ']') : ∃ w', result.1 = s ++ c :: w' := by
  have hclosed : ∀ {r : Text × SourcePosition},
      jsonLine cfg depth quoted escaped text line start = .ok (.inl r) →
      ∃ w', r.1 = s ++ c :: w' := by
    intro r hone
    obtain ⟨u, b, v, hsplit, hb, hr, -⟩ := jsonLine_spec hone
    have hpre : s ++ [c] <+: u := by
      have hleft : s ++ [c] <+: text := ⟨w, by simp [htext]⟩
      have hright : u <+: text := ⟨b :: v, hsplit.symm⟩
      rcases List.prefix_or_prefix_of_prefix hleft hright with hpre | ⟨t, ht⟩
      · exact hpre
      · -- Otherwise the bracket would stand among the blanks or be the character.
        cases t with
        | nil => exact ⟨[], by simpa using ht.symm⟩
        | cons d t =>
          exfalso
          have hd : d = b := by
            have heq : u ++ d :: (t ++ w) = u ++ b :: v := by
              rw [← hsplit, htext, show s ++ c :: w = (s ++ [c]) ++ w by simp, ← ht]
              simp
            exact (List.cons.inj (List.append_cancel_left heq)).1
          have hmem : b ∈ s ++ [c] := by
            rw [← ht, ← hd]
            simp
          rcases List.mem_append.mp hmem with hm | hm
          · have := hs b hm
            rcases hb with rfl | rfl <;> revert this <;> decide
          · obtain rfl := List.mem_singleton.mp hm
            rcases hb with hb | hb
            · exact hbrace hb
            · exact hbracket hb
    obtain ⟨t, rfl⟩ := hpre
    exact ⟨t ++ [b], by simp [hr]⟩
  cases lines with
  | nil =>
    unfold collectJson at h
    split at h
    · cases h
    next hone =>
      cases h
      exact hclosed hone
    · cases h
  | cons next lines =>
    unfold collectJson at h
    split at h
    · cases h
    next hone =>
      cases h
      exact hclosed hone
    next =>
      split at h
      · cases h
      · split at h
        next more stop after hmore =>
          cases h
          exact ⟨w ++ '\n' :: more, by simp [htext]⟩
        · cases h

theorem parseJson_here (hline : LineAt source line) (hat : At line start text) :
    Yields (parseJson cfg text line start) lines (fun value rest =>
      (rest = lines ∧ OnLine source line start value) ∨ TookLine cfg text lines value) := by
  unfold parseJson
  simp only [yields_bind]
  apply yields_iff.mpr
  intro result rest hcollect
  obtain ⟨json, stop⟩ := result
  cases hloads : jsonLoads cfg true json with
  | error e => cases e <;> trivial
  | ok j =>
    have hone : ∀ {r : Text × SourcePosition} {d : ℕ} {q e : Bool},
        jsonLine cfg d q e text line start = .ok (.inl r) →
        OnLine source line start (.json r.1 (toValue j) ⟨line.position start, r.2⟩) := by
      intro r d q e hr
      have hend : JsonEnd source line start lines lines r.2 := jsonEnd_of_jsonLine hr hline hat
      obtain ⟨u, c, v, -, -, -, hstop⟩ := jsonLine_spec hr
      refine ⟨faithful_node (hat.boundary hline) hend.boundary hend.order, rfl, ?_⟩
      change r.2.offset ≤ _
      rw [hstop]
      exact (hline.position_le _).2
    cases lines with
    | nil =>
      unfold collectJson at hcollect
      split at hcollect
      · cases hcollect
      next hr =>
        cases hcollect
        exact .inl ⟨rfl, hone hr⟩
      · cases hcollect
    | cons next lines =>
      unfold collectJson at hcollect
      split at hcollect
      · cases hcollect
      next hr =>
        cases hcollect
        exact .inl ⟨rfl, hone hr⟩
      next =>
        split at hcollect
        · cases hcollect
        · split at hcollect
          next more stop after hmore =>
            cases hcollect
            refine .inr ⟨next, more, j, _, _, rfl, rfl, hloads, ?_⟩
            intro s c w htext hs hbrace hbracket
            exact collectJson_reaches hmore htext hs hbrace hbracket
          · cases hcollect

theorem parseInlineValue_here (hline : LineAt source line) (hat : At line start text) :
    Yields (parseInlineValue cfg text line start) lines (fun value rest =>
      (rest = lines ∧ OnLine source line start value) ∨ TookLine cfg text lines value) := by
  have hleaf : ∀ {value : Ast.Val},
      value.tree = spanNode (line.span start (start + text.length)) (· = text) [] →
      OnLine source line start value := by
    intro value htree
    refine ⟨by rw [htree]; exact hat.leaf hline, by rw [htree]; rfl, ?_⟩
    rw [htree]
    exact (hline.position_le _).2
  unfold parseInlineValue
  simp only
  split
  · cases jsonLoads cfg false text with
    | error e => trivial
    | ok json =>
      cases json with
      | str value => exact .inl ⟨rfl, hleaf rfl⟩
      | _ => trivial
  · exact parseJson_here hline hat
  · exact parseJson_here hline hat
  · simp only [yields_bind, yields_lift]
    intro word hword
    cases word with
    | some value => exact .inl ⟨rfl, hleaf (parseWord_spec hword).1⟩
    | none =>
      simp only [yields_bind, yields_lift]
      intro found hfound
      cases found with
      | some reference =>
        obtain ⟨hfaithful, hspan⟩ := tryReference_spec hfound hline hat
        refine .inl ⟨rfl, hfaithful, congrArg (fun span => span.start.offset) hspan, ?_⟩
        have hstop : reference.tree.stop = (line.position (start + text.length)).offset :=
          congrArg (fun span => span.stop.offset) hspan
        exact hstop.le.trans (hline.position_le _).2
      | none => exact .inl ⟨rfl, hleaf rfl⟩

theorem not_isStart_of_lower {c : Char} (h : lowerChar c = 'd') : PyJson.isStart c = false := by
  rw [Bool.eq_false_iff]
  intro hstart
  simp only [PyJson.isStart, Bool.or_eq_true, List.contains_iff_mem] at hstart
  rcases hstart with hdigit | hmark
  · simp only [PyJson.isDigit, Bool.and_eq_true, decide_eq_true_eq, Char.le_def] at hdigit
    have hhigh : c.val ≤ '9'.val := hdigit.2
    have hplain : lowerChar c = c := by
      have hne : c ≠ '\u212a' := by
        rintro rfl
        exact absurd hhigh (by decide)
      rw [lowerChar, if_neg hne]
      delta Char.toLower
      rw [dif_neg]
      intro hupper
      exact absurd (UInt32.le_trans hupper.1 hhigh) (by decide)
    rw [hplain] at h
    subst h
    exact absurd hhigh (by decide)
  · have hmarks : "[]\x7b\x7d,:\"-ntfNI".toList.all (fun x => lowerChar x != 'd') = true := by
      decide
    have hne := List.all_eq_true.mp hmarks c hmark
    rw [h] at hne
    cases hne

theorem strip_head {c : Char} {w : Text} (hc : isSpace c = false) :
    ∃ w', strip (c :: w) = c :: w' := by
  have hdrop : (c :: w).dropWhile isSpace = c :: w := by simp [hc]
  rw [strip, Scan.trim, hdrop]
  exact Scan.rdropWhile_cons hc w

theorem not_tookLine {parts : FieldParts} {value : Ast.Val} (hline : LineAt source line)
    (hsplit : splitField cfg (lineView line) = .ok parts)
    (hdefault : lower parts.key = "default".toList) :
    ¬ TookLine cfg text (line :: lines) value := by
  rintro ⟨next, more, j, span, v, hnext, -, hloads, hreach⟩
  obtain rfl := Option.some.inj hnext
  have hindent : ∀ x ∈ line.text.takeWhile isIndent, isIndent x = true :=
    fun x hx => List.mem_takeWhile_imp hx
  have hdrop : (lineView line).content = line.text.dropWhile isIndent := by
    have hcut : line.text.takeWhile isIndent ++ line.text.dropWhile isIndent = line.text :=
      List.takeWhile_append_dropWhile
    have hleft : ((line.text.takeWhile isIndent) ++ (line.text.dropWhile isIndent)).drop
        (line.text.takeWhile isIndent).length = line.text.dropWhile isIndent := List.drop_left
    rw [hcut] at hleft
    exact hleft
  unfold splitField splitEntry at hsplit
  split at hsplit
  · cases hsplit
  next before after hbefore =>
    have hcontent := untilUnquoted_append hbefore
    split at hsplit
    · cases hsplit
    · cases hsplit
    next index hproblem hindex =>
      cases hsplit
      cases before with
      | nil => cases hdefault
      | cons c b =>
        rw [hdrop] at hcontent
        have htext : line.text = line.text.takeWhile isIndent ++ c :: (b ++ ':' :: after) := by
          conv_lhs => rw [← List.takeWhile_append_dropWhile (p := isIndent) (l := line.text)]
          rw [hcontent]
          rfl
        have hblank : isIndent c = false := by
          have hhead := List.head?_dropWhile_not isIndent line.text
          rw [hcontent] at hhead
          simpa using hhead
        have hmem : c ∈ line.text := by
          rw [htext]
          simp
        -- The character is a blank that JSON does not skip, or the first of the key.
        have hstart : PyJson.isStart c = false := by
          cases hc : isSpace c with
          | true =>
            rw [Bool.eq_false_iff]
            intro hstart
            rw [isStart_of_isSpace hstart] at hc
            cases hc
          | false =>
            obtain ⟨w, hw⟩ := strip_head (w := b) hc
            simp only [hw] at hdefault
            exact not_isStart_of_lower (List.cons.inj hdefault).1
        obtain ⟨w, rfl⟩ := hreach _ c _ htext hindent
          (by rintro rfl; exact absurd hstart (by decide))
          (by rintro rfl; exact absurd hstart (by decide))
        have hspaces : ∀ x ∈ line.text.takeWhile isIndent, isJsonSpace x = true := by
          intro x hx
          have hx := hindent x hx
          simp only [isIndent, Bool.or_eq_true, decide_eq_true_eq] at hx
          rcases hx with rfl | rfl <;> rfl
        rcases PyJson.loads_line_start hloads hspaces with hspace | hspace
        · simp only [isIndent, Bool.or_eq_false_iff, decide_eq_false_iff_not] at hblank
          simp only [isJsonSpace, Bool.or_eq_true, decide_eq_true_eq] at hspace
          rcases hspace with ((hspace | hspace) | rfl) | rfl
          · exact hblank.1 hspace
          · exact hblank.2 hspace
          · exact hline.unbroken.1 hmem
          · exact hline.unbroken.2 hmem
        · rw [hstart] at hspace
          cases hspace

theorem OnLine.nested {value : Ast.Val} (h : OnLine source line start value) :
    Nested (Part source) (line.position start).offset line.endOffset [value.tree] :=
  h.faithful.nested h.start.ge h.stop

theorem bindingEntry_spec :
    Reads source (bindingEntry cfg indent)
      (fun turn => turn.items.map Ast.BindingEntry.tree) := by
  apply reads_skip
  intro lines hlines
  simp only [yields_bind, yields_peek]
  split
  · exact ⟨List.suffix_rfl, le_rfl⟩
  next line lines =>
    simp only [yields_bind, yields_lift]
    intro v hv
    obtain rfl := view_eq hv
    split
    · exact ⟨List.suffix_rfl, le_rfl⟩
    simp only [yields_bind, yields_lift]
    intro parts hsplit
    obtain ⟨hparts, -⟩ := splitEntry_spec hsplit
    have hbehind := hlines.behind
    split
    · trivial
    next hkey =>
      rw [yields_bind]
      refine (parseInlineValue_here hbehind.located hparts.value).mono (fun value rest hvalue => ?_)
      split
      · cases value with
        | reference reference =>
          rcases hvalue with ⟨rfl, hon⟩ | htook
          · simp only [yields_bind, yields_advance, yields_pure, List.tail_cons]
            exact ⟨List.suffix_cons _ _, scalar_nested hbehind hparts hon.nested⟩
          · -- Embedded JSON is no reference.
            obtain ⟨_, _, _, _, _, _, heq, _⟩ := htook
            cases heq
        | _ => trivial
      next hfrom =>
        have hdefault : lower parts.key = "default".toList := by
          simp only [Bool.or_eq_true, Bool.and_eq_true, decide_eq_true_eq, not_or, not_and,
            ne_eq, not_not] at hkey
          exact hkey.1 hfrom
        rcases hvalue with ⟨rfl, hon⟩ | htook
        · simp only [yields_bind, yields_advance, yields_pure, List.tail_cons]
          exact ⟨List.suffix_cons _ _, scalar_nested hbehind hparts hon.nested⟩
        · exact absurd htook (not_tookLine hbehind.located hsplit hdefault)

theorem entryValue_line {parts : FieldParts} {value : Ast.Val} (hbehind : Behind source line lines)
    (hparts : PartsAt line parts)
    (h : Nested (Part source) (line.position parts.valueStart).offset line.endOffset [value.tree]) :
    EntryValue source line parts lines lines value (valueFieldEnd value line) := by
  obtain ⟨hstart, hfaithful, hstop⟩ := h.head
  have hkey := (position_mono hparts.order).trans hstart
  unfold valueFieldEnd
  simp only
  split
  · have hend := lineEnd_offset hbehind.located
    refine ⟨List.suffix_rfl, hfaithful.nested hkey (hend ▸ hstop), hend ▸ hbehind.offset, ?_⟩
    rw [hend]
    exact hbehind.located.boundary_end
  · refine ⟨List.suffix_rfl, hfaithful.nested hkey (value_tree_stop value).le, ?_, ?_⟩
    · rw [← value_tree_stop]
      exact hstop.trans hbehind.offset
    · rw [← value_tree_stop]
      exact hfaithful.stop

theorem parseBindingValue_spec {parts : FieldParts} (hbehind : Behind source line lines)
    (hparts : PartsAt line parts) :
    Yields (parseBindingValue cfg parts.rest line parts.valueStart) lines (fun value rest =>
      EntryValue source line parts lines rest value (valueFieldEnd value line)) := by
  unfold parseBindingValue
  split
  · simp only [yields_bind, yields_lift, yields_pure]
    intro predicate hpredicate
    have hnested := parsePredicate_spec hpredicate hbehind.located hparts.value
    apply entryValue_line hbehind hparts
    obtain ⟨hstart, hfaithful, hstop⟩ := hnested.head
    have hspan := hfaithful.nested le_rfl le_rfl
    have hfirst := hfaithful.start
    have hend := hfaithful.stop
    rw [predicate_tree_start, predicate_tree_stop] at hspan
    rw [predicate_tree_start] at hstart hfirst
    rw [predicate_tree_stop] at hstop hend
    exact nested_spanNode hstart (hstop.trans (hbehind.located.position_le _).2) hfirst hend hspan
  · refine (parseInlineValue_spec hbehind hparts.value).mono (fun value rest hvalue => ?_)
    exact entryValue_inline hbehind hparts hvalue.1 hvalue.2

theorem bindingEntry_tree_stop (entry : Ast.BindingEntry) :
    entry.tree.stop = (bindingEntrySpan entry).stop.offset := by
  cases entry <;> rfl

theorem binding_tree_stop (binding : Ast.Binding) :
    binding.tree.stop = (bindingSpan binding).stop.offset := by
  cases binding <;> rfl

theorem entry_tree_stop (entry : Ast.Entry) :
    entry.tree.stop = (entrySpan entry).stop.offset := by
  cases entry <;> rfl

theorem self_nested {tree : Outline Char} (h : Faithful (Part source) tree) :
    Nested (Part source) tree.start tree.stop [tree] :=
  h.nested le_rfl le_rfl

theorem parseBinding_spec :
    Reads source (parseBinding cfg indent) (fun turn => turn.items.map Ast.Binding.tree) := by
  apply reads_skip
  intro lines hlines
  simp only [yields_bind, yields_peek]
  split
  · exact ⟨List.suffix_rfl, le_rfl⟩
  next line lines =>
    simp only [yields_bind, yields_lift]
    intro v hv
    obtain rfl := view_eq hv
    split
    · exact ⟨List.suffix_rfl, le_rfl⟩
    simp only [yields_bind, yields_lift]
    intro parts hsplit
    obtain ⟨hparts, -⟩ := splitEntry_spec hsplit
    have hbehind := hlines.behind
    have hname := hparts.name_nested hbehind.located
    simp only [yields_advance, List.tail_cons]
    split
    · simp only [yields_bind, yields_pure]
      refine (parseBindingValue_spec hbehind hparts).mono (fun value rest hvalue => ?_)
      exact ⟨hvalue.suffix.trans (List.suffix_cons _ _),
        entry_nested hbehind.located hparts hname hvalue⟩
    · simp only [yields_bind, yields_peek]
      refine (reads_collect bindingEntry_spec _ _ lines hbehind.consecutive).mono
        (fun entries rest hentries => ?_)
      split
      · trivial
      next last hlast =>
        refine ⟨hentries.1.trans (List.suffix_cons _ _), ?_⟩
        exact listed_nested hbehind (hparts.key.boundary hbehind.located)
          (hname.mono le_rfl (hbehind.located.position_le _).2) hentries.2
          (fun entry => self_nested) hlast (bindingEntry_tree_stop last).symm

theorem parseBindings_spec {parts : FieldParts} (hlines : Consecutive source (line :: lines))
    (hparts : PartsAt line parts) :
    ReadsEntry source line lines (parseBindings cfg eof (lineView line) parts indent) := by
  have hbehind := hlines.behind
  unfold ReadsEntry parseBindings
  simp only
  split
  · trivial
  · simp only [yields_bind, yields_advance, yields_peek, List.tail_cons]
    refine (reads_collect parseBinding_spec _ _ lines hbehind.consecutive).mono
      (fun bindings rest hbindings => ?_)
    split
    · trivial
    next last hlast =>
      refine ⟨hbindings.1.trans (List.suffix_cons _ _), ?_⟩
      exact listed_nested hbehind (hparts.key.boundary hbehind.located)
        (hbehind.located.nested_nil _) hbindings.2 (fun binding => self_nested) hlast
        (binding_tree_stop last).symm

theorem nodeEntry_spec {parentIndent : ℕ} :
    Reads source (nodeEntry cfg eof parentIndent) (fun turn => turn.items.map Ast.Entry.tree) := by
  intro lines hlines
  unfold nodeEntry
  rw [yields_bind]
  refine entryLine_spec.mono (fun found middle hmiddle => ?_)
  obtain ⟨hsuffix, hfound⟩ := hmiddle
  have hle := hlines.offset_le hsuffix
  split
  · exact ⟨hsuffix, hle⟩
  next v =>
    obtain ⟨line, more, rfl, rfl⟩ := hfound v rfl
    have hmiddle := hlines.suffix hsuffix
    simp only [yields_bind, yields_lift]
    intro parts hsplit
    obtain ⟨hparts, -⟩ := splitEntry_spec hsplit
    have hturn : ∀ {x : Parse Ast.Entry}, ReadsEntry source line more x →
        Yields (do let entry ← x; pure (Lap.next entry)) (line :: more) (fun turn rest =>
          rest <:+ lines ∧ Nested (Part source) (offsetOf source lines) (offsetOf source rest)
            (turn.items.map Ast.Entry.tree)) := by
      intro x hx
      rw [yields_bind]
      refine hx.mono (fun entry rest hentry => ?_)
      exact ⟨hentry.1.trans hsuffix, hentry.2.mono hle le_rfl⟩
    split
    · exact hturn (parseNeeds_spec hmiddle hparts)
    · split
      · exact hturn (parseRoutes_spec hmiddle hparts)
      · split
        · exact hturn (parseBindings_spec hmiddle hparts)
        · simp only [yields_bind, yields_pure]
          refine (parseGenericField_spec _ hmiddle).mono (fun field rest hfield => ?_)
          exact ⟨hfield.1.trans hsuffix, hfield.2.mono hle le_rfl⟩

theorem parseNodeEntries_spec {parentIndent : ℕ} :
    Reads source (parseNodeEntries cfg eof parentIndent)
      (fun entries => entries.map Ast.Entry.tree) := by
  intro lines hlines
  unfold parseNodeEntries
  rw [yields_bind, yields_peek]
  exact reads_collect nodeEntry_spec _ _ lines hlines

end Entries

section Document
variable {cfg : ParserConfig} {eof : SourcePosition} {source : Text} {lines rest : List SourceLine}
  {line : SourceLine}

theorem keyword?_append {word : String} {text found after : Text}
    (h : keyword? word text = some (found, after)) : text = found ++ after := by
  unfold keyword? at h
  simp only at h
  split at h
  · cases h
    exact (List.take_append_drop _ _).symm
  · cases h

theorem nodeLine?_spec {content word name : Text} {index : ℕ}
    (h : nodeLine? content = some (word, index, name)) :
    ∃ p q, content = p ++ name ++ q ∧ p.length = index := by
  unfold nodeLine? at h
  obtain ⟨⟨found, after⟩, hword, h⟩ := Option.bind_eq_some_iff.mp h
  have hcontent := keyword?_append hword
  have hblanks : after = after.takeWhile isIndent ++ after.drop (after.takeWhile isIndent).length :=
    List.prefix_iff_eq_append.mp (List.takeWhile_prefix _) |>.symm
  simp only at h
  split at h
  next c cs hdrop =>
    split at h
    · split at h
      · split at h
        · cases h
          obtain ⟨q, hq⟩ := hyphenTail_prefix (p := isFoldedAlnum) cs
          refine ⟨word ++ after.takeWhile isIndent, q, ?_, by simp⟩
          rw [hcontent]
          conv_lhs => rw [hblanks, hdrop, ← hq]
          simp
        · cases h
      · cases h
    · cases h
  · cases h

theorem parseVersion_spec :
    Reads source (parseVersion cfg eof) (fun version => [version.tree]) := by
  intro lines hlines
  unfold parseVersion
  simp only [yields_bind, yields_peek]
  split
  · trivial
  next line lines =>
    simp only [yields_bind, yields_lift]
    intro v hv
    obtain rfl := view_eq hv
    split
    · trivial
    split
    · trivial
    next word digits hversion =>
      simp only [yields_bind, yields_lift, yields_advance, yields_pure, List.tail_cons]
      intro value _
      have hbehind := hlines.behind
      have hend := lineEnd_offset hbehind.located
      refine ⟨List.suffix_cons _ _, nested_spanNode (hbehind.located.position_le _).1 ?_
        ((lineView_at line).boundary hbehind.located) ?_ ?_⟩
      · rw [hend]
        exact hbehind.offset
      · rw [hend]
        exact hbehind.located.boundary_end
      · rw [hend]
        exact hbehind.located.nested_nil _

theorem parseWorkflow_spec :
    Reads source (parseWorkflow cfg) (fun workflow => [workflow.tree]) := by
  intro lines hlines
  unfold parseWorkflow viewHere
  simp only [yields_bind, yields_peek]
  split
  · trivial
  next line lines =>
    simp only [yields_lift]
    intro v hv
    obtain rfl := view_eq hv
    intro word _
    have hbehind := hlines.behind
    simp only [yields_advance, List.tail_cons]
    refine (parseGenericEntries_spec lines hbehind.consecutive).mono
      (fun entries rest hentries => ?_)
    split
    · trivial
    next last hlast =>
      refine ⟨hentries.1.trans (List.suffix_cons _ _), ?_⟩
      exact listed_nested hbehind ((lineView_at line).boundary hbehind.located)
        (hbehind.located.nested_nil _) hentries.2 (fun field => self_nested) hlast rfl

theorem parseNode_spec : Reads source (parseNode cfg eof) (fun node => [node.tree]) := by
  intro lines hlines
  unfold parseNode viewHere
  simp only [yields_bind, yields_peek]
  split
  · trivial
  next line lines =>
    simp only [yields_lift]
    intro v hv
    obtain rfl := view_eq hv
    rintro ⟨word, name⟩ hheader
    have hbehind := hlines.behind
    have hat := lineView_at line
    have hname : Nested (Part source) (line.position (lineView line).contentIndex).offset
        line.endOffset [name.tree] := by
      unfold nodeHeader at hheader
      split at hheader
      · cases hheader
      · split at hheader
        · cases hheader
        next index text hnode =>
          cases hheader
          obtain ⟨p, q, hcontent, rfl⟩ := nodeLine?_spec hnode
          rw [hcontent] at hat
          exact (identifier_nested hbehind.located hat.left.right).mono
            (position_mono (by omega)) (hbehind.located.position_le _).2
    simp only [yields_advance, List.tail_cons]
    refine (parseNodeEntries_spec lines hbehind.consecutive).mono (fun entries rest hentries => ?_)
    split
    · trivial
    next last hlast =>
      refine ⟨hentries.1.trans (List.suffix_cons _ _), ?_⟩
      exact listed_nested hbehind ((lineView_at line).boundary hbehind.located) hname hentries.2
        (fun entry => self_nested) hlast (entry_tree_stop last).symm

theorem parseHeader_spec :
    Reads source (parseHeader cfg eof) (fun header => [header.1.tree, header.2.tree]) := by
  have hworkflow : Reads source (do skipIgnorable cfg; parseWorkflow cfg)
      (fun workflow => [workflow.tree]) := reads_skip parseWorkflow_spec
  unfold parseHeader
  apply reads_skip
  intro lines hlines
  simp only [yields_bind, yields_pure]
  refine (parseVersion_spec lines hlines).mono (fun version middle hversion => ?_)
  have hread := hworkflow middle (hlines.suffix hversion.1)
  rw [yields_bind] at hread
  refine hread.mono (fun _ middle' hmiddle => hmiddle.mono (fun workflow rest hrest => ?_))
  exact ⟨hrest.1.trans hversion.1, hversion.2.cons hrest.2⟩

theorem parseNodes_spec :
    Reads source (parseNodes cfg eof) (fun nodes => nodes.map Ast.NodeDecl.tree) := by
  intro lines hlines
  unfold parseNodes
  rw [yields_bind, yields_peek]
  refine reads_collect ?_ _ _ lines hlines
  intro lines hlines
  unfold moreNodes
  simp only [yields_bind]
  refine skipIgnorable_spec.mono (fun _ middle hmiddle => ?_)
  have hle := hlines.offset_le hmiddle
  have hstop : middle <:+ lines ∧ Nested (Part source) (offsetOf source lines)
      (offsetOf source middle) ((Lap.stop : Lap Ast.NodeDecl).items.map Ast.NodeDecl.tree) :=
    ⟨hmiddle, hle⟩
  rw [yields_peek]
  split
  · exact hstop
  · rw [yields_pure]
    split
    · simp only [yields_bind, yields_pure]
      refine (parseNode_spec _ (hlines.suffix hmiddle)).mono (fun node rest hnode => ?_)
      exact ⟨hnode.1.trans hmiddle, hnode.2.mono hle le_rfl⟩
    · exact hstop

theorem numberLines_getLast {number offset : ℕ} {raws : List Text} {line : SourceLine}
    (h : (numberLines number offset raws).getLast? = some line) :
    ∃ raw, raws.getLast? = some raw ∧ line.hasNewline = endsWithNewline raw := by
  induction raws generalizing number offset with
  | nil => cases h
  | cons raw raws ih =>
    cases raws with
    | nil =>
      cases h
      exact ⟨raw, rfl, rfl⟩
    | cons next raws =>
      obtain ⟨last, hlast, hnewline⟩ := ih h
      exact ⟨last, hlast, hnewline⟩

theorem physicalLines_getLast (h : endsWithNewline source = false)
    (hlast : (physicalLines source).getLast? = some line) : line.hasNewline = false := by
  unfold physicalLines at hlast
  simp only [h, Bool.false_eq_true, if_false] at hlast
  split at hlast
  · cases hlast
    rfl
  · obtain ⟨raw, hraw, hnewline⟩ := numberLines_getLast hlast
    obtain ⟨init, hinit⟩ := List.getLast?_eq_some_iff.mp hraw
    have hsource : source = init.flatten ++ raw := by
      rw [← splitlines_flatten source, hinit]
      simp
    rw [hnewline]
    cases hr : raw.getLast? with
    | none => simp [endsWithNewline, hr]
    | some c =>
      have hsame : source.getLast? = raw.getLast? := by
        rw [hsource, List.getLast?_append, hr]
        rfl
      rw [← h, endsWithNewline, endsWithNewline, hsame]

theorem Consecutive.getLast_end (h : Consecutive source lines) (hlast : lines.getLast? = some line) :
    LineAt source line ∧ line.endOffset = byteLength source := by
  obtain ⟨init, rfl⟩ := List.getLast?_eq_some_iff.mp hlast
  obtain ⟨hline, hend, -⟩ := h.suffix (List.suffix_append init [line])
  exact ⟨hline, hend⟩

theorem documentEnd_offset (source : Text) : (documentEnd source).offset = byteLength source := by
  have hlines := physicalLines_consecutive source
  unfold documentEnd
  split
  · rfl
  next hnewline =>
    rw [Bool.not_eq_true] at hnewline
    split
    next line hlast =>
      obtain ⟨hline, hend⟩ := hlines.getLast_end hlast
      have hnone := physicalLines_getLast hnewline hlast
      have hoffset := lineEnd_offset hline
      rw [SourceLine.lineEnd, if_neg (by simp [hnone]), hend] at hoffset
      exact hoffset
    next hnone =>
      have hnil := List.getLast?_eq_none_iff.mp hnone
      unfold physicalLines at hnil
      simp only [hnewline, Bool.false_eq_true, if_false] at hnil
      split at hnil
      · cases hnil
      next hempty => exact absurd (by rw [hnil]; rfl) hempty

def Decodes (source : Text) (start stop : ℕ) (text : Text) : Prop :=
  ((List.utf8Encode source).extract start stop).utf8Decode? = some text.toArray

theorem utf8Encode_size (text : Text) : (List.utf8Encode text).size = byteLength text := by
  induction text with
  | nil => rfl
  | cons c cs ih =>
    rw [List.utf8Encode_cons, ByteArray.size_append, ih, List.utf8Encode_singleton]
    simp [byteLength]

theorem decodes_of_part {start stop : ℕ} {text : Text} (h : Part source start stop text) :
    Decodes source start stop text := by
  obtain ⟨before, after, rfl, rfl, rfl⟩ := h
  have hbytes : ((List.utf8Encode (before ++ text ++ after)).extract
      (weight Char.utf8Size before) (weight Char.utf8Size (before ++ text))) =
      List.utf8Encode text := by
    have hstop : (List.utf8Encode (before ++ text)).size = weight Char.utf8Size (before ++ text) :=
      utf8Encode_size _
    rw [List.utf8Encode_append (l := before ++ text), ← hstop, ByteArray.extract_append_size_left,
      List.utf8Encode_append]
    apply ByteArray.extract_append_eq_right
    · exact (utf8Encode_size before).symm
    · exact ByteArray.size_append
  rw [Decodes, hbytes]
  exact List.utf8Decode?_utf8Encode

/-- Every span of an accepted document ends no earlier than it starts and lies in
the span of its parent, the parts of a node follow each other, and the bytes of a
span decode to the text its node records. -/
theorem parse_faithful {document : Ast.Document} (h : parse cfg source = .ok document) :
    Faithful (Decodes source) document.tree := by
  have hlines := physicalLines_consecutive source
  have hread : Yields (do
      let header ← parseHeader cfg (documentEnd source)
      let nodes ← parseNodes cfg (documentEnd source)
      return documentOf cfg source header nodes) (physicalLines source)
      (fun document _ => Faithful (Part source) document.tree) := by
    simp only [yields_bind, yields_pure]
    refine (parseHeader_spec _ hlines).mono (fun header middle hheader => ?_)
    have hmiddle := hlines.suffix hheader.1
    refine (parseNodes_spec _ hmiddle).mono (fun nodes rest hnodes => ?_)
    have hchildren := hheader.2.append hnodes.2
    have hrest := (hmiddle.suffix hnodes.1).boundary.le
    rw [← byteLength_eq_weight, ← documentEnd_offset] at hrest
    refine faithful_node boundary_zero ?_ (hchildren.mono (Nat.zero_le _) hrest)
    change Boundary Char.utf8Size source (documentEnd source).offset
    rw [documentEnd_offset]
    exact boundary_weight
  unfold parse at h
  simp only at h
  split at h
  next document' rest hrun =>
    cases h
    exact Faithful.imp (fun _ _ _ => decodes_of_part) _ (hread.ok hrun)
  · cases h

def greetingSource : Text := sourceOf ["Rattish: 1", "Workflow:", "  id: \"\u00e9\"", "Node greet:",
  "  type: agent", "  with:", "    who: input.name", "  to:", "    - done when succeeded",
  "Node done:", "  type: finish"]

theorem greeting_faithful : ∃ document, parse asciiConfig greetingSource = .ok document ∧
    document.nodes.length = 2 ∧ Faithful (Decodes greetingSource) document.tree := by
  have hnodes : (parse asciiConfig greetingSource).toOption.map (fun d => d.nodes.length) =
      some 2 := by
    rw [greetingSource, sourceOf_cons, sourceOf_cons, sourceOf_cons, sourceOf_cons, sourceOf_cons,
      sourceOf_cons, sourceOf_cons, sourceOf_cons, sourceOf_cons, sourceOf_cons, sourceOf_cons,
      sourceOf_nil]
    decide +kernel
  cases hparse : parse asciiConfig greetingSource with
  | error e =>
    rw [hparse] at hnodes
    cases hnodes
  | ok document =>
    rw [hparse] at hnodes
    exact ⟨document, rfl, Option.some.inj hnodes, parse_faithful hparse⟩

end Document

end Raticode.Rattish
