import Raticode.RattishCursor

/-! Where the fields of a document lie: literal blocks, lists and maps, with what
they nest. -/
namespace Raticode.Rattish
open SpanTree PyText Attempt

section Blocks
variable {cfg : ParserConfig} {source : Text} {lines rest : List SourceLine} {line marker : SourceLine}
  {indent : ℕ}

theorem takeBlock_spec : Yields (takeBlock cfg indent) lines (fun views rest =>
    ∃ taken, lines = taken ++ rest ∧ views = taken.map lineView) := by
  induction lines with
  | nil => exact ⟨[], rfl, rfl⟩
  | cons line lines ih =>
    unfold Yields Wp takeBlock
    cases hview : view cfg line with
    | error e => trivial
    | ok v =>
      have hrest : Yields (takeBlock cfg indent) lines (fun views rest =>
        ∃ taken, lines = taken ++ rest ∧ views = taken.map lineView) := ih
      simp only
      split
      next h =>
        split at h
        · cases h
          exact ⟨[], rfl, rfl⟩
        · split at h
          next hblock =>
            cases h
            obtain ⟨taken, rfl, rfl⟩ := hrest.ok hblock
            exact ⟨line :: taken, rfl, by rw [List.map_cons, view_eq hview]⟩
          · cases h
      next => trivial

theorem Consecutive.getLast {taken : List SourceLine} {last : SourceLine}
    (h : Consecutive source (taken ++ rest)) (hlast : taken.getLast? = some last) :
    LineAt source last ∧ last.endOffset = offsetOf source rest := by
  obtain ⟨init, rfl⟩ := List.getLast?_eq_some_iff.mp hlast
  have hsuffix : last :: rest <:+ init ++ [last] ++ rest := ⟨init, by simp⟩
  have hline := h.suffix hsuffix
  exact ⟨hline.1, hline.2.1⟩

theorem parseBlockString_spec (hmarker : LineAt source marker)
    (hlines : Consecutive source lines) (hoffset : marker.endOffset = offsetOf source lines) :
    Yields (parseBlockString cfg indent marker) lines (fun value rest => rest <:+ lines ∧
      Nested (Part source) (offsetOf source lines) (offsetOf source rest) [value.tree]) := by
  unfold parseBlockString
  simp only [yields_bind, yields_peek]
  refine takeBlock_spec.mono (fun views rest hviews => ?_)
  obtain ⟨taken, rfl, rfl⟩ := hviews
  simp only [yields_pure]
  refine ⟨List.suffix_append _ _, ?_⟩
  have hrest := hlines.offset_le (List.suffix_append taken rest)
  have hstartBoundary := hlines.boundary
  cases hlast : taken.getLast? with
  | none =>
    -- The block is empty: it starts and ends behind its marker.
    obtain rfl := List.getLast?_eq_none_iff.mp hlast
    have hstop : marker.lineEnd.offset = offsetOf source rest := by
      rw [lineEnd_offset hmarker]
      exact hoffset
    cases rest with
    | nil =>
      have hboundary : Boundary Char.utf8Size source marker.lineEnd.offset := by
        rw [hstop]
        exact hstartBoundary
      exact nested_spanNode hstop.ge hstop.le hboundary hboundary le_rfl
    | cons line rest =>
      have hboundary : Boundary Char.utf8Size source marker.lineEnd.offset := by
        rw [hstop]
        exact hstartBoundary
      exact nested_spanNode le_rfl hstop.le hstartBoundary hboundary hstop.ge
  | some last =>
    obtain ⟨hline, hend⟩ := hlines.getLast hlast
    have hstop : last.lineEnd.offset = offsetOf source rest := by
      rw [lineEnd_offset hline]
      exact hend
    have hviews : (taken.map lineView).getLast? = some (lineView last) := by
      rw [List.getLast?_map, hlast]
      rfl
    have hboundary : Boundary Char.utf8Size source last.lineEnd.offset := by
      rw [hstop]
      exact (hlines.suffix (List.suffix_append taken rest)).boundary
    cases taken with
    | nil => cases hlast
    | cons first taken =>
      simp only [hviews]
      exact nested_spanNode le_rfl hstop.le hstartBoundary hboundary (hrest.trans hstop.ge)

theorem nestedValue_spec {blockValue : ℕ → Parse Ast.Val} {missing : Failure}
    (hblock : ∀ indent, Reads source (blockValue indent) (fun value => [value.tree])) :
    Reads source (nestedValue cfg blockValue indent missing) (fun value => [value.tree]) := by
  apply reads_skip
  intro lines hlines
  simp only [yields_bind, yields_peek]
  split
  · trivial
  · simp only [yields_bind, yields_lift]
    intro v _
    split
    · trivial
    · exact hblock indent _ hlines

theorem mapKeyJson_tree (cfg : ParserConfig) {key : Text} {i : ℕ} (hline : LineAt source line) (hat : At line i key) :
    Nested (Part source) (line.position i).offset (line.position (i + key.length)).offset
      [(mapKeyJson cfg key (line.span i (i + key.length))).tree] := by
  have hleaf : Nested (Part source) (line.position i).offset
      (line.position (i + key.length)).offset
      [spanNode (line.span i (i + key.length)) (· = key) []] :=
    (hat.leaf hline).nested le_rfl le_rfl
  unfold mapKeyJson
  split
  · exact hleaf
  · exact hleaf

structure EntryValue (source : Text) (line : SourceLine) (parts : FieldParts)
    (lines rest : List SourceLine) (value : Ast.Val) (stop : SourcePosition) : Prop where
  suffix : rest <:+ lines
  nested : Nested (Part source) (line.position parts.keyEnd).offset stop.offset [value.tree]
  before : stop.offset ≤ offsetOf source rest
  boundary : Boundary Char.utf8Size source stop.offset

theorem entryValue_inline {parts : FieldParts} {value : Ast.Val}
    (hbehind : Behind source line lines) (hparts : PartsAt line parts) (hsuffix : rest <:+ lines)
    (h : ValueAt source line parts.valueStart rest value) :
    EntryValue source line parts lines rest value (valueFieldEnd value line) := by
  obtain ⟨hstop, hbefore, hboundary⟩ := valueFieldEnd_spec hbehind hsuffix h
  refine ⟨hsuffix, h.faithful.nested ?_ hstop, hbefore, hboundary⟩
  rw [h.start]
  exact position_mono hparts.order

theorem entryValue_block {parts : FieldParts} {value : Ast.Val}
    (hbehind : Behind source line lines) (hsuffix : rest <:+ lines)
    (h : Nested (Part source) (offsetOf source lines) (offsetOf source rest) [value.tree]) :
    EntryValue source line parts lines rest value (valueSpan value).stop := by
  obtain ⟨hstart, hfaithful, hstop⟩ := h.head
  rw [value_tree_stop] at hstop
  refine ⟨hsuffix, hfaithful.nested ?_ (value_tree_stop value).le, hstop, ?_⟩
  · exact ((hbehind.located.position_le _).2.trans hbehind.offset).trans hstart
  · rw [← value_tree_stop]
    exact hfaithful.stop

theorem entry_nested {parts : FieldParts} {value : Ast.Val} {stop : SourcePosition} {key : Outline Char}
    (hline : LineAt source line) (hparts : PartsAt line parts)
    (hkey : Nested (Part source) (line.position parts.keyStart).offset
      (line.position parts.keyEnd).offset [key])
    (h : EntryValue source line parts lines rest value stop) :
    Nested (Part source) line.startOffset (offsetOf source rest)
      [spanNode ⟨line.position parts.keyStart, stop⟩ unspelled [key, value.tree]] :=
  nested_spanNode (hline.position_le _).1 h.before (hparts.key.boundary hline) h.boundary
    (hkey.cons h.nested)

def mapEntryTree (entry : Ast.MapKey × Ast.Val × SourceSpan) : Outline Char :=
  spanNode entry.2.2 unspelled [entry.1.tree, entry.2.1.tree]

theorem entryTrees_eq (entries : List (Ast.MapKey × Ast.Val × SourceSpan)) :
    Ast.entryTrees entries = entries.map mapEntryTree := by
  induction entries with
  | nil => rfl
  | cons entry entries ih => simp [Ast.entryTrees, mapEntryTree, ih]

theorem itemTrees_eq (items : List Ast.Val) : Ast.itemTrees items = items.map Ast.Val.tree := by
  induction items with
  | nil => rfl
  | cons item items ih => simp [Ast.itemTrees, ih]

theorem mapEntry_spec {blockValue : ℕ → Parse Ast.Val}
    (hblock : ∀ indent, Reads source (blockValue indent) (fun value => [value.tree])) :
    Reads source (mapEntry cfg blockValue indent) (fun turn => turn.items.map mapEntryTree) := by
  apply reads_skip
  intro lines hlines
  simp only [yields_bind, yields_peek]
  split
  · exact ⟨List.suffix_rfl, le_rfl⟩
  next line lines =>
    simp only [yields_bind, yields_lift]
    intro v hv
    obtain rfl := view_eq hv
    split
    · exact ⟨List.suffix_rfl, le_rfl⟩
    split
    · trivial
    simp only [yields_bind, yields_lift]
    intro parts hsplit
    obtain ⟨hparts, -⟩ := splitEntry_spec hsplit
    have hbehind := hlines.behind
    simp only [yields_advance, List.tail_cons]
    have hkey := mapKeyJson_tree cfg hbehind.located hparts.key
    rw [← hparts.keyEnd] at hkey
    -- Whichever way the value was read, the entry goes from its key to the end.
    have hfinish : ∀ (value : Ast.Val) (stop : SourcePosition) (rest : List SourceLine),
        EntryValue source line parts lines rest value stop →
        Yields (moreEntries cfg indent) rest (fun more after =>
          let entry := (mapKeyJson cfg parts.key (line.span parts.keyStart parts.keyEnd), value,
            (⟨line.position parts.keyStart, stop⟩ : SourceSpan))
          Yields (if more = true then pure (Lap.next entry) else pure (Lap.last entry)) after
            (fun turn after => after <:+ line :: lines ∧ Nested (Part source)
              (offsetOf source (line :: lines)) (offsetOf source after)
              (turn.items.map mapEntryTree))) := by
      intro value stop rest hvalue
      refine moreEntries_spec.mono (fun more after hafter => ?_)
      have hsuffix : after <:+ line :: lines :=
        (hafter.trans hvalue.suffix).trans (List.suffix_cons _ _)
      have hle := (hbehind.consecutive.suffix hvalue.suffix).offset_le hafter
      have hentry := (entry_nested hbehind.located hparts hkey hvalue).mono le_rfl hle
      cases more with
      | true => exact ⟨hsuffix, hentry⟩
      | false => exact ⟨hsuffix, hentry⟩
    split
    · simp only [yields_bind, yields_pure]
      refine (parseInlineValue_spec hbehind hparts.value).mono (fun value rest hvalue => ?_)
      exact hfinish _ _ _ (entryValue_inline hbehind hparts hvalue.1 hvalue.2)
    · simp only [yields_bind, yields_pure]
      refine (nestedValue_spec hblock lines hbehind.consecutive).mono (fun value rest hvalue => ?_)
      exact hfinish _ _ _ (entryValue_block hbehind hvalue.1 hvalue.2)

theorem Nested.inner {α : Type} {outer inner : α → Outline Char} {items : List α} {low high : ℕ}
    (h : Nested (Part source) low high (items.map outer))
    (hinner : ∀ a, Faithful (Part source) (outer a) →
      Nested (Part source) (outer a).start (outer a).stop [inner a]) :
    Nested (Part source) low high (items.map inner) := by
  induction items generalizing low with
  | nil => exact h
  | cons a items ih =>
    obtain ⟨hlow, houter, hrest⟩ := h
    exact ((hinner a houter).mono hlow le_rfl).cons (ih hrest)

theorem parseValueMap_spec {blockValue : ℕ → Parse Ast.Val}
    (hblock : ∀ indent, Reads source (blockValue indent) (fun value => [value.tree])) :
    Reads source (parseValueMap cfg blockValue indent) (fun value => [value.tree]) := by
  intro lines hlines
  unfold parseValueMap
  simp only [yields_bind, yields_peek]
  refine (reads_collect (mapEntry_spec hblock) _ _ lines hlines).mono (fun entries rest h => ?_)
  obtain ⟨hsuffix, hnested⟩ := h
  split
  next hfirst hlast =>
    have hrow := Nested.row hnested hfirst hlast
    refine ⟨hsuffix, nested_spanNode hrow.low hrow.high hrow.start hrow.stop ?_⟩
    rw [entryTrees_eq]
    exact hrow.nested
  · trivial

def listItemTree (item : Ast.Val × SourceSpan) : Outline Char :=
  spanNode item.2 unspelled [item.1.tree]

theorem listItem_spec {blockValue : ℕ → Parse Ast.Val}
    (hblock : ∀ indent, Reads source (blockValue indent) (fun value => [value.tree])) :
    Reads source (listItem cfg blockValue indent) (fun turn => turn.items.map listItemTree) := by
  apply reads_skip
  intro lines hlines
  simp only [yields_bind, yields_peek]
  split
  · exact ⟨List.suffix_rfl, le_rfl⟩
  next line lines =>
    simp only [yields_bind, yields_lift]
    intro v hv
    obtain rfl := view_eq hv
    split
    next raw hcontent =>
      split
      · exact ⟨List.suffix_rfl, le_rfl⟩
      split
      · trivial
      have hbehind := hlines.behind
      have hline := hbehind.located
      have hat := lineView_at line
      rw [hcontent] at hat
      have hraw : At line ((lineView line).contentIndex + 1) raw := At.right (t := ['-']) hat
      have hdash := hat.boundary hline
      have hlow := (hline.position_le (lineView line).contentIndex).1
      simp only [yields_bind, yields_advance, List.tail_cons]
      split
      · simp only [yields_bind, yields_pure]
        refine (parseInlineValue_spec hbehind (inlineText_at hraw)).mono
          (fun value rest hvalue => ?_)
        obtain ⟨hstop, hbefore, hboundary⟩ := valueFieldEnd_spec hbehind hvalue.1 hvalue.2
        refine ⟨hvalue.1.trans (List.suffix_cons _ _), nested_spanNode hlow hbefore hdash hboundary ?_⟩
        refine hvalue.2.faithful.nested ?_ hstop
        rw [hvalue.2.start]
        apply position_mono
        omega
      · simp only [yields_bind, yields_pure]
        have hread : Reads source (do skipIgnorable cfg; parseValueMap cfg blockValue (indent + 2))
            (fun value => [value.tree]) := reads_skip (parseValueMap_spec hblock)
        have hmap := hread lines hbehind.consecutive
        rw [yields_bind] at hmap
        refine hmap.mono (fun _ middle hmiddle => hmiddle.mono (fun value rest hvalue => ?_))
        obtain ⟨hstart, hfaithful, hstop⟩ := hvalue.2.head
        have hboundary := hfaithful.stop
        rw [value_tree_stop] at hstop hboundary
        refine ⟨hvalue.1.trans (List.suffix_cons _ _), nested_spanNode hlow hstop hdash hboundary ?_⟩
        refine hfaithful.nested ?_ (value_tree_stop value).le
        exact ((hline.position_le _).2.trans hbehind.offset).trans hstart
    · exact ⟨List.suffix_rfl, le_rfl⟩

theorem parseValueList_spec {blockValue : ℕ → Parse Ast.Val}
    (hblock : ∀ indent, Reads source (blockValue indent) (fun value => [value.tree])) :
    Reads source (parseValueList cfg blockValue indent) (fun value => [value.tree]) := by
  intro lines hlines
  unfold parseValueList
  simp only [yields_bind, yields_peek]
  refine (reads_collect (listItem_spec hblock) _ _ lines hlines).mono (fun items rest h => ?_)
  obtain ⟨hsuffix, hnested⟩ := h
  split
  next hfirst hlast =>
    have hrow := Nested.row hnested hfirst hlast
    refine ⟨hsuffix, nested_spanNode hrow.low hrow.high hrow.start hrow.stop ?_⟩
    rw [itemTrees_eq, List.map_map]
    exact Nested.inner hrow.nested (fun item hitem => hitem.2)
  · trivial

theorem parseBlockValue_spec (n : ℕ) :
    ∀ indent, Reads source (parseBlockValue cfg n indent) (fun value => [value.tree]) := by
  induction n with
  | zero => exact fun indent lines _ => trivial
  | succ n ih =>
    intro indent lines hlines
    unfold parseBlockValue viewHere
    simp only [yields_bind, yields_peek]
    split
    · trivial
    next line lines =>
      rw [yields_lift]
      intro v _
      split
      · trivial
      · split
        · split
          · exact parseValueList_spec ih _ hlines
          · exact parseValueMap_spec ih _ hlines
        · exact parseValueMap_spec ih _ hlines

theorem parseIdentifierValue_spec {text : Text} {start : ℕ} (hline : LineAt source line)
    (hat : At line start text) :
    Yields (parseIdentifierValue cfg text line start) lines
      (fun value rest => rest <:+ lines ∧ ValueAt source line start rest value) := by
  unfold parseIdentifierValue
  split
  · exact ⟨List.suffix_rfl, leaf_valueAt hline hat rfl rfl⟩
  · trivial

theorem identifier_nested {i : ℕ} {text : Text} (hline : LineAt source line) (hat : At line i text) :
    Nested (Part source) (line.position i).offset (line.position (i + text.length)).offset
      [(identifierJson text (line.span i (i + text.length))).tree] :=
  (hat.leaf hline).nested le_rfl le_rfl

theorem PartsAt.name_nested {parts : FieldParts} (hparts : PartsAt line parts)
    (hline : LineAt source line) :
    Nested (Part source) (line.position parts.keyStart).offset (line.position parts.keyEnd).offset
      [(identifierJson parts.key (line.span parts.keyStart parts.keyEnd)).tree] := by
  rw [hparts.keyEnd]
  exact identifier_nested hline hparts.key

theorem parseGenericField_spec :
    Reads source (parseGenericField cfg indent) (fun field => [field.tree]) := by
  intro lines hlines
  unfold parseGenericField viewHere
  simp only [yields_bind, yields_peek]
  split
  · trivial
  next line lines =>
    rw [yields_lift]
    intro v hv
    obtain rfl := view_eq hv
    simp only [yields_lift]
    intro parts hsplit
    obtain ⟨hparts, -⟩ := splitEntry_spec hsplit
    have hbehind := hlines.behind
    have hline : LineAt source (lineView line).line := hbehind.located
    simp only [yields_advance, List.tail_cons]
    have hfinish : ∀ (value : Ast.Val) (stop : SourcePosition) (rest : List SourceLine),
        EntryValue source line parts lines rest value stop → rest <:+ line :: lines ∧
        Nested (Part source) (offsetOf source (line :: lines)) (offsetOf source rest)
          [(⟨identifierJson parts.key (line.span parts.keyStart parts.keyEnd), value,
            ⟨line.position parts.keyStart, stop⟩⟩ : Ast.Field).tree] := by
      intro value stop rest hvalue
      exact ⟨hvalue.suffix.trans (List.suffix_cons _ _),
        entry_nested hline hparts (hparts.name_nested hline) hvalue⟩
    split
    · -- A literal block starts behind its marker.
      simp only [yields_bind, yields_pure]
      refine (parseBlockString_spec hline hbehind.consecutive hlines.2.1).mono
        (fun value rest hvalue => ?_)
      exact hfinish _ _ _ (entryValue_block hbehind hvalue.1 hvalue.2)
    · split
      · split
        · simp only [yields_bind, yields_pure]
          refine (parseIdentifierValue_spec hline hparts.value).mono (fun value rest hvalue => ?_)
          exact hfinish _ _ _ (entryValue_inline hbehind hparts hvalue.1 hvalue.2)
        · simp only [yields_bind, yields_pure]
          refine (parseInlineValue_spec hbehind hparts.value).mono (fun value rest hvalue => ?_)
          exact hfinish _ _ _ (entryValue_inline hbehind hparts hvalue.1 hvalue.2)
      · simp only [yields_bind, yields_peek, yields_pure]
        refine (nestedValue_spec (parseBlockValue_spec _) lines hbehind.consecutive).mono
          (fun value rest hvalue => ?_)
        exact hfinish _ _ _ (entryValue_block hbehind hvalue.1 hvalue.2)

theorem entryLine_spec {parentIndent : ℕ} :
    Yields (entryLine cfg parentIndent) lines (fun found rest => rest <:+ lines ∧
      ∀ v, found = some v → ∃ line more, rest = line :: more ∧ v = lineView line) := by
  unfold entryLine
  rw [yields_bind]
  refine skipIgnorable_spec.mono (fun _ rest hsuffix => ?_)
  simp only [yields_bind, yields_peek]
  split
  · exact ⟨hsuffix, by simp⟩
  next line more =>
    split
    · exact ⟨hsuffix, by simp⟩
    · simp only [yields_bind, yields_lift]
      intro v hv
      obtain rfl := view_eq hv
      split
      · exact ⟨hsuffix, by simp⟩
      · split
        · trivial
        · refine ⟨hsuffix, fun w hw => ?_⟩
          cases hw
          exact ⟨line, more, rfl, rfl⟩

theorem parseGenericEntries_spec {parentIndent : ℕ} :
    Reads source (parseGenericEntries cfg parentIndent)
      (fun fields => fields.map Ast.Field.tree) := by
  intro lines hlines
  unfold parseGenericEntries
  rw [yields_bind, yields_peek]
  refine reads_collect ?_ _ _ lines hlines
  intro lines hlines
  rw [yields_bind]
  refine entryLine_spec.mono (fun found middle hmiddle => ?_)
  have hle := hlines.offset_le hmiddle.1
  split
  · exact ⟨hmiddle.1, hle⟩
  · simp only [yields_bind, yields_pure]
    refine (parseGenericField_spec middle (hlines.suffix hmiddle.1)).mono
      (fun field rest hfield => ?_)
    exact ⟨hfield.1.trans hmiddle.1, hfield.2.mono hle le_rfl⟩

end Blocks

end Raticode.Rattish
