import Raticode.RattishParser
import Raticode.SpanTree

/-! The spans of a document as a tree, and where the readers of one line put them.
A reference records no text of its own; it stands for its root and its selectors,
each in its notation. -/
namespace Raticode.Rattish
open SpanTree PyText

def spanNode (span : SourceSpan) (covers : Text → Prop) (children : List (Outline Char)) : Outline Char :=
  .node span.start.offset span.stop.offset covers children

abbrev Part (source : Text) : ℕ → ℕ → Text → Prop := Slice Char.utf8Size source

def unspelled : Text → Prop := fun _ => True

namespace Ast

def Identifier.tree (i : Identifier) : Outline Char := spanNode i.span (· = i.source) []

def RefSelector.Spelled : RefSelector → Text → Prop
  | .dot source _ _, text => text = '.' :: source
  | .bracket member _, text => ∃ inner options, text = '[' :: inner ++ [']'] ∧
      PyJson.loads options inner = .ok (.str member)
  | .index source _ _, text => text = '[' :: source ++ [']']

def RefSelector.tree : RefSelector → Outline Char
  | .dot source _ span => spanNode span (· = source) []
  | .bracket member span => spanNode span (RefSelector.Spelled (.bracket member span)) []
  | .index source value span => spanNode span (RefSelector.Spelled (.index source value span)) []

def Reference.Spelled (r : Reference) (text : Text) : Prop :=
  ∃ parts, List.Forall₂ RefSelector.Spelled r.selectors parts ∧
    text = r.root.source ++ parts.flatten

def Reference.tree (r : Reference) : Outline Char :=
  spanNode r.span r.Spelled (r.root.tree :: r.selectors.map RefSelector.tree)

def Comparable.tree : Comparable → Outline Char
  | .reference r => r.tree
  | .string source _ span => spanNode span (· = source) []
  | .boolean source _ span => spanNode span (· = source) []
  | .null source span => spanNode span (· = source) []
  | .integer source _ span => spanNode span (· = source) []
  | .number source _ span => spanNode span (· = source) []

def Predicate.tree : Predicate → Outline Char
  | .logical _ _ left right span => spanNode span unspelled [left.tree, right.tree]
  | .not _ operand span => spanNode span unspelled [operand.tree]
  | .group operand span => spanNode span unspelled [operand.tree]
  | .status source _ span => spanNode span (· = source) []
  | .exists _ r span => spanNode span unspelled [r.tree]
  | .nullTest r _ _ span => spanNode span unspelled [r.tree]
  | .comparison _ _ left right span => spanNode span unspelled [left.tree, right.tree]
  | .reference r span => spanNode span unspelled [r.tree]

def MapKey.tree : MapKey → Outline Char
  | .identifier i => i.tree
  | .string source _ span => spanNode span (· = source) []

mutual
def Val.tree : Val → Outline Char
  | .identifierValue source _ span => spanNode span (· = source) []
  | .string .block _ _ span => spanNode span unspelled []
  | .string .quoted source _ span => spanNode span (· = source) []
  | .string .bare source _ span => spanNode span (· = source) []
  | .json _ _ span => spanNode span unspelled []
  | .boolean source _ span => spanNode span (· = source) []
  | .none source span => spanNode span (· = source) []
  | .null source span => spanNode span (· = source) []
  | .duration source _ _ _ span => spanNode span (· = source) []
  | .integer source _ span => spanNode span (· = source) []
  | .number source _ span => spanNode span (· = source) []
  | .reference r => r.tree
  | .expression e span => spanNode span unspelled [e.tree]
  | .list items span => spanNode span unspelled (itemTrees items)
  | .map entries span => spanNode span unspelled (entryTrees entries)

def itemTrees : List Val → List (Outline Char)
  | [] => []
  | value :: values => value.tree :: itemTrees values

def entryTrees : List (MapKey × Val × SourceSpan) → List (Outline Char)
  | [] => []
  | (key, value, span) :: entries =>
    spanNode span unspelled [key.tree, value.tree] :: entryTrees entries
end

def Field.tree (f : Field) : Outline Char := spanNode f.span unspelled [f.name.tree, f.value.tree]

def RouteMode.trees : RouteMode → List (Outline Char)
  | .unconditional => []
  | .when predicate => [predicate.tree]
  | .otherwise => []

def Route.tree (r : Route) : Outline Char := spanNode r.span unspelled (r.target.tree :: r.mode.trees)

def BindingEntry.tree : BindingEntry → Outline Char
  | .source _ reference span => spanNode span unspelled [reference.tree]
  | .default _ value span => spanNode span unspelled [value.tree]

def Binding.tree : Binding → Outline Char
  | .compact name value span => spanNode span unspelled [name.tree, value.tree]
  | .expanded name entries span =>
    spanNode span unspelled (name.tree :: entries.map BindingEntry.tree)

def Entry.tree : Entry → Outline Char
  | .field f => f.tree
  | .needs _ _ nodes span => spanNode span unspelled (nodes.map Identifier.tree)
  | .routes _ _ rs span => spanNode span unspelled (rs.map Route.tree)
  | .bindings _ bs span => spanNode span unspelled (bs.map Binding.tree)

def Version.tree (v : Version) : Outline Char := spanNode v.span unspelled []

def Workflow.tree (w : Workflow) : Outline Char :=
  spanNode w.span unspelled (w.entries.map Field.tree)

def NodeDecl.tree (n : NodeDecl) : Outline Char :=
  spanNode n.span unspelled (n.name.tree :: n.entries.map Entry.tree)

def Document.tree (d : Document) : Outline Char :=
  spanNode d.span unspelled (d.version.tree :: d.workflow.tree :: d.nodes.map NodeDecl.tree)

end Ast

section Line
variable {source : Text} {line : SourceLine} {i j : ℕ} {t u : Text}

theorem byteLength_eq_weight (text : Text) : byteLength text = weight Char.utf8Size text := rfl

structure LineAt (source : Text) (line : SourceLine) : Prop where
  split : ∃ before newline after, source = before ++ line.text ++ newline ++ after ∧
    line.startOffset = byteLength before ∧
    line.endOffset = byteLength (before ++ line.text ++ newline) ∧
    (line.hasNewline = false → newline = [])
  unbroken : '\n' ∉ line.text ∧ '\r' ∉ line.text

def At (line : SourceLine) (i : ℕ) (t : Text) : Prop :=
  ∃ p q, line.text = p ++ t ++ q ∧ p.length = i

theorem At.left (h : At line i (t ++ u)) : At line i t := by
  obtain ⟨p, q, htext, hp⟩ := h
  exact ⟨p, u ++ q, by simp [htext], hp⟩

theorem At.right (h : At line i (t ++ u)) : At line (i + t.length) u := by
  obtain ⟨p, q, htext, hp⟩ := h
  exact ⟨p ++ t, q, by simp [htext], by simp [hp]⟩

theorem At.prefix (h : At line i u) (ht : t <+: u) : At line i t := by
  obtain ⟨v, rfl⟩ := ht
  exact h.left

theorem At.drop (h : At line i u) (n : ℕ) (hn : n ≤ u.length) : At line (i + n) (u.drop n) := by
  rw [← List.take_append_drop n u] at h
  have hright := h.right
  rwa [List.length_take_of_le hn] at hright

theorem position_mono (hij : i ≤ j) : (line.position i).offset ≤ (line.position j).offset := by
  have hpre : line.text.take i <+: line.text.take j := List.take_prefix_take_left hij
  simp only [SourceLine.position, byteLength_eq_weight]
  exact Nat.add_le_add_left (weight_mono hpre) _

theorem At.slice (h : At line i t) (hline : LineAt source line) :
    Part source (line.position i).offset (line.position (i + t.length)).offset t := by
  obtain ⟨before, newline, after, hsource, hstart, -, -⟩ := hline.split
  obtain ⟨p, q, htext, rfl⟩ := h
  refine ⟨before ++ p, q ++ newline ++ after, by simp [hsource, htext], ?_, ?_⟩
  · have htake : line.text.take p.length = p := by simp [htext]
    simp [SourceLine.position, htake, hstart, byteLength_eq_weight]
  · have htake : line.text.take (p.length + t.length) = p ++ t := by
      rw [htext, ← List.length_append, List.take_left]
    simp [SourceLine.position, htake, hstart, byteLength_eq_weight, add_assoc]

theorem At.boundary (h : At line i t) (hline : LineAt source line) :
    Boundary Char.utf8Size source (line.position i).offset :=
  (h.slice hline).start

theorem lineEnd_offset (hline : LineAt source line) : line.lineEnd.offset = line.endOffset := by
  obtain ⟨before, newline, after, hsource, hstart, hend, hnone⟩ := hline.split
  cases hn : line.hasNewline with
  | true => simp [SourceLine.lineEnd, hn]
  | false =>
    simp [SourceLine.lineEnd, hn, SourceLine.position, hstart, hend, hnone hn,
      byteLength_eq_weight]

theorem LineAt.boundary_end (hline : LineAt source line) :
    Boundary Char.utf8Size source line.endOffset := by
  obtain ⟨before, newline, after, hsource, -, hend, -⟩ := hline.split
  exact ⟨before ++ line.text ++ newline, ⟨after, by simp [hsource]⟩, hend.symm⟩

theorem LineAt.boundary_start (hline : LineAt source line) :
    Boundary Char.utf8Size source line.startOffset := by
  obtain ⟨before, newline, after, hsource, hstart, -, -⟩ := hline.split
  exact ⟨before, ⟨line.text ++ newline ++ after, by simp [hsource]⟩, hstart.symm⟩

theorem LineAt.position_le (hline : LineAt source line) (i : ℕ) :
    line.startOffset ≤ (line.position i).offset ∧ (line.position i).offset ≤ line.endOffset := by
  obtain ⟨before, newline, after, hsource, hstart, hend, -⟩ := hline.split
  have htake : weight Char.utf8Size (line.text.take i) ≤ weight Char.utf8Size line.text :=
    weight_mono (List.take_prefix i line.text)
  simp only [byteLength_eq_weight, weight_append] at hstart hend
  simp only [SourceLine.position, byteLength_eq_weight]
  omega

theorem At.leaf (h : At line i t) (hline : LineAt source line) :
    Faithful (Part source) (spanNode (line.span i (i + t.length)) (· = t) []) :=
  faithful_leaf (h.slice hline) rfl

end Line

theorem untilUnquoted_append {target : Char} {quoted escaped : Bool} {w before after : Text}
    (h : untilUnquoted target quoted escaped w = some (before, after)) :
    w = before ++ target :: after := by
  induction w generalizing quoted escaped before with
  | nil => simp [untilUnquoted] at h
  | cons c cs ih =>
    -- Every branch but the target takes the character and goes on.
    have hnext : ∀ {q e : Bool}, (untilUnquoted target q e cs).map (fun p => (c :: p.1, p.2)) =
        some (before, after) → c :: cs = before ++ target :: after := by
      intro q e hmap
      obtain ⟨⟨before', after'⟩, hrec, he⟩ := Option.map_eq_some_iff.mp hmap
      cases he
      rw [ih hrec]
      rfl
    unfold untilUnquoted at h
    simp only at h
    split at h
    · exact hnext h
    · split at h
      · exact hnext h
      · split at h
        · exact hnext h
        · split at h
          next htarget =>
            simp only [Bool.and_eq_true, decide_eq_true_eq] at htarget
            cases h
            rw [htarget.1]
            rfl
          · exact hnext h

theorem segment_prefix {jsonMode : Bool} {w s : Text} (h : segment jsonMode w = some s) :
    s <+: w := by
  unfold segment at h
  simp only at h
  split at h
  · cases h
  · split at h
    · cases h
      exact List.cons_prefix_cons.mpr ⟨rfl, hyphenTail_prefix _⟩
    · split at h
      · cases h
        exact List.takeWhile_prefix _
      · cases h

section References
variable {cfg : ParserConfig} {source : Text} {line : SourceLine}

theorem dot_nested {cursor : ℕ} {s : Text} {role : Ast.Role} (hline : LineAt source line)
    (hat : At line cursor ('.' :: s)) :
    Nested (Part source) (line.position cursor).offset
      (line.position (cursor + 1 + s.length)).offset
      [Ast.RefSelector.tree (.dot s role (line.span (cursor + 1) (cursor + 1 + s.length)))] := by
  have hs : At line (cursor + 1) s := At.right (t := ['.']) hat
  exact (hs.leaf hline).nested (position_mono (by omega)) le_rfl

theorem bracketSelector_spec {inner : Text} {cursor : ℕ} {selector : Ast.RefSelector}
    (h : bracketSelector cfg inner (line.span cursor (cursor + inner.length + 2)) =
      .ok (some selector)) (hline : LineAt source line)
    (hat : At line cursor ('[' :: inner ++ [']'])) :
    Nested (Part source) (line.position cursor).offset
      (line.position (cursor + inner.length + 2)).offset [selector.tree] ∧
      selector.Spelled ('[' :: inner ++ [']']) := by
  have hslice := hat.slice hline
  have hlen : cursor + ('[' :: inner ++ [']']).length = cursor + inner.length + 2 := by
    simp only [List.cons_append, List.length_cons, List.length_append, List.length_nil]
    omega
  rw [hlen] at hslice
  have hnested : ∀ s : Ast.RefSelector, s.Spelled ('[' :: inner ++ [']']) →
      s.tree = spanNode (line.span cursor (cursor + inner.length + 2)) s.Spelled [] →
      Nested (Part source) (line.position cursor).offset
        (line.position (cursor + inner.length + 2)).offset [s.tree] := by
    intro s hs htree
    rw [htree]
    exact (faithful_leaf hslice hs).nested le_rfl le_rfl
  unfold bracketSelector at h
  split at h
  next n hn =>
    cases hint : intOf cfg n with
    | error e => simp [hint, Except.map] at h
    | ok z =>
      simp only [hint, Except.map, Except.ok.injEq] at h
      split at h
      · cases h
        exact ⟨hnested _ rfl rfl, rfl⟩
      · cases h
  · split at h
    next member hloads =>
      cases h
      have hs : (Ast.RefSelector.bracket member
          (line.span cursor (cursor + inner.length + 2))).Spelled ('[' :: inner ++ [']']) :=
        ⟨inner, _, rfl, hloads⟩
      exact ⟨hnested _ hs rfl, hs⟩
    all_goals cases h

theorem readSelectors_spec {root : Text} {n cursor : ℕ} {rest : Text}
    {selectors result : List Ast.RefSelector} {jsonMode : Bool}
    (h : readSelectors cfg line root n cursor rest selectors jsonMode = .ok (some result))
    (hline : LineAt source line) (hat : At line cursor rest) :
    ∃ new parts, result = selectors ++ new ∧
      Nested (Part source) (line.position cursor).offset
        (line.position (cursor + rest.length)).offset (new.map Ast.RefSelector.tree) ∧
      List.Forall₂ Ast.RefSelector.Spelled new parts ∧ rest = parts.flatten := by
  fun_induction readSelectors cfg line root n cursor rest selectors jsonMode with
  | case1 =>
    cases h
    exact ⟨[], [], by simp, le_rfl, .nil, rfl⟩
  | case2 => cases h
  | case3 => cases h
  | case4 n cursor rest selectors jsonMode s hs role stop selectors' ih =>
    obtain ⟨v, rfl⟩ := segment_prefix hs
    obtain ⟨mode, -, h⟩ := Attempt.bind_ok h
    have hdot : At line cursor (('.' :: s) ++ v) := hat
    have hrest : At line (cursor + 1 + s.length) v := by
      have hright := hdot.right
      rwa [List.length_cons, add_comm s.length 1, ← add_assoc] at hright
    rw [List.drop_left] at ih h
    obtain ⟨new, parts, rfl, hnested, hparts, hv⟩ := ih mode h hrest
    refine ⟨.dot s role (line.span (cursor + 1) stop) :: new, ('.' :: s) :: parts,
      by simp [selectors'], ?_, .cons rfl hparts, by simp [← hv]⟩
    have hend : cursor + ('.' :: (s ++ v)).length = cursor + 1 + s.length + v.length := by
      simp only [List.length_cons, List.length_append]
      omega
    rw [hend]
    exact (dot_nested hline hdot.left).cons hnested
  | case5 => cases h
  | case6 n cursor rest selectors jsonMode inner after hinner stop ih =>
    have hsplit := untilUnquoted_append hinner
    subst hsplit
    obtain ⟨found, hfound, h⟩ := Attempt.bind_ok h
    cases found with
    | none => cases h
    | some selector =>
      have hlen : cursor + ('[' :: inner ++ [']']).length = stop := by
        simp only [List.cons_append, List.length_cons, List.length_append, List.length_nil, stop]
        omega
      have hbracket : At line cursor (('[' :: inner ++ [']']) ++ after) := by
        simpa using hat
      have hrest : At line stop after := by
        rw [← hlen]
        exact hbracket.right
      obtain ⟨hone, hspelled⟩ := bracketSelector_spec hfound hline hbracket.left
      obtain ⟨new, parts, rfl, hnested, hparts, hv⟩ := ih selector h hrest
      refine ⟨selector :: new, ('[' :: inner ++ [']']) :: parts, by simp, ?_,
        .cons hspelled hparts, by simp [← hv]⟩
      have hend : cursor + ('[' :: (inner ++ ']' :: after)).length = stop + after.length := by
        rw [← hlen]
        simp only [List.cons_append, List.length_cons, List.length_append, List.length_nil]
        omega
      rw [hend]
      exact hone.cons hnested
  | case7 => cases h

theorem tryReference_spec {text : Text} {start : ℕ} {reference : Ast.Reference}
    (h : tryReference cfg line text start = .ok (some reference)) (hline : LineAt source line)
    (hat : At line start text) :
    Faithful (Part source) reference.tree ∧
      reference.span = line.span start (start + text.length) := by
  unfold tryReference at h
  split at h
  · cases h
  next root hroot =>
    split at h
    · cases h
    · obtain ⟨found, hread, h⟩ := Attempt.bind_ok h
      cases found with
      | none => cases h
      | some selectors =>
        cases h
        obtain ⟨rest, rfl⟩ := (identifier_eq_some hroot).1
        rw [List.drop_left] at hread
        obtain ⟨new, parts, hnew, hnested, hparts, hrest⟩ := readSelectors_spec hread hline hat.right
        rw [List.nil_append] at hnew
        subst hnew
        refine ⟨⟨⟨root ++ rest, hat.slice hline, parts, hparts, by rw [hrest]; rfl⟩, ?_⟩, rfl⟩
        have hend : start + (root ++ rest).length = start + root.length + rest.length := by
          rw [List.length_append, add_assoc]
        simp only [SourceLine.span, hend]
        exact ((hat.left.leaf hline).nested le_rfl le_rfl).cons hnested

theorem tryReference_nested {text : Text} {start : ℕ} {reference : Ast.Reference}
    (h : tryReference cfg line text start = .ok (some reference)) (hline : LineAt source line)
    (hat : At line start text) :
    Nested (Part source) (line.position start).offset
      (line.position (start + text.length)).offset [reference.tree] := by
  obtain ⟨hfaithful, hspan⟩ := tryReference_spec h hline hat
  have hstart : reference.tree.start = (line.position start).offset :=
    congrArg (fun span => span.start.offset) hspan
  have hstop : reference.tree.stop = (line.position (start + text.length)).offset :=
    congrArg (fun span => span.stop.offset) hspan
  exact hfaithful.nested hstart.ge hstop.le

end References

theorem nested_spanNode {source : Text} {span : SourceSpan} {low high : ℕ}
    {children : List (Outline Char)} (hlow : low ≤ span.start.offset) (hhigh : span.stop.offset ≤ high)
    (hstart : Boundary Char.utf8Size source span.start.offset)
    (hstop : Boundary Char.utf8Size source span.stop.offset)
    (h : Nested (Part source) span.start.offset span.stop.offset children) :
    Nested (Part source) low high [spanNode span unspelled children] :=
  (faithful_node hstart hstop h).nested hlow hhigh

section Predicates
variable {cfg : ParserConfig} {source text : Text} {line : SourceLine} {base high : ℕ}
  {allowStatus : Bool}

def TokensAt (line : SourceLine) (base high : ℕ) : ℕ → Tokens → Prop
  | low, [] => low ≤ high
  | low, token :: tokens => low ≤ token.startIndex ∧
      token.endIndex = token.startIndex + token.value.length ∧
      At line (base + token.startIndex) token.value ∧ TokensAt line base high token.endIndex tokens

theorem TokensAt.mono {low low' : ℕ} {tokens : Tokens} (h : TokensAt line base high low tokens)
    (hlow : low' ≤ low) : TokensAt line base high low' tokens := by
  cases tokens with
  | nil =>
    have hle : low ≤ high := h
    exact hlow.trans hle
  | cons token tokens => exact ⟨hlow.trans h.1, h.2⟩

theorem quotedTail_prefix (escaped : Bool) (w : Text) : quotedTail escaped w <+: w := by
  induction w generalizing escaped with
  | nil => exact List.nil_prefix
  | cons c cs ih =>
    unfold quotedTail
    split
    · exact List.cons_prefix_cons.mpr ⟨rfl, ih _⟩
    · split
      · exact List.cons_prefix_cons.mpr ⟨rfl, ih _⟩
      · split
        · exact List.cons_prefix_cons.mpr ⟨rfl, List.nil_prefix⟩
        · exact List.cons_prefix_cons.mpr ⟨rfl, ih _⟩

theorem tokenize_spec {n index : ℕ} {w : Text} {tokens : Tokens}
    (h : tokenize n index w = .ok tokens) (hat : At line (base + index) w) :
    TokensAt line base (index + w.length) index tokens := by
  induction n generalizing index w tokens with
  | zero =>
    cases w with
    | nil =>
      simp only [tokenize] at h
      cases h
      exact le_rfl
    | cons c cs => simp [tokenize] at h
  | succ n ih =>
    cases w with
    | nil =>
      simp only [tokenize] at h
      cases h
      exact le_rfl
    | cons c cs =>
      -- A token is a prefix of what is left, and the scan goes on behind it.
      have htake : ∀ {quoted : Bool} {value : Text}, value <+: c :: cs →
          (do
            let stop := index + value.length
            return ⟨quoted, value, index, stop⟩ ::
              (← tokenize n stop ((c :: cs).drop value.length)) : Except Failure Tokens) =
            .ok tokens → TokensAt line base (index + (c :: cs).length) index tokens := by
        intro quoted value hpre hbind
        obtain ⟨more, hmore, he⟩ := Attempt.bind_ok hbind
        cases he
        have hlen : value.length ≤ (c :: cs).length := hpre.length_le
        have hdrop : At line (base + (index + value.length)) ((c :: cs).drop value.length) := by
          rw [← add_assoc]
          exact hat.drop _ hlen
        have hrest := ih hmore hdrop
        have hend : index + value.length + ((c :: cs).drop value.length).length =
            index + (c :: cs).length := by
          rw [List.length_drop]
          omega
        rw [hend] at hrest
        exact ⟨le_rfl, rfl, hat.prefix hpre, hrest⟩
      unfold tokenize at h
      simp only at h
      split at h
      · have hcs : At line (base + (index + 1)) cs := by
          have hdrop := hat.drop 1 (by simp)
          rwa [add_assoc] at hdrop
        have hrest := ih h hcs
        rw [List.length_cons, ← add_assoc, add_right_comm]
        exact hrest.mono (Nat.le_succ index)
      · split at h
        next symbol hsymbol =>
          have hpre : symbol <+: c :: cs := by simpa using List.find?_some hsymbol
          exact htake hpre h
        · split at h
          next hquote =>
            subst hquote
            exact htake (List.cons_prefix_cons.mpr ⟨rfl, quotedTail_prefix _ _⟩) h
          · split at h
            · exact htake (List.takeWhile_prefix _) h
            · cases h

theorem token_span {token : PredicateToken} (hline : LineAt source line)
    (hlen : token.endIndex = token.startIndex + token.value.length)
    (hat : At line (base + token.startIndex) token.value) :
    Part source (tokenSpan line base token).start.offset
      (tokenSpan line base token).stop.offset token.value := by
  have hslice := hat.slice hline
  rw [add_assoc, ← hlen] at hslice
  exact hslice

theorem comparable_spec {token : PredicateToken} {operand : Ast.Comparable}
    (h : comparable cfg text line base token = .ok operand) (hline : LineAt source line)
    (hlen : token.endIndex = token.startIndex + token.value.length)
    (hat : At line (base + token.startIndex) token.value) :
    Nested (Part source) (tokenSpan line base token).start.offset
      (tokenSpan line base token).stop.offset [operand.tree] := by
  have hslice := token_span hline hlen hat
  -- A literal is a leaf with the span and the text of its token.
  have hfaithful : Faithful (Part source)
      (spanNode (tokenSpan line base token) (· = token.value) []) := faithful_leaf hslice rfl
  have hleaf := hfaithful.nested le_rfl le_rfl
  unfold comparable at h
  simp only at h
  obtain ⟨found, hfound, h⟩ := Attempt.bind_ok h
  cases found with
  | some reference =>
    cases h
    have hnested := tryReference_nested hfound hline hat
    rw [add_assoc, ← hlen] at hnested
    exact hnested
  | none =>
    simp only at h
    split at h
    · split at h
      · cases h
        exact hleaf
      · cases h
    · split at h
      · cases h
        exact hleaf
      · split at h
        · cases h
          exact hleaf
        · split at h
          · cases h
            exact hleaf
          · split at h
            · obtain ⟨z, -, h⟩ := Attempt.bind_ok h
              cases h
              exact hleaf
            · cases h
              exact hleaf
            · cases h

theorem acceptWord_eq {word : String} {tokens rest : Tokens} {token : PredicateToken}
    (h : acceptWord word tokens = some (token, rest)) : tokens = token :: rest := by
  unfold acceptWord at h
  split at h
  · split at h
    · cases h
      rfl
    · cases h
  · cases h

theorem acceptSymbol_eq {symbol : String} {tokens rest : Tokens} {token : PredicateToken}
    (h : acceptSymbol symbol tokens = some (token, rest)) : tokens = token :: rest := by
  unfold acceptSymbol at h
  split at h
  · split at h
    · cases h
      rfl
    · cases h
  · cases h

theorem acceptOperator_eq {tokens rest : Tokens} {token : PredicateToken}
    {operator : Ast.Comparison} (h : acceptOperator tokens = some (operator, token, rest)) :
    tokens = token :: rest := by
  unfold acceptOperator at h
  split at h
  · cases h
  · obtain ⟨op, -, he⟩ := Option.map_eq_some_iff.mp h
    cases he
    rfl

theorem expectWord_eq {word : String} {tokens rest : Tokens} {token : PredicateToken}
    (h : expectWord cfg text line base word tokens = .ok (token, rest)) : tokens = token :: rest := by
  unfold expectWord at h
  split at h
  next accepted haccepted =>
    cases h
    exact acceptWord_eq haccepted
  · cases h

theorem expectSymbol_eq {symbol : String} {tokens rest : Tokens} {token : PredicateToken}
    (h : expectSymbol cfg text line base symbol tokens = .ok (token, rest)) :
    tokens = token :: rest := by
  unfold expectSymbol at h
  split at h
  next accepted haccepted =>
    cases h
    exact acceptSymbol_eq haccepted
  · cases h

theorem nextToken_eq {tokens rest : Tokens} {token : PredicateToken}
    (h : nextToken cfg text line base tokens = .ok (token, rest)) : tokens = token :: rest := by
  unfold nextToken at h
  split at h
  · cases h
    rfl
  · cases h

def PredicateAt (source : Text) (line : SourceLine) (base high low : ℕ) (predicate : Ast.Predicate)
    (rest : Tokens) : Prop :=
  ∃ mid, TokensAt line base high mid rest ∧
    Nested (Part source) (line.position (base + low)).offset
      (line.position (base + mid)).offset [predicate.tree]

theorem predicate_tree_start (p : Ast.Predicate) :
    p.tree.start = (predicateSpan p).start.offset := by
  cases p <;> rfl

theorem predicate_tree_stop (p : Ast.Predicate) : p.tree.stop = (predicateSpan p).stop.offset := by
  cases p <;> rfl

theorem TokensAt.token {low : ℕ} {token : PredicateToken} {rest : Tokens}
    (h : TokensAt line base high low (token :: rest)) (hline : LineAt source line) :
    Part source (tokenSpan line base token).start.offset
      (tokenSpan line base token).stop.offset token.value ∧
    (line.position (base + low)).offset ≤ (tokenSpan line base token).start.offset ∧
    TokensAt line base high token.endIndex rest :=
  ⟨token_span hline h.2.1 h.2.2.1, position_mono (Nat.add_le_add_left h.1 base), h.2.2.2⟩

theorem placed_node {low : ℕ} {first last : PredicateToken} {rest : Tokens}
    {predicate : Ast.Predicate} {children : List (Outline Char)}
    {a b : ℕ} (hlow : (line.position (base + low)).offset ≤ (tokenSpan line base first).start.offset)
    (hfirst : Boundary Char.utf8Size source (tokenSpan line base first).start.offset)
    (hlast : Boundary Char.utf8Size source (tokenSpan line base last).stop.offset)
    (hrest : TokensAt line base high last.endIndex rest)
    (htree : predicate.tree = spanNode
      ⟨(tokenSpan line base first).start, (tokenSpan line base last).stop⟩ unspelled children)
    (hchildren : Nested (Part source) a b children)
    (ha : (tokenSpan line base first).start.offset ≤ a)
    (hb : b ≤ (tokenSpan line base last).stop.offset) :
    PredicateAt source line base high low predicate rest := by
  refine ⟨last.endIndex, hrest, ?_⟩
  rw [htree]
  exact nested_spanNode hlow le_rfl hfirst hlast (hchildren.mono ha hb)

theorem tokenSpan_le {low : ℕ} {token : PredicateToken} {rest : Tokens} {i : ℕ}
    (h : TokensAt line base high low (token :: rest)) (hi : i ≤ low) :
    (line.position (base + i)).offset ≤ (tokenSpan line base token).stop.offset := by
  obtain ⟨hstart, hlen, -, -⟩ := h
  apply position_mono
  omega

theorem acceptNot_spec {low : ℕ} {tokens : Tokens} (h : TokensAt line base high low tokens) :
    ∃ low', low ≤ low' ∧ TokensAt line base high low' (acceptNot tokens).2 := by
  unfold acceptNot
  split
  next token rest hword =>
    obtain rfl := acceptWord_eq hword
    refine ⟨token.endIndex, ?_, h.2.2.2⟩
    have := h.1
    have := h.2.1
    omega
  · exact ⟨low, le_rfl, h⟩

theorem acceptStatus_eq {tokens rest : Tokens} {token : PredicateToken} {succeeded : Bool}
    (h : acceptStatus allowStatus tokens = some (succeeded, token, rest)) :
    tokens = token :: rest := by
  unfold acceptStatus at h
  split at h
  · cases h
  · split at h
    next hword =>
      cases h
      exact acceptWord_eq hword
    · obtain ⟨accepted, hword, he⟩ := Option.map_eq_some_iff.mp h
      cases he
      exact acceptWord_eq hword

theorem parseComparison_spec {low : ℕ} {tokens rest : Tokens} {predicate : Ast.Predicate}
    (h : parseComparison cfg text line base tokens = .ok (predicate, rest))
    (hline : LineAt source line) (htokens : TokensAt line base high low tokens) :
    PredicateAt source line base high low predicate rest := by
  unfold parseComparison at h
  obtain ⟨⟨leftToken, afterLeft⟩, hnext, hbody⟩ := Attempt.bind_ok h
  clear h
  obtain rfl := nextToken_eq hnext
  obtain ⟨left, hleft, h⟩ := Attempt.bind_ok hbody
  clear hbody
  obtain ⟨hslice, hlow, hafter⟩ := htokens.token hline
  have hoperand := comparable_spec hleft hline htokens.2.1 htokens.2.2.1
  simp only at h
  split at h
  next operatorStart afterIs his =>
    -- A null test: the reference, `is`, perhaps `not`, and `null`.
    obtain rfl := acceptWord_eq his
    obtain ⟨low', hlow', hafterNot⟩ := acceptNot_spec hafter.2.2.2
    have hbefore : leftToken.endIndex ≤ low' := by
      have := hafter.1
      have := hafter.2.1
      omega
    obtain ⟨⟨nullToken, afterNull⟩, hnull, hbody⟩ := Attempt.bind_ok h
    clear h
    have htail := expectWord_eq hnull
    rw [htail] at hafterNot
    obtain ⟨hnullSlice, -, hafterNull⟩ := hafterNot.token hline
    cases left with
    | reference reference =>
      cases hbody
      exact placed_node hlow hslice.start hnullSlice.stop hafterNull rfl hoperand le_rfl
        (tokenSpan_le hafterNot hbefore)
    | _ => cases hbody
  next =>
    split at h
    next operator operatorToken afterOperator hoperator =>
      obtain rfl := acceptOperator_eq hoperator
      obtain ⟨⟨rightToken, afterRight⟩, hright, hbody⟩ := Attempt.bind_ok h
      clear h
      obtain rfl := nextToken_eq hright
      obtain ⟨right, hrightOperand, h⟩ := Attempt.bind_ok hbody
      cases h
      have hafterOperator := hafter.2.2.2
      obtain ⟨hrightSlice, hle, hafterRight⟩ := hafterOperator.token hline
      have hrightNested := comparable_spec hrightOperand hline hafterOperator.2.1
        hafterOperator.2.2.1
      have hbetween : (tokenSpan line base leftToken).stop.offset ≤
          (tokenSpan line base rightToken).start.offset := by
        apply position_mono
        have := hafter.1
        have := hafter.2.1
        have := hafterOperator.1
        omega
      exact placed_node hlow hslice.start hrightSlice.stop hafterRight rfl
        ((hoperand.mono le_rfl hbetween).cons hrightNested) le_rfl le_rfl
    next =>
      cases left with
      | reference reference =>
        cases h
        obtain ⟨hstart, hfaithful, hstop⟩ := hoperand.head
        exact ⟨leftToken.endIndex, hafter, nested_spanNode (hlow.trans hstart) hstop
          hfaithful.start hfaithful.stop (hfaithful.nested le_rfl le_rfl)⟩
      | _ => cases h

theorem parseAtom_spec {low : ℕ} {tokens rest : Tokens} {predicate : Ast.Predicate}
    (h : parseAtom cfg text line base allowStatus tokens = .ok (predicate, rest))
    (hline : LineAt source line) (htokens : TokensAt line base high low tokens) :
    PredicateAt source line base high low predicate rest := by
  have hstatus : ∀ {token : PredicateToken} {after : Tokens} {b : Bool},
      tokens = token :: after →
      PredicateAt source line base high low (.status token.value b (tokenSpan line base token)) after := by
    rintro token after b rfl
    obtain ⟨hslice, hlow, hafter⟩ := htokens.token hline
    have hfaithful : Faithful (Part source)
        (spanNode (tokenSpan line base token) (· = token.value) []) := faithful_leaf hslice rfl
    exact ⟨token.endIndex, hafter, hfaithful.nested hlow le_rfl⟩
  unfold parseAtom at h
  split at h
  next succeeded token after hword =>
    cases h
    exact hstatus (acceptStatus_eq hword)
  next =>
    split at h
    next keyword afterKeyword hkeyword =>
      obtain rfl := acceptWord_eq hkeyword
      obtain ⟨⟨token, after⟩, hnext, hbody⟩ := Attempt.bind_ok h
      clear h
      obtain rfl := nextToken_eq hnext
      obtain ⟨reference, hreference, h⟩ := Attempt.bind_ok hbody
      cases h
      unfold predicateReference at hreference
      obtain ⟨found, hfound, hreference⟩ := Attempt.bind_ok hreference
      cases found with
      | none => cases hreference
      | some found =>
        cases hreference
        obtain ⟨hslice, hlow, hafter⟩ := htokens.token hline
        obtain ⟨htokenSlice, hbetween, hrest⟩ := hafter.token hline
        obtain ⟨hfaithful, hspan⟩ := tryReference_spec hfound hline hafter.2.2.1
        rw [add_assoc, ← hafter.2.1] at hspan
        refine placed_node hlow hslice.start htokenSlice.stop hrest ?_
          (hfaithful.nested le_rfl le_rfl) ?_ ?_
        · rw [Ast.Predicate.tree, hspan]
          rfl
        · have hstart : reference.tree.start = (tokenSpan line base token).start.offset :=
            congrArg (fun span => span.start.offset) hspan
          rw [hstart]
          exact hslice.le.trans hbetween
        · have hstop : reference.tree.stop = (tokenSpan line base token).stop.offset :=
            congrArg (fun span => span.stop.offset) hspan
          exact hstop.le
    · exact parseComparison_spec h hline htokens

theorem placed_logical (op : Ast.LogicalOperator) {low mid : ℕ} {left right : Ast.Predicate}
    {operator : PredicateToken} {afterOperator rest : Tokens}
    (hleft : Nested (Part source) (line.position (base + low)).offset
      (line.position (base + mid)).offset [left.tree])
    (htokens : TokensAt line base high mid (operator :: afterOperator))
    (hright : PredicateAt source line base high operator.endIndex right rest) :
    PredicateAt source line base high low (.logical op operator.value left right
      ⟨(predicateSpan left).start, (predicateSpan right).stop⟩) rest := by
  obtain ⟨stop, hrest, hnested⟩ := hright
  refine ⟨stop, hrest, ?_⟩
  have hbetween : (line.position (base + mid)).offset ≤
      (line.position (base + operator.endIndex)).offset := tokenSpan_le htokens le_rfl
  obtain ⟨hlow, hleftFaithful, hleftStop⟩ := hleft.head
  obtain ⟨hrightStart, hrightFaithful, hhigh⟩ := hnested.head
  rw [predicate_tree_start] at hlow
  rw [predicate_tree_stop] at hhigh
  have hboth : Nested (Part source) (predicateSpan left).start.offset
      (predicateSpan right).stop.offset [left.tree, right.tree] :=
    ⟨(predicate_tree_start left).ge, hleftFaithful,
      (hleftStop.trans hbetween).trans hrightStart, hrightFaithful, (predicate_tree_stop right).le⟩
  refine nested_spanNode hlow hhigh ?_ ?_ hboth
  · rw [← predicate_tree_start]
    exact hleftFaithful.start
  · rw [← predicate_tree_stop]
    exact hrightFaithful.stop

theorem parsePredicates_spec (n : ℕ) (hline : LineAt source line) :
    (∀ tokens p rest low, parseOr cfg text line base allowStatus n tokens = .ok (p, rest) →
      TokensAt line base high low tokens → PredicateAt source line base high low p rest) ∧
    (∀ left tokens p rest low mid,
      parseOrTail cfg text line base allowStatus n left tokens = .ok (p, rest) →
      Nested (Part source) (line.position (base + low)).offset
        (line.position (base + mid)).offset [left.tree] →
      TokensAt line base high mid tokens → PredicateAt source line base high low p rest) ∧
    (∀ tokens p rest low, parseAnd cfg text line base allowStatus n tokens = .ok (p, rest) →
      TokensAt line base high low tokens → PredicateAt source line base high low p rest) ∧
    (∀ left tokens p rest low mid,
      parseAndTail cfg text line base allowStatus n left tokens = .ok (p, rest) →
      Nested (Part source) (line.position (base + low)).offset
        (line.position (base + mid)).offset [left.tree] →
      TokensAt line base high mid tokens → PredicateAt source line base high low p rest) ∧
    (∀ tokens p rest low, parseUnary cfg text line base allowStatus n tokens = .ok (p, rest) →
      TokensAt line base high low tokens → PredicateAt source line base high low p rest) ∧
    (∀ tokens p rest low, parsePrimary cfg text line base allowStatus n tokens = .ok (p, rest) →
      TokensAt line base high low tokens → PredicateAt source line base high low p rest) := by
  induction n with
  | zero =>
    refine ⟨?_, ?_, ?_, ?_, ?_, ?_⟩
    · intro tokens p rest low h
      simp [parseOr] at h
    · intro left tokens p rest low mid h
      simp [parseOrTail] at h
    · intro tokens p rest low h
      simp [parseAnd] at h
    · intro left tokens p rest low mid h
      simp [parseAndTail] at h
    · intro tokens p rest low h
      simp [parseUnary] at h
    · intro tokens p rest low h
      simp [parsePrimary] at h
  | succ n ih =>
    obtain ⟨hor, horTail, hand, handTail, hunary, hprimary⟩ := ih
    refine ⟨?_, ?_, ?_, ?_, ?_, ?_⟩
    · intro tokens p rest low h htokens
      unfold parseOr at h
      obtain ⟨⟨left, after⟩, hleft, h⟩ := Attempt.bind_ok h
      obtain ⟨mid, hafter, hnested⟩ := hand _ _ _ _ hleft htokens
      exact horTail _ _ _ _ _ _ h hnested hafter
    · intro left tokens p rest low mid h hleft htokens
      unfold parseOrTail at h
      split at h
      · cases h
        exact ⟨mid, htokens, hleft⟩
      next operator after hword =>
        obtain rfl := acceptWord_eq hword
        obtain ⟨⟨right, afterRight⟩, hright, h⟩ := Attempt.bind_ok h
        obtain ⟨stop, hrest, hnested⟩ := placed_logical .or hleft htokens
          (hand _ _ _ _ hright htokens.2.2.2)
        exact horTail _ _ _ _ _ _ h hnested hrest
    · intro tokens p rest low h htokens
      unfold parseAnd at h
      obtain ⟨⟨left, after⟩, hleft, h⟩ := Attempt.bind_ok h
      obtain ⟨mid, hafter, hnested⟩ := hunary _ _ _ _ hleft htokens
      exact handTail _ _ _ _ _ _ h hnested hafter
    · intro left tokens p rest low mid h hleft htokens
      unfold parseAndTail at h
      split at h
      · cases h
        exact ⟨mid, htokens, hleft⟩
      next operator after hword =>
        obtain rfl := acceptWord_eq hword
        obtain ⟨⟨right, afterRight⟩, hright, h⟩ := Attempt.bind_ok h
        obtain ⟨stop, hrest, hnested⟩ := placed_logical .and hleft htokens
          (hunary _ _ _ _ hright htokens.2.2.2)
        exact handTail _ _ _ _ _ _ h hnested hrest
    · intro tokens p rest low h htokens
      unfold parseUnary at h
      split at h
      next operator after hword =>
        obtain rfl := acceptWord_eq hword
        obtain ⟨⟨operand, afterOperand⟩, hoperand, h⟩ := Attempt.bind_ok h
        cases h
        obtain ⟨hslice, hlow, hafter⟩ := htokens.token hline
        obtain ⟨stop, hrest, hnested⟩ := hunary _ _ _ _ hoperand hafter
        obtain ⟨hstart, hfaithful, hstop⟩ := hnested.head
        refine ⟨stop, hrest, ?_⟩
        have hbound : (tokenSpan line base operator).start.offset ≤ operand.tree.start :=
          hslice.le.trans hstart
        rw [predicate_tree_stop] at hstop
        refine nested_spanNode hlow hstop hslice.start ?_ ?_
        · rw [spanTo, ← predicate_tree_stop]
          exact hfaithful.stop
        · exact hfaithful.nested hbound (predicate_tree_stop operand).le
      · exact hprimary _ _ _ _ h htokens
    · intro tokens p rest low h htokens
      unfold parsePrimary at h
      split at h
      next opening after hsymbol =>
        obtain rfl := acceptSymbol_eq hsymbol
        obtain ⟨⟨operand, afterOperand⟩, hoperand, h⟩ := Attempt.bind_ok h
        obtain ⟨⟨closing, afterClosing⟩, hclosing, h⟩ := Attempt.bind_ok h
        cases h
        obtain rfl := expectSymbol_eq hclosing
        obtain ⟨hslice, hlow, hafter⟩ := htokens.token hline
        obtain ⟨stop, hrest, hnested⟩ := hor _ _ _ _ hoperand hafter
        obtain ⟨hclosingSlice, hbetween, hafterClosing⟩ := hrest.token hline
        exact placed_node hlow hslice.start hclosingSlice.stop hafterClosing rfl hnested hslice.le
          (hbetween.trans hclosingSlice.le)
      · exact parseAtom_spec h hline htokens

theorem parsePredicate_spec {predicate : Ast.Predicate}
    (h : parsePredicate cfg text line base allowStatus = .ok predicate)
    (hline : LineAt source line) (hat : At line base text) :
    Nested (Part source) (line.position base).offset
      (line.position (base + text.length)).offset [predicate.tree] := by
  unfold parsePredicate at h
  obtain ⟨tokens, htokens, h⟩ := Attempt.bind_ok h
  obtain ⟨⟨result, rest⟩, hresult, h⟩ := Attempt.bind_ok h
  have hat' : At line (base + 0) text := hat
  have hplaced := tokenize_spec htokens hat'
  rw [zero_add] at hplaced
  obtain ⟨mid, hrest, hnested⟩ := (parsePredicates_spec _ hline).1 _ _ _ _ hresult hplaced
  cases rest with
  | nil =>
    cases h
    have hmid : mid ≤ text.length := hrest
    exact hnested.mono le_rfl (position_mono (Nat.add_le_add_left hmid base))
  | cons token rest => cases h

end Predicates

end Raticode.Rattish
