import Raticode.RattishFidelity
import Raticode.RattishTransparent

/-! The physical lines of a source and its end, which the lexer and the parser compute each for
itself. -/
namespace Raticode.Rattish
open PyText

variable {source : Text} {lines : List SourceLine}

/-- `_document_end` of the lexer. -/
def lexerDocumentEnd (source : Text) : SourcePosition :=
  match (physicalLines source).getLast? with
  | some line =>
    if endsWithNewline source then ⟨byteLength source, line.number, 1⟩
    else line.position line.text.length
  | none => ⟨0, 1, 1⟩

structure Tiles (source : Text) (lines : List SourceLine) : Prop where
  start : lines.head?.map SourceLine.startOffset = some 0
  next : lines.IsChain (fun line next => next.startOffset = line.endOffset)
  stop : lines.getLast?.map SourceLine.endOffset = some (byteLength source)

theorem Consecutive.isChain (h : Consecutive source lines) :
    lines.IsChain (fun line next => next.startOffset = line.endOffset) := by
  induction lines with
  | nil => exact .nil
  | cons line lines ih =>
    cases lines with
    | nil => exact .singleton _
    | cons next lines => exact .cons_cons h.2.1.symm (ih h.2.2.2)

theorem physicalLines_tile (source : Text) : Tiles source (physicalLines source) := by
  have hlines := physicalLines_consecutive source
  have hne : physicalLines source ≠ [] := by
    unfold physicalLines
    dsimp only
    split_ifs with hempty
    · simp
    · simp
    · simpa using hempty
  refine ⟨?_, hlines.isChain, ?_⟩
  · unfold physicalLines
    dsimp only
    cases hraws : splitlines source with
    | nil => rfl
    | cons raw raws =>
      split_ifs
      · rfl
      · rfl
      · rfl
  · obtain ⟨init, last, hinit⟩ := (List.eq_nil_or_concat' (physicalLines source)).resolve_left hne
    have hlast : (physicalLines source).getLast? = some last := by
      rw [hinit]
      simp
    rw [hlast, Option.map_some, (hlines.getLast_end hlast).2]

theorem length_numberLines (number offset : ℕ) (raws : List Text) :
    (numberLines number offset raws).length = raws.length := by
  induction raws generalizing number offset with
  | nil => rfl
  | cons raw raws ih => rw [numberLines, List.length_cons, List.length_cons, ih]

theorem count_newline (source : Text) :
    source.count '\n' = (splitlines source).countP (fun raw => raw.getLast? = some '\n') := by
  fun_induction splitlines source with
  | case1 => rfl
  | case2 rest ih =>
    rw [List.countP_cons, List.count_cons, List.count_cons, ih]
    simp
  | case3 c rest _ hc ih =>
    rw [List.countP_cons, List.count_cons, ih]
    simp
  | case4 c rest _ hc hnil ih =>
    have hne : c ≠ '\n' := by
      rintro rfl
      exact hc (by decide)
    rw [hnil] at ih
    rw [List.count_cons, ih]
    simp [hne]
  | case5 c rest _ hc line lines hcons ih =>
    have hne : c ≠ '\n' := by
      rintro rfl
      exact hc (by decide)
    have hmem : line ∈ splitlines rest := by
      rw [hcons]
      exact List.mem_cons_self
    have hline : line ≠ [] := splitlines_ne hmem
    rw [hcons] at ih
    rw [List.count_cons, ih, List.countP_cons, List.countP_cons]
    obtain ⟨x, line, rfl⟩ := List.exists_cons_of_ne_nil hline
    simp [hne]

theorem splitlines_ne_nil (h : endsWithNewline source = true) : splitlines source ≠ [] := by
  intro hnil
  have hflatten := splitlines_flatten source
  rw [hnil] at hflatten
  rw [← hflatten] at h
  exact absurd h (by decide)

theorem lexerDocumentEnd_of_newline (h : endsWithNewline source = true) :
    lexerDocumentEnd source = ⟨byteLength source, (splitlines source).length + 1, 1⟩ := by
  have hlast : (physicalLines source).getLast? =
      some ⟨(splitlines source).length + 1, [], byteLength source, byteLength source, false⟩ := by
    unfold physicalLines
    dsimp only
    rw [if_neg, if_pos h, List.getLast?_concat, length_numberLines]
    rw [List.isEmpty_iff, ← List.length_eq_zero_iff, length_numberLines, List.length_eq_zero_iff]
    exact splitlines_ne_nil h
  rw [lexerDocumentEnd, hlast]
  dsimp only
  rw [if_pos h]

def SeparatedEvenly (source : Text) : Prop :=
  (∀ raw ∈ splitlines source, raw.getLast? = some '\n') ∨ (splitlines source).length = 1

/-- The lines tile the source. The parser and the lexer agree on its end where it does not end with a
newline, or all its line separators are line feeds, or it has a single line. -/
theorem line_model_agrees (source : Text) :
    Tiles source (physicalLines source) ∧
      (documentEnd source = lexerDocumentEnd source ↔
        (endsWithNewline source = true → SeparatedEvenly source)) := by
  refine ⟨physicalLines_tile source, ?_⟩
  by_cases hnewline : endsWithNewline source = true
  · rw [lexerDocumentEnd_of_newline hnewline, documentEnd, if_pos hnewline]
    have hcount := count_newline source
    have hpos : 0 < (splitlines source).length := List.length_pos_iff.mpr (splitlines_ne_nil hnewline)
    have hle := List.countP_le_length (p := fun raw : Text => raw.getLast? = some '\n')
      (l := splitlines source)
    have hall : (splitlines source).countP (fun raw => raw.getLast? = some '\n') =
        (splitlines source).length ↔ ∀ raw ∈ splitlines source, raw.getLast? = some '\n' := by
      rw [List.countP_eq_length]
      simp
    simp only [SourcePosition.mk.injEq, true_and, and_true, hnewline, forall_const, SeparatedEvenly]
    split_ifs with hfeed
    · -- There is a line feed.
      have hfeeds : 0 < source.count '\n' := List.count_pos_iff.mpr (List.contains_iff_mem.mp hfeed)
      rw [← hall]
      omega
    · have hnone : source.count '\n' = 0 :=
        List.count_eq_zero.mpr (fun hmem => hfeed (List.contains_iff_mem.mpr hmem))
      rw [← hall]
      omega
  · have hsame : documentEnd source = lexerDocumentEnd source := by
      unfold documentEnd lexerDocumentEnd
      cases (physicalLines source).getLast? with
      | none => simp only [if_neg hnewline]
      | some line => simp only [if_neg hnewline]
    exact ⟨fun _ hends => absurd hends hnewline, fun _ => hsame⟩

/-- Two lines that a return ends. -/
theorem returns_disagree : ¬ ∀ source : Text,
    Tiles source (physicalLines source) ∧ documentEnd source = lexerDocumentEnd source := by
  intro hall
  exact absurd (hall "a\rb\r".toList).2 (by decide)

end Raticode.Rattish
