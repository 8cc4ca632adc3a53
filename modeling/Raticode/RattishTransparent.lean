import Raticode.RattishTaken

/-! A line that is blank or a comment, put between two lines of a document that the
parser accepts. Outside embedded JSON and literal blocks the parser reads the same
document, up to spans, exactly where the line is indented by an even number of
columns. -/
namespace Raticode.Rattish
open PyText Attempt

def InSpan (p : ℕ) (span : SourceSpan) : Prop := span.start.offset ≤ p ∧ p < span.stop.offset

/-- An offset at which a line is put is outside embedded JSON and literal blocks. A block
ends before the first line that is not blank and not deeper than its field, so a deeper
line that is put at its end is inside. -/
def outside (p : ℕ) (text : Text) : Embedded where
  json span := ¬ InSpan p span
  block span := ¬ InSpan p span ∧
    (span.stop.offset = p → text.dropWhile isIndent = [] ∨ indentColumns text ≤ 2)

instance (p : ℕ) (span : SourceSpan) : Decidable (InSpan p span) :=
  inferInstanceAs (Decidable (_ ∧ _))

instance (p : ℕ) (text : Text) : DecidablePred (outside p text).json :=
  fun span => inferInstanceAs (Decidable (¬ InSpan p span))

instance (p : ℕ) (text : Text) : DecidablePred (outside p text).block :=
  fun span => inferInstanceAs (Decidable (¬ InSpan p span ∧
    (span.stop.offset = p → text.dropWhile isIndent = [] ∨ indentColumns text ≤ 2)))

structure Insertion where
  original : Text
  edited : Text
  above : List SourceLine
  line : SourceLine
  below : List SourceLine
  below' : List SourceLine
  original_lines : Consecutive original (above ++ below')
  edited_lines : Consecutive edited (above ++ line :: below)
  same : List.Forall₂ SameText below below'
  layout : (lineView line).isIgnorable = true
  some_below : below' ≠ []
  last : ∀ l u, below' = l :: u → l.endOffset = l.startOffset → l.text = [] ∧ u = []

namespace Insertion
variable (I : Insertion)

def offset : ℕ := offsetOf I.original I.below'

def Even : Prop := (lineView I.line).indentColumns % 2 = 0

/-- The cursors are at the same place: above the line, below it, or at the end of the
original document where the line and an empty one are still to be read. -/
inductive Beside : List SourceLine → List SourceLine → Prop
  | above {c : List SourceLine} (hc : c <:+ I.above) : Beside (c ++ I.line :: I.below) (c ++ I.below')
  | below {t t' : List SourceLine} (heven : I.Even) (ht : t <:+ I.below) (ht' : t' <:+ I.below')
      (h : List.Forall₂ SameText t t') : Beside t t'
  | last {l : SourceLine} (heven : I.Even) (hbelow : I.below = [l]) (htext : l.text = []) :
      Beside [I.line, l] []

/-- A line of the original document is where the cursor has just been: both cursors are
below the line that is put in, or above it. -/
def Near (l' : SourceLine) (s s' : List SourceLine) : Prop :=
  List.Forall₂ SameText s s' ∨ ∃ c, s = c ++ I.line :: I.below ∧ s' = c ++ I.below' ∧
    LineAt I.original l' ∧ l'.endOffset ≤ I.offset ∧ (c = [] → l'.endOffset = I.offset)

def endings : Endings where
  selective := True
  mayStop := ¬ I.Even
  excused _ := True
  inside _ := True

variable {I} {cfg : ParserConfig} {s s' : List SourceLine}

theorem view_line (heven : I.Even) : view cfg I.line = .ok (lineView I.line) := by
  have hmod : (lineView I.line).indentColumns % 2 ≠ 1 := by
    rw [show (lineView I.line).indentColumns % 2 = 0 from heven]
    decide
  unfold view
  simp only
  rw [if_neg hmod]

theorem view_line_odd (cfg : ParserConfig) (hodd : ¬ I.Even) : ∃ e, view cfg I.line = .error e := by
  have hmod : (lineView I.line).indentColumns % 2 = 1 := Nat.mod_two_ne_zero.mp hodd
  unfold view
  simp only
  rw [if_pos hmod]
  exact ⟨_, rfl⟩

theorem length_below : I.below.length = I.below'.length := I.same.length_eq

theorem Beside.length_le (h : I.Beside s s') : s'.length ≤ s.length := by
  cases h with
  | above hc =>
    have hlen := I.length_below
    simp only [List.length_append, List.length_cons]
    omega
  | below _ _ _ h => exact h.length_eq.ge
  | last => exact Nat.zero_le _

theorem suffix_edited {c : List SourceLine} (hc : c <:+ I.above) :
    Consecutive I.edited (c ++ I.line :: I.below) := by
  obtain ⟨init, hinit⟩ := hc
  refine I.edited_lines.suffix ⟨init, ?_⟩
  rw [← hinit, List.append_assoc]

theorem suffix_original {c : List SourceLine} (hc : c <:+ I.above) :
    Consecutive I.original (c ++ I.below') := by
  obtain ⟨init, hinit⟩ := hc
  refine I.original_lines.suffix ⟨init, ?_⟩
  rw [← hinit, List.append_assoc]

theorem below_edited {t : List SourceLine} (ht : t <:+ I.below) : Consecutive I.edited t := by
  refine I.edited_lines.suffix (ht.trans ?_)
  exact (List.suffix_cons I.line I.below).trans (List.suffix_append _ _)

theorem below_original {t' : List SourceLine} (ht' : t' <:+ I.below') : Consecutive I.original t' :=
  I.original_lines.suffix (ht'.trans (List.suffix_append _ _))

theorem Beside.consecutive (h : I.Beside s s') : Consecutive I.edited s ∧ Consecutive I.original s' := by
  cases h with
  | above hc => exact ⟨suffix_edited hc, suffix_original hc⟩
  | below _ ht ht' _ => exact ⟨below_edited ht, below_original ht'⟩
  | last _ hbelow _ =>
    refine ⟨?_, trivial⟩
    have hlines := suffix_edited (I := I) List.nil_suffix
    rw [hbelow] at hlines
    exact hlines

theorem Beside.rest {c c' t t' : List SourceLine} (h : I.Beside (c ++ t) (c' ++ t'))
    (hsame : List.Forall₂ SameText (c ++ t) (c' ++ t')) (ht : List.Forall₂ SameText t t') :
    I.Beside t t' := by
  have hlen := hsame.length_eq
  generalize hs : c ++ t = s at h hsame hlen
  generalize hs' : c' ++ t' = s' at h hsame hlen
  cases h with
  | above hc =>
    have hbelow := I.length_below
    simp only [List.length_append, List.length_cons] at hlen
    omega
  | below heven hbelow hbelow' _ =>
    rw [← hs] at hbelow
    rw [← hs'] at hbelow'
    exact .below heven ((List.suffix_append c t).trans hbelow)
      ((List.suffix_append c' t').trans hbelow') ht
  | last => cases hlen

theorem Beside.suffix_above {c : List SourceLine}
    (h : I.Beside (c ++ I.line :: I.below) (c ++ I.below')) : c <:+ I.above := by
  have hlen := I.length_below
  generalize hs : c ++ I.line :: I.below = s at h
  generalize hs' : c ++ I.below' = s' at h
  cases h with
  | above hc =>
    rw [List.append_cancel_right hs]
    exact hc
  | below _ _ _ h =>
    have hsame := h.length_eq
    rw [← hs, ← hs'] at hsame
    simp only [List.length_append, List.length_cons] at hsame
    omega
  | last => exact absurd (List.append_eq_nil_iff.mp hs').2 I.some_below

theorem near_above {c : List SourceLine} {l : SourceLine} (hc : l :: c <:+ I.above) :
    I.Near l (c ++ I.line :: I.below) (c ++ I.below') := by
  have hlines : Consecutive I.original (l :: (c ++ I.below')) := suffix_original hc
  have hend : l.endOffset = offsetOf I.original (c ++ I.below') := hlines.2.1
  refine .inr ⟨c, rfl, rfl, hlines.1, ?_, ?_⟩
  · rw [hend]
    exact hlines.2.2.2.offset_le (List.suffix_append c I.below')
  · rintro rfl
    exact hend

theorem near_here {c : List SourceLine} {l : SourceLine} (hc : l :: c <:+ I.above) :
    I.Near l (l :: c ++ I.line :: I.below) (l :: c ++ I.below') := by
  have hlines : Consecutive I.original (l :: (c ++ I.below')) := suffix_original hc
  have hend : l.endOffset = offsetOf I.original (c ++ I.below') := hlines.2.1
  refine .inr ⟨l :: c, rfl, rfl, hlines.1, ?_, ?_⟩
  · rw [hend]
    exact hlines.2.2.2.offset_le (List.suffix_append c I.below')
  · intro h
    cases h

theorem skip_below (heven : I.Even) {t t' : List SourceLine} (ht : t <:+ I.below)
    (ht' : t' <:+ I.below') (h : List.Forall₂ SameText t t') :
    Mirrors I.endings.accord (Any Unit) (skipIgnorable cfg) (skipIgnorable cfg)
      (fun _ t _ t' => Ready I.Beside I.Near t t') t t' := by
  induction h with
  | nil =>
    exact mirrors_ok rfl rfl (fun _ => .done (.inl rfl) (.below heven ht ht' .nil))
  | @cons l l' u u' hl hu ih =>
    have hu1 : u <:+ I.below := (List.suffix_cons l u).trans ht
    have hu' : u' <:+ I.below' := (List.suffix_cons l' u').trans ht'
    exact mirrors_skip_cons (fun _ => .inl trivial) hl (.below heven ht ht' (.cons hl hu))
      (.below heven hu1 hu' hu) (.inl (.cons hl hu)) (.inl hu) (ih hu1 hu')

theorem skip_line (heven : I.Even) (lines : List SourceLine) :
    skipIgnorable cfg (I.line :: lines) = skipIgnorable cfg lines := by
  rw [skipIgnorable_cons, view_line heven]
  simp only [I.layout, if_true]

theorem skip_above {c : List SourceLine} (hc : c <:+ I.above) :
    Mirrors I.endings.accord (Any Unit) (skipIgnorable cfg) (skipIgnorable cfg)
      (fun _ t _ t' => Ready I.Beside I.Near t t') (c ++ I.line :: I.below) (c ++ I.below') := by
  induction c with
  | nil =>
    by_cases heven : I.Even
    · have hbelow : Mirrors I.endings.accord (Any Unit) (skipIgnorable cfg) (skipIgnorable cfg)
          (fun _ t _ t' => Ready I.Beside I.Near t t') I.below I.below' :=
        skip_below heven List.suffix_rfl List.suffix_rfl I.same
      unfold Mirrors at hbelow ⊢
      rw [List.nil_append, List.nil_append, skip_line heven]
      exact hbelow
    · obtain ⟨e, he⟩ := view_line_odd cfg heven
      exact mirrors_stop trivial heven (by rw [List.nil_append, skipIgnorable_cons, he])
  | cons l c ih =>
    have hc1 : c <:+ I.above := (List.suffix_cons l c).trans hc
    exact mirrors_skip_cons (fun _ => .inl trivial) rfl (.above hc) (.above hc1) (near_here hc)
      (near_above hc) (ih hc1)

theorem skip_beside (h : I.Beside s s') :
    Mirrors I.endings.accord (Any Unit) (skipIgnorable cfg) (skipIgnorable cfg)
      (fun _ t _ t' => Ready I.Beside I.Near t t') s s' := by
  cases h with
  | above hc => exact skip_above hc
  | below heven ht ht' h => exact skip_below heven ht ht' h
  | @last l heven hbelow htext =>
    have hview : view cfg l = .ok (lineView l) := by simp [view, lineView, indentColumns, htext]
    have hignorable : (lineView l).isIgnorable = true := by
      simp [LineView.isIgnorable, lineView, htext]
    refine mirrors_ok (a := ()) (t := []) ?_ rfl (fun _ => .done (.inl rfl) ?_)
    · rw [skip_line heven, skipIgnorable_cons, hview]
      simp only [hignorable, if_true]
      rfl
    · exact .below heven List.nil_suffix List.nil_suffix .nil

theorem offset_eq {u : List SourceLine} {next : SourceLine} (h : I.below' = next :: u) :
    I.offset = next.startOffset := by
  unfold offset
  rw [h]
  rfl

theorem atEofLine_above (l : SourceLine) (c : List SourceLine) {rest : List SourceLine}
    (hrest : rest ≠ []) : atEofLine (l :: (c ++ rest)) = false := by
  cases c with
  | nil =>
    cases rest with
    | nil => exact absurd rfl hrest
    | cons next rest => rfl
  | cons next c => rfl

theorem collectJson_above {e e' : Failure} {depth : ℕ} {quoted escaped : Bool} {text : Text}
    {l l' : SourceLine} {start : ℕ} {c t' : List SourceLine} {result' : Text × SourcePosition}
    (hc : c <:+ I.above)
    (h : collectJson cfg e' depth quoted escaped text l' start (c ++ I.below') = .ok result' t')
    (hstop : result'.2.offset ≤ I.offset) :
    ∃ result c1, c1 <:+ I.above ∧ collectJson cfg e depth quoted escaped text l start
      (c ++ I.line :: I.below) = .ok result (c1 ++ I.line :: I.below) ∧ t' = c1 ++ I.below' ∧
      result.1 = result'.1 := by
  induction c generalizing depth quoted escaped text l l' start result' with
  | nil =>
    rcases collectJson_cases h with ⟨hone, rfl⟩ | ⟨next, u, d, q, esc, more, hbelow, -, -, hmore, -⟩
    · obtain ⟨result, hresult, heq⟩ := jsonLine_inl (l := l) hone
      exact ⟨result, [], hc, collectJson_closed hresult, rfl, heq⟩
    · -- A line below would be taken, and the value would end after it starts.
      have hlines : Consecutive I.original (next :: u) := by
        rw [← hbelow]
        exact below_original List.suffix_rfl
      have hlater : next.startOffset < (more, result'.2).2.offset := collectJson_stop hlines hmore
      have hoffset := offset_eq hbelow
      exact absurd hstop (by simp only at hlater; omega)
  | cons n c ih =>
    have hc1 : c <:+ I.above := (List.suffix_cons n c).trans hc
    rcases collectJson_cases h with ⟨hone, rfl⟩ | ⟨next, u, d, q, esc, more, hcons, -, hone, hmore, heq⟩
    · obtain ⟨result, hresult, heq⟩ := jsonLine_inl (l := l) hone
      exact ⟨result, n :: c, hc, collectJson_closed hresult, rfl, heq⟩
    · cases hcons
      obtain ⟨⟨text1, stop⟩, c1, hc1, hfirst, ht', htext⟩ := ih (l := n) hc1 hmore hstop
      refine ⟨(text ++ '\n' :: text1, stop), c1, hc1, ?_, ht', ?_⟩
      · rw [List.cons_append, collectJson_next (jsonLine_inr hone)
          (atEofLine_above n c (List.cons_ne_nil _ _)), hfirst]
      · rw [heq, show text1 = more from htext]

theorem mirrors_parseJson {l l' : SourceLine} {text : Text} {start : ℕ}
    {P : Text × SourcePosition → Prop}
    (hcollect : ∀ e e', Mirrors I.endings.accord P (collectJson cfg e 0 false false text l start)
      (collectJson cfg e' 0 false false text l' start)
      (fun a t a' t' => a.1 = a'.1 ∧ I.Beside t t') s s')
    (hP : ∀ source value stop, Ast.Val.Admitted (outside I.offset I.line.text)
      (.json source value ⟨l'.position start, stop⟩) → P (source, stop)) :
    Mirrors I.endings.accord (Ast.Val.Admitted (outside I.offset I.line.text))
      (parseJson cfg text l start) (parseJson cfg text l' start)
      (fun a t a' t' => a.unplaced = a'.unplaced ∧ I.Beside t t') s s' := by
  unfold parseJson
  refine (hcollect _ _).bind ?_ ?_
  · rintro - ⟨source, stop⟩ t' value' u' hvalue hadmitted
    simp only at hvalue
    cases hloads : jsonLoads cfg true source with
    | ok json =>
      rw [hloads] at hvalue
      cases hvalue
      exact hP source _ stop hadmitted
    | error error =>
      rw [hloads] at hvalue
      cases error <;> cases hvalue
  · rintro ⟨source, stop⟩ t ⟨source', stop'⟩ t' ⟨hsource, ht⟩
    obtain rfl : source = source' := hsource
    simp only
    split
    · exact mirrors_pure (fun _ => ⟨rfl, ht⟩)
    · exact mirrors_fail ⟨rfl, trivial⟩
    · exact mirrors_fail ⟨rfl, trivial⟩

theorem json_beside {l l' : SourceLine} {text : Text} {start : ℕ} (h : I.Beside s s')
    (hnear : I.Near l' s s') :
    Mirrors I.endings.accord (Ast.Val.Admitted (outside I.offset I.line.text))
      (parseJson cfg text l start) (parseJson cfg text l' start)
      (fun a t a' t' => a.unplaced = a'.unplaced ∧ I.Beside t t') s s' := by
  rcases hnear with hsame | ⟨c, rfl, rfl, hlocated, hle, -⟩
  · refine mirrors_parseJson (P := Any _) (fun e e' => ?_) (fun _ _ _ _ => trivial)
    cases hrun : collectJson cfg e' 0 false false text l' start s' with
    | error e1 t1 => exact mirrors_ignored trivial hrun
    | ok result' t' =>
      obtain ⟨result, d, d', t, hfirst, heq, rfl, rfl, ht⟩ :=
        collectJson_same (l := l) (e := e) hsame hrun
      exact mirrors_ok hfirst hrun (fun _ => ⟨heq, h.rest hsame ht⟩)
  · refine mirrors_parseJson (P := fun result => result.2.offset ≤ I.offset) (fun e e' => ?_) ?_
    · cases hrun : collectJson cfg e' 0 false false text l' start (c ++ I.below') with
      | error e1 t1 => exact mirrors_ignored trivial hrun
      | ok result' t' =>
        unfold Mirrors
        rw [hrun]
        intro hstop
        obtain ⟨result, c1, hc1, hfirst, rfl, heq⟩ :=
          collectJson_above (l := l) (e := e) h.suffix_above hrun (hstop trivial)
        exact .inl ⟨result, _, hfirst, heq, .above hc1⟩
    · intro source value stop hadmitted
      have hstart : (l'.position start).offset ≤ I.offset := (hlocated.position_le start).2.trans hle
      by_contra hlater
      exact hadmitted ⟨hstart, Nat.lt_of_not_le hlater⟩

theorem takeBlock_below' {more : List LineView} {t' : List SourceLine}
    (hrun : takeBlock cfg 2 I.below' = .ok more t') (hstop : offsetOf I.original t' ≤ I.offset) :
    offsetOf I.original t' = I.offset ∧ (∀ v ∈ more, v.Blank) ∧
      (t' = I.below' ∨ t' = [] ∧ ∃ l, I.below' = [l] ∧ l.text = []) := by
  obtain ⟨taken, hbelow, hmore⟩ := takeBlock_spec.ok hrun
  cases taken with
  | nil =>
    obtain rfl : I.below' = t' := hbelow
    obtain rfl : more = [] := hmore
    exact ⟨rfl, fun v hv => absurd hv List.not_mem_nil, .inl rfl⟩
  | cons l taken =>
    have hlines : Consecutive I.original (l :: (taken ++ t')) := by
      rw [← List.cons_append, ← hbelow]
      exact below_original List.suffix_rfl
    have hlater : l.endOffset ≤ offsetOf I.original t' := by
      rw [hlines.2.1]
      exact hlines.2.2.2.offset_le (List.suffix_append taken t')
    have hoffset := offset_eq hbelow
    have hle := hlines.1.start_le_end
    obtain ⟨htext, hnil⟩ := I.last l (taken ++ t') hbelow (by omega)
    obtain ⟨rfl, rfl⟩ := List.append_eq_nil_iff.mp hnil
    have hcontent : (lineView l).content = [] := by simp [lineView, htext]
    refine ⟨by omega, ?_, .inr ⟨rfl, l, hbelow, htext⟩⟩
    intro v hv
    rw [hmore] at hv
    obtain rfl := List.mem_singleton.mp hv
    exact ⟨hcontent, strip_blank hcontent⟩

theorem takeBlock_above {c t' : List SourceLine} {views' : List LineView} (hc : c <:+ I.above)
    (hrun : takeBlock cfg 2 (c ++ I.below') = .ok views' t')
    (hstop : offsetOf I.original t' ≤ I.offset)
    (hshallow : (views' = [] → c = []) → offsetOf I.original t' = I.offset →
      (lineView I.line).content = [] ∨ (lineView I.line).indentColumns ≤ 2) :
    (∃ views t, takeBlock cfg 2 (c ++ I.line :: I.below) = .ok views t ∧
      blockText 2 views = blockText 2 views' ∧ I.Beside t t') ∨
      (¬ I.Even ∧ ∃ e t, takeBlock cfg 2 (c ++ I.line :: I.below) = .error e t) := by
  rw [takeBlock_append] at hrun ⊢
  cases hviews : takeBlock cfg 2 c with
  | error e t =>
    rw [hviews] at hrun
    cases hrun
  | ok views t =>
    obtain ⟨taken, htaken, hmap⟩ := takeBlock_spec.ok hviews
    cases t with
    | cons n t =>
      rw [hviews] at hrun
      cases hrun
      refine .inl ⟨_, _, rfl, rfl, .above (c := n :: t) ?_⟩
      exact (htaken ▸ List.suffix_append taken (n :: t)).trans hc
    | nil =>
      rw [hviews] at hrun
      simp only at hrun ⊢
      cases hmore : takeBlock cfg 2 I.below' with
      | error e t =>
        rw [hmore] at hrun
        cases hrun
      | ok more t =>
        rw [hmore] at hrun
        cases hrun
        obtain ⟨hoffset, hblank, hrest⟩ := takeBlock_below' hmore hstop
        have htext : blockText 2 (views ++ more) = blockText 2 views := blockText_blanks 2 views hblank
        by_cases heven : I.Even
        · left
          have hall : views ++ more = [] → c = [] := by
            intro hnil
            have hnone : taken = [] := by
              rw [(List.append_eq_nil_iff.mp hnil).1] at hmap
              exact List.map_eq_nil_iff.mp hmap.symm
            rw [htaken, hnone]
            rfl
          rw [takeBlock_cons, view_line heven]
          by_cases hcontent : (lineView I.line).content = []
          · obtain ⟨views1, d, d', t1, hfirst, hsame, hd, hd', ht1⟩ := takeBlock_same I.same hmore
            refine ⟨views ++ lineView I.line :: views1, t1, ?_, ?_, ?_⟩
            · simp [hcontent, hfirst]
            · rw [htext]
              apply blockText_blanks
              intro v hv
              rcases List.mem_cons.mp hv with rfl | hv
              · exact ⟨hcontent, strip_blank hcontent⟩
              · exact blank_same hsame hblank v hv
            · exact .below heven ⟨d, hd.symm⟩ ⟨d', hd'.symm⟩ ht1
          · have hindent := (hshallow hall hoffset).resolve_left hcontent
            refine ⟨views, I.line :: I.below, ?_, htext.symm, ?_⟩
            · simp [hcontent, hindent]
            · rcases hrest with rfl | ⟨rfl, l, hbelow', hl⟩
              · exact .above (c := []) List.nil_suffix
              · have hsame := I.same
                rw [hbelow'] at hsame
                obtain ⟨l1, u, hl1, hu, hbelow⟩ := List.forall₂_cons_right_iff.mp hsame
                obtain rfl := List.forall₂_nil_right_iff.mp hu
                rw [hbelow]
                exact .last heven hbelow (hl1.trans hl)
        · obtain ⟨e, he⟩ := view_line_odd cfg heven
          exact .inr ⟨heven, e, I.line :: I.below, by rw [takeBlock_cons, he]⟩

def blockEnd (marker : SourceLine) (views : List LineView) : SourcePosition :=
  match views.getLast? with
  | some v => v.line.lineEnd
  | none => marker.lineEnd

theorem parseBlockString_ok (marker : SourceLine) {lines t : List SourceLine} {views : List LineView}
    (h : takeBlock cfg 2 lines = .ok views t) :
    ∃ start, parseBlockString cfg 2 marker lines = .ok (.string .block (blockText 2 views)
      (blockText 2 views) ⟨start, blockEnd marker views⟩) t ∧
      ∀ first u, lines = first :: u → start.offset = first.startOffset := by
  cases lines with
  | nil =>
    cases h
    refine ⟨⟨(blockEnd marker []).offset, (blockEnd marker []).line, 1⟩, rfl, ?_⟩
    intro first u hnil
    cases hnil
  | cons first u =>
    refine ⟨⟨first.startOffset, first.number, 1⟩, ?_, ?_⟩
    · change (takeBlock cfg 2 >>= _) (first :: u) = _
      simp only [Bind.bind, EStateM.bind, h]
      rfl
    · intro next v hcons
      cases hcons
      rfl

theorem parseBlockString_error (marker : SourceLine) {lines t : List SourceLine} {e : Failure}
    (h : takeBlock cfg 2 lines = .error e t) : parseBlockString cfg 2 marker lines = .error e t := by
  change (takeBlock cfg 2 >>= _) lines = _
  simp only [Bind.bind, EStateM.bind, h]

theorem blockEnd_offset {source : Text} {marker : SourceLine} {lines rest : List SourceLine}
    {views : List LineView} (hlines : Consecutive source lines)
    (h : takeBlock cfg 2 lines = .ok views rest) (hviews : views ≠ []) :
    (blockEnd marker views).offset = offsetOf source rest := by
  obtain ⟨taken, rfl, rfl⟩ := takeBlock_spec.ok h
  cases hlast : taken.getLast? with
  | none =>
    obtain rfl := List.getLast?_eq_none_iff.mp hlast
    exact absurd rfl hviews
  | some last =>
    obtain ⟨hlocated, hend⟩ := hlines.getLast hlast
    rw [blockEnd, List.getLast?_map, hlast]
    exact (lineEnd_offset hlocated).trans hend

theorem block_outside {c t' : List SourceLine} {l' : SourceLine} {views' : List LineView}
    {start : SourcePosition} (hlines : Consecutive I.original (c ++ I.below'))
    (hlocated : LineAt I.original l') (hmarker : c = [] → l'.endOffset = I.offset)
    (hrun : takeBlock cfg 2 (c ++ I.below') = .ok views' t')
    (hstart : ∀ first u, c ++ I.below' = first :: u → start.offset = first.startOffset)
    (h : (outside I.offset I.line.text).block ⟨start, blockEnd l' views'⟩) :
    offsetOf I.original t' ≤ I.offset ∧ ((views' = [] → c = []) → offsetOf I.original t' = I.offset →
      (lineView I.line).content = [] ∨ (lineView I.line).indentColumns ≤ 2) := by
  have hfirst : offsetOf I.original (c ++ I.below') ≤ I.offset :=
    hlines.offset_le (List.suffix_append c I.below')
  by_cases hviews : views' = []
  · obtain ⟨taken, htaken, hmap⟩ := takeBlock_spec.ok hrun
    have hnone : taken = [] := by
      rw [hviews] at hmap
      exact List.map_eq_nil_iff.mp hmap.symm
    have ht' : c ++ I.below' = t' := by
      rw [htaken, hnone]
      rfl
    refine ⟨ht' ▸ hfirst, ?_⟩
    intro hall _
    have hend : (blockEnd l' views').offset = I.offset := by
      rw [hviews]
      exact (lineEnd_offset hlocated).trans (hmarker (hall hviews))
    rw [content_eq]
    exact h.2 hend
  · have hend : (blockEnd l' views').offset = offsetOf I.original t' :=
      blockEnd_offset hlines hrun hviews
    have hbegin : start.offset ≤ I.offset := by
      cases hlist : c ++ I.below' with
      | nil => exact absurd (List.append_eq_nil_iff.mp hlist).2 I.some_below
      | cons first u =>
        rw [hstart first u hlist]
        rw [hlist] at hfirst
        exact hfirst
    refine ⟨?_, ?_⟩
    · by_contra hlater
      refine h.1 ⟨hbegin, ?_⟩
      change I.offset < (blockEnd l' views').offset
      omega
    · intro _ hoffset
      rw [content_eq]
      exact h.2 (hend.trans hoffset)

theorem block_beside {l l' : SourceLine} (h : I.Beside s s') (hnear : I.Near l' s s') :
    Mirrors I.endings.accord (Ast.Val.Admitted (outside I.offset I.line.text))
      (parseBlockString cfg 2 l) (parseBlockString cfg 2 l')
      (fun a t a' t' => a.unplaced = a'.unplaced ∧ I.Beside t t') s s' := by
  cases hrun : takeBlock cfg 2 s' with
  | error e t => exact mirrors_ignored trivial (parseBlockString_error l' hrun)
  | ok views' t' =>
    obtain ⟨start', hvalue', hstart'⟩ := parseBlockString_ok l' hrun
    have hsame_text {views : List LineView} {start : SourcePosition}
        (hviews : blockText 2 views = blockText 2 views') :
        (Ast.Val.string .block (blockText 2 views) (blockText 2 views) ⟨start, blockEnd l views⟩).unplaced =
          (Ast.Val.string .block (blockText 2 views') (blockText 2 views')
            ⟨start', blockEnd l' views'⟩).unplaced := by
      simp only [Ast.Val.unplaced, hviews]
    rcases hnear with hsame | ⟨c, rfl, rfl, hlocated, hle, hmarker⟩
    · obtain ⟨views, d, d', t, hfirst, hviews, rfl, rfl, ht⟩ := takeBlock_same hsame hrun
      obtain ⟨start, hvalue, -⟩ := parseBlockString_ok l hfirst
      exact mirrors_ok hvalue hvalue'
        (fun _ => ⟨hsame_text (blockText_same hviews 2), h.rest hsame ht⟩)
    · unfold Mirrors
      rw [hvalue']
      intro hadmitted
      have hc := h.suffix_above
      obtain ⟨hstop, hshallow⟩ := block_outside (suffix_original hc) hlocated hmarker hrun hstart'
        (hadmitted trivial)
      rcases takeBlock_above hc hrun hstop hshallow with ⟨views, t, hfirst, htext, ht⟩ | ⟨hodd, e, t, hfirst⟩
      · obtain ⟨start, hvalue, -⟩ := parseBlockString_ok l hfirst
        exact .inl ⟨_, t, hvalue, hsame_text htext, ht⟩
      · exact .inr ⟨trivial, hodd, e, t, parseBlockString_error l hfirst⟩

def walk (cfg : ParserConfig) (I : Insertion) : Walk cfg where
  toEndings := I.endings
  embedded := outside I.offset I.line.text
  R := I.Beside
  near := I.Near
  depth := trivial
  located h := ⟨⟨_, h.consecutive.1.1⟩, _, h.consecutive.2.1⟩
  inside_of _ := trivial
  length_le h := h.length_le
  skip h := skip_beside h
  json h hnear := json_beside h hnear
  block h hnear := block_beside h hnear

theorem walk_ends : (walk cfg I).Ends := by
  intro line more houter h
  generalize hs : line :: more = s at h
  generalize hs' : ([] : List SourceLine) = s' at h
  cases h with
  | above hc => exact absurd (List.append_eq_nil_iff.mp hs'.symm).2 I.some_below
  | below _ _ _ h =>
    subst hs hs'
    cases h
  | last =>
    cases hs
    obtain ⟨c, cs, htext, hindent, hmark⟩ := houter
    have hlayout := I.layout
    rw [LineView.isIgnorable, content_eq, htext, List.dropWhile_cons_of_neg (by simp [hindent])] at hlayout
    simp [hmark] at hlayout

theorem parse_ok {source : Text} {document : Ast.Document} (h : parse cfg source = .ok document) :
    parseDocument cfg source (physicalLines source) = .ok document [] := by
  rw [parse_eq] at h
  split at h
  next found t hrun =>
    cases h
    obtain rfl := yields_iff.mp (parseDocument_end source (physicalLines source)) _ _ hrun
    exact hrun
  · cases h

theorem parse_iff {document : Ast.Document} (I : Insertion)
    (horiginal : physicalLines I.original = I.above ++ I.below')
    (hedited : physicalLines I.edited = I.above ++ I.line :: I.below)
    (hparse : parse cfg I.original = .ok document)
    (hout : document.Admitted (outside I.offset I.line.text)) :
    (∃ found, parse cfg I.edited = .ok found ∧ found.unplaced = document.unplaced) ↔ I.Even := by
  have hrun := parse_ok hparse
  rw [horiginal] at hrun
  have hends : (walk cfg I).Ends := walk_ends
  have hkeeps := parseDocument_keeps hends I.edited I.original _ _ (Beside.above List.suffix_rfl)
  rcases hkeeps.ok hrun (fun _ => hout) with ⟨found, t, hfound, hsame, ht⟩ | ⟨-, hodd, e, t, hstop⟩
  · have heven : I.Even := by
      generalize hs' : ([] : List SourceLine) = s' at ht
      cases ht with
      | above hc => exact absurd (List.append_eq_nil_iff.mp hs'.symm).2 I.some_below
      | below heven => exact heven
      | last heven => exact heven
    refine ⟨fun _ => heven, fun _ => ⟨found, ?_, hsame⟩⟩
    rw [parse_eq, hedited, hfound]
  · refine ⟨?_, fun heven => absurd heven hodd⟩
    rintro ⟨found, hfound, -⟩
    rw [parse_eq, hedited, hstop] at hfound
    cases hfound

end Insertion

section Sources

def IsLayout (line : Text) : Prop :=
  line.dropWhile isIndent = [] ∨ (line.dropWhile isIndent).head? = some '#'

/-- A source with a line put in at an offset, between two of its physical lines. The last
of these may be the empty line after the last newline. -/
def Inserts (source : Text) (p : ℕ) (line edited : Text) : Prop :=
  ∃ above below raw, splitlines source = above ++ below ∧
    splitlines edited = above ++ raw :: below ∧ p = byteLength above.flatten ∧ chomp raw = line ∧
    endsWithNewline raw = true ∧ (below ≠ [] ∨ endsWithNewline source = true)

theorem splitlines_ne {text raw : Text} (h : raw ∈ splitlines text) : raw ≠ [] := by
  fun_induction splitlines text generalizing raw with
  | case1 => cases h
  | case2 rest ih =>
    rcases List.mem_cons.mp h with rfl | h
    · simp
    · exact ih h
  | case3 c rest _ hc ih =>
    rcases List.mem_cons.mp h with rfl | h
    · simp
    · exact ih h
  | case4 c rest _ hc hnil ih =>
    obtain rfl := List.mem_singleton.mp h
    simp
  | case5 c rest _ hc line lines hcons ih =>
    rcases List.mem_cons.mp h with rfl | h
    · simp
    · exact ih (by rw [hcons]; exact List.mem_cons_of_mem _ h)

theorem numberLines_append (number offset : ℕ) (above below : List Text) :
    numberLines number offset (above ++ below) = numberLines number offset above ++
      numberLines (number + above.length) (offset + byteLength above.flatten) below := by
  induction above generalizing number offset with
  | nil => simp [numberLines, byteLength]
  | cons raw above ih =>
    have hnumber : number + 1 + above.length = number + (raw :: above).length := by
      rw [List.length_cons]
      omega
    have hoffset : offset + byteLength raw + byteLength above.flatten =
        offset + byteLength (raw :: above).flatten := by
      simp only [byteLength, List.flatten_cons, List.map_append, List.sum_append]
      omega
    rw [List.cons_append, numberLines, numberLines, ih, hnumber, hoffset]
    rfl

theorem numberLines_same (raws : List Text) (number number' offset offset' : ℕ) :
    List.Forall₂ SameText (numberLines number offset raws) (numberLines number' offset' raws) := by
  induction raws generalizing number number' offset offset' with
  | nil => exact .nil
  | cons raw raws ih => exact .cons rfl (ih _ _ _ _)

def eofLines (source : Text) : List SourceLine :=
  if endsWithNewline source then
    [⟨(numberLines 1 0 (splitlines source)).length + 1, [], byteLength source, byteLength source, false⟩]
  else []

theorem physicalLines_eq {source : Text} (h : splitlines source ≠ []) :
    physicalLines source = numberLines 1 0 (splitlines source) ++ eofLines source := by
  have hne : (numberLines 1 0 (splitlines source)).isEmpty = false := by
    cases hlines : splitlines source with
    | nil => exact absurd hlines h
    | cons raw raws => rfl
  unfold physicalLines eofLines
  simp only [hne, Bool.false_eq_true, if_false]
  split
  · rfl
  · rw [List.append_nil]

theorem eofLines_same {source edited : Text} (h : endsWithNewline edited = endsWithNewline source) :
    List.Forall₂ SameText (eofLines edited) (eofLines source) := by
  unfold eofLines
  rw [h]
  split
  · exact .cons rfl .nil
  · exact .nil

theorem byteLength_pos {text : Text} (h : text ≠ []) : 0 < byteLength text := by
  obtain ⟨c, cs, rfl⟩ := List.exists_cons_of_ne_nil h
  have hchar := Char.utf8Size_pos c
  simp only [byteLength, List.map_cons, List.sum_cons]
  omega

theorem endsWithNewline_append (front : Text) {back : Text} (h : back ≠ []) :
    endsWithNewline (front ++ back) = endsWithNewline back := by
  unfold endsWithNewline
  rw [List.getLast?_append_of_ne_nil front h]

section Cut
variable {source edited raw : Text} {above below : List Text}

theorem endsWithNewline_insert (hsource : splitlines source = above ++ below)
    (hedited : splitlines edited = above ++ raw :: below) (hraw : endsWithNewline raw = true)
    (hbetween : below ≠ [] ∨ endsWithNewline source = true) :
    endsWithNewline edited = endsWithNewline source := by
  have hflat : source = above.flatten ++ below.flatten := by
    rw [← splitlines_flatten source, hsource, List.flatten_append]
  have hflat' : edited = above.flatten ++ raw ++ below.flatten := by
    rw [← splitlines_flatten edited, hedited, List.flatten_append, List.flatten_cons,
      List.append_assoc]
  by_cases hbelow : below = []
  · have hend := hbetween.resolve_left (fun h => h hbelow)
    have hraw_ne : raw ≠ [] := by
      rintro rfl
      cases hraw
    rw [hflat', hbelow, List.flatten_nil, List.append_nil, endsWithNewline_append _ hraw_ne, hraw, hend]
  · have hne : below.flatten ≠ [] := by
      obtain ⟨r, rs, rfl⟩ := List.exists_cons_of_ne_nil hbelow
      have hmem : r ∈ splitlines source := by
        rw [hsource]
        simp
      simp [splitlines_ne hmem]
    rw [hflat', hflat, endsWithNewline_append _ hne, endsWithNewline_append _ hne]

theorem physicalLines_cut (hsource : splitlines source = above ++ below) (hne : source ≠ []) :
    physicalLines source = numberLines 1 0 above ++
      (numberLines (1 + above.length) (byteLength above.flatten) below ++ eofLines source) := by
  have hlines : splitlines source ≠ [] := by
    intro hnil
    have hflat := splitlines_flatten source
    rw [hnil] at hflat
    exact hne hflat.symm
  rw [physicalLines_eq hlines, hsource, numberLines_append, Nat.zero_add, List.append_assoc]

theorem exists_insertion {p : ℕ} {line : Text} (h : Inserts source p line edited)
    (hlayout : IsLayout line) :
    ∃ I : Insertion, I.original = source ∧ I.edited = edited ∧ I.offset = p ∧ I.line.text = line ∧
      physicalLines source = I.above ++ I.below' ∧
      physicalLines edited = I.above ++ I.line :: I.below := by
  obtain ⟨above, below, raw, hsource, hedited, hp, hchomp, hraw, hbetween⟩ := h
  have hend := endsWithNewline_insert hsource hedited hraw hbetween
  have hraw_ne : raw ≠ [] := by
    rintro rfl
    cases hraw
  have hsource_ne : source ≠ [] := by
    rintro rfl
    rcases hbetween with hbelow | hnewline
    · exact hbelow (List.append_eq_nil_iff.mp hsource.symm).2
    · cases hnewline
  have hedited_ne : edited ≠ [] := by
    rintro rfl
    exact List.cons_ne_nil _ _ (List.append_eq_nil_iff.mp hedited.symm).2
  have hlines := physicalLines_cut hsource hsource_ne
  have hlines' := physicalLines_cut hedited hedited_ne
  rw [numberLines, List.cons_append] at hlines'
  refine ⟨{
    original := source
    edited := edited
    above := numberLines 1 0 above
    line := ⟨1 + above.length, chomp raw, byteLength above.flatten,
      byteLength above.flatten + byteLength raw, endsWithNewline raw⟩
    below := numberLines (1 + above.length + 1) (byteLength above.flatten + byteLength raw) below ++
      eofLines edited
    below' := numberLines (1 + above.length) (byteLength above.flatten) below ++ eofLines source
    original_lines := hlines ▸ physicalLines_consecutive source
    edited_lines := hlines' ▸ physicalLines_consecutive edited
    same := ?_
    layout := ?_
    some_below := ?_
    last := ?_ }, rfl, rfl, ?_, hchomp, hlines, hlines'⟩
  · exact List.rel_append (numberLines_same below _ _ _ _) (eofLines_same hend)
  · rw [LineView.isIgnorable, content_eq, hchomp]
    rcases hlayout with hblank | hcomment
    · simp [hblank]
    · simp [hcomment]
  · intro hnil
    obtain ⟨hbelow, heof⟩ := List.append_eq_nil_iff.mp hnil
    rcases hbetween with hne | hnewline
    · obtain ⟨r, rs, rfl⟩ := List.exists_cons_of_ne_nil hne
      cases hbelow
    · simp [eofLines, hnewline] at heof
  · intro l u hcons hoffset
    cases below with
    | nil =>
      have hnewline := hbetween.resolve_left (fun h => h rfl)
      simp only [numberLines, List.nil_append, eofLines, hnewline, if_true] at hcons
      cases hcons
      exact ⟨rfl, rfl⟩
    | cons r rs =>
      -- A line that was cut from the source has at least one character.
      have hmem : r ∈ splitlines source := by
        rw [hsource]
        simp
      have hsize := byteLength_pos (splitlines_ne hmem)
      cases hcons
      simp only at hoffset
      omega
  · rw [hp]
    change offsetOf source (numberLines _ _ below ++ eofLines source) = _
    cases below with
    | nil =>
      have hnewline := hbetween.resolve_left (fun h => h rfl)
      have hflat : source = above.flatten := by
        rw [← splitlines_flatten source, hsource, List.append_nil]
      simp only [numberLines, List.nil_append, eofLines, hnewline, if_true, offsetOf]
      rw [← hflat]
    | cons r rs => rfl

end Cut

def planWith (inserted : List String) : Text :=
  sourceOf (["Rattish: 1", "Workflow:", "  id: plan", "Node ask:"] ++ inserted ++
    ["  type: agent", "  limits: [1,", "    2]", "  prompt: |", "    Say hi.", "Node done:",
      "  type: finish"])

/-- A line of spaces and tabs, with or without a comment, put outside embedded JSON and
literal blocks, leaves the document as it is exactly where its columns are even. -/
theorem layout_line_transparent_iff (cfg : ParserConfig) {source edited line : Text} {p : ℕ}
    {document : Ast.Document} (hparse : parse cfg source = .ok document)
    (hinserts : Inserts source p line edited) (hlayout : IsLayout line)
    (hout : document.Admitted (outside p line)) :
    (∃ found, parse cfg edited = .ok found ∧ found.unplaced = document.unplaced) ↔
      indentColumns line % 2 = 0 := by
  obtain ⟨I, rfl, rfl, rfl, rfl, horiginal, hedited⟩ := exists_insertion hinserts hlayout
  exact I.parse_iff horiginal hedited hparse hout

theorem plan_comment_transparent : ∃ document found, parse asciiConfig (planWith []) = .ok document ∧
    parse asciiConfig (planWith ["\t  # who is asked"]) = .ok found ∧
    found.unplaced = document.unplaced := by
  have hplan : (parse asciiConfig (planWith [])).toOption.map
      (fun d => decide (d.Admitted (outside 42 "\t  # who is asked".toList))) = some true := by
    decide +kernel
  cases hparse : parse asciiConfig (planWith []) with
  | error e =>
    rw [hparse] at hplan
    cases hplan
  | ok document =>
    rw [hparse] at hplan
    have hinserts : Inserts (planWith []) 42 "\t  # who is asked".toList
        (planWith ["\t  # who is asked"]) :=
      ⟨splitlines (sourceOf ["Rattish: 1", "Workflow:", "  id: plan", "Node ask:"]),
        splitlines (sourceOf ["  type: agent", "  limits: [1,", "    2]", "  prompt: |",
          "    Say hi.", "Node done:", "  type: finish"]), "\t  # who is asked\n".toList,
        by decide +kernel, by decide +kernel, by decide +kernel, by decide +kernel,
        by decide +kernel, by decide +kernel⟩
    obtain ⟨found, hfound, hsame⟩ := (layout_line_transparent_iff asciiConfig hparse hinserts
      (.inr (by decide +kernel)) (of_decide_eq_true (Option.some.inj hplan))).mpr (by decide +kernel)
    exact ⟨document, found, rfl, hfound, hsame⟩

/-- One space on a line of its own is enough for the document to be rejected. -/
theorem plan_blank_rejected : ∃ document, parse asciiConfig (planWith []) = .ok document ∧
    Inserts (planWith []) 42 [' '] (planWith [" "]) ∧ IsLayout [' '] ∧
    document.Admitted (outside 42 [' ']) ∧
    ¬ ∃ found, parse asciiConfig (planWith [" "]) = .ok found ∧
      found.unplaced = document.unplaced := by
  have hplan : (parse asciiConfig (planWith [])).toOption.map
      (fun d => decide (d.Admitted (outside 42 [' ']))) = some true := by decide +kernel
  have hrejected : (parse asciiConfig (planWith [" "])).toOption.isNone = true := by decide +kernel
  cases hparse : parse asciiConfig (planWith []) with
  | error e =>
    rw [hparse] at hplan
    cases hplan
  | ok document =>
    rw [hparse] at hplan
    have hinserts : Inserts (planWith []) 42 [' '] (planWith [" "]) :=
      ⟨splitlines (sourceOf ["Rattish: 1", "Workflow:", "  id: plan", "Node ask:"]),
        splitlines (sourceOf ["  type: agent", "  limits: [1,", "    2]", "  prompt: |",
          "    Say hi.", "Node done:", "  type: finish"]), [' ', '\n'],
        by decide +kernel, by decide +kernel, by decide +kernel, by decide +kernel,
        by decide +kernel, by decide +kernel⟩
    refine ⟨document, rfl, hinserts, .inl (by decide +kernel),
      of_decide_eq_true (Option.some.inj hplan), ?_⟩
    rintro ⟨found, hfound, -⟩
    rw [hfound] at hrejected
    cases hrejected

end Sources

end Raticode.Rattish
