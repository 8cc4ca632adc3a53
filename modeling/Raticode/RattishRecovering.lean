import Raticode.RattishRecovery
import Raticode.RattishTaken

/-! What the recovering parser keeps. A declaration reads in its document as it reads
where its block of lines stands alone, as long as no embedded JSON stays open at the end
of the block; so one bad declaration costs no other. -/
namespace Raticode.Rattish
open PyText Attempt

def Unterminated (e : Failure) : Prop :=
  ∃ d, e = .parseError d ∧ d.message = "Embedded JSON value is not terminated."

structure Segment where
  source : Text
  block : List SourceLine
  tail : List SourceLine
  lines : Consecutive source (block ++ tail)
  outer : tail = [] ∨ ∃ line more, tail = line :: more ∧ Outer line

namespace Segment
variable (S : Segment)

def Beside (s s' : List SourceLine) : Prop := s' <:+ S.block ∧ s = s' ++ S.tail

def endings : Endings where
  selective := False
  mayStop := False
  excused e := e = .depth ∨ S.tail ≠ [] ∧ Unterminated e
  inside t := ∃ c, c <:+ S.block ∧ t = c ++ S.tail

variable {S} {cfg : ParserConfig} {s s' : List SourceLine}

theorem Beside.inside (h : S.Beside s s') : S.endings.inside s := ⟨s', h.1, h.2⟩

theorem Beside.rest {l : SourceLine} {u : List SourceLine} (h : l :: u <:+ S.block) :
    S.Beside (u ++ S.tail) u :=
  ⟨(List.suffix_cons l u).trans h, rfl⟩

theorem suffix_lines {c : List SourceLine} (hc : c <:+ S.block) :
    Consecutive S.source (c ++ S.tail) := by
  obtain ⟨init, hinit⟩ := hc
  refine S.lines.suffix ⟨init, ?_⟩
  rw [← hinit, List.append_assoc]

theorem Beside.located {l l' : SourceLine} {u u' : List SourceLine}
    (h : S.Beside (l :: u) (l' :: u')) : (∃ source, LineAt source l) ∧ ∃ source, LineAt source l' := by
  obtain ⟨hc, hs⟩ := h
  cases hs
  have hlines := suffix_lines hc
  exact ⟨⟨S.source, hlines.1⟩, S.source, hlines.1⟩

theorem skipIgnorable_outer {line : SourceLine} {more : List SourceLine} (h : Outer line) :
    skipIgnorable cfg (line :: more) = .ok () (line :: more) := by
  unfold skipIgnorable
  rw [view_outer cfg h]
  simp [not_isIgnorable_outer h]

theorem skip_tail : skipIgnorable cfg S.tail = .ok () S.tail := by
  rcases S.outer with htail | ⟨line, more, htail, houter⟩
  · rw [htail]
    rfl
  · rw [htail]
    exact skipIgnorable_outer houter

theorem skip_beside (h : S.Beside s s') :
    Mirrors S.endings.accord (Any Unit) (skipIgnorable cfg) (skipIgnorable cfg)
      (fun _ t _ t' => Ready S.Beside (fun _ _ _ => True) t t') s s' := by
  obtain ⟨hc, rfl⟩ := h
  induction s' with
  | nil =>
    refine mirrors_ok (a := ()) (t := S.tail) ?_ rfl (fun _ => .done S.outer ⟨hc, rfl⟩)
    rw [List.nil_append]
    exact skip_tail
  | cons l u ih =>
    have hrest := Beside.rest hc
    cases hv : view cfg l with
    | error e =>
      refine mirrors_error (e := e) (t := l :: (u ++ S.tail)) ?_ (?_ : _ = EStateM.Result.error e (l :: u))
        ⟨rfl, l :: u, hc, rfl⟩
      · rw [List.cons_append, skipIgnorable, hv]
      · rw [skipIgnorable, hv]
    | ok v =>
      obtain rfl := view_eq hv
      cases hi : (lineView l).isIgnorable with
      | true =>
        have hskip (r : List SourceLine) : skipIgnorable cfg (l :: r) = skipIgnorable cfg r := by
          rw [skipIgnorable, hv]
          simp only [hi, if_true]
        have hnext := ih hrest.1
        unfold Mirrors at hnext ⊢
        rw [List.cons_append, hskip, hskip]
        exact hnext
      | false =>
        have hstay (r : List SourceLine) : skipIgnorable cfg (l :: r) = .ok () (l :: r) := by
          rw [skipIgnorable, hv]
          simp [hi]
        exact mirrors_ok (hstay (u ++ S.tail)) (hstay u)
          (fun _ => .line rfl hi ⟨hc, rfl⟩ hrest trivial trivial)

section Json
variable {e e' : Failure} {depth : ℕ} {quoted escaped : Bool} {text : Text} {l l' : SourceLine}
  {start : ℕ}

theorem collectJson_line (h : S.Beside s s')
    (hstill : ∀ d q f, jsonLine cfg depth quoted escaped text l start = .ok (.inr (d, q, f)) →
      jsonLine cfg depth quoted escaped text l' start = .ok (.inr (d, q, f)) →
      Mirrors S.endings.accord (Any (Text × SourcePosition))
        (collectJson cfg e depth quoted escaped text l start)
        (collectJson cfg e' depth quoted escaped text l' start)
        (fun a t a' t' => a.1 = a'.1 ∧ S.Beside t t') s s') :
    Mirrors S.endings.accord (Any (Text × SourcePosition))
      (collectJson cfg e depth quoted escaped text l start)
      (collectJson cfg e' depth quoted escaped text l' start)
      (fun a t a' t' => a.1 = a'.1 ∧ S.Beside t t') s s' := by
  have hline : Agree jsonRest (jsonLine cfg depth quoted escaped text l start)
      (jsonLine cfg depth quoted escaped text l' start) := jsonLine_agree depth quoted escaped
  rcases hj' : jsonLine cfg depth quoted escaped text l' start with f' | result' | ⟨d, q, g⟩
  · cases hj : jsonLine cfg depth quoted escaped text l start with
    | error f =>
      rw [hj, hj'] at hline
      exact mirrors_error (collectJson_error hj) (collectJson_error hj') ⟨hline, h.inside⟩
    | ok r =>
      rw [hj, hj'] at hline
      exact hline.elim
  · obtain ⟨result, hj, heq⟩ := jsonLine_inl (l := l) hj'
    exact mirrors_ok (collectJson_closed hj) (collectJson_closed hj') (fun _ => ⟨heq, h⟩)
  · exact hstill d q g (jsonLine_inr hj') hj'

theorem collectJson_beside (he : e.unplaced = e'.unplaced) (hopen : Unterminated e')
    (h : S.Beside s s') :
    Mirrors S.endings.accord (Any (Text × SourcePosition))
      (collectJson cfg e depth quoted escaped text l start)
      (collectJson cfg e' depth quoted escaped text l' start)
      (fun a t a' t' => a.1 = a'.1 ∧ S.Beside t t') s s' := by
  obtain ⟨hc, rfl⟩ := h
  -- Where lines follow the block, JSON that is open at its end is excused.
  have hover {s' : List SourceLine} (hs' : s' <:+ S.block) (hend : s' = [] ∨ atEofLine s' = true)
      {depth : ℕ} {quoted escaped : Bool} {text : Text} {l l' : SourceLine} {start d : ℕ} {q f : Bool}
      (hj : jsonLine cfg depth quoted escaped text l start = .ok (.inr (d, q, f)))
      (hj' : jsonLine cfg depth quoted escaped text l' start = .ok (.inr (d, q, f))) :
      Mirrors S.endings.accord (Any (Text × SourcePosition))
        (collectJson cfg e depth quoted escaped text l start)
        (collectJson cfg e' depth quoted escaped text l' start)
        (fun a t a' t' => a.1 = a'.1 ∧ S.Beside t t') (s' ++ S.tail) s' := by
    by_cases htail : S.tail = []
    · rw [htail, List.append_nil]
      exact mirrors_error (collectJson_over hj hend) (collectJson_over hj' hend)
        ⟨he, s', hs', by rw [htail, List.append_nil]⟩
    · exact mirrors_excused (collectJson_over hj' hend) (.inr ⟨htail, hopen⟩)
  induction s' generalizing depth quoted escaped text l l' start with
  | nil =>
    refine collectJson_line ⟨hc, rfl⟩ (fun d q f hj hj' => ?_)
    exact hover hc (.inl rfl) hj hj'
  | cons n u ih =>
    refine collectJson_line ⟨hc, rfl⟩ (fun d q f hj hj' => ?_)
    cases hlast : atEofLine (n :: u) with
    | true => exact hover hc (.inr hlast) hj hj'
    | false =>
      have hlast' : atEofLine (n :: (u ++ S.tail)) = false := by
        cases u with
        | nil =>
          cases htail : S.tail with
          | nil => exact hlast
          | cons a w => rfl
        | cons a u => rfl
      have hnext : Mirrors S.endings.accord (Any (Text × SourcePosition))
          (collectJson cfg e d q f n.text n 0) (collectJson cfg e' d q f n.text n 0)
          (fun a t a' t' => a.1 = a'.1 ∧ S.Beside t t') (u ++ S.tail) u := ih (Beside.rest hc).1
      have hboth : Mirrors S.endings.accord (Any (Text × SourcePosition))
          (collectJson cfg e d q f n.text n 0 >>= fun r => pure (text ++ '\n' :: r.1, r.2))
          (collectJson cfg e' d q f n.text n 0 >>= fun r => pure (text ++ '\n' :: r.1, r.2))
          (fun a t a' t' => a.1 = a'.1 ∧ S.Beside t t') (u ++ S.tail) u := by
        refine hnext.andThen ?_
        rintro r t r' t' ⟨hr, ht⟩
        exact mirrors_pure (fun _ => ⟨by simp only [hr], ht⟩)
      unfold Mirrors at hboth ⊢
      rw [List.cons_append, collectJson_bind hj hlast', collectJson_bind hj' hlast]
      exact hboth

theorem json_beside (h : S.Beside s s') {P : Ast.Val → Prop} :
    Mirrors S.endings.accord P (parseJson cfg text l start) (parseJson cfg text l' start)
      (fun a t a' t' => a.unplaced = a'.unplaced ∧ S.Beside t t') s s' := by
  unfold parseJson
  refine (collectJson_beside ?_ ⟨_, rfl, rfl⟩ h).andThen ?_
  · rfl
  · rintro ⟨source, stop⟩ t ⟨source', stop'⟩ t' ⟨hsource, ht⟩
    obtain rfl : source = source' := hsource
    simp only
    split
    · exact mirrors_pure (fun _ => ⟨rfl, ht⟩)
    · exact mirrors_fail ⟨rfl, ht.inside⟩
    · exact mirrors_fail ⟨rfl, ht.inside⟩

end Json

theorem takeBlock_beside (h : S.Beside s s') :
    Mirrors S.endings.accord (Any (List LineView)) (takeBlock cfg 2) (takeBlock cfg 2)
      (fun views t views' t' => views = views' ∧ S.Beside t t') s s' := by
  obtain ⟨hc, rfl⟩ := h
  have htail : takeBlock cfg 2 S.tail = .ok [] S.tail := by
    rcases S.outer with htail | ⟨line, more, htail, houter⟩
    · rw [htail]
      rfl
    · obtain ⟨c, cs, htext, -⟩ := id houter
      rw [htail, takeBlock_cons, view_outer cfg houter]
      simp [htext]
  cases halone : takeBlock cfg 2 s' with
  | error e t =>
    refine mirrors_error (e := e) (t := t ++ S.tail) ?_ halone ⟨rfl, t, ?_, rfl⟩
    · rw [takeBlock_append, halone]
    · exact (takeBlock_error halone).trans hc
  | ok views t =>
    obtain ⟨taken, htaken, -⟩ := takeBlock_spec.ok halone
    have hsuffix : t <:+ S.block := (htaken ▸ List.suffix_append taken t).trans hc
    refine mirrors_ok (a := views) (t := t ++ S.tail) ?_ halone (fun _ => ⟨rfl, hsuffix, rfl⟩)
    rw [takeBlock_append, halone]
    cases t with
    | nil => simp only [htail, List.append_nil, List.nil_append]
    | cons line t => rfl

theorem block_beside {l l' : SourceLine} (h : S.Beside s s') {P : Ast.Val → Prop} :
    Mirrors S.endings.accord P (parseBlockString cfg 2 l) (parseBlockString cfg 2 l')
      (fun a t a' t' => a.unplaced = a'.unplaced ∧ S.Beside t t') s s' := by
  unfold parseBlockString
  apply mirrors_peek
  refine (takeBlock_beside h).andThen ?_
  rintro views t _ t' ⟨rfl, ht⟩
  exact mirrors_pure (fun _ => ⟨rfl, ht⟩)

def walk (cfg : ParserConfig) (S : Segment) : Walk cfg where
  toEndings := S.endings
  embedded := ⟨fun _ => True, fun _ => True⟩
  R := S.Beside
  near _ _ _ := True
  depth := .inl rfl
  located h := h.located
  inside_of h := h.inside
  length_le h := by
    rw [h.2, List.length_append]
    omega
  skip h := skip_beside h
  json h _ := json_beside h
  block h _ := block_beside h

section Node
variable {eof : SourcePosition} {first : SourceLine} {u : List SourceLine}

theorem parseNode_beside (h : first :: u <:+ S.block) :
    Mirrors (walk cfg S).accord (Ast.NodeDecl.Admitted (walk cfg S).embedded) (parseNode cfg eof)
      (parseNode cfg eof) (fun a t a' t' => a.unplaced = a'.unplaced ∧ S.Beside t t')
      (first :: (u ++ S.tail)) (first :: u) :=
  parseNode_keeps first first (u ++ S.tail) u rfl ⟨h, rfl⟩ (Beside.rest h) trivial

theorem parseNode_ok (hblock : S.block = first :: u) {node : Ast.NodeDecl} {t : List SourceLine}
    (h : parseNode cfg eof S.block = .ok node t) :
    ∃ found, parseNode cfg eof (S.block ++ S.tail) = .ok found (t ++ S.tail) ∧
      found.unplaced = node.unplaced ∧ t <:+ S.block := by
  have hsuffix : first :: u <:+ S.block := hblock ▸ List.suffix_rfl
  rw [hblock] at h
  rcases (parseNode_beside hsuffix).ok h (fun hsel => hsel.elim) with ⟨found, t1, hfound, hsame, ht, rfl⟩ | ⟨hsel, -⟩
  · exact ⟨found, by rw [hblock]; exact hfound, hsame, ht⟩
  · exact hsel.elim

theorem parseNode_error (hblock : S.block = first :: u) {e : Failure} {t : List SourceLine}
    (h : parseNode cfg eof S.block = .error e t) (hdepth : e ≠ .depth)
    (hclosed : S.tail ≠ [] → ¬ Unterminated e) :
    ∃ f c, parseNode cfg eof (S.block ++ S.tail) = .error f (c ++ S.tail) ∧
      f.unplaced = e.unplaced ∧ c <:+ S.block := by
  have hsuffix : first :: u <:+ S.block := hblock ▸ List.suffix_rfl
  rw [hblock] at h
  rcases (parseNode_beside hsuffix).error h with hsel | hexcused | ⟨f, t1, hf, hsame, c, hc, rfl⟩
  · exact hsel.elim
  · rcases hexcused with hexcused | ⟨htail, hopen⟩
    · exact absurd hexcused hdepth
    · exact absurd hopen (hclosed htail)
  · exact ⟨f, c, by rw [hblock]; exact hf, hsame, hc⟩

end Node

end Segment

section Relocated
variable {cfg : ParserConfig}

def Relocated (s s' : List SourceLine) : Prop :=
  List.Forall₂ SameText s s' ∧ (∀ l ∈ s, ∃ source, LineAt source l) ∧
    ∀ l ∈ s', ∃ source, LineAt source l

theorem Relocated.rest {c c' t t' : List SourceLine} (h : Relocated (c ++ t) (c' ++ t'))
    (ht : List.Forall₂ SameText t t') : Relocated t t' :=
  ⟨ht, fun l hl => h.2.1 l (List.mem_append_right c hl),
    fun l hl => h.2.2 l (List.mem_append_right c' hl)⟩

theorem Relocated.tail {l l' : SourceLine} {u u' : List SourceLine}
    (h : Relocated (l :: u) (l' :: u')) : Relocated u u' := by
  have hlines : Relocated ([l] ++ u) ([l'] ++ u') := h
  cases h.1 with
  | cons _ hu => exact hlines.rest hu

theorem Relocated.symm {s s' : List SourceLine} (h : Relocated s s') : Relocated s' s :=
  ⟨h.1.flip.imp (fun _ _ (heq : SameText _ _) => Eq.symm heq), h.2.2, h.2.1⟩

theorem Consecutive.located {source : Text} {s : List SourceLine} (h : Consecutive source s)
    {l : SourceLine} (hl : l ∈ s) : LineAt source l := by
  obtain ⟨init, rest, rfl⟩ := List.append_of_mem hl
  exact (h.suffix (List.suffix_append init (l :: rest))).1

def relocated : Endings where
  selective := False
  mayStop := False
  excused _ := True
  inside _ := True

theorem skip_relocated {s s' : List SourceLine} (h : Relocated s s') :
    Mirrors relocated.accord (Any Unit) (skipIgnorable cfg) (skipIgnorable cfg)
      (fun _ t _ t' => Ready Relocated (fun _ _ _ => True) t t') s s' := by
  obtain ⟨hsame, hlines⟩ := h
  induction hsame with
  | nil => exact mirrors_ok rfl rfl (fun _ => .done (.inl rfl) ⟨.nil, hlines⟩)
  | @cons l l' u u' hl hu ih =>
    have h : Relocated (l :: u) (l' :: u') := ⟨.cons hl hu, hlines⟩
    exact mirrors_skip_cons (fun _ => .inr trivial) hl h h.tail trivial trivial (ih h.tail.2)

theorem json_relocated {s s' : List SourceLine} {l l' : SourceLine} {text : Text} {start : ℕ}
    (h : Relocated s s') {P : Ast.Val → Prop} :
    Mirrors relocated.accord P (parseJson cfg text l start) (parseJson cfg text l' start)
      (fun a t a' t' => a.unplaced = a'.unplaced ∧ Relocated t t') s s' := by
  have hcollect (e e' : Failure) : Mirrors relocated.accord (Any (Text × SourcePosition))
      (collectJson cfg e 0 false false text l start) (collectJson cfg e' 0 false false text l' start)
      (fun a t a' t' => a.1 = a'.1 ∧ Relocated t t') s s' := by
    cases hrun : collectJson cfg e' 0 false false text l' start s' with
    | error f t => exact mirrors_excused hrun trivial
    | ok result' t' =>
      obtain ⟨result, c, c', t, hfirst, heq, rfl, rfl, ht⟩ := collectJson_same h.1 hrun
      exact mirrors_ok hfirst hrun (fun _ => ⟨heq, h.rest ht⟩)
  unfold parseJson
  refine (hcollect _ _).andThen ?_
  rintro ⟨source, stop⟩ t ⟨source', stop'⟩ t' ⟨hsource, ht⟩
  obtain rfl : source = source' := hsource
  simp only
  split
  · exact mirrors_pure (fun _ => ⟨rfl, ht⟩)
  · exact mirrors_excused rfl trivial
  · exact mirrors_excused rfl trivial

theorem block_relocated {s s' : List SourceLine} {l l' : SourceLine} (h : Relocated s s')
    {P : Ast.Val → Prop} :
    Mirrors relocated.accord P (parseBlockString cfg 2 l) (parseBlockString cfg 2 l')
      (fun a t a' t' => a.unplaced = a'.unplaced ∧ Relocated t t') s s' := by
  have htake : Mirrors relocated.accord (Any (List LineView)) (takeBlock cfg 2) (takeBlock cfg 2)
      (fun views t views' t' => List.Forall₂ SameView views views' ∧ Relocated t t') s s' := by
    cases hrun : takeBlock cfg 2 s' with
    | error e t => exact mirrors_excused hrun trivial
    | ok views' t' =>
      obtain ⟨views, c, c', t, hfirst, hviews, rfl, rfl, ht⟩ := takeBlock_same h.1 hrun
      exact mirrors_ok hfirst hrun (fun _ => ⟨hviews, h.rest ht⟩)
  unfold parseBlockString
  apply mirrors_peek
  refine htake.andThen ?_
  rintro views t views' t' ⟨hviews, ht⟩
  refine mirrors_pure (fun _ => ⟨?_, ht⟩)
  simp only [Ast.Val.unplaced, blockText_same hviews]

def relocatedWalk (cfg : ParserConfig) : Walk cfg where
  toEndings := relocated
  embedded := ⟨fun _ => True, fun _ => True⟩
  R := Relocated
  near _ _ _ := True
  depth := trivial
  located h := ⟨h.2.1 _ List.mem_cons_self, h.2.2 _ List.mem_cons_self⟩
  inside_of _ := trivial
  length_le h := h.1.length_eq.ge
  skip h := skip_relocated h
  json h _ := json_relocated h
  block h _ := block_relocated h

theorem parseNode_relocated (eof : SourcePosition) {eof' : SourcePosition}
    {s s' t' : List SourceLine} {node' : Ast.NodeDecl} (h : Relocated s s')
    (hrun : parseNode cfg eof' s' = .ok node' t') :
    ∃ node t, parseNode cfg eof s = .ok node t ∧ node.unplaced = node'.unplaced ∧
      Relocated t t' := by
  cases h.1 with
  | nil => cases hrun
  | @cons l l' u u' hl hu =>
    have hmirrors : Mirrors (relocatedWalk cfg).accord
        (Ast.NodeDecl.Admitted (relocatedWalk cfg).embedded) (parseNode cfg eof)
        (parseNode cfg eof') (fun a t a' t' => a.unplaced = a'.unplaced ∧ Relocated t t')
        (l :: u) (l' :: u') := parseNode_keeps l l' u u' hl h h.tail trivial
    rcases hmirrors.ok hrun (fun hsel => hsel.elim) with ⟨node, t, hnode, hsame, ht⟩ | ⟨hsel, -⟩
    · exact ⟨node, t, hnode, hsame, ht⟩
    · exact hsel.elim

end Relocated

section Declarations

def splitDeclarations : List SourceLine → List SourceLine × List (List SourceLine)
  | [] => ([], [])
  | line :: lines =>
    let (before, blocks) := splitDeclarations lines
    if startsDeclaration line.text then ([], (line :: before) :: blocks)
    else (line :: before, blocks)

def IsBlock (block : List SourceLine) : Prop :=
  ∃ first u, block = first :: u ∧ startsDeclaration first.text = true ∧
    ∀ line ∈ u, startsDeclaration line.text = false

theorem splitDeclarations_spec (lines : List SourceLine) :
    lines = (splitDeclarations lines).1 ++ (splitDeclarations lines).2.flatten ∧
      (∀ line ∈ (splitDeclarations lines).1, startsDeclaration line.text = false) ∧
      ∀ block ∈ (splitDeclarations lines).2, IsBlock block := by
  induction lines with
  | nil => exact ⟨rfl, by simp [splitDeclarations], by simp [splitDeclarations]⟩
  | cons line lines ih =>
    obtain ⟨hlines, hbefore, hblocks⟩ := ih
    unfold splitDeclarations
    simp only
    split
    next hstart =>
      refine ⟨?_, by simp, ?_⟩
      · rw [List.nil_append, List.flatten_cons, List.cons_append, ← hlines]
      · intro block hblock
        rcases List.mem_cons.mp hblock with rfl | hblock
        · exact ⟨line, _, rfl, hstart, hbefore⟩
        · exact hblocks block hblock
    next hstart =>
      refine ⟨?_, ?_, hblocks⟩
      · rw [List.cons_append, ← hlines]
      · intro l hl
        rcases List.mem_cons.mp hl with rfl | hl
        · exact Bool.eq_false_iff.mpr hstart
        · exact hbefore l hl

theorem outer_of_startsDeclaration {line : SourceLine} (h : startsDeclaration line.text = true) :
    Outer line := by
  unfold startsDeclaration at h
  split at h
  next word c rest hkeyword =>
    unfold keyword? at hkeyword
    simp only at hkeyword
    split at hkeyword
    next hfold =>
      cases htext : line.text with
      | nil =>
        rw [htext] at hfold
        cases hfold
      | cons a w =>
        rw [htext] at hfold
        have ha : foldChar a = 'n' := (List.cons.inj hfold).1
        refine ⟨a, w, htext, ?_, ?_⟩
        · rw [Bool.eq_false_iff]
          intro hindent
          simp only [isIndent, Bool.or_eq_true, decide_eq_true_eq] at hindent
          rcases hindent with rfl | rfl <;> revert ha <;> decide
        · rintro rfl
          revert ha
          decide
    · cases hkeyword
  · cases h

theorem nextDeclaration_append {c tail : List SourceLine}
    (hc : ∀ line ∈ c, startsDeclaration line.text = false)
    (htail : tail = [] ∨ ∃ first u, tail = first :: u ∧ startsDeclaration first.text = true) :
    nextDeclaration (c ++ tail) = tail := by
  unfold nextDeclaration
  rw [List.dropWhile_append_of_pos (by simpa using hc)]
  rcases htail with rfl | ⟨first, u, rfl, hfirst⟩
  · rfl
  · rw [List.dropWhile_cons_of_neg (by simp [hfirst])]

end Declarations

section Ends
variable {cfg : ParserConfig}

theorem outer_of_indent {l : SourceLine} (h : (lineView l).isIgnorable = false)
    (hindent : (lineView l).indentColumns = 0) : Outer l := by
  cases htext : l.text with
  | nil => simp [LineView.isIgnorable, lineView, htext] at h
  | cons c cs =>
    have hc : isIndent c = false := by
      rw [Bool.eq_false_iff]
      intro hc
      -- A blank at the start would count for at least one column.
      simp only [lineView, indentColumns, htext, List.takeWhile_cons, hc, if_true, List.map_cons,
        List.sum_cons] at hindent
      split at hindent <;> omega
    refine ⟨c, cs, htext, hc, ?_⟩
    rintro rfl
    simp [LineView.isIgnorable, content_eq, htext, hc] at h

theorem entryLine_end (s : List SourceLine) : Yields (entryLine cfg 0) s (fun found t =>
    found = none → t = [] ∨ ∃ line more, t = line :: more ∧ Outer line) := by
  unfold entryLine
  rw [yields_bind]
  refine (skipIgnorable_stops s).mono ?_
  rintro _ t (rfl | ⟨l, u, rfl, hl⟩)
  · exact fun _ => .inl rfl
  · simp only [yields_bind, yields_peek, atEofLine_meaningful hl, Bool.false_eq_true, if_false,
      yields_lift]
    intro v hv
    obtain rfl := view_eq hv
    split
    next hindent => exact fun _ => .inr ⟨l, u, rfl, outer_of_indent hl (Nat.le_zero.mp hindent)⟩
    split
    · trivial
    · intro h
      cases h

theorem parseNodeEntries_end (eof : SourcePosition) (s : List SourceLine) :
    Yields (parseNodeEntries cfg eof 0) s (fun _ t =>
      t = [] ∨ ∃ line more, t = line :: more ∧ Outer line) := by
  unfold parseNodeEntries
  rw [yields_bind, yields_peek]
  refine wp_collect_end (fun s => ?_) _ s
  unfold nodeEntry
  rw [wp_bind]
  refine (entryLine_end s).mono ?_
  intro found t hfound
  cases found with
  | none => exact fun _ => hfound rfl
  | some v =>
    -- Every entry that is read asks for another turn.
    have hturn {x : Parse Ast.Entry} {u : List SourceLine} :
        Yields (x >>= fun entry => pure (Lap.next entry)) u (fun lap t => (∀ a, lap ≠ .next a) →
          t = [] ∨ ∃ line more, t = line :: more ∧ Outer line) := by
      rw [yields_bind]
      apply yields_iff.mpr
      intro entry t _ hlast
      exact absurd rfl (hlast entry)
    change Yields _ _ _
    simp only [yields_bind, yields_lift]
    intro parts _
    split
    · exact hturn
    split
    · exact hturn
    split
    · exact hturn
    · rw [yields_bind]
      apply yields_iff.mpr
      intro field t _ hlast
      exact absurd rfl (hlast (.field field))

theorem parseGenericEntries_end (s : List SourceLine) :
    Yields (parseGenericEntries cfg 0) s (fun _ t =>
      t = [] ∨ ∃ line more, t = line :: more ∧ Outer line) := by
  unfold parseGenericEntries
  rw [yields_bind, yields_peek]
  refine wp_collect_end (fun s => ?_) _ s
  rw [wp_bind]
  refine (entryLine_end s).mono ?_
  intro found t hfound
  cases found with
  | none => exact fun _ => hfound rfl
  | some v =>
    change Yields _ _ _
    rw [yields_bind]
    apply yields_iff.mpr
    intro field t _ hlast
    exact absurd rfl (hlast field)

theorem parseHeader_end (eof : SourcePosition) (s : List SourceLine) :
    Yields (parseHeader cfg eof) s (fun _ t =>
      t = [] ∨ ∃ line more, t = line :: more ∧ Outer line) := by
  unfold parseHeader
  rw [yields_bind]
  apply yields_iff.mpr
  intro _ s _
  rw [yields_bind]
  apply yields_iff.mpr
  intro version s _
  rw [yields_bind]
  apply yields_iff.mpr
  intro _ s _
  unfold parseWorkflow
  simp only [yields_bind]
  apply yields_iff.mpr
  intro v s _
  apply yields_iff.mpr
  intro word s _
  apply yields_iff.mpr
  intro _ s _
  refine (parseGenericEntries_end s).mono ?_
  intro entries t ht
  cases entries.getLast? with
  | none => trivial
  | some last => exact ht

theorem parseNode_end {source : Text} {eof : SourcePosition} {first : SourceLine}
    {u t : List SourceLine} {node : Ast.NodeDecl} (hlines : Consecutive source (first :: u))
    (h : parseNode cfg eof (first :: u) = .ok node t) :
    t <:+ u ∧ (t = [] ∨ ∃ line more, t = line :: more ∧ Outer line) := by
  have hread : Yields (parseNode cfg eof) (first :: u) (fun _ t =>
      t <:+ u ∧ (t = [] ∨ ∃ line more, t = line :: more ∧ Outer line)) := by
    unfold parseNode viewHere
    simp only [yields_bind, yields_peek, yields_lift, yields_advance, List.tail_cons]
    intro v _ header _
    apply yields_iff.mpr
    intro entries t hentries
    have hsuffix := (yields_iff.mp (parseNodeEntries_spec u hlines.2.2.2) entries t hentries).1
    have hend := yields_iff.mp (parseNodeEntries_end eof u) entries t hentries
    cases entries.getLast? with
    | none => trivial
    | some last => exact ⟨hsuffix, hend⟩
  exact yields_iff.mp hread node t h

end Ends

section Loop
variable {cfg : ParserConfig} {source : Text}

def aloneNode (cfg : ParserConfig) (eof : SourcePosition) (block : List SourceLine) :
    Option Ast.NodeDecl :=
  match parseNode cfg eof block with
  | .ok node _ => some node
  | .error _ _ => none

def aloneFailure (cfg : ParserConfig) (eof : SourcePosition) (block : List SourceLine) :
    Option (SyntaxDiagnostic × SourcePosition) :=
  match parseNode cfg eof block with
  | .error (.parseError d) _ =>
    block.head?.map (fun first => ({ d with span := nowhere }, first.position 0))
  | _ => none

/-- A block that is read alone, or fails alone with a diagnostic. -/
def Diagnosed (cfg : ParserConfig) (eof : SourcePosition) (block : List SourceLine) : Prop :=
  ∀ e t, parseNode cfg eof block = .error e t → ∃ d, e = .parseError d

/-- A block that does not stop alone in embedded JSON that is still open at its end. -/
def Closed (cfg : ParserConfig) (eof : SourcePosition) (block : List SourceLine) : Prop :=
  ∀ e t, parseNode cfg eof block = .error e t → ¬ Unterminated e

/-- Every block ends alone with a declaration or a diagnostic, and the JSON of a block that another
follows is closed in it. -/
def Independent (cfg : ParserConfig) (eof : SourcePosition) (blocks : List (List SourceLine)) : Prop :=
  (∀ block ∈ blocks, Diagnosed cfg eof block) ∧ ∀ block ∈ blocks.dropLast, Closed cfg eof block

theorem Independent.tail {eof : SourcePosition} {block : List SourceLine} {blocks : List (List SourceLine)}
    (h : Independent cfg eof (block :: blocks)) : Independent cfg eof blocks := by
  refine ⟨fun b hb => h.1 b (List.mem_cons_of_mem _ hb), fun b hb => h.2 b ?_⟩
  cases blocks with
  | nil => cases hb
  | cons next blocks => exact List.mem_cons_of_mem _ hb

theorem Independent.head {eof : SourcePosition} {block : List SourceLine} {blocks : List (List SourceLine)}
    (h : Independent cfg eof (block :: blocks)) (hmore : blocks ≠ []) : Closed cfg eof block := by
  cases blocks with
  | nil => exact absurd rfl hmore
  | cons next blocks => exact h.2 block List.mem_cons_self

/-- What is recovered from blocks: the nodes that are read alone, in order, and for each
other block a diagnostic and a region of its own. -/
structure Retains (cfg : ParserConfig) (eof : SourcePosition) (blocks : List (List SourceLine))
    (r : Recovered) : Prop where
  nodes : r.nodes.map Ast.NodeDecl.unplaced =
    (blocks.filterMap (aloneNode cfg eof)).map Ast.NodeDecl.unplaced
  failures : (blocks.filterMap (aloneFailure cfg eof)).Sublist
    ((r.diagnostics.map (fun d => { d with span := nowhere })).zip
      (r.invalidRegions.map (fun region => region.span.start)))
  paired : r.diagnostics.length = r.invalidRegions.length

theorem moreNodes_outer {line : SourceLine} {more : List SourceLine} (h : Outer line) :
    moreNodes cfg (line :: more) = .ok true (line :: more) := by
  have hskip : skipIgnorable cfg (line :: more) = .ok () (line :: more) :=
    Segment.skipIgnorable_outer h
  unfold moreNodes
  simp only [Bind.bind, EStateM.bind, hskip, peek, atEofLine_outer h]
  rfl

theorem parseNode_stray {eof : SourcePosition} {line : SourceLine} {more : List SourceLine}
    (h : Outer line) (hstart : startsDeclaration line.text = false) :
    ∃ d, parseNode cfg eof (line :: more) = .error (.parseError d) (line :: more) := by
  have hnone : nodeLine? line.text = none := by
    unfold nodeLine?
    unfold startsDeclaration at hstart
    cases hkeyword : keyword? "node" line.text with
    | none => rfl
    | some found =>
      obtain ⟨word, rest⟩ := found
      rw [hkeyword] at hstart
      cases rest with
      | nil => rfl
      | cons b rest =>
        have hb : isIndent b = false := hstart
        simp [hb]
  have hview : viewHere cfg (line :: more) = .ok ⟨line, 0, 0, line.text⟩ (line :: more) := by
    change lift (view cfg line) (line :: more) = _
    rw [view_outer cfg h]
    rfl
  obtain ⟨d, hd⟩ : ∃ d, nodeHeader cfg ⟨line, 0, 0, line.text⟩ = .error (.parseError d) := by
    unfold nodeHeader
    simp only [ne_eq, not_true, if_false, hnone]
    exact ⟨_, rfl⟩
  refine ⟨d, ?_⟩
  unfold parseNode
  simp only [Bind.bind, EStateM.bind, hview, hd]
  rfl

theorem recover_stray {blocks : List (List SourceLine)} {c tail : List SourceLine}
    (hc : ∀ line ∈ c, startsDeclaration line.text = false)
    (hhead : c = [] ∨ ∃ line more, c = line :: more ∧ Outer line)
    (htail : tail = [] ∨ ∃ first u, tail = first :: u ∧ startsDeclaration first.text = true)
    (hrest : ∀ n, tail.length < n → ∃ r, recoverNodes cfg source n tail = .ok r ∧
      Retains cfg (documentEnd source) blocks r) {n : ℕ} (hn : (c ++ tail).length < n) :
    ∃ r, recoverNodes cfg source n (c ++ tail) = .ok r ∧
      Retains cfg (documentEnd source) blocks r := by
  rcases hhead with rfl | ⟨line, more, rfl, houter⟩
  · exact hrest n hn
  · obtain ⟨n, rfl⟩ : ∃ m, n = m + 1 := ⟨n - 1, by omega⟩
    rw [List.cons_append, List.length_cons, List.length_append] at hn
    obtain ⟨r, hr, hretains⟩ := hrest n (by omega)
    obtain ⟨d, hd⟩ : ∃ d, parseNode cfg (documentEnd source) (line :: (more ++ tail)) =
        .error (.parseError d) (line :: (more ++ tail)) :=
      parseNode_stray houter (hc line List.mem_cons_self)
    have hnext : nextDeclaration (later (line :: (more ++ tail)) (more ++ tail)) = tail := by
      have hlater : later (line :: (more ++ tail)) (more ++ tail) = more ++ tail := by
        unfold later
        rw [if_neg (by simp)]
      rw [hlater]
      exact nextDeclaration_append (fun l hl => hc l (List.mem_cons_of_mem line hl)) htail
    refine ⟨{ r with
      diagnostics := d :: r.diagnostics
      invalidRegions := invalidRegion source line tail :: r.invalidRegions }, ?_, ?_⟩
    · rw [List.cons_append, recoverNodes, moreNodes_outer houter]
      simp only [hd, hnext, hr, Except.map]
    · refine ⟨hretains.nodes, ?_, ?_⟩
      · simp only [List.map_cons, List.zip_cons_cons]
        exact hretains.failures.cons _
      · simp only [List.length_cons, hretains.paired]

theorem flatten_head {blocks : List (List SourceLine)} (h : ∀ block ∈ blocks, IsBlock block) :
    blocks.flatten = [] ∨
      ∃ first u, blocks.flatten = first :: u ∧ startsDeclaration first.text = true := by
  cases blocks with
  | nil => exact .inl rfl
  | cons block blocks =>
    obtain ⟨first, u, rfl, hfirst, -⟩ := h _ List.mem_cons_self
    exact .inr ⟨first, u ++ blocks.flatten, rfl, hfirst⟩

theorem nextDeclaration_later {first : SourceLine} {u c tail : List SourceLine}
    (hc : c <:+ first :: u) (hu : ∀ line ∈ u, startsDeclaration line.text = false)
    (htail : tail = [] ∨ ∃ first u, tail = first :: u ∧ startsDeclaration first.text = true) :
    nextDeclaration (later (c ++ tail) (u ++ tail)) = tail := by
  unfold later
  split
  next hle =>
    have hsuffix : c <:+ u := by
      rcases List.suffix_cons_iff.mp hc with rfl | hsuffix
      · simp only [List.length_append, List.length_cons] at hle
        omega
      · exact hsuffix
    exact nextDeclaration_append (fun line hline => hu line (hsuffix.subset hline)) htail
  next => exact nextDeclaration_append hu htail

theorem recover_blocks {blocks : List (List SourceLine)} (hblocks : ∀ block ∈ blocks, IsBlock block)
    (hclosed : Independent cfg (documentEnd source) blocks)
    (hlines : Consecutive source blocks.flatten) {n : ℕ} (hn : blocks.flatten.length < n) :
    ∃ r, recoverNodes cfg source n blocks.flatten = .ok r ∧
      Retains cfg (documentEnd source) blocks r := by
  induction blocks generalizing n with
  | nil =>
    obtain ⟨n, rfl⟩ : ∃ m, n = m + 1 := ⟨n - 1, by omega⟩
    exact ⟨⟨[], [], []⟩, rfl, rfl, List.Sublist.refl _, rfl⟩
  | cons block blocks ih =>
    obtain ⟨n, rfl⟩ : ∃ m, n = m + 1 := ⟨n - 1, by omega⟩
    obtain ⟨first, u, rfl, hfirst, hu⟩ := hblocks block List.mem_cons_self
    have hrest := hclosed.1 _ (List.mem_cons_self)
    have htail := flatten_head (fun b hb => hblocks b (List.mem_cons_of_mem _ hb))
    have houter := outer_of_startsDeclaration hfirst
    rw [List.flatten_cons] at hlines hn ⊢
    have hlater (m : ℕ) (hm : blocks.flatten.length < m) :
        ∃ r, recoverNodes cfg source m blocks.flatten = .ok r ∧
          Retains cfg (documentEnd source) blocks r := by
      apply ih (fun b hb => hblocks b (List.mem_cons_of_mem _ hb)) hclosed.tail _ hm
      exact hlines.suffix (List.suffix_append _ _)
    have hafter : blocks.flatten = [] ∨ ∃ line more, blocks.flatten = line :: more ∧ Outer line := by
      rcases htail with hnil | ⟨line, more, hcons, hstart⟩
      · exact .inl hnil
      · exact .inr ⟨line, more, hcons, outer_of_startsDeclaration hstart⟩
    let S : Segment := ⟨source, first :: u, blocks.flatten, hlines, hafter⟩
    rw [List.cons_append, List.length_cons, List.length_append] at hn
    cases hrun : parseNode cfg (documentEnd source) (first :: u) with
    | ok node t =>
      obtain ⟨found, hfound, hsame, -⟩ := S.parseNode_ok rfl hrun
      obtain ⟨⟨w, hw⟩, hhead⟩ := parseNode_end hlines hfound
      have hsuffix : t <:+ u := by
        refine ⟨w, List.append_cancel_right (?_ : w ++ t ++ blocks.flatten = u ++ blocks.flatten)⟩
        rw [List.append_assoc]
        exact hw
      have hfirst_left : t = [] ∨ ∃ line more, t = line :: more ∧ Outer line := by
        cases t with
        | nil => exact .inl rfl
        | cons line more =>
          rcases hhead with hnil | ⟨line', more', hcons, hline⟩
          · cases hnil
          · cases hcons
            exact .inr ⟨line, more, rfl, hline⟩
      have hlen := hsuffix.length_le
      obtain ⟨r, hr, hretains⟩ := recover_stray (n := n)
        (fun line hline => hu line (hsuffix.subset hline)) hfirst_left htail hlater
        (by rw [List.length_append]; omega)
      refine ⟨{ r with nodes := found :: r.nodes }, ?_, ?_⟩
      · rw [List.cons_append, recoverNodes, moreNodes_outer houter]
        have hfound' : parseNode cfg (documentEnd source) (first :: (u ++ blocks.flatten)) =
          .ok found (t ++ blocks.flatten) := hfound
        simp only [hfound', hr, Except.map]
      · have hnode : aloneNode cfg (documentEnd source) (first :: u) = some node := by
          unfold aloneNode
          rw [hrun]
        have hfailure : aloneFailure cfg (documentEnd source) (first :: u) = none := by
          unfold aloneFailure
          rw [hrun]
        refine ⟨?_, ?_, hretains.paired⟩
        · rw [List.filterMap_cons_some hnode, List.map_cons, List.map_cons, hsame, hretains.nodes]
        · rw [List.filterMap_cons_none hfailure]
          exact hretains.failures
    | error e t =>
      obtain ⟨d, rfl⟩ := hrest e t hrun
      obtain ⟨f, c, hfound, hsame, hc⟩ := S.parseNode_error rfl hrun (by simp) (by
        intro htail
        refine hclosed.head ?_ _ t hrun
        rintro rfl
        exact htail rfl)
      obtain ⟨d', rfl, hd'⟩ : ∃ d', f = .parseError d' ∧
          ({ d' with span := nowhere } : SyntaxDiagnostic) = { d with span := nowhere } := by
        cases f with
        | parseError d' => exact ⟨d', rfl, Failure.parseError.inj hsame⟩
        | _ => cases hsame
      obtain ⟨r, hr, hretains⟩ := hlater n (by omega)
      have hnext := nextDeclaration_later hc hu htail
      refine ⟨{ r with
        diagnostics := d' :: r.diagnostics
        invalidRegions := invalidRegion source first blocks.flatten :: r.invalidRegions }, ?_, ?_⟩
      · rw [List.cons_append, recoverNodes, moreNodes_outer houter]
        have hfound' : parseNode cfg (documentEnd source) (first :: (u ++ blocks.flatten)) =
          .error (.parseError d') (c ++ blocks.flatten) := hfound
        simp only [hfound', hnext, hr, Except.map]
      · have hnode : aloneNode cfg (documentEnd source) (first :: u) = none := by
          unfold aloneNode
          rw [hrun]
        have hfailure : aloneFailure cfg (documentEnd source) (first :: u) =
            some ({ d with span := nowhere }, first.position 0) := by
          unfold aloneFailure
          rw [hrun]
          rfl
        refine ⟨?_, ?_, ?_⟩
        · rw [List.filterMap_cons_none hnode]
          exact hretains.nodes
        · rw [List.filterMap_cons_some hfailure, List.map_cons, List.map_cons, List.zip_cons_cons, hd']
          exact hretains.failures.cons_cons _
        · simp only [List.length_cons, hretains.paired]

theorem collect_nodes (eof : SourcePosition) (n : ℕ) (s : List SourceLine) :
    collect .depth (do
      if ← moreNodes cfg then return .next (← parseNode cfg eof) else return .stop) (n + 1) s =
      match moreNodes cfg s with
      | .error e t => .error e t
      | .ok false t => .ok [] t
      | .ok true t =>
        match parseNode cfg eof t with
        | .error e t => .error e t
        | .ok node t =>
          match collect .depth (do
            if ← moreNodes cfg then return .next (← parseNode cfg eof) else return .stop) n t with
          | .error e t => .error e t
          | .ok nodes t => .ok (node :: nodes) t := by
  conv_lhs => unfold collect
  simp only [Bind.bind, EStateM.bind]
  cases moreNodes cfg s with
  | error e t => rfl
  | ok more t =>
    cases more with
    | false => rfl
    | true =>
      simp only [if_true, EStateM.bind]
      cases parseNode cfg eof t with
      | error e t => rfl
      | ok node t =>
        simp only [pure, EStateM.pure, EStateM.bind]
        split <;> simp_all

theorem recoverNodes_of_collect {n : ℕ} {lines t : List SourceLine} {nodes : List Ast.NodeDecl}
    (h : collect .depth (do
      if ← moreNodes cfg then return .next (← parseNode cfg (documentEnd source)) else return .stop)
        n lines = .ok nodes t) :
    recoverNodes cfg source n lines = .ok ⟨nodes, [], []⟩ := by
  induction n generalizing lines nodes with
  | zero => cases h
  | succ n ih =>
    rw [collect_nodes] at h
    unfold recoverNodes
    cases hmore : moreNodes cfg lines with
    | error e s =>
      rw [hmore] at h
      cases h
    | ok more s =>
      rw [hmore] at h
      cases more with
      | false =>
        cases h
        rfl
      | true =>
        cases s with
        | nil => cases h
        | cons first rest =>
          simp only at h
          split at h
          · cases h
          next node after hnode =>
            split at h
            · cases h
            next items s hitems =>
              cases h
              simp only [hnode, ih hitems, Except.map]

theorem IsBlock.same {block block' : List SourceLine} (h : IsBlock block)
    (hsame : block'.map SourceLine.text = block.map SourceLine.text) : IsBlock block' := by
  obtain ⟨first, u, rfl, hfirst, hu⟩ := h
  obtain ⟨first', u', rfl, hfirst', hu'⟩ := List.map_eq_cons_iff.mp hsame
  refine ⟨first', u', rfl, by rwa [hfirst'], ?_⟩
  intro line' hline'
  obtain ⟨line, hline, htext⟩ := List.mem_map.mp (hu' ▸ List.mem_map_of_mem hline')
  rw [← htext]
  exact hu line hline

theorem parseNodes_block (cfg : ParserConfig) (eof : SourcePosition) {block : List SourceLine}
    (hblock : IsBlock block) (hlines : Consecutive source block) (nodes : List Ast.NodeDecl) :
    (∃ t, parseNodes cfg eof block = .ok nodes t) ↔
      ∃ node, parseNode cfg eof block = .ok node [] ∧ nodes = [node] := by
  obtain ⟨first, u, rfl, hfirst, hu⟩ := hblock
  have hmore : moreNodes cfg (first :: u) = .ok true (first :: u) :=
    moreNodes_outer (outer_of_startsDeclaration hfirst)
  have hloop : parseNodes cfg eof (first :: u) = collect .depth (do
      if ← moreNodes cfg then return .next (← parseNode cfg eof) else return .stop)
        (u.length + 1 + 1) (first :: u) := rfl
  have hnone (n : ℕ) : collect .depth (do
      if ← moreNodes cfg then return .next (← parseNode cfg eof) else return .stop) (n + 1) [] =
        .ok [] [] := by
    rw [collect_nodes]
    rfl
  rw [hloop, collect_nodes, hmore]
  simp only
  constructor
  · rintro ⟨t, h⟩
    split at h
    · cases h
    next node t1 hnode =>
      obtain ⟨hsuffix, rfl | ⟨line, more, rfl, houter⟩⟩ := parseNode_end hlines hnode
      · rw [hnone] at h
        cases h
        exact ⟨node, hnode, rfl⟩
      · -- What is left would have to be a declaration.
        have hstray := hu line (hsuffix.subset List.mem_cons_self)
        obtain ⟨d, hd⟩ : ∃ d, parseNode cfg eof (line :: more) =
            .error (.parseError d) (line :: more) := parseNode_stray houter hstray
        rw [collect_nodes, moreNodes_outer houter] at h
        simp only [hd] at h
        cases h
  · rintro ⟨node, hnode, rfl⟩
    rw [hnode]
    simp only [hnone]
    exact ⟨[], rfl⟩

def StandsAlone (cfg : ParserConfig) (block : List SourceLine) (alone : Text) : Prop :=
  ∃ header rest, parseHeader cfg (documentEnd alone) (physicalLines alone) = .ok header rest ∧
    rest.map SourceLine.text = block.map SourceLine.text

theorem sameText_of_map {s s' : List SourceLine}
    (h : s.map SourceLine.text = s'.map SourceLine.text) : List.Forall₂ SameText s s' := by
  rw [← List.forall₂_eq_eq_eq, List.forall₂_map_left_iff, List.forall₂_map_right_iff] at h
  exact h

theorem parse_header {alone : Text} {header : Ast.Version × Ast.Workflow} {rest : List SourceLine}
    (h : parseHeader cfg (documentEnd alone) (physicalLines alone) = .ok header rest)
    (document : Ast.Document) : parse cfg alone = .ok document ↔
      ∃ nodes, (∃ t, parseNodes cfg (documentEnd alone) rest = .ok nodes t) ∧
        document = documentOf cfg alone header nodes := by
  rw [parse_eq]
  unfold parseDocument
  simp only [Bind.bind, EStateM.bind, h]
  constructor
  · intro hparse
    split at hparse
    next found t hfound =>
      split at hfound
      next nodes t1 hnodes =>
        cases hfound
        cases hparse
        exact ⟨nodes, ⟨_, hnodes⟩, rfl⟩
      · cases hfound
    · cases hparse
  · rintro ⟨nodes, ⟨t, hnodes⟩, rfl⟩
    rw [hnodes]
    rfl

theorem header_lines {header : Ast.Version × Ast.Workflow} {rest : List SourceLine}
    (h : parseHeader cfg (documentEnd source) (physicalLines source) = .ok header rest) :
    Consecutive source rest := by
  refine (physicalLines_consecutive source).suffix ?_
  exact (yields_iff.mp (parseHeader_spec _ (physicalLines_consecutive source)) _ _ h).1

theorem parse_alone_iff {block : List SourceLine} (hblock : IsBlock block)
    (hlines : ∀ l ∈ block, LineAt source l) {alone : Text} (halone : StandsAlone cfg block alone)
    (nodes : List Ast.NodeDecl) :
    (∃ document, parse cfg alone = .ok document ∧
        document.nodes.map Ast.NodeDecl.unplaced = nodes) ↔
      ∃ node, parseNode cfg (documentEnd source) block = .ok node [] ∧ nodes = [node.unplaced] := by
  obtain ⟨header, rest, hheader, htexts⟩ := halone
  have hrest := header_lines hheader
  have hmoved : Relocated rest block :=
    ⟨sameText_of_map htexts, fun l hl => ⟨alone, hrest.located hl⟩, fun l hl => ⟨source, hlines l hl⟩⟩
  have hnodes := parseNodes_block cfg (documentEnd alone) (hblock.same htexts) hrest
  constructor
  · rintro ⟨document, hparse, rfl⟩
    obtain ⟨found, hfound, rfl⟩ := (parse_header hheader document).mp hparse
    obtain ⟨node, hnode, rfl⟩ := (hnodes found).mp hfound
    obtain ⟨node', t, hnode', hsame, ht⟩ := parseNode_relocated (documentEnd source)
      hmoved.symm hnode
    cases ht.1
    exact ⟨node', hnode', by rw [hsame]; rfl⟩
  · rintro ⟨node, hnode, rfl⟩
    obtain ⟨node', t, hnode', hsame, ht⟩ := parseNode_relocated (documentEnd alone)
      hmoved hnode
    cases ht.1
    refine ⟨documentOf cfg alone header [node'], ?_, ?_⟩
    · exact (parse_header hheader _).mpr ⟨[node'], (hnodes [node']).mpr ⟨node', hnode', rfl⟩, rfl⟩
    · rw [← hsame]
      rfl

def isDiagnosed (cfg : ParserConfig) (eof : SourcePosition) (block : List SourceLine) : Bool :=
  match parseNode cfg eof block with
  | .ok _ _ => true
  | .error (.parseError _) _ => true
  | .error _ _ => false

def isClosed (cfg : ParserConfig) (eof : SourcePosition) (block : List SourceLine) : Bool :=
  match parseNode cfg eof block with
  | .error (.parseError d) _ => d.message != "Embedded JSON value is not terminated."
  | _ => true

theorem diagnosed_of_isDiagnosed {eof : SourcePosition} {block : List SourceLine}
    (h : isDiagnosed cfg eof block = true) : Diagnosed cfg eof block := by
  intro e t hrun
  rw [isDiagnosed, hrun] at h
  cases e with
  | parseError d => exact ⟨d, rfl⟩
  | _ => cases h

theorem closed_of_isClosed {eof : SourcePosition} {block : List SourceLine}
    (h : isClosed cfg eof block = true) : Closed cfg eof block := by
  rintro e t hrun ⟨d, rfl, hopen⟩
  rw [isClosed, hrun] at h
  simp [hopen] at h

/-- The JSON of the last block stays open and swallows nothing. -/
def brokenPlan : Text :=
  sourceOf ["Rattish: 1", "Workflow:", "  id: plan", "Node ask:", "  type: agent", "Node broken",
    "  type: agent", "Node done:", "  type: finish", "done", "Node open:", "  type: finish", "  with:",
    "    x: [1"]

def trailingPlan : Text :=
  sourceOf ["Rattish: 1", "Workflow:", "  id: plan", "Node ask:", "  type: agent", "done"]

def behindHeader {ε σ α : Type} : EStateM.Result ε σ α → Option σ
  | .ok _ rest => some rest
  | .error _ _ => none

def keptNodes : Except Failure RecoveringParseResult → ℕ
  | .ok ⟨some document, _, _⟩ => document.nodes.length
  | _ => 0

end Loop

end Raticode.Rattish
