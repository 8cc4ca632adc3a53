import Raticode.RattishWalkEntries

/-! What embedded JSON and literal blocks take of the lines at the cursor, and where the
document ends. Lines of the same texts are taken alike. -/
namespace Raticode.Rattish
open PyText Attempt

def SameText (line line' : SourceLine) : Prop := line.text = line'.text

section Skip
variable {cfg : ParserConfig}

theorem skipIgnorable_cons (line : SourceLine) (lines : List SourceLine) :
    skipIgnorable cfg (line :: lines) = match view cfg line with
      | .error e => .error e (line :: lines)
      | .ok v => if v.isIgnorable then skipIgnorable cfg lines else .ok () (line :: lines) := rfl

theorem mirrors_skip_cons {E : Endings} {R : List SourceLine → List SourceLine → Prop}
    {near : SourceLine → List SourceLine → List SourceLine → Prop} {l l' : SourceLine}
    {u u' : List SourceLine} (hstops : ∀ e, E.selective ∨ E.excused e) (htext : l.text = l'.text)
    (h : R (l :: u) (l' :: u')) (hrest : R u u') (hhere : near l' (l :: u) (l' :: u'))
    (hnear : near l' u u') (hnext : Mirrors E.accord (Any Unit) (skipIgnorable cfg)
      (skipIgnorable cfg) (fun _ t _ t' => Ready R near t t') u u') :
    Mirrors E.accord (Any Unit) (skipIgnorable cfg) (skipIgnorable cfg)
      (fun _ t _ t' => Ready R near t t') (l :: u) (l' :: u') := by
  have hview := view_alike cfg htext
  unfold Mirrors at hnext ⊢
  cases hv' : view cfg l' with
  | error e' =>
    rw [skipIgnorable_cons, hv']
    exact (hstops e').imp_right .inl
  | ok v' =>
    cases hv : view cfg l with
    | error e =>
      rw [hv, hv'] at hview
      exact hview.elim
    | ok v =>
      rw [hv, hv'] at hview
      obtain ⟨hsame, rfl, rfl⟩ := hview
      rw [skipIgnorable_cons, skipIgnorable_cons, hv, hv']
      simp only [← isIgnorable_same hsame]
      cases hi : (lineView l).isIgnorable with
      | true => exact hnext
      | false => exact fun _ => .inl ⟨(), _, rfl, .line htext hi h hrest hhere hnear⟩

end Skip

section Json
variable {cfg : ParserConfig} {text : Text} {l l' : SourceLine} {start : ℕ}
  {s s' : List SourceLine} {e e' : Failure} {depth depth' : ℕ} {quoted escaped quoted' escaped' : Bool}

def jsonRest : (Text × SourcePosition) ⊕ (ℕ × Bool × Bool) → Text ⊕ (ℕ × Bool × Bool)
  | .inl result => .inl result.1
  | .inr still => .inr still

theorem jsonLine_agree (depth : ℕ) (quoted escaped : Bool) :
    Agree jsonRest (jsonLine cfg depth quoted escaped text l start)
      (jsonLine cfg depth quoted escaped text l' start) := by
  unfold jsonLine
  split
  · rfl
  · simp only
    split <;> rfl
  · rfl

theorem collectJson_error {f : Failure}
    (h : jsonLine cfg depth quoted escaped text l start = .error f) :
    collectJson cfg e depth quoted escaped text l start s = .error f s := by
  cases s <;> simp only [collectJson, h]

theorem collectJson_over
    (h : jsonLine cfg depth quoted escaped text l start = .ok (.inr (depth', quoted', escaped')))
    (hs : s = [] ∨ atEofLine s = true) :
    collectJson cfg e depth quoted escaped text l start s = .error e s := by
  rcases hs with rfl | hs
  · simp only [collectJson, h]
  · cases s with
    | nil => cases hs
    | cons next u => simp only [collectJson, h, hs, if_true]

theorem collectJson_closed {result : Text × SourcePosition}
    (h : jsonLine cfg depth quoted escaped text l start = .ok (.inl result)) :
    collectJson cfg e depth quoted escaped text l start s = .ok result s := by
  cases s <;> simp only [collectJson, h]

theorem collectJson_next {next : SourceLine} {u : List SourceLine}
    (h : jsonLine cfg depth quoted escaped text l start = .ok (.inr (depth', quoted', escaped')))
    (hs : atEofLine (next :: u) = false) :
    collectJson cfg e depth quoted escaped text l start (next :: u) =
      match collectJson cfg e depth' quoted' escaped' next.text next 0 u with
      | .ok (more, stop) rest => .ok (text ++ '\n' :: more, stop) rest
      | .error e rest => .error e rest := by
  rw [collectJson, h]
  change (if atEofLine (next :: u) = true then _ else _) = _
  rw [hs]
  rfl

theorem collectJson_bind {next : SourceLine} {u : List SourceLine}
    (h : jsonLine cfg depth quoted escaped text l start = .ok (.inr (depth', quoted', escaped')))
    (hs : atEofLine (next :: u) = false) :
    collectJson cfg e depth quoted escaped text l start (next :: u) =
      (collectJson cfg e depth' quoted' escaped' next.text next 0 >>= fun result =>
        pure (text ++ '\n' :: result.1, result.2)) u := by
  rw [collectJson_next h hs]
  simp only [Bind.bind, EStateM.bind]
  cases collectJson cfg e depth' quoted' escaped' next.text next 0 u <;> rfl

theorem collectJson_cases {result : Text × SourcePosition} {t : List SourceLine}
    (h : collectJson cfg e depth quoted escaped text l start s = .ok result t) :
    (jsonLine cfg depth quoted escaped text l start = .ok (.inl result) ∧ t = s) ∨
      ∃ next u d q esc more, s = next :: u ∧ atEofLine s = false ∧
        jsonLine cfg depth quoted escaped text l start = .ok (.inr (d, q, esc)) ∧
        collectJson cfg e d q esc next.text next 0 u = .ok (more, result.2) t ∧
        result.1 = text ++ '\n' :: more := by
  cases s with
  | nil =>
    unfold collectJson at h
    split at h
    · cases h
    next hone =>
      cases h
      exact .inl ⟨hone, rfl⟩
    · cases h
  | cons next u =>
    unfold collectJson at h
    split at h
    · cases h
    next hone =>
      cases h
      exact .inl ⟨hone, rfl⟩
    next d q esc hone =>
      split at h
      · cases h
      next heof =>
        split at h
        next more stop rest hmore =>
          cases h
          exact .inr ⟨next, u, d, q, esc, more, rfl, by simpa using heof, hone, hmore, rfl⟩
        · cases h

theorem jsonLine_inr {still : ℕ × Bool × Bool}
    (h : jsonLine cfg depth quoted escaped text l' start = .ok (.inr still)) :
    jsonLine cfg depth quoted escaped text l start = .ok (.inr still) := by
  have hagree : Agree jsonRest (jsonLine cfg depth quoted escaped text l start)
      (jsonLine cfg depth quoted escaped text l' start) := jsonLine_agree depth quoted escaped
  rw [h] at hagree
  cases hone : jsonLine cfg depth quoted escaped text l start with
  | error e => rw [hone] at hagree; exact hagree.elim
  | ok r =>
    rw [hone] at hagree
    cases r with
    | inl result => cases hagree
    | inr still' => rw [Sum.inr.inj hagree]

theorem jsonLine_inl {result' : Text × SourcePosition}
    (h : jsonLine cfg depth quoted escaped text l' start = .ok (.inl result')) :
    ∃ result, jsonLine cfg depth quoted escaped text l start = .ok (.inl result) ∧
      result.1 = result'.1 := by
  have hagree : Agree jsonRest (jsonLine cfg depth quoted escaped text l start)
      (jsonLine cfg depth quoted escaped text l' start) := jsonLine_agree depth quoted escaped
  rw [h] at hagree
  cases hone : jsonLine cfg depth quoted escaped text l start with
  | error e => rw [hone] at hagree; exact hagree.elim
  | ok r =>
    rw [hone] at hagree
    cases r with
    | inl result => exact ⟨result, rfl, Sum.inl.inj hagree⟩
    | inr still => cases hagree

theorem atEofLine_same {u u' : List SourceLine} (h : l.text = l'.text) (hu : u.length = u'.length) :
    atEofLine (l :: u) = atEofLine (l' :: u') := by
  cases u with
  | nil =>
    cases u' with
    | nil => simp [atEofLine, h]
    | cons a u' => cases hu
  | cons a u =>
    cases u' with
    | nil => cases hu
    | cons a' u' => rfl

theorem collectJson_same {result' : Text × SourcePosition} {t' : List SourceLine}
    (hs : List.Forall₂ SameText s s')
    (h : collectJson cfg e' depth quoted escaped text l' start s' = .ok result' t') :
    ∃ result c c' t, collectJson cfg e depth quoted escaped text l start s = .ok result t ∧
      result.1 = result'.1 ∧ s = c ++ t ∧ s' = c' ++ t' ∧ List.Forall₂ SameText t t' := by
  induction hs generalizing depth quoted escaped text l l' start result' with
  | nil =>
    rcases collectJson_cases h with ⟨hone, rfl⟩ | ⟨next, u, _, _, _, _, hnil, _⟩
    · obtain ⟨result, hresult, heq⟩ := jsonLine_inl (l := l) hone
      exact ⟨result, [], [], [], collectJson_closed hresult, heq, rfl, rfl, .nil⟩
    · cases hnil
  | @cons n n' u u' hn hu ih =>
    rcases collectJson_cases h with ⟨hone, rfl⟩ | ⟨_, _, d, q, esc, more, hcons, heof, hone, hmore, heq⟩
    · obtain ⟨result, hresult, heq⟩ := jsonLine_inl (l := l) hone
      exact ⟨result, [], [], n :: u, collectJson_closed hresult, heq, rfl, rfl, .cons hn hu⟩
    · cases hcons
      obtain ⟨⟨text1, stop⟩, c, c', t, hfirst, htext, hc, hc', ht⟩ := ih (l := n) hmore
      have heof1 : atEofLine (n :: u) = false := by
        rw [atEofLine_same hn hu.length_eq]
        exact heof
      refine ⟨(text ++ '\n' :: text1, stop), n :: c, n' :: c', t, ?_, ?_, by rw [hc]; rfl,
        by rw [hc']; rfl, ht⟩
      · rw [collectJson_next (jsonLine_inr hone) heof1, show n.text = n'.text from hn, hfirst]
      · rw [heq, show text1 = more from htext]

theorem jsonLine_stop {result : Text × SourcePosition}
    (h : jsonLine cfg depth quoted escaped l.text l 0 = .ok (.inl result)) :
    l.startOffset < result.2.offset := by
  obtain ⟨u, c, v, htext, -, -, hstop⟩ := jsonLine_spec h
  have hsize : 0 < byteLength (l.text.take (u ++ [c]).length) := by
    have htake : l.text.take (u ++ [c]).length = u ++ [c] := by
      rw [htext, show u ++ c :: v = (u ++ [c]) ++ v by simp, List.take_left]
    rw [htake, byteLength]
    have hchar := Char.utf8Size_pos c
    simp only [List.map_append, List.sum_append, List.map_cons, List.map_nil, List.sum_singleton]
    omega
  rw [hstop, Nat.zero_add]
  exact Nat.lt_add_of_pos_right hsize

theorem collectJson_stop {source : Text} {result : Text × SourcePosition} {t : List SourceLine}
    (hlines : Consecutive source (l :: s))
    (h : collectJson cfg e depth quoted escaped l.text l 0 s = .ok result t) :
    l.startOffset < result.2.offset := by
  induction s generalizing depth quoted escaped l result with
  | nil =>
    rcases collectJson_cases h with ⟨hone, -⟩ | ⟨_, _, _, _, _, _, hnil, -⟩
    · exact jsonLine_stop hone
    · cases hnil
  | cons next s ih =>
    rcases collectJson_cases h with ⟨hone, -⟩ | ⟨_, _, _, _, _, more, hcons, _, _, hmore, _⟩
    · exact jsonLine_stop hone
    · cases hcons
      have hnext : l.startOffset ≤ next.startOffset :=
        hlines.1.start_le_end.trans hlines.2.1.le
      have hlater : next.startOffset < (more, result.2).2.offset := ih hlines.2.2.2 hmore
      exact hnext.trans_lt hlater

end Json

section Literal
variable {cfg : ParserConfig} {indent : ℕ}

theorem takeBlock_cons (line : SourceLine) (lines : List SourceLine) :
    takeBlock cfg indent (line :: lines) = match view cfg line with
      | .error e => .error e (line :: lines)
      | .ok v =>
        if v.content ≠ [] && v.indentColumns ≤ indent then .ok [] (line :: lines)
        else
          match takeBlock cfg indent lines with
          | .ok views rest => .ok (v :: views) rest
          | .error e rest => .error e rest := rfl

theorem takeBlock_append (c rest : List SourceLine) :
    takeBlock cfg indent (c ++ rest) = match takeBlock cfg indent c with
      | .error e t => .error e (t ++ rest)
      | .ok views (line :: t) => .ok views (line :: t ++ rest)
      | .ok views [] =>
        match takeBlock cfg indent rest with
        | .ok more t => .ok (views ++ more) t
        | .error e t => .error e t := by
  induction c with
  | nil =>
    simp only [List.nil_append, takeBlock]
    cases takeBlock cfg indent rest <;> rfl
  | cons line c ih =>
    rw [List.cons_append, takeBlock_cons, takeBlock_cons]
    cases view cfg line with
    | error e => rfl
    | ok v =>
      simp only
      split
      · rfl
      · rw [ih]
        cases takeBlock cfg indent c with
        | error e t => rfl
        | ok views t =>
          cases t with
          | cons line t => rfl
          | nil =>
            simp only
            cases takeBlock cfg indent rest <;> rfl

theorem takeBlock_error {s t : List SourceLine} {e : Failure}
    (h : takeBlock cfg indent s = .error e t) : t <:+ s := by
  induction s with
  | nil => cases h
  | cons line lines ih =>
    rw [takeBlock_cons] at h
    cases hview : view cfg line with
    | error f =>
      rw [hview] at h
      cases h
      exact List.suffix_rfl
    | ok v =>
      rw [hview] at h
      simp only at h
      split at h
      · cases h
      · split at h
        · cases h
        next f rest hrest =>
          cases h
          exact (ih hrest).trans (List.suffix_cons line lines)

theorem takeBlock_same {s s' : List SourceLine} (hs : List.Forall₂ SameText s s')
    {views' : List LineView} {t' : List SourceLine} (h : takeBlock cfg indent s' = .ok views' t') :
    ∃ views c c' t, takeBlock cfg indent s = .ok views t ∧ List.Forall₂ SameView views views' ∧
      s = c ++ t ∧ s' = c' ++ t' ∧ List.Forall₂ SameText t t' := by
  induction hs generalizing views' t' with
  | nil =>
    cases h
    exact ⟨[], [], [], [], rfl, .nil, rfl, rfl, .nil⟩
  | @cons l l' u u' hl hu ih =>
    have hview := view_alike cfg hl
    unfold takeBlock at h
    cases hv' : view cfg l' with
    | error e' =>
      rw [hv'] at h
      cases h
    | ok v' =>
      cases hv : view cfg l with
      | error e =>
        rw [hv, hv'] at hview
        exact hview.elim
      | ok v =>
        rw [hv, hv'] at hview
        obtain ⟨hsame, -, -⟩ := hview
        rw [hv'] at h
        simp only at h
        split at h
        next hstop =>
          cases h
          refine ⟨[], [], [], l :: u, ?_, .nil, rfl, rfl, .cons hl hu⟩
          unfold takeBlock
          rw [hv]
          simp only [hsame.content, hsame.indent]
          rw [if_pos hstop]
        next hgo =>
          split at h
          next more t1 hmore =>
            cases h
            obtain ⟨views, c, c', t, hfirst, hviews, hc, hc', ht⟩ := ih hmore
            refine ⟨v :: views, l :: c, l' :: c', t, ?_, .cons hsame hviews, by rw [hc]; rfl,
              by rw [hc']; rfl, ht⟩
            unfold takeBlock
            rw [hv]
            simp only [hsame.content, hsame.indent]
            rw [if_neg hgo, hfirst]
          · cases h

/-- The lines of a literal block as `blockText` joins them. -/
def blockPieces (trimColumns : ℕ) (views : List LineView) : List Text :=
  views.map (fun v =>
    if strip v.line.text = [] then [] else removeIndentColumns trimColumns v.line.text)

def blockIndents (views : List LineView) : List ℕ :=
  (views.filter (fun v => v.content ≠ [])).map LineView.indentColumns

def joinPieces (pieces : List Text) : Text :=
  let value := (List.intercalate ['\n'] pieces).rdropWhile (· = '\n')
  if pieces.any (· ≠ []) then value ++ ['\n'] else value

theorem blockText_eq (fieldIndent : ℕ) (views : List LineView) :
    blockText fieldIndent views =
      joinPieces (blockPieces ((blockIndents views).min?.getD (fieldIndent + 2)) views) := rfl

theorem blockPieces_same {views views' : List LineView} (h : List.Forall₂ SameView views views')
    (columns : ℕ) : blockPieces columns views = blockPieces columns views' := by
  induction h with
  | nil => rfl
  | cons hv _ ih =>
    unfold blockPieces at ih ⊢
    rw [List.map_cons, List.map_cons, ih, hv.text]

theorem blockIndents_same {views views' : List LineView} (h : List.Forall₂ SameView views views') :
    blockIndents views = blockIndents views' := by
  induction h with
  | nil => rfl
  | cons hv _ ih =>
    unfold blockIndents at ih ⊢
    rw [List.filter_cons, List.filter_cons, hv.content]
    split
    · rw [List.map_cons, List.map_cons, ih, hv.indent]
    · exact ih

theorem intercalate_concat_nil (p : Text) (ps : List Text) :
    List.intercalate ['\n'] (p :: ps ++ [[]]) = List.intercalate ['\n'] (p :: ps) ++ ['\n'] := by
  induction ps generalizing p with
  | nil => simp [List.intercalate_cons_of_ne_nil]
  | cons q ps ih =>
    have hq : List.intercalate ['\n'] (q :: (ps ++ [[]])) =
        List.intercalate ['\n'] (q :: ps) ++ ['\n'] := ih q
    rw [List.cons_append, List.cons_append, List.intercalate_cons_cons, hq,
      List.intercalate_cons_cons, List.append_assoc, List.append_assoc, List.append_assoc]

theorem joinPieces_append_nil (pieces : List Text) : joinPieces (pieces ++ [[]]) = joinPieces pieces := by
  have hany : (pieces ++ [[]]).any (· ≠ []) = pieces.any (· ≠ []) := by simp
  have hjoin : (List.intercalate ['\n'] (pieces ++ [[]])).rdropWhile (· = '\n') =
      (List.intercalate ['\n'] pieces).rdropWhile (· = '\n') := by
    cases pieces with
    | nil => rfl
    | cons p ps =>
      rw [intercalate_concat_nil]
      exact List.rdropWhile_concat_pos _ _ _ rfl
  unfold joinPieces
  simp only [hany, hjoin]

theorem blockText_same {views views' : List LineView} (h : List.Forall₂ SameView views views')
    (fieldIndent : ℕ) : blockText fieldIndent views = blockText fieldIndent views' := by
  rw [blockText_eq, blockText_eq, blockPieces_same h, blockIndents_same h]

theorem blockText_blank (fieldIndent : ℕ) (views : List LineView) {v : LineView}
    (hcontent : v.content = []) (htext : strip v.line.text = []) :
    blockText fieldIndent (views ++ [v]) = blockText fieldIndent views := by
  have hindents : blockIndents (views ++ [v]) = blockIndents views := by
    unfold blockIndents
    simp [hcontent]
  have hpieces (columns : ℕ) :
      blockPieces columns (views ++ [v]) = blockPieces columns views ++ [[]] := by
    unfold blockPieces
    simp [htext]
  rw [blockText_eq, blockText_eq, hindents, hpieces, joinPieces_append_nil]

def LineView.Blank (v : LineView) : Prop := v.content = [] ∧ strip v.line.text = []

theorem blockText_blanks (fieldIndent : ℕ) (views : List LineView) {blanks : List LineView}
    (h : ∀ v ∈ blanks, v.Blank) :
    blockText fieldIndent (views ++ blanks) = blockText fieldIndent views := by
  induction blanks generalizing views with
  | nil => rw [List.append_nil]
  | cons v blanks ih =>
    obtain ⟨hcontent, htext⟩ := h v List.mem_cons_self
    rw [show views ++ v :: blanks = (views ++ [v]) ++ blanks by simp,
      ih (views ++ [v]) (fun w hw => h w (List.mem_cons_of_mem v hw)),
      blockText_blank fieldIndent views hcontent htext]

theorem blank_same {views views' : List LineView} (h : List.Forall₂ SameView views views')
    (hblank : ∀ v ∈ views', v.Blank) : ∀ v ∈ views, v.Blank := by
  induction h with
  | nil => exact hblank
  | cons hv _ ih =>
    intro w hw
    rcases List.mem_cons.mp hw with rfl | hw
    · obtain ⟨hcontent, htext⟩ := hblank _ List.mem_cons_self
      exact ⟨hv.content.trans hcontent, hv.text ▸ htext⟩
    · exact ih (fun w hw => hblank w (List.mem_cons_of_mem _ hw)) w hw

theorem content_eq (line : SourceLine) : (lineView line).content = line.text.dropWhile isIndent := by
  have hcut : line.text.takeWhile isIndent ++ line.text.dropWhile isIndent = line.text :=
    List.takeWhile_append_dropWhile
  have hleft : (line.text.takeWhile isIndent ++ line.text.dropWhile isIndent).drop
      (line.text.takeWhile isIndent).length = line.text.dropWhile isIndent := List.drop_left
  rw [hcut] at hleft
  exact hleft

theorem strip_blank {line : SourceLine} (h : (lineView line).content = []) : strip line.text = [] := by
  have hall : ∀ c ∈ line.text, isSpace c = true := by
    intro c hc
    have hdrop : line.text.drop (line.text.takeWhile isIndent).length = [] := h
    have hlen : (line.text.takeWhile isIndent).length = line.text.length := by
      have hle : line.text.length ≤ (line.text.takeWhile isIndent).length :=
        List.drop_eq_nil_iff.mp hdrop
      exact le_antisymm (List.takeWhile_prefix isIndent).length_le hle
    have htake : line.text.takeWhile isIndent = line.text :=
      (List.takeWhile_prefix isIndent).eq_of_length hlen
    rw [← htake] at hc
    have hindent := List.mem_takeWhile_imp hc
    simp only [isIndent, Bool.or_eq_true, decide_eq_true_eq] at hindent
    rcases hindent with rfl | rfl <;> rfl
  have hnil : line.text.dropWhile isSpace = [] := List.dropWhile_eq_nil_iff.mpr hall
  rw [strip, Scan.trim, hnil]
  rfl

end Literal

section Ending
variable {cfg : ParserConfig}

theorem skipIgnorable_stops (s : List SourceLine) : Yields (skipIgnorable cfg) s
    (fun _ t => t = [] ∨ ∃ l u, t = l :: u ∧ (lineView l).isIgnorable = false) := by
  induction s with
  | nil => exact .inl rfl
  | cons line lines ih =>
    apply yields_iff.mpr
    intro _ t h
    unfold skipIgnorable at h
    split at h
    · cases h
    next v hv =>
      split at h
      · exact yields_iff.mp ih _ t h
      next hmeaningful =>
        cases h
        obtain rfl := view_eq hv
        exact .inr ⟨line, lines, rfl, Bool.eq_false_iff.mpr hmeaningful⟩

theorem moreNodes_end (s : List SourceLine) :
    Yields (moreNodes cfg) s (fun more t => more = false → t = []) := by
  unfold moreNodes
  rw [yields_bind]
  refine (skipIgnorable_stops s).mono ?_
  rintro _ t (rfl | ⟨l, u, rfl, hl⟩)
  · exact fun _ => rfl
  · simp only [yields_bind, yields_peek, yields_pure]
    intro hmore
    rw [atEofLine_meaningful hl] at hmore
    cases hmore

theorem parseNodes_end (eof : SourcePosition) (s : List SourceLine) :
    Yields (parseNodes cfg eof) s (fun _ t => t = []) := by
  unfold parseNodes
  rw [yields_bind, yields_peek]
  refine wp_collect_end (fun s => ?_) _ s
  rw [wp_bind]
  refine (moreNodes_end s).mono ?_
  intro more t hmore
  cases more with
  | false => exact fun _ => hmore rfl
  | true =>
    simp only [if_true]
    rw [wp_bind]
    apply yields_iff.mpr
    intro node u _
    exact fun hlast => absurd rfl (hlast node)

theorem parseDocument_end (source : Text) (s : List SourceLine) :
    Yields (parseDocument cfg source) s (fun _ t => t = []) := by
  unfold parseDocument
  rw [yields_bind]
  apply yields_iff.mpr
  intro header t _
  rw [yields_bind]
  exact (parseNodes_end _ t).mono (fun _ _ ht => ht)

end Ending

end Raticode.Rattish
