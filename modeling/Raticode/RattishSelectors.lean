import Raticode.RattishPrinting
import Raticode.RattishUnplaced

/-! References that are printed: what the parser reads from their text. -/
namespace Raticode.Rattish
open PyText (isSpace isLetter isAlnum lower lowerWord identifier hexDigit hexValue)


namespace Ast

def RefSelector.bare : RefSelector → RefSelector
  | .dot source .identifier _ => .dot (lower source) .identifier nowhere
  | .dot source .jsonMember _ => .dot source .jsonMember nowhere
  | .bracket source _ => .bracket source nowhere
  | .index _ value _ => .index [] value nowhere

def Reference.bare (reference : Reference) : Reference :=
  ⟨⟨reference.root.canonical, reference.root.canonical, nowhere⟩,
    reference.selectors.map RefSelector.bare, nowhere⟩

end Ast

open Ast (RefSelector)

theorem lowerChar_lowerChar (c : Char) : PyText.lowerChar (PyText.lowerChar c) = PyText.lowerChar c := by
  have hascii : ∀ n < 128, PyText.lowerChar (PyText.lowerChar (Char.ofNat n)) =
      PyText.lowerChar (Char.ofNat n) := by decide
  by_cases hc : c.toNat < 128
  · have hsame := hascii c.toNat hc
    rwa [Char.ofNat_toNat] at hsame
  · by_cases hk : c = '\u212a'
    · subst hk
      decide
    · have hlow : PyText.lowerChar c = c := by
        have hupper : ¬(c.val ≥ 65 ∧ c.val ≤ 90) := by
          intro h
          have hle : c.toNat ≤ 90 := h.2
          omega
        rw [PyText.lowerChar, if_neg hk]
        exact dif_neg hupper
      rw [hlow, hlow]

theorem lower_lower (w : Text) : lower (lower w) = lower w := by
  simp [lower, Function.comp_def, lowerChar_lowerChar]

theorem canonical_bare (s : RefSelector) : s.bare.canonical? = s.canonical? := by
  cases s with
  | dot source role span => cases role <;> simp [RefSelector.bare, RefSelector.canonical?, lower_lower]
  | bracket source span => rfl
  | index source value span => rfl

theorem jsonModeAfter_bare (root : Text) (selectors : List RefSelector) (jsonMode : Bool) :
    jsonModeAfter root (selectors.map RefSelector.bare) jsonMode =
      jsonModeAfter root selectors jsonMode := by
  have hget : ∀ i : ℕ, ((selectors.map RefSelector.bare)[i]?).bind RefSelector.canonical? =
      selectors[i]?.bind RefSelector.canonical? := by
    intro i
    rw [List.getElem?_map]
    cases selectors[i]? with
    | none => rfl
    | some s => exact canonical_bare s
  simp only [jsonModeAfter, hget, List.length_map]

def Stops (more : Text) : Prop := ∀ c rest, more = c :: rest → c = '.' ∨ c = '['

theorem stops_nil : Stops [] := by
  intro c rest h
  cases h

def Whole (jsonMode : Bool) (source : Text) : Prop :=
  ∀ more, Stops more → segment jsonMode (source ++ more) = some source

section Segments
variable {p : Char → Bool}

theorem hyphenTail_cons {c : Char} (hc : p c = true) (w : Text) :
    PyText.hyphenTail p (c :: w) = c :: PyText.hyphenTail p w := by
  cases w with
  | nil => simp [PyText.hyphenTail, hc]
  | cons d w => simp [PyText.hyphenTail, hc]

theorem hyphenTail_idem (w : Text) :
    PyText.hyphenTail p (PyText.hyphenTail p w) = PyText.hyphenTail p w := by
  fun_induction PyText.hyphenTail p w with
  | case1 => rfl
  | case2 c hc => simp [PyText.hyphenTail, hc]
  | case3 c hc => rfl
  | case4 c d cs hc ih => rw [hyphenTail_cons hc, ih]
  | case5 c d cs hc hd ih => simp [PyText.hyphenTail, hc, hd, ih]
  | case6 c d cs hc hd => rfl

theorem hyphenTail_map {f : Char → Char} {w : Text}
    (hf : ∀ c ∈ w, p (f c) = p c ∧ (f c = '-' ↔ c = '-')) :
    PyText.hyphenTail p (w.map f) = (PyText.hyphenTail p w).map f := by
  fun_induction PyText.hyphenTail p w with
  | case1 => rfl
  | case2 c hc => simp [PyText.hyphenTail, hc, (hf c (by simp)).1]
  | case3 c hc => simp [PyText.hyphenTail, hc, (hf c (by simp)).1]
  | case4 c d cs hc ih =>
    have hrest := ih (fun e he => hf e (List.mem_cons_of_mem _ he))
    rw [List.map_cons, hyphenTail_cons ((hf c (by simp)).1.trans hc), hrest]
    rfl
  | case5 c d cs hc hd ih =>
    have hrest := ih (fun e he => hf e (by simp [he]))
    have hc' := (hf c (by simp))
    have hd' := (hf d (by simp))
    simp only [Bool.and_eq_true, decide_eq_true_eq] at hd
    have hdash : p '-' = false := by
      rw [← hd.1]
      exact Bool.eq_false_iff.mpr hc
    have hf' : f '-' = '-' := by
      have hmapped := hc'.2.mpr hd.1
      rwa [hd.1] at hmapped
    simp [PyText.hyphenTail, hd.1, hdash, hf', hd'.1, hd.2, hrest]
  | case6 c d cs hc hd =>
    have hc' := (hf c (by simp))
    have hd' := (hf d (by simp))
    simp only [Bool.and_eq_true, decide_eq_true_eq, not_and] at hd
    simp [PyText.hyphenTail, hc'.1, hc, hc'.2, hd'.1]
    simpa using hd

theorem hyphenTail_stops {w more : Text} (hstops : Stops more) (hdot : p '.' = false)
    (hbracket : p '[' = false) :
    PyText.hyphenTail p (PyText.hyphenTail p w ++ more) = PyText.hyphenTail p w := by
  cases more with
  | nil => rw [List.append_nil, hyphenTail_idem]
  | cons c rest =>
    rcases hstops c rest rfl with hc | hc
    · rw [hc, PyText.hyphenTail_append hdot (by decide), hyphenTail_idem]
    · rw [hc, PyText.hyphenTail_append hbracket (by decide), hyphenTail_idem]

end Segments

theorem takeWhile_stops {p : Char → Bool} {w more : Text} (hstops : Stops more)
    (hdot : p '.' = false) (hbracket : p '[' = false) :
    (w.takeWhile p ++ more).takeWhile p = w.takeWhile p := by
  have hall : ∀ c ∈ w.takeWhile p, p c = true := fun c hc => List.mem_takeWhile_imp hc
  rw [List.takeWhile_append_of_pos hall]
  cases more with
  | nil => simp
  | cons c rest => rcases hstops c rest rfl with hc | hc <;> simp [hc, hdot, hbracket]

theorem whole_of_segment {jsonMode : Bool} {w source : Text}
    (hsegment : segment jsonMode w = some source) : Whole jsonMode source := by
  intro more hstops
  unfold segment at hsegment
  split at hsegment
  · cases hsegment
  · next c cs =>
    have hdot : (PyText.isAlnum '.' || (jsonMode && decide ('.' = '_'))) = false := by
      cases jsonMode <;> decide
    have hbracket : (PyText.isAlnum '[' || (jsonMode && decide ('[' = '_'))) = false := by
      cases jsonMode <;> decide
    split at hsegment
    · next hc =>
      rw [← Option.some.inj hsegment, List.cons_append, segment]
      simp only [hc, ↓reduceIte, Option.some.injEq, List.cons.injEq, true_and]
      exact hyphenTail_stops hstops hdot hbracket
    · next hc =>
      split at hsegment
      · next hd =>
        rw [← Option.some.inj hsegment]
        have htake := takeWhile_stops (w := c :: cs) hstops (p := PyJson.isDigit) (by decide) (by decide)
        rw [List.takeWhile_cons_of_pos hd, List.cons_append] at htake ⊢
        rw [segment]
        simp only [hc, Bool.false_eq_true, ↓reduceIte, hd, htake]
      · cases hsegment

def isSegmentChar (jsonMode : Bool) (c : Char) : Bool := isAlnum c || c = '-' || (jsonMode && c = '_')

theorem segment_chars {jsonMode : Bool} {w source : Text} (hsegment : segment jsonMode w = some source) :
    ∀ c ∈ source, isSegmentChar jsonMode c = true := by
  intro x hx
  unfold segment at hsegment
  split at hsegment
  · cases hsegment
  · next c cs =>
    split at hsegment
    · next hc =>
      rw [← Option.some.inj hsegment] at hx
      rcases List.mem_cons.mp hx with hsame | hx
      · rw [hsame, isSegmentChar, isAlnum]
        grind
      · have htail := PyText.hyphenTail_chars hx
        rw [isSegmentChar]
        grind
    · split at hsegment
      · rw [← Option.some.inj hsegment] at hx
        have hdigit : PyJson.isDigit x = true := List.mem_takeWhile_imp hx
        have halnum : isAlnum x = true := by
          rw [isAlnum, Bool.or_eq_true]
          exact .inr hdigit
        rw [isSegmentChar, halnum]
        rfl
      · cases hsegment

theorem lower_alnum {c : Char} (hc : isAlnum c = true ∨ c = '-') :
    isAlnum (PyText.lowerChar c) = isAlnum c ∧ (PyText.lowerChar c = '-' ↔ c = '-') ∧
      isLetter (PyText.lowerChar c) = isLetter c ∧
      PyJson.isDigit (PyText.lowerChar c) = PyJson.isDigit c := by
  have hascii : ∀ n < 128, (isAlnum (Char.ofNat n) = true ∨ Char.ofNat n = '-') →
      isAlnum (PyText.lowerChar (Char.ofNat n)) = isAlnum (Char.ofNat n) ∧
      (PyText.lowerChar (Char.ofNat n) = '-' ↔ Char.ofNat n = '-') ∧
      isLetter (PyText.lowerChar (Char.ofNat n)) = isLetter (Char.ofNat n) ∧
      PyJson.isDigit (PyText.lowerChar (Char.ofNat n)) = PyJson.isDigit (Char.ofNat n) := by
    decide
  have hlt : c.toNat < 128 := by
    rcases hc with halnum | hhyphen
    · simp only [isAlnum, isLetter, Bool.or_eq_true, Bool.and_eq_true, decide_eq_true_eq] at halnum
      rcases halnum with (h | h) | h
      · exact Nat.lt_of_le_of_lt (show c.toNat ≤ 122 from h.2) (by decide)
      · exact Nat.lt_of_le_of_lt (show c.toNat ≤ 90 from h.2) (by decide)
      · exact Nat.lt_of_le_of_lt (show c.toNat ≤ 57 from h.2) (by decide)
    · rw [hhyphen]
      decide
  have hall := hascii c.toNat hlt
  rw [Char.ofNat_toNat] at hall
  exact hall hc

theorem whole_lower {w source : Text} (hsegment : segment false w = some source) :
    Whole false (lower source) := by
  have hchars : ∀ c ∈ source, isAlnum c = true ∨ c = '-' := by
    intro c hc
    simpa [isSegmentChar] using segment_chars hsegment c hc
  have hself : segment false source = some source := by
    have hwhole := whole_of_segment hsegment [] (fun c rest h => by cases h)
    rwa [List.append_nil] at hwhole
  have hlower : segment false (lower source) = some (lower source) := by
    cases source with
    | nil => cases hself
    | cons c cs =>
      have hc := lower_alnum (hchars c List.mem_cons_self)
      have hcs : ∀ d ∈ cs, isAlnum (PyText.lowerChar d) = isAlnum d ∧
          (PyText.lowerChar d = '-' ↔ d = '-') := by
        intro d hd
        have hall := lower_alnum (hchars d (List.mem_cons_of_mem _ hd))
        exact ⟨hall.1, hall.2.1⟩
      have hdigits : ∀ d ∈ cs, PyJson.isDigit (PyText.lowerChar d) = PyJson.isDigit d := by
        intro d hd
        exact (lower_alnum (hchars d (List.mem_cons_of_mem _ hd))).2.2.2
      simp only [segment, Bool.false_and, Bool.or_false, lower, List.map_cons, hc.2.2.1, hc.2.2.2]
        at hself ⊢
      split at hself
      · next hletter =>
        rw [if_pos hletter, hyphenTail_map hcs, (List.cons.inj (Option.some.inj hself)).2]
      · next hletter =>
        rw [if_neg hletter]
        split at hself
        · next hdigit =>
          have htake : cs.takeWhile PyJson.isDigit = cs := by
            rw [List.takeWhile_cons_of_pos hdigit] at hself
            exact (List.cons.inj (Option.some.inj hself)).2
          have hall : ∀ d ∈ cs.map PyText.lowerChar, PyJson.isDigit d = true := by
            intro d hd
            obtain ⟨e, he, hsame⟩ := List.mem_map.mp hd
            rw [← hsame, hdigits e he]
            exact List.mem_takeWhile_imp (htake.symm ▸ he)
          rw [if_pos hdigit, List.takeWhile_cons_of_pos (hc.2.2.2.trans hdigit),
            List.takeWhile_eq_self_iff.mpr hall]
        · cases hself
  exact whole_of_segment hlower

/-- The digits of an index are as many as `int` converts. -/
def Convertible (cfg : ParserConfig) (value : ℕ) : Prop :=
  cfg.maxDigits.any (· < (Nat.toDigits 10 value).length) = false

def roleOf (jsonMode : Bool) : Ast.Role := if jsonMode then .jsonMember else .identifier

/-- Selectors as `_try_reference` reads them, behind some and in a mode. -/
inductive Selects (cfg : ParserConfig) (root : Text) :
    List RefSelector → Bool → List RefSelector → Prop
  | nil {before : List RefSelector} {jsonMode : Bool} : Selects cfg root before jsonMode []
  | dot {before more : List RefSelector} {jsonMode next : Bool} {source : Text} {span : SourceSpan}
      (whole : Whole jsonMode (if jsonMode then source else lower source))
      (mode : jsonModeAfter root (before ++ [.dot source (roleOf jsonMode) span]) jsonMode = .ok next)
      (rest : Selects cfg root (before ++ [.dot source (roleOf jsonMode) span]) next more) :
      Selects cfg root before jsonMode (.dot source (roleOf jsonMode) span :: more)
  | bracket {before more : List RefSelector} {jsonMode : Bool} {member : Text} {span : SourceSpan}
      (rest : Selects cfg root (before ++ [.bracket member span]) true more) :
      Selects cfg root before jsonMode (.bracket member span :: more)
  | index {before more : List RefSelector} {jsonMode : Bool} {source : Text} {value : ℕ}
      {span : SourceSpan} (digits : Convertible cfg value)
      (rest : Selects cfg root (before ++ [.index source value span]) true more) :
      Selects cfg root before jsonMode (.index source value span :: more)

variable {cfg : ParserConfig} {line : SourceLine}

theorem integer_digits {inner : Text} {n : PyJson.Numeral} (h : integer? inner = some n) :
    n.whole ≠ [] ∧ ∀ c ∈ n.whole, PyJson.isDigit c = true := by
  have hwhole : ∀ w : Text, ∀ c ∈ (PyJson.readWhole w).1, PyJson.isDigit c = true := by
    intro w c hc
    unfold PyJson.readWhole at hc
    split at hc
    · rw [List.mem_singleton.mp hc]
      decide
    · exact List.mem_takeWhile_imp hc
  unfold integer? at h
  split at h
  · next m hnumeral =>
    split at h
    · rw [← Option.some.inj h]
      unfold PyJson.numeral at hnumeral
      dsimp only at hnumeral
      split at hnumeral
      all_goals
        simp only [Option.ite_none_left_eq_some, Option.some.injEq, Prod.mk.injEq] at hnumeral
        obtain ⟨hne, hsame, -⟩ := hnumeral
        rw [← hsame]
        exact ⟨hne, hwhole _⟩
    · cases h
  · cases h

theorem convertible_of_intOf {w : Text} {n : PyJson.Numeral} {z : ℤ} (hn : integer? w = some n)
    (hz : intOf cfg n = .ok z) : Convertible cfg z.natAbs := by
  unfold intOf at hz
  split at hz
  · cases hz
  · next hfits =>
    obtain ⟨hne, hdigits⟩ := integer_digits hn
    have hvalue : z.natAbs = PyJson.natOf n.whole := by
      rw [← Except.ok.inj hz, PyJson.Numeral.toInt]
      split <;> simp
    have hlength := length_toDigits_natOf hne hdigits
    unfold Convertible
    rw [hvalue]
    cases hmax : cfg.maxDigits with
    | none => rfl
    | some limit =>
      rw [hmax] at hfits
      simp only [Option.any_some, decide_eq_true_eq, decide_eq_false_iff_not] at hfits ⊢
      omega

theorem bracketSelector_cases {inner : Text} {span : SourceSpan} {s : RefSelector}
    (h : bracketSelector cfg inner span = .ok (some s)) :
    (∃ member, s = .bracket member span) ∨
      ∃ value, s = .index inner value span ∧ Convertible cfg value := by
  unfold bracketSelector at h
  split at h
  · next n hn =>
    cases hint : intOf cfg n with
    | error e =>
      rw [hint] at h
      cases h
    | ok z =>
      rw [hint] at h
      have hselector := Except.ok.inj h
      dsimp only at hselector
      split at hselector
      · next hpos =>
        refine .inr ⟨_, (Option.some.inj hselector).symm, ?_⟩
        have habs : z.toNat = z.natAbs := by omega
        rw [habs]
        exact convertible_of_intOf hn hint
      · cases hselector
  · split at h
    · exact .inl ⟨_, (Option.some.inj (Except.ok.inj h)).symm⟩
    · cases h
    · cases h
    · cases h

theorem selects_of_readSelectors {root w : Text} {n cursor : ℕ} {before all : List RefSelector}
    {jsonMode : Bool}
    (h : readSelectors cfg line root n cursor w before jsonMode = .ok (some all)) :
    ∃ more, all = before ++ more ∧ (more = [] → w = []) ∧ Selects cfg root before jsonMode more := by
  fun_induction readSelectors cfg line root n cursor w before jsonMode with
  | case1 => exact ⟨[], by simpa using (Option.some.inj (Except.ok.inj h)).symm, fun _ => rfl, .nil⟩
  | case2 => cases h
  | case3 => cases h
  | case4 n cursor rest selectors jsonMode source hsegment role stop selectors' ih =>
    obtain ⟨next, hmode, hrest⟩ := Attempt.bind_ok h
    obtain ⟨more, hall, -, hselects⟩ := ih next hrest
    refine ⟨.dot source (roleOf jsonMode) _ :: more, by rw [hall, List.append_assoc]; rfl, by rintro ⟨⟩, ?_⟩
    refine .dot ?_ hmode hselects
    cases jsonMode with
    | false => exact whole_lower hsegment
    | true => exact whole_of_segment hsegment
  | case5 => cases h
  | case6 n cursor rest selectors jsonMode inner after huntil stop ih =>
    obtain ⟨found, hbracket, hrest⟩ := Attempt.bind_ok h
    cases found with
    | none => cases hrest
    | some s =>
      obtain ⟨more, hall, -, hselects⟩ := ih s hrest
      refine ⟨s :: more, by rw [hall, List.append_assoc]; rfl, by rintro ⟨⟩, ?_⟩
      rcases bracketSelector_cases hbracket with ⟨member, hs⟩ | ⟨value, hs, hdigits⟩
      · subst hs
        exact .bracket hselects
      · subst hs
        exact .index hdigits hselects
  | case7 => cases h

theorem stops_selectors (selectors : List RefSelector) {tail : Text} (htail : Stops tail) :
    Stops (selectors.flatMap RefSelector.text ++ tail) := by
  intro c rest h
  cases selectors with
  | nil => exact htail c rest h
  | cons s selectors =>
    rw [List.flatMap_cons] at h
    cases s with
    | dot source role span =>
      cases role <;> exact .inl (List.cons.inj h).1.symm
    | bracket source span => exact .inr (List.cons.inj h).1.symm
    | index source value span => exact .inr (List.cons.inj h).1.symm

theorem mode_of_bare {root : Text} {before before' : List RefSelector} {s s' : RefSelector}
    {jsonMode : Bool} (hbefore : before'.map RefSelector.bare = before.map RefSelector.bare)
    (hs : s'.bare = s.bare) : jsonModeAfter root (before' ++ [s']) jsonMode =
      jsonModeAfter root (before ++ [s]) jsonMode := by
  rw [← jsonModeAfter_bare root (before' ++ [s']), ← jsonModeAfter_bare root (before ++ [s]),
    List.map_append, List.map_append, hbefore, List.map_singleton, List.map_singleton, hs]

theorem bracketSelector_dump (member : Text) (span : SourceSpan) :
    bracketSelector cfg (dumpText member) span = .ok (some (.bracket member span)) := by
  have hinteger : integer? (dumpText member) = none := by
    simp [integer?, dumpText, PyJson.numeral, PyJson.readWhole, PyJson.isDigit]
  rw [bracketSelector, hinteger, jsonLoads_dump]

theorem bracketSelector_toDigits {value : ℕ} (hdigits : Convertible cfg value) (span : SourceSpan) :
    bracketSelector cfg (Nat.toDigits 10 value) span =
      .ok (some (.index (Nat.toDigits 10 value) value span)) := by
  have hint : PyJson.Numeral.toInt ⟨false, Nat.toDigits 10 value, [], none⟩ = value := by
    rw [PyJson.Numeral.toInt, PyJson.natOf_toDigits]
    rfl
  rw [bracketSelector, integer_toDigits]
  unfold Convertible at hdigits
  simp only [intOf, hdigits, Bool.false_eq_true, ↓reduceIte, hint, Except.map]
  rw [if_pos (Int.natCast_nonneg value), Int.toNat_natCast]

theorem untilUnquoted_toDigits (value : ℕ) (rest : Text) :
    untilUnquoted ']' false false (Nat.toDigits 10 value ++ ']' :: rest) =
      some (Nat.toDigits 10 value, rest) := by
  have hplain : ∀ u : Text, (∀ c ∈ u, PyJson.isDigit c = true) →
      untilUnquoted ']' false false (u ++ ']' :: rest) = some (u, rest) := by
    intro u
    induction u with
    | nil =>
      intro _
      simp [untilUnquoted]
    | cons c u ih =>
      intro hall
      have hc := hall c List.mem_cons_self
      have hq : c ≠ '"' := by
        rintro rfl
        exact absurd hc (by decide)
      have ht : c ≠ ']' := by
        rintro rfl
        exact absurd hc (by decide)
      rw [List.cons_append, untilUnquoted]
      simp [hq, ht, ih (fun d hd => hall d (List.mem_cons_of_mem _ hd))]
  exact hplain _ fun c hc => PyJson.isDigit_toDigits hc

theorem Selects.again {root : Text} {before more : List RefSelector} {jsonMode : Bool}
    (hselects : Selects cfg root before jsonMode more) (line : SourceLine) {tail : Text}
    (htail : Stops tail) : ∀ (before' : List RefSelector) (n cursor : ℕ),
      before'.map RefSelector.bare = before.map RefSelector.bare →
      (more.flatMap RefSelector.text ++ tail).length ≤ n →
      ∃ more' n' cursor' jsonMode', tail.length ≤ n' ∧
        more'.map RefSelector.bare = more.map RefSelector.bare ∧
        readSelectors cfg line root n cursor (more.flatMap RefSelector.text ++ tail) before' jsonMode =
          readSelectors cfg line root n' cursor' tail (before' ++ more') jsonMode' := by
  induction hselects with
  | @nil before jsonMode =>
    intro before' n cursor _ hn
    exact ⟨[], n, cursor, jsonMode, hn, rfl, by rw [List.append_nil]; rfl⟩
  | @dot before more jsonMode next source span hwhole hmode hrest ih =>
    intro before' n cursor hbefore hn
    have htext : (RefSelector.dot source (roleOf jsonMode) span).text =
        '.' :: (if jsonMode then source else lower source) := by
      cases jsonMode <;> rfl
    rw [List.flatMap_cons, htext] at hn ⊢
    generalize hseg : (if jsonMode then source else lower source) = printed at hn hwhole ⊢
    cases n with
    | zero => simp at hn
    | succ n =>
      have hbare : ∀ span', (RefSelector.dot printed (roleOf jsonMode) span').bare =
          (RefSelector.dot source (roleOf jsonMode) span).bare := by
        intro span'
        rw [← hseg]
        cases jsonMode <;> simp [RefSelector.bare, roleOf, lower_lower]
      have hsegment := hwhole _ (stops_selectors more htail)
      have hlength : (more.flatMap RefSelector.text ++ tail).length ≤ n := by
        simp only [List.cons_append, List.length_cons, List.length_append] at hn ⊢
        omega
      generalize hsel : RefSelector.dot printed (roleOf jsonMode)
        (line.span (cursor + 1) (cursor + 1 + printed.length)) = selector
      have hsame : selector.bare = (RefSelector.dot source (roleOf jsonMode) span).bare := by
        rw [← hsel, hbare]
      obtain ⟨more', n', cursor', jsonMode', hn', hmore, hread⟩ := ih (before' ++ [selector]) n
        (cursor + 1 + printed.length) (by simp [hbefore, hsame]) hlength
      refine ⟨selector :: more', n', cursor', jsonMode', hn', ?_, ?_⟩
      · rw [List.map_cons, List.map_cons, hmore, hsame]
      · have hmode' := (mode_of_bare hbefore hsame).trans hmode
        have hdrop : (printed ++ (more.flatMap RefSelector.text ++ tail)).drop printed.length =
            more.flatMap RefSelector.text ++ tail := List.drop_left
        rw [List.cons_append, List.cons_append, List.append_assoc, readSelectors, hsegment]
        show (jsonModeAfter root (before' ++ [RefSelector.dot printed (roleOf jsonMode) _]) jsonMode >>=
          fun jsonMode => _) = _
        rw [hsel, hmode']
        show readSelectors cfg line root n _ _ (before' ++ [RefSelector.dot printed (roleOf jsonMode) _])
          next = _
        rw [hsel, hdrop, hread, List.append_assoc]
        rfl
  | @bracket before more jsonMode member span hrest ih =>
    intro before' n cursor hbefore hn
    rw [List.flatMap_cons] at hn ⊢
    cases n with
    | zero => simp [RefSelector.text] at hn
    | succ n =>
      have hlength : (more.flatMap RefSelector.text ++ tail).length ≤ n := by
        simp only [RefSelector.text, List.cons_append, List.length_cons, List.length_append] at hn ⊢
        omega
      generalize hspan : line.span cursor (cursor + (dumpText member).length + 2) = span'
      obtain ⟨more', n', cursor', jsonMode', hn', hmore, hread⟩ := ih
        (before' ++ [.bracket member span']) n (cursor + (dumpText member).length + 2)
        (by simp [hbefore, RefSelector.bare]) hlength
      refine ⟨.bracket member span' :: more', n', cursor', jsonMode', hn',
        by rw [List.map_cons, List.map_cons, hmore]; rfl, ?_⟩
      rw [RefSelector.text, List.cons_append, List.cons_append, List.append_assoc, List.append_assoc,
        List.singleton_append, readSelectors, untilUnquoted_dump]
      show (bracketSelector cfg (dumpText member) _ >>= fun found => _) = _
      rw [bracketSelector_dump, hspan]
      show readSelectors cfg line root n _ _ _ true = _
      rw [hread, List.append_assoc]
      rfl
  | @index before more jsonMode source value span hdigits hrest ih =>
    intro before' n cursor hbefore hn
    rw [List.flatMap_cons] at hn ⊢
    cases n with
    | zero => simp [RefSelector.text] at hn
    | succ n =>
      have hlength : (more.flatMap RefSelector.text ++ tail).length ≤ n := by
        simp only [RefSelector.text, List.cons_append, List.length_cons, List.length_append] at hn ⊢
        omega
      generalize hspan : line.span cursor (cursor + (Nat.toDigits 10 value).length + 2) = span'
      obtain ⟨more', n', cursor', jsonMode', hn', hmore, hread⟩ := ih
        (before' ++ [.index (Nat.toDigits 10 value) value span']) n
        (cursor + (Nat.toDigits 10 value).length + 2) (by simp [hbefore, RefSelector.bare]) hlength
      refine ⟨.index (Nat.toDigits 10 value) value span' :: more', n', cursor', jsonMode', hn',
        by rw [List.map_cons, List.map_cons, hmore]; rfl, ?_⟩
      rw [RefSelector.text, List.cons_append, List.cons_append, List.append_assoc, List.append_assoc,
        List.singleton_append, readSelectors, untilUnquoted_toDigits]
      show (bracketSelector cfg (Nat.toDigits 10 value) _ >>= fun found => _) = _
      rw [bracketSelector_toDigits hdigits, hspan]
      show readSelectors cfg line root n _ _ _ true = _
      rw [hread, List.append_assoc]
      rfl

theorem Selects.left {root : Text} {xs ys before : List RefSelector} {jsonMode : Bool}
    (h : Selects cfg root before jsonMode (xs ++ ys)) : Selects cfg root before jsonMode xs := by
  induction xs generalizing before jsonMode with
  | nil => exact .nil
  | cons x xs ih =>
    cases h with
    | dot whole mode rest => exact .dot whole mode (ih rest)
    | bracket rest => exact .bracket (ih rest)
    | index digits rest => exact .index digits (ih rest)

structure Referable (cfg : ParserConfig) (r : Ast.Reference) : Prop where
  root : r.root.canonical ∈ referenceRoots
  nonempty : r.selectors ≠ []
  selects : Selects cfg r.root.canonical [] false r.selectors

theorem lowerWord_eq {w : Text} (h : ∀ c ∈ w, isAlnum c = true ∨ c = '-') : lowerWord w = lower w := by
  induction w with
  | nil => rfl
  | cons c w ih =>
    have hc : c ≠ '\u0130' := by
      rintro rfl
      exact absurd (h _ List.mem_cons_self) (by decide)
    rw [lowerWord, List.flatMap_cons, if_neg hc]
    exact congrArg (PyText.lowerChar c :: ·) (ih fun d hd => h d (List.mem_cons_of_mem _ hd))

theorem lower_root {root : Text} (h : root ∈ referenceRoots) : lower root = root := by
  have hall : ∀ root ∈ referenceRoots, lower root = root := by decide
  exact hall root h

theorem referable_of_tryReference {r : Ast.Reference} {text : Text} {start : ℕ}
    (h : tryReference cfg line text start = .ok (some r)) : Referable cfg r := by
  unfold tryReference at h
  split at h
  · cases h
  · next root hroot =>
    split at h
    · cases h
    · next hknown =>
      obtain ⟨found, hread, hr⟩ := Attempt.bind_ok h
      cases found with
      | none => cases hr
      | some selectors =>
        obtain ⟨hleading, -, hchars⟩ := PyText.identifier_eq_some hroot
        obtain ⟨more, hall, hmore, hselects⟩ := selects_of_readSelectors hread
        rw [List.nil_append] at hall
        subst hall
        simp only [Bool.or_eq_true, Bool.not_eq_true', decide_eq_true_eq, not_or, Bool.not_eq_false,
          List.contains_eq_mem] at hknown
        have hsame := Option.some.inj (Except.ok.inj hr)
        have hcanonical : r.root.canonical = lower root := by
          rw [← hsame]
          exact lowerWord_eq hchars
        have hselectors : r.selectors = selectors := by rw [← hsame]
        refine ⟨?_, ?_, ?_⟩
        · rw [hcanonical]
          exact hknown.1
        · rw [hselectors]
          intro hnil
          have hlength := List.drop_eq_nil_iff.mp (hmore hnil)
          exact hknown.2 (Nat.le_antisymm hleading.length_le hlength)
        · rw [hcanonical, hselectors]
          exact hselects

theorem text_selectors_ne {selectors : List RefSelector} (h : selectors ≠ []) :
    ∃ c w, selectors.flatMap RefSelector.text = c :: w ∧ (c = '.' ∨ c = '[') := by
  cases hw : selectors.flatMap RefSelector.text with
  | nil =>
    cases selectors with
    | nil => exact absurd rfl h
    | cons s selectors =>
      rw [List.flatMap_cons] at hw
      rcases s with ⟨_, _ | _, _⟩ | _ | _ <;> cases hw
  | cons c w =>
    have hstops := stops_selectors selectors stops_nil
    rw [List.append_nil] at hstops
    exact ⟨c, w, rfl, hstops c w hw⟩

theorem tryReference_root {root w : Text} {c : Char} (hroot : root ∈ referenceRoots)
    (hc : c = '.' ∨ c = '[') (start : ℕ) : tryReference cfg line (root ++ c :: w) start = (do
      let selectors ← readSelectors cfg line root (root ++ c :: w).length (start + root.length)
        (c :: w) [] false
      return selectors.map (fun selectors => ⟨⟨root, root, line.span start (start + root.length)⟩,
        selectors, line.span start (start + (root ++ c :: w).length)⟩)) := by
  have hself : ∀ root ∈ referenceRoots, identifier root = some root ∧
      root.all (fun c => isAlnum c || c = '-') = true := by decide
  obtain ⟨hidentifier, hall⟩ := hself root hroot
  have hchars : ∀ c ∈ root, isAlnum c = true ∨ c = '-' := by
    intro c hc
    simpa using List.all_eq_true.mp hall c hc
  have halnum : isAlnum c = false ∧ c ≠ '-' := by
    rcases hc with rfl | rfl <;> decide
  have hwhole := PyText.identifier_append hidentifier halnum.1 halnum.2 w
  have hlength : ¬root.length = (root ++ c :: w).length := by simp
  have hknown : (!referenceRoots.contains root) = false := by
    rw [List.contains_eq_mem, decide_eq_true hroot]
    rfl
  unfold tryReference
  simp only [hwhole, hknown, hlength, lower_root hroot, List.drop_left, identifierJson,
    lowerWord_eq hchars, decide_false, Bool.or_false, Bool.false_eq_true, ↓reduceIte]

theorem Referable.again {r : Ast.Reference} (h : Referable cfg r) (line : SourceLine) (start : ℕ) :
    ∃ r', tryReference cfg line r.text start = .ok (some r') ∧ r'.bare = r.bare := by
  obtain ⟨c, w, hw, hc⟩ := text_selectors_ne h.nonempty
  obtain ⟨more, n, cursor, jsonMode, -, hmore, hread⟩ := h.selects.again line stops_nil
    [] (r.root.canonical ++ c :: w).length (start + r.root.canonical.length)
    rfl (by rw [hw, List.append_nil, List.length_append]; omega)
  rw [List.append_nil, List.nil_append, hw] at hread
  have hend : readSelectors cfg line r.root.canonical n cursor [] more jsonMode = .ok (some more) := by
    cases n <;> rfl
  rw [Ast.Reference.text, hw, tryReference_root h.root hc, hread, hend]
  refine ⟨_, rfl, ?_⟩
  simp only [Ast.Reference.bare, hmore]

/-! Words of a predicate. -/

theorem word_of_segmentChar {jsonMode : Bool} {c : Char} (hc : isSegmentChar jsonMode c = true) :
    isPredicateWord c = true := by
  have hascii : ∀ n < 128, isSegmentChar true (Char.ofNat n) = true →
      isPredicateWord (Char.ofNat n) = true := by decide
  have hlax : isSegmentChar true c = true := by
    cases jsonMode
    · simp only [isSegmentChar, Bool.false_and, Bool.or_false] at hc
      rw [isSegmentChar, hc]
      rfl
    · exact hc
  have hlt : c.toNat < 128 := by
    simp only [isSegmentChar, isAlnum, isLetter, Bool.or_eq_true, Bool.and_eq_true, decide_eq_true_eq,
      true_and] at hlax
    rcases hlax with (((h | h) | h) | h) | h
    · exact Nat.lt_of_le_of_lt (show c.toNat ≤ 122 from h.2) (by decide)
    · exact Nat.lt_of_le_of_lt (show c.toNat ≤ 90 from h.2) (by decide)
    · exact Nat.lt_of_le_of_lt (show c.toNat ≤ 57 from h.2) (by decide)
    · rw [h]
      decide
    · rw [h]
      decide
  have hword := hascii c.toNat hlt
  rw [Char.ofNat_toNat] at hword
  exact hword hlax

theorem word_of_digit {c : Char} (hc : PyJson.isDigit c = true) : isPredicateWord c = true := by
  have halnum : isAlnum c = true := by
    rw [isAlnum, Bool.or_eq_true]
    exact .inr hc
  have hsegment : isSegmentChar false c = true := by
    rw [isSegmentChar, halnum]
    rfl
  exact word_of_segmentChar hsegment

def isMemberChar (c : Char) : Bool := c.toNat < 32 || isPredicateWord c

def Ast.RefSelector.unbroken : RefSelector → Bool
  | .bracket member _ => member.all isMemberChar
  | _ => true

def Ast.Reference.unbroken (r : Ast.Reference) : Bool := r.selectors.all RefSelector.unbroken

theorem escapeChar_word {c : Char} (hc : isMemberChar c = true) :
    ∀ d ∈ escapeChar c, isPredicateWord d = true := by
  have hslash : isPredicateWord '\\' = true := by decide
  unfold escapeChar
  split_ifs with h₁ h₂ h₃ h₄ h₅ h₆ h₇ h₈
  iterate 7 exact List.all_eq_true.mp (by decide)
  · have hall : ∀ n < 32, (PyText.unitEscape n).all isPredicateWord = true := by decide
    exact List.all_eq_true.mp (hall _ h₈)
  · intro d hd
    rw [List.mem_singleton.mp hd]
    simpa [isMemberChar, h₈] using hc

theorem escapeChar_raw {c : Char} (hc : isMemberChar c = false) : escapeChar c = [c] := by
  have hquotes : isMemberChar '"' = true ∧ isMemberChar '\\' = true := by decide
  have hcontrol : ¬c.toNat < 32 := by
    intro h
    simp [isMemberChar, h] at hc
  have hne : c ∉ ['"', '\\', '\n', '\r', '\t', '\x0c', '\x08'] := by
    intro h
    have hall : ∀ d ∈ ['"', '\\', '\n', '\r', '\t', '\x0c', '\x08'], isMemberChar d = true :=
      List.all_eq_true.mp (by decide)
    rw [hall c h] at hc
    cases hc
  simp only [List.mem_cons, List.not_mem_nil, or_false, not_or] at hne
  simp [escapeChar, hne, hcontrol]

theorem dump_word {member : Text} (h : ∀ c ∈ member, isMemberChar c = true) :
    ∀ d ∈ member.flatMap escapeChar, isPredicateWord d = true := by
  intro d hd
  obtain ⟨c, hc, hd⟩ := List.mem_flatMap.mp hd
  exact escapeChar_word (h c hc) d hd

theorem Selects.word {root : Text} {before more : List RefSelector} {jsonMode : Bool}
    (h : Selects cfg root before jsonMode more) (hunbroken : ∀ s ∈ more, s.unbroken = true) :
    ∀ c ∈ more.flatMap RefSelector.text, isPredicateWord c = true := by
  induction h with
  | nil => exact fun c hc => absurd hc List.not_mem_nil
  | @dot before more jsonMode next source span hwhole hmode hrest ih =>
    intro c hc
    rw [List.flatMap_cons] at hc
    rcases List.mem_append.mp hc with hc | hc
    · have hself := hwhole [] (fun c rest h => by cases h)
      rw [List.append_nil] at hself
      have htext : (RefSelector.dot source (roleOf jsonMode) span).text =
          '.' :: (if jsonMode then source else lower source) := by
        cases jsonMode <;> rfl
      rw [htext] at hc
      rcases List.mem_cons.mp hc with rfl | hc
      · decide
      · exact word_of_segmentChar (segment_chars hself c hc)
    · exact ih (fun s hs => hunbroken s (List.mem_cons_of_mem _ hs)) c hc
  | @bracket before more jsonMode member span hrest ih =>
    intro c hc
    rw [List.flatMap_cons] at hc
    rcases List.mem_append.mp hc with hc | hc
    · have hmember := hunbroken _ List.mem_cons_self
      have hdump := dump_word (List.all_eq_true.mp hmember)
      simp only [RefSelector.text, dumpText, List.mem_cons, List.mem_append, List.not_mem_nil, or_false]
        at hc
      rcases hc with rfl | (rfl | hc | rfl) | rfl
      · decide
      · decide
      · exact hdump c hc
      · decide
      · decide
    · exact ih (fun s hs => hunbroken s (List.mem_cons_of_mem _ hs)) c hc
  | @index before more jsonMode source value span hdigits hrest ih =>
    intro c hc
    rw [List.flatMap_cons] at hc
    rcases List.mem_append.mp hc with hc | hc
    · simp only [RefSelector.text, List.mem_cons, List.mem_append, List.not_mem_nil, or_false] at hc
      rcases hc with rfl | hc | rfl
      · decide
      · exact word_of_digit (PyJson.isDigit_toDigits hc)
      · decide
    · exact ih (fun s hs => hunbroken s (List.mem_cons_of_mem _ hs)) c hc

theorem root_word {root : Text} (h : root ∈ referenceRoots) : ∀ c ∈ root, isPredicateWord c = true := by
  have hall : ∀ root ∈ referenceRoots, root.all isPredicateWord = true := by decide
  exact List.all_eq_true.mp (hall root h)

theorem Referable.word {r : Ast.Reference} (h : Referable cfg r) (hunbroken : r.unbroken = true) :
    ∀ c ∈ r.text, isPredicateWord c = true := by
  intro c hc
  rcases List.mem_append.mp hc with hc | hc
  · exact root_word h.root c hc
  · exact h.selects.word (List.all_eq_true.mp hunbroken) c hc

theorem first_false {α : Type} {p : α → Bool} {xs : List α} (h : xs.all p = false) :
    ∃ good bad more, xs = good ++ bad :: more ∧ (∀ x ∈ good, p x = true) ∧ p bad = false := by
  induction xs with
  | nil => cases h
  | cons x xs ih =>
    cases hx : p x with
    | false => exact ⟨[], x, xs, rfl, fun _ hy => absurd hy List.not_mem_nil, hx⟩
    | true =>
      rw [List.all_cons, hx, Bool.true_and] at h
      obtain ⟨good, bad, more, hxs, hgood, hbad⟩ := ih h
      refine ⟨x :: good, bad, more, by rw [hxs]; rfl, ?_, hbad⟩
      intro y hy
      rcases List.mem_cons.mp hy with rfl | hy
      · exact hx
      · exact hgood y hy

theorem untilUnquoted_open (target : Char) (w : Text) :
    untilUnquoted target true false (w.flatMap escapeChar) = none := by
  induction w with
  | nil => rfl
  | cons c w ih => rw [List.flatMap_cons, untilUnquoted_escape, ih, Option.map_none]

theorem Referable.torn {r : Ast.Reference} (h : Referable cfg r) (hbroken : r.unbroken = false)
    (after : Text) : ∃ c w, (r.text ++ after).takeWhile isPredicateWord = r.root.canonical ++ c :: w ∧
      (c = '.' ∨ c = '[') ∧
      ∀ line start, tryReference cfg line (r.root.canonical ++ c :: w) start = .ok none := by
  obtain ⟨good, bad, more, hselectors, hgood, hbad⟩ := first_false hbroken
  obtain ⟨member, span, rfl⟩ : ∃ member span, bad = .bracket member span := by
    cases bad with
    | bracket member span => exact ⟨member, span, rfl⟩
    | dot source role span => cases hbad
    | index source value span => cases hbad
  obtain ⟨whole, cut, rest, hmember, hwhole, hcut⟩ := first_false hbad
  have hselects : Selects cfg r.root.canonical [] false good := by
    have hall := h.selects
    rw [hselectors] at hall
    exact hall.left
  generalize htail : '[' :: '"' :: whole.flatMap escapeChar = tail
  have hstops : Stops tail := by
    intro c rest hc
    rw [← htail] at hc
    exact .inr (List.cons.inj hc).1.symm
  have hword : ∀ c ∈ tail, isPredicateWord c = true := by
    intro c hc
    rw [← htail] at hc
    rcases List.mem_cons.mp hc with rfl | hc
    · decide
    · rcases List.mem_cons.mp hc with rfl | hc
      · decide
      · exact dump_word hwhole c hc
  obtain ⟨c, w, hcw, hc⟩ : ∃ c w, good.flatMap RefSelector.text ++ tail = c :: w ∧ (c = '.' ∨ c = '[') := by
    have hall := stops_selectors good hstops
    cases hlist : good.flatMap RefSelector.text ++ tail with
    | nil =>
      rw [← htail] at hlist
      simp at hlist
    | cons c w => exact ⟨c, w, rfl, hall c w hlist⟩
  refine ⟨c, w, ?_, hc, ?_⟩
  · have htext : r.text ++ after = (r.root.canonical ++ c :: w) ++
        cut :: (rest.flatMap escapeChar ++ '"' :: ']' :: (more.flatMap RefSelector.text ++ after)) := by
      rw [← hcw, Ast.Reference.text, hselectors, hmember, ← htail]
      simp [RefSelector.text, dumpText, escapeChar_raw hcut]
    have hcutoff : isPredicateWord cut = false := by
      rw [isMemberChar, Bool.or_eq_false_iff] at hcut
      exact hcut.2
    have hall : ∀ d ∈ r.root.canonical ++ c :: w, isPredicateWord d = true := by
      intro d hd
      rw [← hcw] at hd
      rcases List.mem_append.mp hd with hd | hd
      · exact root_word h.root d hd
      · rcases List.mem_append.mp hd with hd | hd
        · exact hselects.word hgood d hd
        · exact hword d hd
    rw [htext, List.takeWhile_append_of_pos hall, List.takeWhile_cons_of_neg (by simp [hcutoff]),
      List.append_nil]
  · intro line start
    obtain ⟨more', n, cursor, jsonMode, hn, -, hread⟩ := hselects.again line hstops []
      (r.root.canonical ++ c :: w).length (start + r.root.canonical.length) rfl
      (by rw [hcw, List.length_append]; omega)
    have hopen : readSelectors cfg line r.root.canonical n cursor tail ([] ++ more') jsonMode =
        .ok none := by
      rw [← htail] at hn ⊢
      cases n with
      | zero => simp at hn
      | succ n =>
        have huntil : untilUnquoted ']' false false ('"' :: whole.flatMap escapeChar) = none := by
          simp [untilUnquoted, untilUnquoted_open]
        rw [readSelectors, huntil]
    rw [hcw] at hread
    rw [tryReference_root h.root hc, hread, hopen]
    rfl

end Raticode.Rattish
