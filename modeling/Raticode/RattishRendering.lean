import Raticode.RattishTemplate

/-! What a template says, read without sentinels, and when the renderer gives
that. The reading keeps an escaped delimiter as a mark of its own, so that no
text of the template or of a value can be taken for one. -/
namespace Raticode.Rattish
open OrderedDict PyText

inductive Token where
  | opening
  | closing
  | char (c : Char)
  deriving DecidableEq

namespace Token

def spell : Token → List Char
  | .opening => openSentinel
  | .closing => closeSentinel
  | .char c => [c]

def halfPlain : Token → List Char
  | .opening => ['{', '{']
  | .closing => closeSentinel
  | .char c => [c]

def plain : Token → List Char
  | .opening => ['{', '{']
  | .closing => ['}', '}']
  | .char c => [c]

def isSpace : Token → Bool
  | .char c => PyText.isSpace c
  | _ => false

def char? : Token → Option Char
  | .char c => some c
  | _ => none

end Token

def markAt (w : List Char) : Option (Token × ℕ) :=
  if ['{', '{', '{', '{'].isPrefixOf w then some (.opening, 3)
  else if ['}', '}', '}', '}'].isPrefixOf w then some (.closing, 3)
  else none

def marks (template : List Char) : List Token :=
  (Scan.pieces markAt 0 template).map (Sum.elim id .char)

def holeAt : List Token → Option (List Char × ℕ)
  | .char '{' :: .char '{' :: body =>
    match Scan.before (fun w => [.char '}', .char '}'].isPrefixOf w) body with
    | some (content, _) =>
      match content.mapM Token.char? with
      | some text => if '\n' ∈ strip text then none else some (strip text, content.length + 3)
      | none => none
    | none => none
  | _ => none

def templatePieces (template : String) : List (List Char ⊕ Token) :=
  Scan.pieces holeAt 0 (marks template.toList)

section Expected
variable (floatRepr : ℚ → List Char) (values : Dict String Value)

/-- The value an expression names, `null` where it names none. -/
def holeValue (expression : List Char) : Value :=
  match (do placeholderValue (canonicalValues values) (← parseExpression expression)) with
  | .ok v => v
  | .error _ => .null

def filledPiece : List Char ⊕ Token → List Token
  | .inl expression => (valueText floatRepr (holeValue values expression)).map .char
  | .inr t => [t]

def filled (template : String) : List Token :=
  (templatePieces template).flatMap (filledPiece floatRepr values)

def expectedRendering (template : String) : Value :=
  match templatePieces template with
  | [.inl expression] => holeValue values expression
  | _ => .str (String.ofList ((filled floatRepr values template).flatMap Token.plain))

end Expected

/-- The template begins with `{{` and ends with `}}`, and no line feed stands
between them apart from the whitespace next to them. -/
def Enclosed (template : String) : Prop :=
  ∃ body, marks template.toList = [.char '{', .char '{'] ++ body ++ [.char '}', .char '}'] ∧
    .char '\n' ∉ Scan.trim Token.isSpace body

def BracePair (tokens : List Token) : Prop :=
  [.char '{', .char '{'] <:+: tokens ∨ [.char '}', .char '}'] <:+: tokens

/-- Where the first token of the suffix is the start of a sentinel that stands
for no escaped delimiter: one that begins in text, or an opening one that begins
at the end of a closing one. -/
def strayAt : List Token → Prop
  | .char c :: ts => openSentinel <+: (Token.char c :: ts).flatMap Token.spell ∨
      closeSentinel <+: (Token.char c :: ts).flatMap Token.halfPlain
  | .closing :: ts => openSentinel <+: '\x00' :: ts.flatMap Token.spell
  | _ => False

def StraySentinel (tokens : List Token) : Prop := ∃ ts, ts <:+ tokens ∧ strayAt ts

section Expressions

theorem ok_of_bind {ε α β : Type} {x : Except ε α} {f : α → Except ε β} {b : β}
    (h : (x >>= f) = .ok b) : ∃ a, x = .ok a ∧ f a = .ok b := by
  cases x with
  | error e => cases h
  | ok a => exact ⟨a, rfl, h⟩

theorem parseSelectors_ok {expression w : List Char} {fuel : ℕ} {selectors : List Selector}
    (h : parseSelectors expression fuel w = .ok selectors) :
    w = [] ∨ ∃ fuel' rest more, fuel = fuel' + 1 ∧
      parseSelectors expression fuel' rest = .ok more ∧
      ((∃ member cs, w = '.' :: cs ∧ identifier cs = some member ∧ cs = member ++ rest) ∨
        ∃ raw cs, w = '[' :: cs ∧ Scan.before (fun u => [']'].isPrefixOf u) cs = some (raw, ']' :: rest) ∧
          '\x00' ∉ raw) := by
  unfold parseSelectors at h
  split at h
  · exact .inl rfl
  · cases h
  next fuel cs =>
    right
    split at h
    · cases h
    next member hm =>
      obtain ⟨more, hmore, -⟩ := ok_of_bind h
      obtain ⟨rest, hrest⟩ := (identifier_eq_some hm).1
      rw [← hrest, List.drop_left] at hmore
      exact ⟨fuel, rest, more, rfl, hmore, .inl ⟨member, cs, rfl, hm, hrest.symm⟩⟩
  next fuel cs =>
    right
    split at h
    · cases h
    next raw rest hb =>
      obtain ⟨rest, rfl⟩ : ∃ r, rest = ']' :: r := by
        obtain ⟨r, hr⟩ := List.isPrefixOf_iff_prefix.mp (Scan.before_stop hb)
        exact ⟨r, hr.symm⟩
      split at h
      next hd =>
        split at h
        · cases h
        · obtain ⟨more, hmore, -⟩ := ok_of_bind h
          exact ⟨fuel, rest, more, rfl, hmore, .inr ⟨raw, cs, rfl, hb, isDigit_no_nul hd⟩⟩
      · split at h
        · cases h
        next member hj =>
          obtain ⟨more, hmore, -⟩ := ok_of_bind h
          exact ⟨fuel, rest, more, rfl, hmore, .inr ⟨raw, cs, rfl, hb, jsonString_no_nul hj⟩⟩
  · cases h

theorem parseSelectors_no_nul {expression w : List Char} {fuel : ℕ} {selectors : List Selector}
    (h : parseSelectors expression fuel w = .ok selectors) : '\x00' ∉ w := by
  induction fuel generalizing w selectors with
  | zero =>
    rcases parseSelectors_ok h with rfl | ⟨_, _, _, hf, -⟩
    · simp
    · omega
  | succ fuel ih =>
    rcases parseSelectors_ok h with rfl | ⟨fuel', rest, more, hf, hmore, hw⟩
    · simp
    obtain rfl : fuel = fuel' := by omega
    have hrest := ih hmore
    rcases hw with ⟨member, cs, rfl, hm, rfl⟩ | ⟨raw, cs, rfl, hb, hraw⟩
    · have hmember : '\x00' ∉ member := fun hx => by
        rcases (identifier_eq_some hm).2.2 _ hx with hc | hc
        · exact absurd hc (by decide)
        · exact absurd hc (by decide)
      simp [hmember, hrest]
    · rw [Scan.before_append hb]
      simp [hraw, hrest]

def Stopper (c : Char) : Prop := isAlnum c = false ∧ c ≠ '-' ∧ c ≠ '.' ∧ c ≠ '['
  deriving Decidable

theorem parseSelectors_append {expression w : List Char} {fuel : ℕ} {selectors : List Selector}
    (h : parseSelectors expression fuel w = .ok selectors) {c : Char} (hc : Stopper c)
    (v expression' : List Char) (fuel' : ℕ) (selectors' : List Selector) :
    parseSelectors expression' fuel' (w ++ c :: v) ≠ .ok selectors' := by
  obtain ⟨halnum, hhyphen, hdot, hbracket⟩ := hc
  have hstop : ∀ f s, parseSelectors expression' f (c :: v) ≠ .ok s := by
    intro f s hs
    rcases parseSelectors_ok hs with he | ⟨_, _, _, _, _, ⟨_, _, he, -⟩ | ⟨_, _, he, -⟩⟩
    · cases he
    · exact hdot (List.cons.inj he).1
    · exact hbracket (List.cons.inj he).1
  induction fuel generalizing w selectors fuel' selectors' with
  | zero =>
    rcases parseSelectors_ok h with rfl | ⟨_, _, _, hf, -⟩
    · exact hstop fuel' selectors'
    · omega
  | succ fuel ih =>
    rcases parseSelectors_ok h with rfl | ⟨_, rest, more, hf, hmore, hw⟩
    · exact hstop fuel' selectors'
    obtain rfl := Nat.succ.inj hf
    intro h'
    -- The longer text is read as the shorter one is, up to the rest of this round.
    suffices hrest : ∃ f more', parseSelectors expression' f (rest ++ c :: v) = .ok more' by
      obtain ⟨f, more', hmore'⟩ := hrest
      exact ih hmore f more' hmore'
    rcases hw with ⟨member, cs, rfl, hm, rfl⟩ | ⟨raw, cs, rfl, hb, -⟩
    · rw [List.cons_append] at h'
      rcases parseSelectors_ok h' with he | ⟨f, rest', more', -, hmore', hw'⟩
      · cases he
      rcases hw' with ⟨member', cs', he, hm', hcs'⟩ | ⟨_, _, he, -⟩
      · obtain rfl := (List.cons.inj he).2
        rw [identifier_append hm halnum hhyphen] at hm'
        cases hm'
        rw [List.append_assoc] at hcs'
        obtain rfl := List.append_cancel_left hcs'
        exact ⟨f, more', hmore'⟩
      · cases (List.cons.inj he).1
    · rw [List.cons_append] at h'
      rcases parseSelectors_ok h' with he | ⟨f, rest', more', -, hmore', hw'⟩
      · cases he
      rcases hw' with ⟨_, _, he, -⟩ | ⟨raw', cs', he, hb', -⟩
      · cases (List.cons.inj he).1
      · obtain rfl := (List.cons.inj he).2
        rw [Scan.before_append_right (fun _ _ _ => rfl) rfl hb] at hb'
        cases hb'
        exact ⟨f, more', hmore'⟩

theorem parseExpression_ok {expression : List Char} {p : PromptPlaceholder}
    (h : parseExpression expression = .ok p) : ∃ name rest selectors,
      identifier expression = some name ∧ expression = name ++ rest ∧
      parseSelectors expression expression.length rest = .ok selectors := by
  rw [parseExpression] at h
  split at h
  · cases h
  next name hn =>
    obtain ⟨selectors, hs, -⟩ := ok_of_bind h
    obtain ⟨rest, hrest⟩ := (identifier_eq_some hn).1
    refine ⟨name, rest, selectors, hn, hrest.symm, ?_⟩
    have hdrop : expression.drop name.length = rest := by rw [← hrest, List.drop_left]
    rwa [hdrop] at hs

theorem parseExpression_no_nul {expression : List Char} {p : PromptPlaceholder}
    (h : parseExpression expression = .ok p) : '\x00' ∉ expression := by
  obtain ⟨name, rest, selectors, hn, he, hs⟩ := parseExpression_ok h
  have hname : '\x00' ∉ name := fun hx => by
    rcases (identifier_eq_some hn).2.2 _ hx with hc | hc
    · exact absurd hc (by decide)
    · exact absurd hc (by decide)
  have hrest := parseSelectors_no_nul hs
  rw [he]
  simp [hname, hrest]

theorem parseExpression_ne_nil {expression : List Char} {p : PromptPlaceholder}
    (h : parseExpression expression = .ok p) : expression ≠ [] := by
  obtain ⟨name, rest, selectors, hn, he, -⟩ := parseExpression_ok h
  rw [he]
  simp [(identifier_eq_some hn).2.1]

theorem parseExpression_append {expression : List Char} {p : PromptPlaceholder}
    (h : parseExpression expression = .ok p) {c : Char} (hc : Stopper c) (v : List Char)
    (p' : PromptPlaceholder) : parseExpression (expression ++ c :: v) ≠ .ok p' := by
  intro h'
  obtain ⟨name, rest, selectors, hn, he, hs⟩ := parseExpression_ok h
  obtain ⟨name', rest', selectors', hn', he', hs'⟩ := parseExpression_ok h'
  rw [identifier_append hn hc.1 hc.2.1] at hn'
  cases hn'
  have hrest : name ++ (rest ++ c :: v) = name ++ rest' := by
    rw [← he', ← List.append_assoc, ← he]
  rw [← List.append_cancel_left hrest] at hs'
  exact parseSelectors_append hs hc v _ _ _ hs'

end Expressions

section Restore

theorem stray_cons {t : Token} {ts : List Token} :
    StraySentinel (t :: ts) ↔ strayAt (t :: ts) ∨ StraySentinel ts := by
  constructor
  · rintro ⟨us, hs, hu⟩
    rcases List.suffix_cons_iff.mp hs with rfl | hs
    · exact .inl hu
    · exact .inr ⟨us, hs, hu⟩
  · rintro (h | ⟨us, hs, hu⟩)
    · exact ⟨_, List.suffix_rfl, h⟩
    · exact ⟨us, hs.trans (List.suffix_cons _ _), hu⟩

theorem openSentinel_head {c : Char} {w : List Char} (h : openSentinel <+: c :: w) : c = '\x00' :=
  (List.cons_prefix_cons.mp h).1.symm

theorem closeSentinel_head {c : Char} {w : List Char} (h : closeSentinel <+: c :: w) :
    c = '\x00' :=
  (List.cons_prefix_cons.mp h).1.symm

theorem replace_open_close (new w : List Char) :
    Scan.replace openSentinel new (closeSentinel ++ w) =
      closeSentinel.dropLast ++ Scan.replace openSentinel new ('\x00' :: w) := by
  have hsplit : closeSentinel ++ w =
      '\x00' :: (['R', 'A', 'T', 'T', 'I', 'S', 'H', '_', 'C', 'L', 'O', 'S', 'E'] ++ '\x00' :: w) := rfl
  have hno : ¬ openSentinel <+: closeSentinel ++ w := by
    simp [openSentinel, closeSentinel, List.cons_prefix_cons]
  rw [hsplit] at hno ⊢
  rw [Scan.replace_cons hno, openSentinel, Scan.replace_append _ (by decide)]
  rfl

theorem replace_open {ts : List Token} (h : ¬ StraySentinel ts) :
    Scan.replace openSentinel ['{', '{'] (ts.flatMap Token.spell) =
      ts.flatMap Token.halfPlain := by
  induction ts with
  | nil => rfl
  | cons t ts ih =>
    rw [stray_cons, not_or] at h
    obtain ⟨hhead, htail⟩ := h
    rw [List.flatMap_cons, List.flatMap_cons]
    cases t with
    | opening =>
      rw [Token.spell, Scan.replace_literal (by simp [openSentinel]), ih htail]
      rfl
    | closing =>
      rw [Token.spell, replace_open_close, Scan.replace_cons hhead, ih htail]
      rfl
    | char c =>
      have hno : ¬ openSentinel <+: c :: ts.flatMap Token.spell := fun hp => hhead (.inl hp)
      rw [Token.spell, List.singleton_append, Scan.replace_cons hno, ih htail]
      rfl

theorem restore_open (w : List Char) : restore (openSentinel ++ w) = ['{', '{'] ++ restore w := by
  rw [restore, Scan.replace_literal (by simp [openSentinel]), closeSentinel,
    Scan.replace_append _ (by decide)]
  rfl

theorem restore_spell (ts : List Token) :
    restore (ts.flatMap Token.spell) = ts.flatMap Token.plain ↔ ¬ StraySentinel ts := by
  induction ts with
  | nil => exact ⟨fun _ ⟨us, hs, hu⟩ => by simp [List.suffix_nil.mp hs, strayAt] at hu, fun _ => rfl⟩
  | cons t ts ih =>
    rw [stray_cons, not_or, ← ih, List.flatMap_cons, List.flatMap_cons]
    cases t with
    | opening =>
      rw [Token.spell, restore_open]
      simp [Token.plain, strayAt]
    | closing =>
      rw [Token.spell, restore, replace_open_close]
      by_cases hstray : openSentinel <+: '\x00' :: ts.flatMap Token.spell
      -- The stray opening sentinel takes the last character of the closing one.
      · obtain ⟨w, hw⟩ := hstray
        rw [← hw, Scan.replace_literal (by simp [openSentinel])]
        have hno : ¬ closeSentinel <+: closeSentinel.dropLast ++ (['{', '{'] ++
            Scan.replace openSentinel ['{', '{'] w) := by
          simp [closeSentinel, List.cons_prefix_cons]
        rw [closeSentinel] at hno
        simp only [closeSentinel, List.dropLast_cons_cons, List.dropLast_singleton,
          List.cons_append, List.nil_append] at hno ⊢
        rw [Scan.replace_cons hno]
        simp [Token.plain, strayAt, ← hw]
      · rw [Scan.replace_cons hstray]
        have hback : closeSentinel.dropLast ++ '\x00' ::
            Scan.replace openSentinel ['{', '{'] (ts.flatMap Token.spell) = closeSentinel ++
            Scan.replace openSentinel ['{', '{'] (ts.flatMap Token.spell) := rfl
        rw [hback, Scan.replace_literal (by simp [closeSentinel])]
        simp [Token.plain, strayAt, hstray, restore]
    | char c =>
      rw [Token.spell, List.singleton_append, restore]
      by_cases ho : openSentinel <+: c :: ts.flatMap Token.spell
      · obtain rfl := openSentinel_head ho
        have hstray : strayAt (.char '\x00' :: ts) := .inl ho
        obtain ⟨w, hw⟩ := ho
        rw [← hw, Scan.replace_literal (by simp [openSentinel]), closeSentinel,
          Scan.replace_append _ (by decide)]
        simp [Token.plain, hstray]
      rw [Scan.replace_cons ho]
      by_cases hc : closeSentinel <+:
          c :: Scan.replace openSentinel ['{', '{'] (ts.flatMap Token.spell)
      · obtain rfl := closeSentinel_head hc
        have hstray : ¬ StraySentinel ts → strayAt (.char '\x00' :: ts) := fun htail => by
          rw [replace_open htail] at hc
          exact .inr hc
        obtain ⟨w, hw⟩ := hc
        rw [← hw, Scan.replace_literal (by simp [closeSentinel])]
        constructor
        · simp [Token.plain]
        · rintro ⟨hhead, htail⟩
          exact absurd (hstray (ih.mp htail)) hhead
      · rw [Scan.replace_cons hc]
        constructor
        · intro he
          have htail : restore (ts.flatMap Token.spell) = ts.flatMap Token.plain :=
            (List.cons.inj he).2
          refine ⟨fun hstray => ?_, htail⟩
          rw [replace_open (ih.mp htail)] at hc
          exact hstray.elim ho hc
        · rintro ⟨-, htail⟩
          rw [← htail]
          rfl

end Restore

section Protect

theorem close_prefix_replace (n : ℕ) (w : List Char) :
    List.replicate n '}' <+: Scan.replace ['{', '{', '{', '{'] openSentinel w ↔
      List.replicate n '}' <+: w := by
  induction n generalizing w with
  | zero => simp
  | succ n ih =>
    cases w with
    | nil => simp
    | cons c cs =>
      by_cases ho : ['{', '{', '{', '{'] <+: c :: cs
      · obtain rfl : '{' = c := (List.cons_prefix_cons.mp ho).1
        obtain ⟨v, hv⟩ := ho
        rw [← hv, Scan.replace_literal (by simp)]
        simp [List.replicate_succ, openSentinel, List.cons_prefix_cons]
      · rw [Scan.replace_cons ho, List.replicate_succ, List.cons_prefix_cons,
          List.cons_prefix_cons, ih]

theorem markAt_opening {w : List Char} (h : ['{', '{', '{', '{'] <+: w) :
    markAt w = some (.opening, 3) := by
  simp [markAt, h]

theorem markAt_closing {w : List Char} (h : ['}', '}', '}', '}'] <+: w) :
    markAt w = some (.closing, 3) := by
  have ho : ¬ ['{', '{', '{', '{'] <+: w := by
    obtain ⟨v, rfl⟩ := h
    simp [List.cons_prefix_cons]
  simp [markAt, h, ho]

theorem markAt_none {w : List Char} (ho : ¬ ['{', '{', '{', '{'] <+: w)
    (hc : ¬ ['}', '}', '}', '}'] <+: w) : markAt w = none := by
  simp [markAt, ho, hc]

theorem marks_of_some {c : Char} {cs : List Char} {t : Token} (h : markAt (c :: cs) = some (t, 3)) :
    marks (c :: cs) = t :: marks (cs.drop 3) := by
  simp [marks, Scan.pieces_of_some h]

theorem marks_of_none {c : Char} {cs : List Char} (h : markAt (c :: cs) = none) :
    marks (c :: cs) = .char c :: marks cs := by
  simp [marks, Scan.pieces_of_none h]

theorem protect_eq (w : List Char) : protect w = (marks w).flatMap Token.spell := by
  induction hn : w.length using Nat.strong_induction_on generalizing w with
  | _ n ih =>
    cases w with
    | nil => rfl
    | cons c cs =>
      by_cases ho : ['{', '{', '{', '{'] <+: c :: cs
      · obtain ⟨v, hv⟩ := ho
        have hdrop : cs.drop 3 = v := by rw [← (List.cons.inj hv).2]; rfl
        have hlen : v.length < n := by rw [← hn, ← hv, List.length_append]; simp
        rw [marks_of_some (markAt_opening ⟨v, hv⟩), hdrop, protect, ← hv,
          Scan.replace_literal (by simp), Scan.replace_append _ (by decide), List.flatMap_cons,
          ← ih _ hlen v rfl]
        rfl
      by_cases hc : ['}', '}', '}', '}'] <+: c :: cs
      · obtain ⟨v, hv⟩ := hc
        have hdrop : cs.drop 3 = v := by rw [← (List.cons.inj hv).2]; rfl
        have hlen : v.length < n := by rw [← hn, ← hv, List.length_append]; simp
        rw [marks_of_some (markAt_closing ⟨v, hv⟩), hdrop, protect, ← hv,
          Scan.replace_append _ (by decide), Scan.replace_literal (by simp), List.flatMap_cons,
          ← ih _ hlen v rfl]
        rfl
      · have hlen : cs.length < n := by simp [← hn]
        have hno : ¬ ['}', '}', '}', '}'] <+:
            c :: Scan.replace ['{', '{', '{', '{'] openSentinel cs := by
          rw [← Scan.replace_cons ho]
          exact fun hp => hc ((close_prefix_replace 4 _).mp hp)
        rw [marks_of_none (markAt_none ho hc), protect, Scan.replace_cons ho, Scan.replace_cons hno]
        rw [List.flatMap_cons, ← ih _ hlen cs rfl]
        rfl

end Protect

section Spelled

theorem brace_not_mem_mark {t : Token} (h : t.char? = none) : '{' ∉ t.spell ∧ '}' ∉ t.spell := by
  cases t with
  | opening => decide
  | closing => decide
  | char c => simp [Token.char?] at h

theorem eq_char_of_char? {t : Token} {c : Char} (h : t.char? = some c) : t = .char c := by
  cases t with
  | char d => simpa [Token.char?] using h
  | opening => simp [Token.char?] at h
  | closing => simp [Token.char?] at h

theorem cons_prefix_spell {b : Char} (hb : b = '{' ∨ b = '}') {w : List Char} {ts : List Token} :
    b :: w <+: ts.flatMap Token.spell ↔ ∃ us, ts = .char b :: us ∧ w <+: us.flatMap Token.spell := by
  cases ts with
  | nil => simp
  | cons t ts =>
    cases t with
    | char c =>
      simp only [List.flatMap_cons, Token.spell, List.singleton_append, List.cons_prefix_cons]
      constructor
      · rintro ⟨rfl, h⟩
        exact ⟨ts, rfl, h⟩
      · rintro ⟨us, he, h⟩
        cases he
        exact ⟨rfl, h⟩
    | opening => rcases hb with rfl | rfl <;> simp [Token.spell, openSentinel, List.cons_prefix_cons]
    | closing => rcases hb with rfl | rfl <;> simp [Token.spell, closeSentinel, List.cons_prefix_cons]

theorem pair_prefix_spell {b : Char} (hb : b = '{' ∨ b = '}') {ts : List Token} :
    [b, b] <+: ts.flatMap Token.spell ↔ [.char b, .char b] <+: ts := by
  rw [cons_prefix_spell hb]
  constructor
  · rintro ⟨us, rfl, h⟩
    obtain ⟨vs, rfl, -⟩ := (cons_prefix_spell hb).mp h
    exact ⟨vs, rfl⟩
  · rintro ⟨vs, rfl⟩
    exact ⟨.char b :: vs, rfl, (cons_prefix_spell hb).mpr ⟨vs, rfl, List.nil_prefix⟩⟩

theorem pair_infix_append {b : Char} {u w : List Char} (h : b ∉ u) :
    [b, b] <:+: u ++ w ↔ [b, b] <:+: w := by
  induction u with
  | nil => rfl
  | cons c u ih =>
    have hne : b ≠ c := fun he => h (he ▸ by simp)
    rw [List.cons_append, List.infix_cons_iff, ih (fun hm => h (by simp [hm]))]
    simp [List.cons_prefix_cons, hne]

theorem pair_infix_spell {b : Char} (hb : b = '{' ∨ b = '}') {ts : List Token} :
    [b, b] <:+: ts.flatMap Token.spell ↔ [.char b, .char b] <:+: ts := by
  induction ts with
  | nil => simp
  | cons t ts ih =>
    rw [List.infix_cons_iff, ← pair_prefix_spell hb, ← ih]
    cases ht : t.char? with
    | none =>
      have hmem : b ∉ t.spell := by
        rcases hb with rfl | rfl
        · exact (brace_not_mem_mark ht).1
        · exact (brace_not_mem_mark ht).2
      rw [List.flatMap_cons, pair_infix_append hmem]
      constructor
      · exact .inr
      · rintro (hp | h)
        · exact (pair_infix_append hmem).mp hp.isInfix
        · exact h
    | some c =>
      obtain rfl := eq_char_of_char? ht
      rw [List.flatMap_cons, Token.spell, List.singleton_append, List.infix_cons_iff]

theorem hasDelimiter_iff {w : List Char} :
    hasDelimiter w = true ↔ ['{', '{'] <:+: w ∨ ['}', '}'] <:+: w := by
  simp only [hasDelimiter, List.any_eq_true, Bool.or_eq_true, List.isPrefixOf_iff_prefix,
    List.mem_tails, List.infix_iff_prefix_suffix]
  constructor
  · rintro ⟨v, hs, hp | hp⟩
    · exact .inl ⟨v, hp, hs⟩
    · exact .inr ⟨v, hp, hs⟩
  · rintro (⟨v, hp, hs⟩ | ⟨v, hp, hs⟩)
    · exact ⟨v, hs, .inl hp⟩
    · exact ⟨v, hs, .inr hp⟩

theorem hasDelimiter_spell {ts : List Token} :
    hasDelimiter (ts.flatMap Token.spell) = true ↔ BracePair ts := by
  rw [hasDelimiter_iff, pair_infix_spell (.inl rfl), pair_infix_spell (.inr rfl), BracePair]

theorem before_spell (ts : List Token) :
    Scan.before (fun w => ['}', '}'].isPrefixOf w) (ts.flatMap Token.spell) =
      (Scan.before (fun w => [.char '}', .char '}'].isPrefixOf w) ts).map
        (fun p => (p.1.flatMap Token.spell, p.2.flatMap Token.spell)) := by
  induction ts with
  | nil => rfl
  | cons t ts ih =>
    have hstop : (['}', '}'].isPrefixOf ((t :: ts).flatMap Token.spell)) =
        [.char '}', .char '}'].isPrefixOf (t :: ts) := by
      rw [Bool.eq_iff_iff, List.isPrefixOf_iff_prefix, List.isPrefixOf_iff_prefix]
      exact pair_prefix_spell (.inr rfl)
    cases ht : t.char? with
    | none =>
      have hpass : ∀ c ∈ t.spell, ∀ cs, ['}', '}'].isPrefixOf (c :: cs) = false := by
        intro c hc cs
        have hne : c ≠ '}' := fun he => (brace_not_mem_mark ht).2 (he ▸ hc)
        simp [List.isPrefixOf, hne.symm]
      have hno : [Token.char '}', .char '}'].isPrefixOf (t :: ts) = false := by
        cases t <;> simp_all [Token.char?, List.isPrefixOf]
      rw [List.flatMap_cons, Scan.before_append_of_not _ hpass, ih, Scan.before, hno]
      simp [Function.comp_def]
    | some c =>
      obtain rfl := eq_char_of_char? ht
      rw [Scan.before, ← hstop, List.flatMap_cons, Token.spell, List.singleton_append, Scan.before]
      split
      · rfl
      · rw [ih]
        simp [Function.comp_def, Token.spell]

theorem mapM_char? {ts : List Token} {w : List Char} (h : ts.mapM Token.char? = some w) :
    ts = w.map .char := by
  induction ts generalizing w with
  | nil =>
    cases h
    rfl
  | cons t ts ih =>
    rw [List.mapM_cons, Option.bind_eq_bind, Option.bind_eq_some_iff] at h
    obtain ⟨c, hc, h⟩ := h
    rw [Option.bind_eq_bind, Option.bind_eq_some_iff] at h
    obtain ⟨cs, hcs, he⟩ := h
    cases he
    rw [eq_char_of_char? hc, ih hcs]
    rfl

theorem spell_map_char (w : List Char) : (w.map Token.char).flatMap Token.spell = w := by
  simp [List.flatMap_map, Token.spell]

theorem nul_mem_spell {ts : List Token} (h : ts.mapM Token.char? = none) :
    '\x00' ∈ ts.flatMap Token.spell := by
  induction ts with
  | nil => cases h
  | cons t ts ih =>
    rw [List.flatMap_cons, List.mem_append]
    cases t with
    | opening => exact .inl (by decide)
    | closing => exact .inl (by decide)
    | char c =>
      right
      apply ih
      cases hts : ts.mapM Token.char? with
      | none => rfl
      | some w => simp [List.mapM_cons, Token.char?, hts] at h

def spellPiece : List Char ⊕ Token → List (List Char ⊕ Char)
  | .inl expression => [.inl expression]
  | .inr t => t.spell.map .inr

theorem placeholderAt_none {w : List Char} (h : ¬ ['{', '{'] <+: w) : placeholderAt w = none := by
  unfold placeholderAt
  split
  next body => exact absurd ⟨body, rfl⟩ h
  · rfl

theorem holeAt_none {ts : List Token} (h : ¬ [.char '{', .char '{'] <+: ts) : holeAt ts = none := by
  unfold holeAt
  split
  next body => exact absurd ⟨body, rfl⟩ h
  · rfl

theorem placeholderAt_braces (body : List Char) : placeholderAt ('{' :: '{' :: body) =
    (Scan.before (fun w => ['}', '}'].isPrefixOf w) body).bind (fun p =>
      if '\n' ∈ strip p.1 then none else some (strip p.1, p.1.length + 3)) := by
  rw [placeholderAt]
  cases Scan.before (fun w => ['}', '}'].isPrefixOf w) body <;> rfl

theorem holeAt_braces (body : List Token) : holeAt (.char '{' :: .char '{' :: body) =
    (Scan.before (fun w => [.char '}', .char '}'].isPrefixOf w) body).bind (fun p =>
      (p.1.mapM Token.char?).bind (fun text =>
        if '\n' ∈ strip text then none else some (strip text, p.1.length + 3))) := by
  rw [holeAt]
  cases hb : Scan.before (fun w => [Token.char '}', .char '}'].isPrefixOf w) body with
  | none => rfl
  | some p => cases hc : p.1.mapM Token.char? <;> simp [hc]

theorem placeholderAt_spell (ts : List Token) :
    (placeholderAt (ts.flatMap Token.spell) = none ∧ holeAt ts = none) ∨
    (∃ expression n, placeholderAt (ts.flatMap Token.spell) = some (expression, n) ∧
      '\x00' ∈ expression) ∨
    ∃ expression n n', placeholderAt (ts.flatMap Token.spell) = some (expression, n) ∧
      holeAt ts = some (expression, n') ∧
      (ts.flatMap Token.spell).drop (n + 1) = (ts.drop (n' + 1)).flatMap Token.spell := by
  by_cases hopen : [.char '{', .char '{'] <+: ts
  · obtain ⟨body, rfl⟩ := hopen
    have hspell : ([Token.char '{', .char '{'] ++ body).flatMap Token.spell =
      '{' :: '{' :: body.flatMap Token.spell := rfl
    rw [hspell, placeholderAt_braces, List.cons_append, List.cons_append, List.nil_append,
      holeAt_braces, before_spell]
    cases hb : Scan.before (fun w => [Token.char '}', .char '}'].isPrefixOf w) body with
    | none => exact .inl ⟨rfl, rfl⟩
    | some p =>
      obtain ⟨content, rest⟩ := p
      simp only [Option.map_some, Option.bind_some]
      cases hc : content.mapM Token.char? with
      | none =>
        have hnul : '\x00' ∈ strip (content.flatMap Token.spell) :=
          Scan.mem_trim (nul_mem_spell hc) (by decide)
        split
        · exact .inl ⟨rfl, rfl⟩
        · exact .inr (.inl ⟨_, _, rfl, hnul⟩)
      | some text =>
        obtain rfl := mapM_char? hc
        rw [spell_map_char, Option.bind_some]
        split
        · exact .inl ⟨rfl, rfl⟩
        · refine .inr (.inr ⟨_, _, _, rfl, rfl, ?_⟩)
          obtain ⟨rest', hrest⟩ := List.isPrefixOf_iff_prefix.mp (Scan.before_stop hb)
          have hpass : text.drop (text.length + 2) = [] := List.drop_eq_nil_of_le (by omega)
          rw [Scan.before_append hb, ← hrest]
          simp [List.flatMap_map, Token.spell, List.drop_append, ← List.map_drop, hpass]
  · left
    have hopen' : ¬ ['{', '{'] <+: ts.flatMap Token.spell :=
      fun hp => hopen ((pair_prefix_spell (.inl rfl)).mp hp)
    exact ⟨placeholderAt_none hopen', holeAt_none hopen⟩

theorem placeholderAt_ne_nil {w expression : List Char} {n : ℕ}
    (h : placeholderAt w = some (expression, n)) : w ≠ [] := by
  rintro rfl
  cases h

theorem placeholderAt_cons {c : Char} (h : c ≠ '{') (cs : List Char) :
    placeholderAt (c :: cs) = none :=
  placeholderAt_none (fun hp => h (List.cons_prefix_cons.mp hp).1.symm)

theorem pieces_spell (ts : List Token)
    (h : ∀ expression, .inl expression ∈ Scan.pieces placeholderAt 0 (ts.flatMap Token.spell) →
      '\x00' ∉ expression) :
    Scan.pieces placeholderAt 0 (ts.flatMap Token.spell) =
      (Scan.pieces holeAt 0 ts).flatMap spellPiece := by
  induction hn : ts.length using Nat.strong_induction_on generalizing ts with
  | _ n ih =>
    cases ts with
    | nil => rfl
    | cons t ts =>
      rcases placeholderAt_spell (t :: ts) with ⟨hp, hh⟩ | ⟨e, k, hp, hnul⟩ | ⟨e, k, k', hp, hh, hdrop⟩
      · -- No placeholder here: the spelling of the token is copied.
        have hcopy : Scan.pieces placeholderAt 0 ((t :: ts).flatMap Token.spell) =
            t.spell.map .inr ++ Scan.pieces placeholderAt 0 (ts.flatMap Token.spell) := by
          cases t with
          | char c =>
            rw [List.flatMap_cons, Token.spell, List.singleton_append] at hp ⊢
            rw [Scan.pieces_of_none hp]
            rfl
          | opening =>
            exact Scan.pieces_append_of_none _ (fun c hc cs => placeholderAt_cons
              (fun he => (brace_not_mem_mark (t := .opening) rfl).1 (he ▸ hc)) cs)
          | closing =>
            exact Scan.pieces_append_of_none _ (fun c hc cs => placeholderAt_cons
              (fun he => (brace_not_mem_mark (t := .closing) rfl).1 (he ▸ hc)) cs)
        rw [hcopy] at h ⊢
        rw [ih ts.length (by simp [← hn]) ts (fun e he => h e (by simp [he])) rfl,
          Scan.pieces_of_none hh, List.flatMap_cons]
        rfl
      · obtain ⟨c, cs, hc⟩ := List.exists_cons_of_ne_nil (placeholderAt_ne_nil hp)
        rw [hc] at hp h
        rw [Scan.pieces_of_some hp] at h
        exact absurd hnul (h e (by simp))
      · obtain ⟨c, cs, hc⟩ := List.exists_cons_of_ne_nil (placeholderAt_ne_nil hp)
        rw [hc, List.drop_succ_cons, List.drop_succ_cons] at hdrop
        rw [hc] at hp h ⊢
        rw [Scan.pieces_of_some hp, hdrop] at h ⊢
        have hlen : (ts.drop k').length < n := by rw [← hn, List.length_drop, List.length_cons]; omega
        rw [ih _ hlen (ts.drop k') (fun e he => h e (by simp [he])) rfl, Scan.pieces_of_some hh]
        rfl

end Spelled

section Full

theorem fullPlaceholder_iff {w expression : List Char} : fullPlaceholder w = some expression ↔
    ∃ content, w = ['{', '{'] ++ content ++ ['}', '}'] ∧ '\n' ∉ strip content ∧
      expression = strip content := by
  constructor
  · intro h
    unfold fullPlaceholder at h
    split at h
    next body =>
      split at h
      next hs =>
        obtain ⟨content, rfl⟩ := List.isSuffixOf_iff_suffix.mp hs
        have htake : (content ++ ['}', '}']).take ((content ++ ['}', '}']).length - 2) = content := by
          simp
        simp only [htake] at h
        split at h
        · cases h
        next hline =>
          cases h
          exact ⟨content, rfl, hline, rfl⟩
      · cases h
    · cases h
  · rintro ⟨content, rfl, hline, rfl⟩
    simp [fullPlaceholder, hline, List.isSuffixOf_iff_suffix]

theorem spell_eq_cons {b : Char} (hb : b = '{' ∨ b = '}') {ts : List Token} {w : List Char}
    (h : ts.flatMap Token.spell = b :: w) : ∃ us, ts = .char b :: us ∧ us.flatMap Token.spell = w := by
  obtain ⟨us, rfl, -⟩ := (cons_prefix_spell hb).mp ⟨[], by simpa using h.symm⟩
  exact ⟨us, rfl, (List.cons.inj h).2⟩

theorem spell_eq_concat {b : Char} (hb : b = '{' ∨ b = '}') {ts : List Token} {w : List Char}
    (h : ts.flatMap Token.spell = w ++ [b]) :
    ∃ us, ts = us ++ [.char b] ∧ us.flatMap Token.spell = w := by
  rcases List.eq_nil_or_concat ts with rfl | ⟨us, t, rfl⟩
  · simp at h
  · rw [List.concat_eq_append, List.flatMap_append, List.flatMap_singleton] at h
    cases ht : t.char? with
    | none =>
      have hb' : b ≠ '\x00' := by rcases hb with rfl | rfl <;> decide
      have hlast := congrArg List.getLast? h
      cases t with
      | opening => simp [Token.spell, openSentinel, hb'.symm] at hlast
      | closing => simp [Token.spell, closeSentinel, hb'.symm] at hlast
      | char c => simp [Token.char?] at ht
    | some c =>
      obtain rfl := eq_char_of_char? ht
      obtain ⟨hw, hc⟩ := List.append_inj' h rfl
      obtain rfl : c = b := by simpa [Token.spell] using hc
      exact ⟨us, List.concat_eq_append, hw⟩

theorem trim_spell (ts : List Token) :
    strip (ts.flatMap Token.spell) = (Scan.trim Token.isSpace ts).flatMap Token.spell := by
  have hfront : ∀ t : Token, (∃ c, t.spell = [c] ∧ isSpace c = t.isSpace) ∨
      ∃ c cs, t.spell = c :: cs ∧ isSpace c = false ∧ t.isSpace = false := by
    intro t
    cases t with
    | char c => exact .inl ⟨c, rfl, rfl⟩
    | opening => exact .inr ⟨_, _, rfl, by decide, rfl⟩
    | closing => exact .inr ⟨_, _, rfl, by decide, rfl⟩
  have hback : ∀ t : Token, (∃ c, t.spell.reverse = [c] ∧ isSpace c = t.isSpace) ∨
      ∃ c cs, t.spell.reverse = c :: cs ∧ isSpace c = false ∧ t.isSpace = false := by
    intro t
    cases t with
    | char c => exact .inl ⟨c, rfl, rfl⟩
    | opening => exact .inr ⟨_, _, rfl, by decide, rfl⟩
    | closing => exact .inr ⟨_, _, rfl, by decide, rfl⟩
  rw [strip, Scan.trim, Scan.dropWhile_flatMap hfront, List.rdropWhile, List.reverse_flatMap,
    Scan.dropWhile_flatMap (f := List.reverse ∘ Token.spell) hback, Scan.trim, List.rdropWhile,
    List.reverse_flatMap]
  simp [Function.comp_def]

theorem line_mem_spell {ts : List Token} : '\n' ∈ ts.flatMap Token.spell ↔ .char '\n' ∈ ts := by
  rw [List.mem_flatMap]
  constructor
  · rintro ⟨t, ht, hc⟩
    cases t with
    | opening => exact absurd hc (by decide)
    | closing => exact absurd hc (by decide)
    | char c =>
      obtain rfl : '\n' = c := by simpa [Token.spell] using hc
      exact ht
  · intro h
    exact ⟨_, h, by simp [Token.spell]⟩

theorem enclosed_iff (template : String) : Enclosed template ↔
    ∃ expression, fullPlaceholder (protect template.toList) = some expression := by
  simp only [fullPlaceholder_iff, protect_eq]
  constructor
  · rintro ⟨body, hm, hline⟩
    refine ⟨_, body.flatMap Token.spell, ?_, ?_, rfl⟩
    · rw [hm]
      simp [Token.spell]
    · rwa [trim_spell, line_mem_spell]
  · rintro ⟨-, content, hw, hline, rfl⟩
    obtain ⟨us, hus, h₁⟩ := spell_eq_concat (.inr rfl)
      (hw.trans (List.append_assoc (['{', '{'] ++ content) ['}'] ['}']).symm)
    obtain ⟨vs, hvs, h₂⟩ := spell_eq_concat (.inr rfl) h₁
    obtain ⟨xs, hxs, h₃⟩ := spell_eq_cons (.inl rfl) h₂
    obtain ⟨body, hbody, rfl⟩ := spell_eq_cons (.inl rfl) h₃
    refine ⟨body, ?_, ?_⟩
    · rw [hus, hvs, hxs, hbody]
      simp
    · rwa [trim_spell, line_mem_spell] at hline

end Full

section Agreement
variable {floatRepr : ℚ → List Char} {values : Dict String Value} {template : String}

def Resolves (values : Dict String Value) (template : String) : Prop :=
  ∀ expression, Sum.inl expression ∈ Scan.pieces placeholderAt 0 (protect template.toList) →
    ∃ p v, parseExpression expression = .ok p ∧ placeholderValue (canonicalValues values) p = .ok v

theorem mem_of_mapM {ε α β : Type} {f : α → Except ε β} {l : List α} {bs : List β}
    (h : l.mapM f = .ok bs) {a : α} (ha : a ∈ l) : ∃ b ∈ bs, f a = .ok b := by
  induction l generalizing bs with
  | nil => simp at ha
  | cons x l ih =>
    rw [List.mapM_cons] at h
    obtain ⟨b, hb, h⟩ := ok_of_bind h
    obtain ⟨cs, hcs, h⟩ := ok_of_bind h
    cases h
    rcases List.mem_cons.mp ha with rfl | ha
    · exact ⟨b, by simp, hb⟩
    · obtain ⟨c, hc, hf⟩ := ih hcs ha
      exact ⟨c, by simp [hc], hf⟩

theorem resolves_of_validate {names : List String} {ps : List PromptPlaceholder}
    (h : validatePromptTemplate template names = .ok ps)
    (hv : ∀ p ∈ ps, ∃ v, placeholderValue (canonicalValues values) p = .ok v) :
    Resolves values template := by
  intro expression hmem
  obtain ⟨qs, hparse, hfound⟩ := ok_of_bind h
  have hqs : qs = ps := by
    split at hfound
    · cases hfound
    · cases hfound
      rfl
  subst hqs
  obtain ⟨rs, hmap, hrest⟩ := ok_of_bind hparse
  have hrs : rs = qs := by
    split at hrest
    · cases hrest
    · cases hrest
      rfl
  subst hrs
  obtain ⟨p, hp, hexpr⟩ := mem_of_mapM hmap
    (List.mem_filterMap.mpr ⟨_, hmem, (rfl : Sum.getLeft? (Sum.inl expression) = _)⟩)
  obtain ⟨v, hval⟩ := hv p hp
  exact ⟨p, v, hexpr, hval⟩

theorem Resolves.pieces_eq (h : Resolves values template) :
    Scan.pieces placeholderAt 0 (protect template.toList) =
      (templatePieces template).flatMap spellPiece := by
  rw [Resolves, protect_eq] at h
  rw [protect_eq, templatePieces]
  apply pieces_spell
  intro expression hmem
  obtain ⟨p, v, hp, -⟩ := h expression hmem
  exact parseExpression_no_nul hp

theorem holeValue_eq {expression : List Char} {p : PromptPlaceholder} {v : Value}
    (hp : parseExpression expression = .ok p)
    (hv : placeholderValue (canonicalValues values) p = .ok v) : holeValue values expression = v := by
  have hbind : (do placeholderValue (canonicalValues values) (← parseExpression expression)) =
      Except.ok v := by
    rw [hp]
    exact hv
  rw [holeValue, hbind]

theorem substitute_text (canonical : Dict String Value) (cs : List Char)
    (ps : List (List Char ⊕ Char)) {w : List Char} (h : substitute floatRepr canonical ps = .ok w) :
    substitute floatRepr canonical (cs.map .inr ++ ps) = .ok (cs ++ w) := by
  induction cs with
  | nil => exact h
  | cons c cs ih =>
    rw [List.map_cons, List.cons_append, substitute, ih]
    rfl

theorem substitute_spell {ps : List (List Char ⊕ Token)}
    (h : ∀ expression, .inl expression ∈ ps → ∃ p v, parseExpression expression = .ok p ∧
      placeholderValue (canonicalValues values) p = .ok v) :
    substitute floatRepr (canonicalValues values) (ps.flatMap spellPiece) =
      .ok ((ps.flatMap (filledPiece floatRepr values)).flatMap Token.spell) := by
  induction ps with
  | nil => rfl
  | cons piece ps ih =>
    have htail := ih (fun e he => h e (by simp [he]))
    rw [List.flatMap_cons, List.flatMap_cons, List.flatMap_append]
    cases piece with
    | inl expression =>
      obtain ⟨p, v, hp, hv⟩ := h expression (by simp)
      have hhole : replaceHole floatRepr (canonicalValues values) expression =
          .ok (valueText floatRepr v) := by
        rw [replaceHole, hp]
        change (do return valueText floatRepr (← placeholderValue (canonicalValues values) p)) = _
        rw [hv]
        rfl
      rw [spellPiece, List.singleton_append, substitute, hhole, htail, filledPiece,
        holeValue_eq hp hv, spell_map_char]
      rfl
    | inr t =>
      rw [spellPiece, substitute_text _ _ _ htail, filledPiece, List.flatMap_singleton]

theorem render_of_not_enclosed (h : Resolves values template) (he : ¬ Enclosed template) :
    renderTemplateValue floatRepr template values =
      if hasDelimiter ((filled floatRepr values template).flatMap Token.spell)
      then .error .unmatchedDelimiter
      else .ok (.str (String.ofList
        (restore ((filled floatRepr values template).flatMap Token.spell)))) := by
  have hfull : fullPlaceholder (protect template.toList) = none := by
    cases hf : fullPlaceholder (protect template.toList) with
    | none => rfl
    | some e => exact absurd ((enclosed_iff template).mpr ⟨e, hf⟩) he
  have hsub : substitute floatRepr (canonicalValues values)
      (Scan.pieces placeholderAt 0 (protect template.toList)) =
        .ok ((filled floatRepr values template).flatMap Token.spell) := by
    rw [h.pieces_eq]
    apply substitute_spell
    intro expression hmem
    apply h expression
    rw [h.pieces_eq]
    exact List.mem_flatMap.mpr ⟨_, hmem, by simp [spellPiece]⟩
  rw [renderTemplateValue]
  simp only [hfull, hsub]
  change (if hasDelimiter ((filled floatRepr values template).flatMap Token.spell) then _ else _) = _
  split <;> rfl

theorem spellPiece_single {ps : List (List Char ⊕ Token)} {expression : List Char} :
    ps.flatMap spellPiece = [.inl expression] ↔ ps = [.inl expression] := by
  constructor
  · intro h
    cases ps with
    | nil => cases h
    | cons piece ps =>
      cases piece with
      | inl e =>
        rw [List.flatMap_cons, spellPiece, List.singleton_append] at h
        obtain ⟨he, htail⟩ := List.cons.inj h
        cases he
        cases ps with
        | nil => rfl
        | cons piece ps => cases piece with
          | inl e => cases htail
          | inr t => cases t <;> cases htail
      | inr t => cases t <;> cases h
  · rintro rfl
    rfl

theorem enclosed_of_single (h : Resolves values template) {expression : List Char}
    (hone : templatePieces template = [.inl expression]) : Enclosed template := by
  rw [← spellPiece_single, ← h.pieces_eq] at hone
  apply (enclosed_iff template).mpr
  refine ⟨expression, ?_⟩
  generalize protect template.toList = w at hone ⊢
  cases w with
  | nil => cases hone
  | cons c cs =>
    cases hat : placeholderAt (c :: cs) with
    | none =>
      rw [Scan.pieces_of_none hat] at hone
      cases hone
    | some match_ =>
      obtain ⟨e, n⟩ := match_
      rw [Scan.pieces_of_some hat] at hone
      obtain ⟨he, hrest⟩ := List.cons.inj hone
      cases he
      by_cases hopen : ['{', '{'] <+: c :: cs
      · obtain ⟨body, hbody⟩ := hopen
        rw [← hbody] at hat ⊢
        rw [List.cons_append, List.cons_append, List.nil_append, placeholderAt_braces,
          Option.bind_eq_some_iff] at hat
        obtain ⟨⟨content, rest⟩, hb, hmatch⟩ := hat
        obtain ⟨rest', rfl⟩ := List.isPrefixOf_iff_prefix.mp (Scan.before_stop hb)
        split at hmatch
        · cases hmatch
        next hline =>
          cases hmatch
          have hlen := congrArg List.length (Scan.pieces_eq_nil.mp hrest)
          have hcs := congrArg List.length (List.cons.inj hbody).2
          rw [Scan.before_append hb] at hcs ⊢
          obtain rfl : rest' = [] := by
            apply List.eq_nil_of_length_eq_zero
            simp at hlen hcs
            omega
          exact fullPlaceholder_iff.mpr ⟨content, by simp, hline, rfl⟩
      · rw [placeholderAt_none hopen] at hat
        cases hat

theorem stopper_of_isSpace {c : Char} (h : isSpace c = true) : Stopper c := by
  refine ⟨?_, ?_, ?_, ?_⟩
  · by_contra hc
    simp only [Bool.not_eq_false, isAlnum, isLetter, Bool.or_eq_true, Bool.and_eq_true,
      decide_eq_true_eq, Char.le_def, UInt32.le_iff_toNat_le] at hc
    simp only [isSpace, Bool.or_eq_true, Bool.and_eq_true, decide_eq_true_eq, beq_iff_eq,
      Char.toNat] at h
    have ha : 'a'.val.toNat = 97 := rfl
    have hz : 'z'.val.toNat = 122 := rfl
    have hA : 'A'.val.toNat = 65 := rfl
    have hZ : 'Z'.val.toNat = 90 := rfl
    have h0 : '0'.val.toNat = 48 := rfl
    have h9 : '9'.val.toNat = 57 := rfl
    omega
  all_goals
    rintro rfl
    exact absurd h (by decide)

theorem render_of_enclosed (h : Resolves values template) (he : Enclosed template) :
    (∃ expression, templatePieces template = [.inl expression] ∧
      renderTemplateValue floatRepr template values = .ok (holeValue values expression)) ∨
    (∀ expression, templatePieces template ≠ [.inl expression]) ∧
      ∀ v, renderTemplateValue floatRepr template values ≠ .ok v := by
  obtain ⟨full, hfull⟩ := (enclosed_iff template).mp he
  obtain ⟨content, hw, hline, rfl⟩ := fullPlaceholder_iff.mp hfull
  have hrender : renderTemplateValue floatRepr template values =
      (do placeholderValue (canonicalValues values) (← parseExpression (strip content))) := by
    rw [renderTemplateValue]
    simp only [hfull]
  have hend : (fun w : List Char => ['}', '}'].isPrefixOf w) ['}', '}'] = true := rfl
  obtain ⟨first, x, hb, rfl⟩ := Scan.before_of_stop hend content
  have hbrace : ∀ c x', x = c :: x' → c = '}' := by
    rintro c x' rfl
    exact (List.cons_prefix_cons.mp (List.isPrefixOf_iff_prefix.mp (Scan.before_stop hb))).1.symm
  have hfirst : '\n' ∉ strip first := by
    intro hm
    cases x with
    | nil => exact hline (by simpa using hm)
    | cons c x =>
      obtain rfl := hbrace c x rfl
      obtain ⟨w, hw, -⟩ := Scan.trim_append (by decide : isSpace '}' = false)
        (List.ne_nil_of_mem hm) x
      exact hline (by rw [strip, hw]; simp [strip] at hm ⊢; simp [hm])
  have hat : placeholderAt (protect template.toList) = some (strip first, first.length + 3) := by
    rw [hw]
    simp only [List.cons_append, List.nil_append, placeholderAt_braces, hb, Option.bind_some,
      if_neg hfirst]
  have hscan : Scan.pieces placeholderAt 0 (protect template.toList) =
      .inl (strip first) :: Scan.pieces placeholderAt 0 ((x ++ ['}', '}']).drop 2) := by
    obtain ⟨c, cs, hc⟩ := List.exists_cons_of_ne_nil (placeholderAt_ne_nil hat)
    rw [hc] at hat
    rw [hc, Scan.pieces_of_some hat]
    rw [hc] at hw
    have hcs : cs = '{' :: (first ++ (x ++ ['}', '}'])) := by simpa using (List.cons.inj hw).2
    have hdrop : first.length + 3 = ('{' :: first).length + 2 := rfl
    rw [hcs, hdrop, ← List.cons_append, ← List.drop_drop, List.drop_left]
  obtain ⟨p, v, hp, hv⟩ := h (strip first) (by rw [hscan]; simp)
  cases x with
  | nil =>
    -- The first `}}` is the last one.
    left
    have hone : templatePieces template = [.inl (strip first)] := by
      rw [← spellPiece_single, ← h.pieces_eq, hscan]
      rfl
    refine ⟨strip first, hone, ?_⟩
    rw [hrender, List.append_nil, hp]
    exact hv.trans (by rw [holeValue_eq hp hv])
  | cons c x =>
    right
    obtain rfl := hbrace c x rfl
    constructor
    · intro e hone
      rw [← spellPiece_single, ← h.pieces_eq, hscan] at hone
      have hnil := congrArg List.length (Scan.pieces_eq_nil.mp (List.cons.inj hone).2)
      simp at hnil
    · -- The expression runs on past the first placeholder.
      intro u hu
      rw [hrender] at hu
      obtain ⟨p', hp', -⟩ := ok_of_bind hu
      obtain ⟨w, hw, hspace⟩ := Scan.trim_append (by decide : isSpace '}' = false)
        (parseExpression_ne_nil hp) x
      rw [strip, hw, List.append_assoc] at hp'
      cases w with
      | nil =>
        obtain ⟨y, hy⟩ := Scan.rdropWhile_cons (by decide : isSpace '}' = false) x
        rw [hy, List.nil_append] at hp'
        exact parseExpression_append hp (by decide) y p' hp'
      | cons c w =>
        exact parseExpression_append hp (stopper_of_isSpace (hspace c (by simp))) _ p' hp'

/-- The renderer gives what the template says exactly when the template is one
placeholder, or is not enclosed by braces and neither a pair of braces nor a
stray sentinel arises in it with the values in place. -/
theorem render_eq_expected_iff (floatRepr : ℚ → List Char) (template : String) (names : List String)
    (values : Dict String Value) (ps : List PromptPlaceholder)
    (haccepted : validatePromptTemplate template names = .ok ps)
    (hresolve : ∀ p ∈ ps, ∃ v, placeholderValue (canonicalValues values) p = .ok v) :
    renderTemplateValue floatRepr template values = .ok (expectedRendering floatRepr values template) ↔
      (∃ expression, templatePieces template = [.inl expression]) ∨
        (¬ Enclosed template ∧ ¬ BracePair (filled floatRepr values template) ∧
          ¬ StraySentinel (filled floatRepr values template)) := by
  have h : Resolves values template := resolves_of_validate haccepted hresolve
  by_cases he : Enclosed template
  · rcases @render_of_enclosed floatRepr _ _ h he with ⟨e, hpieces, hr⟩ | ⟨hpieces, hr⟩
    · rw [hr, expectedRendering, hpieces]
      simp
    · constructor
      · intro heq
        exact absurd heq (hr _)
      · rintro (⟨e, hp⟩ | ⟨hne, -⟩)
        · exact absurd hp (hpieces e)
        · exact absurd he hne
  · have hpieces : ∀ e, templatePieces template ≠ [.inl e] :=
      fun e hone => he (enclosed_of_single h hone)
    have hexpected : expectedRendering floatRepr values template =
        .str (String.ofList ((filled floatRepr values template).flatMap Token.plain)) := by
      rw [expectedRendering]
      split
      next e hp => exact absurd hp (hpieces e)
      · rfl
    rw [render_of_not_enclosed h he, hexpected, ← restore_spell, ← hasDelimiter_spell]
    split
    next hd => simp [hd, hpieces]
    next hd => simp [hd, hpieces, he, String.ofList_inj]

end Agreement

theorem render_eq_expected_greeting :
    renderTemplateValue (fun _ => []) "\x7b\x7b\x7b\x7b \x7b\x7bname\x7d\x7d!" [("Name", .str "a \x7b b")] =
      .ok (.str "\x7b\x7b a \x7b b!") := by
  refine (render_eq_expected_iff (fun _ => []) "\x7b\x7b\x7b\x7b \x7b\x7bname\x7d\x7d!" ["name"]
    [("Name", .str "a \x7b b")] [⟨"name".toList, "name".toList, []⟩] rfl ?_).mpr (.inr ⟨?_, ?_, ?_⟩)
  · intro p hp
    obtain rfl := List.mem_singleton.mp hp
    exact ⟨_, rfl⟩
  · rintro he
    obtain ⟨e, hf⟩ := (enclosed_iff _).mp he
    cases hf
  · rw [← hasDelimiter_spell]
    decide +kernel
  · exact (restore_spell _).mp rfl

/-- Two placeholders on one line, with nothing before the first or after the
last: the template is accepted and its values resolve, but it does not render. -/
theorem render_fails_at_two_placeholders :
    ∃ ps, validatePromptTemplate "\x7b\x7ba\x7d\x7d \x7b\x7bb\x7d\x7d" ["a", "b"] = .ok ps ∧
      (∀ p ∈ ps, ∃ v, placeholderValue (canonicalValues [("a", .str "x"), ("b", .str "y")]) p =
        .ok v) ∧
      expectedRendering (fun _ => []) [("a", .str "x"), ("b", .str "y")] "\x7b\x7ba\x7d\x7d \x7b\x7bb\x7d\x7d" =
        .str "x y" ∧
      renderTemplateValue (fun _ => []) "\x7b\x7ba\x7d\x7d \x7b\x7bb\x7d\x7d" [("a", .str "x"), ("b", .str "y")] ≠
        .ok (expectedRendering (fun _ => []) [("a", .str "x"), ("b", .str "y")] "\x7b\x7ba\x7d\x7d \x7b\x7bb\x7d\x7d") := by
  refine ⟨[⟨['a'], ['a'], []⟩, ⟨['b'], ['b'], []⟩], rfl, ?_, rfl, ?_⟩
  · intro p hp
    simp only [List.mem_cons, List.not_mem_nil, or_false] at hp
    rcases hp with rfl | rfl
    · exact ⟨_, rfl⟩
    · exact ⟨_, rfl⟩
  · intro h
    have herror : renderTemplateValue (fun _ => []) "\x7b\x7ba\x7d\x7d \x7b\x7bb\x7d\x7d"
        [("a", .str "x"), ("b", .str "y")] = .error (.invalidPlaceholder "a\x7d\x7d \x7b\x7bb".toList) := rfl
    rw [herror] at h
    cases h

end Raticode.Rattish
