import Raticode.PyDigits
import Raticode.RattishTokens

/-! What the formatter prints for a predicate, and the tokens the parser cuts that into. -/
namespace Raticode.Rattish
open PyText (isSpace isLetter isAlnum lower lowerWord identifier hexDigit hexValue)

/-- One character of `json.dumps(text, ensure_ascii=False)`. -/
def escapeChar (c : Char) : Text :=
  if c = '"' then ['\\', '"']
  else if c = '\\' then ['\\', '\\']
  else if c = '\n' then ['\\', 'n']
  else if c = '\r' then ['\\', 'r']
  else if c = '\t' then ['\\', 't']
  else if c = '\x0c' then ['\\', 'f']
  else if c = '\x08' then ['\\', 'b']
  else if c.toNat < 32 then PyText.unitEscape c.toNat
  else [c]

/-- `json.dumps(text, ensure_ascii=False)`. -/
def dumpText (w : Text) : Text := '"' :: (w.flatMap escapeChar ++ ['"'])

/-- `str(value)` of an integer. -/
def intText (z : ℤ) : Text :=
  if z < 0 then '-' :: Nat.toDigits 10 z.natAbs else Nat.toDigits 10 z.natAbs

namespace Ast

def RefSelector.text : RefSelector → Text
  | .index _ value _ => '[' :: (Nat.toDigits 10 value ++ [']'])
  | .bracket source _ => '[' :: (dumpText source ++ [']'])
  | .dot source .identifier _ => '.' :: lower source
  | .dot source .jsonMember _ => '.' :: source

/-- `_Renderer._reference`. -/
def Reference.text (reference : Reference) : Text :=
  reference.root.canonical ++ reference.selectors.flatMap RefSelector.text

/-- `_Renderer._comparable`, where a double is printed by the function that is given. An
infinite one is an error. -/
def Comparable.text (floatText : ℚ → Text) : Comparable → Option Text
  | .reference r => some r.text
  | .string _ value _ => some (dumpText value)
  | .boolean _ value _ => some (if value then "true".toList else "false".toList)
  | .null _ _ => some "null".toList
  | .integer _ value _ => some (intText value)
  | .number _ value _ => value.map floatText

def LogicalOperator.text : LogicalOperator → Text
  | .and => "and".toList
  | .or => "or".toList

def Comparison.text : Comparison → Text
  | .eq => "==".toList
  | .ne => "!=".toList
  | .lt => "<".toList
  | .le => "<=".toList
  | .gt => ">".toList
  | .ge => ">=".toList
  | .contains => "contains".toList
  | .matches => "matches".toList

/-- `_Renderer._predicate`. -/
def Predicate.text (floatText : ℚ → Text) : Predicate → Option Text
  | .logical operator _ left right _ => do
    let left ← left.text floatText
    let right ← right.text floatText
    return left ++ ' ' :: (operator.text ++ ' ' :: right)
  | .not _ operand _ => do return "not ".toList ++ (← operand.text floatText)
  | .group operand _ => do return '(' :: ((← operand.text floatText) ++ [')'])
  | .status _ succeeded _ => some (if succeeded then "succeeded".toList else "failed".toList)
  | .exists _ r _ => some ("exists ".toList ++ r.text)
  | .nullTest r isNull _ _ =>
    some (r.text ++ (if isNull then " is null".toList else " is not null".toList))
  | .comparison operator _ left right _ => do
    let left ← left.text floatText
    let right ← right.text floatText
    return left ++ ' ' :: (operator.text ++ ' ' :: right)
  | .reference r _ => some r.text

end Ast

/-! JSON texts. -/

def escapedUnit (c : Char) : ℕ ⊕ Char :=
  if c.toNat < 32 ∧ c ≠ '\n' ∧ c ≠ '\r' ∧ c ≠ '\t' ∧ c ≠ '\x0c' ∧ c ≠ '\x08' then .inl c.toNat
  else .inr c

theorem hex4_control {n : ℕ} (hn : n < 32) :
    PyText.hex4 (hexDigit (n / 4096 % 16)) (hexDigit (n / 256 % 16)) (hexDigit (n / 16 % 16))
      (hexDigit (n % 16)) = some n := by
  have hall : ∀ n < 32, PyText.hex4 (hexDigit (n / 4096 % 16)) (hexDigit (n / 256 % 16))
      (hexDigit (n / 16 % 16)) (hexDigit (n % 16)) = some n := by decide
  exact hall n hn

theorem jsonUnits_escape (c : Char) (w : Text) : PyText.jsonUnits (escapeChar c ++ w) =
    (PyText.jsonUnits w).map (fun p => (escapedUnit c :: p.1, p.2)) := by
  unfold escapeChar
  split_ifs with h₁ h₂ h₃ h₄ h₅ h₆ h₇ h₈
  · subst h₁; rfl
  · subst h₂; rfl
  · subst h₃; rfl
  · subst h₄; rfl
  · subst h₅; rfl
  · subst h₆; rfl
  · subst h₇; rfl
  · have hunit : escapedUnit c = .inl c.toNat := if_pos ⟨h₈, h₃, h₄, h₅, h₆, h₇⟩
    rw [hunit]
    simp only [PyText.unitEscape, List.cons_append, List.nil_append, PyText.jsonUnits,
      hex4_control h₈]
  · have hunit : escapedUnit c = .inr c := if_neg (fun h => h₈ h.1)
    rw [hunit, List.singleton_append, PyText.jsonUnits]
    · rw [if_neg h₈]
    all_goals grind

theorem jsonUnits_dump (w rest : Text) : PyText.jsonUnits (w.flatMap escapeChar ++ '"' :: rest) =
    some (w.map escapedUnit, rest) := by
  induction w with
  | nil => rfl
  | cons c w ih =>
    rw [List.flatMap_cons, List.append_assoc, jsonUnits_escape, ih]
    rfl

theorem characters_escaped (w : Text) : PyJson.characters (w.map escapedUnit) = w := by
  have hcons : ∀ (n : ℕ) (us : List (ℕ ⊕ Char)), n < 32 →
      PyJson.characters (.inl n :: us) = Char.ofNat n :: PyJson.characters us := by
    intro n us hn
    have hhigh : PyText.isHigh n = false := by
      simp [PyText.isHigh]
      omega
    have hlow : PyText.isLow n = false := by
      simp [PyText.isLow]
      omega
    have hunit : PyJson.characters.unit n = Char.ofNat n := by
      simp [PyJson.characters.unit, hhigh, hlow]
    cases us with
    | nil => simp [PyJson.characters, hunit]
    | cons u us => cases u <;> simp [PyJson.characters, hunit, hhigh]
  induction w with
  | nil => rfl
  | cons c w ih =>
    rw [List.map_cons, escapedUnit]
    split
    · next hcontrol =>
      rw [hcons _ _ hcontrol.1, ih, Char.ofNat_toNat]
    · rw [PyJson.characters, ih]

theorem jsonLoads_dump (cfg : ParserConfig) (unique : Bool) (w : Text) :
    jsonLoads cfg unique (dumpText w) = .ok (.str w) := by
  have hread : PyJson.readValue ⟨cfg.maxDigits, unique⟩ ((dumpText w).length + 1) (dumpText w) =
      .ok (.str w, []) := by
    rw [dumpText, PyJson.readValue, jsonUnits_dump]
    simp only [characters_escaped]
  have hskip : PyJson.skipSpace (dumpText w) = dumpText w := rfl
  rw [jsonLoads, PyJson.loads, hskip, hread]
  rfl

/-! Quotes and brackets. -/

theorem quotedTail_plain {c : Char} (hq : c ≠ '"') (hb : c ≠ '\\') (w : Text) :
    quotedTail false (c :: w) = c :: quotedTail false w := by
  simp [quotedTail, hq, hb]

theorem quotedTail_plains {u : Text} (hu : ∀ c ∈ u, c ≠ '"' ∧ c ≠ '\\') (w : Text) :
    quotedTail false (u ++ w) = u ++ quotedTail false w := by
  induction u with
  | nil => rfl
  | cons c u ih =>
    obtain ⟨hq, hb⟩ := hu c List.mem_cons_self
    rw [List.cons_append, quotedTail_plain hq hb, ih (fun d hd => hu d (List.mem_cons_of_mem _ hd))]
    rfl

theorem unitEscape_plain (n : ℕ) : ∃ digits, PyText.unitEscape n = '\\' :: 'u' :: digits ∧
    ∀ c ∈ digits, c ≠ '"' ∧ c ≠ '\\' := by
  have hall : ∀ d < 16, hexDigit d ≠ '"' ∧ hexDigit d ≠ '\\' := by decide
  refine ⟨_, rfl, ?_⟩
  intro c hc
  simp only [List.mem_cons, List.not_mem_nil, or_false] at hc
  rcases hc with rfl | rfl | rfl | rfl
  all_goals exact hall _ (Nat.mod_lt _ (by decide))

theorem quotedTail_escape (c : Char) (w : Text) :
    quotedTail false (escapeChar c ++ w) = escapeChar c ++ quotedTail false w := by
  unfold escapeChar
  split_ifs with h₁ h₂ h₃ h₄ h₅ h₆ h₇ h₈
  iterate 7 rfl
  · obtain ⟨digits, hdigits, hplain⟩ := unitEscape_plain c.toNat
    rw [hdigits]
    have hrest := quotedTail_plains hplain w
    simp [quotedTail, hrest]
  · exact quotedTail_plain h₁ h₂ w

theorem quotedTail_dump (w rest : Text) :
    quotedTail false (w.flatMap escapeChar ++ '"' :: rest) = w.flatMap escapeChar ++ ['"'] := by
  induction w with
  | nil => rfl
  | cons c w ih => rw [List.flatMap_cons, List.append_assoc, quotedTail_escape, ih, List.append_assoc]

theorem untilUnquoted_plains (target : Char) {u : Text} (hu : ∀ c ∈ u, c ≠ '"' ∧ c ≠ '\\')
    (w : Text) : untilUnquoted target true false (u ++ w) =
      (untilUnquoted target true false w).map (fun p => (u ++ p.1, p.2)) := by
  induction u with
  | nil => simp
  | cons c u ih =>
    obtain ⟨hq, hb⟩ := hu c List.mem_cons_self
    rw [List.cons_append, untilUnquoted]
    simp [hq, hb, ih (fun d hd => hu d (List.mem_cons_of_mem _ hd)), Function.comp_def]

theorem untilUnquoted_escape (target c : Char) (w : Text) :
    untilUnquoted target true false (escapeChar c ++ w) =
      (untilUnquoted target true false w).map (fun p => (escapeChar c ++ p.1, p.2)) := by
  unfold escapeChar
  split_ifs with h₁ h₂ h₃ h₄ h₅ h₆ h₇ h₈
  iterate 7 simp [untilUnquoted, Function.comp_def]
  · obtain ⟨digits, hdigits, hplain⟩ := unitEscape_plain c.toNat
    rw [hdigits]
    have hrest := untilUnquoted_plains target hplain w
    simp [untilUnquoted, hrest, Function.comp_def]
  · exact untilUnquoted_plains target (by simp [h₁, h₂]) w

theorem untilUnquoted_body (target : Char) (w rest : Text) :
    untilUnquoted target true false (w.flatMap escapeChar ++ '"' :: rest) =
      (untilUnquoted target false false rest).map
        (fun p => (w.flatMap escapeChar ++ '"' :: p.1, p.2)) := by
  induction w with
  | nil => simp [untilUnquoted]
  | cons c w ih =>
    rw [List.flatMap_cons, List.append_assoc, untilUnquoted_escape, ih]
    simp [Function.comp_def]

theorem untilUnquoted_dump (w rest : Text) :
    untilUnquoted ']' false false (dumpText w ++ ']' :: rest) = some (dumpText w, rest) := by
  have hbody := untilUnquoted_body ']' w (']' :: rest)
  simp only [dumpText, List.cons_append, List.append_assoc]
  rw [untilUnquoted]
  simp [hbody, untilUnquoted]

/-! Numbers. -/

theorem readWhole_toDigits (n : ℕ) : PyJson.readWhole (Nat.toDigits 10 n) = (Nat.toDigits 10 n, []) := by
  have hall : ∀ c ∈ Nat.toDigits 10 n, PyJson.isDigit c = true := fun c hc => PyJson.isDigit_toDigits hc
  unfold PyJson.readWhole
  split
  · next w hw =>
    -- a first digit 0 is the only one
    have hzero : n = 0 := by
      by_contra hne
      exact PyJson.toDigits_head_ne (Nat.pos_of_ne_zero hne) (by rw [hw]; rfl)
    subst hzero
    rw [Nat.toDigits_zero] at hw ⊢
    rw [← (List.cons.inj hw).2]
  · rw [List.takeWhile_eq_self_iff.mpr hall, List.dropWhile_eq_nil_iff.mpr hall]

theorem numeral_toDigits (n : ℕ) :
    PyJson.numeral (Nat.toDigits 10 n) = some (⟨false, Nat.toDigits 10 n, [], none⟩, []) := by
  have hne : Nat.toDigits 10 n ≠ [] := Nat.toDigits_ne_nil
  have hsign : ∀ w, Nat.toDigits 10 n ≠ '-' :: w := by
    intro w hw
    have hdigit := PyJson.isDigit_toDigits (n := n) (c := '-') (by rw [hw]; exact List.mem_cons_self)
    exact absurd hdigit (by decide)
  unfold PyJson.numeral
  split
  next negative unsigned heq =>
  split at heq
  · next w hw => exact absurd hw (hsign w)
  · obtain ⟨hneg, hrest⟩ := Prod.mk.inj heq
    rw [← hneg, ← hrest, readWhole_toDigits]
    simp [hne, PyJson.readFraction, PyJson.readExponent]

theorem numeral_negative (n : ℕ) :
    PyJson.numeral ('-' :: Nat.toDigits 10 n) = some (⟨true, Nat.toDigits 10 n, [], none⟩, []) := by
  have hne : Nat.toDigits 10 n ≠ [] := Nat.toDigits_ne_nil
  rw [PyJson.numeral]
  simp [readWhole_toDigits, hne, PyJson.readFraction, PyJson.readExponent]

theorem integer_toDigits (n : ℕ) :
    integer? (Nat.toDigits 10 n) = some ⟨false, Nat.toDigits 10 n, [], none⟩ := by
  rw [integer?, numeral_toDigits]
  rfl

theorem integer_intText (z : ℤ) :
    integer? (intText z) = some ⟨z < 0, Nat.toDigits 10 z.natAbs, [], none⟩ := by
  unfold intText
  split
  · next hneg =>
    rw [integer?, numeral_negative]
    simp [PyJson.Numeral.isInteger, hneg]
  · next hpos =>
    rw [integer_toDigits]
    simp [hpos]

theorem toInt_intText (z : ℤ) :
    PyJson.Numeral.toInt ⟨z < 0, Nat.toDigits 10 z.natAbs, [], none⟩ = z := by
  simp only [PyJson.Numeral.toInt, PyJson.natOf_toDigits, decide_eq_true_eq]
  split <;> omega

theorem length_toDigits_natOf {digits : Text} (hne : digits ≠ [])
    (hdigits : ∀ c ∈ digits, PyJson.isDigit c = true) :
    (Nat.toDigits 10 (PyJson.natOf digits)).length ≤ digits.length := by
  have hlt : ∀ (ds : Text) (start : ℕ), (∀ c ∈ ds, PyJson.isDigit c = true) →
      ds.foldl (fun n c => 10 * n + (c.toNat - 48)) start < (start + 1) * 10 ^ ds.length := by
    intro ds
    induction ds with
    | nil =>
      intro start _
      simp
    | cons c ds ih =>
      intro start hall
      have hc := hall c List.mem_cons_self
      have hvalue : c.toNat - 48 ≤ 9 := by
        simp only [PyJson.isDigit, Bool.and_eq_true, decide_eq_true_eq] at hc
        have hle : c.toNat ≤ 57 := hc.2
        omega
      have hrest := ih (10 * start + (c.toNat - 48)) (fun d hd => hall d (List.mem_cons_of_mem _ hd))
      have hstep : (10 * start + (c.toNat - 48) + 1) * 10 ^ ds.length ≤
          (start + 1) * 10 ^ (ds.length + 1) := by
        rw [Nat.pow_succ, Nat.mul_comm (10 ^ ds.length) 10, ← Nat.mul_assoc]
        apply Nat.mul_le_mul_right
        omega
      exact Nat.lt_of_lt_of_le hrest hstep
  have hbound : PyJson.natOf digits < 10 ^ digits.length := by
    have hfold := hlt digits 0 hdigits
    rw [Nat.zero_add, Nat.one_mul] at hfold
    exact hfold
  exact (Nat.length_toDigits_le_iff (by decide) (List.length_pos_of_ne_nil hne)).mpr hbound

end Raticode.Rattish
