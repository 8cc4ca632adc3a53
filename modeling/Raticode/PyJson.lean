import Mathlib.Algebra.Field.Rat
import Mathlib.Data.Nat.Log
import Mathlib.Data.Rat.Defs
import Raticode.Attempt
import Raticode.PyText

/-! `json.loads` of the source language's standard library, on lists of Unicode
scalar values. Beside the JSON grammar it reads `NaN` and the infinities. -/
namespace PyJson
open PyText Attempt

/-- A decoded document. A double that is not finite is `none`, and an object keeps
its members in order of appearance. -/
inductive Json where
  | null
  | bool (b : Bool)
  | int (z : ℤ)
  | float (q : Option ℚ)
  | str (s : List Char)
  | arr (items : List Json)
  | obj (members : List (List Char × Json))

/-- `JSONDecodeError`; the `ValueError` of `int` beyond the digits it accepts; and
the error a hook raises that refuses the same member name twice. -/
inductive Failure where
  | decode | digits | duplicate
  deriving DecidableEq

structure Options where
  /-- The most digits `int` converts, `none` for no limit. -/
  maxDigits : Option ℕ
  unique : Bool

def isDigit (c : Char) : Bool := '0' ≤ c && c ≤ '9'

structure Numeral where
  negative : Bool
  whole : List Char
  fraction : List Char
  exponent : Option (Bool × List Char)

def readWhole : List Char → List Char × List Char
  | '0' :: w => (['0'], w)
  | w => (w.takeWhile isDigit, w.dropWhile isDigit)

def readFraction (w : List Char) : List Char × List Char :=
  match w with
  | '.' :: digits =>
    if digits.takeWhile isDigit = [] then ([], w)
    else (digits.takeWhile isDigit, digits.dropWhile isDigit)
  | _ => ([], w)

def readSign : List Char → Bool × List Char
  | '-' :: w => (true, w)
  | '+' :: w => (false, w)
  | w => (false, w)

def readExponent (w : List Char) : Option (Bool × List Char) × List Char :=
  match w with
  | e :: signed =>
    let (negative, digits) := readSign signed
    if (e = 'e' || e = 'E') && digits.takeWhile isDigit ≠ [] then
      (some (negative, digits.takeWhile isDigit), digits.dropWhile isDigit)
    else (none, w)
  | [] => (none, [])

def numeral (w : List Char) : Option (Numeral × List Char) :=
  let (negative, unsigned) := match w with
    | '-' :: w => (true, w)
    | w => (false, w)
  let (whole, afterWhole) := readWhole unsigned
  if whole = [] then none
  else
    let (fraction, afterFraction) := readFraction afterWhole
    let (exponent, rest) := readExponent afterFraction
    some (⟨negative, whole, fraction, exponent⟩, rest)

def natOf (digits : List Char) : ℕ := digits.foldl (fun n c => 10 * n + (c.toNat - 48)) 0

namespace Numeral

def isInteger (n : Numeral) : Bool := n.fraction = [] && n.exponent.isNone

def toInt (n : Numeral) : ℤ := if n.negative then -natOf n.whole else natOf n.whole

def value (n : Numeral) : ℚ :=
  let digits : ℚ := natOf (n.whole ++ n.fraction)
  let scale : ℤ := (match n.exponent with
    | some (true, ds) => -(natOf ds : ℤ)
    | some (false, ds) => natOf ds
    | none => 0) - n.fraction.length
  (if n.negative then -1 else 1) * digits * (10 : ℚ) ^ scale

end Numeral

def roundEven (q : ℚ) : ℤ :=
  let r := q - q.floor
  if r < 1 / 2 ∨ (r = 1 / 2 ∧ q.floor % 2 = 0) then q.floor else q.floor + 1

def ulp (q : ℚ) : ℤ :=
  let n := q.num.natAbs
  let guess : ℤ := (Nat.log 2 n : ℤ) - Nat.log 2 q.den
  let exponent := if (n : ℚ) < (2 : ℚ) ^ guess * q.den then guess - 1 else guess
  max (exponent - 52) (-1074)

/-- The nearest double, `none` where it overflows. -/
def toDouble (q : ℚ) : Option ℚ :=
  let r : ℚ := roundEven (q / (2 : ℚ) ^ ulp q) * (2 : ℚ) ^ ulp q
  if r.num.natAbs < 2 ^ 1024 * r.den then some r else none

def characters : List (ℕ ⊕ Char) → List Char
  | [] => []
  | .inr c :: us => c :: characters us
  | .inl high :: .inl low :: us =>
    if isHigh high && isLow low then
      Char.ofNat (0x10000 + (high - 0xd800) * 1024 + (low - 0xdc00)) :: characters us
    else unit high :: characters (.inl low :: us)
  | .inl n :: us => unit n :: characters us
where
  unit (n : ℕ) : Char := if isHigh n || isLow n then '\ufffd' else Char.ofNat n

def skipSpace (w : List Char) : List Char := w.dropWhile isJsonSpace

def constants : List (List Char × Json) :=
  [("null".toList, .null), ("true".toList, .bool true), ("false".toList, .bool false),
    ("NaN".toList, .float none), ("Infinity".toList, .float none),
    ("-Infinity".toList, .float none)]

def number (options : Options) (n : Numeral) : Except Failure Json :=
  if n.isInteger then
    if options.maxDigits.any (· < n.whole.length) then .error .digits else .ok (.int n.toInt)
  else .ok (.float (toDouble n.value))

mutual
def readValue (options : Options) : ℕ → List Char → Except Failure (Json × List Char)
  | 0, _ => .error .decode
  | n + 1, w =>
    match w with
    | '"' :: body =>
      match jsonUnits body with
      | some (us, rest) => .ok (.str (characters us), rest)
      | none => .error .decode
    | '[' :: body =>
      match skipSpace body with
      | ']' :: rest => .ok (.arr [], rest)
      | body => do
        let (items, rest) ← readItems options n body
        return (.arr items, rest)
    | '{' :: body =>
      match skipSpace body with
      | '}' :: rest => .ok (.obj [], rest)
      | body => do
        let (members, rest) ← readMembers options n body
        if options.unique && !(members.map Prod.fst).Nodup then .error .duplicate
        else return (.obj members, rest)
    | w =>
      match constants.find? (fun p => p.1.isPrefixOf w), numeral w with
      | some (name, value), _ => .ok (value, w.drop name.length)
      | none, some (n, rest) => do return (← number options n, rest)
      | none, none => .error .decode

def readItems (options : Options) : ℕ → List Char → Except Failure (List Json × List Char)
  | 0, _ => .error .decode
  | n + 1, w => do
    let (item, rest) ← readValue options n w
    match skipSpace rest with
    | ']' :: rest => return ([item], rest)
    | ',' :: rest => do
      let (items, rest) ← readItems options n (skipSpace rest)
      return (item :: items, rest)
    | _ => .error .decode

def readMembers (options : Options) :
    ℕ → List Char → Except Failure (List (List Char × Json) × List Char)
  | 0, _ => .error .decode
  | n + 1, w =>
    match w with
    | '"' :: body =>
      match jsonUnits body with
      | some (us, rest) =>
        match skipSpace rest with
        | ':' :: rest => do
          let (value, rest) ← readValue options n (skipSpace rest)
          match skipSpace rest with
          | '}' :: rest => return ([(characters us, value)], rest)
          | ',' :: rest => do
            let (members, rest) ← readMembers options n (skipSpace rest)
            return ((characters us, value) :: members, rest)
          | _ => .error .decode
        | _ => .error .decode
      | none => .error .decode
    | _ => .error .decode
end

def loads (options : Options) (w : List Char) : Except Failure Json := do
  let (value, rest) ← readValue options (w.length + 1) (skipSpace w)
  if (skipSpace rest).isEmpty then return value else .error .decode

example : (loads ⟨none, true⟩ "[1, \x7b\"a\": -2.5e1\x7d]".toList).isOk = true := by decide +kernel

/-! What a text that is read consists of: whitespace and tokens, none of which
has a line break inside. -/
section Tokens

def isStart (c : Char) : Bool := isDigit c || "[]\x7b\x7d,:\"-ntfNI".toList.contains c

/-- What follows the opening quote of a string. -/
inductive QuotedBody : List Char → Prop
  | close : QuotedBody ['"']
  | escape {c : Char} {w : List Char} (hw : QuotedBody w) : QuotedBody ('\\' :: c :: w)
  | plain {c : Char} {w : List Char} (hquote : c ≠ '"') (hescape : c ≠ '\\') (hw : QuotedBody w) :
      QuotedBody (c :: w)

def isMark (c : Char) : Bool := ['[', ']', '\x7b', '\x7d', '"'].contains c

structure Token (t : List Char) : Prop where
  start : ∃ c ∈ t.head?, isStart c = true
  unbroken : '\n' ∉ t
  level : (∀ c ∈ t, isMark c = false) ∨ ∃ body, t = '"' :: body ∧ QuotedBody body

/-- Whitespace, tokens and brackets that lead from one depth to another, and never out of
the outermost bracket. -/
inductive Tokens : ℕ → List Char → ℕ → Prop
  | nil {d : ℕ} : Tokens d [] d
  | space {c : Char} {w : List Char} {d e : ℕ} (hc : isJsonSpace c = true) (hw : Tokens d w e) :
      Tokens d (c :: w) e
  | token {t w : List Char} {d e : ℕ} (ht : Token t) (hw : Tokens d w e) : Tokens d (t ++ w) e
  | opening {c : Char} {w : List Char} {d e : ℕ} (hc : c = '[' ∨ c = '\x7b') (hw : Tokens (d + 1) w e) :
      Tokens d (c :: w) e
  | closing {c : Char} {w : List Char} {d e : ℕ} (hc : c = ']' ∨ c = '\x7d') (hw : Tokens (d + 1) w e) :
      Tokens (d + 2) (c :: w) e

def Reads (d : ℕ) (w : List Char) (e : ℕ) (rest : List Char) : Prop :=
  ∃ t, w = t ++ rest ∧ Tokens d t e

variable {d e f : ℕ}

theorem Tokens.append {u w : List Char} (hu : Tokens d u e) (hw : Tokens e w f) :
    Tokens d (u ++ w) f := by
  induction hu with
  | nil => exact hw
  | space hc _ ih => exact .space hc (ih hw)
  | token ht _ ih =>
    rw [List.append_assoc]
    exact .token ht (ih hw)
  | opening hc _ ih => exact .opening hc (ih hw)
  | closing hc _ ih => exact .closing hc (ih hw)

theorem Reads.refl (w : List Char) : Reads d w d w := ⟨[], rfl, .nil⟩

theorem Reads.trans {u v w : List Char} (h : Reads d u e v) (h' : Reads e v f w) : Reads d u f w := by
  obtain ⟨t, rfl, ht⟩ := h
  obtain ⟨t', rfl, ht'⟩ := h'
  exact ⟨t ++ t', by simp, ht.append ht'⟩

theorem Reads.token {t w : List Char} (h : Token t) : Reads d (t ++ w) d w :=
  ⟨t, rfl, by simpa using Tokens.token h .nil⟩

theorem Reads.mark {c : Char} {w : List Char} (hc : c = ',' ∨ c = ':') : Reads d (c :: w) d w := by
  apply Reads.token (t := [c])
  rcases hc with rfl | rfl <;> exact ⟨⟨_, rfl, by decide⟩, by decide, .inl (by simp [isMark])⟩

theorem Reads.skipSpace (w : List Char) : Reads d w d (skipSpace w) := by
  induction w with
  | nil => exact Reads.refl []
  | cons c w ih =>
    by_cases hc : isJsonSpace c = true
    · obtain ⟨t, ht, htokens⟩ := ih
      refine ⟨c :: t, ?_, .space hc htokens⟩
      simp [PyJson.skipSpace, hc] at ht ⊢
      exact ht
    · have hsame : PyJson.skipSpace (c :: w) = c :: w := by
        simp [PyJson.skipSpace, hc]
      rw [hsame]
      exact Reads.refl _

/-- A line break stands between tokens. -/
theorem Tokens.of_newline {u v : List Char} (h : Tokens d (u ++ '\n' :: v) e) :
    ∃ m, Tokens d u m ∧ Tokens m v e := by
  generalize hw : u ++ '\n' :: v = w at h
  induction h generalizing u with
  | nil => simp at hw
  | @space c w d e hc hwt ih =>
    cases u with
    | nil =>
      obtain ⟨rfl, rfl⟩ := List.cons.inj hw
      exact ⟨d, .nil, hwt⟩
    | cons c u =>
      obtain ⟨rfl, hrest⟩ := List.cons.inj hw
      obtain ⟨m, hu, hv⟩ := ih hrest
      exact ⟨m, .space hc hu, hv⟩
  | @token t w d e ht hwt ih =>
    rcases List.append_eq_append_iff.mp hw with ⟨s, hs, hrest⟩ | ⟨s, rfl, hrest⟩
    · -- The break would stand inside the token.
      cases s with
      | nil =>
        obtain ⟨m, hu, hv⟩ := ih (u := []) (by simpa using hrest)
        refine ⟨m, ?_, hv⟩
        rw [List.append_nil] at hs
        rw [← hs, ← List.append_nil t]
        exact .token ht hu
      | cons c s =>
        obtain ⟨rfl, -⟩ := List.cons.inj hrest
        exact absurd (hs ▸ List.mem_append_right _ List.mem_cons_self) ht.unbroken
    · obtain ⟨m, hu, hv⟩ := ih hrest.symm
      exact ⟨m, .token ht hu, hv⟩
  | opening hc _ ih =>
    cases u with
    | nil =>
      obtain ⟨rfl, -⟩ := List.cons.inj hw
      rcases hc with hc | hc <;> cases hc
    | cons c u =>
      obtain ⟨rfl, hrest⟩ := List.cons.inj hw
      obtain ⟨m, hu, hv⟩ := ih hrest
      exact ⟨m, .opening hc hu, hv⟩
  | closing hc _ ih =>
    cases u with
    | nil =>
      obtain ⟨rfl, -⟩ := List.cons.inj hw
      rcases hc with hc | hc <;> cases hc
    | cons c u =>
      obtain ⟨rfl, hrest⟩ := List.cons.inj hw
      obtain ⟨m, hu, hv⟩ := ih hrest
      exact ⟨m, .closing hc hu, hv⟩

theorem Tokens.head {c : Char} {w : List Char} (h : Tokens d (c :: w) e) :
    isJsonSpace c = true ∨ isStart c = true := by
  generalize hw : c :: w = v at h
  induction h with
  | nil => cases hw
  | space hc _ _ =>
    obtain ⟨rfl, -⟩ := List.cons.inj hw
    exact .inl hc
  | @token t w _ _ ht _ _ =>
    obtain ⟨b, hb, hstart⟩ := ht.start
    cases t with
    | nil => cases hb
    | cons a t =>
      obtain ⟨rfl, -⟩ := List.cons.inj hw
      cases hb
      exact .inr hstart
  | opening hc _ _ =>
    obtain ⟨rfl, -⟩ := List.cons.inj hw
    rcases hc with rfl | rfl <;> exact .inr (by decide)
  | closing hc _ _ =>
    obtain ⟨rfl, -⟩ := List.cons.inj hw
    rcases hc with rfl | rfl <;> exact .inr (by decide)

theorem Tokens.of_spaces {s w : List Char} (hs : ∀ c ∈ s, isJsonSpace c = true)
    (h : Tokens d (s ++ w) e) {c : Char} (hc : w.head? = some c) :
    isJsonSpace c = true ∨ isStart c = true := by
  obtain ⟨w, rfl⟩ : ∃ w', w = c :: w' := by
    cases w with
    | nil => cases hc
    | cons d w => exact ⟨w, by simp_all⟩
  induction s with
  | nil => exact h.head
  | cons b s ih =>
    apply ih (fun e he => hs e (List.mem_cons_of_mem _ he))
    -- A leading space is no token, so it is read as whitespace.
    have hb := hs b List.mem_cons_self
    have hspace : ∀ {c : Char}, c = b → isStart c = true → False := by
      rintro c rfl hstart
      simp only [isJsonSpace, Bool.or_eq_true, decide_eq_true_eq] at hb
      rcases hb with ((rfl | rfl) | rfl) | rfl <;> revert hstart <;> decide
    generalize hv : b :: s ++ c :: w = v at h
    cases h with
    | nil => cases hv
    | space _ ht =>
      obtain ⟨-, rfl⟩ := List.cons.inj hv
      exact ht
    | @token t v _ _ ht hvt =>
      obtain ⟨f, hf, hstart⟩ := ht.start
      cases t with
      | nil => cases hf
      | cons f t =>
        cases hf
        exact (hspace (List.cons.inj hv).1.symm hstart).elim
    | opening hc _ =>
      refine (hspace (List.cons.inj hv).1.symm ?_).elim
      rcases hc with rfl | rfl <;> decide
    | closing hc _ =>
      refine (hspace (List.cons.inj hv).1.symm ?_).elim
      rcases hc with rfl | rfl <;> decide

theorem jsonUnits_quoted {w rest : List Char} {us : List (ℕ ⊕ Char)}
    (h : jsonUnits w = some (us, rest)) : ∃ t, w = t ++ rest ∧ '\n' ∉ t ∧ QuotedBody t := by
  have hhex : ∀ {c n}, hexValue c = some n → c ≠ '\n' ∧ c ≠ '"' ∧ c ≠ '\\' := by
    intro c n hc
    refine ⟨?_, ?_, ?_⟩ <;> rintro rfl <;> simp [hexValue] at hc
  fun_induction jsonUnits w generalizing us with
  | case1 => cases h
  | case2 r =>
    cases h
    exact ⟨['"'], rfl, by decide, .close⟩
  | case3 a b c d r n hn ih =>
    obtain ⟨⟨us', rest'⟩, hu, he⟩ := Option.map_eq_some_iff.mp h
    cases he
    obtain ⟨t, rfl, ht, hbody⟩ := ih hu
    simp only [hex4, Option.bind_eq_bind, Option.bind_eq_some_iff] at hn
    obtain ⟨p, hp, q, hq, r, hr, s, hs, -⟩ := hn
    obtain ⟨hpn, hpq, hpe⟩ := hhex hp
    obtain ⟨hqn, hqq, hqe⟩ := hhex hq
    obtain ⟨hrn, hrq, hre⟩ := hhex hr
    obtain ⟨hsn, hsq, hse⟩ := hhex hs
    refine ⟨'\\' :: 'u' :: a :: b :: c :: d :: t, rfl, ?_, ?_⟩
    · simp [hpn.symm, hqn.symm, hrn.symm, hsn.symm, ht]
    · exact .escape (.plain hpq hpe (.plain hqq hqe (.plain hrq hre (.plain hsq hse hbody))))
  | case4 => cases h
  | case5 e r hu c hc ih =>
    obtain ⟨⟨us', rest'⟩, hu', he⟩ := Option.map_eq_some_iff.mp h
    cases he
    obtain ⟨t, rfl, ht, hbody⟩ := ih hu'
    have hne : e ≠ '\n' := by
      rintro rfl
      simp [simpleEscape] at hc
    exact ⟨'\\' :: e :: t, rfl, by simp [hne.symm, ht], .escape hbody⟩
  | case6 => cases h
  | case7 => cases h
  | case8 c r hquote hhex' hescape hc ih =>
    obtain ⟨⟨us', rest'⟩, hu', he⟩ := Option.map_eq_some_iff.mp h
    cases he
    obtain ⟨t, rfl, ht, hbody⟩ := ih hu'
    have hne : c ≠ '\n' := by
      rintro rfl
      simp at hc
    refine ⟨c :: t, rfl, by simp [hne.symm, ht], .plain hquote ?_ hbody⟩
    rintro rfl
    cases hr : t ++ rest' with
    | nil =>
      rw [hr] at hu'
      cases hu'
    | cons e r => exact hescape e r rfl hr

theorem Reads.string {body rest : List Char} {us : List (ℕ ⊕ Char)}
    (h : jsonUnits body = some (us, rest)) : Reads d ('"' :: body) d rest := by
  obtain ⟨t, rfl, ht, hbody⟩ := jsonUnits_quoted h
  exact Reads.token (t := '"' :: t) ⟨⟨'"', rfl, by decide⟩, by simpa using ht, .inr ⟨t, rfl, hbody⟩⟩

def NumberPart (w rest : List Char) : Prop :=
  ∃ t, w = t ++ rest ∧ ∀ c ∈ t, isDigit c = true ∨ c ∈ "+-.eE".toList

theorem NumberPart.trans {u v w : List Char} (h : NumberPart u v) (h' : NumberPart v w) :
    NumberPart u w := by
  obtain ⟨t, rfl, ht⟩ := h
  obtain ⟨t', rfl, ht'⟩ := h'
  refine ⟨t ++ t', by simp, fun c hc => ?_⟩
  rcases List.mem_append.mp hc with hc | hc
  · exact ht c hc
  · exact ht' c hc

theorem NumberPart.digits (w : List Char) : NumberPart w (w.dropWhile isDigit) :=
  ⟨w.takeWhile isDigit, List.takeWhile_append_dropWhile.symm,
    fun _ hc => .inl (List.mem_takeWhile_imp hc)⟩

theorem NumberPart.mark {c : Char} (hc : c ∈ "+-.eE".toList) (w : List Char) :
    NumberPart (c :: w) w :=
  ⟨[c], rfl, by simpa using Or.inr hc⟩

theorem NumberPart.refl (w : List Char) : NumberPart w w := ⟨[], rfl, by simp⟩

theorem readFraction_part (w : List Char) : NumberPart w (readFraction w).2 := by
  unfold readFraction
  split
  · split
    · exact .refl _
    · exact (NumberPart.mark (by decide) _).trans (.digits _)
  · exact .refl _

theorem readSign_part (w : List Char) : NumberPart w (readSign w).2 := by
  unfold readSign
  split
  · exact .mark (by decide) _
  · exact .mark (by decide) _
  · exact .refl _

theorem readExponent_part (w : List Char) : NumberPart w (readExponent w).2 := by
  unfold readExponent
  split
  next e signed =>
    simp only
    split
    next he =>
      have hmark : e ∈ "+-.eE".toList := by
        simp only [Bool.and_eq_true, Bool.or_eq_true, decide_eq_true_eq] at he
        rcases he.1 with rfl | rfl <;> decide
      exact ((NumberPart.mark hmark _).trans (readSign_part _)).trans (.digits _)
    · exact .refl _
  · exact .refl _

theorem readWhole_spec {w : List Char} (h : (readWhole w).1 ≠ []) :
    w = (readWhole w).1 ++ (readWhole w).2 ∧ ∀ c ∈ (readWhole w).1, isDigit c = true := by
  unfold readWhole at h ⊢
  split
  · exact ⟨rfl, by simp [isDigit]⟩
  · exact ⟨List.takeWhile_append_dropWhile.symm, fun c hc => List.mem_takeWhile_imp hc⟩

theorem isStart_of_isDigit {c : Char} (h : isDigit c = true) : isStart c = true := by
  simp [isStart, h]

theorem isMark_of_isDigit {c : Char} (h : isDigit c = true) : isMark c = false := by
  by_contra hmark
  rw [Bool.not_eq_false, isMark, List.contains_iff_mem] at hmark
  have hmarks : "[]\x7b\x7d\"".toList.all (fun x => !isDigit x) = true := by decide
  simpa [h] using List.all_eq_true.mp hmarks c hmark

theorem Reads.number {w rest : List Char} {n : Numeral} (h : numeral w = some (n, rest)) :
    Reads d w d rest := by
  -- A text of digits, signs and marks that starts with a digit or a minus.
  have hread : ∀ {u v : List Char}, NumberPart u v → (∃ c ∈ u.head?, isStart c = true) →
      u.length ≠ v.length → Reads d u d v := by
    rintro u v ⟨t, rfl, ht⟩ ⟨c, hc, hstart⟩ hlen
    apply Reads.token
    refine ⟨?_, fun hn => ?_, .inl (fun c hc => ?_)⟩
    · cases t with
      | nil => simp at hlen
      | cons d t => exact ⟨c, by simpa using hc, hstart⟩
    · rcases ht _ hn with hd | hm
      · revert hd
        decide
      · revert hm
        decide
    · rcases ht c hc with hd | hm
      · exact isMark_of_isDigit hd
      · have hmarks : "+-.eE".toList.all (fun x => !isMark x) = true := by decide
        simpa using List.all_eq_true.mp hmarks c hm
  unfold numeral at h
  split at h
  next negative unsigned hsign =>
    simp only at h
    split at h
    · cases h
    next hwhole =>
      cases h
      obtain ⟨hsplit, hdigits⟩ := readWhole_spec hwhole
      have hpart : NumberPart unsigned (readExponent (readFraction (readWhole unsigned).2).2).2 :=
        (NumberPart.trans ⟨_, hsplit, fun c hc => .inl (hdigits c hc)⟩
          (readFraction_part _)).trans (readExponent_part _)
      obtain ⟨t, ht, hchars⟩ := hpart
      have hshort : (readExponent (readFraction (readWhole unsigned).2).2).2.length <
          unsigned.length := by
        obtain ⟨t₁, h₁, -⟩ := readFraction_part (readWhole unsigned).2
        obtain ⟨t₂, h₂, -⟩ := readExponent_part (readFraction (readWhole unsigned).2).2
        have hlen := congrArg List.length hsplit
        have hlen₁ := congrArg List.length h₁
        have hlen₂ := congrArg List.length h₂
        have hpos : 0 < (readWhole unsigned).1.length := List.length_pos_iff.mpr hwhole
        simp only [List.length_append] at hlen hlen₁ hlen₂
        omega
      split at hsign
      next w =>
        cases hsign
        apply hread ((NumberPart.mark (by decide) _).trans ⟨t, ht, hchars⟩) ⟨'-', rfl, by decide⟩
        rw [List.length_cons]
        omega
      · cases hsign
        refine hread ⟨t, ht, hchars⟩ ?_ (by omega)
        obtain ⟨c, whole, hcons⟩ := List.exists_cons_of_ne_nil hwhole
        refine ⟨c, ?_, isStart_of_isDigit (hdigits c (by simp [hcons]))⟩
        rw [hsplit, hcons]
        rfl

theorem Reads.constant {w name : List Char} {value : Json}
    (h : constants.find? (fun p => p.1.isPrefixOf w) = some (name, value)) :
    Reads d w d (w.drop name.length) := by
  have hpre : name <+: w := by simpa using List.find?_some h
  have hmem : (name, value) ∈ constants := List.mem_of_find?_eq_some h
  obtain ⟨rest, rfl⟩ := hpre
  rw [List.drop_left]
  apply Reads.token
  simp only [constants, List.mem_cons, Prod.mk.injEq, List.not_mem_nil, or_false] at hmem
  rcases hmem with ⟨rfl, -⟩ | ⟨rfl, -⟩ | ⟨rfl, -⟩ | ⟨rfl, -⟩ | ⟨rfl, -⟩ | ⟨rfl, -⟩ <;>
    exact ⟨⟨_, rfl, by decide⟩, by decide, .inl (by simp [isMark])⟩

variable {options : Options}

theorem Reads.of_skipSpace {w rest : List Char} {c : Char} (h : PyJson.skipSpace w = c :: rest) :
    Reads d w d (c :: rest) := by
  have hskip := Reads.skipSpace (d := d) w
  rwa [h] at hskip

theorem Reads.of_comma {w rest : List Char} {c : Char} (h : PyJson.skipSpace w = c :: rest)
    (hc : c = ',' ∨ c = ':') : Reads d w d (PyJson.skipSpace rest) :=
  ((Reads.of_skipSpace h).trans (.mark hc)).trans (.skipSpace rest)

/-- Between the brackets of a container the depth comes back to what it was. -/
theorem reads_container {n : ℕ} (hitems : ∀ (d : ℕ) (w : List Char) (v : List Json) (rest : List Char),
      readItems options n w = .ok (v, rest) → Reads (d + 1) w (d + 1) (']' :: rest))
    (hmembers : ∀ (d : ℕ) (w : List Char) (v : List (List Char × Json)) (rest : List Char),
      readMembers options n w = .ok (v, rest) → Reads (d + 1) w (d + 1) ('\x7d' :: rest))
    {c : Char} {body rest : List Char} {v : Json} (hc : c = '[' ∨ c = '\x7b')
    (h : readValue options (n + 1) (c :: body) = .ok (v, rest)) :
    ∃ b, (b = ']' ∨ b = '\x7d') ∧ ∀ d, Reads (d + 1) body (d + 1) (b :: rest) := by
  unfold readValue at h
  rcases hc with rfl | rfl
  · refine ⟨']', .inl rfl, fun d => ?_⟩
    simp only at h
    split at h
    next hclose =>
      cases h
      exact .of_skipSpace hclose
    · obtain ⟨⟨items, rest'⟩, hread, he⟩ := bind_ok h
      cases he
      exact (Reads.skipSpace _).trans (hitems d _ _ _ hread)
  · refine ⟨'\x7d', .inr rfl, fun d => ?_⟩
    simp only at h
    split at h
    next hclose =>
      cases h
      exact .of_skipSpace hclose
    · obtain ⟨⟨members, rest'⟩, hread, he⟩ := bind_ok h
      simp only at he
      split at he
      · cases he
      · cases he
        exact (Reads.skipSpace _).trans (hmembers d _ _ _ hread)

theorem reads_read (n : ℕ) :
    (∀ d w v rest, readValue options n w = .ok (v, rest) → Reads (d + 1) w (d + 1) rest) ∧
    (∀ d w v rest, readItems options n w = .ok (v, rest) → Reads (d + 1) w (d + 1) (']' :: rest)) ∧
    (∀ d w v rest, readMembers options n w = .ok (v, rest) →
      Reads (d + 1) w (d + 1) ('\x7d' :: rest)) := by
  induction n with
  | zero =>
    refine ⟨fun d w v rest h => ?_, fun d w v rest h => ?_, fun d w v rest h => ?_⟩
    · simp [readValue] at h
    · simp [readItems] at h
    · simp [readMembers] at h
  | succ n ih =>
    obtain ⟨hvalue, hitems, hmembers⟩ := ih
    have hnested : ∀ {d : ℕ} {c : Char} {body rest : List Char} {v : Json}, c = '[' ∨ c = '\x7b' →
        readValue options (n + 1) (c :: body) = .ok (v, rest) →
        Reads (d + 1) (c :: body) (d + 1) rest := by
      intro d c body rest v hc h
      obtain ⟨b, hb, hbody⟩ := reads_container hitems hmembers hc h
      obtain ⟨t, rfl, ht⟩ := hbody (d + 1)
      exact ⟨c :: (t ++ [b]), by simp, .opening hc (ht.append (.closing hb .nil))⟩
    refine ⟨fun d w v rest h => ?_, fun d w v rest h => ?_, fun d w v rest h => ?_⟩
    · have h' := h
      unfold readValue at h
      split at h
      · split at h
        next hu =>
          cases h
          exact Reads.string hu
        · cases h
      · exact hnested (.inl rfl) h'
      · exact hnested (.inr rfl) h'
      · split at h
        next hfind =>
          cases h
          exact Reads.constant hfind
        next hnumeral =>
          obtain ⟨value, -, he⟩ := bind_ok h
          cases he
          exact Reads.number hnumeral
        · cases h
    · unfold readItems at h
      obtain ⟨⟨item, rest'⟩, hread, h⟩ := bind_ok h
      simp only at h
      split at h
      next hclose =>
        cases h
        exact (hvalue d _ _ _ hread).trans (.of_skipSpace hclose)
      next hcomma =>
        obtain ⟨⟨items, rest''⟩, hmore, he⟩ := bind_ok h
        cases he
        have hone := (hvalue d _ _ _ hread).trans (.of_comma hcomma (.inl rfl))
        exact hone.trans (hitems d _ _ _ hmore)
      · cases h
    · unfold readMembers at h
      split at h
      · split at h
        next hu =>
          split at h
          next hcolon =>
            have hname := (Reads.string (d := d + 1) hu).trans (.of_comma hcolon (.inr rfl))
            obtain ⟨⟨value, rest'⟩, hread, h⟩ := bind_ok h
            have hone := hname.trans (hvalue d _ _ _ hread)
            simp only at h
            split at h
            next hclose =>
              cases h
              exact hone.trans (.of_skipSpace hclose)
            next hcomma =>
              obtain ⟨⟨members, rest''⟩, hmore, he⟩ := bind_ok h
              cases he
              exact (hone.trans (.of_comma hcomma (.inl rfl))).trans (hmembers d _ _ _ hmore)
            · cases h
          · cases h
        · cases h
      · cases h

theorem tokens_of_loads {w : List Char} {v : Json} (h : loads options w = .ok v) : Tokens 1 w 1 := by
  obtain ⟨⟨v', rest⟩, hread, h⟩ := bind_ok h
  simp only at h
  split at h
  next hend =>
    obtain ⟨t, ht, htokens⟩ := ((Reads.skipSpace w).trans
      ((reads_read _).1 0 _ _ _ hread)).trans (.skipSpace rest)
    rw [List.isEmpty_iff.mp hend, List.append_nil] at ht
    rw [ht]
    exact htokens
  · cases h

/-- A container that is loaded stands between its brackets, with the depth back at the last. -/
theorem tokens_of_container {c b : Char} {body : List Char} {v : Json} (hc : c = '[' ∨ c = '\x7b')
    (hb : b = ']' ∨ b = '\x7d') (h : loads options (c :: (body ++ [b])) = .ok v) : Tokens 1 body 1 := by
  obtain ⟨⟨v', rest⟩, hread, h⟩ := bind_ok h
  simp only at h
  split at h
  next hend =>
    have hskip : skipSpace (c :: (body ++ [b])) = c :: (body ++ [b]) := by
      rcases hc with rfl | rfl <;> rfl
    rw [hskip] at hread
    obtain ⟨b', -, hbody⟩ := reads_container (reads_read _).2.1 (reads_read _).2.2 hc hread
    obtain ⟨t, ht, htokens⟩ := hbody 0
    -- Behind the last bracket stands whitespace only, so it is the last character.
    have hrest : rest = [] := by
      by_contra hne
      have hlast : b = rest.getLast hne := by
        have hends := congrArg List.getLast? ht
        rw [List.getLast?_append_of_ne_nil _ (List.cons_ne_nil _ _),
          List.getLast?_append_of_ne_nil _ (List.cons_ne_nil _ _), List.getLast?_singleton,
          List.getLast?_eq_some_getLast (List.cons_ne_nil _ _), List.getLast_cons hne] at hends
        exact Option.some.inj hends
      have hspace : isJsonSpace b = true := by
        rw [hlast]
        exact List.dropWhile_eq_nil_iff.mp (List.isEmpty_iff.mp hend) _ (List.getLast_mem hne)
      rcases hb with rfl | rfl <;> revert hspace <;> decide
    subst hrest
    obtain ⟨rfl, -⟩ := List.append_inj' ht rfl
    exact htokens
  · cases h

theorem loads_line_start {u s v : List Char} {c : Char} {j : Json}
    (h : loads options (u ++ '\n' :: (s ++ c :: v)) = .ok j)
    (hs : ∀ x ∈ s, isJsonSpace x = true) : isJsonSpace c = true ∨ isStart c = true :=
  let ⟨_, _, hv⟩ := (tokens_of_loads h).of_newline
  hv.of_spaces hs rfl

end Tokens

end PyJson
