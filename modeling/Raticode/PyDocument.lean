import Raticode.PyJson

/-! The values `json` writes and reads, as the source language holds them: strings
by their code points, so that a surrogate may stand alone, doubles with their sign,
and dictionaries whose keys need not be strings. -/
namespace PyDocument
open PyText PyJson

abbrev Bytes := List UInt8

abbrev Str := List ℕ

instance : LawfulBEq Str := inferInstance

def text (s : String) : Str := s.toList.map Char.toNat

theorem text_ofList (cs : List Char) : text (String.ofList cs) = cs.map Char.toNat := by
  rw [text, String.toList_ofList]

inductive Double where
  | finite (negative : Bool) (magnitude : ℚ)
  | infinite (negative : Bool)
  | nan

inductive Key where
  | null
  | bool (b : Bool)
  | int (z : ℤ)
  | float (x : Double)
  | str (s : Str)
  | other

inductive Value where
  | null
  | bool (b : Bool)
  | int (z : ℤ)
  | float (x : Double)
  | str (s : Str)
  | list (items : List Value)
  | dict (members : List (Key × Value))
  | other

namespace Value

/-- The number a value is compared as; `True` is 1. -/
def number? : Value → Option Double
  | .bool b => some (.finite false (if b then 1 else 0))
  | .int z => some (.finite (z < 0) |(z : ℚ)|)
  | .float x => some x
  | _ => none

end Value

namespace Double

def toRat (negative : Bool) (magnitude : ℚ) : ℚ := if negative then -magnitude else magnitude

/-- `==` of numbers. -/
def eq : Double → Double → Bool
  | .finite n m, .finite n' m' => toRat n m = toRat n' m'
  | .infinite n, .infinite n' => n = n'
  | _, _ => false

end Double

/-- `==` of keys, which the numbers among them share. -/
def Key.eq : Key → Key → Bool
  | .null, .null => true
  | .str s, .str t => s = t
  | k, k' => match number? k, number? k' with
    | some x, some y => x.eq y
    | _, _ => false
where
  number? : Key → Option Double
  | .bool b => (Value.bool b).number?
  | .int z => (Value.int z).number?
  | .float x => some x
  | _ => none

mutual
/-- `==` of values. Dictionaries are compared without their order. -/
def eqValue : Value → Value → Bool
  | .null, .null => true
  | .str s, .str t => s = t
  | .list xs, .list ys => eqItems xs ys
  | .dict xs, .dict ys => xs.length = ys.length && eqMembers xs ys
  | x, y => match x.number?, y.number? with
    | some a, some b => a.eq b
    | _, _ => false

def eqItems : List Value → List Value → Bool
  | [], [] => true
  | x :: xs, y :: ys => eqValue x y && eqItems xs ys
  | _, _ => false

def eqMembers : List (Key × Value) → List (Key × Value) → Bool
  | [], _ => true
  | (k, x) :: xs, ys =>
    (match ys.find? (fun p => k.eq p.1) with
      | some p => eqValue x p.2
      | none => false) && eqMembers xs ys
end

/-- What the interpreter allows: the digits `int` converts, `none` for no limit, and
the containers that may be open at once before the recursion limit is met. -/
structure Limits where
  maxDigits : Option ℕ
  nesting : ℕ

/-! `bytes.decode` and `str.encode`, both UTF-8 and strict. -/

def encodeChars (w : List Char) : Bytes := w.flatMap String.utf8EncodeChar

/-- Bytes that are all ASCII are their characters. -/
def decodeUtf8 (b : Bytes) : Option (List Char) :=
  if b.all (· < 0x80) then some (b.map fun x => Char.ofNat x.toNat)
  else b.toByteArray.utf8Decode?.map Array.toList

def isSurrogate (n : ℕ) : Bool := isHigh n || isLow n

def encodeUtf8 (s : Str) : Option Bytes :=
  if s.any isSurrogate then none else some (encodeChars (s.map Char.ofNat))

theorem char_of_ascii {c : Char} (h : (String.utf8EncodeChar c).all (· < 0x80) = true) :
    (String.utf8EncodeChar c).map (fun x => Char.ofNat x.toNat) = [c] := by
  unfold String.utf8EncodeChar at h ⊢
  simp only at h ⊢
  split_ifs at h ⊢ with hone htwo hthree
  · have hsmall : (UInt8.ofNat c.val.toNat).toNat = c.toNat := Nat.mod_eq_of_lt (by omega)
    rw [List.map_singleton, hsmall, Char.ofNat_toNat]
  all_goals
    simp only [List.all_cons, Bool.and_eq_true, decide_eq_true_eq, UInt8.lt_iff_toNat_lt,
      UInt8.toNat_ofNat', UInt8.reduceToNat] at h
    omega

theorem chars_of_ascii {w : List Char} (h : (encodeChars w).all (· < 0x80) = true) :
    (encodeChars w).map (fun x => Char.ofNat x.toNat) = w := by
  induction w with
  | nil => rfl
  | cons c w ih =>
    rw [encodeChars, List.flatMap_cons, List.all_append, Bool.and_eq_true] at h
    rw [encodeChars, List.flatMap_cons, List.map_append, char_of_ascii h.1]
    exact congrArg (c :: ·) (ih h.2)

@[simp] theorem decodeUtf8_encodeChars (w : List Char) : decodeUtf8 (encodeChars w) = some w := by
  have hbytes : (encodeChars w).toByteArray = List.utf8Encode w := rfl
  unfold decodeUtf8
  split_ifs with hascii
  · rw [chars_of_ascii hascii]
  · rw [hbytes, List.utf8Decode?_utf8Encode]
    rfl

/-! `json.loads`. -/

inductive DecodeError (ε : Type) where
  | malformed | digits | recursion
  | hook (e : ε)
  deriving DecidableEq

/-- `object_pairs_hook` and `parse_constant`. -/
structure Hooks (ε : Type) where
  pairs : List (Str × Value) → Except ε Value
  constant : Str → Except ε Value

def codePoints : List (ℕ ⊕ Char) → Str
  | [] => []
  | .inr c :: us => c.toNat :: codePoints us
  | .inl high :: .inl low :: us =>
    if isHigh high && isLow low then
      (0x10000 + (high - 0xd800) * 1024 + (low - 0xdc00)) :: codePoints us
    else high :: codePoints (.inl low :: us)
  | .inl n :: us => n :: codePoints us

def toFloat (n : Numeral) : Double :=
  match toDouble |n.value| with
  | some magnitude => .finite n.negative magnitude
  | none => .infinite n.negative

variable {ε : Type}

def called {α : Type} (e : Except ε α) : Except (DecodeError ε) α := e.mapError .hook

def number (limits : Limits) (n : Numeral) : Except (DecodeError ε) Value :=
  if n.isInteger then
    if limits.maxDigits.any (· < n.whole.length) then .error .digits else .ok (.int n.toInt)
  else .ok (.float (toFloat n))

def literals : List (List Char × Value) :=
  [("null".toList, .null), ("true".toList, .bool true), ("false".toList, .bool false)]

def nonfinite : List (List Char) := ["NaN".toList, "Infinity".toList, "-Infinity".toList]

def scalar (limits : Limits) (hooks : Hooks ε) (w : List Char) :
    Except (DecodeError ε) (Value × List Char) :=
  match literals.find? (fun p => p.1.isPrefixOf w), nonfinite.find? (·.isPrefixOf w), numeral w with
  | some (name, value), _, _ => .ok (value, w.drop name.length)
  | none, some name, _ => do
    return (← called (hooks.constant (name.map Char.toNat)), w.drop name.length)
  | none, none, some (n, rest) => do return (← number limits n, rest)
  | none, none, none => .error .malformed

mutual
/-- One value at the start of a text inside `depth` open containers, and what follows
it. Each call works on less text, so the length of the text is bound enough. -/
def readValue (limits : Limits) (hooks : Hooks ε) :
    ℕ → ℕ → List Char → Except (DecodeError ε) (Value × List Char)
  | 0, _, _ => .error .malformed
  | n + 1, depth, w =>
    match w with
    | '"' :: body =>
      match jsonUnits body with
      | some (us, rest) => .ok (.str (codePoints us), rest)
      | none => .error .malformed
    | '[' :: body =>
      if limits.nesting ≤ depth then .error .recursion
      else match skipSpace body with
        | ']' :: rest => .ok (.list [], rest)
        | body => do
          let (items, rest) ← readItems limits hooks n (depth + 1) body
          return (.list items, rest)
    | '{' :: body =>
      if limits.nesting ≤ depth then .error .recursion
      else match skipSpace body with
        | '}' :: rest => do return (← called (hooks.pairs []), rest)
        | body => do
          let (members, rest) ← readMembers limits hooks n (depth + 1) body
          return (← called (hooks.pairs members), rest)
    | w => scalar limits hooks w

def readItems (limits : Limits) (hooks : Hooks ε) :
    ℕ → ℕ → List Char → Except (DecodeError ε) (List Value × List Char)
  | 0, _, _ => .error .malformed
  | n + 1, depth, w => do
    let (item, rest) ← readValue limits hooks n depth w
    match skipSpace rest with
    | ']' :: rest => return ([item], rest)
    | ',' :: rest => do
      let (items, rest) ← readItems limits hooks n depth (skipSpace rest)
      return (item :: items, rest)
    | _ => .error .malformed

def readMembers (limits : Limits) (hooks : Hooks ε) :
    ℕ → ℕ → List Char → Except (DecodeError ε) (List (Str × Value) × List Char)
  | 0, _, _ => .error .malformed
  | n + 1, depth, w =>
    match w with
    | '"' :: body =>
      match jsonUnits body with
      | some (us, rest) =>
        match skipSpace rest with
        | ':' :: rest => do
          let (value, rest) ← readValue limits hooks n depth (skipSpace rest)
          match skipSpace rest with
          | '}' :: rest => return ([(codePoints us, value)], rest)
          | ',' :: rest => do
            let (members, rest) ← readMembers limits hooks n depth (skipSpace rest)
            return ((codePoints us, value) :: members, rest)
          | _ => .error .malformed
        | _ => .error .malformed
      | none => .error .malformed
    | _ => .error .malformed
end

def loads (limits : Limits) (hooks : Hooks ε) (w : List Char) : Except (DecodeError ε) Value := do
  let (value, rest) ← readValue limits hooks (w.length + 1) 0 (skipSpace w)
  if (skipSpace rest).isEmpty then return value else .error .malformed

/-! `json.dumps` with the separators `","` and `":"`. -/

/-- A `TypeError`; the `ValueError` of a number that is not finite, or of an integer
beyond the digits `int` converts; and the `RecursionError` of deep nesting. -/
inductive EncodeError where
  | notSerializable | nonfinite | digits | recursion
  deriving DecidableEq

structure Style where
  /-- `ensure_ascii`. -/
  ascii : Bool
  allowNan : Bool

def leading (q : ℚ) : ℤ :=
  let guess : ℤ := (Nat.log 10 q.num.natAbs : ℤ) - Nat.log 10 q.den
  if q < (10 : ℚ) ^ guess then guess - 1 else guess

/-- The two decimals of `n + 1` digits beside a number, the nearer first, as a natural
number and the power of ten it counts. -/
def beside (q : ℚ) (n : ℕ) : List (ℕ × ℤ) :=
  let power := leading q - n
  let scaled := q / (10 : ℚ) ^ power
  let below := scaled.floor.toNat
  if scaled - below ≤ 1 / 2 then [(below, power), (below + 1, power)]
  else [(below + 1, power), (below, power)]

def shortest (q : ℚ) : ℕ × ℤ :=
  let back (p : ℕ × ℤ) : Bool := toDouble (p.1 * (10 : ℚ) ^ p.2) = some q
  ((List.range 17).findSome? (fun n => (beside q n).find? back)).getD (0, 0)

def digitsOf (n : ℕ) : List Char := Nat.toDigits 10 n

def padded (width : ℕ) (w : List Char) : List Char := List.replicate (width - w.length) '0' ++ w

/-- `float.__repr__` of a double that is not negative. -/
def magnitudeText (q : ℚ) : List Char :=
  if q = 0 then "0.0".toList
  else
    let (m, power) := shortest q
    let digits := ((digitsOf m).reverse.dropWhile (· = '0')).reverse
    let point : ℤ := (digitsOf m).length + power
    if point ≤ -4 || 16 < point then
      let exponent := point - 1
      digits.take 1 ++ (if digits.length ≤ 1 then [] else '.' :: digits.drop 1) ++
        ['e', if exponent < 0 then '-' else '+'] ++ padded 2 (digitsOf exponent.natAbs)
    else if point ≤ 0 then "0.".toList ++ List.replicate (-point).toNat '0' ++ digits
    else
      let whole := digits.take point.toNat
      whole ++ List.replicate (point.toNat - whole.length) '0' ++ ['.'] ++
        (if digits.length ≤ point.toNat then ['0'] else digits.drop point.toNat)

def signed (negative : Bool) (w : List Char) : List Char := if negative then '-' :: w else w

def floatText (style : Style) (x : Double) : Except EncodeError (List Char) :=
  match x with
  | .finite negative magnitude => .ok (signed negative (magnitudeText magnitude))
  | .infinite negative =>
    if style.allowNan then .ok (signed negative "Infinity".toList) else .error .nonfinite
  | .nan => if style.allowNan then .ok "NaN".toList else .error .nonfinite

def intText (limits : Limits) (z : ℤ) : Except EncodeError (List Char) :=
  if limits.maxDigits.any (· < (digitsOf z.natAbs).length) then .error .digits
  else .ok (signed (z < 0) (digitsOf z.natAbs))

def boolText (b : Bool) : List Char := if b then "true".toList else "false".toList

def escape (style : Style) (n : ℕ) : Str :=
  if n = 0x22 then text "\\\""
  else if n = 0x5c then text "\\\\"
  else if n = 0x0a then text "\\n"
  else if n = 0x0d then text "\\r"
  else if n = 0x09 then text "\\t"
  else if n = 0x0c then text "\\f"
  else if n = 0x08 then text "\\b"
  else if n < 0x20 then (unitEscape n).map Char.toNat
  else if !style.ascii || n < 0x7f then [n]
  else if n < 0x10000 then (unitEscape n).map Char.toNat
  else (unitEscape (0xd800 + (n - 0x10000) / 1024) ++
    unitEscape (0xdc00 + (n - 0x10000) % 1024)).map Char.toNat

def quoted (style : Style) (s : Str) : Str := [0x22] ++ s.flatMap (escape style) ++ [0x22]

def points (e : Except EncodeError (List Char)) : Except EncodeError Str :=
  e.map (fun w => w.map Char.toNat)

def keyText (limits : Limits) (style : Style) : Key → Except EncodeError Str
  | .str s => .ok (quoted style s)
  | .float x => (points (floatText style x)).map (quoted style)
  | .bool b => .ok (quoted style ((boolText b).map Char.toNat))
  | .null => .ok (quoted style (text "null"))
  | .int z => (points (intText limits z)).map (quoted style)
  | .other => .error .notSerializable

def joined (parts : List Str) : Str := [0x2c].intercalate parts

mutual
/-- `json.dumps(value, separators=(",", ":"), …)` inside `depth` open containers. -/
def dumps (limits : Limits) (style : Style) (depth : ℕ) : Value → Except EncodeError Str
  | .null => .ok (text "null")
  | .bool b => .ok ((boolText b).map Char.toNat)
  | .int z => points (intText limits z)
  | .float x => points (floatText style x)
  | .str s => .ok (quoted style s)
  | .list items => do
    if limits.nesting ≤ depth then .error .recursion
    let parts ← dumpItems limits style (depth + 1) items
    return [0x5b] ++ joined parts ++ [0x5d]
  | .dict members => do
    if limits.nesting ≤ depth then .error .recursion
    let parts ← dumpMembers limits style (depth + 1) members
    return [0x7b] ++ joined parts ++ [0x7d]
  | .other => .error .notSerializable

def dumpItems (limits : Limits) (style : Style) (depth : ℕ) :
    List Value → Except EncodeError (List Str)
  | [] => .ok []
  | item :: items => do
    let part ← dumps limits style depth item
    return part :: (← dumpItems limits style depth items)

def dumpMembers (limits : Limits) (style : Style) (depth : ℕ) :
    List (Key × Value) → Except EncodeError (List Str)
  | [] => .ok []
  | (key, value) :: members => do
    let name ← keyText limits style key
    let part ← dumps limits style depth value
    return (name ++ [0x3a] ++ part) :: (← dumpMembers limits style depth members)
end

end PyDocument
