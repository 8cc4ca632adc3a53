import Raticode.Scan

/-! The text operations of the source language's standard library, on lists of
Unicode scalar values. -/
namespace PyText

/-- `str.isspace` of one character; `\s` of a pattern is the same class. -/
def isSpace (c : Char) : Bool :=
  let n := c.toNat
  (9 ≤ n && n ≤ 13) || (28 ≤ n && n ≤ 32) || n == 0x85 || n == 0xa0 || n == 0x1680 ||
    (0x2000 ≤ n && n ≤ 0x200a) || n == 0x2028 || n == 0x2029 || n == 0x202f || n == 0x205f ||
    n == 0x3000

def strip (w : List Char) : List Char := Scan.trim isSpace w

/-- `str.lower`, on the characters whose lower case is an ASCII letter; the other
characters are compared with ASCII words only, and stay what they are. -/
def lowerChar (c : Char) : Char :=
  if c = '\u212a' then 'k' else c.toLower

def lower (w : List Char) : List Char := w.map lowerChar

/-- `str.lower` of a text of letters that match `[A-Za-z]` when case is ignored,
digits and hyphens. -/
def lowerWord (w : List Char) : List Char :=
  w.flatMap (fun c => if c = '\u0130' then ['i', '\u0307'] else [lowerChar c])

def foldChar (c : Char) : Char :=
  if c = '\u0130' || c = '\u0131' then 'i' else if c = '\u017f' then 's' else lowerChar c

def isLetter (c : Char) : Bool := ('a' ≤ c && c ≤ 'z') || ('A' ≤ c && c ≤ 'Z')

def isAlnum (c : Char) : Bool := isLetter c || ('0' ≤ c && c ≤ '9')

def decimalZeros : List ℕ :=
  [0x30, 0x660, 0x6f0, 0x7c0, 0x966, 0x9e6, 0xa66, 0xae6, 0xb66, 0xbe6, 0xc66, 0xce6, 0xd66, 0xde6,
    0xe50, 0xed0, 0xf20, 0x1040, 0x1090, 0x17e0, 0x1810, 0x1946, 0x19d0, 0x1a80, 0x1a90, 0x1b50,
    0x1bb0, 0x1c40, 0x1c50, 0xa620, 0xa8d0, 0xa900, 0xa9d0, 0xa9f0, 0xaa50, 0xabf0, 0xff10, 0x104a0,
    0x10d30, 0x11066, 0x110f0, 0x11136, 0x111d0, 0x112f0, 0x11450, 0x114d0, 0x11650, 0x116c0,
    0x11730, 0x118e0, 0x11950, 0x11c50, 0x11d50, 0x11da0, 0x16a60, 0x16ac0, 0x16b50, 0x1d7ce,
    0x1d7d8, 0x1d7e2, 0x1d7ec, 0x1d7f6, 0x1e140, 0x1e2f0, 0x1e950, 0x1fbf0]

/-- The other characters that `str.isdigit` counts, superscripts and the like. -/
def digitRanges : List (ℕ × ℕ) :=
  [(0xb2, 0xb3), (0xb9, 0xb9), (0x1369, 0x1371), (0x19da, 0x19da), (0x2070, 0x2070),
    (0x2074, 0x2079), (0x2080, 0x2089), (0x2460, 0x2468), (0x2474, 0x247c), (0x2488, 0x2490),
    (0x24ea, 0x24ea), (0x24f5, 0x24fd), (0x24ff, 0x24ff), (0x2776, 0x277e), (0x2780, 0x2788),
    (0x278a, 0x2792), (0x10a40, 0x10a43), (0x10e60, 0x10e68), (0x11052, 0x1105a),
    (0x1f100, 0x1f10a)]

def decimalValue (c : Char) : Option ℕ :=
  (decimalZeros.find? (fun z => z ≤ c.toNat && c.toNat ≤ z + 9)).map (fun z => c.toNat - z)

def isDigitChar (c : Char) : Bool :=
  (decimalValue c).isSome || digitRanges.any (fun r => r.1 ≤ c.toNat && c.toNat ≤ r.2)

def isDigit (w : List Char) : Bool := !w.isEmpty && w.all isDigitChar

/-- `int(text)` of a text of digits, `none` where it raises `ValueError`. -/
def toNat? (w : List Char) : Option ℕ :=
  w.foldl (fun n c => n.bind (fun n => (decimalValue c).map (fun d => 10 * n + d))) (some 0)

/-- The longest match of `[..]*(?:-[..]+)*` at the start, for a class of
characters. -/
def hyphenTail (p : Char → Bool) : List Char → List Char
  | [] => []
  | [c] => if p c then [c] else []
  | c :: d :: cs =>
    if p c then c :: hyphenTail p (d :: cs)
    else if c = '-' && p d then c :: d :: hyphenTail p cs
    else []

def identifierTail (w : List Char) : List Char := hyphenTail isAlnum w

/-- The longest match of `[A-Za-z][A-Za-z0-9]*(?:-[A-Za-z0-9]+)*` at the start. -/
def identifier : List Char → Option (List Char)
  | [] => none
  | c :: cs => if isLetter c then some (c :: identifierTail cs) else none

section HyphenTail
variable {p : Char → Bool}

theorem hyphenTail_prefix (w : List Char) : hyphenTail p w <+: w := by
  fun_induction hyphenTail p w with
  | case1 => exact List.nil_prefix
  | case2 c hc => exact List.prefix_rfl
  | case3 c hc => exact List.nil_prefix
  | case4 c d cs hc ih => exact List.cons_prefix_cons.mpr ⟨rfl, ih⟩
  | case5 c d cs hc hd ih =>
    exact List.cons_prefix_cons.mpr ⟨rfl, List.cons_prefix_cons.mpr ⟨rfl, ih⟩⟩
  | case6 c d cs hc hd => exact List.nil_prefix

theorem hyphenTail_chars {w : List Char} {x : Char} (hx : x ∈ hyphenTail p w) :
    p x = true ∨ x = '-' := by
  fun_induction hyphenTail p w with
  | case1 => simp at hx
  | case2 c hc =>
    obtain rfl := List.mem_singleton.mp hx
    exact .inl hc
  | case3 c hc => simp at hx
  | case4 c d cs hc ih =>
    rcases List.mem_cons.mp hx with rfl | hx
    · exact .inl hc
    · exact ih hx
  | case5 c d cs hc hd ih =>
    simp only [Bool.and_eq_true, decide_eq_true_eq] at hd
    simp only [List.mem_cons] at hx
    rcases hx with rfl | rfl | hx
    · exact .inr hd.1
    · exact .inl hd.2
    · exact ih hx
  | case6 c d cs hc hd => simp at hx

theorem hyphenTail_append {c : Char} (hc : p c = false) (hh : c ≠ '-') (w v : List Char) :
    hyphenTail p (w ++ c :: v) = hyphenTail p w := by
  have hstop : ∀ u, hyphenTail p (c :: u) = [] := by
    intro u
    cases u with
    | nil => simp [hyphenTail, hc]
    | cons d u => simp [hyphenTail, hc, hh]
  fun_induction hyphenTail p w with
  | case1 => exact hstop v
  | case2 d hd => simp [hyphenTail, hd, hstop]
  | case3 d hd => simp [hyphenTail, hd, hc]
  | case4 d e cs hd ih => simpa [hyphenTail, hd] using ih
  | case5 d e cs hd he ih =>
    simp only [List.cons_append, hyphenTail, hd, he, ih]
    simp
  | case6 d e cs hd he => simp [hyphenTail, hd, he]

end HyphenTail

theorem identifierTail_prefix (w : List Char) : identifierTail w <+: w :=
  hyphenTail_prefix w

theorem identifierTail_chars {w : List Char} {x : Char} (hx : x ∈ identifierTail w) :
    isAlnum x = true ∨ x = '-' :=
  hyphenTail_chars hx

theorem identifierTail_append {c : Char} (hc : isAlnum c = false) (hh : c ≠ '-') (w v : List Char) :
    identifierTail (w ++ c :: v) = identifierTail w :=
  hyphenTail_append hc hh w v

theorem identifier_eq_some {w u : List Char} (h : identifier w = some u) : u <+: w ∧ u ≠ [] ∧
    ∀ x ∈ u, isAlnum x = true ∨ x = '-' := by
  cases w with
  | nil => cases h
  | cons c cs =>
    simp only [identifier] at h
    split at h
    next hc =>
      cases h
      refine ⟨List.cons_prefix_cons.mpr ⟨rfl, identifierTail_prefix cs⟩, by simp, fun x hx => ?_⟩
      rcases List.mem_cons.mp hx with rfl | hx
      · exact .inl (by simp [isAlnum, hc])
      · exact identifierTail_chars hx
    · cases h

theorem identifier_append {w u : List Char} (h : identifier w = some u) {c : Char}
    (hc : isAlnum c = false) (hh : c ≠ '-') (v : List Char) :
    identifier (w ++ c :: v) = some u := by
  cases w with
  | nil => cases h
  | cons d ds =>
    simp only [identifier] at h
    split at h
    next hd =>
      cases h
      simp [identifier, hd, identifierTail_append hc hh]
    · cases h

def isJsonSpace (c : Char) : Bool := c = ' ' || c = '\t' || c = '\n' || c = '\r'

def hexValue (c : Char) : Option ℕ :=
  if '0' ≤ c && c ≤ '9' then some (c.toNat - 48)
  else if 'a' ≤ c && c ≤ 'f' then some (c.toNat - 87)
  else if 'A' ≤ c && c ≤ 'F' then some (c.toNat - 55)
  else none

def hex4 (a b c d : Char) : Option ℕ := do
  return 4096 * (← hexValue a) + 256 * (← hexValue b) + 16 * (← hexValue c) + (← hexValue d)

def simpleEscape : Char → Option Char
  | '"' => some '"'
  | '\\' => some '\\'
  | '/' => some '/'
  | 'b' => some '\x08'
  | 'f' => some '\x0c'
  | 'n' => some '\n'
  | 'r' => some '\r'
  | 't' => some '\t'
  | _ => none

def hexDigit (n : ℕ) : Char := if n < 10 then Char.ofNat (48 + n) else Char.ofNat (87 + n)

def unitEscape (n : ℕ) : List Char :=
  ['\\', 'u', hexDigit (n / 4096 % 16), hexDigit (n / 256 % 16), hexDigit (n / 16 % 16),
    hexDigit (n % 16)]

def asciiEscape (c : Char) : List Char :=
  if c = '"' then ['\\', '"']
  else if c = '\\' then ['\\', '\\']
  else if c = '\n' then ['\\', 'n']
  else if c = '\r' then ['\\', 'r']
  else if c = '\t' then ['\\', 't']
  else if c = '\x0c' then ['\\', 'f']
  else if c = '\x08' then ['\\', 'b']
  else if 32 ≤ c.toNat && c.toNat ≤ 126 then [c]
  else if c.toNat < 0x10000 then unitEscape c.toNat
  else unitEscape (0xd800 + (c.toNat - 0x10000) / 1024) ++
    unitEscape (0xdc00 + (c.toNat - 0x10000) % 1024)

/-- The body of a JSON string after its opening quote, with `\u` escapes as the
UTF-16 units they name, and what follows the closing quote. A raw control
character ends the reading. -/
def jsonUnits : List Char → Option (List (ℕ ⊕ Char) × List Char)
  | [] => none
  | '"' :: rest => some ([], rest)
  | '\\' :: 'u' :: a :: b :: c :: d :: rest =>
    match hex4 a b c d with
    | some n => (jsonUnits rest).map (fun p => (.inl n :: p.1, p.2))
    | none => none
  | '\\' :: e :: rest =>
    match simpleEscape e with
    | some c => (jsonUnits rest).map (fun p => (.inr c :: p.1, p.2))
    | none => none
  | c :: rest =>
    if c.toNat < 32 then none
    else (jsonUnits rest).map (fun p => (.inr c :: p.1, p.2))

def isHigh (n : ℕ) : Bool := 0xd800 ≤ n && n ≤ 0xdbff

def isLow (n : ℕ) : Bool := 0xdc00 ≤ n && n ≤ 0xdfff

def joinUnits : List (ℕ ⊕ Char) → Option (List Char)
  | [] => some []
  | .inr c :: us => (joinUnits us).map (c :: ·)
  | .inl n :: us =>
    if isHigh n then
      match us with
      | .inl lo :: us' =>
        if isLow lo then
          (joinUnits us').map (Char.ofNat (0x10000 + (n - 0xd800) * 1024 + (lo - 0xdc00)) :: ·)
        else none
      | _ => none
    else if isLow n then none
    else (joinUnits us).map (Char.ofNat n :: ·)

theorem hexValue_ne_nul {c : Char} {n : ℕ} (h : hexValue c = some n) : c ≠ '\x00' := by
  rintro rfl
  simp [hexValue] at h

theorem nul_of_jsonUnits {w rest : List Char} {us : List (ℕ ⊕ Char)}
    (h : jsonUnits w = some (us, rest)) (hm : '\x00' ∈ w) : '\x00' ∈ rest := by
  fun_induction jsonUnits w generalizing us with
  | case1 => cases h
  | case2 r =>
    cases h
    simpa using hm
  | case3 a b c d r n hn ih =>
    obtain ⟨⟨us', rest'⟩, hu, he⟩ := Option.map_eq_some_iff.mp h
    cases he
    refine ih hu ?_
    simp only [hex4, Option.bind_eq_bind, Option.bind_eq_some_iff] at hn
    obtain ⟨p, hp, q, hq, r, hr, t, ht, -⟩ := hn
    have := hexValue_ne_nul hp
    have := hexValue_ne_nul hq
    have := hexValue_ne_nul hr
    have := hexValue_ne_nul ht
    simp_all [eq_comm]
  | case4 => cases h
  | case5 e r hu c hc ih =>
    obtain ⟨⟨us', rest'⟩, hu', he⟩ := Option.map_eq_some_iff.mp h
    cases he
    refine ih hu' ?_
    have hne : e ≠ '\x00' := by
      rintro rfl
      simp [simpleEscape] at hc
    simpa [hne.symm] using hm
  | case6 => cases h
  | case7 => cases h
  | case8 c r _ _ _ hc ih =>
    obtain ⟨⟨us', rest'⟩, hu', he⟩ := Option.map_eq_some_iff.mp h
    cases he
    refine ih hu' ?_
    have hne : c ≠ '\x00' := by
      rintro rfl
      simp at hc
    simpa [hne.symm] using hm

/-- `json.loads(text)` where it is a string. -/
def jsonString (w : List Char) : Option (List Char) :=
  match w.dropWhile isJsonSpace with
  | '"' :: body =>
    match jsonUnits body with
    | some (us, rest) => if rest.all isJsonSpace then joinUnits us else none
    | none => none
  | _ => none

theorem jsonString_no_nul {w s : List Char} (h : jsonString w = some s) : '\x00' ∉ w := by
  intro hm
  have hdrop := Scan.mem_dropWhile hm (by decide : isJsonSpace '\x00' = false)
  simp only [jsonString] at h
  split at h
  next body hb =>
    rw [hb] at hdrop
    split at h
    next us rest hu =>
      have hrest := nul_of_jsonUnits hu (by simpa using hdrop)
      split at h
      next hall =>
        have := List.all_eq_true.mp hall _ hrest
        simp [isJsonSpace] at this
      · cases h
    · cases h
  · cases h

theorem isDigit_no_nul {w : List Char} (h : isDigit w = true) : '\x00' ∉ w := by
  intro hm
  simp only [isDigit, Bool.and_eq_true, List.all_eq_true] at h
  have := h.2 _ hm
  revert this
  decide

end PyText
