import Raticode.PyDigits
import Raticode.PyDocument

/-! What `json.dumps` writes with `ensure_ascii` is read back by `json.loads`: numbers, strings, and
objects of values that are read back themselves. -/
namespace PyDocument
open PyText PyJson

def letters (s : Str) : List Char := s.map Char.ofNat

theorem toNat_ofNat {n : ℕ} (h : n < 0xd800) : (Char.ofNat n).toNat = n := by
  have hvalid : n.isValidChar := .inl h
  rw [Char.ofNat, dif_pos hvalid]
  rfl

theorem letters_toNat (w : List Char) : letters (w.map Char.toNat) = w := by
  rw [letters, List.map_map]
  have hid : Char.ofNat ∘ Char.toNat = id := funext fun c => Char.ofNat_toNat c
  rw [hid, List.map_id]

theorem letters_append (s t : Str) : letters (s ++ t) = letters s ++ letters t := List.map_append

/-! Strings. -/
section Strings

def Scalar (s : Str) : Prop := ∀ n ∈ s, n < 0x110000 ∧ isSurrogate n = false

def Plain (s : Str) : Prop := ∀ n ∈ s, 0x20 ≤ n ∧ n < 0x7f ∧ n ≠ 0x22 ∧ n ≠ 0x5c

theorem plain_of_all {s : Str}
    (h : s.all (fun n => 0x20 ≤ n && n < 0x7f && n ≠ 0x22 && n ≠ 0x5c) = true) : Plain s := by
  intro n hn
  simpa [and_assoc] using List.all_eq_true.mp h n hn

theorem Plain.scalar {s : Str} (h : Plain s) : Scalar s := by
  intro n hn
  obtain ⟨-, hhigh, -⟩ := h n hn
  refine ⟨by omega, ?_⟩
  rw [Bool.eq_false_iff]
  simp only [isSurrogate, isHigh, isLow, ne_eq, Bool.or_eq_true, Bool.and_eq_true,
    decide_eq_true_eq]
  omega

variable {style : Style}

theorem escape_plain {n : ℕ} (h : 0x20 ≤ n ∧ n < 0x7f ∧ n ≠ 0x22 ∧ n ≠ 0x5c) :
    escape style n = [n] := by
  obtain ⟨hlow, hhigh, hquote, hslash⟩ := h
  rw [escape, if_neg hquote, if_neg hslash, if_neg (by omega), if_neg (by omega),
    if_neg (by omega), if_neg (by omega), if_neg (by omega), if_neg (by omega), if_pos]
  rw [Bool.or_eq_true]
  right
  exact decide_eq_true hhigh

theorem quoted_plain {s : Str} (h : Plain s) : quoted style s = [0x22] ++ s ++ [0x22] := by
  have hescape : s.flatMap (escape style) = s := by
    induction s with
    | nil => rfl
    | cons n s ih =>
      rw [List.flatMap_cons, escape_plain (h n List.mem_cons_self),
        ih (fun m hm => h m (List.mem_cons_of_mem n hm))]
      rfl
  rw [quoted, hescape]

theorem hexDigit_toNat_lt {d : ℕ} (h : d < 16) : (hexDigit d).toNat < 0x7f := by
  have hall : ∀ d < 16, (hexDigit d).toNat < 0x7f := by decide
  exact hall d h

theorem hexValue_hexDigit {d : ℕ} (h : d < 16) : hexValue (hexDigit d) = some d := by
  have hall : ∀ d < 16, hexValue (hexDigit d) = some d := by decide
  exact hall d h

theorem ascii_unitEscape (n : ℕ) : ∀ m ∈ (unitEscape n).map Char.toNat, m < 0x7f := by
  have hdigit (d : ℕ) : (hexDigit (d % 16)).toNat < 0x7f := hexDigit_toNat_lt (by omega)
  intro m hm
  simp only [unitEscape, List.map_cons, List.map_nil, List.mem_cons, List.not_mem_nil,
    or_false] at hm
  rcases hm with rfl | rfl | rfl | rfl | rfl | rfl
  · decide
  · decide
  · exact hdigit _
  · exact hdigit _
  · exact hdigit _
  · exact hdigit _

theorem ascii_escape (hstyle : style.ascii = true) (n : ℕ) : ∀ m ∈ escape style n, m < 0x7f := by
  intro m hm
  rw [escape] at hm
  split_ifs at hm with h1 h2 h3 h4 h5 h6 h7 h8 h9 h10
  all_goals try exact ascii_unitEscape n m hm
  all_goals try (revert m; decide)
  · simp only [hstyle, Bool.not_true, Bool.false_or, decide_eq_true_eq] at h9
    rw [List.mem_singleton.mp hm]
    exact h9
  · rw [List.map_append] at hm
    rcases List.mem_append.mp hm with hm | hm
    · exact ascii_unitEscape _ m hm
    · exact ascii_unitEscape _ m hm

theorem ascii_quoted (hstyle : style.ascii = true) (s : Str) : ∀ n ∈ quoted style s, n < 0x7f := by
  intro n hn
  simp only [quoted, List.mem_append, List.mem_singleton, List.mem_flatMap] at hn
  rcases hn with (rfl | ⟨m, -, hm⟩) | rfl
  · omega
  · exact ascii_escape hstyle m n hm
  · omega

def unitsOf (n : ℕ) : List (ℕ ⊕ Char) :=
  if n = 0x22 ∨ n = 0x5c ∨ n = 0x0a ∨ n = 0x0d ∨ n = 0x09 ∨ n = 0x0c ∨ n = 0x08 then
    [.inr (Char.ofNat n)]
  else if n < 0x20 then [.inl n]
  else if n < 0x7f then [.inr (Char.ofNat n)]
  else if n < 0x10000 then [.inl n]
  else [.inl (0xd800 + (n - 0x10000) / 1024), .inl (0xdc00 + (n - 0x10000) % 1024)]

theorem jsonUnits_unitEscape {n : ℕ} (h : n < 0x10000) (w : List Char) :
    jsonUnits (unitEscape n ++ w) = (jsonUnits w).map (fun p => (.inl n :: p.1, p.2)) := by
  have hhex : hex4 (hexDigit (n / 4096 % 16)) (hexDigit (n / 256 % 16)) (hexDigit (n / 16 % 16))
      (hexDigit (n % 16)) = some n := by
    have hdigit (d : ℕ) : hexValue (hexDigit (d % 16)) = some (d % 16) :=
      hexValue_hexDigit (by omega)
    rw [hex4, hdigit, hdigit, hdigit, hdigit]
    simp only [Option.bind_eq_bind, Option.bind_some, Option.pure_def, Option.some.injEq]
    omega
  rw [unitEscape]
  simp only [List.cons_append, List.nil_append]
  rw [jsonUnits, hhex]

theorem jsonUnits_raw {n : ℕ} (h : 0x20 ≤ n ∧ n < 0x7f ∧ n ≠ 0x22 ∧ n ≠ 0x5c) (w : List Char) :
    jsonUnits (Char.ofNat n :: w) = (jsonUnits w).map (fun p => (.inr (Char.ofNat n) :: p.1, p.2)) := by
  obtain ⟨hlow, hhigh, hquote, hslash⟩ := h
  have hchar : (Char.ofNat n).toNat = n := toNat_ofNat (by omega)
  have hne : ∀ c : Char, c.toNat ≠ n → Char.ofNat n ≠ c := by
    intro c hc heq
    rw [heq] at hchar
    exact hc hchar
  have hcontrol : ¬ (Char.ofNat n).toNat < 32 := by omega
  rw [jsonUnits]
  · rw [if_neg hcontrol]
  · intro heq
    exact absurd heq (hne '"' (by exact hquote.symm))
  · intro a b c d e heq
    exact absurd heq (hne '\\' (by exact hslash.symm))
  · intro e r heq
    exact absurd heq (hne '\\' (by exact hslash.symm))

theorem jsonUnits_escape_append (hstyle : style.ascii = true) {n : ℕ} (h : n < 0x110000)
    (w : List Char) :
    jsonUnits (letters (escape style n) ++ w) =
      (jsonUnits w).map (fun p => (unitsOf n ++ p.1, p.2)) := by
  by_cases hshort : n = 0x22 ∨ n = 0x5c ∨ n = 0x0a ∨ n = 0x0d ∨ n = 0x09 ∨ n = 0x0c ∨ n = 0x08
  · -- The seven short escapes.
    rcases hshort with rfl | rfl | rfl | rfl | rfl | rfl | rfl
    all_goals rfl
  · have hunits := hshort
    simp only [not_or] at hshort
    obtain ⟨h1, h2, h3, h4, h5, h6, h7⟩ := hshort
    rw [unitsOf, if_neg hunits]
    by_cases hcontrol : n < 0x20
    · have hescape : escape style n = (unitEscape n).map Char.toNat := by
        rw [escape, if_neg h1, if_neg h2, if_neg h3, if_neg h4, if_neg h5, if_neg h6, if_neg h7,
          if_pos hcontrol]
      rw [hescape, letters_toNat, jsonUnits_unitEscape (by omega), if_pos hcontrol]
      rfl
    · by_cases hprint : n < 0x7f
      · rw [escape_plain ⟨by omega, hprint, h1, h2⟩, if_neg hcontrol, if_pos hprint]
        exact jsonUnits_raw ⟨by omega, hprint, h1, h2⟩ w
      · have hraw : ¬ (!style.ascii || decide (n < 0x7f)) = true := by
          simp [hstyle, hprint]
        by_cases hsmall : n < 0x10000
        · have hescape : escape style n = (unitEscape n).map Char.toNat := by
            rw [escape, if_neg h1, if_neg h2, if_neg h3, if_neg h4, if_neg h5, if_neg h6, if_neg h7,
              if_neg hcontrol, if_neg hraw, if_pos hsmall]
          rw [hescape, letters_toNat, jsonUnits_unitEscape hsmall, if_neg hcontrol, if_neg hprint,
            if_pos hsmall]
          rfl
        · have hescape : escape style n = (unitEscape (0xd800 + (n - 0x10000) / 1024) ++
              unitEscape (0xdc00 + (n - 0x10000) % 1024)).map Char.toNat := by
            rw [escape, if_neg h1, if_neg h2, if_neg h3, if_neg h4, if_neg h5, if_neg h6, if_neg h7,
              if_neg hcontrol, if_neg hraw, if_neg hsmall]
          rw [hescape, letters_toNat, List.append_assoc, jsonUnits_unitEscape (by omega),
            jsonUnits_unitEscape (by omega), if_neg hcontrol, if_neg hprint, if_neg hsmall,
            Option.map_map]
          rfl

theorem codePoints_unit {n : ℕ} (h : isHigh n = false) (us : List (ℕ ⊕ Char)) :
    codePoints (.inl n :: us) = n :: codePoints us := by
  cases us with
  | nil => rfl
  | cons u us =>
    cases u with
    | inr c => rfl
    | inl low =>
      rw [codePoints, h]
      rfl

theorem codePoints_unitsOf {n : ℕ} (h : n < 0x110000 ∧ isSurrogate n = false)
    (us : List (ℕ ⊕ Char)) : codePoints (unitsOf n ++ us) = n :: codePoints us := by
  have hhigh : isHigh n = false := (Bool.or_eq_false_iff.mp h.2).1
  rw [unitsOf]
  split_ifs with hshort hcontrol hprint hsmall
  · change (Char.ofNat n).toNat :: codePoints us = n :: codePoints us
    rw [toNat_ofNat (by omega)]
  · exact codePoints_unit hhigh us
  · change (Char.ofNat n).toNat :: codePoints us = n :: codePoints us
    rw [toNat_ofNat (by omega)]
  · exact codePoints_unit hhigh us
  · -- A pair of surrogates, which are joined.
    have hpair : (isHigh (0xd800 + (n - 0x10000) / 1024) &&
        isLow (0xdc00 + (n - 0x10000) % 1024)) = true := by
      simp only [isHigh, isLow, Bool.and_eq_true, decide_eq_true_eq]
      omega
    have hjoined : 0x10000 + (0xd800 + (n - 0x10000) / 1024 - 0xd800) * 1024 +
        (0xdc00 + (n - 0x10000) % 1024 - 0xdc00) = n := by omega
    simp only [List.cons_append, List.nil_append]
    rw [codePoints, if_pos hpair, hjoined]

theorem jsonUnits_string (hstyle : style.ascii = true) {s : Str} (h : Scalar s) (rest : List Char) :
    ∃ us, jsonUnits (letters (s.flatMap (escape style)) ++ '"' :: rest) = some (us, rest) ∧
      codePoints us = s := by
  induction s with
  | nil => exact ⟨[], rfl, rfl⟩
  | cons n s ih =>
    obtain ⟨us, hread, hpoints⟩ := ih (fun m hm => h m (List.mem_cons_of_mem n hm))
    have hn := h n List.mem_cons_self
    refine ⟨unitsOf n ++ us, ?_, ?_⟩
    · rw [List.flatMap_cons, letters_append, List.append_assoc,
        jsonUnits_escape_append hstyle hn.1, hread]
      rfl
    · rw [codePoints_unitsOf hn, hpoints]

theorem letters_quoted (s : Str) (rest : List Char) :
    letters (quoted style s) ++ rest = '"' :: (letters (s.flatMap (escape style)) ++ '"' :: rest) := by
  rw [quoted, letters_append, letters_append, List.append_assoc, List.append_assoc]
  rfl

end Strings

/-! Values. -/
section Values

variable {limits : Limits} {ε : Type} {hooks : Hooks ε}

theorem skipSpace_mark {c : Char} (h : isJsonSpace c = false) (w : List Char) :
    skipSpace (c :: w) = c :: w := by
  rw [skipSpace, List.dropWhile_cons, h]
  rfl

structure ReadsBack (limits : Limits) (hooks : Hooks ε) (steps depth : ℕ) (w : Str) (value : Value) :
    Prop where
  reads : ∀ (n : ℕ) (rest : List Char), steps ≤ n → Closes rest →
    PyDocument.readValue limits hooks n depth (letters w ++ rest) = .ok (value, rest)
  starts : ∃ c u, letters w = c :: u ∧ isJsonSpace c = false

theorem ReadsBack.skip {steps depth : ℕ} {w : Str} {value : Value}
    (h : ReadsBack limits hooks steps depth w value) (rest : List Char) :
    skipSpace (letters w ++ rest) = letters w ++ rest := by
  obtain ⟨c, u, hw, hc⟩ := h.starts
  rw [hw, List.cons_append]
  exact skipSpace_mark hc _

theorem ReadsBack.mono {steps steps' depth : ℕ} {w : Str} {value : Value}
    (h : ReadsBack limits hooks steps depth w value) (hle : steps ≤ steps') :
    ReadsBack limits hooks steps' depth w value where
  reads n rest hn hrest := h.reads n rest (by omega) hrest
  starts := h.starts

theorem readsBack_null (depth : ℕ) : ReadsBack limits hooks 1 depth (text "null") .null where
  reads n rest hn hrest := by
    obtain ⟨k, rfl⟩ : ∃ k, n = k + 1 := ⟨n - 1, by omega⟩
    have hletters : letters (text "null") = ['n', 'u', 'l', 'l'] := rfl
    rw [hletters]
    rfl
  starts := ⟨'n', ['u', 'l', 'l'], rfl, rfl⟩

theorem readsBack_string {style : Style} (hstyle : style.ascii = true) {s : Str} (h : Scalar s)
    (depth : ℕ) : ReadsBack limits hooks 1 depth (quoted style s) (.str s) where
  reads n rest hn hrest := by
    obtain ⟨k, rfl⟩ : ∃ k, n = k + 1 := ⟨n - 1, by omega⟩
    obtain ⟨us, hread, hpoints⟩ := jsonUnits_string hstyle h rest
    rw [letters_quoted, PyDocument.readValue, hread]
    simp only [hpoints]
  starts := ⟨'"', letters (s.flatMap (escape style) ++ [0x22]), rfl, rfl⟩

theorem letters_digits (m : ℕ) : letters ((Nat.toDigits 10 m).map Char.toNat) = Nat.toDigits 10 m :=
  letters_toNat _

theorem digits_start (m : ℕ) : ∃ d ds, Nat.toDigits 10 m = d :: ds ∧ PyJson.isDigit d = true := by
  obtain ⟨d, ds, hds⟩ := List.exists_cons_of_ne_nil (Nat.toDigits_ne_nil (b := 10) (n := m))
  exact ⟨d, ds, hds, isDigit_toDigits (by rw [hds]; exact List.mem_cons_self)⟩

theorem readsBack_nat {m : ℕ} (h : ∀ limit ∈ limits.maxDigits, (Nat.toDigits 10 m).length ≤ limit)
    (depth : ℕ) :
    ReadsBack limits hooks 1 depth ((Nat.toDigits 10 m).map Char.toNat) (.int m) where
  reads n rest hn hrest := by
    obtain ⟨k, rfl⟩ : ∃ k, n = k + 1 := ⟨n - 1, by omega⟩
    obtain ⟨d, ds, hds, hd⟩ := digits_start m
    have hne : ∀ c, PyJson.isDigit c = false → d ≠ c := by
      rintro c hc rfl
      rw [hd] at hc
      cases hc
    have hnumeral := numeral_toDigits_append m hrest
    have hliterals : literals.find? (fun p => p.1.isPrefixOf (d :: (ds ++ rest))) = none := by
      have hn := (hne 'n' rfl).symm
      have ht := (hne 't' rfl).symm
      have hf := (hne 'f' rfl).symm
      simp [literals, hn, ht, hf]
    have hnonfinite : nonfinite.find? (·.isPrefixOf (d :: (ds ++ rest))) = none := by
      have hN := (hne 'N' rfl).symm
      have hI := (hne 'I' rfl).symm
      have hminus := (hne '-' rfl).symm
      simp [nonfinite, hN, hI, hminus]
    have hnumber : (PyDocument.number limits ⟨false, Nat.toDigits 10 m, [], none⟩ :
        Except (DecodeError ε) Value) = .ok (.int m) := by
      have hdigits : ¬ limits.maxDigits.any (· < (Nat.toDigits 10 m).length) = true := by
        rw [Option.any_eq_true]
        rintro ⟨limit, hmem, hlt⟩
        have hle := h limit hmem
        have hlt := of_decide_eq_true hlt
        omega
      have hvalue : Numeral.toInt ⟨false, Nat.toDigits 10 m, [], none⟩ = (m : ℤ) := by
        simp [Numeral.toInt, natOf_toDigits]
      have hinteger : Numeral.isInteger ⟨false, Nat.toDigits 10 m, [], none⟩ = true := rfl
      rw [PyDocument.number, if_pos hinteger, if_neg hdigits, hvalue]
    rw [letters_digits, hds, List.cons_append, PyDocument.readValue]
    · rw [hds, List.cons_append] at hnumeral
      rw [← hds] at hnumeral
      rw [scalar, hliterals, hnonfinite, hnumeral]
      simp only [hnumber]
      rfl
    · intro body hbody
      exact absurd (List.cons.inj hbody).1 (hne '"' rfl)
    · intro body hbody
      exact absurd (List.cons.inj hbody).1 (hne '[' rfl)
    · intro body hbody
      exact absurd (List.cons.inj hbody).1 (hne '{' rfl)
  starts := by
    obtain ⟨d, ds, hds, hd⟩ := digits_start m
    refine ⟨d, ds, by rw [letters_digits, hds], ?_⟩
    by_contra hspace
    simp only [isJsonSpace, Bool.not_eq_false, Bool.or_eq_true, decide_eq_true_eq] at hspace
    rcases hspace with ((rfl | rfl) | rfl) | rfl <;> exact absurd hd (by decide)

end Values

/-! Objects. -/
section Objects

variable {limits : Limits} {style : Style} {ε : Type} {hooks : Hooks ε}

structure Entry where
  name : Str
  value : Value
  written : Str

def Entry.text (style : Style) (e : Entry) : Str := quoted style e.name ++ [0x3a] ++ e.written

def membersText (style : Style) (entries : List Entry) : Str := joined (entries.map (Entry.text style))

def objectText (style : Style) (entries : List Entry) : Str :=
  [0x7b] ++ membersText style entries ++ [0x7d]

def asRecord (entries : List Entry) : List (Key × Value) := entries.map (fun e => (.str e.name, e.value))

theorem membersText_singleton (e : Entry) : membersText style [e] = e.text style := by
  rw [membersText, List.map_singleton, joined, List.intercalate_singleton]

theorem membersText_cons_cons (e f : Entry) (entries : List Entry) :
    membersText style (e :: f :: entries) = e.text style ++ 0x2c :: membersText style (f :: entries) := by
  rw [membersText, List.map_cons, List.map_cons, joined, List.intercalate_cons_cons]
  simp [membersText, joined]

theorem letters_text (e : Entry) (rest : List Char) : letters (e.text style) ++ rest =
    '"' :: (letters (e.name.flatMap (escape style)) ++ '"' :: ':' :: (letters e.written ++ rest)) := by
  rw [Entry.text, letters_append, letters_append, List.append_assoc, List.append_assoc,
    letters_quoted]
  rfl

theorem members_start (style : Style) (e : Entry) (entries : List Entry) (rest : List Char) :
    ∃ body, letters (membersText style (e :: entries)) ++ '}' :: rest = '"' :: body := by
  cases entries with
  | nil =>
    rw [membersText_singleton, letters_text]
    exact ⟨_, rfl⟩
  | cons f entries =>
    rw [membersText_cons_cons, letters_append, List.append_assoc, letters_text]
    exact ⟨_, rfl⟩

theorem dumpMembers_entries {depth : ℕ} {entries : List Entry}
    (h : ∀ e ∈ entries, dumps limits style depth e.value = .ok e.written) :
    dumpMembers limits style depth (asRecord entries) = .ok (entries.map (Entry.text style)) := by
  induction entries with
  | nil => rfl
  | cons e entries ih =>
    rw [asRecord, List.map_cons, dumpMembers, keyText, h e List.mem_cons_self]
    rw [asRecord] at ih
    rw [ih (fun f hf => h f (List.mem_cons_of_mem e hf))]
    rfl

theorem dumps_object {depth : ℕ} {entries : List Entry} (hnesting : depth < limits.nesting)
    (h : ∀ e ∈ entries, dumps limits style (depth + 1) e.value = .ok e.written) :
    dumps limits style depth (.dict (asRecord entries)) = .ok (objectText style entries) := by
  rw [dumps, if_neg (by omega), dumpMembers_entries h]
  rfl

theorem readMembers_entries (hstyle : style.ascii = true) {steps depth : ℕ} {e : Entry}
    {entries : List Entry} (hnames : ∀ f ∈ e :: entries, Scalar f.name)
    (h : ∀ f ∈ e :: entries, ReadsBack limits hooks steps depth f.written f.value)
    (rest : List Char) {n : ℕ} (hn : steps + entries.length < n) :
    PyDocument.readMembers limits hooks n depth
        (letters (membersText style (e :: entries)) ++ '}' :: rest) =
      .ok ((e :: entries).map (fun f => (f.name, f.value)), rest) := by
  induction entries generalizing e n with
  | nil =>
    obtain ⟨k, rfl⟩ : ∃ k, n = k + 1 := ⟨n - 1, by omega⟩
    have hvalue := h e List.mem_cons_self
    obtain ⟨us, hread, hpoints⟩ := jsonUnits_string hstyle (hnames e List.mem_cons_self)
      (':' :: (letters e.written ++ '}' :: rest))
    rw [membersText_singleton, letters_text, PyDocument.readMembers, hread]
    simp only
    rw [skipSpace_mark rfl]
    simp only
    rw [hvalue.skip, hvalue.reads k _ (by omega) (closes_cons (by decide) rest), hpoints]
    simp only [bind, Except.bind]
    rw [skipSpace_mark rfl]
    rfl
  | cons f entries ih =>
    obtain ⟨k, rfl⟩ : ∃ k, n = k + 1 := ⟨n - 1, by omega⟩
    have hvalue := h e List.mem_cons_self
    have hmembers : letters (membersText style (e :: f :: entries)) ++ '}' :: rest =
        letters (e.text style) ++ ',' :: (letters (membersText style (f :: entries)) ++ '}' :: rest) := by
      rw [membersText_cons_cons, letters_append, List.append_assoc]
      rfl
    have hnext := ih (n := k) (fun g hg => hnames g (List.mem_cons_of_mem e hg))
      (fun g hg => h g (List.mem_cons_of_mem e hg))
      (by simp only [List.length_cons] at hn; omega)
    obtain ⟨w, hw⟩ := members_start style f entries rest
    obtain ⟨us, hread, hpoints⟩ := jsonUnits_string hstyle (hnames e List.mem_cons_self)
      (':' :: (letters e.written ++ ',' :: (letters (membersText style (f :: entries)) ++ '}' :: rest)))
    rw [hmembers, letters_text, PyDocument.readMembers, hread]
    simp only
    rw [skipSpace_mark rfl]
    simp only
    rw [hvalue.skip, hvalue.reads k _ (by omega) (closes_cons (by decide) _), hpoints]
    simp only [bind, Except.bind]
    rw [skipSpace_mark rfl]
    simp only
    rw [hw, skipSpace_mark rfl, ← hw, hnext]
    rfl

theorem readValue_object {n depth : ℕ} (hnesting : depth < limits.nesting) (body : List Char) :
    PyDocument.readValue limits hooks (n + 1) depth ('{' :: '"' :: body) = (do
      let (members, rest) ← PyDocument.readMembers limits hooks n (depth + 1) ('"' :: body)
      return (← called (hooks.pairs members), rest)) := by
  rw [PyDocument.readValue, if_neg (by omega), skipSpace_mark rfl]
  rfl

theorem readsBack_object (hstyle : style.ascii = true) {steps depth : ℕ}
    (hnesting : depth < limits.nesting) {entries : List Entry} (hne : entries ≠ [])
    (hnames : ∀ e ∈ entries, Scalar e.name)
    (h : ∀ e ∈ entries, ReadsBack limits hooks steps (depth + 1) e.written e.value) {value : Value}
    (hpairs : hooks.pairs (entries.map (fun e => (e.name, e.value))) = .ok value) :
    ReadsBack limits hooks (steps + entries.length + 1) depth (objectText style entries) value where
  reads n rest hn hrest := by
    obtain ⟨e, entries, rfl⟩ := List.exists_cons_of_ne_nil hne
    obtain ⟨k, rfl⟩ : ∃ k, n = k + 1 := ⟨n - 1, by omega⟩
    have hbrace : letters (objectText style (e :: entries)) ++ rest =
        '{' :: (letters (membersText style (e :: entries)) ++ '}' :: rest) := by
      rw [objectText, letters_append, letters_append, List.append_assoc, List.append_assoc]
      rfl
    obtain ⟨body, hbody⟩ := members_start style e entries rest
    have hread := readMembers_entries hstyle hnames h rest (n := k)
      (by simp only [List.length_cons] at hn; omega)
    rw [hbody] at hread
    rw [hbrace, hbody, readValue_object hnesting, hread]
    simp only [bind, Except.bind, called, hpairs, Except.mapError]
    rfl
  starts := ⟨'{', letters (membersText style entries ++ [0x7d]), rfl, rfl⟩

theorem loads_readsBack {steps : ℕ} {w : Str} {value : Value}
    (h : ReadsBack limits hooks steps 0 w value) (hsteps : steps ≤ w.length + 1) :
    PyDocument.loads limits hooks (letters w) = .ok value := by
  have hskip := h.skip []
  have hread := h.reads ((letters w).length + 1) [] (by rw [letters, List.length_map]; exact hsteps)
    (fun c hc => by cases hc)
  rw [List.append_nil] at hskip hread
  rw [PyDocument.loads, hskip, hread]
  rfl

end Objects

/-! Bytes. -/
section Ascii

theorem isSurrogate_ascii {s : Str} (h : ∀ n ∈ s, n < 0x7f) : s.any isSurrogate = false := by
  rw [List.any_eq_false]
  intro n hn
  have hascii := h n hn
  simp only [isSurrogate, isHigh, isLow, Bool.or_eq_true, Bool.and_eq_true, decide_eq_true_eq]
  omega

theorem encodeUtf8_ascii {s : Str} (h : ∀ n ∈ s, n < 0x7f) :
    encodeUtf8 s = some (encodeChars (letters s)) := by
  rw [encodeUtf8, isSurrogate_ascii h]
  rfl

theorem length_encodeChars_ascii {s : Str} (h : ∀ n ∈ s, n < 0x7f) :
    (encodeChars (letters s)).length = s.length := by
  induction s with
  | nil => rfl
  | cons n s ih =>
    have hsize : (Char.ofNat n).utf8Size = 1 := by
      have hlow := h n List.mem_cons_self
      have hn : (Char.ofNat n).toNat = n := toNat_ofNat (by omega)
      rw [Char.utf8Size_eq_one_iff, UInt32.le_iff_toNat_le]
      change (Char.ofNat n).toNat ≤ 127
      omega
    have hrest := ih (fun m hm => h m (List.mem_cons_of_mem n hm))
    change (String.utf8EncodeChar (Char.ofNat n) ++ encodeChars (letters s)).length = s.length + 1
    rw [List.length_append, String.length_utf8EncodeChar, hsize, hrest]
    omega

theorem mem_of_mem_intercalate {sep : Str} {parts : List Str} {n : ℕ}
    (h : n ∈ sep.intercalate parts) : n ∈ sep ∨ ∃ part ∈ parts, n ∈ part := by
  induction parts with
  | nil => simp at h
  | cons part parts ih =>
    cases parts with
    | nil =>
      rw [List.intercalate_singleton] at h
      exact .inr ⟨part, List.mem_cons_self, h⟩
    | cons next parts =>
      rw [List.intercalate_cons_cons, List.mem_append, List.mem_append] at h
      rcases h with (h | h) | h
      · exact .inr ⟨part, List.mem_cons_self, h⟩
      · exact .inl h
      · rcases ih h with h | ⟨other, hother, h⟩
        · exact .inl h
        · exact .inr ⟨other, List.mem_cons_of_mem part hother, h⟩

theorem ascii_digits (m : ℕ) : ∀ n ∈ (Nat.toDigits 10 m).map Char.toNat, n < 0x7f := by
  intro n hn
  obtain ⟨c, hc, rfl⟩ := List.mem_map.mp hn
  have hdigit := isDigit_toDigits hc
  simp only [PyJson.isDigit, Bool.and_eq_true, decide_eq_true_eq] at hdigit
  have hle : c.toNat ≤ '9'.toNat := hdigit.2
  have hnine : '9'.toNat = 57 := rfl
  omega

theorem ascii_object {style : Style} (hstyle : style.ascii = true) {entries : List Entry}
    (h : ∀ e ∈ entries, ∀ n ∈ e.written, n < 0x7f) : ∀ n ∈ objectText style entries, n < 0x7f := by
  have hone : ∀ e ∈ entries, ∀ n ∈ e.text style, n < 0x7f := by
    intro e he n hn
    simp only [Entry.text, List.mem_append, List.mem_singleton] at hn
    rcases hn with (hn | rfl) | hn
    · exact ascii_quoted hstyle e.name n hn
    · omega
    · exact h e he n hn
  intro n hn
  simp only [objectText, List.mem_append, List.mem_singleton] at hn
  rcases hn with (rfl | hn) | rfl
  · omega
  · -- A character stands in a member or between two.
    rcases mem_of_mem_intercalate hn with hn | ⟨part, hpart, hn⟩
    · rw [List.mem_singleton.mp hn]
      omega
    · obtain ⟨e, he, rfl⟩ := List.mem_map.mp hpart
      exact hone e he n hn
  · omega

end Ascii
end PyDocument
