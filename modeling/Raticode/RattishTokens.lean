import Raticode.RattishSpans

/-! The scanner of predicates turn by turn: which texts it comes to the end of, and what
its tokens are. -/
namespace Raticode.Rattish
open PyText (isSpace)

structure Scanner where
  index : ℕ
  rest : Text
  tokens : Tokens

def tokenAt (c : Char) (cs : Text) : Bool × Text :=
  match predicateSymbols.find? (fun symbol => symbol.isPrefixOf (c :: cs)) with
  | some symbol => (false, symbol)
  | none =>
    if c = '"' then (true, '"' :: quotedTail false cs)
    else (false, (c :: cs).takeWhile isPredicateWord)

namespace Scanner

/-- One turn of the loop of `_tokenize`. -/
def turn (s : Scanner) : Scanner :=
  match s.rest with
  | [] => s
  | c :: cs =>
    if isSpace c then ⟨s.index + 1, cs, s.tokens⟩
    else
      let (quoted, value) := tokenAt c cs
      let stop := s.index + value.length
      ⟨stop, (c :: cs).drop value.length, s.tokens ++ [⟨quoted, value, s.index, stop⟩]⟩

/-- The loop of `_tokenize`, `none` where the turns do not reach the end of the text. -/
def run : ℕ → Scanner → Option Tokens
  | 0, s => if s.rest = [] then some s.tokens else none
  | n + 1, s => if s.rest = [] then some s.tokens else run n s.turn

end Scanner

/-- Where the scanner stands between two characters: outside of words, in a word, inside
quotes, or behind the first character of an operator, which may have to be followed by `=`. -/
inductive ScanMode where
  | outside
  | word
  | quoted (escaped : Bool)
  | sign (half : Bool)

def ScanMode.enter (inWord : Bool) (c : Char) : ScanMode :=
  if c = '=' || c = '!' then .sign true
  else if c = '<' || c = '>' then .sign false
  else if c = '"' && !inWord then .quoted false
  else if isPredicateWord c then .word
  else .outside

/-- Outside quotes every `!` and every `=` is part of a two-character operator, with the
operators read from left to right. -/
def operatorsWhole : ScanMode → Text → Bool
  | .sign half, [] => !half
  | _, [] => true
  | .outside, c :: cs => operatorsWhole (.enter false c) cs
  | .word, c :: cs => operatorsWhole (.enter true c) cs
  | .quoted escaped, c :: cs =>
    if escaped then operatorsWhole (.quoted false) cs
    else if c = '\\' then operatorsWhole (.quoted true) cs
    else if c = '"' then operatorsWhole .outside cs
    else operatorsWhole (.quoted false) cs
  | .sign half, c :: cs =>
    if c = '=' then operatorsWhole .outside cs
    else if half then false
    else operatorsWhole (.enter false c) cs

example : operatorsWhole .outside "input.a <= \"a = b\"".toList = true := by decide +kernel

example : operatorsWhole .outside "input.a === 1".toList = false := by decide +kernel

theorem operatorsWhole_quoted (escaped : Bool) (cs : Text) :
    operatorsWhole (.quoted escaped) cs =
      operatorsWhole .outside (cs.drop (quotedTail escaped cs).length) := by
  induction cs generalizing escaped with
  | nil => rfl
  | cons c cs ih =>
    cases escaped with
    | true => simpa [operatorsWhole, quotedTail] using ih false
    | false =>
      by_cases hslash : c = '\\'
      · simpa [operatorsWhole, quotedTail, hslash] using ih true
      · by_cases hquote : c = '"'
        · simp [operatorsWhole, quotedTail, hquote]
        · simpa [operatorsWhole, quotedTail, hslash, hquote] using ih false

theorem enter_of_word {c : Char} (hword : isPredicateWord c = true) (inWord : Bool)
    (hquote : c = '"' → inWord = true) : ScanMode.enter inWord c = .word := by
  have hout : c ∉ "()<>!=".toList := by
    simp only [isPredicateWord, Bool.and_eq_true, Bool.not_eq_true', List.contains_eq_mem,
      decide_eq_false_iff_not] at hword
    exact hword.2
  have hsigns : (c = '(' ∨ c = ')' ∨ c = '<' ∨ c = '>' ∨ c = '!' ∨ c = '=') → False := by
    simpa using hout
  grind [ScanMode.enter]

theorem enter_of_not_word {c : Char} (hword : isPredicateWord c = false) (inWord : Bool) :
    ScanMode.enter inWord c = ScanMode.enter false c := by
  have hquote : c ≠ '"' := by
    intro he
    rw [he] at hword
    exact absurd hword (by decide)
  simp [ScanMode.enter, hquote]

theorem operatorsWhole_word (cs : Text) : operatorsWhole .word cs =
    operatorsWhole .outside (cs.drop (cs.takeWhile isPredicateWord).length) := by
  induction cs with
  | nil => rfl
  | cons c cs ih =>
    cases hword : isPredicateWord c with
    | true =>
      rw [List.takeWhile_cons_of_pos hword, List.length_cons, List.drop_succ_cons, ← ih,
        operatorsWhole, enter_of_word hword true (fun _ => rfl)]
    | false =>
      rw [List.takeWhile_cons_of_neg (by simp [hword]), List.length_nil, List.drop_zero,
        operatorsWhole, operatorsWhole, enter_of_not_word hword]

theorem tokenAt_plain {c : Char} {cs : Text}
    (hsign : c ∉ ['<', '>', '=', '!', '(', ')']) :
    tokenAt c cs = if c = '"' then (true, '"' :: quotedTail false cs)
      else (false, (c :: cs).takeWhile isPredicateWord) := by
  simp only [List.mem_cons, List.not_mem_nil, or_false, not_or] at hsign
  have hnone : predicateSymbols.find? (fun symbol => symbol.isPrefixOf (c :: cs)) = none := by
    simp [predicateSymbols, List.isPrefixOf, hsign, Ne.symm]
  rw [tokenAt, hnone]

theorem tokenAt_spec {c : Char} {cs : Text} (hspace : isSpace c = false) :
    (tokenAt c cs).2 <+: c :: cs ∧
      operatorsWhole .outside (c :: cs) = (!(tokenAt c cs).2.isEmpty &&
        operatorsWhole .outside ((c :: cs).drop (tokenAt c cs).2.length)) := by
  by_cases hsign : c ∈ ['<', '>', '=', '!', '(', ')']
  · simp only [List.mem_cons, List.not_mem_nil, or_false] at hsign
    by_cases hequals : cs.head? = some '='
    · obtain ⟨ds, rfl⟩ : ∃ ds, cs = '=' :: ds := by
        cases cs with
        | nil => simp at hequals
        | cons d ds =>
          obtain rfl : d = '=' := by simpa using hequals
          exact ⟨ds, rfl⟩
      obtain rfl | rfl | rfl | rfl | rfl | rfl := hsign <;>
        simp [tokenAt, predicateSymbols, List.isPrefixOf, operatorsWhole, ScanMode.enter,
          isPredicateWord]
    · cases cs with
      | nil =>
        obtain rfl | rfl | rfl | rfl | rfl | rfl := hsign <;>
          simp [tokenAt, predicateSymbols, List.isPrefixOf, operatorsWhole, ScanMode.enter,
            isPredicateWord]
      | cons d ds =>
        have hne : d ≠ '=' := by simpa using hequals
        obtain rfl | rfl | rfl | rfl | rfl | rfl := hsign <;>
          simp [tokenAt, predicateSymbols, List.isPrefixOf, operatorsWhole, ScanMode.enter,
            isPredicateWord, hne, Ne.symm hne]
  · rw [tokenAt_plain hsign]
    have hword : isPredicateWord c = true := by
      simp only [List.mem_cons, List.not_mem_nil, or_false, not_or] at hsign
      simp [isPredicateWord, hspace, hsign]
    by_cases hquote : c = '"'
    · rw [if_pos hquote, hquote]
      refine ⟨List.cons_prefix_cons.mpr ⟨rfl, quotedTail_prefix false cs⟩, ?_⟩
      have henter : ScanMode.enter false '"' = .quoted false := by simp [ScanMode.enter]
      simp [operatorsWhole, henter, operatorsWhole_quoted false cs]
    · rw [if_neg hquote]
      refine ⟨List.takeWhile_prefix _, ?_⟩
      have henter := enter_of_word hword false (fun he => absurd he hquote)
      simp [operatorsWhole, henter, operatorsWhole_word cs, List.takeWhile_cons_of_pos hword]

/-- What the tokens of a text up to an index have to be: not empty, one behind the other, each
the text between its ends, and over every character that is not blank. -/
structure Tokenized (text : Text) (stop : ℕ) (tokens : Tokens) : Prop where
  nonempty : ∀ t ∈ tokens, t.startIndex < t.endIndex
  within : ∀ t ∈ tokens, t.endIndex ≤ stop
  value : ∀ t ∈ tokens, t.value = (text.drop t.startIndex).take (t.endIndex - t.startIndex)
  ordered : tokens.Pairwise fun a b => a.endIndex ≤ b.startIndex
  covered : ∀ i < stop, ∀ c, text[i]? = some c → isSpace c = false →
    ∃ t ∈ tokens, t.startIndex ≤ i ∧ i < t.endIndex

section Turns
variable {text : Text} {s : Scanner}

theorem Tokenized.space {index : ℕ} {tokens : Tokens} {c : Char} (h : Tokenized text index tokens)
    (hc : text[index]? = some c) (hspace : isSpace c = true) :
    Tokenized text (index + 1) tokens := by
  refine ⟨h.nonempty, fun t ht => (h.within t ht).trans (Nat.le_succ _), h.value, h.ordered, ?_⟩
  intro i hi d hd hblank
  have hne : i ≠ index := by
    intro he
    rw [he, hc] at hd
    obtain rfl := Option.some.inj hd
    rw [hspace] at hblank
    contradiction
  exact h.covered i (by omega) d hd hblank

theorem Tokenized.token {index : ℕ} {tokens : Tokens} {value : Text} (quoted : Bool)
    (h : Tokenized text index tokens) (hvalue : value <+: text.drop index) (hne : value ≠ []) :
    Tokenized text (index + value.length)
      (tokens ++ [⟨quoted, value, index, index + value.length⟩]) := by
  have hpos : 0 < value.length := List.length_pos_iff.mpr hne
  refine ⟨?_, ?_, ?_, ?_, ?_⟩
  · intro t ht
    obtain ht | ht := List.mem_append.mp ht
    · exact h.nonempty t ht
    · obtain rfl := List.mem_singleton.mp ht
      exact Nat.lt_add_of_pos_right hpos
  · intro t ht
    obtain ht | ht := List.mem_append.mp ht
    · exact (h.within t ht).trans (Nat.le_add_right ..)
    · obtain rfl := List.mem_singleton.mp ht
      exact le_refl _
  · intro t ht
    obtain ht | ht := List.mem_append.mp ht
    · exact h.value t ht
    · obtain rfl := List.mem_singleton.mp ht
      rw [Nat.add_sub_cancel_left]
      exact List.prefix_iff_eq_take.mp hvalue
  · refine List.pairwise_append.mpr ⟨h.ordered, List.pairwise_singleton .., ?_⟩
    intro a ha b hb
    obtain rfl := List.mem_singleton.mp hb
    exact h.within a ha
  · intro i hi c hc hblank
    by_cases hold : i < index
    · obtain ⟨t, ht, hover⟩ := h.covered i hold c hc hblank
      exact ⟨t, List.mem_append_left _ ht, hover⟩
    · exact ⟨_, List.mem_append_right _ List.mem_cons_self, Nat.le_of_not_lt hold, hi⟩

structure Scanner.Scanned (text : Text) (s : Scanner) : Prop where
  le : s.index ≤ text.length
  rest : s.rest = text.drop s.index
  tokens : Tokenized text s.index s.tokens

theorem operatorsWhole_turn (s : Scanner) :
    operatorsWhole .outside s.turn.rest = operatorsWhole .outside s.rest := by
  cases hrest : s.rest with
  | nil => simp only [Scanner.turn, hrest]
  | cons c cs =>
    simp only [Scanner.turn, hrest]
    split_ifs with hspace
    · have hword : isPredicateWord c = false := by simp [isPredicateWord, hspace]
      have henter : ScanMode.enter false c = .outside := by
        have hsigns : (['=', '!', '<', '>', '"'].all fun d => !isSpace d) = true := by decide
        simp only [List.all_cons, Bool.and_eq_true, Bool.not_eq_true'] at hsigns
        grind [ScanMode.enter]
      rw [operatorsWhole, henter]
    · obtain ⟨-, hwhole⟩ := tokenAt_spec (Bool.eq_false_iff.mpr hspace)
      cases hempty : (tokenAt c cs).2.isEmpty with
      | true =>
        have hnil : (tokenAt c cs).2 = [] := List.isEmpty_iff.mp hempty
        simp [hnil]
      | false =>
        rw [hempty, Bool.not_false, Bool.true_and] at hwhole
        exact hwhole.symm

theorem Scanner.Scanned.turn {c : Char} {cs : Text} (h : s.Scanned text) (hrest : s.rest = c :: cs)
    (hwhole : operatorsWhole .outside s.rest = true) :
    s.turn.Scanned text ∧ s.turn.rest.length < s.rest.length := by
  have hdrop : text.drop s.index = c :: cs := h.rest.symm.trans hrest
  have hc : text[s.index]? = some c := by
    rw [← List.head?_drop, hdrop, List.head?_cons]
  have hlength : (c :: cs).length = text.length - s.index := by
    rw [← hdrop, List.length_drop]
  have hle := h.le
  simp only [Scanner.turn, hrest]
  split_ifs with hspace
  · refine ⟨⟨?_, ?_, h.tokens.space hc hspace⟩, by simp⟩
    · change s.index + 1 ≤ text.length
      rw [List.length_cons] at hlength
      omega
    · rw [← List.tail_drop, hdrop, List.tail_cons]
  · obtain ⟨hstart, heq⟩ := tokenAt_spec (Bool.eq_false_iff.mpr hspace)
    rw [hrest, heq, Bool.and_eq_true, Bool.not_eq_true'] at hwhole
    have hne : (tokenAt c cs).2 ≠ [] := List.isEmpty_eq_false_iff.mp hwhole.1
    have hpos : 0 < (tokenAt c cs).2.length := List.length_pos_iff.mpr hne
    have hshort : (tokenAt c cs).2.length ≤ (c :: cs).length := hstart.length_le
    refine ⟨⟨?_, ?_, ?_⟩, ?_⟩
    · change s.index + (tokenAt c cs).2.length ≤ text.length
      omega
    · rw [← hdrop, List.drop_drop]
    · exact h.tokens.token _ (hdrop ▸ hstart) hne
    · rw [List.length_drop]
      omega

theorem Scanner.Scanned.run (n : ℕ) (h : s.Scanned text)
    (hwhole : operatorsWhole .outside s.rest = true) (hn : s.rest.length ≤ n) :
    ∃ tokens, s.run n = some tokens ∧ Tokenized text text.length tokens := by
  have hend : s.rest = [] → s.index = text.length := by
    intro hnil
    have hle : text.length ≤ s.index := by
      apply List.drop_eq_nil_iff.mp
      rw [← h.rest, hnil]
    exact Nat.le_antisymm h.le hle
  induction n generalizing s with
  | zero =>
    have hnil : s.rest = [] := List.eq_nil_of_length_eq_zero (Nat.le_zero.mp hn)
    exact ⟨s.tokens, by rw [Scanner.run, if_pos hnil], hend hnil ▸ h.tokens⟩
  | succ n ih =>
    cases hrest : s.rest with
    | nil => exact ⟨s.tokens, by rw [Scanner.run, if_pos hrest], hend hrest ▸ h.tokens⟩
    | cons c cs =>
      obtain ⟨hturn, hless⟩ := h.turn hrest hwhole
      have hwhole' : operatorsWhole .outside s.turn.rest = true :=
        (operatorsWhole_turn s).trans hwhole
      have hend' : s.turn.rest = [] → s.turn.index = text.length := by
        intro hnil
        have hle : text.length ≤ s.turn.index := by
          apply List.drop_eq_nil_iff.mp
          rw [← hturn.rest, hnil]
        exact Nat.le_antisymm hturn.le hle
      obtain ⟨tokens, hrun, htokens⟩ := ih hturn hwhole' (by omega) hend'
      have hne : s.rest ≠ [] := by rw [hrest]; exact List.cons_ne_nil c cs
      exact ⟨tokens, by rw [Scanner.run, if_neg hne]; exact hrun, htokens⟩

theorem Scanner.run_stuck (n : ℕ) (s : Scanner)
    (hbroken : operatorsWhole .outside s.rest = false) : s.run n = none := by
  have hne : s.rest ≠ [] := by
    intro hnil
    rw [hnil] at hbroken
    contradiction
  induction n generalizing s with
  | zero => rw [Scanner.run, if_neg hne]
  | succ n ih =>
    have hturn : operatorsWhole .outside s.turn.rest = false :=
      (operatorsWhole_turn s).trans hbroken
    have hne' : s.turn.rest ≠ [] := by
      intro hnil
      rw [hnil] at hturn
      contradiction
    rw [Scanner.run, if_neg hne]
    exact ih s.turn hturn hne'

end Turns

def Scanner.start (text : Text) : Scanner := ⟨0, text, []⟩

theorem scanned_start (text : Text) : (Scanner.start text).Scanned text := by
  refine ⟨Nat.zero_le _, rfl, ?_, ?_, ?_, List.Pairwise.nil, ?_⟩
  · exact fun _ ht => absurd ht List.not_mem_nil
  · exact fun _ ht => absurd ht List.not_mem_nil
  · exact fun _ ht => absurd ht List.not_mem_nil
  · exact fun i hi => absurd hi (Nat.not_lt_zero i)

/-- The scanner comes to the end of a text, with tokens as they should be, exactly if every `!`
and `=` of the text outside quotes is part of an operator of two characters. -/
theorem scan_ends_iff (text : Text) :
    (∃ n tokens, (Scanner.start text).run n = some tokens ∧ Tokenized text text.length tokens) ↔
      operatorsWhole .outside text = true := by
  constructor
  · intro h
    obtain ⟨n, tokens, hrun, -⟩ := h
    cases hwhole : operatorsWhole .outside text with
    | true => rfl
    | false =>
      rw [Scanner.run_stuck n (Scanner.start text) hwhole] at hrun
      contradiction
  · intro h
    exact ⟨text.length, (scanned_start text).run text.length h (le_refl _)⟩

section Parser

theorem tokenize_token {n index : ℕ} {c : Char} {cs : Text} (hspace : isSpace c = false)
    (hne : (tokenAt c cs).2 ≠ []) : tokenize (n + 1) index (c :: cs) = (do
      let stop := index + (tokenAt c cs).2.length
      return ⟨(tokenAt c cs).1, (tokenAt c cs).2, index, stop⟩ ::
        (← tokenize n stop ((c :: cs).drop (tokenAt c cs).2.length))) := by
  rw [tokenize, if_neg (by simp [hspace])]
  cases hsymbol : predicateSymbols.find? (fun symbol => symbol.isPrefixOf (c :: cs)) with
  | some symbol => simp only [tokenAt, hsymbol]
  | none =>
    simp only [tokenAt, hsymbol] at hne ⊢
    by_cases hquote : c = '"'
    · simp only [if_pos hquote]
    · rw [if_neg hquote] at hne
      have hword : isPredicateWord c = true := by
        by_contra hnot
        rw [List.takeWhile_cons_of_neg hnot] at hne
        exact hne rfl
      simp only [if_neg hquote, if_pos hword]

end Parser

/-- In `input.count = 1` the scanner takes empty words for ever. -/
theorem scan_endless_equals :
    ¬∃ n tokens, (Scanner.start "input.count = 1".toList).run n = some tokens := by
  intro ⟨n, tokens, hrun⟩
  have hstuck : (Scanner.start "input.count = 1".toList).run n = none :=
    Scanner.run_stuck n _ (by decide +kernel)
  rw [hstuck] at hrun
  contradiction

end Raticode.Rattish
