import Raticode.RattishFidelity

/-! Compact bindings whose value is a literal: when the parser takes it for one. -/
namespace Raticode.Rattish
open Attempt PyText

section Literals
variable {cfg : ParserConfig} {text : Text} {line : SourceLine} {start : ℕ}

/-- The lines from the text on spell the source: it ends on a line on which a comment follows at
most, and lines before that belong to it whole. -/
inductive Spelled : Text → Text → SourceLine → ℕ → List SourceLine → SourcePosition →
    List SourceLine → Prop
  | last {source remainder : Text} {line : SourceLine} {start : ℕ} {lines : List SourceLine} :
      strip remainder = [] ∨ (remainder.dropWhile isSpace).head? = some '#' →
      Spelled source (source ++ remainder) line start lines
        (line.position (start + source.length)) lines
  | next {text more : Text} {line next : SourceLine} {start : ℕ} {lines rest : List SourceLine}
      {stop : SourcePosition} : Spelled more next.text next 0 lines stop rest →
      Spelled (text ++ '\n' :: more) text line start (next :: lines) stop rest

def opens (c : Char) : Prop := c = '[' ∨ c = '\x7b'

def closes (c : Char) : Prop := c = ']' ∨ c = '\x7d'

/-- The value text is one complete JSON string, or the first line of one JSON object or array, with
the node that holds its decoded value and the lines behind it. -/
inductive Literal (cfg : ParserConfig) (text : Text) (line : SourceLine) (start : ℕ) :
    List SourceLine → Ast.Val → List SourceLine → Prop
  | string {lines : List SourceLine} {value : Text} : text.head? = some '"' →
      jsonLoads cfg false text = .ok (.str value) →
      Literal cfg text line start lines
        (.string .quoted text value (line.span start (start + text.length))) lines
  | container {lines rest : List SourceLine} {c b : Char} {body : Text} {stop : SourcePosition}
      {value : PyJson.Json} : opens c → closes b →
      Spelled (c :: (body ++ [b])) text line start lines stop rest →
      jsonLoads cfg true (c :: (body ++ [b])) = .ok value →
      Literal cfg text line start lines
        (.json (c :: (body ++ [b])) (toValue value) ⟨line.position start, stop⟩) rest

theorem scanJson_plain {c : Char} (h : PyJson.isMark c = false) (i d : ℕ) (tail : Text) :
    scanJson i d false false (c :: tail) = scanJson (i + 1) d false false tail := by
  simp only [PyJson.isMark, List.contains_eq_mem, decide_eq_false_iff_not] at h
  have hmark : c ≠ '[' ∧ c ≠ ']' ∧ c ≠ '\x7b' ∧ c ≠ '\x7d' ∧ c ≠ '"' := by
    refine ⟨?_, ?_, ?_, ?_, ?_⟩ <;> rintro rfl <;> exact h (by decide)
  simp [scanJson, hmark]

theorem scanJson_quoted {body : Text} (h : PyJson.QuotedBody body) (i d : ℕ) (tail : Text) :
    scanJson i d true false (body ++ tail) = scanJson (i + body.length) d false false tail := by
  induction h generalizing i with
  | close => simp [scanJson]
  | @escape c w _ ih =>
    have hstep : scanJson i d true false ('\\' :: c :: w ++ tail) =
        scanJson (i + 2) d true false (w ++ tail) := by simp [scanJson]
    rw [hstep, ih, List.length_cons, List.length_cons]
    congr 1
    omega
  | @plain c w hquote hescape _ ih =>
    have hstep : scanJson i d true false (c :: w ++ tail) = scanJson (i + 1) d true false (w ++ tail) := by
      simp [scanJson, hquote, hescape]
    rw [hstep, ih, List.length_cons]
    congr 1
    omega

theorem scanJson_token {t : Text} (h : PyJson.Token t) (i d : ℕ) (tail : Text) :
    scanJson i d false false (t ++ tail) = scanJson (i + t.length) d false false tail := by
  rcases h.level with hplain | ⟨body, rfl, hbody⟩
  · clear h
    induction t generalizing i with
    | nil => rfl
    | cons c t ih =>
      rw [List.cons_append, scanJson_plain (hplain c List.mem_cons_self),
        ih _ (fun b hb => hplain b (List.mem_cons_of_mem _ hb)), List.length_cons]
      congr 1
      omega
  · have hstep : scanJson i d false false ('"' :: body ++ tail) =
        scanJson (i + 1) d true false (body ++ tail) := by simp [scanJson]
    rw [hstep, scanJson_quoted hbody, List.length_cons]
    congr 1
    omega

/-- The scan follows the depth of the brackets and is outside of quotes between tokens. -/
theorem scanJson_tokens {w : Text} {d e : ℕ} (h : PyJson.Tokens d w e) (i : ℕ) (tail : Text) :
    scanJson i d false false (w ++ tail) = scanJson (i + w.length) e false false tail := by
  induction h generalizing i with
  | nil => rfl
  | @space c w d e hc _ ih =>
    have hplain : PyJson.isMark c = false := by
      simp only [isJsonSpace, Bool.or_eq_true, decide_eq_true_eq] at hc
      rcases hc with ((rfl | rfl) | rfl) | rfl <;> decide
    rw [List.cons_append, scanJson_plain hplain, ih, List.length_cons, Nat.add_assoc, Nat.add_comm 1]
  | token ht _ ih =>
    rw [List.append_assoc, scanJson_token ht, ih, List.length_append, Nat.add_assoc]
  | @opening c w d e hc _ ih =>
    have hstep : scanJson i d false false (c :: w ++ tail) =
        scanJson (i + 1) (d + 1) false false (w ++ tail) := by
      rcases hc with rfl | rfl <;> simp [scanJson]
    rw [hstep, ih, List.length_cons, Nat.add_assoc, Nat.add_comm 1]
  | @closing c w d e hc _ ih =>
    have hstep : scanJson i (d + 2) false false (c :: w ++ tail) =
        scanJson (i + 1) (d + 1) false false (w ++ tail) := by
      rcases hc with rfl | rfl <;> simp [scanJson]
    rw [hstep, ih, List.length_cons, Nat.add_assoc, Nat.add_comm 1]

theorem scanJson_closes {body : Text} {b : Char} {d : ℕ} (hb : closes b) (h : PyJson.Tokens d body 1)
    (remainder : Text) : scanJson 0 d false false (body ++ b :: remainder) = .closed (body.length + 1) := by
  rw [scanJson_tokens h]
  rcases hb with rfl | rfl <;> simp [scanJson]

theorem Spelled.more {source text : Text} {lines rest : List SourceLine} {stop : SourcePosition}
    (h : Spelled source text line start lines stop rest) (hne : source ≠ []) {other : SourceLine}
    (hother : other.text = text) : atEofLine (other :: lines) = false := by
  cases h with
  | last =>
    cases lines with
    | nil => simp [atEofLine, hother, hne]
    | cons => rfl
  | next => rfl

/-- The collector takes the lines up to the bracket that closes the container. -/
theorem collectJson_spelled {e : Failure} {source : Text} {lines rest : List SourceLine}
    {stop : SourcePosition} (h : Spelled source text line start lines stop rest) {d : ℕ} {body : Text}
    {b : Char} (hb : closes b) (hsource : source = body ++ [b]) (hbody : PyJson.Tokens d body 1) :
    collectJson cfg e d false false text line start lines = .ok (source, stop) rest := by
  induction h generalizing d body with
  | @last source remainder line start lines hremainder =>
    subst hsource
    have hline : jsonLine cfg d false false (body ++ [b] ++ remainder) line start =
        .ok (.inl (body ++ [b], line.position (start + (body ++ [b]).length))) := by
      have hscan := scanJson_closes hb hbody remainder
      have hend : body.length + 1 = (body ++ [b]).length := by simp
      rw [List.append_cons, hend] at hscan
      simp only [jsonLine, hscan, List.drop_left, List.take_left]
      rw [if_neg]
      simp only [Bool.and_eq_true, decide_eq_true_eq, not_and_or, not_not]
      exact hremainder
    cases lines <;> simp only [collectJson, hline]
  | @next text more line next start lines rest stop hmore ih =>
    obtain ⟨more', rfl, rfl⟩ : ∃ more', more = more' ++ [b] ∧ body = text ++ '\n' :: more' := by
      rcases List.eq_nil_or_concat more with rfl | ⟨more', b', rfl⟩
      · obtain ⟨-, hlast⟩ := List.append_inj' hsource rfl
        obtain rfl : '\n' = b := List.singleton_injective hlast
        rcases hb with hb | hb <;> cases hb
      · rw [List.concat_eq_append, ← List.cons_append, ← List.append_assoc] at hsource
        obtain ⟨hfirst, hlast⟩ := List.append_inj' hsource rfl
        exact ⟨more', by rw [List.concat_eq_append, hlast], hfirst.symm⟩
    obtain ⟨m, hfirst, hlater⟩ := hbody.of_newline
    have hscan : scanJson 0 d false false text = .pending m false false := by
      have htokens := scanJson_tokens hfirst 0 []
      rw [List.append_nil] at htokens
      rw [htokens, scanJson]
    have hopen : atEofLine (next :: lines) = false := hmore.more (by simp) rfl
    simp only [collectJson, jsonLine, hscan, hopen, ih rfl hlater, Bool.false_eq_true, if_false]

theorem Spelled.head {c : Char} {source : Text} {lines rest : List SourceLine} {stop : SourcePosition}
    (h : Spelled (c :: source) text line start lines stop rest) (hc : opens c) : text.head? = some c := by
  generalize hw : c :: source = w at h
  cases h with
  | last =>
    subst hw
    rfl
  | next =>
    cases text with
    | nil =>
      obtain ⟨rfl, -⟩ := List.cons.inj hw
      rcases hc with hc | hc <;> cases hc
    | cons a text =>
      obtain ⟨rfl, -⟩ := List.cons.inj hw
      rfl

theorem parseInlineValue_literal {lines rest : List SourceLine} {v : Ast.Val}
    (h : Literal cfg text line start lines v rest) :
    parseInlineValue cfg text line start lines = .ok v rest := by
  cases h with
  | string hquote hvalue =>
    simp only [parseInlineValue, hquote, hvalue]
    rfl
  | container hopen hclose hspelled hvalue =>
    have hhead := hspelled.head hopen
    have hparse : parseInlineValue cfg text line start = parseJson cfg text line start := by
      obtain rfl | rfl := hopen
      · simp only [parseInlineValue, hhead]
      · simp only [parseInlineValue, hhead]
    rw [hparse]
    simp only [parseJson]
    have hbody := PyJson.Tokens.opening hopen (PyJson.tokens_of_container hopen hclose hvalue)
    rw [run_bind_ok (collectJson_spelled hspelled hclose rfl hbody)]
    simp only [hvalue]
    rfl

theorem literal_lost {lines rest rest' : List SourceLine} {v : Ast.Val}
    (h : Literal cfg text line start lines v rest) (hlooks : looksLikeExpression cfg text = true) :
    parseBindingValue cfg text line start lines ≠ .ok v rest' := by
  intro hparse
  rw [parseBindingValue, if_pos hlooks] at hparse
  cases hpredicate : parsePredicate cfg text line start false with
  | error e =>
    simp only [lift, hpredicate] at hparse
    cases hparse
  | ok predicate =>
    simp only [lift, hpredicate] at hparse
    cases hparse
    cases h

/-- A compact binding of a literal holds its decoded value exactly if nothing in the text of its
first line, quoted or not, looks like an operator of a condition. -/
theorem compact_literal_iff {lines rest : List SourceLine} {v : Ast.Val}
    (h : Literal cfg text line start lines v rest) :
    parseBindingValue cfg text line start lines = .ok v rest ↔
      looksLikeExpression cfg text = false := by
  constructor
  · intro hparse
    rw [← Bool.not_eq_true]
    intro hlooks
    exact literal_lost h hlooks hparse
  · intro hplain
    rw [parseBindingValue, if_neg (by simp [hplain])]
    exact parseInlineValue_literal h

end Literals

section Example

/-- The line `who: "you and me"`. -/
def whoLine : SourceLine where
  number := 5
  text := ['w', 'h', 'o', ':', ' ', '"', 'y', 'o', 'u', ' ', 'a', 'n', 'd', ' ', 'm', 'e', '"']
  startOffset := 40
  endOffset := 58
  hasNewline := true

def youAndMe : Text := ['"', 'y', 'o', 'u', ' ', 'a', 'n', 'd', ' ', 'm', 'e', '"']

def youOnly : Text := ['"', 'y', 'o', 'u', '"']

def stringNode (text value : Text) : Ast.Val :=
  .string .quoted text value (whoLine.span 5 (5 + text.length))

theorem literal_youAndMe : Literal asciiConfig youAndMe whoLine 5 []
    (stringNode youAndMe ['y', 'o', 'u', ' ', 'a', 'n', 'd', ' ', 'm', 'e']) [] :=
  .string rfl (by rfl)

/-- The word `and` inside the quotes makes the parser look for a condition. -/
theorem compact_string_lost : Literal asciiConfig youAndMe whoLine 5 []
      (stringNode youAndMe ['y', 'o', 'u', ' ', 'a', 'n', 'd', ' ', 'm', 'e']) [] ∧
    parseBindingValue asciiConfig youAndMe whoLine 5 [] ≠
      .ok (stringNode youAndMe ['y', 'o', 'u', ' ', 'a', 'n', 'd', ' ', 'm', 'e']) [] :=
  ⟨literal_youAndMe, literal_lost literal_youAndMe (by decide +kernel)⟩

/-- The line ` 2] #` behind `one: [1,`. -/
def listLine : SourceLine := { whoLine with number := 6, text := [' ', '2', ']'] ++ [' ', '#'] }

def oneTwo : Text := '[' :: (['1', ',', '\n', ' ', '2'] ++ [']'])

theorem spelled_oneTwo :
    Spelled oneTwo ['[', '1', ','] whoLine 5 [listLine] (listLine.position 3) [] := by
  have hlast : Spelled [' ', '2', ']'] listLine.text listLine 0 [] (listLine.position 3) [] :=
    .last (.inr rfl)
  change Spelled (['[', '1', ','] ++ '\n' :: [' ', '2', ']']) _ _ _ _ _ _
  exact .next hlast

theorem compact_string_kept :
    parseBindingValue asciiConfig youOnly whoLine 5 [] = .ok (stringNode youOnly ['y', 'o', 'u']) [] ∧
    parseBindingValue asciiConfig ['[', '1', ','] whoLine 5 [listLine] =
      .ok (.json oneTwo (toValue (.arr [.int 1, .int 2])) ⟨whoLine.position 5, listLine.position 3⟩) [] := by
  constructor
  · exact (compact_literal_iff (.string rfl (by rfl))).mpr (by decide +kernel)
  · have hvalue : jsonLoads asciiConfig true oneTwo = .ok (.arr [.int 1, .int 2]) := by rfl
    exact (compact_literal_iff (.container (.inl rfl) (.inl rfl) spelled_oneTwo hvalue)).mpr
      (by decide +kernel)

end Example

end Raticode.Rattish
