import Mathlib.Data.List.Forall2
import Raticode.RattishFidelity
import Raticode.RattishUnplaced

/-! The parser on two documents side by side. What a comparison has to know of the
cursors is collected in a structure: how they move past what can be ignored, through
embedded JSON and through literal blocks. Everything else the parser does is the same
on both sides up to spans, whatever the comparison. -/
namespace Raticode.Rattish
open PyText Attempt

section Admitted

structure Embedded where
  json : SourceSpan → Prop
  block : SourceSpan → Prop

variable (o : Embedded)

mutual
def Ast.Val.Admitted : Ast.Val → Prop
  | .json _ _ span => o.json span
  | .string .block _ _ span => o.block span
  | .list items _ => admittedItems items
  | .map entries _ => admittedEntries entries
  | _ => True

def admittedItems : List Ast.Val → Prop
  | [] => True
  | value :: values => value.Admitted ∧ admittedItems values

def admittedEntries : List (Ast.MapKey × Ast.Val × SourceSpan) → Prop
  | [] => True
  | (_, value, _) :: entries => value.Admitted ∧ admittedEntries entries
end

def Ast.BindingEntry.Admitted : Ast.BindingEntry → Prop
  | .source _ _ _ => True
  | .default _ value _ => value.Admitted o

def Ast.Binding.Admitted : Ast.Binding → Prop
  | .compact _ value _ => value.Admitted o
  | .expanded _ entries _ => ∀ entry ∈ entries, entry.Admitted o

def Ast.Entry.Admitted : Ast.Entry → Prop
  | .field f => f.value.Admitted o
  | .bindings _ bs _ => ∀ binding ∈ bs, binding.Admitted o
  | _ => True

def Ast.Workflow.Admitted (w : Ast.Workflow) : Prop := ∀ f ∈ w.entries, f.value.Admitted o

def Ast.NodeDecl.Admitted (n : Ast.NodeDecl) : Prop := ∀ entry ∈ n.entries, entry.Admitted o

def Ast.Document.Admitted (d : Ast.Document) : Prop :=
  d.workflow.Admitted o ∧ ∀ n ∈ d.nodes, n.Admitted o

theorem admittedItems_iff (items : List Ast.Val) :
    admittedItems o items ↔ ∀ value ∈ items, value.Admitted o := by
  induction items with
  | nil => simp [admittedItems]
  | cons value values ih => simp [admittedItems, ih]

theorem admittedEntries_iff (entries : List (Ast.MapKey × Ast.Val × SourceSpan)) :
    admittedEntries o entries ↔ ∀ entry ∈ entries, entry.2.1.Admitted o := by
  induction entries with
  | nil => simp [admittedEntries]
  | cons entry entries ih =>
    obtain ⟨key, value, span⟩ := entry
    simp [admittedEntries, ih]

section Decidable
variable {o} [DecidablePred o.json] [DecidablePred o.block]

mutual
def Ast.Val.decideAdmitted : (value : Ast.Val) → Decidable (value.Admitted o)
  | .json _ _ span => inferInstanceAs (Decidable (o.json span))
  | .string .block _ _ span => inferInstanceAs (Decidable (o.block span))
  | .list items _ => decideItems items
  | .map entries _ => decideEntries entries
  | .string .bare _ _ _ => .isTrue trivial
  | .string .quoted _ _ _ => .isTrue trivial
  | .identifierValue _ _ _ => .isTrue trivial
  | .boolean _ _ _ => .isTrue trivial
  | .none _ _ => .isTrue trivial
  | .null _ _ => .isTrue trivial
  | .duration _ _ _ _ _ => .isTrue trivial
  | .integer _ _ _ => .isTrue trivial
  | .number _ _ _ => .isTrue trivial
  | .reference _ => .isTrue trivial
  | .expression _ _ => .isTrue trivial

def decideItems : (items : List Ast.Val) → Decidable (admittedItems o items)
  | [] => .isTrue trivial
  | value :: values => @instDecidableAnd _ _ value.decideAdmitted (decideItems values)

def decideEntries : (entries : List (Ast.MapKey × Ast.Val × SourceSpan)) →
    Decidable (admittedEntries o entries)
  | [] => .isTrue trivial
  | (_, value, _) :: entries => @instDecidableAnd _ _ value.decideAdmitted (decideEntries entries)
end

instance (value : Ast.Val) : Decidable (value.Admitted o) := value.decideAdmitted

instance : (entry : Ast.BindingEntry) → Decidable (entry.Admitted o)
  | .source _ _ _ => .isTrue trivial
  | .default _ value _ => inferInstanceAs (Decidable (value.Admitted o))

instance : (binding : Ast.Binding) → Decidable (binding.Admitted o)
  | .compact _ value _ => inferInstanceAs (Decidable (value.Admitted o))
  | .expanded _ entries _ => inferInstanceAs (Decidable (∀ entry ∈ entries, entry.Admitted o))

instance : (entry : Ast.Entry) → Decidable (entry.Admitted o)
  | .field f => inferInstanceAs (Decidable (f.value.Admitted o))
  | .bindings _ bs _ => inferInstanceAs (Decidable (∀ binding ∈ bs, binding.Admitted o))
  | .needs _ _ _ _ => .isTrue trivial
  | .routes _ _ _ _ => .isTrue trivial

instance (w : Ast.Workflow) : Decidable (w.Admitted o) :=
  inferInstanceAs (Decidable (∀ f ∈ w.entries, f.value.Admitted o))

instance (n : Ast.NodeDecl) : Decidable (n.Admitted o) :=
  inferInstanceAs (Decidable (∀ entry ∈ n.entries, entry.Admitted o))

instance (d : Ast.Document) : Decidable (d.Admitted o) :=
  inferInstanceAs (Decidable (_ ∧ _))

end Decidable

end Admitted

section Views

def Outer (line : SourceLine) : Prop :=
  ∃ c cs, line.text = c :: cs ∧ isIndent c = false ∧ c ≠ '#'

structure SameView (v v' : LineView) : Prop where
  text : v.line.text = v'.line.text
  indent : v.indentColumns = v'.indentColumns
  index : v.contentIndex = v'.contentIndex
  content : v.content = v'.content

variable {cfg : ParserConfig} {l l' : SourceLine} {v v' : LineView}

theorem lineView_same (h : l.text = l'.text) : SameView (lineView l) (lineView l') :=
  ⟨h, by simp only [lineView, h], by simp only [lineView, h], by simp only [lineView, h]⟩

theorem view_alike (cfg : ParserConfig) (h : l.text = l'.text) :
    Alike (SameBy Failure.unplaced) (fun v v' => SameView v v' ∧ v = lineView l ∧ v' = lineView l')
      (view cfg l) (view cfg l') := by
  have hsame := lineView_same h
  unfold view
  simp only [hsame.indent]
  split
  · rfl
  · exact ⟨hsame, rfl, rfl⟩

theorem isIgnorable_same (h : SameView v v') : v.isIgnorable = v'.isIgnorable := by
  unfold LineView.isIgnorable
  rw [h.content]

theorem splitEntry_agree {missing : String} {keyProblem : Text → Option String}
    (h : SameView v v') :
    Agree id (splitEntry cfg missing keyProblem v) (splitEntry cfg missing keyProblem v') := by
  unfold splitEntry
  rw [h.content, h.index]
  split
  · rfl
  · split <;> rfl

theorem mapKeyJson_unplaced (key : Text) (span span' : SourceSpan) :
    (mapKeyJson cfg key span).unplaced = (mapKeyJson cfg key span').unplaced := by
  unfold mapKeyJson
  split <;> rfl

theorem view_outer (cfg : ParserConfig) (h : Outer l) : view cfg l = .ok ⟨l, 0, 0, l.text⟩ := by
  obtain ⟨c, cs, htext, hc, -⟩ := h
  simp [view, lineView, indentColumns, htext, hc]

theorem not_isIgnorable_outer (h : Outer l) : (⟨l, 0, 0, l.text⟩ : LineView).isIgnorable = false := by
  obtain ⟨c, cs, htext, -, hne⟩ := h
  simp [LineView.isIgnorable, htext, hne]

end Views

inductive Ready (R : List SourceLine → List SourceLine → Prop)
    (near : SourceLine → List SourceLine → List SourceLine → Prop) :
    List SourceLine → List SourceLine → Prop
  | line {l l' : SourceLine} {u u' : List SourceLine} (htext : l.text = l'.text)
      (hmeaningful : (lineView l).isIgnorable = false) (h : R (l :: u) (l' :: u'))
      (hrest : R u u') (hhere : near l' (l :: u) (l' :: u')) (hnear : near l' u u') :
      Ready R near (l :: u) (l' :: u')
  | done {t : List SourceLine} (ht : t = [] ∨ ∃ line more, t = line :: more ∧ Outer line)
      (h : R t []) : Ready R near t []

theorem Ready.cursor {R : List SourceLine → List SourceLine → Prop}
    {near : SourceLine → List SourceLine → List SourceLine → Prop} {t t' : List SourceLine}
    (h : Ready R near t t') : R t t' := by
  cases h with
  | line _ _ h => exact h
  | done _ h => exact h

/-- What a comparison asks of the ends of the parser: failures are equal up to spans,
and the first document is left at a cursor that is `inside`. -/
structure Endings where
  selective : Prop
  mayStop : Prop
  excused : Failure → Prop
  inside : List SourceLine → Prop

def Endings.accord (e : Endings) : Accord Failure (List SourceLine) where
  selective := e.selective
  mayStop := e.mayStop
  excused := e.excused
  errors f t f' := f.unplaced = f'.unplaced ∧ e.inside t

structure Walk (cfg : ParserConfig) extends Endings where
  embedded : Embedded
  R : List SourceLine → List SourceLine → Prop
  near : SourceLine → List SourceLine → List SourceLine → Prop
  depth : excused .depth
  located : ∀ {l l' u u'}, R (l :: u) (l' :: u') →
    (∃ source, LineAt source l) ∧ ∃ source, LineAt source l'
  inside_of : ∀ {s s'}, R s s' → inside s
  length_le : ∀ {s s'}, R s s' → s'.length ≤ s.length
  skip : ∀ {s s'}, R s s' → Mirrors toEndings.accord (Any Unit) (skipIgnorable cfg)
    (skipIgnorable cfg) (fun _ t _ t' => Ready R near t t') s s'
  json : ∀ {s s' : List SourceLine} {l l' : SourceLine} {text : Text} {start : ℕ}, R s s' →
    near l' s s' → Mirrors toEndings.accord (Ast.Val.Admitted embedded) (parseJson cfg text l start)
      (parseJson cfg text l' start) (fun a t a' t' => a.unplaced = a'.unplaced ∧ R t t') s s'
  block : ∀ {s s' : List SourceLine} {l l' : SourceLine}, R s s' → near l' s s' →
    Mirrors toEndings.accord (Ast.Val.Admitted embedded) (parseBlockString cfg 2 l)
      (parseBlockString cfg 2 l') (fun a t a' t' => a.unplaced = a'.unplaced ∧ R t t') s s'

theorem Walk.errors {cfg : ParserConfig} (W : Walk cfg) {s s' : List SourceLine} {e e' : Failure}
    (hs : W.R s s') (h : e.unplaced = e'.unplaced) : W.accord.errors e s e' :=
  ⟨h, W.inside_of hs⟩

section Keeps
variable {cfg : ParserConfig} {W : Walk cfg} {α β γ δ : Type} {l l' : SourceLine}
  {s s' : List SourceLine}

def Keeps (W : Walk cfg) (P : α → Prop) (f : α → γ) (x x' : Parse α) : Prop :=
  ∀ s s', W.R s s' →
    Mirrors W.accord P x x' (fun a t a' t' => f a = f a' ∧ W.R t t') s s'

def KeepsAt (W : Walk cfg) (l' : SourceLine) (P : α → Prop) (f : α → γ) (x x' : Parse α) : Prop :=
  ∀ s s', W.R s s' → W.near l' s s' →
    Mirrors W.accord P x x' (fun a t a' t' => f a = f a' ∧ W.R t t') s s'

def KeepsLap (W : Walk cfg) (P : α → Prop) (f : α → γ) (x x' : Parse (Lap α)) : Prop :=
  ∀ s s', W.R s s' → Mirrors W.accord (fun lap => ∀ a ∈ lap.items, P a) x x'
    (fun lap t lap' t' => LapAlike (SameBy f) lap lap' ∧ W.R t t') s s'

def KeepsHere (W : Walk cfg) (P : α → Prop) (f : α → γ) (x x' : Parse α) : Prop :=
  ∀ l l' u u', l.text = l'.text → W.R (l :: u) (l' :: u') → W.R u u' → W.near l' u u' →
    Mirrors W.accord P x x' (fun a t a' t' => f a = f a' ∧ W.R t t') (l :: u) (l' :: u')

theorem Keeps.at {P : α → Prop} {f : α → γ} {x x' : Parse α} (h : Keeps W P f x x') :
    KeepsAt W l' P f x x' :=
  fun s s' hs _ => h s s' hs

theorem keeps_pure {P : α → Prop} {f : α → γ} {a a' : α} (h : f a = f a') :
    Keeps W P f (pure a) (pure a') :=
  fun _ _ hs => mirrors_pure (fun _ => ⟨h, hs⟩)

theorem keeps_fail {P : α → Prop} {f : α → γ} {e e' : Failure} (h : e.unplaced = e'.unplaced) :
    Keeps W P f (fail e) (fail e') :=
  fun _ _ hs => mirrors_fail (W.errors hs h)

theorem keeps_lift {P : α → Prop} {f : α → γ} {y y' : Except Failure α} (h : Agree f y y') :
    Keeps W P f (lift y) (lift y') :=
  fun _ _ hs => mirrors_lift h (fun _ _ he => W.errors hs he) (fun _ _ ha => ⟨ha, hs⟩)

theorem Keeps.bind {P : α → Prop} {P' : β → Prop} {f : α → γ} {g : β → δ} {x x' : Parse α}
    {k k' : α → Parse β} (h : Keeps W P f x x')
    (hP : ∀ a' t' b' u', k' a' t' = .ok b' u' → P' b' → P a')
    (hk : ∀ a a', f a = f a' → Keeps W P' g (k a) (k' a')) :
    Keeps W P' g (x >>= k) (x' >>= k') := by
  intro s s' hs
  refine (h s s' hs).bind (fun _ => hP) ?_
  rintro a t a' t' ⟨ha, ht⟩
  exact hk a a' ha t t' ht

theorem Keeps.andThen {P' : β → Prop} {f : α → γ} {g : β → δ} {x x' : Parse α}
    {k k' : α → Parse β} (h : Keeps W (Any α) f x x')
    (hk : ∀ a a', f a = f a' → Keeps W P' g (k a) (k' a')) :
    Keeps W P' g (x >>= k) (x' >>= k') :=
  h.bind (fun _ _ _ _ _ _ => trivial) hk

theorem mirrors_items {P : α → Prop} {f : α → γ} {body body' : Parse (Lap α)}
    (hbody : KeepsLap W P f body body') (hs : W.R s s') :
    Mirrors W.accord (fun items => ∀ a ∈ items, P a) (collect .depth body (s.length + 1))
      (collect .depth body' (s'.length + 1))
      (fun items t items' t' => items.map f = items'.map f ∧ W.R t t') s s' := by
  refine (mirrors_collect W.depth hbody (Nat.succ_le_succ (W.length_le hs)) hs).mono
    (fun _ h => h) ?_
  rintro items t items' t' ⟨hitems, ht⟩
  refine ⟨?_, ht⟩
  induction hitems with
  | nil => rfl
  | cons h _ ih => exact congrArg₂ List.cons h ih

theorem ends_same {f : α → γ} {items items' : List α} (h : items.map f = items'.map f) :
    (items = [] ∧ items' = []) ∨ ∃ first first' last last', items.head? = some first ∧
      items'.head? = some first' ∧ items.getLast? = some last ∧ items'.getLast? = some last' := by
  cases items with
  | nil =>
    cases items' with
    | nil => exact .inl ⟨rfl, rfl⟩
    | cons item' items' => cases h
  | cons item items =>
    cases items' with
    | nil => cases h
    | cons item' items' =>
      exact .inr ⟨item, item', _, _, rfl, rfl, List.getLast?_cons, List.getLast?_cons⟩

theorem mirrors_advance {P : β → Prop} {Q : α → List SourceLine → β → List SourceLine → Prop}
    {k : Unit → Parse α} {k' : Unit → Parse β} {u u' : List SourceLine}
    (h : Mirrors W.accord P (k ()) (k' ()) Q u u') :
    Mirrors W.accord P (advance >>= k) (advance >>= k') Q (l :: u) (l' :: u') := h

theorem mirrors_view {P : β → Prop} {Q : α → List SourceLine → β → List SourceLine → Prop}
    {k : LineView → Parse α} {k' : LineView → Parse β} (h : l.text = l'.text) (hs : W.R s s')
    (hk : SameView (lineView l) (lineView l') →
      Mirrors W.accord P (k (lineView l)) (k' (lineView l')) Q s s') :
    Mirrors W.accord P (do k (← lift (view cfg l))) (do k' (← lift (view cfg l'))) Q s s' := by
  have hview : Mirrors W.accord (Any LineView) (lift (view cfg l)) (lift (view cfg l'))
      (fun v t v' t' => (SameView v v' ∧ v = lineView l ∧ v' = lineView l') ∧ t = s ∧ t' = s') s s' :=
    mirrors_lift (view_alike cfg h) (fun e e' he => W.errors hs he) (fun v v' hv => ⟨hv, rfl, rfl⟩)
  refine hview.andThen ?_
  rintro v t v' t' ⟨⟨hsame, rfl, rfl⟩, rfl, rfl⟩
  exact hk hsame

theorem mirrors_read {ρ : Type} {P : β → Prop} {f : ρ → γ}
    {Q : α → List SourceLine → β → List SourceLine → Prop} {y y' : Except Failure ρ}
    {k : ρ → Parse α} {k' : ρ → Parse β} (h : Agree f y y') (hs : W.R s s')
    (hk : ∀ a a', y = .ok a → y' = .ok a' → f a = f a' → Mirrors W.accord P (k a) (k' a') Q s s') :
    Mirrors W.accord P (do k (← lift y)) (do k' (← lift y')) Q s s' := by
  cases y with
  | error e =>
    cases y' with
    | error e' => exact mirrors_error rfl rfl (W.errors hs h)
    | ok a' => exact h.elim
  | ok a =>
    cases y' with
    | error e' => exact h.elim
    | ok a' => exact hk a a' rfl rfl h

theorem mirrors_same {ρ : Type} {P : β → Prop}
    {Q : α → List SourceLine → β → List SourceLine → Prop} {y y' : Except Failure ρ}
    {k : ρ → Parse α} {k' : ρ → Parse β} (h : Agree id y y') (hs : W.R s s')
    (hk : ∀ a, Mirrors W.accord P (k a) (k' a) Q s s') :
    Mirrors W.accord P (do k (← lift y)) (do k' (← lift y')) Q s s' := by
  refine mirrors_read h hs ?_
  rintro a _ - - rfl
  exact hk a

theorem run_view_outer {k : LineView → Parse α} (h : Outer l) (s : List SourceLine) :
    (do k (← lift (view cfg l))) s = k ⟨l, 0, 0, l.text⟩ s := by
  rw [view_outer cfg h]
  rfl

theorem mirrors_skip {P : β → Prop} {Q : α → List SourceLine → β → List SourceLine → Prop}
    {k : List SourceLine → Parse α} {k' : List SourceLine → Parse β} (hs : W.R s s')
    (hline : ∀ l l' u u', l.text = l'.text → (lineView l).isIgnorable = false →
      W.R (l :: u) (l' :: u') → W.R u u' → W.near l' (l :: u) (l' :: u') → W.near l' u u' →
      Mirrors W.accord P (k (l :: u)) (k' (l' :: u')) Q (l :: u) (l' :: u'))
    (hempty : W.R [] [] → Mirrors W.accord P (k []) (k' []) Q [] [])
    (houter : ∀ line more, Outer line → W.R (line :: more) [] →
      Mirrors W.accord P (k (line :: more)) (k' []) Q (line :: more) []) :
    Mirrors W.accord P (do skipIgnorable cfg; k (← peek)) (do skipIgnorable cfg; k' (← peek)) Q
      s s' := by
  refine (W.skip hs).andThen ?_
  intro _ t _ t' hready
  apply mirrors_peek
  cases hready with
  | line htext hmeaningful h hrest hhere hnear =>
    exact hline _ _ _ _ htext hmeaningful h hrest hhere hnear
  | done ht h =>
    rcases ht with rfl | ⟨line, more, rfl, hline⟩
    · exact hempty h
    · exact houter line more hline h

end Keeps

section Values
variable {cfg : ParserConfig} {W : Walk cfg} {l l' : SourceLine} {text : Text} {start : ℕ}

theorem parseWord_agree (span span' : SourceSpan) :
    Agree (Option.map Ast.Val.unplaced) (parseWord cfg text span) (parseWord cfg text span') := by
  unfold parseWord
  simp only
  split
  · rfl
  split
  · rfl
  split
  · rfl
  split
  · rfl
  split
  · refine (Agree.refl id (natOf cfg _)).bind ?_
    rintro n _ rfl
    rfl
  · refine (Agree.refl id (intOf cfg _)).bind ?_
    rintro n _ rfl
    rfl
  · rfl
  · rfl

theorem parseInlineValue_keeps :
    KeepsAt W l' (Ast.Val.Admitted W.embedded) Ast.Val.unplaced (parseInlineValue cfg text l start)
      (parseInlineValue cfg text l' start) := by
  unfold parseInlineValue
  simp only
  split
  · split
    · refine Keeps.at (keeps_pure ?_)
      rfl
    · refine Keeps.at (keeps_fail ?_)
      rfl
  · exact fun s s' hs hnear => W.json hs hnear
  · exact fun s s' hs hnear => W.json hs hnear
  · refine Keeps.at ((keeps_lift (parseWord_agree _ _)).andThen ?_)
    intro word word' hword
    cases word with
    | some value =>
      cases word' with
      | none => cases hword
      | some value' => exact keeps_pure (Option.some.inj hword)
    | none =>
      cases word' with
      | some value' => cases hword
      | none =>
        refine (keeps_lift (tryReference_agree _ _)).andThen ?_
        intro found found' hfound
        cases found with
        | some r =>
          cases found' with
          | none => cases hfound
          | some r' => exact keeps_pure (congrArg Ast.Val.reference (Option.some.inj hfound))
        | none =>
          cases found' with
          | some r' => cases hfound
          | none => exact keeps_pure rfl

theorem parseIdentifierValue_keeps {P : Ast.Val → Prop} :
    Keeps W P Ast.Val.unplaced (parseIdentifierValue cfg text l start)
      (parseIdentifierValue cfg text l' start) := by
  unfold parseIdentifierValue
  split
  · exact keeps_pure rfl
  · exact keeps_fail rfl

theorem parseBindingValue_keeps :
    KeepsAt W l' (Ast.Val.Admitted W.embedded) Ast.Val.unplaced (parseBindingValue cfg text l start)
      (parseBindingValue cfg text l' start) := by
  unfold parseBindingValue
  split
  · refine Keeps.at ((keeps_lift parsePredicate_agree).andThen ?_)
    intro predicate predicate' hpredicate
    apply keeps_pure
    simp only [Ast.Val.unplaced, hpredicate]
  · exact parseInlineValue_keeps

end Values

theorem raised_same (cfg : ParserConfig) (code message : String) (l l' : SourceLine)
    (start stop : ℕ) (phase : SyntaxPhase) :
    (raised cfg code message l start stop phase).unplaced =
      (raised cfg code message l' start stop phase).unplaced := rfl

section Blocks
variable {cfg : ParserConfig} {W : Walk cfg} {l l' : SourceLine} {indent : ℕ}
  {blockValue blockValue' : ℕ → Parse Ast.Val}

theorem nestedValue_keeps {missing missing' : Failure}
    (hblock : KeepsHere W (Ast.Val.Admitted W.embedded) Ast.Val.unplaced (blockValue indent)
      (blockValue' indent)) (hmissing : missing.unplaced = missing'.unplaced) (hindent : 0 < indent) :
    Keeps W (Ast.Val.Admitted W.embedded) Ast.Val.unplaced
      (nestedValue cfg blockValue indent missing) (nestedValue cfg blockValue' indent missing') := by
  intro s s' hs
  unfold nestedValue
  refine mirrors_skip hs ?_ ?_ ?_
  · intro l l' u u' htext _ h hrest _ hnear
    refine mirrors_view htext h (fun hsame => ?_)
    rw [hsame.indent]
    split
    · exact mirrors_fail (W.errors h hmissing)
    · exact hblock l l' u u' htext h hrest hnear
  · intro h
    exact mirrors_fail (W.errors h hmissing)
  · intro line more houter h
    refine mirrors_error (e := missing) (t := line :: more) ?_ rfl (W.errors h hmissing)
    simp only
    rw [run_view_outer houter]
    simp [hindent.ne, fail]

theorem nextMeaningful_eq (s : List SourceLine) :
    nextMeaningful cfg s = match skipIgnorable cfg s with
      | .error e _ => .error e
      | .ok _ [] => .ok none
      | .ok _ (line :: lines) => .ok (some (line :: lines)) := by
  induction s with
  | nil => rfl
  | cons line lines ih =>
    unfold nextMeaningful skipIgnorable
    cases view cfg line with
    | error e => rfl
    | ok v =>
      simp only
      split
      · exact ih
      · rfl

theorem moreEntries_eq (s : List SourceLine) :
    moreEntries cfg indent s = match skipIgnorable cfg s with
      | .error e _ => .error e s
      | .ok _ [] => .ok false s
      | .ok _ (line :: lines) => (do
          let v ← lift (view cfg line)
          if v.indentColumns = indent then do
            put (line :: lines)
            return true
          else return false) s := by
  unfold moreEntries
  rw [show ∀ f : List SourceLine → Parse Bool, (peek >>= f) s = f s s from fun _ => rfl,
    nextMeaningful_eq]
  cases skipIgnorable cfg s with
  | error e t => rfl
  | ok _ t => cases t <;> rfl

theorem moreEntries_keeps (hindent : 0 < indent) :
    Keeps W (Any Bool) id (moreEntries cfg indent) (moreEntries cfg indent) := by
  intro s s' hs
  have hskip := W.skip hs
  cases hr' : skipIgnorable cfg s' with
  | error e' t' =>
    have hmore' : moreEntries cfg indent s' = .error e' s' := by rw [moreEntries_eq, hr']
    rcases hskip.error hr' with hsel | hexcused | ⟨e, t, hr, he, -⟩
    · unfold Mirrors
      rw [hmore']
      exact .inl hsel
    · exact mirrors_excused hmore' hexcused
    · exact mirrors_error (by rw [moreEntries_eq, hr]) hmore' (W.errors hs he)
  | ok _ t' =>
    rcases hskip.ok hr' (fun _ => trivial) with ⟨_, t, hr, hready⟩ | ⟨hsel, hstop, e, t, hr⟩
    · unfold Mirrors
      rw [moreEntries_eq, moreEntries_eq, hr, hr']
      cases hready with
      | line htext hmeaningful h hrest =>
        refine mirrors_view htext hs (fun hsame => ?_)
        rw [hsame.indent]
        split
        · exact (mirrors_put (Q := fun _ t _ t' => W.R t t') h).andThen
            (fun _ t _ t' ht => mirrors_pure (fun _ => ⟨rfl, ht⟩))
        · exact mirrors_pure (fun _ => ⟨rfl, hs⟩)
      | done ht h =>
        rcases ht with rfl | ⟨line, more, rfl, houter⟩
        · exact fun _ => .inl ⟨false, s, rfl, rfl, hs⟩
        · refine fun _ => .inl ⟨false, s, ?_, rfl, hs⟩
          simp only
          rw [run_view_outer houter]
          simp only [hindent.ne, if_false]
          rfl
    · exact mirrors_stop hsel hstop (by rw [moreEntries_eq, hr])

def unplacedEntry (entry : Ast.MapKey × Ast.Val × SourceSpan) : Ast.MapKey × Ast.Val × SourceSpan :=
  (entry.1.unplaced, entry.2.1.unplaced, nowhere)

theorem items_moreEntries {α : Type} {entry : α} {lap : Lap α} {t u : List SourceLine}
    (h : (moreEntries cfg indent >>= fun more =>
      if more then pure (Lap.next entry) else pure (Lap.last entry)) t = .ok lap u) :
    lap.items = [entry] := by
  simp only [Bind.bind, EStateM.bind] at h
  split at h
  · split at h <;> cases h <;> rfl
  · cases h

theorem admitted_of_items {o : Embedded} {key : Ast.MapKey} {value : Ast.Val} {span : SourceSpan}
    {lap : Lap (Ast.MapKey × Ast.Val × SourceSpan)} {t u : List SourceLine}
    (h : (moreEntries cfg indent >>= fun more =>
      if more then pure (Lap.next (key, value, span)) else pure (Lap.last (key, value, span))) t =
        .ok lap u) (hitems : ∀ a ∈ lap.items, a.2.1.Admitted o) : value.Admitted o :=
  hitems (key, value, span) (by rw [items_moreEntries h]; exact List.mem_singleton_self _)

theorem keepsLap_moreEntries {α γ : Type} {P : α → Prop} {f : α → γ} {entry entry' : α}
    (hindent : 0 < indent) (h : f entry = f entry') :
    KeepsLap W P f
      (moreEntries cfg indent >>= fun more =>
        if more then pure (Lap.next entry) else pure (Lap.last entry))
      (moreEntries cfg indent >>= fun more =>
        if more then pure (Lap.next entry') else pure (Lap.last entry')) := by
  intro s s' hs
  refine (moreEntries_keeps hindent s s' hs).andThen ?_
  rintro more t _ t' ⟨rfl, ht⟩
  simp only [id]
  split
  · exact mirrors_pure (fun _ => ⟨.next h, ht⟩)
  · exact mirrors_pure (fun _ => ⟨.last h, ht⟩)

theorem mapEntry_keeps
    (hblock : KeepsHere W (Ast.Val.Admitted W.embedded) Ast.Val.unplaced (blockValue (indent + 2))
      (blockValue' (indent + 2))) (hindent : 0 < indent) :
    KeepsLap W (fun entry => entry.2.1.Admitted W.embedded) unplacedEntry
      (mapEntry cfg blockValue indent) (mapEntry cfg blockValue' indent) := by
  intro s s' hs
  unfold mapEntry
  refine mirrors_skip hs ?_ ?_ ?_
  · intro l l' u u' htext _ h hrest _ hnear
    refine mirrors_view htext h (fun hsame => ?_)
    rw [hsame.indent]
    split
    · exact mirrors_pure (fun _ => ⟨.stop, h⟩)
    split
    · exact mirrors_fail (W.errors h (by simp only [lineIndentError, hsame.indent]; rfl))
    refine mirrors_same (splitEntry_agree hsame) h (fun parts => ?_)
    refine mirrors_advance ?_
    have hentry (value value' : Ast.Val) (stop stop' : SourcePosition)
        (hv : value.unplaced = value'.unplaced) :
        unplacedEntry (mapKeyJson cfg parts.key (l.span parts.keyStart parts.keyEnd), value,
            ⟨l.position parts.keyStart, stop⟩) =
          unplacedEntry (mapKeyJson cfg parts.key (l'.span parts.keyStart parts.keyEnd), value',
            ⟨l'.position parts.keyStart, stop'⟩) := by
      simp only [unplacedEntry, mapKeyJson_unplaced _ _ (l'.span parts.keyStart parts.keyEnd), hv]
    simp only
    split
    · refine (parseInlineValue_keeps u u' hrest hnear).bind ?_ ?_
      · exact fun _ value' t' lap _ hlap hitems => admitted_of_items hlap hitems
      · rintro value t value' t' ⟨hv, ht⟩
        exact keepsLap_moreEntries hindent (hentry value value' _ _ hv) t t' ht
    · have hnested := nestedValue_keeps hblock (raised_same cfg "RATTISH_EXPECTED_TOKEN"
        "Map entry requires a value or nested block." l l' parts.keyStart parts.keyEnd .parser)
        (by omega)
      refine (hnested u u' hrest).bind ?_ ?_
      · exact fun _ value' t' lap _ hlap hitems => admitted_of_items hlap hitems
      · rintro value t value' t' ⟨hv, ht⟩
        exact keepsLap_moreEntries hindent (hentry value value' _ _ hv) t t' ht
  · intro h
    exact mirrors_pure (fun _ => ⟨.stop, h⟩)
  · intro line more houter h
    refine mirrors_ok (a := .stop) (t := line :: more) ?_ rfl (fun _ => ⟨.stop, h⟩)
    simp only
    rw [run_view_outer houter]
    simp only [hindent, if_true]
    rfl

theorem unplacedEntries_eq (entries : List (Ast.MapKey × Ast.Val × SourceSpan)) :
    Ast.unplacedEntries entries = entries.map unplacedEntry := by
  induction entries with
  | nil => rfl
  | cons entry entries ih => simp only [Ast.unplacedEntries, ih, List.map_cons, unplacedEntry]

theorem unplacedItems_eq (items : List Ast.Val) :
    Ast.unplacedItems items = items.map Ast.Val.unplaced := by
  induction items with
  | nil => rfl
  | cons item items ih => simp only [Ast.unplacedItems, ih, List.map_cons]

theorem parseValueMap_keeps
    (hblock : KeepsHere W (Ast.Val.Admitted W.embedded) Ast.Val.unplaced (blockValue (indent + 2))
      (blockValue' (indent + 2))) (hindent : 0 < indent) :
    Keeps W (Ast.Val.Admitted W.embedded) Ast.Val.unplaced (parseValueMap cfg blockValue indent)
      (parseValueMap cfg blockValue' indent) := by
  intro s s' hs
  unfold parseValueMap
  apply mirrors_peek
  refine (mirrors_items (mapEntry_keeps hblock hindent) hs).bind ?_ ?_
  · intro _ entries' t' value' u' hvalue hadmitted
    cases entries' with
    | nil => cases hvalue
    | cons entry' entries' =>
      obtain ⟨last', hlast'⟩ : ∃ last, (entry' :: entries').getLast? = some last :=
        ⟨_, List.getLast?_cons⟩
      simp only [List.head?_cons, hlast'] at hvalue
      cases hvalue
      exact (admittedEntries_iff _ _).mp hadmitted
  · rintro entries t entries' t' ⟨hentries, ht⟩
    rcases ends_same hentries with ⟨rfl, rfl⟩ | ⟨first, first', last, last', hfirst, hfirst', hlast, hlast'⟩
    · exact mirrors_fail (W.errors ht rfl)
    · simp only [hfirst, hfirst', hlast, hlast']
      refine mirrors_pure (fun _ => ⟨?_, ht⟩)
      simp only [Ast.Val.unplaced, unplacedEntries_eq, hentries]

theorem listItem_keeps
    (hblock : KeepsHere W (Ast.Val.Admitted W.embedded) Ast.Val.unplaced
      (blockValue (indent + 2 + 2)) (blockValue' (indent + 2 + 2))) (hindent : 0 < indent) :
    KeepsLap W (fun item => item.1.Admitted W.embedded) (fun item => item.1.unplaced)
      (listItem cfg blockValue indent) (listItem cfg blockValue' indent) := by
  intro s s' hs
  unfold listItem
  refine mirrors_skip hs ?_ ?_ ?_
  · intro l l' u u' htext _ h hrest _ hnear
    refine mirrors_view htext h (fun hsame => ?_)
    rw [hsame.indent, hsame.content, hsame.index]
    split
    · split
      · exact mirrors_pure (fun _ => ⟨.stop, h⟩)
      split
      · exact mirrors_fail (W.errors h rfl)
      refine mirrors_advance ?_
      simp only
      split
      · refine (parseInlineValue_keeps u u' hrest hnear).bind ?_ ?_
        · intro _ value' t' lap _ hlap hitems
          cases hlap
          exact hitems _ (List.mem_singleton_self _)
        · rintro value t value' t' ⟨hv, ht⟩
          exact mirrors_pure (fun _ => ⟨.next hv, ht⟩)
      · refine (W.skip hrest).andThen ?_
        intro _ t _ t' hready
        refine (parseValueMap_keeps hblock (by omega) t t' hready.cursor).bind ?_ ?_
        · intro _ value' t' lap _ hlap hitems
          cases hlap
          exact hitems _ (List.mem_singleton_self _)
        · rintro value t value' t' ⟨hv, ht⟩
          exact mirrors_pure (fun _ => ⟨.next hv, ht⟩)
    · exact mirrors_pure (fun _ => ⟨.stop, h⟩)
  · intro h
    exact mirrors_pure (fun _ => ⟨.stop, h⟩)
  · intro line more houter h
    refine mirrors_ok (a := .stop) (t := line :: more) ?_ rfl (fun _ => ⟨.stop, h⟩)
    simp only
    rw [run_view_outer houter]
    simp only [ne_eq, hindent.ne, not_false_eq_true, if_true]
    obtain ⟨c, cs, htext, -, -⟩ := houter
    rw [htext]
    by_cases hc : c = '-'
    · rw [hc]
      rfl
    · simp [hc]
      rfl

theorem parseValueList_keeps
    (hblock : KeepsHere W (Ast.Val.Admitted W.embedded) Ast.Val.unplaced
      (blockValue (indent + 2 + 2)) (blockValue' (indent + 2 + 2))) (hindent : 0 < indent) :
    Keeps W (Ast.Val.Admitted W.embedded) Ast.Val.unplaced (parseValueList cfg blockValue indent)
      (parseValueList cfg blockValue' indent) := by
  intro s s' hs
  unfold parseValueList
  apply mirrors_peek
  refine (mirrors_items (listItem_keeps hblock hindent) hs).bind ?_ ?_
  · intro _ items' t' value' u' hvalue hadmitted
    cases items' with
    | nil => cases hvalue
    | cons item' items' =>
      obtain ⟨last', hlast'⟩ : ∃ last, (item' :: items').getLast? = some last :=
        ⟨_, List.getLast?_cons⟩
      simp only [List.head?_cons, hlast'] at hvalue
      cases hvalue
      intro item hitem
      exact (admittedItems_iff _ _).mp hadmitted item.1 (List.mem_map_of_mem hitem)
  · rintro items t items' t' ⟨hitems, ht⟩
    rcases ends_same hitems with ⟨rfl, rfl⟩ | ⟨first, first', last, last', hfirst, hfirst', hlast, hlast'⟩
    · exact mirrors_fail (W.errors ht rfl)
    · simp only [hfirst, hfirst', hlast, hlast']
      refine mirrors_pure (fun _ => ⟨?_, ht⟩)
      have hvalues : (items.map Prod.fst).map Ast.Val.unplaced =
          (items'.map Prod.fst).map Ast.Val.unplaced := by
        rw [List.map_map, List.map_map]
        exact hitems
      simp only [Ast.Val.unplaced, unplacedItems_eq, hvalues]

theorem parseBlockValue_keeps {n n' : ℕ} (hn : n' ≤ n) (hindent : 0 < indent) :
    KeepsHere W (Ast.Val.Admitted W.embedded) Ast.Val.unplaced (parseBlockValue cfg n indent)
      (parseBlockValue cfg n' indent) := by
  induction n' generalizing n indent with
  | zero =>
    intro l l' u u' _ _ _ _
    exact mirrors_excused rfl W.depth
  | succ n' ih =>
    obtain ⟨n, rfl⟩ : ∃ m, n = m + 1 := ⟨n - 1, by omega⟩
    intro l l' u u' htext h hrest hnear
    have hblock (deeper : ℕ) (hdeeper : 0 < deeper) : KeepsHere W (Ast.Val.Admitted W.embedded)
        Ast.Val.unplaced (parseBlockValue cfg n deeper) (parseBlockValue cfg n' deeper) :=
      ih (by omega) hdeeper
    have hmap := parseValueMap_keeps (hblock (indent + 2) (by omega)) hindent (l :: u) (l' :: u') h
    have hlist := parseValueList_keeps (hblock (indent + 2 + 2) (by omega)) hindent (l :: u)
      (l' :: u') h
    unfold parseBlockValue viewHere
    refine mirrors_view htext h (fun hsame => ?_)
    rw [hsame.indent, hsame.content]
    split
    · exact mirrors_fail (W.errors h (by simp only [lineIndentError, hsame.indent]; rfl))
    split
    · split
      · exact hlist
      · exact hmap
    · exact hmap

theorem parseGenericField_keeps :
    KeepsHere W (fun f => f.value.Admitted W.embedded) Ast.Field.unplaced (parseGenericField cfg 2)
      (parseGenericField cfg 2) := by
  intro l l' u u' htext h hrest hnear
  have hfield {parts : FieldParts} {value value' : Ast.Val} {stop stop' : SourcePosition}
      (hv : value.unplaced = value'.unplaced) :
      (⟨identifierJson parts.key (l.span parts.keyStart parts.keyEnd), value,
          ⟨l.position parts.keyStart, stop⟩⟩ : Ast.Field).unplaced =
        (⟨identifierJson parts.key (l'.span parts.keyStart parts.keyEnd), value',
          ⟨l'.position parts.keyStart, stop'⟩⟩ : Ast.Field).unplaced := by
    simp only [Ast.Field.unplaced, Ast.Identifier.unplaced, identifierJson, hv]
  unfold parseGenericField viewHere
  refine mirrors_view htext h (fun hsame => ?_)
  refine mirrors_same (splitEntry_agree hsame) h (fun parts => ?_)
  refine mirrors_advance ?_
  simp only
  split
  · refine (W.block hrest hnear).bind ?_ ?_
    · intro _ value' t' field' _ hfield hadmitted
      cases hfield
      exact hadmitted
    · rintro value t value' t' ⟨hv, ht⟩
      exact mirrors_pure (fun _ => ⟨hfield hv, ht⟩)
  split
  · split
    · refine (parseIdentifierValue_keeps (P := Any Ast.Val) u u' hrest).andThen ?_
      rintro value t value' t' ⟨hv, ht⟩
      exact mirrors_pure (fun _ => ⟨hfield hv, ht⟩)
    · refine (parseInlineValue_keeps u u' hrest hnear).bind ?_ ?_
      · intro _ value' t' field' _ hfield hadmitted
        cases hfield
        exact hadmitted
      · rintro value t value' t' ⟨hv, ht⟩
        exact mirrors_pure (fun _ => ⟨hfield hv, ht⟩)
  · apply mirrors_peek
    have hblock : KeepsHere W (Ast.Val.Admitted W.embedded) Ast.Val.unplaced
        (parseBlockValue cfg (u.length + 1) (2 + 2))
        (parseBlockValue cfg (u'.length + 1) (2 + 2)) :=
      parseBlockValue_keeps (Nat.succ_le_succ (W.length_le hrest)) (by omega)
    have hnested := nestedValue_keeps hblock
      (raised_same cfg "RATTISH_EXPECTED_TOKEN" ("Field '" ++ String.ofList parts.key ++
        "' requires a value or nested block.") l l' parts.keyStart parts.keyEnd .parser) (by omega)
    refine (hnested u u' hrest).bind ?_ ?_
    · intro _ value' t' field' _ hfield hadmitted
      cases hfield
      exact hadmitted
    · rintro value t value' t' ⟨hv, ht⟩
      exact mirrors_pure (fun _ => ⟨hfield hv, ht⟩)

end Blocks

end Raticode.Rattish
