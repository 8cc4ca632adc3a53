import Raticode.RattishWalk

/-! The entries of the declarations, the declarations and the document on two cursors
side by side. -/
namespace Raticode.Rattish
open PyText Attempt

section Entries
variable {cfg : ParserConfig} {W : Walk cfg} {parentIndent indent : ℕ}

/-- What `entryLine` finds: no entry on either side, or lines of the same text. -/
inductive EntryAt (W : Walk cfg) : Option LineView → List SourceLine → Option LineView →
    List SourceLine → Prop
  | none {t t' : List SourceLine} (h : W.R t t') : EntryAt W none t none t'
  | some {l l' : SourceLine} {u u' : List SourceLine} (htext : l.text = l'.text)
      (h : W.R (l :: u) (l' :: u')) (hrest : W.R u u') (hhere : W.near l' (l :: u) (l' :: u'))
      (hnear : W.near l' u u') :
      EntryAt W (some (lineView l)) (l :: u) (some (lineView l')) (l' :: u')

theorem atEofLine_meaningful {l : SourceLine} {u : List SourceLine}
    (h : (lineView l).isIgnorable = false) : atEofLine (l :: u) = false := by
  cases u with
  | nil =>
    have htext : l.text ≠ [] := by
      intro htext
      simp [LineView.isIgnorable, lineView, htext] at h
    simp [atEofLine, htext]
  | cons next u => rfl

theorem atEofLine_outer {l : SourceLine} {u : List SourceLine} (h : Outer l) :
    atEofLine (l :: u) = false := by
  obtain ⟨c, cs, htext, -⟩ := h
  cases u with
  | nil => simp [atEofLine, htext]
  | cons next u => rfl

theorem entryLine_keeps {s s' : List SourceLine} (hs : W.R s s') :
    Mirrors W.accord (Any (Option LineView)) (entryLine cfg parentIndent)
      (entryLine cfg parentIndent) (EntryAt W) s s' := by
  unfold entryLine
  refine mirrors_skip hs ?_ ?_ ?_
  · intro l l' u u' htext hmeaningful h hrest hhere hnear
    have hmeaningful' : (lineView l').isIgnorable = false := by
      rw [← isIgnorable_same (lineView_same htext)]
      exact hmeaningful
    simp only [atEofLine_meaningful hmeaningful, atEofLine_meaningful hmeaningful',
      Bool.false_eq_true, if_false]
    refine mirrors_view htext h (fun hsame => ?_)
    rw [hsame.indent]
    split
    · exact mirrors_pure (fun _ => .none h)
    split
    · exact mirrors_fail (W.errors h (by simp only [lineIndentError, hsame.indent]; rfl))
    · exact mirrors_pure (fun _ => .some htext h hrest hhere hnear)
  · intro h
    exact mirrors_pure (fun _ => .none h)
  · intro line more houter h
    refine mirrors_ok (a := none) (t := line :: more) ?_ rfl (fun _ => .none h)
    simp only [atEofLine_outer houter, Bool.false_eq_true, if_false]
    rw [run_view_outer houter]
    simp only [Nat.zero_le, if_true]
    rfl

theorem parseGenericEntries_keeps :
    Keeps W (fun fields => ∀ f ∈ fields, f.value.Admitted W.embedded) (List.map Ast.Field.unplaced)
      (parseGenericEntries cfg 0) (parseGenericEntries cfg 0) := by
  intro s s' hs
  unfold parseGenericEntries
  apply mirrors_peek
  refine mirrors_items ?_ hs
  intro s s' hs
  refine (entryLine_keeps hs).andThen ?_
  intro found t found' t' hfound
  cases hfound with
  | none h => exact mirrors_pure (fun _ => ⟨.stop, h⟩)
  | some htext h hrest hhere hnear =>
    refine (parseGenericField_keeps _ _ _ _ htext h hrest hnear).bind ?_ ?_
    · intro _ field' t' lap _ hlap hitems
      cases hlap
      exact hitems _ (List.mem_singleton_self _)
    · rintro field t field' t' ⟨hf, ht⟩
      exact mirrors_pure (fun _ => ⟨.next hf, ht⟩)

variable {eof eof' : SourcePosition}

theorem eofError_same (message : String) :
    (eofError cfg eof message).unplaced = (eofError cfg eof' message).unplaced := rfl

theorem identifierValue_agree {l l' : SourceLine} (source : Text) (index : ℕ) :
    Agree Ast.Identifier.unplaced (identifierValue cfg source l index)
      (identifierValue cfg source l' index) := by
  unfold identifierValue
  split <;> rfl

/-- What `markedLine` finds: no item on either side, or items of the same text. -/
inductive MarkedAt (W : Walk cfg) : Option (LineView × Text) → List SourceLine →
    Option (LineView × Text) → List SourceLine → Prop
  | none {t t' : List SourceLine} (h : W.R t t') : MarkedAt W none t none t'
  | some {l l' : SourceLine} {u u' : List SourceLine} {raw : Text} (htext : l.text = l'.text)
      (h : W.R (l :: u) (l' :: u')) (hrest : W.R u u') :
      MarkedAt W (some (lineView l, raw)) (l :: u) (some (lineView l', raw)) (l' :: u')

theorem markedLine_keeps {s s' : List SourceLine} (hindent : 0 < indent) (hs : W.R s s') :
    Mirrors W.accord (Any (Option (LineView × Text))) (markedLine cfg indent)
      (markedLine cfg indent) (MarkedAt W) s s' := by
  unfold markedLine
  refine mirrors_skip hs ?_ ?_ ?_
  · intro l l' u u' htext _ h hrest _ _
    refine mirrors_view htext h (fun hsame => ?_)
    rw [hsame.indent, hsame.content]
    split
    · split
      · exact mirrors_pure (fun _ => .some htext h hrest)
      · exact mirrors_pure (fun _ => .none h)
    · exact mirrors_pure (fun _ => .none h)
  · intro h
    exact mirrors_pure (fun _ => .none h)
  · intro line more houter h
    refine mirrors_ok (a := none) (t := line :: more) ?_ rfl (fun _ => .none h)
    simp only
    rw [run_view_outer houter]
    simp only [hindent.ne, if_false]
    obtain ⟨c, cs, htext, -, -⟩ := houter
    rw [htext]
    by_cases hc : c = '-'
    · rw [hc]
      rfl
    · simp [hc]
      rfl

theorem parseIdentifierList_keeps (hindent : 0 < indent) :
    Keeps W (Any (List (Ast.Identifier × SourcePosition)))
      (List.map (fun item => item.1.unplaced)) (parseIdentifierList cfg eof indent)
      (parseIdentifierList cfg eof' indent) := by
  intro s s' hs
  unfold parseIdentifierList
  apply mirrors_peek
  refine (mirrors_items (P := Any _) (f := fun item => item.1.unplaced) ?_ hs).bind
    (fun _ _ _ _ _ _ _ _ _ => trivial) ?_
  · intro s s' hs
    refine (markedLine_keeps hindent hs).andThen ?_
    intro found t found' t' hfound
    cases hfound with
    | none h => exact mirrors_pure (fun _ => ⟨.stop, h⟩)
    | some htext h hrest =>
      have hsame := lineView_same htext
      simp only [hsame.content, hsame.index]
      split
      · exact mirrors_fail (W.errors h rfl)
      · refine mirrors_read (identifierValue_agree _ _) h ?_
        intro value value' _ _ hvalue
        exact mirrors_advance (mirrors_pure (fun _ => ⟨.next hvalue, hrest⟩))
  rintro values t values' t' ⟨hvalues, ht⟩
  rcases ends_same hvalues with ⟨rfl, rfl⟩ | ⟨_, _, _, _, hfirst, hfirst', -⟩
  · exact mirrors_fail (W.errors ht (eofError_same _))
  · have hne : values ≠ [] := by
      rintro rfl
      cases hfirst
    have hne' : values' ≠ [] := by
      rintro rfl
      cases hfirst'
    simp only [hne, hne', if_false]
    exact mirrors_pure (fun _ => ⟨hvalues, ht⟩)

def KeepsEntry (W : Walk cfg) (x x' : LineView → FieldParts → Parse Ast.Entry) : Prop :=
  ∀ l l' u u' parts, l.text = l'.text → W.R (l :: u) (l' :: u') → W.R u u' →
    Mirrors W.accord (Ast.Entry.Admitted W.embedded) (x (lineView l) parts) (x' (lineView l') parts)
      (fun a t a' t' => a.unplaced = a'.unplaced ∧ W.R t t') (l :: u) (l' :: u')

theorem parseNeeds_keeps :
    KeepsEntry W (fun v parts => parseNeeds cfg eof v parts indent)
      (fun v parts => parseNeeds cfg eof' v parts indent) := by
  intro l l' u u' parts htext h hrest
  have hkeyword : (lineView l).line.text = (lineView l').line.text := htext
  unfold parseNeeds
  simp only [hkeyword]
  refine mirrors_advance ?_
  split
  · refine mirrors_read (identifierValue_agree _ _) hrest ?_
    intro node node' _ _ hnode
    refine mirrors_pure (fun _ => ⟨?_, hrest⟩)
    simp only [Ast.Entry.unplaced, List.map_cons, List.map_nil, hnode]
  · refine (parseIdentifierList_keeps (by omega) u u' hrest).andThen ?_
    rintro nodes t nodes' t' ⟨hnodes, ht⟩
    refine mirrors_pure (fun _ => ⟨?_, ht⟩)
    have hvalues : (nodes.map Prod.fst).map Ast.Identifier.unplaced =
        (nodes'.map Prod.fst).map Ast.Identifier.unplaced := by
      rw [List.map_map, List.map_map]
      exact hnodes
    simp only [Ast.Entry.unplaced, hvalues]

theorem parseRoute_agree {l l' : SourceLine} (text : Text) (start : ℕ) :
    Agree Ast.Route.unplaced (parseRoute cfg text l start) (parseRoute cfg text l' start) := by
  unfold parseRoute
  split
  · rfl
  simp only
  split
  · rfl
  split
  · split
    · rfl
    · refine parsePredicate_agree.bind ?_
      intro predicate predicate' hpredicate
      change Ast.Route.mk _ _ _ = Ast.Route.mk _ _ _
      rw [Ast.RouteMode.unplaced, Ast.RouteMode.unplaced, show predicate.unplaced = _ from hpredicate]
      rfl
  split
  · rfl
  · rfl

theorem parseRoutes_keeps :
    KeepsEntry W (fun v parts => parseRoutes cfg eof v parts indent)
      (fun v parts => parseRoutes cfg eof' v parts indent) := by
  intro l l' u u' parts htext h hrest
  have hkeyword : (lineView l).line.text = (lineView l').line.text := htext
  unfold parseRoutes
  simp only [hkeyword]
  refine mirrors_advance ?_
  split
  · refine mirrors_read (parseRoute_agree _ _) hrest ?_
    intro route route' _ _ hroute
    refine mirrors_pure (fun _ => ⟨?_, hrest⟩)
    simp only [Ast.Entry.unplaced, List.map_cons, List.map_nil, hroute]
  · apply mirrors_peek
    refine (mirrors_items (P := Any _) (f := fun item => item.1.unplaced) ?_ hrest).bind
      (fun _ _ _ _ _ _ _ _ _ => trivial) ?_
    · intro s s' hs
      refine (markedLine_keeps (by omega) hs).andThen ?_
      intro found t found' t' hfound
      cases hfound with
      | none h => exact mirrors_pure (fun _ => ⟨.stop, h⟩)
      | some htext h hrest =>
        have hsame := lineView_same htext
        simp only [hsame.index]
        refine mirrors_read (parseRoute_agree _ _) h ?_
        intro route route' _ _ hroute
        exact mirrors_advance (mirrors_pure (fun _ => ⟨.next hroute, hrest⟩))
    · rintro routes t routes' t' ⟨hroutes, ht⟩
      have hvalues : (routes.map Prod.fst).map Ast.Route.unplaced =
          (routes'.map Prod.fst).map Ast.Route.unplaced := by
        rw [List.map_map, List.map_map]
        exact hroutes
      rcases ends_same hroutes with ⟨rfl, rfl⟩ | ⟨_, _, last, last', -, -, hlast, hlast'⟩
      · exact mirrors_fail (W.errors ht (eofError_same _))
      · simp only [hlast, hlast']
        refine mirrors_pure (fun _ => ⟨?_, ht⟩)
        simp only [Ast.Entry.unplaced, hvalues]

theorem bindingValue_here {l : SourceLine} {u t : List SourceLine} {parts : FieldParts}
    {value : Ast.Val} (hlocated : ∃ source, LineAt source l)
    (hsplit : splitField cfg (lineView l) = .ok parts)
    (hvalue : parseInlineValue cfg parts.rest l parts.valueStart (l :: u) = .ok value t)
    (h : (∃ r, value = .reference r) ∨ lower parts.key = "default".toList) : t = l :: u := by
  obtain ⟨source, hlocated⟩ := hlocated
  obtain ⟨hparts, -⟩ := splitEntry_spec hsplit
  rcases yields_iff.mp (parseInlineValue_here hlocated hparts.value) value t hvalue with
    ⟨ht, -⟩ | htook
  · exact ht
  · rcases h with ⟨r, rfl⟩ | hdefault
    · obtain ⟨_, _, _, _, _, _, heq, _⟩ := htook
      cases heq
    · exact absurd htook (not_tookLine hlocated hsplit hdefault)

theorem unplaced_reference {value value' : Ast.Val} (h : value.unplaced = value'.unplaced)
    {r' : Ast.Reference} (hr' : value' = .reference r') :
    ∃ r, value = .reference r ∧ r.unplaced = r'.unplaced := by
  subst hr'
  cases value with
  | reference r => exact ⟨r, rfl, Ast.Val.reference.inj h⟩
  | _ => cases h

theorem bindingEntry_keeps (hindent : 0 < indent) :
    KeepsLap W (Ast.BindingEntry.Admitted W.embedded) Ast.BindingEntry.unplaced
      (bindingEntry cfg indent) (bindingEntry cfg indent) := by
  intro s s' hs
  unfold bindingEntry
  refine mirrors_skip hs ?_ ?_ ?_
  · intro l l' u u' htext _ h hrest hhere _
    refine mirrors_view htext h (fun hsame => ?_)
    rw [hsame.indent]
    split
    · exact mirrors_pure (fun _ => ⟨.stop, h⟩)
    refine mirrors_read (splitEntry_agree hsame) h ?_
    intro parts parts' hsplit hsplit' hparts
    obtain rfl : parts = parts' := hparts
    simp only [htext]
    split
    · exact mirrors_fail (W.errors h rfl)
    next hkey =>
      refine (parseInlineValue_keeps _ _ h hhere).runs.bind ?_ ?_
      · intro _ value' t' lap _ hlap hitems
        split at hlap
        · cases value' with
          | reference r => trivial
          | _ => cases hlap
        · cases hlap
          exact hitems _ (List.mem_singleton_self _)
      · rintro value t value' t' ⟨⟨hv, ht⟩, hvalue, hvalue'⟩
        obtain ⟨hlocated, hlocated'⟩ := W.located h
        split
        next hfrom =>
          by_cases hreference : ∃ r', value' = .reference r'
          · obtain ⟨r', rfl⟩ := hreference
            obtain ⟨r, rfl, hr⟩ := unplaced_reference hv rfl
            obtain rfl := bindingValue_here hlocated hsplit hvalue (.inl ⟨r, rfl⟩)
            obtain rfl := bindingValue_here hlocated' hsplit' hvalue' (.inl ⟨r', rfl⟩)
            refine mirrors_advance (mirrors_pure (fun _ => ⟨.next ?_, hrest⟩))
            change Ast.BindingEntry.source _ _ _ = Ast.BindingEntry.source _ _ _
            rw [hr]
          · have hreference' : ¬ ∃ r, value = .reference r := by
              rintro ⟨r, hr⟩
              obtain ⟨r', hr', -⟩ := unplaced_reference hv.symm hr
              exact hreference ⟨r', hr'⟩
            refine mirrors_error ?_ (?_ : _ = EStateM.Result.error _ t') (W.errors ht (raised_same cfg
              "RATTISH_EXPECTED_TOKEN" "Expanded binding from field requires a reference." l l'
              parts.valueStart l'.text.length .parser))
            · cases value with
              | reference r => exact absurd ⟨r, rfl⟩ hreference'
              | _ => rfl
            · cases value' with
              | reference r => exact absurd ⟨r, rfl⟩ hreference
              | _ => rfl
        next hfrom =>
          have hdefault : lower parts.key = "default".toList := by
            simp only [Bool.or_eq_true, Bool.and_eq_true, decide_eq_true_eq, not_or, not_and,
              ne_eq, not_not] at hkey
            exact hkey.1 hfrom
          obtain rfl := bindingValue_here hlocated hsplit hvalue (.inr hdefault)
          obtain rfl := bindingValue_here hlocated' hsplit' hvalue' (.inr hdefault)
          refine mirrors_advance (mirrors_pure (fun _ => ⟨.next ?_, hrest⟩))
          change Ast.BindingEntry.default _ _ _ = Ast.BindingEntry.default _ _ _
          rw [hv]
  · intro h
    exact mirrors_pure (fun _ => ⟨.stop, h⟩)
  · intro line more houter h
    refine mirrors_ok (a := .stop) (t := line :: more) ?_ rfl (fun _ => ⟨.stop, h⟩)
    simp only
    rw [run_view_outer houter]
    simp only [ne_eq, hindent.ne, not_false_eq_true, if_true]
    rfl

theorem parseBinding_keeps (hindent : 0 < indent) :
    KeepsLap W (Ast.Binding.Admitted W.embedded) Ast.Binding.unplaced (parseBinding cfg indent)
      (parseBinding cfg indent) := by
  intro s s' hs
  unfold parseBinding
  refine mirrors_skip hs ?_ ?_ ?_
  · intro l l' u u' htext _ h hrest _ hnear
    refine mirrors_view htext h (fun hsame => ?_)
    rw [hsame.indent]
    split
    · exact mirrors_pure (fun _ => ⟨.stop, h⟩)
    refine mirrors_same (splitEntry_agree hsame) h (fun parts => ?_)
    refine mirrors_advance ?_
    split
    · refine (parseBindingValue_keeps u u' hrest hnear).bind ?_ ?_
      · intro _ value' t' lap _ hlap hitems
        cases hlap
        exact hitems _ (List.mem_singleton_self _)
      · rintro value t value' t' ⟨hv, ht⟩
        refine mirrors_pure (fun _ => ⟨.next ?_, ht⟩)
        change Ast.Binding.compact _ _ _ = Ast.Binding.compact _ _ _
        rw [hv]
        rfl
    · apply mirrors_peek
      refine (mirrors_items (bindingEntry_keeps (by omega)) hrest).bind ?_ ?_
      · intro _ entries' t' lap _ hlap hitems
        cases hlast' : entries'.getLast? with
        | none =>
          rw [hlast'] at hlap
          cases hlap
        | some last' =>
          rw [hlast'] at hlap
          cases hlap
          exact hitems _ (List.mem_singleton_self _)
      · rintro entries t entries' t' ⟨hentries, ht⟩
        rcases ends_same hentries with ⟨rfl, rfl⟩ | ⟨_, _, last, last', -, -, hlast, hlast'⟩
        · exact mirrors_fail (W.errors ht (by simp only [htext]; rfl))
        · simp only [hlast, hlast']
          refine mirrors_pure (fun _ => ⟨.next ?_, ht⟩)
          change Ast.Binding.expanded _ _ _ = Ast.Binding.expanded _ _ _
          rw [hentries]
          rfl
  · intro h
    exact mirrors_pure (fun _ => ⟨.stop, h⟩)
  · intro line more houter h
    refine mirrors_ok (a := .stop) (t := line :: more) ?_ rfl (fun _ => ⟨.stop, h⟩)
    simp only
    rw [run_view_outer houter]
    simp only [ne_eq, hindent.ne, not_false_eq_true, if_true]
    rfl

theorem parseBindings_keeps :
    KeepsEntry W (fun v parts => parseBindings cfg eof v parts indent)
      (fun v parts => parseBindings cfg eof' v parts indent) := by
  intro l l' u u' parts htext h hrest
  have hkeyword : (lineView l).line.text = (lineView l').line.text := htext
  unfold parseBindings
  simp only [hkeyword]
  split
  · exact mirrors_fail (W.errors h rfl)
  refine mirrors_advance ?_
  apply mirrors_peek
  refine (mirrors_items (parseBinding_keeps (by omega)) hrest).bind ?_ ?_
  · intro _ bindings' t' entry' _ hentry hadmitted
    cases hlast' : bindings'.getLast? with
    | none =>
      rw [hlast'] at hentry
      cases hentry
    | some last' =>
      rw [hlast'] at hentry
      cases hentry
      exact hadmitted
  · rintro bindings t bindings' t' ⟨hbindings, ht⟩
    rcases ends_same hbindings with ⟨rfl, rfl⟩ | ⟨_, _, last, last', -, -, hlast, hlast'⟩
    · exact mirrors_fail (W.errors ht (eofError_same _))
    · simp only [hlast, hlast']
      refine mirrors_pure (fun _ => ⟨?_, ht⟩)
      simp only [Ast.Entry.unplaced, hbindings]

theorem nodeEntry_keeps :
    KeepsLap W (Ast.Entry.Admitted W.embedded) Ast.Entry.unplaced (nodeEntry cfg eof 0)
      (nodeEntry cfg eof' 0) := by
  intro s s' hs
  unfold nodeEntry
  refine (entryLine_keeps hs).andThen ?_
  intro found t found' t' hfound
  cases hfound with
  | none h => exact mirrors_pure (fun _ => ⟨.stop, h⟩)
  | some htext h hrest hhere hnear =>
    refine mirrors_same (splitEntry_agree (lineView_same htext)) h (fun parts => ?_)
    have hadmitted {entry' : Ast.Entry} {t' : List SourceLine} {lap : Lap Ast.Entry}
        {u' : List SourceLine} (hlap : (pure (Lap.next entry') : Parse (Lap Ast.Entry)) t' = .ok lap u')
        (hitems : ∀ a ∈ lap.items, a.Admitted W.embedded) : entry'.Admitted W.embedded := by
      cases hlap
      exact hitems _ (List.mem_singleton_self _)
    simp only
    split
    · refine (parseNeeds_keeps _ _ _ _ parts htext h hrest).bind
        (fun _ _ _ _ _ hlap hitems => hadmitted hlap hitems) ?_
      rintro entry t entry' t' ⟨he, ht⟩
      exact mirrors_pure (fun _ => ⟨.next he, ht⟩)
    split
    · refine (parseRoutes_keeps _ _ _ _ parts htext h hrest).bind
        (fun _ _ _ _ _ hlap hitems => hadmitted hlap hitems) ?_
      rintro entry t entry' t' ⟨he, ht⟩
      exact mirrors_pure (fun _ => ⟨.next he, ht⟩)
    split
    · refine (parseBindings_keeps _ _ _ _ parts htext h hrest).bind
        (fun _ _ _ _ _ hlap hitems => hadmitted hlap hitems) ?_
      rintro entry t entry' t' ⟨he, ht⟩
      exact mirrors_pure (fun _ => ⟨.next he, ht⟩)
    · refine (parseGenericField_keeps _ _ _ _ htext h hrest hnear).bind
        (fun _ _ _ _ _ hlap hitems => hadmitted hlap hitems) ?_
      rintro field t field' t' ⟨hf, ht⟩
      exact mirrors_pure (fun _ => ⟨.next (congrArg Ast.Entry.field hf), ht⟩)

theorem parseNodeEntries_keeps :
    Keeps W (fun entries => ∀ entry ∈ entries, entry.Admitted W.embedded)
      (List.map Ast.Entry.unplaced) (parseNodeEntries cfg eof 0) (parseNodeEntries cfg eof' 0) := by
  intro s s' hs
  unfold parseNodeEntries
  apply mirrors_peek
  exact mirrors_items nodeEntry_keeps hs

end Entries

section Document
variable {cfg : ParserConfig} {W : Walk cfg} {eof eof' : SourcePosition}

theorem parseVersion_keeps :
    KeepsHere W (Any Ast.Version) Ast.Version.unplaced (parseVersion cfg eof)
      (parseVersion cfg eof') := by
  intro l l' u u' htext h hrest _
  unfold parseVersion
  refine mirrors_view htext h (fun hsame => ?_)
  rw [hsame.indent, hsame.content, hsame.index]
  split
  · exact mirrors_fail (W.errors h (by simp only [lineIndentError, hsame.indent]; rfl))
  split
  · exact mirrors_fail (W.errors h (by simp only [htext]; rfl))
  · refine mirrors_same (Agree.refl id _) h (fun value => ?_)
    exact mirrors_advance (mirrors_pure (fun _ => ⟨rfl, hrest⟩))

theorem workflowHeader_agree {v v' : LineView} (h : SameView v v') :
    Agree id (workflowHeader cfg v) (workflowHeader cfg v') := by
  unfold workflowHeader
  simp only [h.indent, h.content, h.index, h.text]
  split
  · simp only [lineIndentError, h.indent, h.index]
    rfl
  split
  · split
    · split
      · rfl
      · rfl
    · rfl
  · rfl

theorem nodeHeader_agree {v v' : LineView} (h : SameView v v') :
    Agree (fun header : Text × Ast.Identifier => (header.1, header.2.unplaced)) (nodeHeader cfg v)
      (nodeHeader cfg v') := by
  unfold nodeHeader
  simp only [h.indent, h.content, h.index, h.text]
  split
  · simp only [lineIndentError, h.indent, h.index]
    rfl
  split
  · rfl
  · rfl

theorem parseWorkflow_keeps :
    KeepsHere W (Ast.Workflow.Admitted W.embedded) Ast.Workflow.unplaced (parseWorkflow cfg)
      (parseWorkflow cfg) := by
  intro l l' u u' htext h hrest _
  unfold parseWorkflow viewHere
  refine mirrors_view htext h (fun hsame => ?_)
  refine mirrors_same (workflowHeader_agree hsame) h (fun word => ?_)
  refine mirrors_advance ?_
  refine (parseGenericEntries_keeps u u' hrest).bind ?_ ?_
  · intro _ entries' t' workflow' _ hworkflow hadmitted
    cases hlast' : entries'.getLast? with
    | none =>
      rw [hlast'] at hworkflow
      cases hworkflow
    | some last' =>
      rw [hlast'] at hworkflow
      cases hworkflow
      exact hadmitted
  · rintro entries t entries' t' ⟨hentries, ht⟩
    rcases ends_same hentries with ⟨rfl, rfl⟩ | ⟨_, _, last, last', -, -, hlast, hlast'⟩
    · exact mirrors_fail (W.errors ht (by simp only [hsame.text, hsame.index]; rfl))
    · simp only [hlast, hlast']
      refine mirrors_pure (fun _ => ⟨?_, ht⟩)
      simp only [Ast.Workflow.unplaced, hentries]

theorem parseNode_keeps :
    KeepsHere W (Ast.NodeDecl.Admitted W.embedded) Ast.NodeDecl.unplaced (parseNode cfg eof)
      (parseNode cfg eof') := by
  intro l l' u u' htext h hrest _
  unfold parseNode viewHere
  refine mirrors_view htext h (fun hsame => ?_)
  refine mirrors_read (nodeHeader_agree hsame) h ?_
  rintro ⟨word, name⟩ ⟨word', name'⟩ - - hheader
  obtain ⟨rfl, hname⟩ := Prod.mk.inj hheader
  refine mirrors_advance ?_
  refine (parseNodeEntries_keeps u u' hrest).bind ?_ ?_
  · intro _ entries' t' node' _ hnode hadmitted
    cases hlast' : entries'.getLast? with
    | none =>
      rw [hlast'] at hnode
      cases hnode
    | some last' =>
      rw [hlast'] at hnode
      cases hnode
      exact hadmitted
  · rintro entries t entries' t' ⟨hentries, ht⟩
    rcases ends_same hentries with ⟨rfl, rfl⟩ | ⟨_, _, last, last', -, -, hlast, hlast'⟩
    · exact mirrors_fail (W.errors ht (by simp only [hsame.text, hsame.index]; rfl))
    · simp only [hlast, hlast']
      refine mirrors_pure (fun _ => ⟨?_, ht⟩)
      simp only [Ast.NodeDecl.unplaced, hentries, hname]

def Walk.Ends (W : Walk cfg) : Prop := ∀ line more, Outer line → ¬ W.R (line :: more) []

theorem parseHeader_keeps (hends : W.Ends) :
    Keeps W (fun header : Ast.Version × Ast.Workflow => header.2.Admitted W.embedded)
      (fun header => (header.1.unplaced, header.2.unplaced)) (parseHeader cfg eof)
      (parseHeader cfg eof') := by
  intro s s' hs
  unfold parseHeader
  refine (W.skip hs).andThen ?_
  intro _ t _ t' hready
  have hversion : Mirrors W.accord (Any Ast.Version) (parseVersion cfg eof) (parseVersion cfg eof')
      (fun a t a' t' => a.unplaced = a'.unplaced ∧ W.R t t') t t' := by
    cases hready with
    | line htext _ h hrest _ hnear => exact parseVersion_keeps _ _ _ _ htext h hrest hnear
    | done ht h =>
      rcases ht with rfl | ⟨line, more, rfl, houter⟩
      · exact mirrors_error rfl rfl (W.errors h (eofError_same _))
      · exact absurd h (hends line more houter)
  refine hversion.andThen ?_
  rintro version t version' t' ⟨hv, ht⟩
  refine (W.skip ht).andThen ?_
  intro _ t _ t' hready
  have hworkflow : Mirrors W.accord (Ast.Workflow.Admitted W.embedded) (parseWorkflow cfg)
      (parseWorkflow cfg) (fun a t a' t' => a.unplaced = a'.unplaced ∧ W.R t t') t t' := by
    cases hready with
    | line htext _ h hrest _ hnear => exact parseWorkflow_keeps _ _ _ _ htext h hrest hnear
    | done ht h =>
      rcases ht with rfl | ⟨line, more, rfl, houter⟩
      · exact mirrors_error rfl rfl (W.errors h rfl)
      · exact absurd h (hends line more houter)
  refine hworkflow.bind ?_ ?_
  · intro _ workflow' t' header' _ hheader hadmitted
    cases hheader
    exact hadmitted
  · rintro workflow t workflow' t' ⟨hw, ht⟩
    exact mirrors_pure (fun _ => ⟨Prod.ext hv hw, ht⟩)

/-- What `moreNodes` finds: no declaration on either side, or lines of the same text. -/
inductive NodeAt (W : Walk cfg) : Bool → List SourceLine → Bool → List SourceLine → Prop
  | none {t t' : List SourceLine} (h : W.R t t') : NodeAt W false t false t'
  | some {l l' : SourceLine} {u u' : List SourceLine} (htext : l.text = l'.text)
      (h : W.R (l :: u) (l' :: u')) (hrest : W.R u u') (hnear : W.near l' u u') :
      NodeAt W true (l :: u) true (l' :: u')

theorem moreNodes_keeps (hends : W.Ends) {s s' : List SourceLine} (hs : W.R s s') :
    Mirrors W.accord (Any Bool) (moreNodes cfg) (moreNodes cfg) (NodeAt W) s s' := by
  unfold moreNodes
  refine mirrors_skip hs ?_ ?_ ?_
  · intro l l' u u' htext hmeaningful h hrest _ hnear
    have hmeaningful' : (lineView l').isIgnorable = false := by
      rw [← isIgnorable_same (lineView_same htext)]
      exact hmeaningful
    simp only [atEofLine_meaningful hmeaningful, atEofLine_meaningful hmeaningful', Bool.not_false]
    exact mirrors_pure (fun _ => .some htext h hrest hnear)
  · intro h
    exact mirrors_pure (fun _ => .none h)
  · intro line more houter h
    exact absurd h (hends line more houter)

theorem parseNodes_keeps (hends : W.Ends) :
    Keeps W (fun nodes => ∀ node ∈ nodes, node.Admitted W.embedded) (List.map Ast.NodeDecl.unplaced)
      (parseNodes cfg eof) (parseNodes cfg eof') := by
  intro s s' hs
  unfold parseNodes
  apply mirrors_peek
  refine mirrors_items ?_ hs
  intro s s' hs
  refine (moreNodes_keeps hends hs).andThen ?_
  intro more t more' t' hmore
  cases hmore with
  | none h => exact mirrors_pure (fun _ => ⟨.stop, h⟩)
  | some htext h hrest hnear =>
    refine (parseNode_keeps _ _ _ _ htext h hrest hnear).bind ?_ ?_
    · intro _ node' t' lap _ hlap hitems
      cases hlap
      exact hitems _ (List.mem_singleton_self _)
    · rintro node t node' t' ⟨hn, ht⟩
      exact mirrors_pure (fun _ => ⟨.next hn, ht⟩)

def parseDocument (cfg : ParserConfig) (source : Text) : Parse Ast.Document := do
  let header ← parseHeader cfg (documentEnd source)
  let nodes ← parseNodes cfg (documentEnd source)
  return documentOf cfg source header nodes

theorem parse_eq (cfg : ParserConfig) (source : Text) :
    parse cfg source = match parseDocument cfg source (physicalLines source) with
      | .ok document _ => .ok document
      | .error e _ => .error e := rfl

theorem parseDocument_keeps (hends : W.Ends) (source source' : Text) :
    Keeps W (Ast.Document.Admitted W.embedded) Ast.Document.unplaced (parseDocument cfg source)
      (parseDocument cfg source') := by
  intro s s' hs
  unfold parseDocument
  refine (parseHeader_keeps hends s s' hs).bind ?_ ?_
  · intro _ header' t' document' u' hdocument hadmitted
    simp only [Bind.bind, EStateM.bind] at hdocument
    split at hdocument
    · cases hdocument
      exact hadmitted.1
    · cases hdocument
  · rintro header t header' t' ⟨hheader, ht⟩
    refine (parseNodes_keeps hends t t' ht).bind ?_ ?_
    · intro _ nodes' t' document' _ hdocument hadmitted
      cases hdocument
      exact hadmitted.2
    · rintro nodes t nodes' t' ⟨hnodes, ht⟩
      refine mirrors_pure (fun _ => ⟨?_, ht⟩)
      obtain ⟨hversion, hworkflow⟩ := Prod.mk.inj hheader
      simp only [Ast.Document.unplaced, documentOf, hversion, hworkflow, hnodes]

end Document

end Raticode.Rattish
