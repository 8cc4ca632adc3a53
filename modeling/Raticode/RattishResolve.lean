import Mathlib.Data.List.Nodup
import Raticode.RattishBinding

/-! When a compiled binding resolves for all runtime data its declarations
admit. The compiler marks a source as optional, and asks for a default, by the
activation of its producer alone; whether the declared data hold the selected
value is a question of the input declarations and of the schemas. -/
namespace Raticode.Rattish
open OrderedDict

/-- The public inputs as `_workflow_inputs` builds them: no name twice. -/
structure WorkflowInputs where
  declarations : List InputDeclaration
  nodup : (declarations.map (·.name)).Nodup

def WorkflowInputs.schemas (inputs : WorkflowInputs) : Dict String (Keywords Schema) :=
  inputs.declarations.map (fun d => (d.name, d.schema))

def selectPath (path : List Selector) (base : Option Value) : Option Value :=
  path.foldl (fun value selector => value.bind (Value.select · selector)) base

def HasPath (search : String → String → Bool) (schema : Keywords Schema) (path : List Selector) :
    Prop :=
  ∀ v, Schema.valid search (.obj schema) v = true → (selectPath path (some v)).isSome

/-- Runtime data as the declarations admit them: inputs that
`_prepare_workflow_inputs` accepts, and a valid output of each guaranteed source. -/
structure Admissible (search : String → String → Bool) (inputs : WorkflowInputs)
    (consumer : Draft) (drafts : Dict NodeId Draft) (env : Env) (scope : Scope) : Prop where
  accepted : ∃ supplied,
    prepareWorkflowInputs search inputs.declarations supplied = some env.workflowInputs
  outputs : ∀ s ∈ consumer.guaranteedSources, ∀ producer, Dict.get drafts s = some producer →
    ∃ v, Dict.get scope.outputs s = some v ∧
      Schema.valid search (.obj producer.outputSchema) v = true

def Promised (search : String → String → Bool) (inputs : WorkflowInputs)
    (drafts : Dict NodeId Draft) (reference : Reference) : Prop :=
  match reference.root, reference.channel with
  | .input, _ => ∃ d ∈ inputs.declarations, reference.symbol = some d.name ∧
      (d.required = true ∨ d.default.isSome) ∧ HasPath search d.schema reference.path
  | .trigger, _ => reference.path = []
  | .node, some .output => ∃ symbol producer, reference.symbol = some symbol ∧
      Dict.get drafts symbol = some producer ∧ HasPath search producer.outputSchema reference.path
  | _, _ => False

def Secured (search : String → String → Bool) (inputs : WorkflowInputs)
    (drafts : Dict NodeId Draft) (binding : Binding) : Prop :=
  ∀ reference, binding.source = .reference reference →
    binding.default.isSome ∨ Promised search inputs drafts reference

section Inputs
variable {search : String → String → Bool}

def Complete (search : String → String → Bool) (declarations : List InputDeclaration)
    (inputs : Dict String Value) : Prop :=
  ∀ d ∈ declarations, (∀ v, Dict.get inputs d.name = some v →
    Schema.valid search (.obj d.schema) v = true) ∧
    (Dict.get inputs d.name = none → d.required = false ∧ d.default = none)

theorem prepareInputs_of_complete {ds : List InputDeclaration} {p : Dict String Value}
    (h : Complete search ds p) : prepareInputs search ds p = some p := by
  induction ds with
  | nil => rfl
  | cons d ds ih =>
    have hrest := ih (fun e he => h e (List.mem_cons_of_mem _ he))
    obtain ⟨hvalid, habsent⟩ := h d List.mem_cons_self
    cases hg : Dict.get p d.name with
    | some v => simp [prepareInputs, hg, hvalid v hg, hrest]
    | none =>
      obtain ⟨hreq, hdef⟩ := habsent hg
      simp [prepareInputs, hg, hreq, hdef, hrest]

theorem prepareInputs_get {ds : List InputDeclaration} {p r : Dict String Value}
    (h : prepareInputs search ds p = some r) (name : String) :
    (∀ v, Dict.get p name = some v → Dict.get r name = some v) ∧
      (name ∉ ds.map (·.name) → Dict.get r name = Dict.get p name) := by
  induction ds generalizing p with
  | nil =>
    cases h
    exact ⟨fun _ => id, fun _ => rfl⟩
  | cons d ds ih =>
    simp only [prepareInputs] at h
    split at h
    · split at h
      · obtain ⟨hkeep, hother⟩ := ih h
        exact ⟨hkeep, fun hn => hother (fun hm => hn (List.mem_cons_of_mem _ hm))⟩
      · cases h
    next w hnone hdef =>
      split at h
      · obtain ⟨hkeep, hother⟩ := ih h
        refine ⟨fun v hv => hkeep v ?_, fun hn => ?_⟩
        · have hne : d.name ≠ name := fun he => by simp [he, hv] at hnone
          rw [Dict.get_set_ne _ _ hne, hv]
        · have hne : d.name ≠ name := fun he => hn (by simp [he])
          rw [hother (fun hm => hn (List.mem_cons_of_mem _ hm)), Dict.get_set_ne _ _ hne]
      · cases h
    · split at h
      · cases h
      · obtain ⟨hkeep, hother⟩ := ih h
        exact ⟨hkeep, fun hn => hother (fun hm => hn (List.mem_cons_of_mem _ hm))⟩

theorem complete_of_prepareInputs {ds : List InputDeclaration} {p r : Dict String Value}
    (hnd : (ds.map (·.name)).Nodup) (h : prepareInputs search ds p = some r) :
    Complete search ds r := by
  induction ds generalizing p with
  | nil => exact fun d hd => absurd hd List.not_mem_nil
  | cons d ds ih =>
    rw [List.map_cons, List.nodup_cons] at hnd
    have hhead : ∀ p', prepareInputs search ds p' = some r → Dict.get r d.name = Dict.get p' d.name :=
      fun p' h' => (prepareInputs_get h' d.name).2 hnd.1
    have hcons : (∀ v, Dict.get r d.name = some v → Schema.valid search (.obj d.schema) v = true) →
        (Dict.get r d.name = none → d.required = false ∧ d.default = none) →
        Complete search ds r → Complete search (d :: ds) r := by
      intro hvalid habsent htail e he
      rcases List.mem_cons.mp he with rfl | he
      · exact ⟨hvalid, habsent⟩
      · exact htail e he
    simp only [prepareInputs] at h
    split at h
    next v hget =>
      split at h
      next hv =>
        refine hcons ?_ ?_ (ih hnd.2 h)
        · intro w hw
          rw [hhead p h, hget] at hw
          cases hw
          exact hv
        · intro hnone
          rw [hhead p h, hget] at hnone
          cases hnone
      · cases h
    next v hget hdef =>
      split at h
      next hv =>
        have hset : Dict.get r d.name = some v := by rw [hhead _ h, Dict.get_set_self]
        refine hcons ?_ ?_ (ih hnd.2 h)
        · intro w hw
          rw [hset] at hw
          cases hw
          exact hv
        · intro hnone
          rw [hset] at hnone
          cases hnone
      · cases h
    next hget hdef =>
      split at h
      · cases h
      next hreq =>
        refine hcons ?_ (fun _ => ⟨by simpa using hreq, hdef⟩) (ih hnd.2 h)
        intro w hw
        rw [hhead p h, hget] at hw
        cases hw

theorem prepareInputs_keys {ds : List InputDeclaration} {p r : Dict String Value}
    (h : prepareInputs search ds p = some r) {name : String} (hn : name ∈ r.keys) :
    name ∈ p.keys ∨ name ∈ ds.map (·.name) := by
  by_cases hm : name ∈ ds.map (·.name)
  · exact .inr hm
  · left
    have hget := (prepareInputs_get h name).2 hm
    rw [← Dict.get_isSome_iff] at hn ⊢
    rwa [← hget]

theorem accepted_iff (inputs : WorkflowInputs) (p : Dict String Value) :
    (∃ supplied, prepareWorkflowInputs search inputs.declarations supplied = some p) ↔
      (∀ name ∈ p.keys, name ∈ inputs.declarations.map (·.name)) ∧
        Complete search inputs.declarations p := by
  constructor
  · rintro ⟨supplied, h⟩
    simp only [prepareWorkflowInputs] at h
    split at h
    next hknown =>
      refine ⟨fun name hn => ?_, complete_of_prepareInputs inputs.nodup h⟩
      rcases prepareInputs_keys h hn with hs | hd
      · simpa using List.all_eq_true.mp hknown name hs
      · exact hd
    · cases h
  · rintro ⟨hkeys, hcomplete⟩
    refine ⟨p, ?_⟩
    have hknown : p.keys.all (fun name => inputs.declarations.any (·.name = name)) = true := by
      apply List.all_eq_true.mpr
      intro name hn
      simpa using hkeys name hn
    rw [prepareWorkflowInputs, if_pos hknown]
    exact prepareInputs_of_complete hcomplete

theorem Complete.set {inputs : WorkflowInputs} {p : Dict String Value} {d : InputDeclaration}
    (h : Complete search inputs.declarations p) (hd : d ∈ inputs.declarations) {v : Value}
    (hv : Schema.valid search (.obj d.schema) v = true) :
    Complete search inputs.declarations (p.set d.name v) := by
  intro e he
  by_cases hname : d.name = e.name
  · obtain rfl : d = e := List.inj_on_of_nodup_map inputs.nodup hd he hname
    rw [Dict.get_set_self]
    refine ⟨fun w hw => ?_, fun hnone => by cases hnone⟩
    cases hw
    exact hv
  · rw [Dict.get_set_ne _ _ hname]
    exact h e he

theorem Complete.erase {inputs : WorkflowInputs} {p : Dict String Value} {d : InputDeclaration}
    (h : Complete search inputs.declarations p) (hd : d ∈ inputs.declarations)
    (hreq : d.required = false) (hdef : d.default = none) :
    Complete search inputs.declarations (p.erase d.name) := by
  intro e he
  rw [Dict.get_erase]
  by_cases hname : e.name = d.name
  · obtain rfl : e = d := List.inj_on_of_nodup_map inputs.nodup he hd hname
    simp [hreq, hdef]
  · rw [if_neg hname]
    exact h e he

end Inputs

section Located
variable {consumer : Draft} {drafts : Dict NodeId Draft}

inductive Located (consumer : Draft) (drafts : Dict NodeId Draft) : Reference → Prop
  | input (symbol : String) (path : List Selector)
      (h : (Dict.get consumer.workflowInputs symbol).isSome) :
      Located consumer drafts ⟨.input, some symbol, none, path, false⟩
  | trigger (path : List Selector) :
      Located consumer drafts ⟨.trigger, some "events", none, path, false⟩
  | secret (symbol : String) : Located consumer drafts ⟨.secret, some symbol, none, [], false⟩
  | output (symbol : String) (path : List Selector) (producer : Draft)
      (h : Dict.get drafts symbol = some producer) :
      Located consumer drafts ⟨.node, some symbol, some .output, path,
        !consumer.guaranteedSources.contains symbol || producer.allowFail⟩
  | status (symbol : String) :
      Located consumer drafts ⟨.node, some symbol, some .status, [],
        !consumer.guaranteedSources.contains symbol⟩
  | error (symbol : String) (path : List Selector) :
      Located consumer drafts ⟨.node, some symbol, some .error, path, true⟩

theorem channelOf_ne_item (channel : Option String) : channelOf channel ≠ some .item := by
  unfold channelOf
  split <;> simp

theorem located_of_clean {ast : Ast.Reference} {reference : Reference} {schema : Keywords Schema}
    (hv : validateReference consumer drafts ast = some [])
    (hl : lowerReference consumer drafts ast = some (reference, schema)) :
    Located consumer drafts reference := by
  simp only [validateReference] at hv
  split at hv
  · cases hv
  split at hv
  next hroot hnode =>
    -- A root other than `node`: the first selector names the source.
    split at hv
    · cases hv
    next first rest hsel =>
      rw [lowerReference, hsel] at hl
      split at hv
      next hr =>
        rw [hr] at hl
        split at hv
        next hknown =>
          cases hl
          exact .input _ _ hknown
        · cases hv
      next hr =>
        rw [hr] at hl
        split at hv
        next hevents =>
          cases hl
          rw [hevents]
          exact .trigger _
        · cases hv
      next hr =>
        rw [hr] at hl
        cases hl
        exact .secret _
      next hinput htrigger hsecret =>
        split at hl <;> simp_all
  next hroot hnode =>
    have hnode' : String.ofList ast.root.canonical = "node" := not_not.mp hnode
    split at hv
    next first second rest hsel =>
      rw [lowerReference, hsel, hnode'] at hl
      split at hv
      · cases hv
      next symbol hfirst =>
        split at hv
        · cases hv
        next producer hproducer =>
          obtain ⟨name, rfl, hget⟩ := Option.bind_eq_some_iff.mp hproducer
          split at hv
          · cases hv
          next channel hsecond =>
            simp only [hfirst, hsecond, Option.bind_eq_bind, Option.bind_some, hget] at hl
            split at hl
            · cases hl
              exact .output _ _ _ (by simp_all)
            · cases hl
              exact .status _
            · cases hl
              exact .error _ _
            next hstatus herror hout =>
              -- A channel the checks accept is one of the three.
              cases hc : channelOf channel with
              | none => simp [hc] at hv
              | some c => cases c with
                | output => exact (hout producer hc rfl).elim
                | status => exact absurd hc hstatus
                | error => exact absurd hc herror
                | item => exact absurd hc (channelOf_ne_item channel)
    · cases hv

theorem validatePath_errors {producer : NodeId} {schema : Keywords Schema}
    {selectors : List Ast.RefSelector} :
    ∀ d ∈ validatePath consumer producer schema selectors, d.severity = .error := by
  induction selectors generalizing schema with
  | nil => simp [validatePath]
  | cons selector rest ih =>
    simp only [validatePath]
    split
    · split
      · exact ih
      · exact ih
      · split
        · simp
        · split
          · simp
          · exact ih
          · exact ih
    · split
      · exact ih
      · simp

theorem validateReference_errors {ast : Ast.Reference} {problems : List Diagnostic}
    (h : validateReference consumer drafts ast = some problems) :
    ∀ d ∈ problems, d.severity = .error := by
  simp only [validateReference] at h
  repeat' split at h
  all_goals first
    | cases h
  all_goals first
    | simp
    | exact validatePath_errors

theorem eq_nil_of_errors {problems diagnostics : List Diagnostic}
    (hclean : ∀ d ∈ diagnostics, d.severity ≠ .error) (hsub : problems ⊆ diagnostics)
    (herrors : ∀ d ∈ problems, d.severity = .error) : problems = [] := by
  apply List.eq_nil_iff_forall_not_mem.mpr
  intro d hd
  exact hclean d (hsub hd) (herrors d hd)

theorem lowerSource_reference {regex : Regex} {name : String} {span : SourceSpan}
    {hasDefault : Bool} {ast : Ast.Val} {reference : Reference} {schema : Keywords Schema}
    {problems : List Diagnostic}
    (h : lowerSource regex consumer drafts name span hasDefault ast =
      some (some (.reference reference, schema), problems))
    (hclean : ∀ d ∈ problems, d.severity ≠ .error) :
    Located consumer drafts reference ∧ (reference.optional = true → hasDefault = true) := by
  unfold lowerSource at h
  split at h
  next r =>
    obtain ⟨checked, hchecked, h⟩ := Option.bind_eq_some_iff.mp h
    split at h
    · cases h
    next lowered schema' hlowered =>
      simp only [Option.pure_def, Option.some.injEq, Prod.mk.injEq, BindingSource.reference.injEq] at h
      obtain ⟨⟨rfl, rfl⟩, rfl⟩ := h
      have hnil : checked = [] := eq_nil_of_errors hclean (List.subset_append_left _ _)
        (validateReference_errors hchecked)
      rw [hnil] at hchecked
      refine ⟨located_of_clean hchecked hlowered, fun ho => ?_⟩
      -- A missing default would be reported.
      cases hasDefault with
      | true => rfl
      | false =>
        simp only [ho, Bool.not_false, Bool.and_self, if_true, List.mem_append,
          List.mem_singleton] at hclean
        exact absurd rfl (hclean _ (.inr rfl))
  next =>
    obtain ⟨checked, -, h⟩ := Option.bind_eq_some_iff.mp h
    split at h <;> simp at h
  next =>
    obtain ⟨literal, -, h⟩ := Option.bind_eq_some_iff.mp h
    simp at h

theorem located_of_compiles {regex : Regex} {ast : Ast.Binding} {binding : Binding}
    (hc : Compiles regex consumer drafts ast binding) {reference : Reference}
    (hs : binding.source = .reference reference) :
    Located consumer drafts reference ∧ (reference.optional = true → binding.default.isSome) := by
  obtain ⟨diagnostics, hlow, hclean⟩ := hc
  simp only [lowerBinding] at hlow
  obtain ⟨⟨lowered, problems⟩, hsource, hlow⟩ := Option.bind_eq_some_iff.mp hlow
  cases lowered with
  | none => cases hlow
  | some p =>
    obtain ⟨source, schema⟩ := p
    obtain ⟨accepted, -, hlow⟩ := Option.bind_eq_some_iff.mp hlow
    cases hdef : ast.defaultAst with
    | none =>
      simp only [hdef] at hlow hsource
      cases hlow
      cases hs
      obtain ⟨hloc, hopt⟩ := lowerSource_reference hsource
        (fun d hd => hclean d (List.mem_append_left _ (List.mem_append_right _ hd)))
      exact ⟨hloc, fun ho => absurd (hopt ho) (by simp)⟩
    | some v =>
      simp only [hdef] at hlow hsource
      obtain ⟨value, -, hlow⟩ := Option.bind_eq_some_iff.mp hlow
      cases hlow
      cases hs
      obtain ⟨hloc, -⟩ := lowerSource_reference hsource (fun d hd => hclean d
        (List.mem_append_left _ (List.mem_append_left _ (List.mem_append_right _ hd))))
      exact ⟨hloc, fun _ => rfl⟩

end Located

section Resolution
variable {search : String → String → Bool} {inputs : WorkflowInputs} {consumer : Draft}
  {drafts : Dict NodeId Draft} {env : Env} {scope : Scope}

theorem bindingValue_reference {binding : Binding} {reference : Reference}
    (hs : binding.source = .reference reference) (hd : binding.default = none)
    (ho : reference.optional = false) :
    bindingValue env scope binding = referenceValue env scope reference := by
  simp only [bindingValue, hs, hd, ho]
  cases referenceValue env scope reference <;> rfl

theorem referenceValue_of_promised {reference : Reference} (hloc : Located consumer drafts reference)
    (ho : reference.optional = false) (hp : Promised search inputs drafts reference)
    (ha : Admissible search inputs consumer drafts env scope) :
    (referenceValue env scope reference).isSome := by
  cases hloc with
  | input symbol path h =>
    obtain ⟨d, hd, hsym, hthere, hpath⟩ := hp
    obtain ⟨-, hcomplete⟩ := (accepted_iff inputs env.workflowInputs).mp ha.accepted
    obtain ⟨hvalid, habsent⟩ := hcomplete d hd
    cases hget : Dict.get env.workflowInputs d.name with
    | none =>
      obtain ⟨hreq, hdef⟩ := habsent hget
      simp [hreq, hdef] at hthere
    | some v =>
      cases hsym
      have := hpath v (hvalid v hget)
      simpa [referenceValue, selectPath, hget] using this
  | trigger path =>
    obtain rfl : path = [] := hp
    simp [referenceValue]
  | secret symbol => exact hp.elim
  | output symbol path producer h =>
    obtain ⟨symbol', producer', hsym, hget, hpath⟩ := hp
    cases hsym
    simp only [Bool.or_eq_false_iff, Bool.not_eq_false'] at ho
    obtain ⟨v, hv, hvalid⟩ := ha.outputs symbol (by simpa using ho.1) producer' hget
    have := hpath v hvalid
    simpa [referenceValue, selectPath, hv] using this
  | status symbol => exact hp.elim
  | error symbol path => simp at ho

@[simp] theorem selectPath_none (path : List Selector) : selectPath path none = none := by
  induction path with
  | nil => rfl
  | cons s path ih => simpa [selectPath] using ih

theorem selectPath_empty {path : List Selector} (h : (selectPath path (some (.arr []))).isSome) :
    path = [] := by
  cases path with
  | nil => rfl
  | cons s path =>
    have hnone : Value.select (.arr []) s = none := by cases s <;> simp [Value.select]
    have hstep : selectPath (s :: path) (some (.arr [])) = selectPath path none := by
      simp [selectPath, hnone]
    simp [hstep] at h

theorem promised_of_resolves {reference : Reference}
    (hin : consumer.workflowInputs = inputs.schemas) (hloc : Located consumer drafts reference)
    (hsecret : reference.root ≠ .secret) (ho : reference.optional = false)
    (ha : Admissible search inputs consumer drafts env scope)
    (hall : ∀ env scope, Admissible search inputs consumer drafts env scope →
      (referenceValue env scope reference).isSome) :
    Promised search inputs drafts reference := by
  cases hloc with
  | input symbol path h =>
    obtain ⟨hkeys, hcomplete⟩ := (accepted_iff inputs env.workflowInputs).mp ha.accepted
    rw [hin, Dict.get_isSome_iff] at h
    obtain ⟨d, hd, rfl⟩ : ∃ d ∈ inputs.declarations, d.name = symbol := by
      simpa [WorkflowInputs.schemas, Dict.keys] using h
    refine ⟨d, hd, rfl, ?_, ?_⟩
    · by_contra hnot
      have hreq : d.required = false := by
        cases hr : d.required with
        | false => rfl
        | true => exact absurd (.inl hr) hnot
      have hdef : d.default = none := by
        cases hr : d.default with
        | none => rfl
        | some v => exact absurd (.inr (by simp [hr])) hnot
      have hadm : Admissible search inputs consumer drafts
          { env with workflowInputs := env.workflowInputs.erase d.name } scope := by
        refine ⟨(accepted_iff inputs _).mpr ⟨fun name hn => ?_, hcomplete.erase hd hreq hdef⟩,
          ha.outputs⟩
        apply hkeys
        simp only [Dict.keys, Dict.erase, List.mem_map, List.mem_filter] at hn ⊢
        obtain ⟨p, ⟨hp, -⟩, hname⟩ := hn
        exact ⟨p, hp, hname⟩
      have hsome := hall _ _ hadm
      have hgone : referenceValue { env with workflowInputs := env.workflowInputs.erase d.name } scope
          ⟨.input, some d.name, none, path, false⟩ = selectPath path none := by
        simp [referenceValue, selectPath, Dict.get_erase]
      simp [hgone] at hsome
    · intro v hv
      have hadm : Admissible search inputs consumer drafts
          { env with workflowInputs := env.workflowInputs.set d.name v } scope := by
        refine ⟨(accepted_iff inputs _).mpr ⟨fun name hn => ?_, hcomplete.set hd hv⟩, ha.outputs⟩
        rw [← Dict.get_isSome_iff, Dict.get_set] at hn
        split at hn
        next he =>
          rw [← he]
          exact List.mem_map_of_mem hd
        · exact hkeys name (Dict.get_isSome_iff.mp hn)
      have hsome := hall _ _ hadm
      simpa [referenceValue, selectPath] using hsome
  | trigger path =>
    have hadm : Admissible search inputs consumer drafts { env with triggerEvents := [] } scope :=
      ⟨ha.accepted, ha.outputs⟩
    exact selectPath_empty (hall _ _ hadm)
  | secret symbol => exact absurd rfl hsecret
  | output symbol path producer h =>
    refine ⟨symbol, producer, rfl, h, fun v hv => ?_⟩
    have hadm : Admissible search inputs consumer drafts env
        { scope with outputs := scope.outputs.set symbol v } := by
      refine ⟨ha.accepted, fun s hs p hp => ?_⟩
      by_cases he : symbol = s
      · subst he
        rw [h] at hp
        cases hp
        exact ⟨v, by simp, hv⟩
      · obtain ⟨w, hw, hvalid⟩ := ha.outputs s hs p hp
        exact ⟨w, by simpa [Dict.get_set, he] using hw, hvalid⟩
    have hsome := hall _ _ hadm
    simpa [referenceValue, selectPath] using hsome
  | status symbol =>
    have hadm : Admissible search inputs consumer drafts env { scope with statuses := [] } :=
      ⟨ha.accepted, ha.outputs⟩
    have hsome := hall _ _ hadm
    simp [referenceValue] at hsome
  | error symbol path => simp at ho

/-- A compiled binding resolves in all admissible data exactly when it has a
default, or is no reference, or the declarations promise it its value. -/
theorem binding_resolves_iff (regex : Regex) (inputs : WorkflowInputs) (consumer : Draft)
    (drafts : Dict NodeId Draft) (ast : Ast.Binding) (binding : Binding)
    (hinputs : consumer.workflowInputs = inputs.schemas)
    (hcompiles : Compiles regex consumer drafts ast binding)
    (hsecret : ∀ reference, binding.source = .reference reference → reference.root ≠ .secret) :
    (∀ env scope, Admissible regex.search inputs consumer drafts env scope →
        (bindingValue env scope binding).isSome) ↔
      ((∃ env scope, Admissible regex.search inputs consumer drafts env scope) →
        Secured regex.search inputs drafts binding) := by
  constructor
  · rintro hall ⟨env, scope, ha⟩ reference hs
    obtain ⟨hloc, hopt⟩ := located_of_compiles hcompiles hs
    cases hd : binding.default with
    | some v => exact .inl rfl
    | none =>
      right
      have ho : reference.optional = false := by
        cases hr : reference.optional with
        | false => rfl
        | true => simpa [hd] using hopt hr
      apply promised_of_resolves hinputs hloc (hsecret _ hs) ho ha
      intro env' scope' ha'
      rw [← bindingValue_reference hs hd ho]
      exact hall env' scope' ha'
  · intro hsec env scope ha
    have hbinding := hsec ⟨env, scope, ha⟩
    cases hs : binding.source with
    | literal v => simp [bindingValue, hs]
    | expression e => simp [bindingValue, hs]
    | reference reference =>
      obtain ⟨hloc, hopt⟩ := located_of_compiles hcompiles hs
      cases hd : binding.default with
      | some v =>
        simp only [bindingValue, hs, hd]
        cases referenceValue env scope reference <;> rfl
      | none =>
        have ho : reference.optional = false := by
          cases hr : reference.optional with
          | false => rfl
          | true => simpa [hd] using hopt hr
        have hp : Promised regex.search inputs drafts reference := by
          rcases hbinding reference hs with hsome | hp
          · simp [hd] at hsome
          · exact hp
        rw [bindingValue_reference hs hd ho]
        exact referenceValue_of_promised hloc ho hp ha

end Resolution

section Example

def somewhere : SourceSpan := ⟨⟨0, 1, 1⟩, ⟨0, 1, 1⟩⟩

def word (text : String) : Ast.Identifier := ⟨text.toList, text.toList, somewhere⟩

def titleSelector : Ast.RefSelector := .dot "title".toList .identifier somewhere

def titleReference : Ast.Reference := ⟨word "input", [titleSelector], somewhere⟩

/-- `value: input.title`. -/
def titleAst : Ast.Binding := .compact (word "value") (.reference titleReference) somewhere

def stringSchema : Keywords Schema := { type := some (.single .string) }

/-- One input `title` of type string. -/
def titleInput (required : Bool) : WorkflowInputs :=
  ⟨[⟨"title", required, stringSchema, none⟩], by simp⟩

def reader : Draft where
  nodeId := "reader"
  inputPorts := ⟨.open bareSchema .localBinding, []⟩
  workflowInputPorts := []
  workflowInputs := [("title", stringSchema)]
  outputSchema := {}
  allowFail := false
  guaranteedSources := []

def titleBinding : Binding where
  name := "value"
  source := .reference ⟨.input, some "title", none, [], false⟩
  sourceSchema := stringSchema
  destinationSchema := bareSchema
  default := none
  delivery := .localBinding "value"

def noRegex : Regex := ⟨fun _ _ => false, fun _ => none⟩

def emptyScope : Scope := ⟨[], [], []⟩

def envOf (inputs : Dict String Value) : Env :=
  ⟨⟨fun _ _ => false, fun _ _ => false, fun _ => none⟩, inputs, [], fun _ => none⟩

theorem titleBinding_compiles : Compiles noRegex reader [] titleAst titleBinding := by
  refine ⟨[], ?_, by simp⟩
  have hname : String.ofList (word "value").canonical = "value" := by decide
  have hroot : String.ofList (word "input").canonical = "input" := by decide
  have hsymbol : titleSelector.symbol = "title" := by decide
  have hinput : Dict.get reader.workflowInputs "title" = some stringSchema := by rfl
  have haccepts : schemaAcceptsSchema noRegex.search bareSchema stringSchema = some true := by
    simp [schemaAcceptsSchema_eq, acceptsStep, Keywords.hasConstraints, bareSchema]
  have hsource : lowerSource noRegex reader [] "value" somewhere false (.reference titleReference) =
      some (some (titleBinding.source, stringSchema), []) := by
    simp [lowerSource, validateReference, lowerReference, titleReference, hroot, hsymbol, hinput,
      lowerPath, titleBinding]
  have hdestination : destination reader "value" stringSchema =
      (bareSchema, .localBinding "value") := by rfl
  simp [lowerBinding, titleAst, Ast.Binding.sourceAst, Ast.Binding.defaultAst, Ast.Binding.name,
    Ast.Binding.span, hname, hsource, hdestination, haccepts, titleBinding]

/-- The optional input is left out: the binding compiles without a default and
has no source to resolve. -/
theorem binding_unresolved_at_absent_input :
    Compiles noRegex reader [] titleAst titleBinding ∧
      reader.workflowInputs = (titleInput false).schemas ∧
      Admissible noRegex.search (titleInput false) reader [] (envOf []) emptyScope ∧
      bindingValue (envOf []) emptyScope titleBinding = none := by
  refine ⟨titleBinding_compiles, rfl, ⟨⟨[], rfl⟩, ?_⟩, rfl⟩
  intro s hs
  exact absurd hs List.not_mem_nil

/-- A required input is always there. -/
theorem binding_resolves_required_input :
    (bindingValue (envOf [("title", .str "t")]) emptyScope titleBinding).isSome := by
  have hsecured : Secured noRegex.search (titleInput true) [] titleBinding := by
    rintro reference hs
    cases hs
    exact .inr ⟨_, List.mem_singleton_self _, rfl, .inl rfl, fun v _ => rfl⟩
  have haccepted : prepareWorkflowInputs noRegex.search (titleInput true).declarations
      [("title", .str "t")] = some [("title", .str "t")] := by
    have hvalid : Schema.valid noRegex.search (.obj stringSchema) (.str "t") = true := by
      decide +kernel
    simp [prepareWorkflowInputs, prepareInputs, titleInput, Dict.get, Dict.keys, hvalid]
  refine (binding_resolves_iff noRegex (titleInput true) reader [] titleAst titleBinding rfl
    titleBinding_compiles ?_).mpr (fun _ => hsecured) _ _ ⟨⟨_, haccepted⟩, ?_⟩
  · rintro reference hs
    cases hs
    decide
  · intro s hs
    exact absurd hs List.not_mem_nil

end Example

end Raticode.Rattish
