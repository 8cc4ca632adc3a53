import Raticode.RattishSchemaSound

/-! When an accepted pair of schemas is an assignable one. The checker skips
some comparisons; `Covered` asks, place by place, that what is skipped has
nothing to compare. -/
namespace Raticode.Rattish
open OrderedDict

/-- Some keyword other than `anyOf` can reject an instance. -/
def Keywords.assertsBesideAnyOf (k : Keywords Schema) : Bool :=
  k.type.isSome || k.const.isSome || k.enum.isSome || k.properties.isSome ||
  k.required.isSome || k.additionalProperties.isSome || k.items.isSome || k.minimum.isSome ||
  k.exclusiveMinimum.isSome || k.maximum.isSome || k.exclusiveMaximum.isSome ||
  k.minLength.isSome || k.maxLength.isSome || k.minItems.isSome || k.maxItems.isSome ||
  k.pattern.isSome

/-- A subschema that has no keyword to reject an instance with. -/
def Schema.Trivial : Schema → Prop
  | .bool b => b = true
  | .obj k => k.assertsBesideAnyOf = false ∧ k.anyOf = none

def BooleanPairHolds : Schema → Schema → Prop
  | .bool true, _ => True
  | _, .bool false => True
  | .obj _, .obj _ => True
  | .obj k, .bool true => k.assertsBesideAnyOf = false ∧ k.anyOf = none
  | .bool false, _ => False

def BothName (d s : Keywords Schema) (t : TypeName) : Prop := t ∈ s.typeNames ∧ t ∈ d.typeNames

/-- An instance of `s` can be of the type, for all its `type` says. -/
def Admits (s : Keywords Schema) (t : TypeName) : Prop := s.type = none ∨ t ∈ s.typeNames

/-- The pairs of subschemas the checker compares on the way through the keywords
of `d` and `s`. -/
inductive Compared (d s : Keywords Schema) : Keywords Schema → Keywords Schema → Prop
  | items {dk sk} : BothName d s .array → d.items = some (.obj dk) → s.items = some (.obj sk) →
      Compared d s dk sk
  | property {name dk sk} : BothName d s .object → (name, .obj sk) ∈ s.properties.getD [] →
      Dict.get (d.properties.getD []) name = some (.obj dk) → Compared d s dk sk
  | extra {name dk sk} : BothName d s .object → (name, .obj sk) ∈ s.properties.getD [] →
      Dict.get (d.properties.getD []) name = none → d.additionalProperties = some (.obj dk) →
      Compared d s dk sk
  | additional {dk sk} : BothName d s .object → d.additionalProperties = some (.obj dk) →
      s.additionalProperties = some (.obj sk) → Compared d s dk sk
  | undeclared {name dk sk} : BothName d s .object → (name, .obj dk) ∈ d.properties.getD [] →
      Dict.get (s.properties.getD []) name = none → s.additionalProperties = some (.obj sk) →
      Compared d s dk sk

/-- What the checker does not look at among the keywords of `d` and `s` themselves:
the object and array keywords of a destination without `type`, the Boolean
subschemas, and what `float` does to the bounds. -/
structure KeywordsHold (d s : Keywords Schema) : Prop where
  untypedObject : d.type = none → Admits s .object →
    (∀ p ∈ d.properties.getD [], p.2.Trivial) ∧ d.required.getD [] = [] ∧
      ∀ δ, d.additionalProperties = some δ → δ.Trivial
  untypedArray : d.type = none → Admits s .array → ∀ δ, d.items = some δ → δ.Trivial
  items : BothName d s .array → d.items = some (.bool false) → s.items = some (.bool false)
  property : BothName d s .object → ∀ p ∈ s.properties.getD [], ∀ dp,
    Dict.get (d.properties.getD []) p.1 = some dp → BooleanPairHolds dp p.2
  extra : BothName d s .object → ∀ p ∈ s.properties.getD [],
    Dict.get (d.properties.getD []) p.1 = none → ∀ k, d.additionalProperties = some (.obj k) →
      BooleanPairHolds (.obj k) p.2
  undeclared : BothName d s .object → s.additionalProperties ≠ some (.bool false) →
    ∀ name, Dict.get (d.properties.getD []) name = some (.bool false) →
      (Dict.get (s.properties.getD []) name).isSome
  lower : d.bounds true ≠ [] → Keywords.FloatKeepsOrder d s true
  upper : d.bounds false ≠ [] → Keywords.FloatKeepsOrder d s false

/-- The comparison of `d` with `s` leaves nothing out, here and in every pair of
subschemas it goes on to. Of the branches of a destination one that accepts is enough. -/
inductive Covered (search : String → String → Bool) : (destination source : Keywords Schema) → Prop
  | unconstrained {d s : Keywords Schema} : d.hasConstraints = false → Covered search d s
  | sourceBranches {d s : Keywords Schema} {branches : List Schema} : s.anyOf = some branches →
      (∀ k, .obj k ∈ branches → Covered search d k) → Covered search d s
  | destinationBranch {d s k : Keywords Schema} {branches : List Schema} : s.anyOf = none →
      d.anyOf = some branches → d.assertsBesideAnyOf = false → .obj k ∈ branches →
      schemaAcceptsSchema search k s = some true → Covered search k s → Covered search d s
  | instances {d s : Keywords Schema} : s.anyOf = none → d.anyOf = none → s.const.isSome ∨ s.enum.isSome →
      Covered search d s
  | keywords {d s : Keywords Schema} : s.anyOf = none → d.anyOf = none → s.const = none → s.enum = none →
      KeywordsHold d s → (∀ dk sk, Compared d s dk sk → Covered search dk sk) → Covered search d s

variable {search : String → String → Bool} {d s : Keywords Schema} {v : Value}

theorem Schema.keywords?_eq_some {σ : Schema} {k : Keywords Schema} :
    σ.keywords? = some k ↔ σ = .obj k := by
  cases σ <;> simp [Schema.keywords?]

theorem Keywords.types_of_anyOf_none (h : d.anyOf = none) : d.types = d.typeNames := by
  rw [Keywords.types, Keywords.typeNames]
  split
  next ht => rw [ht]
  next ht => rw [ht]
  next ht =>
    rw [ht]
    split
    · rfl
    next hb => simp [h] at hb

theorem valid_of_branch (h : d.assertsBesideAnyOf = false)
    (hb : ∀ branches, d.anyOf = some branches → ∃ b ∈ branches, Schema.valid search b v = true) :
    Schema.valid search (.obj d) v = true := by
  simp only [Keywords.assertsBesideAnyOf, Bool.or_eq_false_iff, Option.isSome_eq_false_iff,
    Option.isNone_iff_eq_none] at h
  obtain ⟨⟨⟨⟨⟨⟨⟨⟨⟨⟨⟨⟨⟨⟨⟨h₁, h₂⟩, h₃⟩, h₄⟩, h₅⟩, h₆⟩, h₇⟩, h₈⟩, h₉⟩, h₁₀⟩, h₁₁⟩, h₁₂⟩, h₁₃⟩,
    h₁₄⟩, h₁₅⟩, h₁₆⟩ := h
  refine (Schema.valid_obj_iff d v).mpr ⟨?_, hb, ?_, ?_⟩
  · cases v <;> simp [Keywords.scalarsHold, *]
  · simp [h₇]
  · intro f _
    simp [Keywords.memberSchema, h₄, h₆, Schema.valid_bool]

theorem valid_of_not_hasConstraints (h : d.hasConstraints = false) :
    Schema.valid search (.obj d) v = true := by
  have h' : d.assertsBesideAnyOf = false ∧ d.anyOf = none := by
    simp only [Keywords.hasConstraints, Bool.or_eq_false_iff] at h
    simp only [Keywords.assertsBesideAnyOf, Bool.or_eq_false_iff]
    simp_all
  exact valid_of_branch h'.1 (by simp [h'.2])

theorem valid_of_trivial {δ : Schema} (h : δ.Trivial) : Schema.valid search δ v = true := by
  cases δ with
  | bool b => rw [Schema.valid_bool, show b = true from h]
  | obj k => exact valid_of_branch h.1 (by simp [h.2])

theorem accepted_keywords (hc : d.hasConstraints = true)
    (hs : s.anyOf = none) (hd : d.anyOf = none) (hconst : s.const = none) (henum : s.enum = none)
    (h : schemaAcceptsSchema search d s = some true) :
    typesCompatible d s = true ∧ d.enum = none ∧ d.const = none ∧
    (BothName d s .object → objectCompatible (schemaAcceptsSchema search) d s = some true) ∧
    (BothName d s .array → itemsCompatible (schemaAcceptsSchema search) d s = some true) ∧
    d.boundsCompatible s = some true := by
  rw [schemaAcceptsSchema_eq, acceptsStep] at h
  simp only [hc, hs, hd, hconst, henum, Bool.not_true, Bool.false_eq_true, ↓reduceIte] at h
  split at h
  · simp at h
  next ht =>
  split at h
  · simp at h
  next he =>
  obtain ⟨ho, hrest⟩ := checkAnd_eq_some_true.mp h
  obtain ⟨ha, hb⟩ := checkAnd_eq_some_true.mp hrest
  simp only [Bool.or_eq_true, not_or, Bool.not_eq_true, Option.isSome_eq_false_iff,
    Option.isNone_iff_eq_none] at he
  simp only [Keywords.types_of_anyOf_none hs, Keywords.types_of_anyOf_none hd, Bool.and_eq_true,
    List.contains_iff_mem] at ho ha
  refine ⟨by simpa using ht, he.1, he.2, ?_, ?_, hb⟩
  · intro hboth
    exact (if_pos hboth).symm.trans ho
  · intro hboth
    exact (if_pos hboth).symm.trans ha

theorem Keywords.typeNames_eq_nil_iff : d.typeNames = [] ↔ d.type = none := by
  unfold Keywords.typeNames
  split <;> simp_all

theorem typesCompatible_iff (hs : s.anyOf = none) (hd : d.anyOf = none) :
    typesCompatible d s = true ↔ d.type = none ∨
      (s.type ≠ none ∧
        ∀ t ∈ s.typeNames, (t = .integer ∧ .number ∈ d.typeNames) ∨ t ∈ d.typeNames) := by
  simp only [typesCompatible, Keywords.types_of_anyOf_none hs, Keywords.types_of_anyOf_none hd,
    List.isEmpty_iff, Keywords.typeNames_eq_nil_iff]
  split_ifs with h₁ h₂
  · simp [h₁]
  · simp [h₁, h₂]
  · simp [h₁, h₂]

theorem exists_type_of_scalarsHold (h : s.scalarsHold search v = true) :
    s.type = none ∨ ∃ t ∈ s.typeNames, v.hasType t = true := by
  simp only [Keywords.scalarsHold, Bool.and_eq_true, Bool.or_eq_true, Option.isNone_iff_eq_none,
    List.any_eq_true] at h
  exact h.1.1.1.1

theorem bothName_of_hasType {t : TypeName} (hs : s.anyOf = none) (hd : d.anyOf = none)
    (htypes : typesCompatible d s = true) (hv : s.scalarsHold search v = true)
    (ht : ∀ t', v.hasType t' = true → t' = t) (hint : t ≠ .integer) :
    Admits s t ∧ (d.type = none ∨ BothName d s t) := by
  rcases exists_type_of_scalarsHold hv with hnone | ⟨t', hm, hvt⟩
  · refine ⟨.inl hnone, ?_⟩
    rcases (typesCompatible_iff hs hd).mp htypes with h | ⟨h, -⟩
    · exact .inl h
    · exact absurd hnone h
  · obtain rfl := ht t' hvt
    refine ⟨.inr hm, ?_⟩
    rcases (typesCompatible_iff hs hd).mp htypes with h | ⟨-, h⟩
    · exact .inl h
    · rcases h t' hm with ⟨he, -⟩ | hmem
      · exact absurd he hint
      · exact .inr ⟨hm, hmem⟩

theorem Keywords.keepsSide_lower_iff {x : ℚ} : s.KeepsSide true x ↔
    (∀ b, s.minimum = some b → b.value ≤ x) ∧ (∀ b, s.exclusiveMinimum = some b → b.value < x) := by
  simp only [KeepsSide, bounds, keepsTo, below, ↓reduceIte, List.mem_append, List.mem_map,
    Option.mem_toList, decide_eq_true_eq]
  refine ⟨fun h => ⟨fun b hb => ?_, fun b hb => ?_⟩, ?_⟩
  · simpa [le_iff_lt_or_eq] using h (b, false) (.inl ⟨b, hb, rfl⟩)
  · simpa using h (b, true) (.inr ⟨b, hb, rfl⟩)
  · rintro ⟨h₁, h₂⟩ _ (⟨b, hb, rfl⟩ | ⟨b, hb, rfl⟩)
    · simpa [le_iff_lt_or_eq] using h₁ b hb
    · simpa using h₂ b hb

theorem Keywords.keepsSide_upper_iff {x : ℚ} : s.KeepsSide false x ↔
    (∀ b, s.maximum = some b → x ≤ b.value) ∧ (∀ b, s.exclusiveMaximum = some b → x < b.value) := by
  simp only [KeepsSide, bounds, keepsTo, above, Bool.false_eq_true, ↓reduceIte, List.mem_append,
    List.mem_map, Option.mem_toList, decide_eq_true_eq]
  refine ⟨fun h => ⟨fun b hb => ?_, fun b hb => ?_⟩, ?_⟩
  · simpa [le_iff_lt_or_eq, eq_comm] using h (b, false) (.inl ⟨b, hb, rfl⟩)
  · simpa using h (b, true) (.inr ⟨b, hb, rfl⟩)
  · rintro ⟨h₁, h₂⟩ _ (⟨b, hb, rfl⟩ | ⟨b, hb, rfl⟩)
    · simpa [le_iff_lt_or_eq, eq_comm] using h₁ b hb
    · simpa using h₂ b hb

theorem boundsCompatible_eq_some_true (h : d.boundsCompatible s = some true) :
    (∃ dl sl, d.numericBound true = some dl ∧ s.numericBound true = some sl ∧
      Keywords.boundCovers Keywords.below dl sl = true) ∧
    (∃ du su, d.numericBound false = some du ∧ s.numericBound false = some su ∧
      Keywords.boundCovers Keywords.above du su = true) ∧
    Keywords.minCovers d.minLength s.minLength = true ∧
    Keywords.minCovers d.minItems s.minItems = true ∧
    Keywords.maxCovers d.maxLength s.maxLength = true ∧
    Keywords.maxCovers d.maxItems s.maxItems = true ∧
    (d.pattern = none ∨ s.pattern = d.pattern) := by
  simp only [Keywords.boundsCompatible, Option.bind_eq_bind, Option.bind_eq_some_iff] at h
  obtain ⟨dl, hdl, sl, hsl, h⟩ := h
  split at h
  · simp at h
  next hlow =>
  simp only [Option.bind_eq_some_iff] at h
  obtain ⟨du, hdu, su, hsu, h⟩ := h
  split at h
  · simp at h
  next hup =>
  simp only [Option.pure_def, Option.some.injEq, Bool.and_eq_true, Bool.or_eq_true,
    Option.isNone_iff_eq_none, decide_eq_true_eq] at h
  obtain ⟨⟨⟨⟨⟨h₁, h₂⟩, h₃⟩, h₄⟩, h₅⟩, -⟩ := h
  exact ⟨⟨dl, sl, hdl, hsl, by simpa using hlow⟩, ⟨du, su, hdu, hsu, by simpa using hup⟩,
    h₁, h₂, h₃, h₄, h₅⟩

theorem minCovers_all {a b : Option ℕ} {n : ℕ} (h : Keywords.minCovers a b = true)
    (hb : b.all (· ≤ n) = true) : a.all (· ≤ n) = true := by
  cases a with
  | none => rfl
  | some x =>
    cases b with
    | none => simp [Keywords.minCovers] at h
    | some y =>
      simp only [Keywords.minCovers, Option.all_some, decide_eq_true_eq] at *
      omega

theorem maxCovers_all {a b : Option ℕ} {n : ℕ} (h : Keywords.maxCovers a b = true)
    (hb : b.all (n ≤ ·) = true) : a.all (n ≤ ·) = true := by
  cases a with
  | none => rfl
  | some x =>
    cases b with
    | none => simp [Keywords.maxCovers] at h
    | some y =>
      simp only [Keywords.maxCovers, Option.all_some, decide_eq_true_eq] at *
      omega

theorem objectCompatible_eq_some_true {accepts : Keywords Schema → Keywords Schema → Option Bool}
    (h : objectCompatible accepts d s = some true) :
    (∀ n ∈ d.required.getD [], n ∈ s.required.getD []) ∧
    (∀ p ∈ s.properties.getD [], propertyCompatible accepts d p = some true) ∧
    (s.additionalProperties = some (.bool false) ∨
      (d.additionalProperties ≠ some (.bool false) ∧
        additionalCompatible accepts d s = some true ∧
        ∀ p ∈ d.properties.getD [], undeclaredCompatible accepts s p = some true)) := by
  have hfalse : ∀ o, isFalse o = true ↔ o = some (.bool false) := by
    intro o
    unfold isFalse
    split <;> simp_all
  unfold objectCompatible at h
  obtain ⟨hreq, h⟩ := checkAnd_eq_some_true.mp h
  obtain ⟨hprops, h⟩ := checkAnd_eq_some_true.mp h
  refine ⟨by simpa using hreq, allM_eq_some_true.mp hprops, ?_⟩
  split at h
  next hs => exact .inl ((hfalse _).mp hs)
  next =>
  split at h
  · simp at h
  next hd =>
    obtain ⟨ha, hu⟩ := checkAnd_eq_some_true.mp h
    exact .inr ⟨fun he => hd ((hfalse _).mpr he), ha, allM_eq_some_true.mp hu⟩

theorem Value.hasType_object {fields : List (String × Value)} {t : TypeName}
    (h : (Value.obj fields).hasType t = true) : t = .object := by
  cases t <;> simp [Value.hasType] at h ⊢

theorem Value.hasType_array {xs : List Value} {t : TypeName}
    (h : (Value.arr xs).hasType t = true) : t = .array := by
  cases t <;> simp [Value.hasType] at h ⊢

theorem Value.hasType_number_of_integer (h : v.hasType .integer = true) :
    v.hasType .number = true := by
  cases v <;> simp [Value.hasType] at h ⊢

section Accepted

/- What the checker found out about a pair that reaches its keyword comparisons. -/
variable (hs : s.anyOf = none) (hd : d.anyOf = none) (hold : KeywordsHold d s)
  (htypes : typesCompatible d s = true)
  (hobject : BothName d s .object →
    objectCompatible (schemaAcceptsSchema search) d s = some true)
  (hv : s.scalarsHold search v = true)

include hs hd htypes hv in
theorem type_of_accepted : d.type = none ∨ ∃ t ∈ d.typeNames, v.hasType t = true := by
  rcases (typesCompatible_iff hs hd).mp htypes with h | ⟨hne, h⟩
  · exact .inl h
  · rcases exists_type_of_scalarsHold hv with hnone | ⟨t, hm, hvt⟩
    · exact absurd hnone hne
    · rcases h t hm with ⟨rfl, hn⟩ | hmem
      · exact .inr ⟨_, hn, Value.hasType_number_of_integer hvt⟩
      · exact .inr ⟨t, hmem, hvt⟩

include hs hd hold htypes hobject hv in
theorem required_of_accepted {fields : List (String × Value)} (hobj : v = .obj fields) :
    ∀ names, d.required = some names → ∀ n ∈ names, (Dict.get fields n).isSome := by
  subst hobj
  intro names hnames n hn
  obtain ⟨hadmits, hnone | hboth⟩ :=
    bothName_of_hasType hs hd htypes hv (fun t => Value.hasType_object) (by decide)
  · have hempty := (hold.untypedObject hnone hadmits).2.1
    rw [hnames, Option.getD_some] at hempty
    rw [hempty] at hn
    exact absurd hn List.not_mem_nil
  · have hreq := (objectCompatible_eq_some_true (hobject hboth)).1 n (by simpa [hnames] using hn)
    cases hsr : s.required with
    | none => simp [hsr] at hreq
    | some l =>
      simp only [Keywords.scalarsHold, Bool.and_eq_true, hsr, Option.all_some,
        List.all_eq_true] at hv
      exact hv.2 n (by simpa [hsr] using hreq)

include hold hv in
theorem numbers_of_accepted (hbounds : d.boundsCompatible s = some true) {x : ℚ}
    (hx : v.number? = some x) : d.KeepsSide true x ∧ d.KeepsSide false x := by
  obtain ⟨⟨dl, sl, hdl, hsl, hlow⟩, ⟨du, su, hdu, hsu, hup⟩, -⟩ :=
    boundsCompatible_eq_some_true hbounds
  simp only [Keywords.scalarsHold, Bool.and_eq_true, hx, Option.all_some, Option.all_eq_true,
    decide_eq_true_eq] at hv
  obtain ⟨⟨-, ⟨⟨h₁, h₂⟩, h₃⟩, h₄⟩, -⟩ := hv
  exact ⟨Keywords.keepsSide_of_covers hold.lower hdl hsl hlow
      (Keywords.keepsSide_lower_iff.mpr ⟨h₁, h₂⟩),
    Keywords.keepsSide_of_covers hold.upper hdu hsu hup
      (Keywords.keepsSide_upper_iff.mpr ⟨h₃, h₄⟩)⟩

include hs hd hold htypes hobject hv in
theorem scalarsHold_of_accepted (henum : d.enum = none) (hconst : d.const = none)
    (hbounds : d.boundsCompatible s = some true) : d.scalarsHold search v = true := by
  have htype := type_of_accepted hs hd htypes hv
  have hreq : ∀ fields, v = .obj fields → ∀ names, d.required = some names →
      ∀ n ∈ names, (Dict.get fields n).isSome :=
    fun _ => required_of_accepted hs hd hold htypes hobject hv
  have hnum := fun x => numbers_of_accepted hold hv hbounds (x := x)
  obtain ⟨-, -, hminL, hminI, hmaxL, hmaxI, hpat⟩ := boundsCompatible_eq_some_true hbounds
  simp only [Keywords.scalarsHold, Bool.and_eq_true, henum, hconst, Option.all_none, and_true,
    Bool.or_eq_true, Option.isNone_iff_eq_none, List.any_eq_true] at hv ⊢
  obtain ⟨-, hshape⟩ := hv
  refine ⟨⟨htype, ?_⟩, ?_⟩
  · rw [Option.all_eq_true]
    intro x hx
    obtain ⟨hl, hu⟩ := hnum x hx
    rw [Keywords.keepsSide_lower_iff] at hl
    rw [Keywords.keepsSide_upper_iff] at hu
    simp only [Bool.and_eq_true, Option.all_eq_true, decide_eq_true_eq]
    exact ⟨⟨⟨hl.1, hl.2⟩, hu.1⟩, hu.2⟩
  · cases v with
    | str x =>
      simp only [Bool.and_eq_true] at hshape ⊢
      refine ⟨⟨minCovers_all hminL hshape.1.1, maxCovers_all hmaxL hshape.1.2⟩, ?_⟩
      rcases hpat with hnone | heq
      · simp [hnone]
      · exact heq ▸ hshape.2
    | arr xs =>
      simp only [Bool.and_eq_true] at hshape ⊢
      exact ⟨minCovers_all hminI hshape.1, maxCovers_all hmaxI hshape.2⟩
    | obj fields =>
      simp only [Option.all_eq_true, List.all_eq_true]
      exact hreq fields rfl
    | _ => rfl

theorem valid_of_pair {δ σ : Schema} {w : Value} (hpair : BooleanPairHolds δ σ)
    (hobj : ∀ dk sk, δ = .obj dk → σ = .obj sk → Schema.valid search (.obj sk) w = true →
      Schema.valid search (.obj dk) w = true)
    (hw : Schema.valid search σ w = true) : Schema.valid search δ w = true := by
  cases δ with
  | bool b =>
    cases b with
    | true => rw [Schema.valid_bool]
    | false =>
      cases σ with
      | bool b' => cases b' <;> simp [BooleanPairHolds, Schema.valid_bool] at hpair hw
      | obj sk => simp [BooleanPairHolds] at hpair
  | obj dk =>
    cases σ with
    | bool b =>
      cases b with
      | true => exact valid_of_branch hpair.1 (by simp [hpair.2])
      | false => simp [Schema.valid_bool] at hw
    | obj sk => exact hobj dk sk rfl rfl hw

variable (hsub : ∀ dk sk, Compared d s dk sk → schemaAcceptsSchema search dk sk = some true →
  ∀ w, Schema.valid search (.obj sk) w = true → Schema.valid search (.obj dk) w = true)

include hs hd hold htypes hv hsub in
theorem items_of_accepted (hitems : BothName d s .array →
      itemsCompatible (schemaAcceptsSchema search) d s = some true)
    (hsv : ∀ σ, s.items = some σ → ∀ x ∈ v.elements, Schema.valid search σ x = true) :
    ∀ δ, d.items = some δ → ∀ x ∈ v.elements, Schema.valid search δ x = true := by
  intro δ hδ x hx
  cases v with
  | arr xs =>
    obtain ⟨hadmits, hnone | hboth⟩ :=
      bothName_of_hasType hs hd htypes hv (fun t => Value.hasType_array) (by decide)
    · exact valid_of_trivial (hold.untypedArray hnone hadmits δ hδ)
    cases δ with
    | bool b =>
      cases b with
      | true => rw [Schema.valid_bool]
      | false => simpa [Schema.valid_bool] using hsv _ (hold.items hboth hδ) x hx
    | obj dk =>
      have hc := hitems hboth
      simp only [itemsCompatible, hδ, Option.bind_some, Schema.keywords?] at hc
      split at hc
      · simp at hc
      next sk hsk =>
        obtain ⟨σ, hσ, hk⟩ := Option.bind_eq_some_iff.mp hsk
        obtain rfl := Schema.keywords?_eq_some.mp hk
        exact hsub dk sk (.items hboth hδ hσ) hc x (hsv _ hσ x hx)
  | _ => simp [Value.elements] at hx

include hold hobject hsub in
theorem declared_of_accepted (hboth : BothName d s .object) {name : String} {w : Value}
    {σ : Schema} (hσ : Dict.get (s.properties.getD []) name = some σ)
    (hw : Schema.valid search σ w = true) :
    Schema.valid search (d.memberSchema name) w = true := by
  have hmem := Dict.mem_of_get hσ
  have hc := (objectCompatible_eq_some_true (hobject hboth)).2.1 _ hmem
  unfold Keywords.memberSchema
  cases hδ : Dict.get (d.properties.getD []) name with
  | some δ =>
    refine valid_of_pair (hold.property hboth _ hmem δ hδ) ?_ hw
    rintro dk sk rfl rfl
    simp only [propertyCompatible, hδ, Schema.keywords?] at hc
    exact hsub dk sk (.property hboth hmem hδ) hc w
  | none =>
    simp only [propertyCompatible, hδ] at hc
    cases ha : d.additionalProperties with
    | none => simp [Schema.valid_bool]
    | some δ =>
      cases δ with
      | bool b => cases b <;> simp [ha, isFalse, Schema.valid_bool] at hc ⊢
      | obj dk =>
        show Schema.valid search (.obj dk) w = true
        refine valid_of_pair (hold.extra hboth _ hmem hδ dk ha) ?_ hw
        rintro _ sk ⟨⟩ rfl
        simp only [ha, isFalse, Bool.false_eq_true, ↓reduceIte, Option.bind_some,
          Schema.keywords?] at hc
        exact hsub _ sk (.extra hboth hmem hδ ha) hc w

include hold hobject hsub in
theorem additional_of_accepted (hboth : BothName d s .object) {name : String} {w : Value}
    (hσ : Dict.get (s.properties.getD []) name = none)
    (hw : Schema.valid search (s.additionalProperties.getD (.bool true)) w = true) :
    Schema.valid search (d.memberSchema name) w = true := by
  obtain ⟨-, -, hfalse | ⟨hne, hadd, hund⟩⟩ := objectCompatible_eq_some_true (hobject hboth)
  · simp [hfalse, Schema.valid_bool] at hw
  have hclosed : s.additionalProperties ≠ some (.bool false) := by
    rintro he
    simp [he, Schema.valid_bool] at hw
  unfold Keywords.memberSchema
  cases hδ : Dict.get (d.properties.getD []) name with
  | some δ =>
    have hc := hund _ (Dict.mem_of_get hδ)
    simp only [undeclaredCompatible, hσ, Option.isSome_none, Bool.false_eq_true, ↓reduceIte] at hc
    cases δ with
    | bool b =>
      cases b with
      | true => rw [Schema.valid_bool]
      | false => simpa [hσ] using hold.undeclared hboth hclosed name hδ
    | obj dk =>
      simp only [Schema.keywords?] at hc
      split at hc
      · simp at hc
      next sk hsk =>
        obtain ⟨σ, ha, hk⟩ := Option.bind_eq_some_iff.mp hsk
        obtain rfl := Schema.keywords?_eq_some.mp hk
        exact hsub dk sk (.undeclared hboth (Dict.mem_of_get hδ) hσ ha) hc w (by simpa [ha] using hw)
  | none =>
    cases ha : d.additionalProperties with
    | none => simp [Schema.valid_bool]
    | some δ =>
      cases δ with
      | bool b =>
        cases b with
        | true => simp [Schema.valid_bool]
        | false => exact absurd ha hne
      | obj dk =>
        simp only [additionalCompatible, ha, Option.bind_some, Schema.keywords?] at hadd
        split at hadd
        · simp at hadd
        next sk hsk =>
          obtain ⟨σ, hs', hk⟩ := Option.bind_eq_some_iff.mp hsk
          obtain rfl := Schema.keywords?_eq_some.mp hk
          exact hsub dk sk (.additional hboth ha hs') hadd w (by simpa [hs'] using hw)

include hs hd hold htypes hobject hv hsub in
theorem members_of_accepted
    (hsv : ∀ f ∈ v.members, Schema.valid search (s.memberSchema f.1) f.2 = true) :
    ∀ f ∈ v.members, Schema.valid search (d.memberSchema f.1) f.2 = true := by
  intro f hf
  cases v with
  | obj fields =>
    obtain ⟨hadmits, hnone | hboth⟩ :=
      bothName_of_hasType hs hd htypes hv (fun t => Value.hasType_object) (by decide)
    · obtain ⟨hp, -, ha⟩ := hold.untypedObject hnone hadmits
      unfold Keywords.memberSchema
      cases hδ : Dict.get (d.properties.getD []) f.1 with
      | some δ => exact valid_of_trivial (hp _ (Dict.mem_of_get hδ))
      | none =>
        cases hmore : d.additionalProperties with
        | none => exact Schema.valid_bool true f.2
        | some δ => exact valid_of_trivial (ha δ hmore)
    · have hw := hsv f hf
      unfold Keywords.memberSchema at hw
      cases hσ : Dict.get (s.properties.getD []) f.1 with
      | some σ =>
        rw [hσ] at hw
        exact declared_of_accepted hold hobject hsub hboth hσ hw
      | none =>
        rw [hσ] at hw
        exact additional_of_accepted hold hobject hsub hboth hσ hw
  | _ => simp [Value.members] at hf

end Accepted

end Raticode.Rattish
