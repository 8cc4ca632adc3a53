import Mathlib.Data.Finset.Card
import Mathlib.Data.Prod.Lex
import Raticode.StructuredOutput

/-! The recursions that look up a field's schema and a schema's types end: every call
follows a reference it has not seen, or goes on with a smaller schema. -/
namespace Raticode.StructuredOutput
open OrderedDict Rattish Fuelled

section Weight

mutual
def weight : Value → ℕ
  | .obj fields => 1 + fieldsWeight fields
  | .arr items => 1 + itemsWeight items
  | _ => 1

def itemsWeight : List Value → ℕ
  | [] => 0
  | item :: rest => weight item + itemsWeight rest

def fieldsWeight : List (String × Value) → ℕ
  | [] => 0
  | (key, value) :: rest =>
    (if key = "anyOf" ∨ key = "oneOf" then 3 else 0) + weight value + fieldsWeight rest
end

theorem weight_le_items {items : List Value} {item : Value} (h : item ∈ items) :
    weight item ≤ itemsWeight items := by
  induction items with
  | nil => simp at h
  | cons first rest ih =>
    rw [itemsWeight]
    rcases List.mem_cons.mp h with rfl | h
    · omega
    · exact (ih h).trans (Nat.le_add_left _ _)

theorem fieldsWeight_erase {fields : Fields} {key : String} {value : Value}
    (h : fields.get key = some value) :
    fieldsWeight (fields.erase key) +
      ((if key = "anyOf" ∨ key = "oneOf" then 3 else 0) + weight value) ≤ fieldsWeight fields := by
  have hle : ∀ fs : Fields, fieldsWeight (fs.erase key) ≤ fieldsWeight fs := by
    intro fs
    induction fs with
    | nil => exact le_rfl
    | cons p rest ih =>
      obtain ⟨k, v⟩ := p
      simp only [Dict.erase] at ih ⊢
      rw [List.filter_cons, fieldsWeight]
      split
      · rw [fieldsWeight]
        omega
      · omega
  induction fields with
  | nil => simp at h
  | cons p rest ih =>
    obtain ⟨k, v⟩ := p
    have hrest := hle rest
    simp only [Dict.erase, List.filter_cons, fieldsWeight, Dict.get, ne_eq] at h ih hrest ⊢
    split_ifs at h with hk
    · cases h
      subst hk
      simp only [not_true_eq_false, decide_false, Bool.false_eq_true, ↓reduceIte]
      omega
    · have := ih h
      simp only [hk, not_false_eq_true, decide_true, ↓reduceIte, fieldsWeight]
      omega

end Weight

section Universe

theorem mem_itemReferences {items : List Value} {r : String × String} :
    r ∈ itemReferences items ↔ ∃ item ∈ items, r ∈ schemaReferences item := by
  induction items with
  | nil => simp [itemReferences]
  | cons first rest ih => simp [itemReferences, ih]

theorem mem_fieldReferences {fields : List (String × Value)} {r : String × String} :
    r ∈ fieldReferences fields ↔ ∃ p ∈ fields, r ∈ schemaReferences p.2 := by
  induction fields with
  | nil => simp [fieldReferences]
  | cons p rest ih =>
    obtain ⟨k, v⟩ := p
    simp [fieldReferences, ih]

theorem mem_ownReferences {fields : Fields} {r : String × String} :
    r ∈ ownReferences fields ↔ r.1 ∈ referenceKeywords ∧ fields.get r.1 = some (.str r.2) := by
  simp only [ownReferences, List.mem_filterMap]
  constructor
  · rintro ⟨keyword, hk, h⟩
    split at h
    next reference hget =>
      cases h
      exact ⟨hk, hget⟩
    · cases h
  · rintro ⟨hk, hget⟩
    exact ⟨r.1, hk, by rw [hget]⟩

theorem mem_schemaReferences {fields : Fields} {r : String × String} :
    r ∈ schemaReferences (.obj fields) ↔
      (r.1 ∈ referenceKeywords ∧ fields.get r.1 = some (.str r.2)) ∨
        ∃ p ∈ fields, r ∈ schemaReferences p.2 := by
  rw [schemaReferences_obj, List.mem_append, mem_ownReferences, mem_fieldReferences]

def Within (known : Finset String) (value : Value) : Prop :=
  ∀ r ∈ schemaReferences value, r.2 ∈ known

variable {known : Finset String} {fields : Fields} {key : String} {value : Value}

theorem Within.member (h : Within known (.obj fields)) (hv : fields.get key = some value) :
    Within known value :=
  fun r hr => h r (mem_schemaReferences.mpr (.inr ⟨_, Dict.mem_of_get hv, hr⟩))

theorem Within.item {items : List Value} (h : Within known (.arr items)) {item : Value}
    (hi : item ∈ items) : Within known item :=
  fun r hr => h r (by rw [schemaReferences_arr]; exact mem_itemReferences.mpr ⟨item, hi, hr⟩)

theorem Within.reference (h : Within known (.obj fields)) {reference : String}
    (hr : fields.get "$ref" = some (.str reference)) : reference ∈ known :=
  h ("$ref", reference) (mem_schemaReferences.mpr (.inl ⟨by simp [referenceKeywords], hr⟩))

theorem Within.erase (h : Within known (.obj fields)) (key : String) :
    Within known (.obj (fields.erase key)) := by
  intro r hr
  refine h r (mem_schemaReferences.mpr ((mem_schemaReferences.mp hr).imp ?_ ?_))
  · rintro ⟨hk, hget⟩
    rw [Dict.get_erase] at hget
    split_ifs at hget
    exact ⟨hk, hget⟩
  · rintro ⟨p, hp, hr⟩
    exact ⟨p, List.mem_of_mem_filter hp, hr⟩

theorem Within.conjunction {left right : Fields} (hl : Within known (.obj left))
    (hr : Within known (.obj right)) : Within known (.obj (conjunction left right)) := by
  intro r hm
  have hown : ownReferences (StructuredOutput.conjunction left right) = [] := rfl
  rw [schemaReferences_obj, hown, List.nil_append, mem_fieldReferences] at hm
  obtain ⟨p, hp, hm⟩ := hm
  obtain rfl := List.mem_singleton.mp hp
  rw [schemaReferences_arr, mem_itemReferences] at hm
  obtain ⟨item, hi, hm⟩ := hm
  rcases List.mem_pair.mp hi with rfl | rfl
  · exact hl r hm
  · exact hr r hm

theorem Within.follow (h : Within known value) {keys : List String} {target : Value}
    (hf : StructuredOutput.follow value keys = some target) : Within known target := by
  induction keys generalizing value with
  | nil =>
    cases value <;> · simp only [StructuredOutput.follow, Option.some.injEq] at hf; exact hf ▸ h
  | cons key rest ih =>
    cases value with
    | obj fields =>
      obtain ⟨v, hv, hf⟩ := Option.bind_eq_some_iff.mp hf
      exact ih (h.member hv) hf
    | _ => simp [StructuredOutput.follow] at hf

theorem Within.resolved {root target : Fields} (h : Within known (.obj root)) {reference : String}
    (hr : resolveLocalJsonPointer root reference = some target) : Within known (.obj target) := by
  unfold resolveLocalJsonPointer at hr
  split_ifs at hr
  · cases hr
    exact h
  · split at hr
    · split at hr
      next hf =>
        cases hr
        exact h.follow hf
      · cases hr
    · cases hr

end Universe

section Calls

inductive Call (root : Fields) : Fields × List String → Fields × List String → Prop
  | reference (schema : Fields) (seenRefs : List String) (reference : String) (target : Fields) :
      schema.get "$ref" = some (.str reference) → reference ∉ seenRefs →
      resolveLocalJsonPointer root reference = some target →
      Call root (referenced target (schema.erase "$ref"), reference :: seenRefs) (schema, seenRefs)
  | base (schema : Fields) (seenRefs : List String) (items : List Value) :
      schema.get "allOf" = some (.arr items) →
      Call root (schema.erase "allOf", seenRefs) (schema, seenRefs)
  | branch (schema : Fields) (seenRefs : List String) (keyword : String) (items : List Value)
      (item : Fields) : schema.get keyword = some (.arr items) → .obj item ∈ items →
      Call root (item, seenRefs) (schema, seenRefs)
  | alternative (schema : Fields) (seenRefs : List String) (keyword : String)
      (items : List Value) (item : Fields) : keyword = "anyOf" ∨ keyword = "oneOf" →
      schema.get keyword = some (.arr items) → .obj item ∈ items →
      Call root (alternative (schema.erase keyword) item, seenRefs) (schema, seenRefs)

def measure (known : Finset String) (p : Fields × List String) : ℕ ×ₗ ℕ :=
  toLex ((known \ p.2.toFinset).card, weight (.obj p.1))

variable {root : Fields} {known : Finset String} {p q : Fields × List String}

theorem Within.call (hroot : Within known (.obj root)) (h : Within known (.obj p.1))
    (hc : Call root q p) : Within known (.obj q.1) := by
  cases hc with
  | reference schema seenRefs reference target hget _ hres =>
    have htarget := hroot.resolved hres
    unfold referenced
    split
    · exact htarget
    · exact htarget.conjunction (h.erase _)
  | base => exact h.erase _
  | branch schema seenRefs keyword items item hget hi => exact (h.member hget).item hi
  | alternative schema seenRefs keyword items item _ hget hi =>
    have hitem := (h.member hget).item hi
    unfold StructuredOutput.alternative
    split
    · exact hitem
    · exact (h.erase _).conjunction hitem

theorem weight_item_lt {schema : Fields} {keyword : String} {items : List Value} {item : Fields}
    (hget : schema.get keyword = some (.arr items)) (hi : .obj item ∈ items) :
    weight (.obj item) < weight (.obj schema) := by
  have herase := fieldsWeight_erase hget
  have hitem := weight_le_items hi
  rw [weight] at herase
  rw [weight.eq_1 schema]
  omega

theorem Call.measure_lt (h : Within known (.obj p.1)) (hc : Call root q p) :
    measure known q < measure known p := by
  rw [measure, measure, Prod.Lex.toLex_lt_toLex]
  cases hc with
  | reference schema seenRefs reference target hget hnew hres =>
    refine .inl (Finset.card_lt_card ?_)
    have hknown : reference ∈ known := h.reference hget
    rw [Finset.ssubset_iff_of_subset]
    · exact ⟨reference, by simp [hknown, hnew], by simp⟩
    · intro r hr
      simp only [Finset.mem_sdiff, List.mem_toFinset, List.mem_cons, not_or] at hr ⊢
      exact ⟨hr.1, hr.2.2⟩
  | base schema seenRefs items hget =>
    have herase := fieldsWeight_erase hget
    refine .inr ⟨rfl, ?_⟩
    simp only [weight] at herase ⊢
    omega
  | branch schema seenRefs keyword items item hget hi =>
    exact .inr ⟨rfl, weight_item_lt hget hi⟩
  | alternative schema seenRefs keyword items item hk hget hi =>
    refine .inr ⟨rfl, ?_⟩
    unfold StructuredOutput.alternative
    split
    · exact weight_item_lt hget hi
    -- the conjunction weighs less than the keyword that it replaces
    · have herase := fieldsWeight_erase hget
      have hitem := weight_le_items hi
      rw [if_pos hk] at herase
      simp only [conjunction, weight, fieldsWeight, itemsWeight] at herase hitem ⊢
      simp
      omega

theorem acc_call (root : Fields) (p : Fields × List String) : Acc (Call root) p := by
  let known : Finset String :=
    ((schemaReferences (.obj root) ++ schemaReferences (.obj p.1)).map Prod.snd).toFinset
  have hroot : Within known (.obj root) := by
    intro r hr
    exact List.mem_toFinset.mpr (List.mem_map_of_mem (List.mem_append_left _ hr))
  have hp : Within known (.obj p.1) := by
    intro r hr
    exact List.mem_toFinset.mpr (List.mem_map_of_mem (List.mem_append_right _ hr))
  clear_value known
  induction hm : measure known p using WellFoundedLT.induction generalizing p with
  | ind m ih =>
    subst hm
    exact .intro p (fun q hc => ih _ (hc.measure_lt hp) q (hroot.call hp hc) rfl)

end Calls

section Returns

variable {schema : Fields} {items : List Value} {item : Fields}

theorem mem_dicts : item ∈ dicts items ↔ .obj item ∈ items := by
  simp only [dicts, List.mem_filterMap]
  constructor
  · rintro ⟨value, hv, h⟩
    split at h
    · cases h
      exact hv
    · cases h
  · exact fun h => ⟨_, h, rfl⟩

theorem branchesOf_eq {keyword : String} (h : branchesOf schema = some (keyword, items)) :
    (keyword = "anyOf" ∨ keyword = "oneOf") ∧ schema.get keyword = some (.arr items) := by
  unfold branchesOf at h
  split at h
  next hget =>
    cases h
    exact ⟨.inl rfl, hget⟩
  · split at h
    next hget =>
      cases h
      exact ⟨.inr rfl, hget⟩
    · cases h

variable (dumps : Value → String) (isdigit : String → Bool) (root : Fields)

theorem fieldSchema_returns (part : String) (schema : Fields) (seenRefs : List String) :
    Returns (fun fuel => fieldSchema dumps isdigit root part fuel schema seenRefs) := by
  induction hp : (schema, seenRefs) using (WellFounded.intro (acc_call root)).induction
    generalizing schema seenRefs with
  | _ p ih =>
    subst hp
    refine .succ ?_
    simp only [fieldSchema]
    split
    next reference hget =>
      split_ifs with hseen
      · exact .pure none
      · split
        · exact .pure none
        next target hres => exact ih _ (.reference _ _ _ _ hget hseen hres) _ _ rfl
    · split
      next items hget =>
        refine Returns.bind (.mapM (fun item hi => ?_)) (fun _ => .pure _)
        rcases List.mem_append.mp hi with hi | hi
        · split_ifs at hi
          · cases hi
          · obtain rfl := List.mem_singleton.mp hi
            exact ih _ (.base _ _ _ hget) _ _ rfl
        · exact ih _ (.branch _ _ _ _ _ hget (mem_dicts.mp hi)) _ _ rfl
      · split
        next keyword branches hb =>
          obtain ⟨hk, hget⟩ := branchesOf_eq hb
          refine Returns.bind (.mapM (fun item hi => ?_)) (fun _ => ?_)
          · exact ih _ (.alternative _ _ _ _ _ hk hget (mem_dicts.mp hi)) _ _ rfl
          · split_ifs
            · exact .pure none
            · exact .pure _
        · exact .pure _

theorem schemaAtPath_returns (schema : Fields) (path : String) :
    Returns (fun fuel => schemaAtPath dumps isdigit fuel schema path) := by
  refine Returns.bind (.foldlM (fun current part => ?_) _ _) (fun _ => .pure _)
  cases current with
  | none => exact .pure none
  | some found => exact fieldSchema_returns dumps isdigit schema part found []

theorem schemaTypes_of_calls {schema givenRoot : Fields} {seenRefs : List String}
    (hroot : (if givenRoot.isEmpty then schema else givenRoot) = root)
    (hcalls : ∀ q, Call root q (schema, seenRefs) →
      Returns (fun fuel => schemaTypes fuel q.1 root q.2)) :
    Returns (fun fuel => schemaTypes fuel schema givenRoot seenRefs) := by
  refine .succ ?_
  simp only [schemaTypes, hroot]
  split
  next reference hget =>
    split_ifs with hseen
    · exact .pure none
    · split
      · exact .pure none
      next target hres => exact hcalls _ (.reference _ _ _ _ hget hseen hres)
  · split
    · exact .pure _
    · split
      next keyword branches hb =>
        obtain ⟨-, hget⟩ := branchesOf_eq hb
        refine Returns.bind (.mapM (fun item hi => ?_)) (fun _ => ?_)
        · exact hcalls _ (.branch _ _ _ _ _ hget (mem_dicts.mp hi))
        · split_ifs
          · exact .pure none
          · exact .pure _
      · split
        next items hget =>
          refine Returns.bind (.mapM (fun item hi => ?_)) (fun _ => ?_)
          · exact hcalls _ (.branch _ _ _ _ _ hget (mem_dicts.mp hi))
          · split
            · exact .pure none
            · exact .pure _
        · exact .pure none

theorem schemaTypes_returns (schema givenRoot : Fields) (seenRefs : List String) :
    Returns (fun fuel => schemaTypes fuel schema givenRoot seenRefs) := by
  -- with a root that is not empty the calls keep it
  have hkept : ∀ root : Fields, root.isEmpty = false → ∀ p : Fields × List String,
      Returns (fun fuel => schemaTypes fuel p.1 root p.2) := by
    intro root hne p
    induction p using (WellFounded.intro (acc_call root)).induction with
    | _ p ih => exact schemaTypes_of_calls root (by rw [if_neg (by simp [hne])]) ih
  cases hg : givenRoot.isEmpty with
  | false => exact hkept givenRoot hg (schema, seenRefs)
  | true =>
    refine schemaTypes_of_calls schema (by rw [if_pos hg]) (fun q hc => ?_)
    cases hs : schema.isEmpty with
    | false => exact hkept schema hs q
    | true =>
      obtain rfl := List.isEmpty_iff.mp hs
      cases hc <;> simp at *

/-- For every schema, whatever cycles its references form, and every path, the recursions
are well founded, and they return. -/
theorem schema_paths_return :
    (∀ root : Fields, WellFounded (Call root)) ∧
    (∀ root part schema seenRefs,
      Returns (fun fuel => fieldSchema dumps isdigit root part fuel schema seenRefs)) ∧
    (∀ schema path, Returns (fun fuel => schemaAtPath dumps isdigit fuel schema path)) ∧
    ∀ schema root seenRefs, Returns (fun fuel => schemaTypes fuel schema root seenRefs) :=
  ⟨fun root => ⟨acc_call root⟩, fieldSchema_returns dumps isdigit,
    schemaAtPath_returns dumps isdigit, schemaTypes_returns⟩

end Returns

end Raticode.StructuredOutput
