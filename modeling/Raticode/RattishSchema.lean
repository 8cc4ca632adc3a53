import Raticode.RattishValue

/-! The restricted JSON Schema profile as data, and what its keywords mean for
an instance under Draft 2020-12. A document that uses only profile keywords
with values of the shapes the metaschema allows is a `Schema`. -/
namespace Raticode.Rattish
open OrderedDict
set_option linter.unusedVariables false

inductive TypeName where
  | string | number | integer | boolean | null | object | array
  deriving DecidableEq, Repr

/-- The value of `type`: a name, or a list of names, which the metaschema
forbids to be empty. -/
inductive TypeKeyword where
  | single (name : TypeName)
  | union (first : TypeName) (rest : List TypeName)
  deriving DecidableEq, Repr

inductive Num where
  | int (z : ℤ)
  | float (q : ℚ)
  deriving DecidableEq

def Num.value : Num → ℚ
  | .int z => z
  | .float q => q

structure Keywords (σ : Type) where
  dollarSchema : Option String := none
  title : Option String := none
  description : Option String := none
  type : Option TypeKeyword := none
  const : Option Value := none
  enum : Option (List Value) := none
  anyOf : Option (List σ) := none
  properties : Option (List (String × σ)) := none
  required : Option (List String) := none
  additionalProperties : Option σ := none
  items : Option σ := none
  minimum : Option Num := none
  exclusiveMinimum : Option Num := none
  maximum : Option Num := none
  exclusiveMaximum : Option Num := none
  minLength : Option ℕ := none
  maxLength : Option ℕ := none
  minItems : Option ℕ := none
  maxItems : Option ℕ := none
  pattern : Option String := none
  format : Option String := none

inductive Schema where
  | bool (b : Bool)
  | obj (k : Keywords Schema)

namespace Value

mutual
/-- Equality of instances for `const` and `enum`: unlike `==`, a Boolean is
never a number, while `1` and `1.0` are one instance. Equal objects have the
same keys. -/
def jsonEq : Value → Value → Bool
  | .null, .null => true
  | .bool a, .bool b => a = b
  | .int a, .int b => a = b
  | .int a, .float b => (a : ℚ) = b
  | .float a, .int b => a = (b : ℚ)
  | .float a, .float b => a = b
  | .str a, .str b => a = b
  | .arr xs, .arr ys => jsonEqList xs ys
  | .obj xs, .obj ys => jsonEqFields xs ys && ys.all (fun p => (Dict.get xs p.1).isSome)
  | _, _ => false

def jsonEqList : List Value → List Value → Bool
  | [], [] => true
  | x :: xs, y :: ys => jsonEq x y && jsonEqList xs ys
  | _, _ => false

def jsonEqFields : List (String × Value) → List (String × Value) → Bool
  | [], _ => true
  | (k, v) :: xs, ys =>
    (match Dict.get ys k with
      | some w => jsonEq v w
      | none => false) && jsonEqFields xs ys
end

def hasType : Value → TypeName → Bool
  | .str _, .string => true
  | .int _, .number => true
  | .float _, .number => true
  | .int _, .integer => true
  | .float q, .integer => q.den = 1
  | .bool _, .boolean => true
  | .null, .null => true
  | .obj _, .object => true
  | .arr _, .array => true
  | _, _ => false

def number? : Value → Option ℚ
  | .int z => some z
  | .float q => some q
  | _ => none

def elements : Value → List Value
  | .arr xs => xs
  | _ => []

def members : Value → List (String × Value)
  | .obj fields => fields
  | _ => []

end Value

namespace Keywords

variable {σ : Type}

def typeNames (k : Keywords σ) : List TypeName :=
  match k.type with
  | none => []
  | some (.single t) => [t]
  | some (.union t ts) => t :: ts

/-- The keywords that look only at the instance itself. `search p s` is
`re.search(p, s) is not None`; `format` is an annotation. -/
def scalarsHold (search : String → String → Bool) (k : Keywords σ) (v : Value) : Bool :=
  (k.type.isNone || k.typeNames.any (v.hasType ·)) &&
  (k.const.all (Value.jsonEq v ·)) &&
  (k.enum.all (fun vs => vs.any (Value.jsonEq v ·))) &&
  (v.number?.all (fun x =>
    k.minimum.all (fun b => b.value ≤ x) && k.exclusiveMinimum.all (fun b => b.value < x) &&
    k.maximum.all (fun b => x ≤ b.value) && k.exclusiveMaximum.all (fun b => x < b.value))) &&
  (match v with
    | .str s => k.minLength.all (· ≤ s.length) && k.maxLength.all (s.length ≤ ·) &&
        k.pattern.all (search · s)
    | .arr xs => k.minItems.all (· ≤ xs.length) && k.maxItems.all (xs.length ≤ ·)
    | .obj fields => k.required.all (fun names => names.all (fun n => (Dict.get fields n).isSome))
    | _ => true)

end Keywords

theorem Schema.sizeOf_items {k : Keywords Schema} {s : Schema} (h : k.items = some s) :
    sizeOf s < sizeOf k := by
  cases k; simp only [Keywords.mk.sizeOf_spec] at *; subst h; simp; omega

theorem Schema.sizeOf_additional {k : Keywords Schema} {s : Schema}
    (h : k.additionalProperties = some s) : sizeOf s < sizeOf k := by
  cases k; simp only [Keywords.mk.sizeOf_spec] at *; subst h; simp; omega

theorem Schema.sizeOf_anyOf {k : Keywords Schema} {l : List Schema} {s : Schema}
    (h : k.anyOf = some l) (hs : s ∈ l) : sizeOf s < sizeOf k := by
  have hm := List.sizeOf_lt_of_mem hs
  cases k; simp only [Keywords.mk.sizeOf_spec] at *; subst h; simp; omega

theorem Schema.sizeOf_property {k : Keywords Schema} {l : List (String × Schema)}
    {p : String × Schema} (h : k.properties = some l) (hp : p ∈ l) :
    sizeOf p.2 < sizeOf k := by
  have hm := List.sizeOf_lt_of_mem hp
  have hp' : sizeOf p.2 < sizeOf p := by
    obtain ⟨a, b⟩ := p
    simp only [Prod.mk.sizeOf_spec]
    omega
  cases k; simp only [Keywords.mk.sizeOf_spec] at *; subst h; simp; omega

/-- `instance_matches_schema`: validity of an instance. A member is checked by
its own property schema, or else by `additionalProperties`. -/
def Schema.valid (search : String → String → Bool) : Schema → Value → Bool
  | .bool b, _ => b
  | .obj k, v =>
    k.scalarsHold search v &&
    (match hk : k.anyOf with
      | none => true
      | some branches => branches.attach.any (fun b => valid search b.1 v)) &&
    (match hk : k.items with
      | none => true
      | some s => v.elements.all (fun x => valid search s x)) &&
    v.members.all (fun f =>
      match hp : Dict.get (k.properties.getD []) f.1 with
      | some s => valid search s f.2
      | none =>
        match hk : k.additionalProperties with
        | none => true
        | some s => valid search s f.2)
termination_by s _ => sizeOf s
decreasing_by
  · have := Schema.sizeOf_anyOf hk b.2
    simp; omega
  · have := Schema.sizeOf_items hk
    simp; omega
  · have hm := Dict.mem_of_get hp
    cases hprops : k.properties with
    | none => simp [hprops] at hm
    | some l =>
      have := Schema.sizeOf_property hprops (by simpa [hprops] using hm)
      simp only [Schema.obj.sizeOf_spec] at *
      omega
  · have := Schema.sizeOf_additional hk
    simp; omega

variable {search : String → String → Bool}

/-- The schema that decides about the member `name` of an object instance. -/
def Keywords.memberSchema (k : Keywords Schema) (name : String) : Schema :=
  match Dict.get (k.properties.getD []) name with
  | some s => s
  | none => k.additionalProperties.getD (.bool true)

theorem Schema.valid_bool (b : Bool) (v : Value) : Schema.valid search (.bool b) v = b := by
  rw [Schema.valid]

theorem Schema.valid_obj_iff (k : Keywords Schema) (v : Value) :
    Schema.valid search (.obj k) v = true ↔
      k.scalarsHold search v = true ∧
      (∀ branches, k.anyOf = some branches → ∃ b ∈ branches, Schema.valid search b v = true) ∧
      (∀ s, k.items = some s → ∀ x ∈ v.elements, Schema.valid search s x = true) ∧
      (∀ f ∈ v.members, Schema.valid search (k.memberSchema f.1) f.2 = true) := by
  have hmember (f : String × Value) : ((match hp : Dict.get (k.properties.getD []) f.1 with
        | some s => Schema.valid search s f.2
        | none =>
          match hk : k.additionalProperties with
          | none => true
          | some s => Schema.valid search s f.2) = true) ↔
      Schema.valid search (k.memberSchema f.1) f.2 = true := by
    unfold Keywords.memberSchema
    split
    next s hp => simp [hp]
    next hp =>
      simp only [hp]
      split
      next hk => simp [hk, Schema.valid_bool]
      next s hk => simp [hk]
  rw [Schema.valid, Bool.and_eq_true, Bool.and_eq_true, Bool.and_eq_true, and_assoc, and_assoc]
  refine and_congr_right (fun _ => and_congr ?_ (and_congr ?_ ?_))
  · split
    next hk => simp [hk]
    next branches hk => simp [hk]
  · split
    next hk => simp [hk]
    next s hk => simp [hk]
  · simp only [List.all_eq_true, hmember]

end Raticode.Rattish
