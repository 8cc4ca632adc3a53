import Mathlib.Algebra.Order.BigOperators.Group.List
import Mathlib.Algebra.Order.Group.Nat
import Mathlib.Data.Nat.Log
import Raticode.RattishSchema

/-! `schema_accepts_schema` as the source computes it. `none` stands for the
`OverflowError` of `float` on an integer beyond the doubles. -/
namespace Raticode.Rattish
open OrderedDict
set_option linter.unusedVariables false

def roundInt (z : ℤ) : ℤ :=
  let n := z.natAbs
  let shift := Nat.log 2 n + 1 - 53
  if shift = 0 then z
  else
    let q := n / 2 ^ shift
    let r := n % 2 ^ shift
    let half := 2 ^ (shift - 1)
    let q' := if half < r ∨ (r = half ∧ q % 2 = 1) then q + 1 else q
    z.sign * (q' * 2 ^ shift : ℕ)

/-- `float(x)`. -/
def Num.toFloat : Num → Option ℚ
  | .float q => some q
  | .int z => if (roundInt z).natAbs < 2 ^ 1024 then some (roundInt z) else none

namespace Keywords

variable {σ : Type} (d s : Keywords σ)

def hasConstraints (k : Keywords σ) : Bool :=
  k.title.isSome || k.description.isSome || k.type.isSome || k.const.isSome || k.enum.isSome ||
  k.anyOf.isSome || k.properties.isSome || k.required.isSome || k.additionalProperties.isSome ||
  k.items.isSome || k.minimum.isSome || k.exclusiveMinimum.isSome || k.maximum.isSome ||
  k.exclusiveMaximum.isSome || k.minLength.isSome || k.maxLength.isSome || k.minItems.isSome ||
  k.maxItems.isSome || k.pattern.isSome || k.format.isSome

/-- One candidate of `_numeric_bound`, or none when the keyword is absent. -/
def boundCandidate (bound : Option Num) (exclusive : Bool) : Option (List (ℚ × Bool)) :=
  match bound with
  | none => some []
  | some b => b.toFloat.map (fun x => [(x, exclusive)])

/-- The stronger of two bounds of one side, the exclusive one of equals: `max`
under `(item[0], item[1])` for `<`, `min` under `(item[0], not item[1])` for `>`. -/
def stronger (lt : ℚ → ℚ → Bool) (a b : ℚ × Bool) : ℚ × Bool :=
  if lt a.1 b.1 || (a.1 = b.1 && !a.2 && b.2) then b else a

def strongest (lt : ℚ → ℚ → Bool) : List (ℚ × Bool) → Option (ℚ × Bool)
  | [] => none
  | c :: cs => some (cs.foldl (stronger lt) c)

def below (a b : ℚ) : Bool := a < b

def above (a b : ℚ) : Bool := b < a

def numericBound (k : Keywords σ) (lower : Bool) : Option (Option (ℚ × Bool)) := do
  let inclusive ← boundCandidate (if lower then k.minimum else k.maximum) false
  let exclusive ← boundCandidate (if lower then k.exclusiveMinimum else k.exclusiveMaximum) true
  return strongest (if lower then below else above) (inclusive ++ exclusive)

/-- `dest` is no stronger than `src` on the side of `lt`. -/
def boundCovers (lt : ℚ → ℚ → Bool) (dest src : Option (ℚ × Bool)) : Bool :=
  match dest, src with
  | none, _ => true
  | some _, none => false
  | some d, some s => !lt s.1 d.1 && !(s.1 = d.1 && d.2 && !s.2)

def minCovers (dest src : Option ℕ) : Bool :=
  match dest, src with
  | none, _ => true
  | some _, none => false
  | some d, some s => d ≤ s

def maxCovers (dest src : Option ℕ) : Bool :=
  match dest, src with
  | none, _ => true
  | some _, none => false
  | some d, some s => s ≤ d

def boundsCompatible : Option Bool := do
  let destinationLower ← d.numericBound true
  let sourceLower ← s.numericBound true
  if !boundCovers below destinationLower sourceLower then return false
  let destinationUpper ← d.numericBound false
  let sourceUpper ← s.numericBound false
  if !boundCovers above destinationUpper sourceUpper then return false
  return minCovers d.minLength s.minLength && minCovers d.minItems s.minItems &&
    maxCovers d.maxLength s.maxLength && maxCovers d.maxItems s.maxItems &&
    (d.pattern.isNone || s.pattern = d.pattern) && (d.format.isNone || s.format = d.format)

end Keywords

/-- `isinstance(schema, Mapping)`, with the keywords. -/
def Schema.keywords? : Schema → Option (Keywords Schema)
  | .obj k => some k
  | .bool _ => none

/-- `value is False` of an optional subschema. -/
def isFalse : Option Schema → Bool
  | some (.bool false) => true
  | _ => false

theorem Schema.sizeOf_keywords {σ : Schema} {k : Keywords Schema} (h : σ.keywords? = some k) :
    sizeOf k < sizeOf σ := by
  cases σ with
  | bool b => simp [Schema.keywords?] at h
  | obj k' =>
    obtain rfl : k' = k := by simpa [Schema.keywords?] using h
    simp

/-- `_types`: the declared types, or those of the `anyOf` branches. -/
def Keywords.types (k : Keywords Schema) : List TypeName :=
  match k.type with
  | some (.single t) => [t]
  | some (.union t ts) => t :: ts
  | none =>
    match hk : k.anyOf with
    | none => []
    | some branches => branches.attach.flatMap (fun b =>
        match hb : b.1.keywords? with
        | some k' => types k'
        | none => [])
termination_by sizeOf k
decreasing_by
  have := Schema.sizeOf_anyOf hk b.2
  have := Schema.sizeOf_keywords hb
  omega

def typesCompatible (d s : Keywords Schema) : Bool :=
  if d.types.isEmpty then true
  else if s.types.isEmpty then false
  else s.types.all (fun t => (t = .integer && d.types.contains .number) || d.types.contains t)

def Keywords.subschemas (k : Keywords Schema) : List Schema :=
  k.anyOf.getD [] ++ (k.properties.getD []).map (·.2) ++ k.additionalProperties.toList ++
    k.items.toList

theorem Keywords.sizeOf_subschema {k : Keywords Schema} {σ : Schema} (h : σ ∈ k.subschemas) :
    sizeOf σ < sizeOf k := by
  simp only [Keywords.subschemas, List.mem_append, List.mem_map, Option.mem_toList] at h
  rcases h with ((h | ⟨p, hp, rfl⟩) | h) | h
  · cases hk : k.anyOf with
    | none => simp [hk] at h
    | some l => exact Schema.sizeOf_anyOf hk (by simpa [hk] using h)
  · cases hk : k.properties with
    | none => simp [hk] at hp
    | some l => exact Schema.sizeOf_property hk (by simpa [hk] using hp)
  · exact Schema.sizeOf_additional h
  · exact Schema.sizeOf_items h

def Keywords.size (k : Keywords Schema) : ℕ :=
  1 + (k.subschemas.attach.map (fun σ =>
    match hk : σ.1.keywords? with
    | some k' => size k'
    | none => 0)).sum
termination_by sizeOf k
decreasing_by exact (Schema.sizeOf_keywords hk).trans (Keywords.sizeOf_subschema σ.2)

theorem Keywords.size_lt {k k' : Keywords Schema} {σ : Schema} (h : σ ∈ k.subschemas)
    (hk : σ.keywords? = some k') : k'.size < k.size := by
  rw [Keywords.size.eq_1 k]
  have hm : k'.size ∈ k.subschemas.attach.map (fun σ =>
      match hk : σ.1.keywords? with
      | some k' => size k'
      | none => 0) := by
    refine List.mem_map.mpr ⟨⟨σ, h⟩, List.mem_attach _ _, ?_⟩
    split
    next k'' hk' =>
      rw [hk] at hk'
      rw [Option.some.inj hk']
    next hk' => simp [hk] at hk'
  have := List.le_sum_of_mem hm
  omega

theorem Keywords.size_items {k k' : Keywords Schema}
    (h : k.items.bind Schema.keywords? = some k') : k'.size < k.size := by
  obtain ⟨σ, hσ, hk⟩ := Option.bind_eq_some_iff.mp h
  exact Keywords.size_lt (by simp [Keywords.subschemas, hσ]) hk

theorem Keywords.size_additional {k k' : Keywords Schema}
    (h : k.additionalProperties.bind Schema.keywords? = some k') : k'.size < k.size := by
  obtain ⟨σ, hσ, hk⟩ := Option.bind_eq_some_iff.mp h
  exact Keywords.size_lt (by simp [Keywords.subschemas, hσ]) hk

theorem Keywords.size_property {k k' : Keywords Schema} {p : String × Schema}
    (hp : p ∈ k.properties.getD []) (h : p.2.keywords? = some k') : k'.size < k.size := by
  refine Keywords.size_lt ?_ h
  simp only [Keywords.subschemas, List.mem_append]
  exact .inl (.inl (.inr (List.mem_map_of_mem hp)))

theorem Keywords.size_branch {k k' : Keywords Schema} {branches : List Schema} {σ : Schema}
    (hk : k.anyOf = some branches) (hσ : σ ∈ branches) (h : σ.keywords? = some k') :
    k'.size < k.size :=
  Keywords.size_lt (by simp [Keywords.subschemas, hk, hσ]) h

def checkAnd (first second : Option Bool) : Option Bool :=
  match first with
  | some true => second
  | other => other

section Step

variable (search : String → String → Bool)
  (accepts : Keywords Schema → Keywords Schema → Option Bool) (d s : Keywords Schema)

/-- The comparison of `items` inside `schema_accepts_schema`. -/
def itemsCompatible : Option Bool :=
  match d.items.bind Schema.keywords? with
  | none => some true
  | some dk =>
    match s.items.bind Schema.keywords? with
    | none => some false
    | some sk => accepts dk sk

/-- The loop of `_object_compatible` over the source's properties. -/
def propertyCompatible (p : String × Schema) : Option Bool :=
  match Dict.get (d.properties.getD []) p.1 with
  | some dp =>
    match p.2.keywords?, dp.keywords? with
    | some sk, some dk => accepts dk sk
    | _, _ => some true
  | none =>
    if isFalse d.additionalProperties then some false
    else
      match d.additionalProperties.bind Schema.keywords?, p.2.keywords? with
      | some ak, some sk => accepts ak sk
      | _, _ => some true

/-- The comparison of the two `additionalProperties`. -/
def additionalCompatible : Option Bool :=
  match d.additionalProperties.bind Schema.keywords? with
  | none => some true
  | some da =>
    match s.additionalProperties.bind Schema.keywords? with
    | none => some false
    | some sa => accepts da sa

/-- The last loop of `_object_compatible`: a destination property the source
does not declare can come from the source's additional properties. -/
def undeclaredCompatible (p : String × Schema) : Option Bool :=
  if (Dict.get (s.properties.getD []) p.1).isSome then some true
  else
    match p.2.keywords? with
    | none => some true
    | some dk =>
      match s.additionalProperties.bind Schema.keywords? with
      | none => some false
      | some sa => accepts dk sa

def objectCompatible : Option Bool :=
  checkAnd (some ((d.required.getD []).all ((s.required.getD []).contains ·)))
  (checkAnd ((s.properties.getD []).allM (propertyCompatible accepts d))
  (if isFalse s.additionalProperties then some true
  else if isFalse d.additionalProperties then some false
  else
    checkAnd (additionalCompatible accepts d s)
      ((d.properties.getD []).allM (undeclaredCompatible accepts s))))

/-- The body of `schema_accepts_schema`, with the recursive calls made through
`accepts`. -/
def acceptsStep : Option Bool :=
  if !d.hasConstraints then some true
  else
    match s.anyOf with
    | some branches =>
      if branches.isEmpty then some false
      else branches.allM (fun b =>
        match b.keywords? with
        | some k => accepts d k
        | none => some false)
    | none =>
      match d.anyOf with
      | some branches => branches.anyM (fun b =>
          match b.keywords? with
          | some k => accepts k s
          | none => some false)
      | none =>
        match s.const, s.enum with
        | some c, _ => some (Schema.valid search (.obj d) c)
        | none, some vs => some (vs.all (fun v => Schema.valid search (.obj d) v))
        | none, none =>
          if !typesCompatible d s then some false
          else if d.enum.isSome || d.const.isSome then some false
          else
            checkAnd (if s.types.contains .object && d.types.contains .object then
              objectCompatible accepts d s else some true)
            (checkAnd (if s.types.contains .array && d.types.contains .array then
              itemsCompatible accepts d s else some true)
            (d.boundsCompatible s))

end Step

/-- `acceptsStep` nested `n` deep. -/
def acceptsWithin (search : String → String → Bool) :
    ℕ → Keywords Schema → Keywords Schema → Option Bool
  | 0, _, _ => none
  | n + 1, d, s => acceptsStep search (acceptsWithin search n) d s

/-- `schema_accepts_schema(destination, source)`. A recursive call is on smaller
schemas, so the depth allowed here is never used up. -/
def schemaAcceptsSchema (search : String → String → Bool) (d s : Keywords Schema) :
    Option Bool :=
  acceptsWithin search (d.size + s.size + 1) d s

section Unfold

variable {search : String → String → Bool}
  {f g : Keywords Schema → Keywords Schema → Option Bool} {d s : Keywords Schema}

theorem allM_congr {α : Type*} {p q : α → Option Bool} {l : List α}
    (h : ∀ x ∈ l, p x = q x) : l.allM p = l.allM q := by
  induction l with
  | nil => rfl
  | cons x l ih =>
    simp only [List.allM, h x List.mem_cons_self,
      ih (fun y hy => h y (List.mem_cons_of_mem _ hy))]

theorem anyM_congr {α : Type*} {p q : α → Option Bool} {l : List α}
    (h : ∀ x ∈ l, p x = q x) : l.anyM p = l.anyM q := by
  induction l with
  | nil => rfl
  | cons x l ih =>
    simp only [List.anyM, h x List.mem_cons_self,
      ih (fun y hy => h y (List.mem_cons_of_mem _ hy))]

/-- `f` and `g` agree on every pair smaller than `d` and `s`. -/
def AgreeBelow (f g : Keywords Schema → Keywords Schema → Option Bool) (d s : Keywords Schema) :
    Prop :=
  ∀ d' s', d'.size + s'.size < d.size + s.size → f d' s' = g d' s'

theorem itemsCompatible_congr (h : AgreeBelow f g d s) :
    itemsCompatible f d s = itemsCompatible g d s := by
  unfold itemsCompatible
  split
  · rfl
  next dk hd =>
  split
  · rfl
  next sk hs =>
  have h₁ := Keywords.size_items hd
  have h₂ := Keywords.size_items hs
  exact h dk sk (by omega)

theorem propertyCompatible_congr (h : AgreeBelow f g d s) {p : String × Schema}
    (hp : p ∈ s.properties.getD []) : propertyCompatible f d p = propertyCompatible g d p := by
  unfold propertyCompatible
  split
  next dp hd =>
    split
    next sk dk hs hdk =>
      have h₁ := Keywords.size_property (Dict.mem_of_get hd) hdk
      have h₂ := Keywords.size_property hp hs
      exact h dk sk (by omega)
    · rfl
  next =>
    split
    · rfl
    split
    next ak sk ha hs =>
      have h₁ := Keywords.size_additional ha
      have h₂ := Keywords.size_property hp hs
      exact h ak sk (by omega)
    · rfl

theorem additionalCompatible_congr (h : AgreeBelow f g d s) :
    additionalCompatible f d s = additionalCompatible g d s := by
  unfold additionalCompatible
  split
  · rfl
  next da hd =>
  split
  · rfl
  next sa hs =>
  have h₁ := Keywords.size_additional hd
  have h₂ := Keywords.size_additional hs
  exact h da sa (by omega)

theorem undeclaredCompatible_congr (h : AgreeBelow f g d s) {p : String × Schema}
    (hp : p ∈ d.properties.getD []) :
    undeclaredCompatible f s p = undeclaredCompatible g s p := by
  unfold undeclaredCompatible
  split
  · rfl
  split
  · rfl
  next dk hd =>
  split
  · rfl
  next sa hs =>
  have h₁ := Keywords.size_property hp hd
  have h₂ := Keywords.size_additional hs
  exact h dk sa (by omega)

theorem objectCompatible_congr (h : AgreeBelow f g d s) :
    objectCompatible f d s = objectCompatible g d s := by
  unfold objectCompatible
  rw [allM_congr (fun p hp => propertyCompatible_congr h hp), additionalCompatible_congr h,
    allM_congr (fun p hp => undeclaredCompatible_congr h hp)]

theorem acceptsStep_congr (h : AgreeBelow f g d s) :
    acceptsStep search f d s = acceptsStep search g d s := by
  unfold acceptsStep
  rw [objectCompatible_congr h, itemsCompatible_congr h]
  split
  · rfl
  split
  next branches hs =>
    refine congrArg (fun r => if branches.isEmpty then some false else r) (allM_congr ?_)
    intro b hb
    split
    next k hk =>
      have h₁ := Keywords.size_branch hs hb hk
      exact h d k (by omega)
    · rfl
  split
  next branches hd =>
    refine anyM_congr (fun b hb => ?_)
    split
    next k hk =>
      have h₁ := Keywords.size_branch hd hb hk
      exact h k s (by omega)
    · rfl
  · rfl

theorem acceptsWithin_eq {n m : ℕ} (hn : d.size + s.size < n) (hm : d.size + s.size < m) :
    acceptsWithin search n d s = acceptsWithin search m d s := by
  induction n generalizing m d s with
  | zero => omega
  | succ n ih =>
    obtain ⟨m, rfl⟩ : ∃ k, m = k + 1 := ⟨m - 1, by omega⟩
    exact acceptsStep_congr (fun d' s' h => ih (by omega) (by omega))

theorem schemaAcceptsSchema_eq (d s : Keywords Schema) : schemaAcceptsSchema search d s =
    acceptsStep search (schemaAcceptsSchema search) d s :=
  acceptsStep_congr (fun d' s' h => acceptsWithin_eq (by omega) (by omega))

end Unfold

end Raticode.Rattish
