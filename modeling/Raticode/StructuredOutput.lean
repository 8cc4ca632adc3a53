import Mathlib.Data.Finset.Union
import Raticode.RattishValue
import Raticode.Scan
import Raticode.Fuelled

/-! Finding the schema of a field in an output schema, and the JSON types a schema allows. -/
namespace Raticode.StructuredOutput
open OrderedDict Rattish

abbrev Fields := Dict String Value

section References

def referenceKeywords : List String := ["$ref", "$dynamicRef", "$recursiveRef"]

def ownReferences (fields : Fields) : List (String × String) :=
  referenceKeywords.filterMap (fun keyword =>
    match fields.get keyword with
    | some (.str reference) => some (keyword, reference)
    | _ => none)

mutual
def schemaReferences : Value → List (String × String)
  | .obj fields => ownReferences fields ++ fieldReferences fields
  | .arr items => itemReferences items
  | _ => []

def itemReferences : List Value → List (String × String)
  | [] => []
  | item :: rest => schemaReferences item ++ itemReferences rest

def fieldReferences : List (String × Value) → List (String × String)
  | [] => []
  | (_, value) :: rest => schemaReferences value ++ fieldReferences rest
end

theorem schemaReferences_obj (fields : Fields) :
    schemaReferences (.obj fields) = ownReferences fields ++ fieldReferences fields := rfl

theorem schemaReferences_arr (items : List Value) :
    schemaReferences (.arr items) = itemReferences items := rfl

/-- `token.replace("~1", "/").replace("~0", "~")`. -/
def unescape (token : List Char) : String :=
  String.ofList (Scan.replace ['~', '0'] ['~'] (Scan.replace ['~', '1'] ['/'] token))

def follow : Value → List String → Option Value
  | current, [] => some current
  | .obj fields, key :: rest => (Dict.get fields key).bind (follow · rest)
  | _, _ :: _ => none

def resolveLocalJsonPointer (root : Fields) (reference : String) : Option Fields :=
  if reference = "#" then some root
  else
    match reference.toList with
    | '#' :: '/' :: pointer =>
      match follow (.obj root) ((pointer.splitOn '/').map unescape) with
      | some (.obj target) => some target
      | _ => none
    | _ => none

end References

section Fields

/-- `{"allOf": [left, right]}`. -/
def conjunction (left right : Fields) : Fields := [("allOf", .arr [.obj left, .obj right])]

def referenced (target siblings : Fields) : Fields :=
  if siblings.isEmpty then target else conjunction target siblings

/-- A branch of `anyOf` or `oneOf`, with what stands beside the keyword. -/
def alternative (base item : Fields) : Fields :=
  if base.isEmpty then item else conjunction base item

/-- `[item for item in items if isinstance(item, dict)]`. -/
def dicts (items : List Value) : List Fields :=
  items.filterMap (fun item => match item with | .obj fields => some fields | _ => none)

/-- The first of `anyOf` and `oneOf` that is a list. -/
def branchesOf (schema : Fields) : Option (String × List Value) :=
  match schema.get "anyOf" with
  | some (.arr branches) => some ("anyOf", branches)
  | _ =>
    match schema.get "oneOf" with
    | some (.arr branches) => some ("oneOf", branches)
    | _ => none

variable (dumps : Value → String)

/-- `_dedupe_schemas`: `dumps` prints a schema with sorted keys. -/
def dedupeSchemas (schemas : List Fields) : List Fields :=
  schemas.foldl (fun unique schema =>
    if dumps (.obj schema) ∈ unique.map (fun s => dumps (.obj s)) then unique
    else unique ++ [schema]) []

def combineConstraints (keyword : String) (constraints : List Fields) : Option Fields :=
  match dedupeSchemas dumps constraints with
  | [] => none
  | [constraint] => some constraint
  | many => some [(keyword, .arr (many.map .obj))]

variable (isdigit : String → Bool)

def hasType (schema : Fields) (name : String) : Bool :=
  match schema.get "type" with
  | some (.str s) => s = name
  | _ => false

def ownField (schema : Fields) (part : String) : Option Fields :=
  if hasType schema "object" || (schema.get "properties").isSome then
    match schema.get "properties" with
    | some (.obj properties) =>
      match Dict.get properties part with
      | some (.obj child) => some child
      | _ => none
    | _ => none
  else if hasType schema "array" && isdigit part then
    match schema.get "items" with
    | some (.obj items) => some items
    | _ => none
  else none

/-- `_field_schema`, `none` without enough fuel for the recursion. -/
def fieldSchema (root : Fields) (part : String) : ℕ → Fields → List String →
    Option (Option Fields)
  | 0, _, _ => none
  | fuel + 1, schema, seenRefs =>
    match schema.get "$ref" with
    | some (.str reference) =>
      if reference ∈ seenRefs then some none
      else
        match resolveLocalJsonPointer root reference with
        | none => some none
        | some target =>
          fieldSchema root part fuel (referenced target (schema.erase "$ref"))
            (reference :: seenRefs)
    | _ =>
      match schema.get "allOf" with
      | some (.arr items) =>
        let base := schema.erase "allOf"
        ((if base.isEmpty then [] else [base]) ++ dicts items).mapM
          (fun item => fieldSchema root part fuel item seenRefs) |>.bind
          (fun found => some (combineConstraints dumps "allOf" found.reduceOption))
      | _ =>
        match branchesOf schema with
        | some (keyword, branches) =>
          (dicts branches).mapM (fun item =>
            fieldSchema root part fuel (alternative (schema.erase keyword) item) seenRefs) |>.bind
            (fun found =>
              if found.all Option.isNone then some none
              else some (combineConstraints dumps keyword (found.map (·.getD []))))
        | none => some (ownField isdigit schema part)

def attachRootDefinitions (schema root : Fields) : Fields :=
  if (schemaReferences (.obj schema)).isEmpty then schema
  else
    schema ++ ["$defs", "definitions"].filterMap (fun key =>
      if (schema.get key).isSome then none else (root.get key).map (key, ·))

def schemaAtPath (fuel : ℕ) (schema : Fields) (path : String) : Option (Option Fields) :=
  let parts := if path = "" then [] else (path.toList.splitOn '.').map String.ofList
  parts.foldlM (fun current part =>
    match current with
    | none => some none
    | some found => fieldSchema dumps isdigit schema part fuel found []) (some schema) |>.bind
    (fun current => some (current.map (attachRootDefinitions · schema)))

end Fields

section Types

def jsonType : Value → String
  | .null => "null"
  | .bool _ => "boolean"
  | .int _ => "integer"
  | .float _ => "number"
  | .str _ => "string"
  | .arr _ => "array"
  | .obj _ => "object"

def intersectJsonTypes (left right : Finset String) : Finset String :=
  let intersection := left ∩ right
  if ("number" ∈ left ∧ "integer" ∈ right) ∨ ("integer" ∈ left ∧ "number" ∈ right) then
    insert "integer" intersection
  else intersection

/-- The types a schema states by itself, with `type`, `enum` or `const`. -/
def statedTypes (schema : Fields) : Option (Finset String) :=
  match schema.get "type" with
  | some (.str name) => some {name}
  | some (.arr names) =>
    some (names.filterMap (fun item => match item with | .str s => some s | _ => none)).toFinset
  | _ =>
    match schema.get "enum" with
    | some (.arr (value :: values)) => some ((value :: values).map jsonType).toFinset
    | _ => (schema.get "const").map (fun value => {jsonType value})

/-- `_schema_types`, `none` without enough fuel for the recursion. An empty root is no
root. -/
def schemaTypes : ℕ → Fields → Fields → List String → Option (Option (Finset String))
  | 0, _, _, _ => none
  | fuel + 1, schema, givenRoot, seenRefs =>
    let root := if givenRoot.isEmpty then schema else givenRoot
    match schema.get "$ref" with
    | some (.str reference) =>
      if reference ∈ seenRefs then some none
      else
        match resolveLocalJsonPointer root reference with
        | none => some none
        | some target =>
          schemaTypes fuel (referenced target (schema.erase "$ref")) root (reference :: seenRefs)
    | _ =>
      match statedTypes schema with
      | some types => some (some types)
      | none =>
        match branchesOf schema with
        | some (_, branches) =>
          (dicts branches).mapM (fun branch => schemaTypes fuel branch root seenRefs) |>.bind
            (fun branchTypes =>
              if branchTypes.isEmpty || branchTypes.any Option.isNone then some none
              else some (some (branchTypes.reduceOption.foldl (· ∪ ·) ∅)))
        | none =>
          match schema.get "allOf" with
          | some (.arr items) =>
            (dicts items).mapM (fun branch => schemaTypes fuel branch root seenRefs) |>.bind
              (fun branchTypes =>
                match branchTypes.reduceOption with
                | [] => some none
                | first :: rest => some (some (rest.foldl intersectJsonTypes first)))
          | _ => some none

end Types

end Raticode.StructuredOutput
