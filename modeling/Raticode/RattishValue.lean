import Mathlib.Data.Rat.Defs
import Mathlib.Algebra.Order.Ring.Rat
import Raticode.OrderedDict

/-! The JSON values that node outputs, workflow inputs and literals hold, with
the comparisons the runtime makes between them. A finite double is the rational
it denotes; the source language compares it with integers exactly. -/
namespace Raticode.Rattish
open OrderedDict

inductive Value where
  | null
  | bool (b : Bool)
  | int (z : ℤ)
  | float (q : ℚ)
  | str (s : String)
  | arr (items : List Value)
  | obj (fields : List (String × Value))
  deriving Inhabited

namespace Value

/-- The number a value counts as in `==` and `<`, where a Boolean is 0 or 1. -/
def asNumber : Value → Option ℚ
  | .bool b => some (if b then 1 else 0)
  | .int z => some z
  | .float q => some q
  | _ => none

mutual
/-- `left == right`. -/
def pyEq : Value → Value → Bool
  | .null, .null => true
  | .str a, .str b => a = b
  | .arr xs, .arr ys => pyEqList xs ys
  | .obj xs, .obj ys => xs.length = ys.length && pyEqFields xs ys
  | a, b =>
    match a.asNumber, b.asNumber with
    | some p, some q => p = q
    | _, _ => false

def pyEqList : List Value → List Value → Bool
  | [], [] => true
  | x :: xs, y :: ys => pyEq x y && pyEqList xs ys
  | _, _ => false

def pyEqFields : List (String × Value) → Dict String Value → Bool
  | [], _ => true
  | (k, v) :: xs, ys =>
    (match ys.get k with
      | some w => pyEq v w
      | none => false) && pyEqFields xs ys
end

mutual
/-- `left < right`, `none` where the comparison raises `TypeError`. -/
def pyLt : Value → Value → Option Bool
  | .str a, .str b => some (decide (a < b))
  | .arr xs, .arr ys => pyLtList xs ys
  | a, b =>
    match a.asNumber, b.asNumber with
    | some p, some q => some (decide (p < q))
    | _, _ => none

-- Lists compare at the first position where the elements differ.
def pyLtList : List Value → List Value → Option Bool
  | [], [] => some false
  | [], _ :: _ => some true
  | _ :: _, [] => some false
  | x :: xs, y :: ys => if pyEq x y then pyLtList xs ys else pyLt x y
end

/-- `left <= right`: on lists equality decides when no position differs. -/
def pyLe (left right : Value) : Option Bool :=
  (pyLt left right).map (fun lt => lt || pyEq left right)

/-- `bool(value)`. -/
def truthy : Value → Bool
  | .null => false
  | .bool b => b
  | .int z => z ≠ 0
  | .float q => q ≠ 0
  | .str s => s ≠ ""
  | .arr xs => !xs.isEmpty
  | .obj fields => !fields.isEmpty

/-- `right in left`, false where the test raises `TypeError`. -/
def contains : Value → Value → Bool
  | .str text, .str part => text.toList.tails.any (fun t => part.toList.isPrefixOf t)
  | .arr xs, item => xs.any (fun x => pyEq x item)
  | .obj fields, .str key => (Dict.get fields key).isSome
  | _, _ => false

end Value

inductive Selector where
  | member (value : String)
  | index (value : ℕ)
  deriving DecidableEq, Repr

/-- `value[selector["value"]]`, `none` for the lookup errors the callers catch. -/
def Value.select : Value → Selector → Option Value
  | .obj fields, .member name => Dict.get fields name
  | .arr items, .index i => items[i]?
  | .str text, .index i => (text.toList[i]?).map (fun c => .str (String.ofList [c]))
  | _, _ => none

structure RuntimeErrorInfo where
  kind : String
  code : String
  message : String
  details : Dict String Value := []

def errorDocument (error : RuntimeErrorInfo) : Value :=
  .obj [("kind", .str error.kind), ("code", .str error.code), ("message", .str error.message),
    ("details", .obj error.details)]

/-- `repr` of an identifier. -/
def quoted (name : String) : String := "'" ++ name ++ "'"

end Raticode.Rattish
