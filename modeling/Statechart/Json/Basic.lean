import Statechart.Association

/-!
# JSON values

Values with integers and floating-point numbers kept apart, and with the fields of an
object in document order.  A document may repeat a key: `merged` keeps the last value at
the first place of the key, which is how a value is used once it is data.
-/

namespace Statechart

/-- A JSON value. -/
inductive Json where
  | null
  | bool (b : Bool)
  | int (n : Int)
  | float (x : Float)
  | str (s : String)
  | arr (items : List Json)
  | obj (fields : List (String × Json))
  deriving Inhabited, Repr

namespace Json

mutual

/-- Equality of values: the order of fields is of no account, and an integer never equals
a floating-point number. -/
def beq : Json → Json → Bool
  | .null, .null => true
  | .bool a, .bool b => a == b
  | .int a, .int b => a == b
  | .float a, .float b => a == b
  | .str a, .str b => a == b
  | .arr a, .arr b => beqItems a b
  | .obj a, .obj b => a.length == b.length && beqFields a b
  | _, _ => false

/-- Equality item by item. -/
def beqItems : List Json → List Json → Bool
  | [], [] => true
  | a :: as, b :: bs => beq a b && beqItems as bs
  | _, _ => false

/-- Whether each field of the first object has an equal in the second. -/
def beqFields : List (String × Json) → List (String × Json) → Bool
  | [], _ => true
  | (key, a) :: rest, fields =>
    (match fields.lookup key with
      | some b => beq a b
      | none => false) && beqFields rest fields

end

instance : BEq Json := ⟨beq⟩

mutual

/-- The value with every repeated key reduced to its last value, at its first place. -/
def merged : Json → Json
  | .arr items => .arr (mergedItems items)
  | .obj fields => .obj (mergedFields [] fields)
  | other => other

/-- The items, each merged. -/
def mergedItems : List Json → List Json
  | [] => []
  | a :: as => merged a :: mergedItems as

/-- The fields `done` followed by the given fields, merged. -/
def mergedFields (done : List (String × Json)) :
    List (String × Json) → List (String × Json)
  | [] => done
  | (key, a) :: rest => mergedFields (Association.insert key (merged a) done) rest

end

/-- The field `key` of an object. -/
def field? (key : String) : Json → Option Json
  | .obj fields => fields.lookup key
  | _ => none

/-- The number of a numeric value, as a floating-point number. -/
def number? : Json → Option Float
  | .int n => some (Float.ofInt n)
  | .float x => some x
  | _ => none

/-- The string of a string value. -/
def string? : Json → Option String
  | .str s => some s
  | _ => none

/-- The integer of an integer value below `2 ^ 64` that is not negative. -/
def natural? : Json → Option Nat
  | .int (.ofNat n) => if n < 1 <<< 64 then some n else none
  | _ => none

/-- Whether a value is an object. -/
def isObject : Json → Bool
  | .obj _ => true
  | _ => false

/-- Whether a value is null. -/
def isNull : Json → Bool
  | .null => true
  | _ => false

/-- The object of the given fields, of which the absent ones are left out. -/
def objOf (fields : List (String × Option Json)) : Json :=
  .obj (fields.filterMap (fun f => f.2.map (fun v => (f.1, v))))

/-- The list of strings as a value. -/
def strings (items : List String) : Json :=
  .arr (items.map Json.str)

end Json

end Statechart
