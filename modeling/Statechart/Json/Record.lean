import Statechart.Json.Basic

/-!
# Records in JSON

Reading the fields of a record.  A record is an object, of which unknown fields do not
count, or an array of its fields in order; a known field occurs at most once, though it may
go by more than one name.
-/

namespace Statechart.Json

variable {α : Type}

/-- The fields of a record, whose fields have the given names in order. -/
def record? (names : List String) : Json → Option (List (String × Json))
  | .obj fields => some fields
  | .arr items => if items.length ≤ names.length then some (names.zip items) else none
  | _ => none

/-- The value of the field that goes by one of the given names, if any; two such fields
are refused. -/
def single? (names : List String) (fields : List (String × Json)) : Option (Option Json) :=
  match fields.filter (fun f => names.contains f.1) with
  | [] => some none
  | [f] => some (some f.2)
  | _ => none

/-- The field that must be there. -/
def required? (fields : List (String × Json)) (names : List String)
    (read : Json → Option α) : Option α := do
  (← single? names fields).bind read

/-- The field that has a default value when it is absent. -/
def defaulted? (fields : List (String × Json)) (names : List String) (default : α)
    (read : Json → Option α) : Option α := do
  match ← single? names fields with
  | none => some default
  | some v => read v

/-- The field that may be absent or null. -/
def optional? (fields : List (String × Json)) (names : List String)
    (read : Json → Option α) : Option (Option α) :=
  defaulted? fields names none (fun v => if v.isNull then some none else (read v).map some)

/-- The truth value that a value is. -/
def flag? : Json → Option Bool
  | .bool b => some b
  | _ => none

end Statechart.Json
