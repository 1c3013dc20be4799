import Statechart.Json.Basic
import Statechart.Decimal.Layout

/-!
# JSON texts

`Json.compact` writes a value without blanks; `Json.pretty` writes each item and each
field on a line of its own, indented by two blanks for each level.
-/

namespace Statechart.Json

/-- Numbers have a point for leading digits from the fifth place after the point to the
sixteenth before it, and else an exponent with a sign. -/
def numberLayout : Decimal.Layout where
  positionalFrom := -5
  exponentFrom := 16
  keepsPoint := true
  mark := 'e'
  plus := true

/-- The written form of a character of a string: quotation mark, backslash and control
characters are escaped. -/
def escapeChar (c : Char) : List Char :=
  match c with
  | '"' => ['\\', '"']
  | '\\' => ['\\', '\\']
  | '\x08' => ['\\', 'b']
  | '\x0c' => ['\\', 'f']
  | '\n' => ['\\', 'n']
  | '\r' => ['\\', 'r']
  | '\t' => ['\\', 't']
  | c =>
    if c.toNat < 0x20 then
      let ds := Nat.toDigits 16 c.toNat
      ['\\', 'u'] ++ List.replicate (4 - ds.length) '0' ++ ds
    else [c]

/-- The written form of a string. -/
def quoted (s : String) : String :=
  String.ofList ('"' :: s.toList.flatMap escapeChar ++ ['"'])

/-- The text of a value that holds no other values. -/
def scalarText : Json → String
  | .null => "null"
  | .bool true => "true"
  | .bool false => "false"
  | .int n => toString n
  | .float x => numberLayout.render x
  | .str s => quoted s
  | _ => ""

mutual

/-- The text of a value, without blanks. -/
def compact : Json → String
  | .arr items => "[" ++ ",".intercalate (compactItems items) ++ "]"
  | .obj fields => "\x7b" ++ ",".intercalate (compactFields fields) ++ "\x7d"
  | other => scalarText other

/-- The texts of the items. -/
def compactItems : List Json → List String
  | [] => []
  | a :: as => compact a :: compactItems as

/-- The texts of the fields. -/
def compactFields : List (String × Json) → List String
  | [] => []
  | (key, a) :: rest => (quoted key ++ ":" ++ compact a) :: compactFields rest

end

/-- A new line that is indented for the given level. -/
def newLine (level : Nat) : String :=
  "\n" ++ String.ofList (List.replicate (2 * level) ' ')

mutual

/-- The text of a value with one line for each item and field. -/
def pretty (level : Nat) : Json → String
  | .arr [] => "[]"
  | .arr items =>
    "[" ++ newLine (level + 1) ++
      ("," ++ newLine (level + 1)).intercalate (prettyItems (level + 1) items) ++
      newLine level ++ "]"
  | .obj [] => "\x7b\x7d"
  | .obj fields =>
    "\x7b" ++ newLine (level + 1) ++
      ("," ++ newLine (level + 1)).intercalate (prettyFields (level + 1) fields) ++
      newLine level ++ "\x7d"
  | other => scalarText other

/-- The texts of the items. -/
def prettyItems (level : Nat) : List Json → List String
  | [] => []
  | a :: as => pretty level a :: prettyItems level as

/-- The texts of the fields. -/
def prettyFields (level : Nat) : List (String × Json) → List String
  | [] => []
  | (key, a) :: rest => (quoted key ++ ": " ++ pretty level a) :: prettyFields level rest

end

end Statechart.Json
