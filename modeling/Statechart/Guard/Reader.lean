import Statechart.Guard.Basic
import Statechart.Decimal.Reading
import Statechart.Text.Alphanumeric
import Statechart.Text.Blank

/-!
# Reading guards

`Guard.read` reads a text as a name or as a formula, `Formula.read` always as a formula.
Negation binds tighter than `&&`, and `&&` tighter than `||`; both operators group to the
left.  The readers take the characters ahead and answer with those behind what they read;
those that call each other count down a fuel, which the length of the text bounds.
-/

namespace Statechart.Guard

open Text (dropBlank)

/-- The characters behind the blanks and the given token, if it comes next. -/
def token? (token : String) (s : List Char) : Option (List Char) :=
  token.toList.isPrefixOf? (dropBlank s)

/-- Whether a character may stand in the path of a field. -/
def isPathChar (c : Char) : Bool :=
  Text.isAlphanumeric c || c == '_' || c == '.'

/-- The path of a field. -/
def readPath (scope : Scope) (s : List Char) : Except Refusal (Field × List Char) :=
  let path := s.takeWhile isPathChar
  if path = [] ∨ path.getLast? = some '.' then .error .emptyField
  else .ok (⟨scope, String.ofList path⟩, s.dropWhile isPathChar)

/-- A field: a scope and a path. -/
def readField (s : List Char) : Except Refusal (Field × List Char) :=
  match token? "ctx." s with
  | some rest => readPath .context rest
  | none =>
    match token? "event." s with
    | some rest => readPath .event rest
    | none => .error .noScope

/-- The rest of a string literal; a backslash takes the next character as it is. -/
def readQuoted (read : List Char) : List Char → Except Refusal (String × List Char)
  | [] => .error .unterminated
  | '"' :: rest => .ok (String.ofList read.reverse, rest)
  | ['\\'] => .error .unterminated
  | '\\' :: c :: rest => readQuoted (c :: read) rest
  | c :: rest => readQuoted (c :: read) rest

/-- Whether a character may stand in a number after its sign. -/
def isNumberChar (c : Char) : Bool :=
  c.isDigit || c == '.'

/-- A number literal. -/
def readNumber (s : List Char) : Except Refusal (Literal × List Char) :=
  let s := dropBlank s
  let (sign, body) := match s with
    | '-' :: rest => (['-'], rest)
    | _ => ([], s)
  let text := sign ++ body.takeWhile isNumberChar
  match Decimal.plain? text with
  | some x => .ok (.number x, body.dropWhile isNumberChar)
  | none => .error (.badNumber (String.ofList text))

/-- The literals that are words. -/
def words : List (String × Literal) :=
  [("true", .bool true), ("false", .bool false), ("null", .null)]

/-- A literal: a word, a string or a number. -/
def readLiteral (s : List Char) : Except Refusal (Literal × List Char) :=
  match words.findSome? (fun (word, value) => (token? word s).map (fun rest => (value, rest))) with
  | some found => .ok found
  | none =>
    match dropBlank s with
    | '"' :: rest => (readQuoted [] rest).map (fun (text, rest) => (.str text, rest))
    | rest => readNumber rest

/-- The comparison signs, those of two characters first. -/
def comparisons : List (String × Comparison) :=
  [("==", .eq), ("!=", .ne), (">=", .ge), ("<=", .le), (">", .gt), ("<", .lt)]

/-- A field, or a field compared with a literal; only numbers are compared by order. -/
def readComparison (s : List Char) : Except Refusal (Formula × List Char) := do
  let (field, rest) ← readField s
  let found := comparisons.findSome?
    (fun (sign, comparison) => (token? sign rest).map (fun rest => (comparison, rest)))
  match found with
  | none => .ok (.truthy field, dropBlank rest)
  | some (comparison, rest) =>
    let (literal, rest) ←
      if comparison = .eq ∨ comparison = .ne then readLiteral rest else readNumber rest
    .ok (.compare field comparison literal, rest)

mutual

/-- A disjunction. -/
def readOr : Nat → List Char → Except Refusal (Formula × List Char)
  | 0, _ => .error .empty
  | fuel + 1, s =>
    match readAnd fuel s with
    | .ok (left, rest) => readOrRest fuel left rest
    | .error e => .error e

/-- The further disjuncts after `left`. -/
def readOrRest : Nat → Formula → List Char → Except Refusal (Formula × List Char)
  | 0, _, _ => .error .empty
  | fuel + 1, left, s =>
    match token? "||" s with
    | none => .ok (left, s)
    | some rest =>
      match readAnd fuel rest with
      | .ok (right, rest) => readOrRest fuel (.or left right) rest
      | .error e => .error e

/-- A conjunction. -/
def readAnd : Nat → List Char → Except Refusal (Formula × List Char)
  | 0, _ => .error .empty
  | fuel + 1, s =>
    match readUnary fuel s with
    | .ok (left, rest) => readAndRest fuel left rest
    | .error e => .error e

/-- The further conjuncts after `left`. -/
def readAndRest : Nat → Formula → List Char → Except Refusal (Formula × List Char)
  | 0, _, _ => .error .empty
  | fuel + 1, left, s =>
    match token? "&&" s with
    | none => .ok (left, s)
    | some rest =>
      match readUnary fuel rest with
      | .ok (right, rest) => readAndRest fuel (.and left right) rest
      | .error e => .error e

/-- A negation, a formula in parentheses or a comparison. -/
def readUnary : Nat → List Char → Except Refusal (Formula × List Char)
  | 0, _ => .error .empty
  | fuel + 1, s =>
    match dropBlank s with
    | '!' :: '=' :: rest => readComparison ('!' :: '=' :: rest)
    | '!' :: rest =>
      match readUnary fuel rest with
      | .ok (inner, rest) => .ok (.not inner, rest)
      | .error e => .error e
    | '(' :: rest =>
      match readOr fuel rest with
      | .ok (inner, rest) =>
        match token? ")" rest with
        | some rest => .ok (inner, rest)
        | none => .error .unclosed
      | .error e => .error e
    | rest => readComparison rest

end

/-- The number of bytes of a row of characters. -/
def byteCount (s : List Char) : Nat :=
  s.foldl (fun n c => n + c.utf8Size) 0

/-- The formula that a text spells. -/
def Formula.read (text : String) : Except Refusal Formula :=
  let s := Text.trim text.toList
  if s = [] then .error .empty
  else
    match readOr (4 * s.length + 4) s with
    | .error e => .error e
    | .ok (whole, rest) =>
      match dropBlank rest with
      | [] => .ok whole
      | rest => .error (.leftOver (byteCount s - byteCount rest) (String.ofList rest))

/-- Whether a character may stand in the name of a guard. -/
def isNameChar (c : Char) : Bool :=
  Text.isAlphanumeric c || c == '_' || c == '-' || c == ':'

/-- The guard that a text spells: a name if all its characters are those of names, else a
formula. -/
def read (text : String) : Except Refusal Guard :=
  let s := Text.trim text.toList
  if s ≠ [] ∧ s.all isNameChar then .ok (.named (String.ofList s))
  else (Formula.read text).map .formula

end Statechart.Guard
