/-!
# YAML sources

The text of a YAML file as a list of spots, which are characters with their places, and
the classes of characters that the grammar speaks of.
-/

namespace Statechart.Yaml

/-- A character, and the place where it stands. -/
structure Spot where
  char : Char
  index : Nat
  line : Nat
  column : Nat
  deriving DecidableEq, Repr

/-- Whether a character may stand in a file: it is printable, a tab or a line break. -/
def isAdmitted (c : Char) : Bool :=
  c == '\t' || c == '\n' || c == '\r' || (' ' ≤ c && c ≤ '~') || c == '\u0085' ||
    ('\u00a0' ≤ c && c ≤ '\ufffd') || '\uffff' < c

/-- Whether a character separates words on a line. -/
def isBlank (c : Char) : Bool :=
  c == ' ' || c == '\t'

/-- Whether a character ends a line. -/
def isBreak (c : Char) : Bool :=
  c == '\n' || c == '\u2028' || c == '\u2029'

/-- Whether a character may stand in the name of an anchor, a tag handle or a directive. -/
def isNameChar (c : Char) : Bool :=
  c.isAlphanum || c == '_' || c == '-'

/-- Whether a character is one of those that enclose or separate the items of a flow
collection. -/
def isFlowIndicator (c : Char) : Bool :=
  [',', '[', ']', '{', '}'].contains c

/-- The characters with a line feed for each carriage return, for each pair of the two and
for each next-line character. -/
def unifyBreaks : List Char → List Char
  | [] => []
  | '\r' :: '\n' :: rest => '\n' :: unifyBreaks rest
  | c :: rest => (if c == '\r' || c == '\u0085' then '\n' else c) :: unifyBreaks rest

/-- The characters with their places, of which the first is given. -/
def placed (index line column : Nat) : List Char → List Spot
  | [] => []
  | c :: rest =>
    ⟨c, index, line, column⟩ ::
      (if isBreak c then placed (index + 1) (line + 1) 0 rest
       else placed (index + 1) line (column + 1) rest)

/-- The spots of a text, all of whose characters must be admitted. -/
def source? (text : String) : Option (List Spot) :=
  if text.toList.all isAdmitted then some (placed 0 0 0 (unifyBreaks text.toList)) else none

/-- The leading spots of the given class, as characters. -/
def taken (p : Char → Bool) (s : List Spot) : List Char :=
  (s.takeWhile (fun spot => p spot.char)).map Spot.char

/-- The spots behind the leading ones of the given class. -/
def dropped (p : Char → Bool) (s : List Spot) : List Spot :=
  s.dropWhile (fun spot => p spot.char)

/-- Whether the first character is there and of the given class. -/
def startsWith (p : Char → Bool) (s : List Spot) : Bool :=
  s.head?.any (fun spot => p spot.char)

/-- Whether no character follows on the line, or a blank. -/
def atGap (s : List Spot) : Bool :=
  s.head?.all (fun spot => isBlank spot.char || isBreak spot.char)

/-- Whether a line starts here with three times the given character and a gap. -/
def isMarker (c : Char) : List Spot → Bool
  | p :: q :: r :: rest =>
    p.column == 0 && p.char == c && q.char == c && r.char == c && atGap rest
  | _ => false

/-- Whether a line starts here that begins or ends a document. -/
def atMarker (s : List Spot) : Bool :=
  isMarker '-' s || isMarker '.' s

/-- What follows on the next line, if no more than blanks and a comment stand on this. -/
def endLine? (s : List Spot) : Option (List Spot) :=
  let s := dropped isBlank s
  let s := if startsWith (· == '#') s then dropped (fun c => !isBreak c) s else s
  match s with
  | [] => some []
  | p :: rest => if isBreak p.char then some rest else none

/-- The value of a digit in the bases up to sixteen. -/
def digit? (c : Char) : Option Nat :=
  if c.isDigit then some (c.toNat - '0'.toNat)
  else if 'a' ≤ c ∧ c ≤ 'f' then some (c.toNat - 'a'.toNat + 10)
  else if 'A' ≤ c ∧ c ≤ 'F' then some (c.toNat - 'A'.toNat + 10)
  else none

/-- The number that the digits of `n` followed by the given ones denote in a base. -/
def ofBase? (base : Nat) : Nat → List Char → Option Nat
  | n, [] => some n
  | n, c :: rest => do
    let d ← digit? c
    if d < base then ofBase? base (base * n + d) rest else none

end Statechart.Yaml
