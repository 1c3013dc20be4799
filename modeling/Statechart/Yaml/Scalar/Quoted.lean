import Statechart.Yaml.Scalar.Basic

/-!
# Quoted scalars

Scalars between quotation marks.  Between single ones a quotation mark is written twice;
between double ones a backslash begins an escape.  `quoted` writes a text between double
quotation marks in characters of ASCII.
-/

namespace Statechart.Yaml

/-- The characters that have an escape of one character, after that character. -/
def escapes : List (Char × Char) :=
  [('0', '\x00'), ('a', '\x07'), ('b', '\x08'), ('t', '\t'), ('\t', '\t'), ('n', '\n'),
    ('v', '\x0b'), ('f', '\x0c'), ('r', '\r'), ('e', '\x1b'), (' ', ' '), ('"', '"'),
    ('/', '/'), ('\\', '\\'), ('N', '\u0085'), ('_', '\u00a0'), ('L', '\u2028'),
    ('P', '\u2029')]

/-- The letters of the escapes by number, with the number of their hexadecimal digits. -/
def numberedEscapes : List (Char × Nat) :=
  [('x', 2), ('u', 4), ('U', 8)]

/-- The character of a number, which must not be that of a surrogate. -/
def char? (n : Nat) : Option Char :=
  if n.isValidChar then some (Char.ofNat n) else none

/-- The character that the escape with the letter `c` stands for, and what follows it. -/
def readEscape (c : Char) (s : List Spot) : Option (Char × List Spot) :=
  match escapes.lookup c, numberedEscapes.lookup c with
  | some d, _ => some (d, s)
  | none, some width => do
    let digits := (s.take width).map Spot.char
    if digits.length < width then none
    else do
      let d ← char? (← ofBase? 16 0 digits)
      some (d, s.drop width)
  | none, none => none

/-- The text of a scalar between single quotation marks, of which some is read, in reverse,
and the gap behind that; and what follows. -/
def readSingle (read : List Char) (gap : Gap) : List Spot → Option (String × List Spot)
  | [] => none
  | p :: rest =>
    let joined := gap.text.reverse ++ read
    if isBlank p.char || isBreak p.char then readSingle read (gap.add p.char) rest
    else if atMarker (p :: rest) then none
    else if p.char == '\'' then
      match rest with
      | q :: more =>
        if q.char == '\'' then readSingle ('\'' :: joined) {} more
        else some (String.ofList joined.reverse, rest)
      | [] => some (String.ofList joined.reverse, [])
    else readSingle (p.char :: joined) {} rest

/-- The text of a scalar between double quotation marks, of which some is read, in reverse,
and the gap behind that; and what follows.  The length of the source bounds the fuel. -/
def readDouble : Nat → List Char → Gap → List Spot → Option (String × List Spot)
  | 0, _, _, _ => none
  | _, _, _, [] => none
  | fuel + 1, read, gap, p :: rest =>
    let joined := gap.text.reverse ++ read
    if isBlank p.char || isBreak p.char then readDouble fuel read (gap.add p.char) rest
    else if atMarker (p :: rest) then none
    else if p.char == '"' then some (String.ofList joined.reverse, rest)
    else if p.char == '\\' then
      match rest with
      | [] => none
      | q :: rest =>
        if isBreak q.char then readDouble fuel joined { escaped := true } rest
        else do
          let (c, rest) ← readEscape q.char rest
          readDouble fuel (c :: joined) {} rest
    else readDouble fuel (p.char :: joined) {} rest

/-- A number in hexadecimal digits, at least as many as the width. -/
def hexadecimal (width n : Nat) : List Char :=
  let ds := Nat.toDigits 16 n
  List.replicate (width - ds.length) '0' ++ ds

/-- The written form of a character between double quotation marks. -/
def escapeChar (c : Char) : List Char :=
  if c == '"' || c == '\\' then ['\\', c]
  else if ' ' ≤ c ∧ c ≤ '~' then [c]
  else if c.toNat < 0x100 then '\\' :: 'x' :: hexadecimal 2 c.toNat
  else if c.toNat < 0x10000 then '\\' :: 'u' :: hexadecimal 4 c.toNat
  else '\\' :: 'U' :: hexadecimal 8 c.toNat

/-- A text between double quotation marks. -/
def quoted (s : String) : String :=
  String.ofList ('"' :: s.toList.flatMap escapeChar ++ ['"'])

end Statechart.Yaml
