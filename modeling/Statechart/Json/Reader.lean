import Statechart.Json.Basic
import Statechart.Decimal.Reading

/-!
# Reading JSON texts

`Json.read?` reads a text as one value.  Keys may repeat and stay in document order.
Arrays and objects nest at most 127 levels deep.  An integer between `-2 ^ 63` and
`2 ^ 64 - 1` without fraction and exponent is an integer, but `-0` is the floating-point
number; every other number is a floating-point number, and one beyond the largest is
refused.

The readers take the characters ahead and answer a value with the characters behind it.
Those that call each other count down a fuel, which the length of the text bounds.
-/

namespace Statechart.Json

/-- The blanks between the parts of a text. -/
def isSpace (c : Char) : Bool :=
  c == ' ' || c == '\n' || c == '\t' || c == '\r'

/-- The characters after the leading blanks. -/
def skipSpace (s : List Char) : List Char :=
  s.dropWhile isSpace

/-- The value of a hexadecimal digit. -/
def hexValue? (c : Char) : Option Nat :=
  if '0' ≤ c ∧ c ≤ '9' then some (c.toNat - 48)
  else if 'a' ≤ c ∧ c ≤ 'f' then some (c.toNat - 87)
  else if 'A' ≤ c ∧ c ≤ 'F' then some (c.toNat - 55)
  else none

/-- Four hexadecimal digits. -/
def readHex : List Char → Option (Nat × List Char)
  | a :: b :: c :: d :: rest => do
    let a ← hexValue? a
    let b ← hexValue? b
    let c ← hexValue? c
    let d ← hexValue? d
    some (a * 4096 + b * 256 + c * 16 + d, rest)
  | _ => none

/-- The character of an escape by number, whose first four digits are `n`: a code point
outside the surrogates, or a high surrogate before an escaped low one. -/
def readUnicode (s : List Char) : Option (Char × List Char) := do
  let (high, rest) ← readHex s
  if 0xDC00 ≤ high ∧ high ≤ 0xDFFF then none
  else if 0xD800 ≤ high ∧ high ≤ 0xDBFF then
    match rest with
    | '\\' :: 'u' :: rest => do
      let (low, rest) ← readHex rest
      if 0xDC00 ≤ low ∧ low ≤ 0xDFFF then
        some (Char.ofNat (0x10000 + (high - 0xD800) * 0x400 + (low - 0xDC00)), rest)
      else none
    | _ => none
  else some (Char.ofNat high, rest)

/-- The rest of a string after its characters `done`, which are in reverse order. -/
def readString : Nat → List Char → List Char → Option (String × List Char)
  | 0, _, _ => none
  | fuel + 1, done, s =>
    match s with
    | [] => none
    | '"' :: rest => some (String.ofList done.reverse, rest)
    | '\\' :: c :: rest =>
      match c with
      | '"' => readString fuel ('"' :: done) rest
      | '\\' => readString fuel ('\\' :: done) rest
      | '/' => readString fuel ('/' :: done) rest
      | 'b' => readString fuel ('\x08' :: done) rest
      | 'f' => readString fuel ('\x0c' :: done) rest
      | 'n' => readString fuel ('\n' :: done) rest
      | 'r' => readString fuel ('\r' :: done) rest
      | 't' => readString fuel ('\t' :: done) rest
      | 'u' =>
        match readUnicode rest with
        | some (c, rest) => readString fuel (c :: done) rest
        | none => none
      | _ => none
    | c :: rest => if c.toNat < 0x20 then none else readString fuel (c :: done) rest

/-- The digits ahead and what follows them. -/
def spanDigits (s : List Char) : List Char × List Char :=
  (s.takeWhile Char.isDigit, s.dropWhile Char.isDigit)

/-- The bound of the magnitude of a written exponent. -/
def exponentBound : Nat := 1 <<< 31

/-- The number of a scaled decimal that an exponent may follow. -/
def readExponent (d : Decimal.Scaled) (s : List Char) : Option (Json × List Char) :=
  match s with
  | 'e' :: rest | 'E' :: rest =>
    let (down, rest) := match rest with
      | '+' :: rest => (false, rest)
      | '-' :: rest => (true, rest)
      | rest => (false, rest)
    let (ds, rest) := spanDigits rest
    let e := Decimal.ofDigits ds
    if ds.isEmpty then none
    else if e < exponentBound then
      let exponent := if down then d.exponent - e else d.exponent + e
      ({ d with exponent }).toFloat?.map (fun x => (.float x, rest))
    else if d.significand = 0 ∨ down then
      some (.float (if d.negative then -0.0 else 0.0), rest)
    else none
  | _ => d.toFloat?.map (fun x => (.float x, s))

/-- The number whose sign and integer digits are read, with the characters behind those. -/
def readFraction (negative : Bool) (whole s : List Char) : Option (Json × List Char) :=
  let (n, excess) := Decimal.accumulate 0 whole
  match s with
  | '.' :: rest =>
    let (ds, rest) := spanDigits rest
    if ds.isEmpty then none
    else
      let (n, ignored) := Decimal.accumulate n ds
      readExponent ⟨negative, n, excess.length - (ds.length - ignored.length : Nat)⟩ rest
  | 'e' :: _ | 'E' :: _ => readExponent ⟨negative, n, excess.length⟩ s
  | _ =>
    if !excess.isEmpty then readExponent ⟨negative, n, excess.length⟩ s
    else if !negative then some (.int n, s)
    else if n = 0 ∨ 1 <<< 63 < n then some (.float (-(UInt64.ofNat n).toFloat), s)
    else some (.int (-n), s)

/-- A number after its sign. -/
def readNumber (negative : Bool) (s : List Char) : Option (Json × List Char) :=
  let (whole, rest) := spanDigits s
  match whole with
  | [] => none
  | '0' :: _ :: _ => none
  | _ => readFraction negative whole rest

mutual

/-- A value, in at most `depth` levels of arrays and objects. -/
def readValue : Nat → Nat → List Char → Option (Json × List Char)
  | 0, _, _ => none
  | fuel + 1, depth, s =>
    match skipSpace s with
    | 'n' :: 'u' :: 'l' :: 'l' :: rest => some (.null, rest)
    | 't' :: 'r' :: 'u' :: 'e' :: rest => some (.bool true, rest)
    | 'f' :: 'a' :: 'l' :: 's' :: 'e' :: rest => some (.bool false, rest)
    | '"' :: rest => (readString (rest.length + 1) [] rest).map (fun (s, rest) => (.str s, rest))
    | '[' :: rest =>
      match depth with
      | 0 => none
      | depth + 1 =>
        match skipSpace rest with
        | ']' :: rest => some (.arr [], rest)
        | rest => (readItems fuel depth rest).map (fun (items, rest) => (.arr items, rest))
    | '{' :: rest =>
      match depth with
      | 0 => none
      | depth + 1 =>
        match skipSpace rest with
        | '}' :: rest => some (.obj [], rest)
        | rest => (readFields fuel depth rest).map (fun (fields, rest) => (.obj fields, rest))
    | '-' :: rest => readNumber true rest
    | rest => readNumber false rest

/-- One or more items and the closing bracket. -/
def readItems : Nat → Nat → List Char → Option (List Json × List Char)
  | 0, _, _ => none
  | fuel + 1, depth, s =>
    match readValue fuel depth s with
    | none => none
    | some (item, rest) =>
      match skipSpace rest with
      | ',' :: rest => (readItems fuel depth rest).map (fun (items, rest) => (item :: items, rest))
      | ']' :: rest => some ([item], rest)
      | _ => none

/-- One or more fields and the closing brace. -/
def readFields : Nat → Nat → List Char → Option (List (String × Json) × List Char)
  | 0, _, _ => none
  | fuel + 1, depth, s =>
    match skipSpace s with
    | '"' :: rest =>
      match readString (rest.length + 1) [] rest with
      | none => none
      | some (key, rest) =>
        match skipSpace rest with
        | ':' :: rest =>
          match readValue fuel depth rest with
          | none => none
          | some (value, rest) =>
            match skipSpace rest with
            | ',' :: rest =>
              (readFields fuel depth rest).map (fun (fields, rest) => ((key, value) :: fields, rest))
            | '}' :: rest => some ([(key, value)], rest)
            | _ => none
        | _ => none
    | _ => none

end

/-- The greatest number of levels of arrays and objects. -/
def maxDepth : Nat := 127

/-- The value that the whole of a text denotes. -/
def read? (text : String) : Option Json :=
  let s := text.toList
  match readValue (2 * s.length + 2) maxDepth s with
  | some (value, rest) => if (skipSpace rest).isEmpty then some value else none
  | none => none

end Statechart.Json
