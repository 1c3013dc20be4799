import Statechart.Decimal.Natural
import Statechart.Yaml.Source

/-!
# Anchors, tags and directives

The names that nodes may carry, and the lines before a document that say how its tags are
to be read.
-/

namespace Statechart.Yaml

/-- A tag: the handle that stands for the beginning of its full name, and the rest of the
name.  The handle of a full name is empty. -/
structure Tag where
  handle : String := ""
  suffix : String
  deriving DecidableEq, Repr

/-- A directive: the version of the language, or what a handle stands for. -/
inductive Directive where
  | version (major minor : Nat)
  | handle (name meaning : String)
  deriving DecidableEq, Repr

/-- The name of an anchor, and what follows it. -/
def readAnchor (s : List Spot) : Option (String × List Spot) :=
  let name := taken isNameChar s
  let rest := dropped isNameChar s
  if name.isEmpty then none
  else if atGap rest || startsWith ['?', ':', ',', ']', '}', '%', '@', '\x60'].contains rest then
    some (String.ofList name, rest)
  else none

/-- The characters of the names of tags, apart from those that names of anchors have. -/
def tagChars : List Char :=
  [';', '/', '?', ':', '@', '&', '=', '+', '$', '.', '!', '~', '*', '\'', '(', ')']

/-- Whether a character may stand in the name of a tag; a full name has more of them. -/
def isTagChar (isFull : Bool) (c : Char) : Bool :=
  isNameChar c || tagChars.contains c || (isFull && [',', '[', ']'].contains c)

/-- How many octets follow an octet that begins a character. -/
def octetsBehind? (octet : Nat) : Option Nat :=
  if octet < 0x80 then some 0
  else if octet < 0xc0 then none
  else if octet < 0xe0 then some 1
  else if octet < 0xf0 then some 2
  else if octet < 0xf8 then some 3
  else none

/-- How many octets are still to follow an octet, when so many were before it. -/
def octetsLeft? (octet : Nat) : Nat → Option Nat
  | 0 => octetsBehind? octet
  | left + 1 => if 0x80 ≤ octet ∧ octet < 0xc0 then some left else none

/-- The name of a tag, of which some is read, in reverse, and what follows.  Octets that are
written as two hexadecimal digits after a percent sign must form characters, of which
`left` octets are still to follow; those beyond ASCII, which no known name has, are not told
apart. -/
def readTagName (isFull : Bool) (left : Nat) (read : List Char) :
    List Spot → Option (List Char × List Spot)
  | [] => if left = 0 then some (read.reverse, []) else none
  | p :: rest =>
    if p.char == '%' then
      match rest with
      | a :: b :: rest => do
        let octet ← ofBase? 16 0 [a.char, b.char]
        let left ← octetsLeft? octet left
        let c := if octet < 0x80 then Char.ofNat octet else '\ufffd'
        readTagName isFull left (c :: read) rest
      | _ => none
    else if left ≠ 0 then none
    else if isTagChar isFull p.char then readTagName isFull 0 (p.char :: read) rest
    else some (read.reverse, p :: rest)

/-- The name of a tag, which is not empty, and what follows. -/
def readFullName (isFull : Bool) (s : List Spot) : Option (String × List Spot) := do
  let (name, rest) ← readTagName isFull 0 [] s
  if name.isEmpty then none else some (String.ofList name, rest)

/-- The characters of an exclamation mark, of a name and of another exclamation mark if
there is one, and what follows. -/
def readHandle (s : List Spot) : Option (List Char × List Spot) :=
  match s with
  | p :: rest =>
    if p.char == '!' then
      let name := '!' :: taken isNameChar rest
      match dropped isNameChar rest with
      | q :: more => if q.char == '!' then some (name ++ ['!'], more) else some (name, q :: more)
      | [] => some (name, [])
    else none
  | [] => none

/-- Whether characters that `readHandle` takes stand for the beginning of a name. -/
def isHandle (handle : List Char) : Bool :=
  handle.tail.getLast? == some '!'

/-- A tag in angle brackets, of which the first is read, and what follows. -/
def readBracketed (s : List Spot) : Option (Tag × List Spot) := do
  let (suffix, rest) ← readFullName true s
  match rest with
  | p :: rest => if p.char == '>' then some ({ suffix }, rest) else none
  | [] => none

/-- A tag with or without a handle, and what follows.  An exclamation mark alone is a full
name. -/
def readShort (s : List Spot) : Option (Tag × List Spot) := do
  let (handle, rest) ← readHandle s
  if isHandle handle then
    let (suffix, rest) ← readFullName false rest
    some ({ handle := String.ofList handle, suffix }, rest)
  else
    let (suffix, rest) ← readTagName false 0 handle.tail.reverse rest
    if suffix.isEmpty then some ({ suffix := "!" }, rest)
    else some ({ handle := "!", suffix := String.ofList suffix }, rest)

/-- A tag, and what follows.  It ends at a gap or, within a flow collection, at a comma. -/
def readTag (inFlow : Bool) (s : List Spot) : Option (Tag × List Spot) := do
  let (tag, rest) ←
    match s with
    | _ :: q :: rest => if q.char == '<' then readBracketed rest else readShort s
    | _ => readShort s
  if atGap rest || (inFlow && startsWith (· == ',') rest) then some (tag, rest) else none

/-- A number of a version, of nine digits at most, and what follows. -/
def readVersionPart (s : List Spot) : Option (Nat × List Spot) := do
  let digits := taken Char.isDigit s
  if digits.isEmpty ∨ 9 < digits.length then none
  else some (Decimal.ofDigits digits, dropped Char.isDigit s)

/-- The directive of the version, whose name is read. -/
def readVersion (s : List Spot) : Option (Directive × List Spot) := do
  let (major, rest) ← readVersionPart (dropped isBlank s)
  match rest with
  | p :: rest =>
    if p.char == '.' then
      let (minor, rest) ← readVersionPart rest
      some (.version major minor, rest)
    else none
  | [] => none

/-- The directive of a handle, whose name is read. -/
def readHandleMeaning (s : List Spot) : Option (Directive × List Spot) := do
  let (handle, rest) ← readHandle (dropped isBlank s)
  if !(isHandle handle || handle == ['!']) || !startsWith isBlank rest then none
  else
    let (meaning, rest) ← readFullName true (dropped isBlank rest)
    if atGap rest then some (.handle (String.ofList handle) meaning, rest) else none

/-- A directive, whose percent sign is read, and what follows on the next line. -/
def readDirective (s : List Spot) : Option (Directive × List Spot) := do
  let rest := dropped isNameChar s
  if !atGap rest then none
  else
    let (directive, rest) ←
      match String.ofList (taken isNameChar s) with
      | "YAML" => readVersion rest
      | "TAG" => readHandleMeaning rest
      | _ => none
    some (directive, ← endLine? rest)

end Statechart.Yaml
