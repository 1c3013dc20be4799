import Statechart.Yaml.Scalar.Basic

/-!
# Block scalars

Scalars that are made of indented lines.  A literal one keeps its line breaks, a folded one
joins the lines that begin with words.  A sign in the head of the scalar says whether the
line breaks at the end are kept or dropped, and a digit how deep it is indented; without the
sign one line break is kept, and without the digit the first line that is not empty counts.
-/

namespace Statechart.Yaml

/-- What becomes of the line breaks at the end of a block scalar. -/
inductive Chomping where
  | drop
  | one
  | keep
  deriving DecidableEq, Repr

/-- The head of a block scalar: the chomping, and the depth relative to what is around. -/
structure BlockHead where
  chomping : Chomping := .one
  depth : Option Nat := none

/-- The chomping that the first character calls for, and what follows the character. -/
def readChomping (s : List Spot) : Option (Chomping × List Spot) :=
  match s with
  | p :: rest =>
    if p.char == '-' then some (.drop, rest)
    else if p.char == '+' then some (.keep, rest)
    else none
  | [] => none

/-- The depth that the first character gives, which is not zero, and what follows. -/
def readDepth (s : List Spot) : Option (Option Nat × List Spot) :=
  match s with
  | p :: rest =>
    if p.char == '0' then none
    else if p.char.isDigit then some (some (p.char.toNat - '0'.toNat), rest)
    else some (none, s)
  | [] => some (none, [])

/-- The head of a block scalar, and what follows on the next line. -/
def readHead (s : List Spot) : Option (BlockHead × List Spot) := do
  let (head, rest) ←
    match readChomping s with
    | some (chomping, rest) => do
      let (depth, rest) ← readDepth rest
      some ({ chomping, depth : BlockHead }, rest)
    | none => do
      let (depth, rest) ← readDepth s
      match depth, readChomping rest with
      | some _, some (chomping, rest) => some ({ chomping, depth : BlockHead }, rest)
      | _, _ => some ({ depth : BlockHead }, rest)
  some (head, ← endLine? rest)

/-- The line breaks ahead, with the spaces between them that are no content, in reverse; the
greatest column that is reached, and what follows.  Without an indentation all spaces are no
content. -/
def readBreaks (indent : Option Nat) (deepest : Nat) (read : List Char) :
    List Spot → Option (List Char × Nat × List Spot)
  | [] => some (read.reverse, deepest, [])
  | p :: rest =>
    let outside := indent.all (p.column < ·)
    let deepest := max deepest p.column
    if outside && p.char == ' ' then readBreaks indent deepest read rest
    else if outside && p.char == '\t' then none
    else if isBreak p.char then readBreaks indent deepest (p.char :: read) rest
    else some (read.reverse, deepest, p :: rest)

/-- What is read of a block scalar: the text, in reverse, the line break behind the last
line, the further line breaks, and whether the last line begins with a blank. -/
structure BlockText where
  read : List Char := []
  lineBreak : List Char := []
  breaks : List Char := []
  afterBlank : Bool := false

/-- The text with the line breaks that stand before a line. -/
def BlockText.joined (b : BlockText) (literal beforeBlank : Bool) : List Char :=
  let first :=
    if !literal && b.lineBreak == ['\n'] && !b.afterBlank && !beforeBlank then
      if b.breaks.isEmpty then [' '] else []
    else b.lineBreak
  b.breaks.reverse ++ (first.reverse ++ b.read)

/-- The text at the end of the scalar. -/
def BlockText.finished (b : BlockText) : Chomping → String
  | .drop => String.ofList b.read.reverse
  | .one => String.ofList (b.read.reverse ++ b.lineBreak)
  | .keep => String.ofList (b.read.reverse ++ b.lineBreak ++ b.breaks)

/-- The lines of a block scalar that is indented by the given number of columns, and what
follows.  The length of the source bounds the fuel. -/
def readLines (literal : Bool) (indent : Nat) :
    Nat → BlockText → List Spot → Option (BlockText × List Spot)
  | 0, _, _ => none
  | _, b, [] => some (b, [])
  | fuel + 1, b, p :: rest =>
    if p.column ≠ indent then some (b, p :: rest)
    else do
      let s := p :: rest
      let line := taken (fun c => !isBreak c) s
      let behind := dropped (fun c => !isBreak c) s
      let (breaks, _, next) ← readBreaks (some indent) 0 [] behind.tail
      readLines literal indent fuel
        { read := line.reverse ++ b.joined literal (isBlank p.char)
          lineBreak := (behind.take 1).map Spot.char
          breaks
          afterBlank := isBlank p.char } next

/-- The text of a block scalar, whose indicator is read, and what follows.  The collection
around it is indented by `around` columns. -/
def readBlock (literal : Bool) (around : Option Nat) (s : List Spot) :
    Option (String × List Spot) := do
  let (head, rest) ← readHead s
  let indent := head.depth.map (around.getD 0 + ·)
  let (breaks, deepest, rest) ← readBreaks indent 0 [] rest
  let least := (around.map (· + 1)).getD 1
  let indent := indent.getD (max deepest least)
  let (b, rest) ← readLines literal indent (rest.length + 1) { breaks } rest
  some (b.finished head.chomping, rest)

end Statechart.Yaml
