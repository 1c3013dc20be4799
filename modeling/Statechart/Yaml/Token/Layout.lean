import Statechart.Yaml.Scalar.Block
import Statechart.Yaml.Scalar.Plain
import Statechart.Yaml.Scalar.Quoted
import Statechart.Yaml.Token.Basic

/-!
# Indentation and keys

`Token.ofSource?` divides a source into tokens.  A token in a place where a key may stand is
known to be one when a colon follows on the same line; the mark of the key, and that of the
mapping if it is the first key, are then put before the token.  A `Layout` holds what is to
be remembered for that: the columns of the open block collections, and the candidates for a
key.
-/

namespace Statechart.Yaml

/-- A token that is a key if a colon follows. -/
structure Candidate where
  /-- How many tokens stand before it. -/
  number : Nat
  spot : Spot
  /-- Whether nothing else than a key can stand in its place. -/
  required : Bool
  deriving DecidableEq, Repr

/-- The tokens so far, and what the next ones depend on. -/
structure Layout where
  tokens : List Token := []
  /-- The columns of the open block collections, the innermost first. -/
  indents : List Nat := []
  candidate : Option Candidate := none
  /-- The candidates around each open flow collection, the innermost first. -/
  outer : List (Option Candidate) := []
  /-- Whether a key may stand here. -/
  keyAllowed : Bool := true
  deriving Repr

namespace Layout

/-- Whether a flow collection is open. -/
def inFlow (l : Layout) : Bool :=
  !l.outer.isEmpty

/-- The column of the innermost open block collection. -/
def indent? (l : Layout) : Option Nat :=
  l.indents.head?

/-- The least column of a line that belongs to the innermost open block collection. -/
def leastColumn (l : Layout) : Nat :=
  (l.indent?.map (· + 1)).getD 0

/-- The layout with one more token. -/
def push (l : Layout) (t : Token) : Layout :=
  { l with tokens := l.tokens ++ [t] }

/-- The layout that allows a key or not. -/
def allowing (l : Layout) (keyAllowed : Bool) : Layout :=
  { l with keyAllowed }

/-- The layout at the next token, and what is ahead of it.  Blanks, comments and line breaks
are passed over; a tab only where no key can stand behind it. -/
def skip (inComment : Bool) (l : Layout) : List Spot → Layout × List Spot
  | [] => (l, [])
  | p :: rest =>
    if isBreak p.char then skip false (if l.inFlow then l else l.allowing true) rest
    else if inComment then skip true l rest
    else if p.char == '#' then skip true l rest
    else if p.char == ' ' || (p.char == '\t' && (l.inFlow || !l.keyAllowed)) then
      skip false l rest
    else if p.char == '\ufeff' && p.column == 0 then skip false l rest
    else (l, p :: rest)

/-- The candidate, if a colon at the given spot can still make it a key: it stands on the
same line, at most 1024 characters before.  A key that is required is refused otherwise. -/
def current? (p : Spot) (c : Option Candidate) : Option (Option Candidate) :=
  match c with
  | none => some none
  | some c =>
    if c.spot.line = p.line ∧ p.index ≤ c.spot.index + 1024 then some (some c)
    else if c.required then none
    else some none

/-- The layout with the candidates that can still be keys at the given spot. -/
def refresh? (l : Layout) (p : Spot) : Option Layout := do
  some { l with candidate := ← current? p l.candidate, outer := ← l.outer.mapM (current? p) }

/-- The layout without its candidate, which must not be a required one. -/
def forget? (l : Layout) : Option Layout :=
  if l.candidate.any (·.required) then none else some { l with candidate := none }

/-- The layout with the next token as the candidate, if a key may stand here. -/
def nominate? (l : Layout) (p : Spot) : Option Layout :=
  if l.keyAllowed then do
    let l ← l.forget?
    let required := !l.inFlow && l.indent? == some p.column
    some { l with candidate := some { number := l.tokens.length, spot := p, required } }
  else some l

/-- The layout without the open block collections whose columns `ends` holds of. -/
def closeBlocks (l : Layout) (ends : Nat → Bool) : Layout :=
  if l.inFlow then l
  else
    { l with
      tokens := l.tokens ++ (l.indents.takeWhile ends).map (fun _ => .blockEnd)
      indents := l.indents.dropWhile ends }

/-- The layout with a block collection at the given column, if none is open there or
further to the right; its mark is put behind so many tokens. -/
def openBlock (l : Layout) (number column : Nat) (mark : Token) : Layout :=
  if l.inFlow || l.indent?.any (column ≤ ·) then l
  else { l with tokens := l.tokens.insertIdx number mark, indents := column :: l.indents }

/-- The layout behind a directive or a line that begins or ends a document. -/
def separated? (l : Layout) (t : Token) : Option Layout := do
  let l ← (l.closeBlocks (fun _ => true)).forget?
  some ((l.push t).allowing false)

/-- The layout behind the start of a flow collection. -/
def opened? (l : Layout) (p : Spot) (t : Token) : Option Layout := do
  let l ← l.nominate? p
  some (({ l with candidate := none, outer := l.candidate :: l.outer }.push t).allowing true)

/-- The layout behind the end of a flow collection. -/
def closed? (l : Layout) (t : Token) : Option Layout := do
  let l ← l.forget?
  match l.outer with
  | [] => none
  | candidate :: outer => some (({ l with candidate, outer }.push t).allowing false)

/-- The layout behind an item of a block sequence or the sign of a key, at a spot. -/
def entered? (l : Layout) (p : Spot) (collection mark : Token) : Option Layout := do
  if !l.inFlow && !l.keyAllowed then none
  else
    let l ← (l.openBlock l.tokens.length p.column collection).forget?
    some (l.push mark)

/-- The layout behind the colon of a value. -/
def valued? (l : Layout) (p : Spot) : Option Layout :=
  match l.candidate with
  | some c =>
    let l := { l with tokens := l.tokens.insertIdx c.number .key, candidate := none }
    some (((l.openBlock c.number c.spot.column .blockMapping).push .value).allowing false)
  | none =>
    if !l.inFlow && !l.keyAllowed then none
    else
      let l := l.openBlock l.tokens.length p.column .blockMapping
      some ((l.push .value).allowing (!l.inFlow))

/-- The layout behind a token that may be a key. -/
def named? (l : Layout) (p : Spot) (t : Token) : Option Layout := do
  let l ← l.nominate? p
  some ((l.push t).allowing false)

/-- The layout behind a plain scalar, and what follows. -/
def plain? (l : Layout) (p : Spot) (rest : List Spot) : Option (Layout × List Spot) := do
  let (text, endsLine, rest) ← readPlain l.inFlow l.leastColumn [p.char] {} rest
  let l ← l.named? p (.scalar .plain text)
  some (l.allowing endsLine, rest)

/-- The layout behind the end of the source. -/
def finished? (l : Layout) : Option Layout := do
  if l.outer.any (fun c => c.any (·.required)) then none
  else (l.closeBlocks (fun _ => true)).forget?

/-- The layout behind the token that begins at a spot, which neither directives nor lines
that begin or end a document do, and what follows. -/
def next? (l : Layout) (p : Spot) (rest : List Spot) : Option (Layout × List Spot) :=
  match p.char with
  | '[' => do some (← l.opened? p .sequenceStart, rest)
  | '{' => do some (← l.opened? p .mappingStart, rest)
  | ']' => do some (← l.closed? .sequenceEnd, rest)
  | '}' => do some (← l.closed? .mappingEnd, rest)
  | ',' => do some (((← l.forget?).push .comma).allowing true, rest)
  | '-' =>
    if atGap rest then do
      some ((← l.entered? p .blockSequence .item).allowing true, rest)
    else l.plain? p rest
  | '?' =>
    if l.inFlow || atGap rest then do
      some ((← l.entered? p .blockMapping .key).allowing (!l.inFlow), rest)
    else l.plain? p rest
  | ':' =>
    if l.inFlow || atGap rest then do some (← l.valued? p, rest) else l.plain? p rest
  | '*' => do
    let (name, rest) ← readAnchor rest
    some (← l.named? p (.alias name), rest)
  | '&' => do
    let (name, rest) ← readAnchor rest
    some (← l.named? p (.anchor name), rest)
  | '!' => do
    let (tag, rest) ← readTag l.inFlow (p :: rest)
    some (← l.named? p (.tag tag), rest)
  | '\'' => do
    let (text, rest) ← readSingle [] {} rest
    some (← l.named? p (.scalar .other text), rest)
  | '"' => do
    let (text, rest) ← readDouble (rest.length + 1) [] {} rest
    some (← l.named? p (.scalar .other text), rest)
  | c =>
    if c == '|' || c == '>' then
      if l.inFlow then none
      else do
        let (text, rest) ← readBlock (c == '|') l.indent? rest
        let style := if c == '|' then ScalarStyle.literal else .other
        some (((← l.forget?).push (.scalar style text)).allowing true, rest)
    else if isBlank c || ['#', '%', '@', '\x60'].contains c then none
    else l.plain? p rest

/-- The layout behind the next token, and what follows. -/
def step? (l : Layout) (p : Spot) (rest : List Spot) : Option (Layout × List Spot) := do
  let l := (← l.refresh? p).closeBlocks (p.column < ·)
  if p.column = 0 ∧ p.char = '%' then
    let (directive, rest) ← readDirective rest
    some (← l.separated? (.directive directive), rest)
  else if isMarker '-' (p :: rest) then some (← l.separated? .documentStart, rest.drop 2)
  else if isMarker '.' (p :: rest) then some (← l.separated? .documentEnd, rest.drop 2)
  else l.next? p rest

/-- The layout behind the given spots.  Each token has a character at least, so that their
number bounds the fuel. -/
def run? : Nat → Layout → List Spot → Option Layout
  | 0, _, _ => none
  | fuel + 1, l, s =>
    match l.skip false s with
    | (l, []) => l.finished?
    | (l, p :: rest) => do
      let (l, rest) ← l.step? p rest
      run? fuel l rest

end Layout

/-- The tokens of a source. -/
def Token.ofSource? (s : List Spot) : Option (List Token) :=
  (Layout.run? (s.length + 1) {} s).map Layout.tokens

end Statechart.Yaml
