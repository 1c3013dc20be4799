import Statechart.Yaml.Source

/-!
# Gaps in scalars

A scalar may run over several lines.  A `Gap` is a stretch of blanks and line breaks
between two of its words; `Gap.text` is what the scalar has in its place.
-/

namespace Statechart.Yaml

/-- How a scalar is written, as far as its value depends on it. -/
inductive ScalarStyle where
  | plain
  | literal
  | other
  deriving DecidableEq, Repr

/-- A stretch of blanks and line breaks. -/
structure Gap where
  /-- Whether the gap begins with a line break that does not count. -/
  escaped : Bool := false
  /-- The blanks before the first line break. -/
  blanks : List Char := []
  breaks : List Char := []
  deriving DecidableEq, Repr

namespace Gap

/-- Whether the gap goes on to another line. -/
def spansLines (g : Gap) : Bool :=
  g.escaped || !g.breaks.isEmpty

/-- Whether the gap holds nothing. -/
def isEmpty (g : Gap) : Bool :=
  !g.spansLines && g.blanks.isEmpty

/-- The gap with one more character; the blanks at the start of a line do not count. -/
def add (g : Gap) (c : Char) : Gap :=
  if isBreak c then { g with breaks := g.breaks ++ [c] }
  else if g.spansLines then g
  else { g with blanks := g.blanks ++ [c] }

/-- What a scalar has in place of the gap: the blanks, if it stays on a line.  Else a line
feed that comes alone is a space, and the first of several is dropped. -/
def text (g : Gap) : List Char :=
  if g.escaped then g.breaks
  else
    match g.breaks with
    | [] => g.blanks
    | ['\n'] => [' ']
    | '\n' :: more => more
    | breaks => breaks

end Gap

end Statechart.Yaml
