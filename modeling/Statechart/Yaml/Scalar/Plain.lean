import Statechart.Yaml.Scalar.Basic

/-!
# Plain scalars

Scalars without quotation marks.  They end before a colon that a gap follows, before a
comment, before a line that is indented too little, and within flow collections before
the characters that enclose and separate the items.
-/

namespace Statechart.Yaml

/-- Whether a plain scalar ends before the given spot, followed by the given ones. -/
def endsPlain (inFlow : Bool) (p : Spot) (rest : List Spot) : Bool :=
  (p.char == ':' && atGap rest) || (inFlow && isFlowIndicator p.char)

/-- Whether a plain scalar does not go on behind a gap. -/
def endsLines (inFlow : Bool) (indent : Nat) (p : Spot) (rest : List Spot) : Bool :=
  p.char == '#' || atMarker (p :: rest) || (!inFlow && p.column < indent)

/-- Whether a colon stands where none may stand within a flow collection. -/
def isStrayColon (inFlow : Bool) (p : Spot) (rest : List Spot) : Bool :=
  inFlow && p.char == ':' && startsWith (fun c => isFlowIndicator c || c == '?') rest

/-- The text of a plain scalar, of which some is read, in reverse, and the gap behind that;
whether lines end in the gap behind the scalar, and what follows.  The lines must be
indented by `indent` columns. -/
def readPlain (inFlow : Bool) (indent : Nat) (read : List Char) (gap : Gap) :
    List Spot → Option (String × Bool × List Spot)
  | [] => some (String.ofList read.reverse, gap.spansLines, [])
  | p :: rest =>
    if isBlank p.char || isBreak p.char then
      if gap.spansLines && p.char == '\t' && p.column < indent then none
      else readPlain inFlow indent read (gap.add p.char) rest
    else if !gap.isEmpty && endsLines inFlow indent p rest then
      some (String.ofList read.reverse, gap.spansLines, p :: rest)
    else if isStrayColon inFlow p rest then none
    else if endsPlain inFlow p rest then
      some (String.ofList read.reverse, gap.spansLines, p :: rest)
    else readPlain inFlow indent (p.char :: (gap.text.reverse ++ read)) {} rest

end Statechart.Yaml
