import Statechart.Decimal.Natural

/-!
# Reading decimals

Two ways from decimal digits to a floating-point number.  `Scaled.toFloat?` takes a
significand of at most 64 bits and a power of ten, and rounds the significand and then one
product or quotient with the power.  `plain?` takes digits around a point and rounds once,
to the nearest number.
-/

namespace Statechart.Decimal

/-- The decimal `significand * 10 ^ exponent` with its sign, as it is read digit by
digit. -/
structure Scaled where
  negative : Bool
  significand : Nat
  exponent : Int
  deriving Repr, DecidableEq

/-- The bound of a significand. -/
def significandBound : Nat := 1 <<< 64

/-- The significand `n` followed by as many of the digits `ds` as fit below the bound, and
the digits that do not fit. -/
def accumulate (n : Nat) : List Char → Nat × List Char
  | [] => (n, [])
  | d :: ds =>
    let next := 10 * n + (d.toNat - 48)
    if next < significandBound then accumulate next ds else (n, d :: ds)

/-- The power `10 ^ n`. -/
def powerOfTen (n : Nat) : Float :=
  Float.ofScientific 1 false n

/-- The value `x * 10 ^ exponent`: one product or one quotient within the range of the
powers, and repeated quotients by the largest power below it; `none` if it is too large. -/
def scale? (x : Float) (exponent : Int) : Option Float :=
  if exponent < -308 then
    if x == 0 then some x else scale? (x / powerOfTen 308) (exponent + 308)
  else if exponent < 0 then some (x / powerOfTen exponent.natAbs)
  else if exponent ≤ 308 then
    let y := x * powerOfTen exponent.natAbs
    if y.isInf then none else some y
  else if x == 0 then some x
  else none
termination_by (-exponent).toNat
decreasing_by omega

/-- The number that a scaled decimal denotes; `none` if it is too large. -/
def Scaled.toFloat? (d : Scaled) : Option Float :=
  (scale? (UInt64.ofNat d.significand).toFloat d.exponent).map
    (fun x => if d.negative then -x else x)

/-- The finite number nearest to a decimal of the form `digits`, `digits.`, `digits.digits`
or `.digits`, after an optional minus sign. -/
def plain? (s : List Char) : Option Float :=
  let (negative, body) := match s with
    | '-' :: rest => (true, rest)
    | _ => (false, s)
  let whole := body.takeWhile Char.isDigit
  let fraction? := match body.dropWhile Char.isDigit with
    | [] => some []
    | '.' :: rest => if rest.all Char.isDigit then some rest else none
    | _ => none
  match fraction? with
  | none => none
  | some fraction =>
    if whole.isEmpty && fraction.isEmpty then none
    else
      let x := Float.ofScientific (ofDigits (whole ++ fraction)) true fraction.length
      if x.isInf then none else some (if negative then -x else x)

end Statechart.Decimal
