import Statechart.Decimal.Shortest

/-!
# Layout of decimals

How the shortest digits of a number are written: with a point among the digits while the
power of ten of the leading digit lies in a given range, else with an exponent.
`Layout.render` writes a finite number in a layout.
-/

namespace Statechart.Decimal

/-- The decisions of a number format. -/
structure Layout where
  /-- The least power of ten of the leading digit that is written without an exponent. -/
  positionalFrom : Int
  /-- The first power of ten of the leading digit that is written with an exponent. -/
  exponentFrom : Int
  /-- Whether an integer keeps a point and a zero. -/
  keepsPoint : Bool
  /-- The mark before an exponent. -/
  mark : Char
  /-- Whether a nonnegative exponent carries a plus sign. -/
  plus : Bool

/-- The digits of `n` without trailing zeros, and how many zeros were dropped. -/
def significant (n : Nat) : List Char × Nat :=
  let ds := Nat.toDigits 10 n
  let kept := (ds.reverse.dropWhile (· == '0')).reverse
  (kept, ds.length - kept.length)

/-- The exponent part for the exponent `e`. -/
def Layout.exponent (f : Layout) (e : Int) : List Char :=
  let sign := if e < 0 then ['-'] else if f.plus then ['+'] else []
  f.mark :: sign ++ Nat.toDigits 10 e.natAbs

/-- The text of the decimal whose significant digits are `ds`, the first one at the power
`lead` of ten. -/
def Layout.digits (f : Layout) (ds : List Char) (lead : Int) : List Char :=
  if f.positionalFrom ≤ lead ∧ lead < f.exponentFrom then
    if lead < 0 then
      '0' :: '.' :: List.replicate (-lead - 1).toNat '0' ++ ds
    else
      let whole := ds.take (lead.toNat + 1)
      let padded := whole ++ List.replicate (lead.toNat + 1 - whole.length) '0'
      match ds.drop (lead.toNat + 1) with
      | [] => if f.keepsPoint then padded ++ ['.', '0'] else padded
      | rest => padded ++ '.' :: rest
  else
    match ds with
    | [] => []
    | [d] => d :: f.exponent lead
    | d :: rest => d :: '.' :: rest ++ f.exponent lead

/-- The text of the magnitude of `b`. -/
def Layout.magnitude (f : Layout) (b : Binary) : List Char :=
  let p := b.shortest
  if p.digits = 0 then if f.keepsPoint then ['0', '.', '0'] else ['0']
  else
    let (ds, dropped) := significant p.digits
    f.digits ds (p.scale + dropped + ds.length - 1)

/-- The text of the finite number `x`. -/
def Layout.render (f : Layout) (x : Float) : String :=
  let b := Binary.ofFloat x
  String.ofList (if b.negative then '-' :: f.magnitude b else f.magnitude b)

end Statechart.Decimal
