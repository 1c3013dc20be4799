/-!
# Shortest decimals

The decimal with the fewest digits among those that round to a given binary
floating-point number.  `Binary.ofFloat` splits a finite number into a sign and
`mantissa * 2 ^ exponent`; `Binary.shortest` tries the grids of one, two, up to seventeen
digits, and takes from the first grid that has a point in the rounding interval the point
nearer to the number.
-/

namespace Statechart.Decimal

/-- The magnitude `mantissa * 2 ^ exponent` of a finite floating-point number, with its
sign.  The number below is half as far away as the number above when `lowGap` holds. -/
structure Binary where
  negative : Bool
  mantissa : Nat
  exponent : Int
  lowGap : Bool
  deriving Repr, DecidableEq

/-- The parts of a finite floating-point number, read off its bits. -/
def Binary.ofFloat (x : Float) : Binary :=
  let bits := x.toBits.toNat
  let biased := bits / (1 <<< 52) % (1 <<< 11)
  let fraction := bits % (1 <<< 52)
  let negative := bits / (1 <<< 63) == 1
  if biased = 0 then
    ⟨negative, fraction, -1074, false⟩
  else
    ⟨negative, (1 <<< 52) + fraction, Int.ofNat biased - 1075, fraction == 0 && 1 < biased⟩

/-- The decimal `digits * 10 ^ scale`. -/
structure Point where
  digits : Nat
  scale : Int
  deriving Repr, DecidableEq

/-- A nonnegative rational number `numerator / denominator` and the interval
`lower / denominator` to `upper / denominator` around it. -/
structure Interval where
  numerator : Nat
  denominator : Nat
  lower : Nat
  upper : Nat
  closed : Bool

/-- The interval of the reals that round to `b`; its ends belong to it when the mantissa is
even. -/
def Binary.interval (b : Binary) : Interval :=
  let up := 1 <<< (b.exponent - 2).toNat
  { numerator := 4 * b.mantissa * up
    denominator := 1 <<< (2 - b.exponent).toNat
    lower := (4 * b.mantissa - if b.lowGap then 1 else 2) * up
    upper := (4 * b.mantissa + 2) * up
    closed := b.mantissa % 2 = 0 }

/-- The number of decimal digits of `n`. -/
def digitCount (n : Nat) : Nat :=
  (Nat.toDigits 10 n).length

/-- The power of ten of the leading digit of `v`. -/
def Interval.leading (v : Interval) : Int :=
  if v.denominator ≤ v.numerator then
    digitCount (v.numerator / v.denominator) - 1
  else
    -(digitCount ((v.denominator - 1) / v.numerator))

/-- Whether the decimal `p` lies in the interval. -/
def Interval.contains (v : Interval) (p : Point) : Bool :=
  let scaled := p.digits * Nat.pow 10 p.scale.toNat * v.denominator
  let down := Nat.pow 10 (-p.scale).toNat
  if v.closed then v.lower * down ≤ scaled && scaled ≤ v.upper * down
  else v.lower * down < scaled && scaled < v.upper * down

/-- The decimal of the interval on the grid `10 ^ scale`: one of the two neighbours of the
number, the nearer one if both lie in the interval, the even one if they are equally
near. -/
def Interval.onGrid (v : Interval) (scale : Int) : Option Point :=
  let num := v.numerator * Nat.pow 10 (-scale).toNat
  let den := v.denominator * Nat.pow 10 scale.toNat
  let below : Point := ⟨num / den, scale⟩
  let above : Point := ⟨num / den + 1, scale⟩
  let rest := 2 * (num % den)
  if v.contains below then
    if v.contains above && (rest > den || (rest == den && below.digits % 2 == 1)) then
      some above
    else
      some below
  else if v.contains above then some above
  else none

/-- The shortest decimal that rounds to the magnitude of `b`. -/
def Binary.shortest (b : Binary) : Point :=
  if b.mantissa = 0 then ⟨0, 0⟩
  else
    let v := b.interval
    let lead := v.leading
    ((List.range 17).findSome? (fun (n : Nat) => v.onGrid (lead - n))).getD ⟨0, 0⟩

end Statechart.Decimal
