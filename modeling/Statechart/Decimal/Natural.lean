/-!
# Natural numbers in decimal digits

`Decimal.natural?` reads a bounded natural number from a nonempty row of decimal digits
that one plus sign may precede.
-/

namespace Statechart.Decimal

/-- The number that the decimal digits `ds` denote. -/
def ofDigits (ds : List Char) : Nat :=
  ds.foldl (fun n d => 10 * n + (d.toNat - 48)) 0

/-- The digits of `s` after an optional plus sign. -/
def unsigned (s : List Char) : List Char :=
  match s with
  | '+' :: rest => rest
  | _ => s

/-- The natural number below `bound` that `s` denotes: decimal digits, at least one, after
an optional plus sign. -/
def natural? (bound : Nat) (s : String) : Option Nat :=
  let ds := unsigned s.toList
  if ds ≠ [] ∧ ds.all Char.isDigit ∧ ofDigits ds < bound then some (ofDigits ds) else none

end Statechart.Decimal
