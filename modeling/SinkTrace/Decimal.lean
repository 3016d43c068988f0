/-!
Decimal numbers as they are written.
-/

namespace SinkTrace

/-- The number `mantissa` divided by ten to the `places`. -/
structure Decimal where
  mantissa : Int
  places : Nat := 0
deriving Repr, DecidableEq, Inhabited

/-- Written without a fraction. -/
def Decimal.int? (d : Decimal) : Option Int := if d.places = 0 then some d.mantissa else none

/-- The same number, written with a fraction. -/
def Decimal.withFraction (d : Decimal) : Decimal :=
  if d.places = 0 then ⟨d.mantissa * 10, 1⟩ else d

end SinkTrace
