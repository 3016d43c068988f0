/-!
Rounding quotients of natural numbers, to integers and to 24 significant bits.
-/

namespace SinkTrace

/-- The integer nearest to `num / den`; a half goes to the even neighbour. -/
def roundDiv (num den : Nat) : Nat :=
  let q := num / den
  let r := num % den
  if den < 2 * r ∨ (2 * r = den ∧ q % 2 = 1) then q + 1 else q

/-- A fraction. -/
structure Ratio where
  num : Nat
  den : Nat
deriving Repr, DecidableEq, Inhabited

namespace Ratio

/-- The number with 24 significant bits that is nearest to the fraction; a half goes to the even
neighbour. -/
def single (q : Ratio) : Ratio :=
  if q.num = 0 then ⟨0, 1⟩
  else
    let up := 24 + Nat.log2 q.den
    let down := Nat.log2 q.num
    let scaled : Ratio := ⟨q.num * Nat.pow 2 up, q.den * Nat.pow 2 down⟩
    let extra := if scaled.num < Nat.pow 2 24 * scaled.den then 0 else 1
    ⟨roundDiv scaled.num (scaled.den * Nat.pow 2 extra) * Nat.pow 2 (down + extra), Nat.pow 2 up⟩

/-- Two decimal places; a half goes to the even neighbour. -/
def twoPlaces (q : Ratio) : String :=
  let hundredths := roundDiv (q.num * 100) q.den
  let places := hundredths % 100
  toString (hundredths / 100) ++ "." ++ (if places < 10 then "0" else "") ++ toString places

/-- The share of `part` in `part + rest` in percent, computed with 24 significant bits. -/
def percent (part rest : Nat) : Ratio :=
  if part + rest = 0 then ⟨0, 1⟩
  else
    let p := single ⟨part, 1⟩
    let t := single ⟨part + rest, 1⟩
    let share := single ⟨p.num * t.den, p.den * t.num⟩
    single ⟨share.num * 100, share.den⟩

end Ratio

end SinkTrace
