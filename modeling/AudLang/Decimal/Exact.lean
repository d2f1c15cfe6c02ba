import AudLang.Decimal.Binary

/-!
Whole numbers and floats against each other, without rounding.
-/

namespace AudLang.Decimal

/-- The whole number nearest to a magnitude; a half goes to the even neighbour. -/
def Binary.round (b : Binary) : Nat :=
  if b.exponent < 0 then
    let unit := Nat.pow 2 b.exponent.natAbs
    let whole := b.mantissa / unit
    let twice := 2 * (b.mantissa % unit)
    if unit < twice || (twice = unit && whole % 2 = 1) then whole + 1 else whole
  else b.mantissa * Nat.pow 2 b.exponent.natAbs

/-- A magnitude with its sign. -/
def signed (negative : Bool) (n : Nat) : Int := if negative then -n else n

/-- The whole part of a float, toward zero; none if it is not finite. -/
def truncate? (x : Float) : Option Int :=
  match Reading.ofFloat x with
  | .finite negative b => some (signed negative b.truncate)
  | _ => none

/-- The whole number nearest to a float, a half going to the even neighbour; none if it is not
finite. -/
def round? (x : Float) : Option Int :=
  match Reading.ofFloat x with
  | .finite negative b => some (signed negative b.round)
  | _ => none

/-- How a whole number compares with a float; not at all with a float that is no number. -/
def compareWith (n : Int) (x : Float) : Option Ordering :=
  match Reading.ofFloat x with
  | .nan => none
  | .infinite negative => some (if negative then .gt else .lt)
  | .finite negative b =>
    let unit := Nat.pow 2 b.exponent.natAbs
    if b.exponent < 0 then some (compare (n * unit) (signed negative b.mantissa))
    else some (compare n (signed negative (b.mantissa * unit)))

end AudLang.Decimal
