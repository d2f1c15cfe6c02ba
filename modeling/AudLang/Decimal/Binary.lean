/-!
Floats as exact binary numbers.

A finite float is `± mantissa · 2 ^ exponent`.  Everything that needs the exact value of a float
(its shortest decimal text, its whole part) starts from this view.
-/

namespace AudLang.Decimal

/-- The magnitude of a finite float, `mantissa · 2 ^ exponent`.  Below the smallest mantissa of an
exponent the floats stand closer together: `narrow` says that the gap below this one is half the
gap above. -/
structure Binary where
  mantissa : Nat
  exponent : Int
  narrow : Bool
deriving DecidableEq, Repr

/-- What the bits of a float say. -/
inductive Reading where
  | nan
  | infinite (negative : Bool)
  | finite (negative : Bool) (magnitude : Binary)
deriving DecidableEq, Repr

/-- The meaning of the 64 bits of a float: a sign, eleven bits of exponent, 52 bits of fraction. -/
def Reading.ofBits (bits : UInt64) : Reading :=
  let n := bits.toNat
  let negative := n / Nat.pow 2 63 == 1
  let biased := n / Nat.pow 2 52 % Nat.pow 2 11
  let fraction := n % Nat.pow 2 52
  if biased = 2047 then if fraction = 0 then .infinite negative else .nan
  else if biased = 0 then .finite negative ⟨fraction, -1074, false⟩
  else .finite negative ⟨Nat.pow 2 52 + fraction, (biased : Int) - 1075,
    fraction == 0 && decide (1 < biased)⟩

/-- The meaning of a float. -/
def Reading.ofFloat (x : Float) : Reading := .ofBits x.toBits

/-- The whole part of a magnitude. -/
def Binary.truncate (b : Binary) : Nat :=
  if b.exponent < 0 then b.mantissa / Nat.pow 2 b.exponent.natAbs
  else b.mantissa * Nat.pow 2 b.exponent.natAbs

/-- The float nearest to a whole number, a tie going to the even mantissa; none beyond the range of
floats. -/
def ofInt? (n : Int) : Option Float :=
  let x := Float.ofScientific n.natAbs false 0
  if x.isInf then none else some (if n < 0 then -x else x)

end AudLang.Decimal
