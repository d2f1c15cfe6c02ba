import AudLang.Decimal.Binary

/-!
The text of a float: the fewest digits that read back as the same float.

The reals that round to `m · 2 ^ q` form an interval around it, whose ends belong to it when `m` is
even.  For one digit, two digits, … the two multiples of a power of ten next to the float are tried;
the first number of digits for which one of them lies in the interval is the shortest, and of two
such multiples the nearer is taken, a tie going to the even one.  All comparisons are between
natural numbers.
-/

namespace AudLang.Decimal

/-- The decimal number `digits · 10 ^ exponent`. -/
structure Scaled where
  digits : Nat
  exponent : Int
deriving DecidableEq, Repr

/-- `digits · 10 ^ exponent` and `quarters · 2 ^ (q - 2)` brought to one unit. -/
def common (q : Int) (d : Scaled) (quarters : Nat) : Nat × Nat :=
  (d.digits * Nat.pow 10 d.exponent.toNat * Nat.pow 2 (2 - q).toNat,
   quarters * Nat.pow 2 (q - 2).toNat * Nat.pow 10 (-d.exponent).toNat)

/-- Does the decimal number read back as the float? -/
def Binary.readsBack (b : Binary) (d : Scaled) : Bool :=
  let (x, low) := common b.exponent d (4 * b.mantissa - if b.narrow then 1 else 2)
  let (_, high) := common b.exponent d (4 * b.mantissa + 2)
  if b.mantissa % 2 = 0 then low ≤ x && x ≤ high else low < x && x < high

/-- The number of decimal digits of a natural number. -/
def digitCount (n : Nat) : Nat := (Nat.toDigits 10 n).length

/-- The `e` with `10 ^ e ≤ m · 2 ^ q < 10 ^ (e + 1)`, for a positive mantissa. -/
def Binary.magnitude (b : Binary) : Int :=
  let num := b.mantissa * Nat.pow 2 b.exponent.toNat
  let den := Nat.pow 2 (-b.exponent).toNat
  if den ≤ num then digitCount (num / den) - 1
  else -(digitCount ((den + num - 1) / num - 1) : Int)

/-- The largest multiple of `10 ^ exponent` that is not above the float. -/
def Binary.floorTo (b : Binary) (exponent : Int) : Nat :=
  let (unit, x) := common b.exponent ⟨1, exponent⟩ (4 * b.mantissa)
  x / unit

/-- The decimal number with `count` digits nearest to the float among those that read back. -/
def Binary.withDigits? (b : Binary) (count : Nat) : Option Scaled :=
  let exponent := b.magnitude + 1 - count
  let k := b.floorTo exponent
  let below : Scaled := ⟨k, exponent⟩
  let above : Scaled := ⟨k + 1, exponent⟩
  match b.readsBack below, b.readsBack above with
  | true, false => some below
  | false, true => some above
  | true, true =>
    let (twice, x) := common b.exponent ⟨2 * k + 1, exponent⟩ (8 * b.mantissa)
    if x < twice then some below
    else if twice < x then some above
    else if k % 2 = 0 then some below else some above
  | false, false => none

/-- Drops zeros at the end of the digits. -/
def Scaled.trim (d : Scaled) : Scaled :=
  if d.digits ≠ 0 ∧ d.digits % 10 = 0 then trim ⟨d.digits / 10, d.exponent + 1⟩ else d
termination_by d.digits
decreasing_by omega

/-- The shortest decimal number that reads back as the float. -/
def Binary.shortest (b : Binary) : Scaled :=
  ((List.range 17).findSome? fun i => b.withDigits? (i + 1)).elim
    ⟨b.floorTo (b.magnitude - 16), b.magnitude - 16⟩ Scaled.trim

/-! ## The layout -/

/-- A text of `n` zeros. -/
def zeroText (n : Nat) : String := String.ofList (List.replicate n '0')

/-- An exponent has a sign and at least two digits. -/
def exponentText (e : Int) : String :=
  let digits := toString e.natAbs
  (if e < 0 then "e-" else "e+") ++ zeroText (2 - digits.length) ++ digits

/-- Writes a decimal number with a point when its first digit stands between the fourth place behind
the point and the sixteenth place before it, and with an exponent otherwise. -/
def Scaled.text (d : Scaled) : String :=
  let digits := (Nat.toDigits 10 d.digits)
  let point := (digits.length : Int) + d.exponent
  if -4 < point ∧ point ≤ 16 then
    if point ≤ 0 then "0." ++ zeroText point.natAbs ++ String.ofList digits
    else if digits.length ≤ point then
      String.ofList digits ++ zeroText d.exponent.natAbs ++ ".0"
    else
      String.ofList (digits.take point.natAbs) ++ "." ++ String.ofList (digits.drop point.natAbs)
  else
    let fraction := digits.drop 1
    String.ofList (digits.take 1) ++ (if fraction.isEmpty then "" else "." ++ String.ofList
      fraction)
      ++ exponentText (point - 1)

/-- The text of a float. -/
def floatText (x : Float) : String :=
  match Reading.ofFloat x with
  | .nan => "nan"
  | .infinite negative => if negative then "-inf" else "inf"
  | .finite negative b =>
    (if negative then "-" else "") ++ if b.mantissa = 0 then "0.0" else b.shortest.text

end AudLang.Decimal
