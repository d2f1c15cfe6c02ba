import AudLang.Decimal.Whole

/-!
Reading floats from text.

A float is spelled with white space around it, one sign, and either a word (`inf`, `infinity`,
`nan`, in any case) or decimal digits with an optional fraction and exponent; at least one digit
stands before or behind the point.  The result is the float nearest to the number spelled, an
infinity beyond the range.
-/

namespace AudLang.Decimal

/-- The exponent at the end of a text, zero when there is none. -/
def readExponent? : List Char → Option Int
  | [] => some 0
  | c :: r =>
    if c = 'e' ∨ c = 'E' then
      let (negative, unsigned) := takeSign r
      match digitRun unsigned with
      | (digits, []) =>
        if digits.isEmpty then none
        else some (if negative then -(ofDigits digits : Int) else ofDigits digits)
      | _ => none
    else none

/-- The float nearest to `digits · 10 ^ exponent`.  Numbers far outside the range of floats are
decided by their size. -/
def nearest (digits : Nat) (exponent : Int) : Float :=
  let size := ((Nat.toDigits 10 digits).length : Int) + exponent
  if digits = 0 ∨ size < -400 then 0.0
  else if 400 < size then 1.0 / 0.0
  else Float.ofScientific digits (exponent < 0) exponent.natAbs

/-- The float that an unsigned text spells. -/
def readMagnitude? (text : List Char) : Option Float :=
  let word := String.ofList (text.map Char.toLower)
  if word = "inf" ∨ word = "infinity" then some (1.0 / 0.0)
  else if word = "nan" then some (0.0 / 0.0)
  else
    let (whole, r) := digitRun text
    let (fraction, r) :=
      match r with
      | '.' :: r' => digitRun r'
      | _ => ([], r)
    if whole.isEmpty ∧ fraction.isEmpty then none
    else (readExponent? r).map fun e => nearest (ofDigits (whole ++ fraction)) (e - fraction.length)

/-- The float that a text spells. -/
def readFloat? (text : String) : Option Float :=
  let (negative, unsigned) := takeSign (strip text.toList)
  (readMagnitude? unsigned).map fun x => if negative then -x else x

end AudLang.Decimal
