import AudLang.Text.Blank
import AudLang.Text.Digit

/-!
The text of whole numbers.

Whole numbers are unbounded, but the passage between a number and its decimal text is refused when
the text holds more than 4300 digits.  Text to be read may have white space around it, one sign,
digits of any script, and single underscores between digits.
-/

set_option linter.unusedVariables false

namespace AudLang.Decimal

/-- The most digits that text and number are converted over. -/
def digitLimit : Nat := 4300

/-- The decimal text of a whole number, unless it holds too many digits. -/
def wholeText? (n : Int) : Option String :=
  if n.natAbs < Nat.pow 10 digitLimit then some (toString n) else none

/-- Text without the white space around it. -/
def strip (text : List Char) : List Char :=
  ((text.dropWhile Text.isNumberBlank).reverse.dropWhile Text.isNumberBlank).reverse

/-- An optional sign in front of a text: is it negative? -/
def takeSign : List Char → Bool × List Char
  | '-' :: r => (true, r)
  | '+' :: r => (false, r)
  | r => (false, r)

/-- Passes over one underscore in front of a digit. -/
def passUnderscore : List Char → List Char
  | '_' :: d :: r => if Text.isDigit d then d :: r else '_' :: d :: r
  | r => r

theorem length_passUnderscore (text : List Char) : (passUnderscore text).length ≤ text.length := by
  unfold passUnderscore
  split
  · split <;> simp
  · exact Nat.le_refl _

/-- The digits at the front of a text, with single underscores between two digits passed over. -/
def digitRun : List Char → List Nat × List Char
  | [] => ([], [])
  | c :: r =>
    match Text.digitValue? c with
    | none => ([], c :: r)
    | some v =>
      let (vs, rest) := digitRun (passUnderscore r)
      (v :: vs, rest)
termination_by text => text.length
decreasing_by
  have := length_passUnderscore r
  simp only [List.length_cons]
  omega

/-- The number that digits spell. -/
def ofDigits (digits : List Nat) : Nat := digits.foldl (fun n d => 10 * n + d) 0

/-- The whole number that a text spells. -/
def readWhole? (text : String) : Option Int :=
  let (negative, unsigned) := takeSign (strip text.toList)
  match digitRun unsigned with
  | (digits, []) =>
    if digits.isEmpty ∨ digitLimit < digits.length then none
    else some (if negative then -(ofDigits digits : Int) else ofDigits digits)
  | _ => none

end AudLang.Decimal
