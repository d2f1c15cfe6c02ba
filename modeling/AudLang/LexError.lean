import AudLang.Position

/-!
What can be wrong with a source text before it is parsed.

A flaw is reported with the place of the piece it spoils.  A float literal too large for a float is
not a flaw of the text but a failed computation, which has no place.
-/

namespace AudLang

/-- A flaw of a source text. -/
inductive LexFlaw where
  | unterminatedComment
  | commentTooLong (limit : Int)
  | unterminatedString
  | stringTooLong (limit : Int)
  | badEscape (symbol : String)
  | nameTooLong (limit : Int)
  | numberTooLong (limit : Int)
  | badFloat (text : String)
  | badCharacter (shown : String)
deriving DecidableEq, Repr

/-- The wording of a flaw. -/
def LexFlaw.message : LexFlaw → String
  | unterminatedComment => "Unterminated comment"
  | commentTooLong limit => s!"Maximum comment length exceeded ({limit})"
  | unterminatedString => "Unterminated string"
  | stringTooLong limit => s!"String exceeds maximum length ({limit})"
  | badEscape symbol => s!"Invalid escape sequence: \\{symbol}"
  | nameTooLong limit => s!"Identifier exceeds maximum length ({limit})"
  | numberTooLong limit => s!"Number exceeds maximum length ({limit})"
  | badFloat text => s!"Invalid float value: {text}"
  | badCharacter shown => s!"Invalid character: {shown}"

/-- Which part of a float literal is beyond the range of floats. -/
inductive Overflow where
  | digits
  | scale
deriving DecidableEq, Repr

/-- The wording of an overflow. -/
def Overflow.message : Overflow → String
  | digits => "int too large to convert to float"
  | scale => "(34, 'Numerical result out of range')"

/-- Why lexing stopped before the end of the text. -/
inductive LexError where
  | flawed (flaw : LexFlaw) (position : Position)
  | overflow (what : Overflow)
deriving DecidableEq, Repr

/-- The line that reports the error. -/
def LexError.report : LexError → String
  | flawed flaw position => position.report flaw.message
  | overflow what => what.message

end AudLang
