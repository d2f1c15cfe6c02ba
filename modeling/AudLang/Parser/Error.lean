import AudLang.LexError
import AudLang.Token

/-!
Why tokens are not a program.
-/

namespace AudLang

/-- What the grammar asks for at a token. -/
inductive Expected where
  | kind (kind : Kind)
  | typeKeyword
  | factor
  | constructorArguments
deriving DecidableEq, Repr

/-- The wording of what is asked for. -/
def Expected.text : Expected → String
  | kind k => k.name
  | typeKeyword => "type keyword"
  | factor => "start of a factor"
  | constructorArguments => "'(' after constructor keyword"

/-- The wording of a complaint about a token; asking for the empty text counts as asking for
nothing. -/
def complaint (found : String) (expected : String) : String :=
  if expected = "" then s!"Unexpected Token {found}" else s!"Expected {expected} but found {found}"

/-- Why parsing stopped. -/
inductive ParseError where
  /-- The text has no token here. -/
  | lexical (error : LexError)
  /-- No statement goes on with this token. -/
  | unexpected (found : Kind) (position : Position)
  /-- The grammar asks for something else here. -/
  | expected (what : Expected) (found : Kind) (position : Position)
  /-- Nothing can be assigned to a node of this kind. -/
  | badTarget (kindName : String) (position : Position)
deriving DecidableEq, Repr

namespace ParseError

/-- The wording of an unassignable target. -/
def badTargetMessage (kindName : String) : String :=
  s!"Invalid left-hand side for assignment {kindName}"

/-- The line that reports the error. -/
def report : ParseError → String
  | lexical e => e.report
  | unexpected found p => p.report (complaint found.name "")
  | expected what found p => p.report (complaint found.name what.text)
  | badTarget kind p => p.report (badTargetMessage kind)

/-- The same place without saying what was asked for. -/
def forget : ParseError → ParseError
  | expected _ found p => unexpected found p
  | e => e

end ParseError

end AudLang
