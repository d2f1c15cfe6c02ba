import AudLang.Decimal.Shortest
import AudLang.Decimal.Whole
import AudLang.Fault
import AudLang.Text.Quoted
import AudLang.Token

/-!
Descriptions of tokens, for listing them.
-/

namespace AudLang

/-- A description of what a token holds; a whole number of too many digits has none. -/
def Lexeme.describe : Lexeme → Except Fault String
  | .keyword k => .ok (Text.quoted k.spelling)
  | .identifier s => .ok (Text.quoted s)
  | .int n =>
    match Decimal.wholeText? n with
    | some s => .ok s
    | none => .error .badValue
  | .float x => .ok (Decimal.floatText x)
  | .string s => .ok (Text.quoted s)
  | .symbol m => .ok (Text.quoted m.spelling)

/-- A line that shows a kind of token, a description of its content and its place. -/
def Kind.line (k : Kind) (content : String) (p : Position) : String :=
  s!"Token({k.name}, {content}, Ln {p.line}, Col {p.column})"

/-- A line that shows a token. -/
def Token.describe (t : Token) : Except Fault String := do
  return t.kind.line (← t.lexeme.describe) t.position

/-- A line that shows the end of a source. -/
def Token.describeEnd (p : Position) : String := Kind.eof.line "None" p

end AudLang
