/-!
Places in a source text.

Lines count from one.  The column of a character is the number of characters of its line up to and
including it, so a position at column zero lies before the first character of its line.
-/

namespace AudLang

/-- A place in a source text. -/
structure Position where
  line : Nat
  column : Nat
deriving DecidableEq, Repr, Inhabited

namespace Position

/-- Before the first character of a text. -/
def start : Position := ⟨1, 0⟩

/-- The place reached by reading `c` from here: a line feed opens the next line. -/
def after (p : Position) (c : Char) : Position :=
  if c = '\n' then ⟨p.line + 1, 0⟩ else ⟨p.line, p.column + 1⟩

/-- The line that reports a message about this place. -/
def report (p : Position) (message : String) : String :=
  s!"[{p.line}, {p.column}] ERROR {message}"

end Position

/-- The places where a piece of source begins and ends. -/
structure Span where
  start : Position
  stop : Position
deriving DecidableEq, Repr, Inhabited

end AudLang
