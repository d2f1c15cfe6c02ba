import AudLang.Parser.Error
import AudLang.Node
import AudLang.Token.Lexer

/-!
Taking tokens one by one.

The parser looks at one token and never goes back.  Every rule that succeeds has taken at least one
token, which its result records (`Rest`), so the recursion of the grammar ends.  When the text
stops being tokens at some place, the error is raised as soon as the parser moves on to that place.

A host may have room for so many nested calls only, and gives up a parser that needs more.  So the
rules count how deep they call one another (`Counted`).  What a rule does by itself, without other
rules, is not counted; a list of no arguments or parameters is counted like any other.
-/

namespace AudLang.Parser

/-- What comes behind the last token: the end of the text, or the error that ended the tokens. -/
abbrev Stop := Except LexError Position

/-- Fewer tokens than there were. -/
abbrev Rest (ts : List Token) := { r : List Token // r.length < ts.length }

/-- At most as many tokens as there were. -/
abbrev Remnant (ts : List Token) := { r : List Token // r.length ≤ ts.length }

/-- What a rule comes to, and how deep rules called one another on the way. -/
structure Counted (α : Type) where
  result : Except ParseError α
  depth : Nat

namespace Counted

instance : Monad Counted where
  pure a := ⟨.ok a, 0⟩
  bind x f :=
    match x.result with
    | .ok a =>
      let y := f a
      ⟨y.result, max x.depth y.depth⟩
    | .error e => ⟨.error e, x.depth⟩

instance : MonadLift (Except ParseError) Counted where
  monadLift x := ⟨x, 0⟩

/-- What a rule comes to when another one calls it. -/
def call (x : Counted α) : Counted α := ⟨x.result, x.depth + 1⟩

/-- The same with another error. -/
def mapError (f : ParseError → ParseError) (x : Counted α) : Counted α :=
  ⟨x.result.mapError f, x.depth⟩

end Counted

/-- The result of a rule that takes tokens. -/
abbrev Parsed (α : Type) (ts : List Token) := Counted (α × Rest ts)

/-- The result of a rule that may take none. -/
abbrev Tried (α : Type) (ts : List Token) := Counted (α × Remnant ts)

/-- Everything is left when nothing has been taken. -/
def Remnant.all (ts : List Token) : Remnant ts := ⟨ts, Nat.le_refl _⟩

section

variable {t : Token} {ts r r₁ r₂ r₃ : List Token}

/-- What is left behind a rule and one that may take none. -/
theorem length_le_of_more (h₁ : r₁.length < ts.length) (h₂ : r₂.length ≤ r₁.length) :
    r₂.length ≤ ts.length := Nat.le_trans h₂ (Nat.le_of_lt h₁)

/-- What is left behind a token and two such rules. -/
theorem length_le_cons_of_more (h₁ : r₁.length < r.length) (h₂ : r₂.length ≤ r₁.length) :
    r₂.length ≤ (t :: r).length := Nat.le_succ_of_le (length_le_of_more h₁ h₂)

/-- What is left behind a rule that may take none, between two that open and close it. -/
theorem length_lt_of_enclosed (h₁ : r₁.length < ts.length) (h₂ : r₂.length ≤ r₁.length)
    (h₃ : r₃.length < r₂.length) : r₃.length < ts.length :=
  Nat.lt_of_lt_of_le h₃ (length_le_of_more h₁ h₂)

end

/-- The kind of the current token. -/
def kind : List Token → Kind
  | [] => .eof
  | t :: _ => t.kind

/-- The place of the current token. -/
def position (stop : Stop) : List Token → Position
  | [] => stop.toOption.getD .start
  | t :: _ => t.position

/-- Moving on to where the tokens ended in an error raises it. -/
def reach (stop : Stop) (ts : List Token) : Except ParseError Unit :=
  match ts, stop with
  | [], .error e => .error (.lexical e)
  | _, _ => .ok ()

/-- Complains about the current token. -/
def fail (stop : Stop) (what : Expected) (ts : List Token) : Counted α :=
  ⟨.error (.expected what (kind ts) (position stop ts)), 0⟩

/-- Takes the current token, which has to be of the given kind. -/
def expect (stop : Stop) (wanted : Kind) (ts : List Token) : Parsed Token ts :=
  match ts with
  | [] => fail stop (.kind wanted) []
  | t :: r => do
    if t.kind = wanted then
      reach stop r
      return (t, ⟨r, Nat.lt_succ_self _⟩)
    else fail stop (.kind wanted) (t :: r)

end AudLang.Parser
