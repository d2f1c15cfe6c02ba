/-!
The limits that a program is read and run under.

A limit is a whole number of characters, digits or calls.  Names, numbers and strings are compared
with their limit for equality while they grow, so a negative limit never stops them; comments are
compared by size, so a negative limit stops every comment.
-/

namespace AudLang

/-- How long the pieces of a source may be, and how deep calls may nest. -/
structure Limits where
  name : Int := 128
  string : Int := 256
  comment : Int := 256
  number : Int := 128
  callDepth : Int := 50
deriving DecidableEq, Repr, Inhabited

/-- Does a piece that is compared with its limit at every step outgrow it on reaching `size`? -/
def Limits.exceeded (limit : Int) (size : Nat) : Bool := 0 ≤ limit && limit < size

end AudLang
