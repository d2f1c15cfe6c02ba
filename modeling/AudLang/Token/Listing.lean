import AudLang.Token.Description
import AudLang.Token.Lexer

/-!
Lists of the tokens of a source, one on a line.
-/

namespace AudLang

/-- Why a listing ends before the end of the source. -/
inductive ListingStop where
  | lexical (error : LexError)
  /-- A token that cannot be shown. -/
  | fault (fault : Fault)
deriving DecidableEq, Repr

/-- Lines, and why there are no more of them. -/
structure Listing where
  lines : List String
  stop : Option ListingStop := none
deriving DecidableEq, Repr

namespace Listing

/-- The listing of some tokens, which goes on with another one. -/
def ofTokens (rest : Listing) : List Token → Listing
  | [] => rest
  | t :: ts =>
    match t.describe with
    | .error f => ⟨[], some (.fault f)⟩
    | .ok line =>
      let more := ofTokens rest ts
      { more with lines := line :: more.lines }

/-- The listing of a source. -/
def ofSource (limits : Limits) (text : String) : Listing :=
  let (steps, ending) := (Lexer.ofString text).run limits
  let rest : Listing :=
    match ending with
    | .ok p => ⟨[Token.describeEnd p], none⟩
    | .error e => ⟨[], some (.lexical e)⟩
  ofTokens rest (steps.map Prod.fst)

/-- The lines as one text. -/
def text (l : Listing) : String := String.join (l.lines.map (· ++ "\n"))

end Listing

end AudLang
