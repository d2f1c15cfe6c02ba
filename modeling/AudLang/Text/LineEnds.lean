/-!
Line ends.

A line ends with a line feed, a carriage return, or a carriage return and a line feed.
-/

namespace AudLang.Text

/-- Ends every line with a line feed alone. -/
def foldLines : List Char → List Char
  | '\r' :: '\n' :: r => '\n' :: foldLines r
  | '\r' :: r => '\n' :: foldLines r
  | c :: r => c :: foldLines r
  | [] => []

theorem foldLines_cons {c : Char} (hc : c ≠ '\r') (x : List Char) :
    foldLines (c :: x) = c :: foldLines x := by
  rw [foldLines]
  · exact fun _ h _ => hc h
  · exact hc

theorem length_foldLines_le (x : List Char) : (foldLines x).length ≤ x.length := by
  fun_induction foldLines x <;> simp_all
  omega

end AudLang.Text
