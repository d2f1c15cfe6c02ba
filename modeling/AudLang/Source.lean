import AudLang.Position

/-!
A source text being read.

Reading folds every line end (`\r\n`, a lone `\r`, `\n`) into one `\n` and keeps the place of the
last character read.  Looking ahead sees the text as it was written, before the folding, and
changes nothing.
-/

namespace AudLang

/-- What is left of a source text, and the place of the last character read from it. -/
structure Source where
  rest : List Char
  position : Position
deriving Repr

namespace Source

/-- A text of which nothing has been read. -/
def ofString (s : String) : Source := ⟨s.toList, .start⟩

/-- The next character with its line end folded, and the source after it; `none` at the end. -/
def next? (s : Source) : Option (Char × Source) :=
  match s.rest with
  | [] => none
  | '\r' :: '\n' :: r => some ('\n', ⟨r, s.position.after '\n'⟩)
  | '\r' :: r => some ('\n', ⟨r, s.position.after '\n'⟩)
  | c :: r => some (c, ⟨r, s.position.after c⟩)

/-- The `k`-th unread character as it was written, counted from one. -/
def peek? (s : Source) (k : Int := 1) : Option Char :=
  if k ≤ 0 then none else s.rest[(k - 1).toNat]?

/-- Reading shortens the text. -/
theorem length_next? {s t : Source} {c : Char} (h : s.next? = some (c, t)) :
    t.rest.length < s.rest.length := by
  unfold next? at h
  split at h
  · nomatch h
  all_goals
    rename_i hs
    injection h with h
    injection h with _ h
    subst h
    simp only [hs, List.length_cons]
    omega

end Source

end AudLang
