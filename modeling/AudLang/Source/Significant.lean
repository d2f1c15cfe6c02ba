import AudLang.LexError
import AudLang.Source
import AudLang.Text.Blank

/-!
The characters of a source that mean something: neither white space nor part of a comment.

A comment runs from a slash and an asterisk to the first asterisk and slash after them.  It is
reported at the place of its opening asterisk when it is longer than the limit or never closed,
whichever is noticed first.
-/

set_option linter.unusedVariables false

namespace AudLang.Source

/-- Reads on behind the end of a comment of which `seen` characters have been read. -/
def skipComment (limit : Int) (opened : Position) (seen : Nat) (s : Source) :
    Except LexError Source :=
  match h : s.next? with
  | none => .error (.flawed .unterminatedComment opened)
  | some (c, t) =>
    if c = '*' ∧ t.peek? = some '/' then
      match t.next? with
      | none => .ok t
      | some (_, u) => .ok u
    else if limit < seen + 1 then .error (.flawed (.commentTooLong limit) opened)
    else skipComment limit opened (seen + 1) t
termination_by s.rest.length
decreasing_by exact length_next? h

/-- Behind a comment the text is shorter than at its start. -/
theorem length_skipComment {limit : Int} {opened : Position} {seen : Nat} {s t : Source}
    (h : skipComment limit opened seen s = .ok t) : t.rest.length < s.rest.length := by
  fun_induction skipComment limit opened seen s with
  | case1 => nomatch h
  | case2 seen s c u hn _ hu =>
    injection h with h
    subst h
    exact length_next? hn
  | case3 seen s c u hn _ d v hv =>
    injection h with h
    subst h
    exact Nat.lt_trans (length_next? hv) (length_next? hn)
  | case4 => nomatch h
  | case5 seen s c u hn _ _ ih => exact Nat.lt_trans (ih h) (length_next? hn)

/-- The next significant character and the source behind it; at the end, the source alone. -/
def nextSignificant (limit : Int) (s : Source) : Except LexError (Option Char × Source) :=
  match h : s.next? with
  | none => .ok (none, s)
  | some (c, t) =>
    if Text.isBlank c then nextSignificant limit t
    else if c = '/' ∧ t.peek? = some '*' then
      match hu : t.next? with
      | none => .ok (none, t)
      | some (_, u) =>
        match hv : skipComment limit u.position 0 u with
        | .error e => .error e
        | .ok v => nextSignificant limit v
    else .ok (some c, t)
termination_by s.rest.length
decreasing_by
  · exact length_next? h
  · exact Nat.lt_trans (length_skipComment hv) (Nat.lt_trans (length_next? hu) (length_next? h))

/-- Skipping never lengthens the text, and shortens it when a character is found. -/
theorem length_nextSignificant {limit : Int} {s t : Source} {c? : Option Char}
    (h : nextSignificant limit s = .ok (c?, t)) :
    t.rest.length + (if c?.isSome then 1 else 0) ≤ s.rest.length := by
  fun_induction nextSignificant limit s with
  | case1 s _ =>
    injection h with h
    injection h with h₁ h₂
    subst h₁ h₂
    simp
  | case2 s c u hn _ ih =>
    have := length_next? hn
    have := ih h
    omega
  | case3 s c u hn _ _ hu =>
    injection h with h
    injection h with h₁ h₂
    subst h₁ h₂
    have := length_next? hn
    simp
    omega
  | case4 => nomatch h
  | case5 s c u hn _ _ d v hv w hw ih =>
    have := length_next? hn
    have := length_next? hv
    have := length_skipComment hw
    have := ih h
    omega
  | case6 s c u hn _ _ =>
    injection h with h
    injection h with h₁ h₂
    subst h₁ h₂
    have := length_next? hn
    simp
    omega

/-- The significant characters from here on, each with the place it was read at, and the error that
ended them before the end of the text, if any. -/
def significant (limit : Int) (s : Source) : List (Char × Position) × Except LexError Position :=
  match h : nextSignificant limit s with
  | .error e => ([], .error e)
  | .ok (none, t) => ([], .ok t.position)
  | .ok (some c, t) =>
    let (more, stop) := significant limit t
    ((c, t.position) :: more, stop)
termination_by s.rest.length
decreasing_by
  have := length_nextSignificant h
  simp at this
  omega

end AudLang.Source
