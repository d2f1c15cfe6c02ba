/-!
Sets of characters as lists of closed code-point ranges.

Large sets are listed by the lengths of their ranges and of the gaps between them.
-/

namespace AudLang.Text

/-- Does some closed range of the table hold the code point? -/
def inRanges (table : List (Nat × Nat)) (code : Nat) : Bool :=
  table.any fun r => r.1 ≤ code && code ≤ r.2

/-- The ranges behind a code point, listed by the gap in front of each and its length, in turn. -/
def rangesOf (start : Nat) : List Nat → List (Nat × Nat)
  | gap :: length :: rest =>
    (start + gap, start + gap + length - 1) :: rangesOf (start + gap + length) rest
  | _ => []

end AudLang.Text
