import AudLang.Text.Ranges

/-!
White space.

`isBlank` is what separates tokens: the ASCII white space and separators U+0009 to U+000D and
U+001C to U+0020, and the spaces and line separators above ASCII.  Around the text of a number the
four separators U+001C to U+001F do not count as white space: that smaller set is `isNumberBlank`.
-/

namespace AudLang.Text

/-- The white space of the language. -/
def blankRanges : List (Nat × Nat) :=
  [(0x0009, 0x000D), (0x001C, 0x0020), (0x0085, 0x0085), (0x00A0, 0x00A0), (0x1680, 0x1680),
   (0x2000, 0x200A), (0x2028, 0x2029), (0x202F, 0x202F), (0x205F, 0x205F), (0x3000, 0x3000)]

/-- Does `c` separate tokens? -/
def isBlank (c : Char) : Bool := inRanges blankRanges c.toNat

/-- May `c` stand around the text of a number? -/
def isNumberBlank (c : Char) : Bool :=
  isBlank c && !(0x1C ≤ c.toNat && c.toNat ≤ 0x1F)

end AudLang.Text
