import AudLang.Proofs.Spelling

/-!
Numbers and their limit.

While it reads a number, the lexer compares the digits so far with the limit before it looks at what
comes next.  So it refuses a number that holds more digits than the limit, and also one that holds
exactly as many and has a dot behind it, although this dot does not belong to the number.  Every
other number is read as it stands.
-/

namespace AudLang

open Lexer

/-! ## Numerals -/

/-- A number as it is written. -/
inductive Numeral where
  | int (digits : Digits)
  | float (whole fraction : Digits)

namespace Numeral

/-- A numeral as it stands in a text. -/
def spelling : Numeral → List Char
  | int digits => digits.chars
  | float whole fraction => whole.chars ++ '.' :: fraction.chars

/-- How many digits a numeral has. -/
def size : Numeral → Nat
  | int digits => digits.chars.length
  | float whole fraction => whole.chars.length + fraction.chars.length

/-- What a numeral stands for. -/
def lexeme : Numeral → Lexeme
  | int digits => .int (digitsValue digits.chars)
  | float whole fraction =>
    .float (quotient (digitsValue (whole.chars ++ fraction.chars)) fraction.chars.length)

/-- The text is the numeral and then the rest, of which nothing goes on with the numeral: no digit,
and behind a whole number no fraction. -/
structure Opens (n : Numeral) (rest text : List Char) : Prop where
  spelled : text = n.spelling ++ rest
  noDigit : ∀ c y, rest = c :: y → Text.isDigit c = false
  noFraction : ∀ digits, n = .int digits → ∀ c y, rest = '.' :: c :: y → Text.isDigit c = false

variable {n : Numeral} {c : Char} {x rest : List Char}

lemma Opens.isDigit_head? (h : n.Opens rest x) : ∀ c ∈ rest.head?, Text.isDigit c = false := by
  intro c hc
  obtain ⟨y, rfl⟩ := List.head?_eq_some_iff.1 hc
  exact h.noDigit c y rfl

/-- The digits that a text opens with. -/
lemma exists_digits (hc : Text.isDigit c = true) (x : List Char) :
    ∃ (digits : Digits) (rest : List Char), c :: x = digits.chars ++ rest ∧
      ∀ d y, rest = d :: y → Text.isDigit d = false := by
  obtain ⟨run, rest, rfl, hrun, hrest⟩ := exists_run Text.isDigit x
  refine ⟨⟨c :: run, List.cons_ne_nil _ _, List.forall_mem_cons.2 ⟨hc, hrun⟩⟩, rest, rfl, ?_⟩
  rintro d y rfl
  exact hrest d rfl

lemma exists_opens (hc : Text.isDigit c = true) (x : List Char) :
    ∃ (n : Numeral) (rest : List Char), n.Opens rest (c :: x) := by
  obtain ⟨digits, y, htext, hy⟩ := exists_digits hc x
  by_cases hfraction : ∃ d z, y = '.' :: d :: z ∧ Text.isDigit d = true
  · obtain ⟨d, z, rfl, hd⟩ := hfraction
    obtain ⟨fraction, rest, hz, hrest⟩ := exists_digits hd z
    refine ⟨.float digits fraction, rest, ?_, hrest, fun _ h => by cases h⟩
    rw [htext, hz, spelling, List.append_assoc, List.cons_append]
  · refine ⟨.int digits, y, htext, hy, fun _ _ d z hz => ?_⟩
    simpa using fun hd => hfraction ⟨d, z, hz, hd⟩

end Numeral

/-! ## Reading -/

namespace Lexer

variable {limits : Limits} {c : Char} {x rest : List Char} {n : Numeral}

/-- A numeral whose first digit is ahead is read up to its end, and refused if it is too long
there. -/
lemma number_of_opens (hlow : 0 ≤ limits.number) (hhigh : limits.number ≤ 308)
    (h : n.Opens rest (c :: x)) (p : Position) :
    number limits ⟨some c, ⟨x, p⟩⟩ =
      if numberExceeds limits.number n.size
        (onText rest (n.spelling.tail.foldl Position.after p)) then
        .error (.flawed (.numberTooLong limits.number) p)
      else .ok (n.lexeme, onText rest (n.spelling.tail.foldl Position.after p)) := by
  have hend := h.isDigit_head?
  have hspelled := h.spelled
  cases n with
  | int digits =>
    obtain ⟨d, ds, hdigits⟩ := List.exists_cons_of_ne_nil digits.ne_nil
    have hread : number limits ⟨some d, ⟨ds ++ rest, p⟩⟩ = _ :=
      number_whole (hdigits ▸ digits.isDigit) hend (h.noFraction digits rfl) p
    rw [Numeral.spelling, hdigits, List.cons_append, List.cons.injEq] at hspelled
    obtain ⟨rfl, rfl⟩ := hspelled
    simpa only [Numeral.spelling, Numeral.size, Numeral.lexeme, hdigits, List.tail_cons] using hread
  | float whole fraction =>
    obtain ⟨d, ds, hwhole⟩ := List.exists_cons_of_ne_nil whole.ne_nil
    have hread := number_float hlow hhigh (hwhole ▸ whole.isDigit) fraction hend p
    rw [Numeral.spelling, hwhole, List.append_assoc, List.cons_append, List.cons_append,
      List.cons.injEq] at hspelled
    obtain ⟨rfl, rfl⟩ := hspelled
    simpa only [Numeral.spelling, Numeral.size, Numeral.lexeme, hwhole, List.cons_append,
      List.tail_cons] using hread

/-- Where a digit comes next, the text opens with a numeral.  The lexer refuses it, at its first
digit, if it has more digits than the limit, or exactly as many and a dot behind it.  Otherwise the
next token is the numeral, and the lexer goes on right behind it. -/
theorem next_of_digit (hlow : 0 ≤ limits.number) (hhigh : limits.number ≤ 308) {k : Lexer}
    {p : Position} (hk : settle limits k = .ok ⟨some c, ⟨x, p⟩⟩) (hc : Text.isDigit c = true) :
    (∃ n rest, Numeral.Opens n rest (c :: x)) ∧
      ∀ n rest, Numeral.Opens n rest (c :: x) →
        next limits k =
          if limits.number < n.size ∨ limits.number = n.size ∧ rest.head? = some '.' then
            .error (.flawed (.numberTooLong limits.number) p)
          else .ok (some ⟨n.lexeme, p⟩, onText rest (n.spelling.tail.foldl Position.after p)) := by
  refine ⟨Numeral.exists_opens hc x, fun n rest hn => ?_⟩
  have hread := number_of_opens hlow hhigh hn p
  simp only [numberExceeds_iff hlow, ahead_onText_iff (c := '.') (by decide) (by decide)] at hread
  by_cases hlong : limits.number < n.size ∨ limits.number = n.size ∧ rest.head? = some '.'
  · rw [if_pos hlong] at hread ⊢
    simp only [next, hk, token_of_isDigit hc, hread]
  · rw [if_neg hlong] at hread ⊢
    simp only [next, hk, token_of_isDigit hc, hread]

/-- A lexer for numbers of up to two digits. -/
def twoDigits : Limits := { number := 2 }

/-- `12` -/
def twelve : Numeral := .int ⟨['1', '2'], by decide, List.all_eq_true.1 (by decide)⟩

/-- Two digits fit, but not in front of a dot. -/
theorem next_of_digit_twelve :
    next twoDigits (.ofString "12;") = .ok (some ⟨.int 12, ⟨1, 1⟩⟩, ⟨some ';', ⟨[], ⟨1, 3⟩⟩⟩) ∧
      next twoDigits (.ofString "12.;") = .error (.flawed (.numberTooLong 2) ⟨1, 1⟩) := by
  have hfits : twelve.Opens [';'] ['1', '2', ';'] :=
    ⟨rfl, by rintro c y ⟨⟩; decide, by rintro digits - c y ⟨⟩⟩
  have hdot : twelve.Opens ['.', ';'] ['1', '2', '.', ';'] :=
    ⟨rfl, by rintro c y ⟨⟩; decide, by rintro digits - c y ⟨⟩; decide⟩
  have hstart : settle twoDigits (.ofString "12;") = .ok ⟨some '1', ⟨['2', ';'], ⟨1, 1⟩⟩⟩ := by cbv
  have hstart' : settle twoDigits (.ofString "12.;")
    = .ok ⟨some '1', ⟨['2', '.', ';'], ⟨1, 1⟩⟩⟩ := by cbv
  exact ⟨(next_of_digit (by decide) (by decide) hstart (by decide)).2 _ _ hfits,
    (next_of_digit (by decide) (by decide) hstart' (by decide)).2 _ _ hdot⟩

end Lexer

end AudLang
