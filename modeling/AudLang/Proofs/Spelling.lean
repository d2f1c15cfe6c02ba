import AudLang.Proofs.Comments
import AudLang.Proofs.FloatRange

/-!
Tokens written down and read again.

A text that spells pieces with blanks between them says these pieces, up to the first one that is
longer than its limit.
-/

namespace AudLang

open Lexer

variable {c : Char} {run : List Char} {limit : Int}

/-! ## Pieces -/

/-- A name: a letter or underscore, then letters, digits and underscores, and no reserved word. -/
structure Name where
  first : Char
  more : List Char
  starts : startsName first = true
  continues : ∀ c ∈ more, continuesName c = true
  free : Keyword.ofSpelling? (String.ofList (first :: more)) = none

/-- One or more decimal digits. -/
structure Digits where
  chars : List Char
  ne_nil : chars ≠ []
  isDigit : ∀ c ∈ chars, Text.isDigit c = true

/-- What may be written down as one token. -/
inductive Piece where
  | keyword (word : Keyword)
  | symbol (mark : Symbol)
  | identifier (name : Name)
  | int (value : Nat)
  | float (whole fraction : Digits)
  | string (text : String)

/-- How a character is written in a string. -/
def escaped : Char → List Char
  | '"' => ['\\', '"']
  | '\\' => ['\\', '\\']
  | '\n' => ['\\', 'n']
  | '\t' => ['\\', 't']
  | '\r' => ['\\', 'r']
  | c => [c]

/-- A whole number divided by a power of ten, as floats. -/
def quotient (value places : Nat) : Float :=
  Float.ofScientific value false 0 / Float.pow 10.0 (Float.ofNat places)

/-- The flaw of a piece of this size, if it is above the limit. -/
def tooLong (limit : Int) (size : Nat) (flaw : Int → LexFlaw) : Option LexFlaw :=
  if limit < size then some (flaw limit) else none

/-- The same, unless a flaw stops the text in front of it. -/
def Said.stoppedBy (S : Said) (flaw? : Option LexFlaw) : Said :=
  flaw?.elim S fun flaw => ⟨[], some (.inl flaw)⟩

namespace Piece

/-- A piece as it stands in a text. -/
def spelling : Piece → List Char
  | keyword word => word.spelling.toList
  | symbol mark => mark.spelling.toList
  | identifier name => name.first :: name.more
  | int value => Nat.toDigits 10 value
  | float whole fraction => whole.chars ++ '.' :: fraction.chars
  | string text => '"' :: (text.toList.flatMap escaped ++ ['"'])

/-- What a piece stands for. -/
def lexeme : Piece → Lexeme
  | keyword word => .keyword word
  | symbol mark => .symbol mark
  | identifier name => .identifier (String.ofList (name.first :: name.more))
  | int value => .int value
  | float whole fraction =>
    .float (quotient (digitsValue whole.chars * 10 ^ fraction.chars.length + digitsValue
      fraction.chars)
      fraction.chars.length)
  | string text => .string text

/-- What is wrong with a piece that is too long.  Digits count without the dot, and the characters
of a string as they are meant, not as they are written. -/
def flaw? (limits : Limits) : Piece → Option LexFlaw
  | keyword word => tooLong limits.name word.spelling.length .nameTooLong
  | symbol _ => none
  | identifier name => tooLong limits.name (name.first :: name.more).length .nameTooLong
  | int value => tooLong limits.number (Nat.toDigits 10 value).length .numberTooLong
  | float whole fraction =>
    tooLong limits.number (whole.chars.length + fraction.chars.length) .numberTooLong
  | string text => tooLong limits.string text.length .stringTooLong

end Piece

/-! ## Spelling -/

/-- The text spells the pieces, with a blank and further blanks and comments between them. -/
inductive Spells (limit : Int) : List Piece → List Char → Prop
  | nil : Spells limit [] []
  | last (p : Piece) : Spells limit [p] p.spelling
  | cons (p : Piece) {ps : List Piece} {c : Char} {gap x : List Char} (hc : Text.isBlank c = true)
      (hgap : Filler limit gap) (h : Spells limit ps x) :
        Spells limit (p :: ps) (p.spelling ++ c :: (gap ++ x))

/-! ## Characters of a spelling -/

lemma isBlank_of_continuesName (h : continuesName c = true) : Text.isBlank c = false := by
  cases hc : Text.isBlank c with
  | false => rfl
  | true => rw [continuesName_of_isBlank hc] at h; cases h

/-- No letter above ASCII stands among the digits of a script. -/
lemma letterRanges_apart_zeros :
    (Text.zeros.all fun z => Text.letterRanges.all fun r => Nat.blt r.2 z || Nat.blt (z + 9) r.1)
      = true := by
  decide +kernel

lemma toNat_of_isDigit (h : c.isDigit = true) : 48 ≤ c.toNat ∧ c.toNat ≤ 57 := by
  simp only [Char.isDigit, Bool.and_eq_true, decide_eq_true_eq] at h
  exact ⟨UInt32.le_iff_toNat_le.1 h.1, UInt32.le_iff_toNat_le.1 h.2⟩

lemma digitValue?_of_isDigit (h : c.isDigit = true) : Text.digitValue? c = some (c.toNat - 48) := by
  have hc : c.val < 128 :=
    UInt32.lt_iff_toNat_lt.2 (Nat.lt_of_le_of_lt (toNat_of_isDigit h).2 (by decide))
  rw [Text.digitValue?, if_pos hc, if_pos h]

lemma startsName_of_isDigit (h : Text.isDigit c = true) : startsName c = false := by
  unfold Text.isDigit Text.digitValue? at h
  by_cases hc : c.val < 128
  · rw [if_pos hc] at h
    have hdigit : c.isDigit = true := by
      cases hd : c.isDigit with
      | true => rfl
      | false => rw [hd] at h; cases h
    have hall : ∀ n ∈ List.range' 48 10, startsName (Char.ofNat n) = false := by decide
    obtain ⟨hlow, hhigh⟩ := toNat_of_isDigit hdigit
    have hname := hall c.toNat (List.mem_range'_1.2 ⟨hlow, by omega⟩)
    rwa [Char.ofNat_toNat] at hname
  · have hscore : (c == '_') = false := by
      rw [beq_eq_false_iff_ne]
      rintro rfl
      exact hc (by decide)
    rw [if_neg hc, Option.isSome_map, List.find?_isSome] at h
    obtain ⟨z, hz, hdigit⟩ := h
    rw [startsName, hscore, Bool.or_false, Text.isLetter, if_neg hc, Text.inRanges,
      List.any_eq_false]
    intro r hr hletter
    have hapart := List.all_eq_true.1 (List.all_eq_true.1 letterRanges_apart_zeros z hz) r hr
    simp only [Bool.or_eq_true, Bool.and_eq_true, decide_eq_true_eq,
      Nat.blt_eq] at hapart hdigit hletter
    omega

lemma escaped_cases (c : Char) :
    (∃ e, escaped c = ['\\', e] ∧ escape? e = some c ∧ e ≠ '\r') ∨
      (escaped c = [c] ∧ c ≠ '"' ∧ c ≠ '\\' ∧ c ≠ '\r') := by
  unfold escaped
  split
  · exact .inl ⟨'"', rfl, rfl, by decide⟩
  · exact .inl ⟨'\\', rfl, rfl, by decide⟩
  · exact .inl ⟨'n', rfl, rfl, by decide⟩
  · exact .inl ⟨'t', rfl, rfl, by decide⟩
  · exact .inl ⟨'r', rfl, rfl, by decide⟩
  · rename_i hquote hslash _ _ hreturn
    exact .inr ⟨rfl, hquote, hslash, hreturn⟩

lemma double?_of_isBlank {d : Char} (hd : Text.isBlank d = true) : double? c d = none := by
  cases h : double? c d with
  | none => rfl
  | some m =>
    unfold double? at h
    split at h <;> first | exact absurd hd (by decide) | cases h

lemma Symbol.spelling_cases (m : Symbol) :
    (∃ c, m.spelling.toList = [c] ∧ single? c = some m) ∨
      ∃ c d, m.spelling.toList = [c, d] ∧ double? c d = some m := by
  cases m <;> first | exact .inl ⟨_, rfl, rfl⟩ | exact .inr ⟨_, _, rfl, rfl⟩

lemma Keyword.spelling_eq_cons (word : Keyword) :
    ∃ c cs, word.spelling.toList = c :: cs ∧ startsName c = true ∧
      ∀ d ∈ cs, continuesName d = true := by
  have hword : (word.spelling.toList.head?.any startsName && word.spelling.toList.all continuesName)
    = true := by
    cases word <;> decide +kernel
  cases hspelling : word.spelling.toList with
  | nil => rw [hspelling] at hword; cases hword
  | cons c cs =>
    simp only [hspelling, List.head?_cons, Option.any_some, List.all_cons, Bool.and_eq_true,
      List.all_eq_true] at hword
    exact ⟨c, cs, rfl, hword.1, hword.2.2⟩

lemma Keyword.ofSpelling?_spelling (word : Keyword) : ofSpelling? word.spelling = some word := by
  cases word <;> rfl

/-! ## What stands behind a piece -/

lemma Detached.head?_ne {x : List Char} (hx : Detached x) (hc : Text.isBlank c = false) :
    x.head? ≠ some c := by
  intro h
  rw [hx c h] at hc
  cases hc

namespace Lexer

open Source

variable {limits : Limits} {x y : List Char} {S T : Said}

lemma ahead_onText_ne (hx : Detached x) (hc : Text.isBlank c = false) (p : Position) :
    (onText x p).ahead ≠ some c := by
  cases hn : next? ⟨x, p⟩ with
  | none =>
    have hend : onText x p = ⟨none, ⟨x, p⟩⟩ := advance_of_end hn
    rw [hend]
    intro h
    cases h
  | some a =>
    have hnext : onText x p = ⟨some a.1, a.2⟩ := advance_of_next? hn
    rw [hnext]
    rintro ⟨⟩
    rw [hx.isBlank (next?_eq_some.1 hn).1] at hc
    cases hc

/-! ## Sayings of a text -/

/-- From its first significant character on the text says `S`, wherever it stands. -/
def Says (limits : Limits) (x : List Char) (S : Said) : Prop :=
  ∀ p, ∃ k, ofSource limits.comment ⟨x, p⟩ = .ok k ∧ k.said limits = S

lemma says_nil : Says limits [] ⟨[], none⟩ := by
  intro p
  refine ⟨⟨none, ⟨[], p⟩⟩, ?_, said_of_empty rfl rfl⟩
  unfold ofSource
  rw [nextSignificant_of_end rfl]

/-- Blanks and comments in front of a text say nothing. -/
lemma says_filler (hx : Filler limits.comment x) (h : Says limits y S) :
    Says limits (x ++ y) S := by
  intro p
  obtain ⟨q, hskip, -⟩ := ofSource_filler (Int.le_max_left _ 0) hx y p
  obtain ⟨k, hk, hsaid⟩ := h q
  exact ⟨k, hskip.trans hk, hsaid⟩

lemma says_blank (hc : Text.isBlank c = true) (h : Says limits x S) : Says limits (c :: x) S :=
  says_filler (.blank hc .nil) h

/-- A text that opens with a token says what is said from the token on. -/
lemma says_of_token (hblank : Text.isBlank c = false) (hcomment : ¬(c = '/' ∧ x.head? = some '*'))
    (h : ∀ p, told limits (token limits c (onText (c :: x) p)) = S) : Says limits (c :: x) S := by
  intro p
  have hreturn : c ≠ '\r' := by
    rintro rfl
    exact absurd hblank (by decide)
  have hopen : ofSource limits.comment ⟨c :: x, p⟩ = .ok ⟨some c, ⟨x, p.after c⟩⟩ := by
    unfold ofSource
    rw [nextSignificant_of_other (next?_cons hreturn x p) hblank]
    rwa [peek?_eq_head?]
  rw [← onText_cons hreturn] at hopen
  exact ⟨_, hopen, (said_onText_cons hblank x p).trans (h p)⟩

/-- Behind a name or a number the blank has been read already. -/
lemma Says.said_onText (h : Says limits x S) (hx : Detached x) (p : Position) :
    (onText x p).said limits = S := by
  obtain ⟨k, hk, hsaid⟩ := h p
  rw [said_of_settle (settle_onText hx p), hk]
  exact hsaid

/-- Behind a string or a symbol the next significant character has been read already. -/
lemma Says.told_labelled (h : Says limits x S) (l : Lexeme) (p : Position) :
    told limits (labelled l (ofSource limits.comment ⟨x, p⟩)) = S.after [l] := by
  obtain ⟨k, hk, hsaid⟩ := h p
  rw [hk, labelled, told, hsaid]

/-! ## One piece -/

/-- A piece that is checked against its limit once its end has been reached. -/
lemma told_checked (hlimit : 0 ≤ limit) {size : Nat} {flaw : Int → LexFlaw} {p : Position}
    {r : Except LexError (Lexeme × Lexer)} (hr : ¬limit < size → told limits r = S) :
    told limits (if Limits.exceeded limit size then .error (.flawed (flaw limit) p) else r) =
      S.stoppedBy (tooLong limit size flaw) := by
  have hexceeded : Limits.exceeded limit size = true ↔
    limit < size := by simp [Limits.exceeded, hlimit]
  unfold tooLong
  by_cases hlong : limit < size
  · rw [if_pos (hexceeded.2 hlong), if_pos hlong]
    rfl
  · rw [if_neg (mt hexceeded.1 hlong), if_neg hlong]
    exact hr hlong

/-! ### Names and reserved words -/

lemma told_word (hlimit : 0 ≤ limits.name) {cs : List Char} (hc : startsName c = true)
    (hcs : ∀ d ∈ cs, continuesName d = true) (hx : Detached x) (h : Says limits x S)
    (p : Position) : told limits (token limits c (onText ((c :: cs) ++ x) p)) =
      (S.after [wordLexeme (String.ofList (c :: cs))]).stoppedBy
        (tooLong limits.name (c :: cs).length .nameTooLong) := by
  have hrun : ∀ d ∈ c :: cs, continuesName d = true := by
    simpa using ⟨continuesName_of_startsName hc, hcs⟩
  rw [token, if_pos hc, word_run hrun fun d hd => continuesName_of_isBlank (hx d hd)]
  refine told_checked hlimit fun _ => ?_
  rw [told, h.said_onText hx]

/-! ### Numbers -/

lemma digitsValue_append (a b : List Char) :
    digitsValue (a ++ b) = digitsValue a * 10 ^ b.length + digitsValue b := by
  -- the digits are read from the first on, so the induction is over what has been read so far
  have hread (n : Nat) : b.foldl (fun n c => 10 * n + (Text.digitValue? c).getD 0) n =
      n * 10 ^ b.length + digitsValue b := by
    unfold digitsValue
    induction b generalizing n with
    | nil => simp
    | cons c b ih =>
      rw [List.foldl_cons, List.foldl_cons, ih, ih (10 * 0 + _), List.length_cons]
      ring
  unfold digitsValue
  rw [List.foldl_append]
  exact hread _

lemma digitsValue_toDigits (n : Nat) : digitsValue (Nat.toDigits 10 n) = n := by
  have hdigit {c : Char} (hc : c ∈ Nat.toDigits 10 n) :
    (Text.digitValue? c).getD 0 = c.toNat - '0'.toNat := by
    rw [digitValue?_of_isDigit (Nat.isDigit_of_mem_toDigits (by decide) (by decide) hc)]
    rfl
  calc digitsValue (Nat.toDigits 10 n)
      = Nat.ofDigitChars 10 (Nat.toDigits 10 n) 0 :=
        List.foldl_ext _ _ _ fun m c hc => by rw [hdigit hc]
    _ = n := Nat.ofDigitChars_toDigits (by decide) (by decide)

lemma floatValue_eq {value places : Nat} {x : Float} (h : floatValue value places = .ok x) :
    x = quotient value places := by
  unfold floatValue at h
  split at h
  · cases h
  · cases h
  · rename_i hvalue
    cases h
    unfold wholeFloat? at hvalue
    dsimp only at hvalue
    split at hvalue
    · cases hvalue
    · cases hvalue
      rfl

lemma numberExceeds_of_ne {k : Lexer} (h : k.ahead ≠ some '.') (size : Nat) :
    numberExceeds limit size k = Limits.exceeded limit size := by
  simp [numberExceeds, h]

lemma isDigit_of_isBlank (h : Text.isBlank c = true) : Text.isDigit c = false := by
  cases hd : Text.isDigit c with
  | false => rfl
  | true => rw [isBlank_of_continuesName (continuesName_of_isDigit hd)] at h; cases h

lemma ne_return_of_isDigit (h : Text.isDigit c = true) : c ≠ '\r' := by
  rintro rfl
  exact absurd h (by decide)

lemma token_of_isDigit (h : Text.isDigit c = true) (k : Lexer) :
    token limits c k = number limits k := by
  unfold token
  rw [if_neg (by simp [startsName_of_isDigit h]), if_pos h]

/-- A number with a fraction that is within the limit stands for a float. -/
lemma number_float (hlimit : 0 ≤ limits.number) (hrange : limits.number ≤ 308)
    (hrun : ∀ d ∈ c :: run, Text.isDigit d = true) (fraction : Digits)
    (hx : ∀ d ∈ x.head?, Text.isDigit d = false) (p : Position) :
    number limits ⟨some c, ⟨run ++ '.' :: (fraction.chars ++ x), p⟩⟩ =
      if numberExceeds limits.number ((c :: run).length + fraction.chars.length)
          (onText x ((run ++ '.' :: fraction.chars).foldl Position.after p)) then
        .error (.flawed (.numberTooLong limits.number) p)
      else
        .ok (.float (quotient (digitsValue (c :: run ++ fraction.chars)) fraction.chars.length),
          onText x ((run ++ '.' :: fraction.chars).foldl Position.after p)) := by
  rw [number_fraction hrun fraction.isDigit fraction.ne_nil hx]
  by_cases hearly : numberExceeds limits.number (c :: run).length
      (onText ('.' :: (fraction.chars ++ x)) (run.foldl Position.after p)) = true
  · -- the dot itself is refused, and at least one digit stands behind it
    have hsome : 0 < fraction.chars.length := List.length_pos_of_ne_nil fraction.ne_nil
    have hlong : limits.number < ((c :: run).length + fraction.chars.length : Nat) := by
      have hlimits := (numberExceeds_iff hlimit).1 hearly
      omega
    rw [if_pos hearly, if_pos ((numberExceeds_iff hlimit).2 (.inl hlong))]
  · rw [if_neg hearly]
    split
    · rfl
    · rename_i hfits
      have hsize := size_le_of_not_exceeds hlimit hfits
      obtain ⟨v, hv⟩ : ∃ v, floatValue (digitsValue (c :: run ++ fraction.chars))
        fraction.chars.length = .ok v :=
        floatValue_ok (by rw [List.length_append]; omega) (by omega)
      rw [hv, ← floatValue_eq hv]
      rfl

lemma told_int (hlimit : 0 ≤ limits.number) (run : Digits) (hx : Detached x) (h : Says limits x S)
    (p : Position) :
    told limits (number limits (onText (run.chars ++ x) p)) =
      (S.after [.int (digitsValue run.chars)]).stoppedBy
        (tooLong limits.number run.chars.length .numberTooLong) := by
  obtain ⟨c, cs, hrun⟩ := List.exists_cons_of_ne_nil run.ne_nil
  have hdigits : ∀ d ∈ c :: cs, Text.isDigit d = true := hrun ▸ run.isDigit
  have hdot : ∀ d y, x = '.' :: d :: y → Text.isDigit d = false := by
    rintro d y rfl
    exact absurd rfl (hx.head?_ne (c := '.') (by decide))
  rw [hrun, List.cons_append, onText_cons (ne_return_of_isDigit (hdigits c List.mem_cons_self)),
    number_whole hdigits (fun d hd => isDigit_of_isBlank (hx d hd)) hdot,
    numberExceeds_of_ne (ahead_onText_ne hx (by decide) _)]
  refine told_checked hlimit fun _ => ?_
  rw [told, h.said_onText hx]

lemma told_float (hlimit : 0 ≤ limits.number) (hrange : limits.number ≤ 308)
    (whole fraction : Digits) (hx : Detached x) (h : Says limits x S) (p : Position) :
    told limits (number limits (onText (whole.chars ++ '.' :: (fraction.chars ++ x)) p)) =
      (S.after [(Piece.float whole fraction).lexeme]).stoppedBy
        ((Piece.float whole fraction).flaw? limits) := by
  obtain ⟨c, cs, hwhole⟩ := List.exists_cons_of_ne_nil whole.ne_nil
  have hdigits : ∀ d ∈ c :: cs, Text.isDigit d = true := hwhole ▸ whole.isDigit
  simp only [Piece.flaw?, Piece.lexeme]
  rw [hwhole, List.cons_append, onText_cons (ne_return_of_isDigit (hdigits c List.mem_cons_self)),
    number_float hlimit hrange hdigits fraction (fun d hd => isDigit_of_isBlank (hx d hd)),
    numberExceeds_of_ne (ahead_onText_ne hx (by decide) _)]
  refine told_checked hlimit fun _ => ?_
  rw [told, h.said_onText hx, digitsValue_append]

/-! ### Strings -/

lemma stringBody_escaped {room : Int} {opened : Position} {text : List Char} (hroom : 0 ≤ room)
    (chars : List Char) (p : Position) :
    ∃ p', stringBody limit opened room chars ⟨text.flatMap escaped ++ '"' :: x, p⟩ =
      if room < text.length then .error (.flawed (.stringTooLong limit) opened)
      else .ok (chars.reverse ++ text, ⟨x, p'⟩) := by
  induction text generalizing room chars p with
  | nil =>
    refine ⟨p.after '"', ?_⟩
    rw [if_neg (by simpa using hroom)]
    simpa using stringBody_of_close (next?_cons (by decide) x p)
  | cons c text ih =>
    -- one character of the string, one or two of the text
    have hread : ∃ q, stringBody limit opened room chars ⟨(c :: text).flatMap escaped ++ '"' :: x,
      p⟩ =
        if room = 0 then .error (.flawed (.stringTooLong limit) opened)
        else stringBody limit opened (room - 1) (c :: chars) ⟨text.flatMap escaped ++ '"' :: x,
          q⟩ := by
      rw [List.flatMap_cons, List.append_assoc]
      rcases escaped_cases c with ⟨e, hescaped, he, hreturn⟩ | ⟨hescaped, hquote, hslash, hreturn⟩
      · rw [hescaped]
        refine ⟨(p.after '\\').after e, ?_⟩
        simp only [List.cons_append, List.nil_append]
        rw [stringBody_of_escape (next?_cons (by decide) _ _) (next?_cons hreturn _ _)]
        simp only [he]
      · rw [hescaped]
        refine ⟨p.after c, ?_⟩
        exact stringBody_of_other (next?_cons hreturn _ _) hquote hslash
    obtain ⟨q, hq⟩ := hread
    by_cases hfull : room = 0
    · refine ⟨p, ?_⟩
      rw [hq, if_pos hfull, if_pos (by simp [hfull])]
    · obtain ⟨p', hp'⟩ := ih (show 0 ≤ room - 1 by omega) (c :: chars) q
      refine ⟨p', ?_⟩
      rw [hq, if_neg hfull, hp']
      have hlength : room - 1 < text.length ↔ room < (c :: text).length := by
        rw [List.length_cons]
        omega
      simp only [hlength, List.reverse_cons, List.append_assoc, List.cons_append, List.nil_append]

lemma told_string (hlimit : 0 ≤ limits.string) (text : String) (h : Says limits x S)
    (p : Position) :
    told limits (token limits '"' (onText ('"' :: (text.toList.flatMap escaped ++ '"' :: x)) p)) =
      (S.after [.string text]).stoppedBy (tooLong limits.string text.length .stringTooLong) := by
  obtain ⟨p', hbody⟩ : ∃ p', stringBody limits.string (p.after '"') limits.string []
      ⟨text.toList.flatMap escaped ++ '"' :: x, p.after '"'⟩ =
        if limits.string < text.toList.length then .error
          (.flawed (.stringTooLong limits.string) (p.after '"'))
        else .ok ([].reverse ++ text.toList, ⟨x, p'⟩) := stringBody_escaped hlimit [] _
  unfold token tooLong
  rw [if_neg (by decide), if_neg (by decide), if_pos rfl, onText_cons (by decide)]
  unfold string
  dsimp only
  rw [hbody, String.length_toList]
  by_cases hlong : limits.string < text.length
  · rw [if_pos hlong, if_pos hlong]
    rfl
  · rw [if_neg hlong, if_neg hlong]
    simp only [List.reverse_nil, List.nil_append, String.ofList_toList]
    exact h.told_labelled (.string text) p'

/-! ### Symbols -/

lemma told_single {m : Symbol} (hc : single? c = some m) (hx : Detached x) (h : Says limits x S)
    (p : Position) : told limits (token limits c (onText (c :: x) p)) = S.after [.symbol m] := by
  have hreturn : c ≠ '\r' := by rintro rfl; cases hc
  have hquote : c ≠ '"' := by rintro rfl; cases hc
  have halone : x.head?.bind (double? c) = none := by
    rw [Option.bind_eq_none_iff]
    exact fun d hd => double?_of_isBlank (hx d hd)
  rw [token_of_mark (continuesName_of_single? hc) hquote, symbol_of_single? hc hreturn halone]
  exact h.told_labelled (.symbol m) _

lemma told_double {m : Symbol} {d : Char} (hc : double? c d = some m) (h : Says limits x S)
    (p : Position) :
    told limits (token limits c (onText (c :: d :: x) p)) = S.after [.symbol m] := by
  have hquote : c ≠ '"' := by rintro rfl; cases hc
  rw [token_of_mark (continuesName_of_double? hc).1 hquote, symbol_of_double? hc]
  exact h.told_labelled (.symbol m) _

/-! ### All kinds of pieces -/

lemma says_word (hlimit : 0 ≤ limits.name) {cs : List Char} (hc : startsName c = true)
    (hcs : ∀ d ∈ cs, continuesName d = true) (hx : Detached x) (h : Says limits x S) :
    Says limits ((c :: cs) ++ x) ((S.after [wordLexeme (String.ofList (c :: cs))]).stoppedBy
      (tooLong limits.name (c :: cs).length .nameTooLong)) := by
  have hslash : c ≠ '/' := by
    rintro rfl
    exact absurd hc (by decide)
  exact says_of_token (isBlank_of_continuesName (continuesName_of_startsName hc))
    (fun h => hslash h.1)
    (told_word hlimit hc hcs hx h)

lemma says_number (hrun : ∀ c ∈ run, Text.isDigit c = true) (hne : run ≠ [])
    (h : ∀ p, told limits (number limits (onText (run ++ x) p)) = S) :
    Says limits (run ++ x) S := by
  obtain ⟨c, cs, rfl⟩ := List.exists_cons_of_ne_nil hne
  have hc : Text.isDigit c = true := hrun c List.mem_cons_self
  have hslash : c ≠ '/' := by
    rintro rfl
    exact absurd hc (by decide)
  refine says_of_token (isBlank_of_continuesName (continuesName_of_isDigit hc))
    (fun h => hslash h.1) fun p => ?_
  rw [token_of_isDigit hc]
  exact h p

lemma says_symbol (m : Symbol) (hx : Detached x) (h : Says limits x S) :
    Says limits (m.spelling.toList ++ x) (S.after [.symbol m]) := by
  rcases m.spelling_cases with ⟨c, hspelling, hc⟩ | ⟨c, d, hspelling, hc⟩
  · have hblank : Text.isBlank c = false := by
      unfold single? at hc
      split at hc <;> first | decide | cases hc
    rw [hspelling]
    exact says_of_token hblank (fun h => hx.head?_ne (by decide) h.2) (told_single hc hx h)
  · have hblank : Text.isBlank c = false := by
      unfold double? at hc
      split at hc <;> first | decide | cases hc
    have hslash : c ≠ '/' := by rintro rfl; cases hc
    rw [hspelling]
    exact says_of_token hblank (fun h => hslash h.1) (told_double hc h)

/-- Each piece is read as it was written, and then what is behind it. -/
lemma says_piece (hname : 0 ≤ limits.name) (hstring : 0 ≤ limits.string)
    (hnumber : 0 ≤ limits.number)
    (hrange : limits.number ≤ 308) (p : Piece) (hx : Detached x) (h : Says limits x S) :
    Says limits (p.spelling ++ x) ((S.after [p.lexeme]).stoppedBy (p.flaw? limits)) := by
  cases p with
  | keyword word =>
    obtain ⟨c, cs, hspelling, hc, hcs⟩ := word.spelling_eq_cons
    have hword := says_word hname hc hcs hx h
    rw [← hspelling, String.ofList_toList, String.length_toList, wordLexeme,
      word.ofSpelling?_spelling] at hword
    exact hword
  | symbol mark => exact says_symbol mark hx h
  | identifier name =>
    have hword := says_word hname name.starts name.continues hx h
    rw [wordLexeme, name.free] at hword
    exact hword
  | int value =>
    have hdigits : ∀ c ∈ Nat.toDigits 10 value, Text.isDigit c = true := fun c hc => by
      rw [Text.isDigit, digitValue?_of_isDigit
        (Nat.isDigit_of_mem_toDigits (by decide) (by decide) hc)]
      rfl
    have hint := says_number hdigits Nat.toDigits_ne_nil
      (told_int hnumber ⟨_, Nat.toDigits_ne_nil, hdigits⟩ hx h)
    rw [digitsValue_toDigits] at hint
    exact hint
  | float whole fraction =>
    rw [Piece.spelling, List.append_assoc, List.cons_append]
    exact says_number whole.isDigit whole.ne_nil (told_float hnumber hrange whole fraction hx h)
  | string text =>
    rw [Piece.spelling, List.cons_append, List.append_assoc, List.singleton_append]
    exact says_of_token (by decide) (fun h => absurd h.1 (by decide)) (told_string hstring text h)

end Lexer

/-! ## Every text -/

/-- The pieces before the first one that is too long, and what is wrong with that one. -/
def Piece.saying (limits : Limits) (ps : List Piece) : Said where
  lexemes := (ps.takeWhile fun p => (p.flaw? limits).isNone).map lexeme
  stopped := (ps.findSome? (flaw? limits)).map .inl

lemma Piece.saying_cons (limits : Limits) (p : Piece) (ps : List Piece) :
    saying limits (p :: ps) = ((saying limits ps).after [p.lexeme]).stoppedBy (p.flaw? limits) := by
  cases h : p.flaw? limits <;> simp [saying, Said.stoppedBy, Said.after, h]

/-- A text that spells pieces says these pieces up to the first one that is too long, whatever
blanks and comments stand between them. -/
theorem spelling_is_read_back {limits : Limits} (hname : 0 ≤ limits.name)
    (hstring : 0 ≤ limits.string)
    (hnumber : 0 ≤ limits.number) (hrange : limits.number ≤ 308) {ps : List Piece} {text : String}
    (h : Spells limits.comment ps text.toList) :
    (Tokens.ofString limits text).said = Piece.saying limits ps := by
  have hsays : Says limits text.toList (Piece.saying limits ps) := by
    generalize text.toList = x at h
    induction h with
    | nil => exact says_nil
    | last p =>
      rw [← List.append_nil p.spelling, Piece.saying_cons]
      exact says_piece hname hstring hnumber hrange p (by rintro c ⟨⟩) says_nil
    | cons p hc hgap _ ih =>
      rw [Piece.saying_cons]
      exact says_piece hname hstring hnumber hrange p (by rintro d ⟨⟩; exact hc)
        (says_blank hc (says_filler hgap ih))
  obtain ⟨k, hk, hsaid⟩ := hsays .start
  have hstart : (Lexer.ofString text).said limits =
      behind limits none (ofSource limits.comment ⟨text.toList, .start⟩) := said_of_settle rfl
  rw [← said_ofString, hstart, hk]
  exact hsaid

/-- A reserved word, a float and a string right at their limits, a name beyond its limit, and a
symbol. -/
def Piece.samples : List Piece :=
  [.keyword .if_,
    .float ⟨['1'], by decide, List.all_eq_true.1 (by decide)⟩
      ⟨['2', '5'], by decide, List.all_eq_true.1 (by decide)⟩,
    .string "a\"\n",
    .identifier ⟨'a', ['b', 'c'], by decide, List.all_eq_true.1 (by decide), by rfl⟩,
    .symbol .dot]

theorem spelling_is_read_back_samples :
    Spells 1 Piece.samples "if\t/*c*/1.25 \"a\\\"\\n\"\r\nabc .".toList ∧
      (Tokens.ofString ⟨2, 3, 1, 3, 50⟩ "if\t/*c*/1.25 \"a\\\"\\n\"\r\nabc .").said =
        ⟨[.keyword .if_, .float (quotient 125 2), .string "a\"\n"],
          some (.inl (.nameTooLong 2))⟩ := by
  have hspells : Spells 1 Piece.samples "if\t/*c*/1.25 \"a\\\"\\n\"\r\nabc .".toList := by
    have hcomment : Filler 1 ('/' :: '*' :: (['c'] ++ '*' :: '/' :: [])) :=
      .comment (by decide) (by decide) .nil
    have hfeed : Filler 1 ['\n'] := .blank (by decide) .nil
    exact .cons _ (by decide : Text.isBlank '\t' = true) hcomment
      (.cons _ (by decide : Text.isBlank ' ' = true) .nil
        (.cons _ (by decide : Text.isBlank '\r' = true) hfeed
          (.cons _ (by decide : Text.isBlank ' ' = true) .nil (.last _))))
  refine ⟨hspells, ?_⟩
  rw [spelling_is_read_back (by decide) (by decide) (by decide) (by decide) hspells]
  rfl

end AudLang
