import AudLang.Limits
import AudLang.Source.Significant
import AudLang.Text.Digit
import AudLang.Token

/-!
From source text to tokens.

The lexer holds one character that has been read but does not belong to a token yet.  Behind a
string or a symbol it is the next significant character; behind a name or a number it is simply the
next character, so that what directly follows a name or number is never taken for a comment.

Every token takes at least one character (`pending_next`), which is why `run` ends.
-/

set_option linter.unusedVariables false

namespace AudLang

/-- A source and the character read from it that no token has taken yet. -/
structure Lexer where
  ahead : Option Char
  source : Source
deriving Repr

namespace Lexer

variable {k k' : Lexer} {c : Char} {limits : Limits} {x : Lexeme}

/-- At the start of a text nothing has been read. -/
def ofString (s : String) : Lexer := ⟨none, .ofString s⟩

/-- The number of characters no token has taken yet. -/
def pending (k : Lexer) : Nat := k.source.rest.length + if k.ahead.isSome then 1 else 0

/-- Lets go of the character ahead and reads the next one. -/
def advance (k : Lexer) : Lexer :=
  match k.source.next? with
  | none => ⟨none, k.source⟩
  | some (c, s) => ⟨some c, s⟩

/-- Reads the next significant character. -/
def ofSource (limit : Int) (s : Source) : Except LexError Lexer :=
  match s.nextSignificant limit with
  | .error e => .error e
  | .ok (c?, t) => .ok ⟨c?, t⟩

/-- The longest run of characters ahead that satisfy `p`, and the lexer behind it. -/
def takeWhile (p : Char → Bool) (k : Lexer) : List Char × Lexer :=
  match h : k.ahead with
  | none => ([], k)
  | some c =>
    if p c then
      let (run, k') := takeWhile p k.advance
      (c :: run, k')
    else ([], k)
termination_by k.pending
decreasing_by
  unfold pending advance
  split
  · simp [h]
  · rename_i hn
    have := Source.length_next? hn
    simp [h]
    omega

/-! ## The four kinds of tokens -/

/-- May `c` open a name? -/
def startsName (c : Char) : Bool := Text.isLetter c || c == '_'

/-- May `c` continue a name? -/
def continuesName (c : Char) : Bool := Text.isAlphanumeric c || c == '_'

/-- The lexeme spelled by a word: a reserved word, or else a name. -/
def wordLexeme (word : String) : Lexeme :=
  match Keyword.ofSpelling? word with
  | some k => .keyword k
  | none => .identifier word

/-- Reads a name or a reserved word. -/
def word (limits : Limits) (k : Lexer) : Except LexError (Lexeme × Lexer) :=
  let (run, k') := k.takeWhile continuesName
  if Limits.exceeded limits.name run.length then
    .error (.flawed (.nameTooLong limits.name) k.source.position)
  else .ok (wordLexeme (String.ofList run), k')

/-- The number that decimal digits of any script spell. -/
def digitsValue (digits : List Char) : Nat :=
  digits.foldl (fun n c => 10 * n + (Text.digitValue? c).getD 0) 0

/-- The float nearest to a whole number; none beyond the range of floats. -/
def wholeFloat? (n : Nat) : Option Float :=
  let x := Float.ofScientific n false 0
  if x.isInf then none else some x

/-- The float of a literal: all its digits as one whole number, divided by the power of ten of its
fraction.  Either of the two may be beyond the range of floats. -/
def floatValue (value places : Nat) : Except Overflow Float :=
  match wholeFloat? (Nat.pow 10 places), wholeFloat? value with
  | none, _ => .error .scale
  | _, none => .error .digits
  | some _, some x => .ok (x / Float.pow 10.0 (Float.ofNat places))

/-- A number may not hold more digits than the limit, nor be followed by a dot when it holds exactly
as many. -/
def numberExceeds (limit : Int) (size : Nat) (k : Lexer) : Bool :=
  Limits.exceeded limit size || (limit == size && k.ahead == some '.')

/-- Reads a whole number, or a float when a dot and a further digit follow. -/
def number (limits : Limits) (k : Lexer) : Except LexError (Lexeme × Lexer) :=
  let (whole, k₁) := k.takeWhile Text.isDigit
  if numberExceeds limits.number whole.length k₁ then
    .error (.flawed (.numberTooLong limits.number) k.source.position)
  else if k₁.ahead = some '.' ∧ (k₁.source.peek?.any Text.isDigit) then
    let (fraction, k₂) := k₁.advance.takeWhile Text.isDigit
    if numberExceeds limits.number (whole.length + fraction.length) k₂ then
      .error (.flawed (.numberTooLong limits.number) k.source.position)
    else
      match floatValue (digitsValue (whole ++ fraction)) fraction.length with
      | .error what => .error (.overflow what)
      | .ok x => .ok (.float x, k₂)
  else .ok (.int (digitsValue whole), k₁)

/-- The character that an escape stands for. -/
def escape? : Char → Option Char
  | '"' => some '"'
  | '\\' => some '\\'
  | 'n' => some '\n'
  | 't' => some '\t'
  | 'r' => some '\r'
  | _ => none

/-- Reads the rest of a string that opened at `opened`, of which `chars` have been read (last one
first), up to its closing quote.  There is `room` for that many characters more; a room below zero
never runs out. -/
def stringBody (limit : Int) (opened : Position) (room : Int) (chars : List Char) (s : Source) :
    Except LexError (List Char × Source) :=
  match h : s.next? with
  | none => .error (.flawed .unterminatedString opened)
  | some (c, t) =>
    if c = '"' then .ok (chars.reverse, t)
    else if c = '\\' then
      match h' : t.next? with
      | none => .error (.flawed .unterminatedString opened)
      | some (e, u) =>
        match escape? e with
        | none => .error (.flawed (.badEscape (String.singleton e)) opened)
        | some d =>
          if room = 0 then .error (.flawed (.stringTooLong limit) opened)
          else stringBody limit opened (room - 1) (d :: chars) u
    else if room = 0 then .error (.flawed (.stringTooLong limit) opened)
    else stringBody limit opened (room - 1) (c :: chars) t
termination_by s.rest.length
decreasing_by
  · exact Nat.lt_trans (Source.length_next? h') (Source.length_next? h)
  · exact Source.length_next? h

/-- Reads a string whose opening quote is ahead. -/
def string (limits : Limits) (k : Lexer) : Except LexError (Lexeme × Lexer) :=
  match stringBody limits.string k.source.position limits.string [] k.source with
  | .error e => .error e
  | .ok (chars, s) =>
    match ofSource limits.comment s with
    | .error e => .error e
    | .ok k' => .ok (.string (String.ofList chars), k')

/-- The symbol of one character. -/
def single? : Char → Option Symbol
  | '=' => some .assign | '<' => some .lt | '>' => some .gt
  | '+' => some .plus | '-' => some .minus | '*' => some .times | '/' => some .divide
  | '(' => some .lparen | ')' => some .rparen
  | '\x7b' => some .lbrace | '\x7d' => some .rbrace
  | '[' => some .lbracket | ']' => some .rbracket
  | ',' => some .comma | ';' => some .semicolon | '.' => some .dot
  | _ => none

/-- The symbol of two characters. -/
def double? : Char → Char → Option Symbol
  | '=', '=' => some .eq
  | '!', '=' => some .ne
  | '<', '=' => some .le
  | '>', '=' => some .ge
  | '&', '&' => some .and_
  | '|', '|' => some .or_
  | _, _ => none

/-- Reads a symbol that opens with `c`, taking two characters when they make one. -/
def symbol (limits : Limits) (c : Char) (k : Lexer) : Except LexError (Lexeme × Lexer) :=
  match k.source.peek?.bind (double? c) with
  | some m =>
    match ofSource limits.comment k.advance.source with
    | .error e => .error e
    | .ok k' => .ok (.symbol m, k')
  | none =>
    match single? c with
    | some m =>
      match ofSource limits.comment k.source with
      | .error e => .error e
      | .ok k' => .ok (.symbol m, k')
    | none =>
      -- the three characters that only open symbols of two are named once, all others twice
      let shown :=
        if c = '!' ∨ c = '&' ∨ c = '|' then String.singleton c else s!"Invalid character: {c}"
      .error (.flawed (.badCharacter shown) k.source.position)

/-- Reads the token that opens with the character `c` ahead. -/
def token (limits : Limits) (c : Char) (k : Lexer) : Except LexError (Lexeme × Lexer) :=
  if startsName c then word limits k
  else if Text.isDigit c then number limits k
  else if c = '"' then string limits k
  else symbol limits c k

/-- Reads on to a significant character unless one is ahead already. -/
def settle (limits : Limits) (k : Lexer) : Except LexError Lexer :=
  if k.ahead.all Text.isBlank then ofSource limits.comment k.source else .ok k

/-- The next token and the lexer behind it; at the end of the text, the lexer alone. -/
def next (limits : Limits) (k : Lexer) : Except LexError (Option Token × Lexer) :=
  match settle limits k with
  | .error e => .error e
  | .ok k₁ =>
    match k₁.ahead with
    | none => .ok (none, k₁)
    | some c =>
      match token limits c k₁ with
      | .error e => .error e
      | .ok (lexeme, k₂) => .ok (some ⟨lexeme, k₁.source.position⟩, k₂)

/-! ## Every token takes a character -/

theorem pending_advance (h : k.ahead = some c) : k.advance.pending < k.pending := by
  unfold pending advance
  split
  · simp [h]
  · rename_i hn
    have := Source.length_next? hn
    simp [h]
    omega

theorem pending_ofSource {limit : Int} {s : Source} (h : ofSource limit s = .ok k) :
    k.pending ≤ s.rest.length := by
  unfold ofSource at h
  split at h
  · nomatch h
  · rename_i hs
    injection h with h
    subst h
    exact Source.length_nextSignificant hs

theorem pending_takeWhile (p : Char → Bool) (k : Lexer) :
    (k.takeWhile p).2.pending ≤ k.pending := by
  fun_induction takeWhile p k with
  | case1 => exact Nat.le_refl _
  | case2 k c h hp run k' hk ih =>
    rw [hk] at ih
    exact Nat.le_of_lt (Nat.lt_of_le_of_lt ih (pending_advance h))
  | case3 => exact Nat.le_refl _

/-- A run that holds the character ahead takes it. -/
theorem pending_takeWhile_lt {p : Char → Bool} (h : k.ahead = some c) (hp : p c = true) :
    (k.takeWhile p).2.pending < k.pending := by
  rw [takeWhile]
  split
  · rename_i hn
    rw [h] at hn
    nomatch hn
  · rename_i d hd
    rw [h] at hd
    injection hd with hd
    subst hd
    rw [if_pos hp]
    exact Nat.lt_of_le_of_lt (pending_takeWhile p k.advance) (pending_advance h)

theorem length_stringBody {limit room : Int} {opened : Position} {chars out : List Char}
    {s t : Source}
    (h : stringBody limit opened room chars s = .ok (out, t)) : t.rest.length < s.rest.length := by
  fun_induction stringBody limit opened room chars s with
  | case1 => nomatch h
  | case2 room chars s t' hn =>
    injection h with h
    injection h with _ h
    subst h
    exact Source.length_next? hn
  | case3 => nomatch h
  | case4 => nomatch h
  | case5 => nomatch h
  | case6 room chars s t' e u hu d he _ hn _ ih =>
    exact Nat.lt_trans (ih h) (Nat.lt_trans (Source.length_next? hu) (Source.length_next? hn))
  | case7 => nomatch h
  | case8 room chars s c t' hn _ _ _ ih => exact Nat.lt_trans (ih h) (Source.length_next? hn)

theorem pending_word (hc : k.ahead = some c) (hp : continuesName c = true)
    (h : word limits k = .ok (x, k')) : k'.pending < k.pending := by
  unfold word at h
  dsimp only at h
  split at h
  · nomatch h
  · injection h with h
    injection h with _ h
    subst h
    exact pending_takeWhile_lt hc hp

theorem pending_number (hc : k.ahead = some c) (hp : Text.isDigit c = true)
    (h : number limits k = .ok (x, k')) : k'.pending < k.pending := by
  have hw := pending_takeWhile_lt hc hp
  unfold number at h
  dsimp only at h
  split at h
  · nomatch h
  · split at h
    · rename_i hd
      split at h
      · nomatch h
      · split at h
        · nomatch h
        · injection h with h
          injection h with _ h
          subst h
          have := pending_takeWhile Text.isDigit (k.takeWhile Text.isDigit).2.advance
          have := pending_advance hd.1
          omega
    · injection h with h
      injection h with _ h
      subst h
      exact hw

theorem pending_string (hc : k.ahead = some c) (h : string limits k = .ok (x, k')) :
    k'.pending < k.pending := by
  unfold string at h
  split at h
  · nomatch h
  · rename_i hb
    split at h
    · nomatch h
    · rename_i hs
      injection h with h
      injection h with _ h
      subst h
      have := length_stringBody hb
      have := pending_ofSource hs
      simp only [pending, hc] at *
      omega

theorem pending_symbol {d : Char} (hc : k.ahead = some d) (h : symbol limits c k = .ok (x, k')) :
    k'.pending < k.pending := by
  have ha := pending_advance hc
  unfold symbol at h
  split at h
  · split at h
    · cases h
    · rename_i hs
      injection h with h
      injection h with _ h
      subst h
      have := pending_ofSource hs
      simp only [pending] at *
      omega
  · split at h
    · split at h
      · cases h
      · rename_i hs
        injection h with h
        injection h with _ h
        subst h
        have := pending_ofSource hs
        simp only [pending, hc] at *
        simp
        omega
    · cases h

/-- What may open a name may continue it. -/
theorem continuesName_of_startsName (h : startsName c = true) : continuesName c = true := by
  simp only [startsName, continuesName, Bool.or_eq_true] at *
  rcases h with h | h
  · left
    unfold Text.isAlphanumeric
    unfold Text.isLetter at h
    split at h
    · rename_i ha
      simp [ha, Char.isAlphanum, h]
    · rename_i ha
      simp [ha, Text.isLetter, h]
  · exact Or.inr h

theorem pending_token (hc : k.ahead = some c) (h : token limits c k = .ok (x, k')) :
    k'.pending < k.pending := by
  unfold token at h
  split at h
  · rename_i hs
    exact pending_word hc (continuesName_of_startsName hs) h
  · split at h
    · rename_i hd
      exact pending_number hc hd h
    · split at h
      · exact pending_string hc h
      · exact pending_symbol hc h

theorem pending_settle (h : settle limits k = .ok k') : k'.pending ≤ k.pending := by
  unfold settle at h
  split at h
  · have := pending_ofSource h
    simp only [pending] at *
    omega
  · injection h with h
    subst h
    exact Nat.le_refl _

/-- A token leaves fewer characters behind than were there before it. -/
theorem pending_next {t : Token} (h : next limits k = .ok (some t, k')) :
    k'.pending < k.pending := by
  unfold next at h
  split at h
  · nomatch h
  · rename_i hs
    split at h
    · nomatch h
    · rename_i hc
      split at h
      · nomatch h
      · rename_i ht
        injection h with h
        injection h with _ h
        subst h
        exact Nat.lt_of_lt_of_le (pending_token hc ht) (pending_settle hs)

/-! ## All tokens -/

/-- The tokens from here on, each with the lexer behind it, and either the place where the text ends
or the error that stopped the lexer. -/
def run (limits : Limits) (k : Lexer) : List (Token × Lexer) × Except LexError Position :=
  match h : next limits k with
  | .error e => ([], .error e)
  | .ok (none, k') => ([], .ok k'.source.position)
  | .ok (some t, k') =>
    let (more, stop) := run limits k'
    ((t, k') :: more, stop)
termination_by k.pending
decreasing_by exact pending_next h

end Lexer

/-- A text as tokens: all of them with the place of the end, or those before the first error. -/
structure Tokens where
  tokens : List Token
  stop : Except LexError Position
deriving Repr

/-- The tokens of a text. -/
def Tokens.ofString (limits : Limits) (text : String) : Tokens :=
  let (steps, stop) := (Lexer.ofString text).run limits
  ⟨steps.map (·.1), stop⟩

end AudLang
