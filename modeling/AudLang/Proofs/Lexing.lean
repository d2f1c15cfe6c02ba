import AudLang.Token.Lexer
import Mathlib.Data.List.Forall2

/-!
What a text says, and what that depends on.

Reading takes one character after the other.  Two sources from which the same characters are read,
whatever else is different about them, so give the same lexemes and are stopped by the same flaw.
-/

namespace AudLang

variable {e : LexError} {limit : Int}

/-! ## Sayings -/

/-- What is wrong, without the place. -/
def LexError.what : LexError → LexFlaw ⊕ Overflow
  | flawed flaw _ => .inl flaw
  | overflow what => .inr what

/-- The lexemes of a text, and what stopped them before its end. -/
structure Said where
  lexemes : List Lexeme
  stopped : Option (LexFlaw ⊕ Overflow)

/-- The same with lexemes in front. -/
def Said.after (s : Said) (xs : List Lexeme) : Said := { s with lexemes := xs ++ s.lexemes }

lemma Said.after_nil (s : Said) : s.after [] = s := rfl

lemma Said.after_after (s : Said) (xs ys : List Lexeme) :
    (s.after ys).after xs = s.after (xs ++ ys) := by
  simp [after]

/-- What a text says. -/
def Tokens.said (t : Tokens) : Said where
  lexemes := t.tokens.map (·.lexeme)
  stopped := match t.stop with
    | .ok _ => none
    | .error e => some e.what

namespace Lexer

/-- What is said from a lexer on. -/
def said (limits : Limits) (k : Lexer) : Said where
  lexemes := (k.run limits).1.map (·.1.lexeme)
  stopped := match (k.run limits).2 with
    | .ok _ => none
    | .error e => some e.what

lemma said_ofString (limits : Limits) (s : String) :
    (Lexer.ofString s).said limits = (Tokens.ofString limits s).said := by
  simp [said, Tokens.said, Tokens.ofString]

variable {limits : Limits} {k k' : Lexer}

/-- The next token is read behind a gap; where there is none, there is only the gap. -/
lemma next_ok {t? : Option Token} (h : next limits k = .ok (t?, k')) :
    ∃ k₁, settle limits k = .ok k₁ ∧
      (k₁.ahead = none ∧ t? = none ∧ k' = k₁ ∨
        ∃ c x, k₁.ahead = some c ∧ token limits c k₁ = .ok (x, k') ∧
          t? = some ⟨x, k₁.source.position⟩) := by
  unfold next at h
  split at h
  · cases h
  rename_i k₁ hs
  refine ⟨k₁, hs, ?_⟩
  split at h
  · rename_i hk
    cases h
    exact .inl ⟨hk, rfl, rfl⟩
  rename_i c hk
  split at h
  · cases h
  rename_i ht
  cases h
  exact .inr ⟨c, _, hk, ht, rfl⟩

lemma run_of_error (h : next limits k = .error e) : k.run limits = ([], .error e) := by
  rw [run]
  split <;> simp_all

lemma run_of_end (h : next limits k = .ok (none, k')) :
    k.run limits = ([], .ok k'.source.position) := by
  rw [run]
  split <;> simp_all

lemma run_of_token {t : Token} (h : next limits k = .ok (some t, k')) :
    k.run limits = ((t, k') :: (k'.run limits).1, (k'.run limits).2) := by
  rw [run]
  split <;> simp_all

lemma said_of_error (h : next limits k = .error e) : k.said limits = ⟨[], some e.what⟩ := by
  simp [said, run_of_error h]

lemma said_of_end (h : next limits k = .ok (none, k')) : k.said limits = ⟨[], none⟩ := by
  simp [said, run_of_end h]

lemma said_of_token {t : Token} (h : next limits k = .ok (some t, k')) :
    k.said limits = (k'.said limits).after [t.lexeme] := by
  simp [said, run_of_token h, Said.after]

/-- What is said depends on the next token alone. -/
lemma said_congr (h : next limits k = next limits k') : k.said limits = k'.said limits := by
  cases hk : next limits k with
  | error e => rw [said_of_error hk, said_of_error (h.symm.trans hk)]
  | ok a =>
    obtain ⟨t?, k₁⟩ := a
    cases t? with
    | none => rw [said_of_end hk, said_of_end (h.symm.trans hk)]
    | some t => rw [said_of_token hk, said_of_token (h.symm.trans hk)]

end Lexer

/-! ## Agreement -/

/-- The errors are the same but for their places, which `P` relates. -/
inductive LexError.Like (P : Position → Position → Prop) : LexError → LexError → Prop
  | flawed (flaw : LexFlaw) {p p' : Position} (h : P p p') :
      Like P (.flawed flaw p) (.flawed flaw p')
  | overflow (what : Overflow) : Like P (.overflow what) (.overflow what)

/-- Both readings succeed with results that `R` relates, or both fail with such errors. -/
inductive Agree (P : Position → Position → Prop) {α β : Type} (R : α → β → Prop) :
    Except LexError α → Except LexError β → Prop
  | ok {a : α} {b : β} (h : R a b) : Agree P R (.ok a) (.ok b)
  | error {e e' : LexError} (h : e.Like P e') : Agree P R (.error e) (.error e')

lemma LexError.Like.what_eq {P : Position → Position → Prop} {e' : LexError} (h : e.Like P e') :
    e.what = e'.what := by
  cases h <;> rfl

lemma Agree.eq {α : Type} {a b : Except LexError α} (h : Agree Eq Eq a b) : a = b := by
  cases h with
  | ok h => rw [h]
  | error h =>
    cases h with
    | flawed flaw h => rw [h]
    | overflow what => rfl

/-! ## The rules of reading -/

namespace Source

/-- The first character of a text, its line end folded, and the text behind it. -/
def foldedHead? : List Char → Option (Char × List Char)
  | [] => none
  | '\r' :: '\n' :: r => some ('\n', r)
  | '\r' :: r => some ('\n', r)
  | c :: r => some (c, r)

/-- What is read depends on the text alone. -/
lemma next?_eq (s : Source) :
    s.next? = (foldedHead? s.rest).map fun x => (x.1, ⟨x.2, s.position.after x.1⟩) := by
  unfold next? foldedHead?
  split <;> simp_all

variable {opened : Position} {seen : Nat} {s s' t u : Source} {c d : Char}

lemma next?_eq_some : s.next? = some (c, t) ↔
    foldedHead? s.rest = some (c, t.rest) ∧ t.position = s.position.after c := by
  obtain ⟨r, p⟩ := t
  rw [next?_eq, Option.map_eq_some_iff]
  constructor
  · rintro ⟨⟨d, x⟩, hx, h⟩
    cases h
    exact ⟨hx, rfl⟩
  · rintro ⟨hx, rfl⟩
    exact ⟨(c, r), hx, rfl⟩

lemma next?_cons (hc : c ≠ '\r') (x : List Char) (p : Position) :
    next? ⟨c :: x, p⟩ = some (c, ⟨x, p.after c⟩) := by
  refine next?_eq_some.2 ⟨?_, rfl⟩
  unfold foldedHead?
  split <;> simp_all

lemma next?_return {x : List Char} (hx : x.head? ≠ some '\n') (p : Position) :
    next? ⟨'\r' :: x, p⟩ = some ('\n', ⟨x, p.after '\n'⟩) := by
  refine next?_eq_some.2 ⟨?_, rfl⟩
  unfold foldedHead?
  split <;> grind

lemma next?_eq_none : s.next? = none ↔ s.rest = [] := by
  unfold next?
  split <;> simp_all

lemma peek?_eq_head? (s : Source) : s.peek? = s.rest.head? := by
  simp [peek?, List.head?_eq_getElem?]

/-- A character that is seen ahead can be read. -/
lemma exists_next?_of_peek? (h : s.peek? = some c) : ∃ d t, s.next? = some (d, t) := by
  cases hn : s.next? with
  | some x => exact ⟨x.1, x.2, rfl⟩
  | none =>
    rw [peek?_eq_head?, next?_eq_none.1 hn] at h
    cases h

/-- What is read is what is seen, unless it is a line end. -/
lemma peek?_of_next? (h : s.next? = some (c, t)) :
    s.peek? = some c ∨ c = '\n' ∧ s.peek? = some '\r' := by
  have hread := (next?_eq_some.1 h).1
  rw [peek?_eq_head?]
  unfold foldedHead? at hread
  split at hread <;> cases hread <;> simp_all

lemma skipComment_of_end (h : s.next? = none) :
    skipComment limit opened seen s = .error (.flawed .unterminatedComment opened) := by
  rw [skipComment]
  split <;> simp_all

lemma skipComment_of_close (h : s.next? = some ('*', t)) (hp : t.peek? = some '/')
    (hu : t.next? = some (d, u)) : skipComment limit opened seen s = .ok u := by
  rw [skipComment]
  split <;> simp_all

lemma skipComment_of_other (h : s.next? = some (c, t)) (hc : ¬(c = '*' ∧ t.peek? = some '/')) :
    skipComment limit opened seen s =
      if limit < seen + 1 then .error (.flawed (.commentTooLong limit) opened)
      else skipComment limit opened (seen + 1) t := by
  rw [skipComment]
  split <;> simp_all

lemma nextSignificant_of_end (h : s.next? = none) : nextSignificant limit s = .ok (none, s) := by
  rw [nextSignificant]
  split <;> simp_all

lemma nextSignificant_of_blank (h : s.next? = some (c, t)) (hc : Text.isBlank c = true) :
    nextSignificant limit s = nextSignificant limit t := by
  rw [nextSignificant]
  split <;> simp_all

lemma nextSignificant_of_comment (h : s.next? = some ('/', t)) (hp : t.peek? = some '*')
    (hu : t.next? = some (d, u)) :
    nextSignificant limit s =
      match skipComment limit u.position 0 u with
      | .error e => .error e
      | .ok v => nextSignificant limit v := by
  have hslash : Text.isBlank '/' = false := by decide
  rw [nextSignificant]
  split
  · simp_all
  · rename_i hs
    cases h.symm.trans hs
    rw [if_neg (by simp [hslash]), if_pos ⟨rfl, hp⟩]
    split
    · simp_all
    · rename_i hv
      cases hu.symm.trans hv
      split <;> simp_all

lemma nextSignificant_of_other (h : s.next? = some (c, t)) (hc : Text.isBlank c = false)
    (hp : ¬(c = '/' ∧ t.peek? = some '*')) : nextSignificant limit s = .ok (some c, t) := by
  rw [nextSignificant]
  split
  · simp_all
  · rename_i hs
    cases h.symm.trans hs
    rw [if_neg (by simp [hc]), if_neg hp]

end Source

namespace Lexer

open Source

variable {room : Int} {opened : Position} {chars : List Char} {s t u : Source} {c e : Char}

lemma stringBody_of_end (h : s.next? = none) :
    stringBody limit opened room chars s = .error (.flawed .unterminatedString opened) := by
  rw [stringBody]
  split <;> simp_all

lemma stringBody_of_close (h : s.next? = some ('"', t)) :
    stringBody limit opened room chars s = .ok (chars.reverse, t) := by
  rw [stringBody]
  split <;> simp_all

lemma stringBody_of_escape_end (h : s.next? = some ('\\', t)) (ht : t.next? = none) :
    stringBody limit opened room chars s = .error (.flawed .unterminatedString opened) := by
  rw [stringBody]
  split
  · simp_all
  · rename_i hs
    cases h.symm.trans hs
    rw [if_neg (by decide), if_pos rfl]
    split <;> simp_all

lemma stringBody_of_escape (h : s.next? = some ('\\', t)) (ht : t.next? = some (e, u)) :
    stringBody limit opened room chars s =
      match escape? e with
      | none => .error (.flawed (.badEscape (String.singleton e)) opened)
      | some d =>
        if room = 0 then .error (.flawed (.stringTooLong limit) opened)
        else stringBody limit opened (room - 1) (d :: chars) u := by
  rw [stringBody]
  split
  · simp_all
  · rename_i hs
    cases h.symm.trans hs
    rw [if_neg (by decide), if_pos rfl]
    split
    · simp_all
    · rename_i hu
      cases ht.symm.trans hu
      rfl

lemma stringBody_of_other (h : s.next? = some (c, t)) (hc : c ≠ '"') (hc' : c ≠ '\\') :
    stringBody limit opened room chars s =
      if room = 0 then .error (.flawed (.stringTooLong limit) opened)
      else stringBody limit opened (room - 1) (c :: chars) t := by
  rw [stringBody]
  split <;> simp_all

lemma double?_lineEnd (c : Char) : double? c '\r' = double? c '\n' := by
  unfold double?
  split <;> simp_all

/-- A lexeme with the lexer behind it. -/
def labelled (x : Lexeme) : Except LexError Lexer → Except LexError (Lexeme × Lexer)
  | .error e => .error e
  | .ok k => .ok (x, k)

variable {p : Char → Bool} {k : Lexer}

lemma advance_of_end (h : k.source.next? = none) : k.advance = ⟨none, k.source⟩ := by
  unfold advance
  rw [h]

lemma advance_of_next? (h : k.source.next? = some (c, t)) : k.advance = ⟨some c, t⟩ := by
  unfold advance
  rw [h]

lemma takeWhile_of_none (h : k.ahead = none) : k.takeWhile p = ([], k) := by
  rw [takeWhile]
  split <;> simp_all

lemma takeWhile_of_neg (h : k.ahead = some c) (hc : p c = false) : k.takeWhile p = ([], k) := by
  rw [takeWhile]
  split <;> simp_all

lemma takeWhile_of_pos (h : k.ahead = some c) (hc : p c = true) :
    k.takeWhile p = (c :: (k.advance.takeWhile p).1, (k.advance.takeWhile p).2) := by
  rw [takeWhile]
  split <;> simp_all

end Lexer

/-! ## Sources that are read alike -/

/-- A relation that reading keeps: from sources that stand in it the same characters are read, at
places that `P` relates. -/
structure Twins (P : Position → Position → Prop) (R : Source → Source → Prop) : Prop where
  place : ∀ {s s'}, R s s' → P s.position s'.position
  ends : ∀ {s s'}, R s s' → s.next? = none → s'.next? = none
  goes : ∀ {s s' c t}, R s s' → s.next? = some (c, t) → ∃ t', s'.next? = some (c, t') ∧ R t t'

variable {P : Position → Position → Prop} {R : Source → Source → Prop}

namespace Source

variable {opened opened' : Position} {seen : Nat} {s s' t : Source} {c : Char} (hT : Twins P R)

include hT

/-- Only a line end can look different in the two. -/
lemma peek?_twins (h : R s s') {β : Type} (f : Option Char → β)
    (hf : f (some '\r') = f (some '\n')) : f s.peek? = f s'.peek? := by
  cases hn : s.next? with
  | none =>
    rw [peek?_eq_head?, peek?_eq_head?, next?_eq_none.1 hn, next?_eq_none.1 (hT.ends h hn)]
  | some x =>
    obtain ⟨t', hn', -⟩ := hT.goes h hn
    rcases peek?_of_next? hn with hs | ⟨hc, hs⟩ <;> rcases peek?_of_next? hn' with
      hs' | ⟨hc', hs'⟩ <;>
      simp_all

lemma skipComment_twins (limit : Int) (seen : Nat) (h : R s s') (hopened : P opened opened') :
    Agree P R (skipComment limit opened seen s) (skipComment limit opened' seen s') := by
  fun_induction skipComment limit opened seen s generalizing s' with
  | case1 seen s hn =>
    rw [skipComment_of_end (hT.ends h hn)]
    exact .error (.flawed _ hopened)
  | case2 seen s c t hn hc hu =>
    obtain ⟨d, u, hu'⟩ := exists_next?_of_peek? hc.2
    cases hu.symm.trans hu'
  | case3 seen s c t hn hc d u hu =>
    obtain ⟨t', hn', ht⟩ := hT.goes h hn
    obtain ⟨u', hu', hut⟩ := hT.goes ht hu
    have hp := peek?_twins hT ht (· = some '/') (by simp)
    rw [skipComment_of_close (by rw [hn', hc.1]) (hp.mp hc.2) hu']
    exact .ok hut
  | case4 seen s c t hn hc hlimit =>
    obtain ⟨t', hn', ht⟩ := hT.goes h hn
    have hp := peek?_twins hT ht (· = some '/') (by simp)
    rw [skipComment_of_other hn' fun hc' => hc ⟨hc'.1, hp.mpr hc'.2⟩, if_pos hlimit]
    exact .error (.flawed _ hopened)
  | case5 seen s c t hn hc hlimit ih =>
    obtain ⟨t', hn', ht⟩ := hT.goes h hn
    have hp := peek?_twins hT ht (· = some '/') (by simp)
    rw [skipComment_of_other hn' fun hc' => hc ⟨hc'.1, hp.mpr hc'.2⟩, if_neg hlimit]
    exact ih ht

/-- The same result in front of sources that stand in `R`. -/
def SameBefore {α : Type} (R : Source → Source → Prop) (a b : α × Source) : Prop :=
  a.1 = b.1 ∧ R a.2 b.2

lemma nextSignificant_twins (limit : Int) (h : R s s') :
    Agree P (SameBefore R) (nextSignificant limit s) (nextSignificant limit s') := by
  fun_induction nextSignificant limit s generalizing s' with
  | case1 s hn =>
    rw [nextSignificant_of_end (hT.ends h hn)]
    exact .ok ⟨rfl, h⟩
  | case2 s c t hn hc ih =>
    obtain ⟨t', hn', ht⟩ := hT.goes h hn
    rw [nextSignificant_of_blank hn' hc]
    exact ih ht
  | case3 s c t hn hc hp hu =>
    obtain ⟨d, u, hu'⟩ := exists_next?_of_peek? hp.2
    cases hu.symm.trans hu'
  | case4 s c t hn hc hp d u hu e he =>
    obtain ⟨t', hn', ht⟩ := hT.goes h hn
    obtain ⟨u', hu', hut⟩ := hT.goes ht hu
    have hp' := peek?_twins hT ht (· = some '*') (by simp)
    rw [nextSignificant_of_comment (s := s') (by rw [hn', hp.1]) (hp'.mp hp.2) hu']
    have hskip := skipComment_twins hT limit 0 hut (hT.place hut)
    rw [he] at hskip
    generalize skipComment limit u'.position 0 u' = r at hskip
    cases hskip with
    | error h => exact .error h
  | case5 s c t hn hc hp d u hu v hv ih =>
    obtain ⟨t', hn', ht⟩ := hT.goes h hn
    obtain ⟨u', hu', hut⟩ := hT.goes ht hu
    have hp' := peek?_twins hT ht (· = some '*') (by simp)
    rw [nextSignificant_of_comment (s := s') (by rw [hn', hp.1]) (hp'.mp hp.2) hu']
    have hskip := skipComment_twins hT limit 0 hut (hT.place hut)
    rw [hv] at hskip
    generalize skipComment limit u'.position 0 u' = r at hskip
    cases hskip with
    | ok hvv => exact ih hvv
  | case6 s c t hn hc hp =>
    obtain ⟨t', hn', ht⟩ := hT.goes h hn
    have hp' := peek?_twins hT ht (· = some '*') (by simp)
    rw [nextSignificant_of_other hn' (by simpa using hc) fun hc' => hp ⟨hc'.1, hp'.mpr hc'.2⟩]
    exact .ok ⟨rfl, ht⟩

end Source

namespace Lexer

open Source

/-- The same character ahead of sources that stand in `R`. -/
structure Paired (R : Source → Source → Prop) (k k' : Lexer) : Prop where
  ahead : k.ahead = k'.ahead
  source : R k.source k'.source

/-- One lexeme, and such lexers behind it. -/
def SameLexeme (R : Source → Source → Prop) (a b : Lexeme × Lexer) : Prop :=
  a.1 = b.1 ∧ Paired R a.2 b.2

variable {limits : Limits} {p : Char → Bool} {k k' : Lexer} {s s' : Source}

lemma numberExceeds_twins {size : Nat} (h : Paired R k k') :
    numberExceeds limit size k = numberExceeds limit size k' := by
  unfold numberExceeds
  rw [h.ahead]

variable (hT : Twins P R)

include hT

lemma ofSource_twins (limit : Int) (h : R s s') :
    Agree P (Paired R) (ofSource limit s) (ofSource limit s') := by
  have hnext := nextSignificant_twins hT limit h
  unfold ofSource
  generalize s.nextSignificant limit = a at hnext
  generalize s'.nextSignificant limit = b at hnext
  cases hnext with
  | ok h => exact .ok ⟨h.1, h.2⟩
  | error h => exact .error h

lemma advance_twins (h : Paired R k k') : Paired R k.advance k'.advance := by
  unfold advance
  cases hn : k.source.next? with
  | none =>
    rw [hT.ends h.source hn]
    exact ⟨rfl, h.source⟩
  | some x =>
    obtain ⟨t', hn', ht⟩ := hT.goes h.source hn
    rw [hn']
    exact ⟨rfl, ht⟩

lemma takeWhile_twins (h : Paired R k k') :
    (k.takeWhile p).1 = (k'.takeWhile p).1 ∧ Paired R (k.takeWhile p).2 (k'.takeWhile p).2 := by
  fun_induction takeWhile p k generalizing k' with
  | case1 k hk =>
    rw [takeWhile_of_none (h.ahead.symm.trans hk)]
    exact ⟨rfl, h⟩
  | case2 k c hk hc run k₁ hrun ih =>
    rw [takeWhile_of_pos (h.ahead.symm.trans hk) hc]
    have hmore := ih (advance_twins hT h)
    rw [hrun] at hmore
    exact ⟨congrArg (c :: ·) hmore.1, hmore.2⟩
  | case3 k c hk hc =>
    rw [takeWhile_of_neg (h.ahead.symm.trans hk) (by simpa using hc)]
    exact ⟨rfl, h⟩

lemma word_twins (h : Paired R k k') : Agree P (SameLexeme R) (word limits k) (word limits k') := by
  obtain ⟨hrun, hbehind⟩ := takeWhile_twins (p := continuesName) hT h
  unfold word
  dsimp only
  rw [← hrun]
  split
  · exact .error (.flawed _ (hT.place h.source))
  · exact .ok ⟨rfl, hbehind⟩

lemma number_twins (h : Paired R k k') :
    Agree P (SameLexeme R) (number limits k) (number limits k') := by
  obtain ⟨hwhole, hbehind⟩ := takeWhile_twins (p := Text.isDigit) hT h
  obtain ⟨hfraction, hend⟩ := takeWhile_twins (p := Text.isDigit) hT (advance_twins hT hbehind)
  unfold number
  dsimp only
  rw [← hwhole, ← hfraction, ← numberExceeds_twins hbehind, ← numberExceeds_twins hend,
    ← hbehind.ahead,
    ← peek?_twins hT hbehind.source (Option.any Text.isDigit) rfl]
  split
  · exact .error (.flawed _ (hT.place h.source))
  · split
    · split
      · exact .error (.flawed _ (hT.place h.source))
      · split
        · exact .error (.overflow _)
        · exact .ok ⟨rfl, hend⟩
    · exact .ok ⟨rfl, hbehind⟩

lemma stringBody_twins (limit room : Int) {opened opened' : Position} (chars : List Char)
    (h : R s s') (hopened : P opened opened') :
    Agree P (SameBefore R) (stringBody limit opened room chars s)
      (stringBody limit opened' room chars s') := by
  fun_induction stringBody limit opened room chars s generalizing s' with
  | case1 room chars s hn =>
    rw [stringBody_of_end (hT.ends h hn)]
    exact .error (.flawed _ hopened)
  | case2 room chars s t hn =>
    obtain ⟨t', hn', ht⟩ := hT.goes h hn
    rw [stringBody_of_close hn']
    exact .ok ⟨rfl, ht⟩
  | case3 room chars s t hu hn hc =>
    obtain ⟨t', hn', ht⟩ := hT.goes h hn
    rw [stringBody_of_escape_end hn' (hT.ends ht hu)]
    exact .error (.flawed _ hopened)
  | case4 room chars s t e u hu he hn hc =>
    obtain ⟨t', hn', ht⟩ := hT.goes h hn
    obtain ⟨u', hu', hut⟩ := hT.goes ht hu
    rw [stringBody_of_escape hn' hu', he]
    exact .error (.flawed _ hopened)
  | case5 chars s t e u hu d he hn hc =>
    obtain ⟨t', hn', ht⟩ := hT.goes h hn
    obtain ⟨u', hu', hut⟩ := hT.goes ht hu
    simp only [stringBody_of_escape hn' hu', he, if_pos]
    exact .error (.flawed _ hopened)
  | case6 room chars s t e u hu d he hroom hn hc ih =>
    obtain ⟨t', hn', ht⟩ := hT.goes h hn
    obtain ⟨u', hu', hut⟩ := hT.goes ht hu
    simp only [stringBody_of_escape hn' hu', he, if_neg hroom]
    exact ih hut
  | case7 chars s c t hn hc hc' =>
    obtain ⟨t', hn', ht⟩ := hT.goes h hn
    rw [stringBody_of_other hn' hc hc', if_pos rfl]
    exact .error (.flawed _ hopened)
  | case8 room chars s c t hn hc hc' hroom ih =>
    obtain ⟨t', hn', ht⟩ := hT.goes h hn
    rw [stringBody_of_other hn' hc hc', if_neg hroom]
    exact ih ht

/-- Reading on to the next significant character behind a lexeme. -/
lemma labelled_twins (x : Lexeme) (h : R s s') :
    Agree P (SameLexeme R) (labelled x (ofSource limit s)) (labelled x (ofSource limit s')) := by
  have hsource := ofSource_twins hT limit h
  generalize ofSource limit s = a at hsource
  generalize ofSource limit s' = b at hsource
  cases hsource with
  | ok h => exact .ok ⟨rfl, h⟩
  | error h => exact .error h

lemma string_twins (h : Paired R k k') :
    Agree P (SameLexeme R) (string limits k) (string limits k') := by
  have hbody := stringBody_twins hT limits.string limits.string [] h.source
    (hT.place h.source)
  unfold string
  generalize stringBody limits.string k.source.position limits.string [] k.source = a at hbody
  generalize stringBody limits.string k'.source.position limits.string [] k'.source = b at hbody
  cases hbody with
  | error h => exact .error h
  | ok h =>
    obtain ⟨hchars, hs⟩ := h
    dsimp only
    rw [hchars]
    exact labelled_twins hT _ hs

lemma symbol_twins (c : Char) (h : Paired R k k') :
    Agree P (SameLexeme R) (symbol limits c k) (symbol limits c k') := by
  unfold symbol
  rw [← peek?_twins hT h.source (·.bind (double? c)) (double?_lineEnd c)]
  cases k.source.peek?.bind (double? c) with
  | some m => exact labelled_twins hT _ (advance_twins hT h).source
  | none =>
    cases single? c with
    | some m => exact labelled_twins hT _ h.source
    | none => exact .error (.flawed _ (hT.place h.source))

lemma token_twins (limits : Limits) (c : Char) (h : Paired R k k') :
    Agree P (SameLexeme R) (token limits c k) (token limits c k') := by
  unfold token
  split
  · exact word_twins hT h
  split
  · exact number_twins hT h
  split
  · exact string_twins hT h
  · exact symbol_twins hT c h

lemma settle_twins (limits : Limits) (h : Paired R k k') :
    Agree P (Paired R) (settle limits k) (settle limits k') := by
  unfold settle
  rw [← h.ahead]
  split
  · exact ofSource_twins hT _ h.source
  · exact .ok h

/-- One lexeme at places that `P` relates. -/
def SameToken (P : Position → Position → Prop) (t t' : Token) : Prop :=
  t.lexeme = t'.lexeme ∧ P t.position t'.position

lemma next_twins (limits : Limits) (h : Paired R k k') :
    Agree P (fun a b => Option.Rel (SameToken P) a.1 b.1 ∧ Paired R a.2 b.2) (next limits k)
      (next limits k') := by
  have hsettle := settle_twins hT limits h
  unfold next
  generalize settle limits k = a at hsettle
  generalize settle limits k' = b at hsettle
  cases hsettle with
  | error h => exact .error h
  | @ok k₁ k₁' h₁ =>
    dsimp only
    rw [← h₁.ahead]
    cases k₁.ahead with
    | none => exact .ok ⟨.none, h₁⟩
    | some c =>
      have htoken := token_twins hT limits c h₁
      dsimp only
      generalize token limits c k₁ = a at htoken
      generalize token limits c k₁' = b at htoken
      cases htoken with
      | error h => exact .error h
      | ok h => exact .ok ⟨.some ⟨h.1, hT.place h₁.source⟩, h.2⟩

/-- From such lexers the same tokens are read, and both come to the end or are stopped by the same
flaw. -/
lemma run_twins (limits : Limits) (h : Paired R k k') :
    List.Forall₂ (fun a b => SameToken P a.1 b.1) (k.run limits).1 (k'.run limits).1 ∧
      Agree P P (k.run limits).2 (k'.run limits).2 := by
  -- every token takes a character, so that the induction goes along the run
  fun_induction run limits k generalizing k' with
  | case1 k e hk =>
    have hnext := next_twins hT limits h
    rw [hk] at hnext
    generalize hb : next limits k' = b at hnext
    cases hnext with
    | error he =>
      rw [run_of_error hb]
      exact ⟨.nil, .error he⟩
  | case2 k k₁ hk =>
    have hnext := next_twins hT limits h
    rw [hk] at hnext
    generalize hb : next limits k' = b at hnext
    cases hnext with
    | @ok _ b hab =>
      obtain ⟨t?, k₁'⟩ := b
      obtain ⟨⟨⟩, hbehind⟩ := hab
      rw [run_of_end hb]
      exact ⟨.nil, .ok (hT.place hbehind.source)⟩
  | case3 k t k₁ hk more stop hrun ih =>
    have hnext := next_twins hT limits h
    rw [hk] at hnext
    generalize hb : next limits k' = b at hnext
    cases hnext with
    | @ok _ b hab =>
      obtain ⟨t?, k₁'⟩ := b
      obtain ⟨⟨ht⟩, hbehind⟩ := hab
      have hmore := ih hbehind
      rw [hrun] at hmore
      rw [run_of_token hb]
      exact ⟨.cons ht hmore.1, hmore.2⟩

end Lexer

/-! ## Places do not matter -/

lemma Source.twins_rest : Twins (fun _ _ => True) fun s s' => s.rest = s'.rest where
  place _ := trivial
  ends h hn := next?_eq_none.2 (h.symm.trans (next?_eq_none.1 hn))
  goes {s s' c t} h hn := by
    obtain ⟨hread, -⟩ := next?_eq_some.1 hn
    rw [h] at hread
    exact ⟨⟨t.rest, s'.position.after c⟩, next?_eq_some.2 ⟨hread, rfl⟩, rfl⟩

namespace Lexer

variable {limits : Limits} {k k' : Lexer}

/-- The same character ahead of the same text. -/
abbrev Beside : Lexer → Lexer → Prop := Paired fun s s' => s.rest = s'.rest

/-- Lexers in front of the same text say the same. -/
lemma said_beside (h : k.Beside k') : k.said limits = k'.said limits := by
  obtain ⟨htokens, hstop⟩ := run_twins Source.twins_rest limits h
  have hlexemes : (k.run limits).1.map (·.1.lexeme) = (k'.run limits).1.map (·.1.lexeme) := by
    rw [← List.forall₂_eq_eq_eq, List.forall₂_map_left_iff, List.forall₂_map_right_iff]
    exact htokens.imp fun _ _ h => h.1
  unfold said
  rw [hlexemes]
  generalize (k.run limits).2 = a at hstop
  generalize (k'.run limits).2 = b at hstop
  cases hstop with
  | ok => rfl
  | error h => simp only [h.what_eq]

end Lexer

end AudLang
