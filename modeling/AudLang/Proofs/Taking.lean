import AudLang.Proofs.Folding

/-!
What a token takes of a text.

A token is written in one of a few ways, and behind it there is a text that it does not go on with.
So it is read in the same way whatever is put behind that text, as long as this goes on with nothing
(`Apart`).
-/

namespace AudLang

open Text

variable {m : Symbol}

/-! ## Written forms -/

/-- What stands between the quotes of a string, and the characters it means. -/
inductive Quotes : List Char → List Char → Prop
  | nil : Quotes [] []
  | plain {c : Char} {w out : List Char} (hquote : c ≠ '"') (hslash : c ≠ '\\') (h : Quotes w out) :
    Quotes (c :: w) (c :: out)
  | escape {e d : Char} {w out : List Char} (he : Lexer.escape? e = some d) (h : Quotes w out) :
    Quotes ('\\' :: e :: w) (d :: out)

/-- The lexeme may be written like this. -/
inductive Lexeme.WrittenAs : Lexeme → List Char → Prop
  | word {c : Char} {w : List Char} (hc : Lexer.startsName c = true)
      (hw : ∀ d ∈ w, Lexer.continuesName d = true) :
    WrittenAs (Lexer.wordLexeme (String.ofList (c :: w))) (c :: w)
  | int {digits : List Char} (hne : digits ≠ []) (h : ∀ d ∈ digits, isDigit d = true) :
    WrittenAs (.int (Lexer.digitsValue digits)) digits
  | float {whole fraction : List Char} {x : Float} (hne : whole ≠ [])
      (hw : ∀ d ∈ whole, isDigit d = true)
    (hf : ∀ d ∈ fraction, isDigit d = true)
    (hx : Lexer.floatValue (Lexer.digitsValue (whole ++ fraction)) fraction.length = .ok x) :
    WrittenAs (.float x) (whole ++ '.' :: fraction)
  | string {w out : List Char} (h : Quotes w out) :
      WrittenAs (.string (String.ofList out)) ('"' :: (w ++ ['"']))
  | symbol (m : Symbol) : WrittenAs (.symbol m) m.spelling.toList

lemma Lexeme.WrittenAs.ne_nil {l : Lexeme} {w : List Char} (h : l.WrittenAs w) : w ≠ [] := by
  cases h with
  | symbol m => cases m <;> decide
  | int hne => exact hne
  | _ => simp

/-- The text is empty or opens with a blank. -/
def Detached (x : List Char) : Prop := ∀ c ∈ x.head?, isBlank c = true

lemma Detached.isBlank {x y : List Char} {c : Char} (hx : Detached x)
    (h : Source.foldedHead? x = some (c, y)) : isBlank c = true := by
  unfold Source.foldedHead? at h
  split at h <;> cases h
  · decide
  · decide
  · exact hx _ rfl

namespace Lexer

open Source

variable {limits : Limits} {limit : Int} {p : Position} {k : Lexer} {s : Source} {c d : Char}
  {l : Lexeme}
 {q : Char → Bool} {run x y z : List Char}

/-! ## The last character -/

/-- Does the text end in a character that may continue a name? -/
def endsName (x : List Char) : Bool := x.getLast?.any continuesName

lemma endsName_append (x : List Char) (h : y ≠ []) : endsName (x ++ y) = endsName y := by
  unfold endsName
  rw [List.getLast?_append, List.getLast?_eq_some_getLast h]
  rfl

lemma endsName_cons_of_ne_nil (c : Char) (h : x ≠ []) : endsName (c :: x) = endsName x :=
  endsName_append [c] h

lemma endsName_cons_of_not (h : continuesName c = false) (x : List Char) :
    endsName (c :: x) = endsName x := by
  cases x with
  | nil => exact h
  | cons d y => exact endsName_cons_of_ne_nil c (List.cons_ne_nil d y)

lemma endsName_of_forall (hne : x ≠ []) (h : ∀ c ∈ x, continuesName c = true) :
    endsName x = true := by
  unfold endsName
  rw [List.getLast?_eq_some_getLast hne]
  exact h _ (List.getLast_mem hne)

/-- A blank is no part of a name. -/
lemma continuesName_of_isBlank (h : Text.isBlank c = true) : continuesName c = false := by
  -- the blanks are few enough to be looked at one by one
  have hall : ∀ r ∈ Text.blankRanges, ∀ n ∈ List.range' r.1 (r.2 + 1 - r.1),
      continuesName (Char.ofNat n) = false := by decide +kernel
  obtain ⟨r, hr, hc⟩ := List.any_eq_true.1 h
  simp only [Bool.and_eq_true, decide_eq_true_eq] at hc
  have hname := hall r hr c.toNat (List.mem_range'_1.2 ⟨hc.1, by omega⟩)
  rwa [Char.ofNat_toNat] at hname

lemma continuesName_of_isDigit (h : Text.isDigit c = true) : continuesName c = true := by
  unfold continuesName Text.isAlphanumeric
  by_cases hc : c.val < 128
  · rw [if_pos hc]
    cases hdigit : c.isDigit with
    | true => simp [Char.isAlphanum, hdigit]
    | false =>
      rw [Text.isDigit, Text.digitValue?, if_pos hc, hdigit] at h
      cases h
  · rw [if_neg hc, h]
    simp

lemma endsName_filler (h : Filler limit x) (y : List Char) : endsName (x ++ y) = endsName y := by
  induction h with
  | nil => rfl
  | blank hc _ ih => rw [List.cons_append, endsName_cons_of_not (continuesName_of_isBlank hc), ih]
  | @comment body x _ _ _ ih =>
    have htext : '/' :: '*' :: (body ++ '*' :: '/' :: x) ++ y
      = ('/' :: '*' :: body ++ ['*']) ++ '/' :: (x ++ y) := by simp
    rw [htext, endsName_append _ (List.cons_ne_nil _ _), endsName_cons_of_not (by decide), ih]

/-! ## Lexers in front of a text -/

/-- The lexer with the first character of the text ahead. -/
def onText (x : List Char) (p : Position) : Lexer := advance ⟨none, ⟨x, p⟩⟩

lemma onText_cons (hc : c ≠ '\r') (x : List Char) (p : Position) :
    onText (c :: x) p = ⟨some c, ⟨x, p.after c⟩⟩ :=
  advance_of_next? (next?_cons hc x p)

/-- A carriage return is read as a line feed. -/
lemma ahead_onText_return (x : List Char) (p : Position) :
    (onText ('\r' :: x) p).ahead = some '\n' := by
  cases x with
  | nil => rfl
  | cons d x =>
    by_cases hd : d = '\n'
    · subst hd
      rfl
    · simp [onText, advance, next?, hd]

/-- The character ahead, unless it is a line end, is the first one of the text. -/
lemma ahead_onText_iff (hreturn : c ≠ '\r') (hfeed : c ≠ '\n') (x : List Char) (p : Position) :
    (onText x p).ahead = some c ↔ x.head? = some c := by
  cases x with
  | nil => simp [onText, advance, next?]
  | cons d y =>
    by_cases hd : d = '\r'
    · subst hd
      simp [ahead_onText_return, hreturn.symm, hfeed.symm]
    · simp [onText_cons hd]

/-- A lexer with a blank ahead, or nothing, goes on as if it had not read it. -/
lemma settle_onText (hx : Detached x) (p : Position) :
    settle limits (onText x p) = ofSource limits.comment ⟨x, p⟩ := by
  cases hn : next? ⟨x, p⟩ with
  | none =>
    have hend : onText x p = ⟨none, ⟨x, p⟩⟩ := advance_of_end hn
    rw [hend]
    rfl
  | some a =>
    have hnext : onText x p = ⟨some a.1, a.2⟩ := advance_of_next? hn
    have hblank : isBlank a.1 = true := hx.isBlank (next?_eq_some.1 hn).1
    rw [hnext]
    unfold settle ofSource
    rw [if_pos (by simpa using hblank), nextSignificant_of_blank hn hblank]

/-- A lexer with a significant character ahead reads no further. -/
lemma settle_onText_cons (hc : isBlank c = false) (x : List Char) (p : Position) :
    settle limits (onText (c :: x) p) = .ok (onText (c :: x) p) := by
  rw [onText_cons (by rintro rfl; exact absurd hc (by decide))]
  exact if_neg (by simp [hc])

/-- A text goes on with a run of characters, or with none. -/
lemma exists_run (q : Char → Bool) (x : List Char) :
    ∃ run y, x = run ++ y ∧ (∀ d ∈ run, q d = true) ∧ ∀ d ∈ y.head?, q d = false := by
  refine ⟨x.takeWhile q, x.dropWhile q, List.takeWhile_append_dropWhile.symm,
    List.all_eq_true.1 List.all_takeWhile, ?_⟩
  intro d hd
  have hnot := List.head?_dropWhile_not q x
  rw [hd] at hnot
  simpa using hnot

lemma takeWhile_run (hreturn : q '\r' = false) (hfeed : q '\n' = false)
    (hrun : ∀ d ∈ run, q d = true) (hx : ∀ d ∈ x.head?, q d = false) (p : Position) :
    (onText (run ++ x) p).takeWhile q = (run, onText x (run.foldl Position.after p)) := by
  induction run generalizing p with
  | nil =>
    cases x with
    | nil => exact takeWhile_of_none rfl
    | cons c x =>
      by_cases hc : c = '\r'
      · subst hc
        exact takeWhile_of_neg (ahead_onText_return x p) hfeed
      · exact takeWhile_of_neg (by rw [List.nil_append, onText_cons hc]) (hx c rfl)
  | cons c run ih =>
    obtain ⟨hc, hrun⟩ := List.forall_mem_cons.1 hrun
    have hne : c ≠ '\r' := by
      rintro rfl
      rw [hreturn] at hc
      cases hc
    rw [List.cons_append, onText_cons hne, takeWhile_of_pos rfl hc,
      show advance ⟨some c, ⟨run ++ x, p.after c⟩⟩ = onText (run ++ x) (p.after c) from rfl,
        ih hrun]
    rfl

lemma takeWhile_ahead (hrun : ∀ d ∈ c :: run, isDigit d = true)
    (hx : ∀ d ∈ x.head?, isDigit d = false) (p : Position) :
    takeWhile isDigit ⟨some c, ⟨run ++ x, p⟩⟩
      = (c :: run, onText x (run.foldl Position.after p)) := by
  obtain ⟨hc, hrun⟩ := List.forall_mem_cons.1 hrun
  rw [takeWhile_of_pos rfl hc, show advance ⟨some c, ⟨run ++ x, p⟩⟩ = onText (run ++ x) p from rfl,
    takeWhile_run (by decide) (by decide) hrun hx]

lemma ofSource_filler {bound : Int} (hbound : bound ≤ max limit 0) (hgap : Filler bound x)
    (y : List Char) (p : Position) :
    ∃ q, ofSource limit ⟨x ++ y, p⟩ = ofSource limit ⟨y, q⟩ ∧
      ('\r' ∉ x → q = x.foldl Position.after p) := by
  obtain ⟨q, hskip, hq⟩ := nextSignificant_filler hbound hgap y p
  exact ⟨q, by rw [ofSource, hskip, ← ofSource], hq⟩

/-- Reading on to the next significant character skips a gap. -/
lemma ofSource_ok (hx : '\r' ∉ x) (h : ofSource limit ⟨x, p⟩ = .ok k) :
    ∃ gap y, x = gap ++ y ∧ Filler (max limit 0) gap ∧ k = onText y (gap.foldl Position.after p) ∧
      (∀ c ∈ y.head?, isBlank c = false) ∧ ∀ z, Apart z → ofSource limit ⟨x ++ z, p⟩ =
        if y = [] then ofSource limit ⟨z, gap.foldl Position.after p⟩
        else .ok (onText (y ++ z) (gap.foldl Position.after p)) := by
  unfold ofSource at h
  split at h
  · cases h
  rename_i c? t hs
  cases h
  obtain ⟨hblank, hend⟩ := nextSignificant_settled hs
  obtain ⟨gap, y, htext, hgap, rfl, hcomment⟩ := nextSignificant_ok hx hs
  obtain rfl : x = gap ++ (c?.toList ++ y) := htext
  have hskip (z : List Char) : ofSource limit ⟨gap ++ (c?.toList ++ y) ++ z, p⟩ =
      ofSource limit ⟨c?.toList ++ y ++ z, gap.foldl Position.after p⟩ := by
    obtain ⟨q, hskip, hq⟩ :=
      ofSource_filler (Int.le_refl (max limit 0)) hgap (c?.toList ++ y ++ z) p
    rw [List.append_assoc, hskip, hq fun h => hx (List.mem_append_left _ h)]
  refine ⟨gap, c?.toList ++ y, rfl, hgap, ?_⟩
  cases c? with
  | none =>
    obtain rfl : y = [] := hend rfl
    refine ⟨by simp [onText, advance, next?], by simp, fun z _ => ?_⟩
    rw [hskip, if_pos (by rfl)]
    rfl
  | some c =>
    have hreturn : c ≠ '\r' := fun h => hx (by simp [h])
    refine ⟨?_, by rintro _ ⟨⟩; exact hblank c rfl, fun z hz => ?_⟩
    · rw [Option.toList_some, List.singleton_append, onText_cons hreturn, List.foldl_append]
      rfl
    · rw [hskip, if_neg (by simp)]
      simp only [Option.toList_some, List.cons_append, List.nil_append]
      rw [onText_cons hreturn]
      unfold ofSource
      rw [nextSignificant_of_other (next?_cons hreturn _ _) (hblank c rfl)]
      rw [peek?_eq_head?, hz.head?_append_iff (by decide) (by decide)]
      exact hcomment c rfl

/-! ## Words and numbers -/

lemma word_run (hrun : ∀ d ∈ run, continuesName d = true)
    (hx : ∀ d ∈ x.head?, continuesName d = false) (p : Position) :
    word limits (onText (run ++ x) p) =
      if Limits.exceeded limits.name run.length then
        .error (.flawed (.nameTooLong limits.name) (onText (run ++ x) p).source.position)
      else .ok (wordLexeme (String.ofList run), onText x (run.foldl Position.after p)) := by
  unfold word
  rw [takeWhile_run (by decide) (by decide) hrun hx]

lemma number_whole (hrun : ∀ d ∈ c :: run, isDigit d = true) (hx : ∀ d ∈ x.head?, isDigit d = false)
    (hdot : ∀ d y, x = '.' :: d :: y → isDigit d = false) (p : Position) :
    number limits ⟨some c, ⟨run ++ x, p⟩⟩ =
      if numberExceeds limits.number (c :: run).length (onText x (run.foldl Position.after p)) then
        .error (.flawed (.numberTooLong limits.number) p)
      else .ok (.int (digitsValue (c :: run)), onText x (run.foldl Position.after p)) := by
  have hwhole (p' : Position) :
    ¬((onText x p').ahead = some '.' ∧ (onText x p').source.peek?.any isDigit) := by
    rintro ⟨hahead, hpeek⟩
    obtain ⟨y, rfl⟩ := List.head?_eq_some_iff.1
      ((ahead_onText_iff (by decide) (by decide) x p').1 hahead)
    rw [onText_cons (by decide), peek?_eq_head?] at hpeek
    cases y with
    | nil => cases hpeek
    | cons d z =>
      have hd : isDigit d = true := hpeek
      rw [hdot d z rfl] at hd
      cases hd
  unfold number
  rw [takeWhile_ahead hrun hx]
  dsimp only
  rw [if_neg (hwhole _)]

lemma number_fraction {fraction : List Char} (hrun : ∀ d ∈ c :: run, isDigit d = true)
    (hfraction : ∀ d ∈ fraction, isDigit d = true) (hne : fraction ≠ [])
    (hx : ∀ d ∈ x.head?, isDigit d = false) (p : Position) :
    number limits ⟨some c, ⟨run ++ '.' :: (fraction ++ x), p⟩⟩ =
      if numberExceeds limits.number (c :: run).length
        (onText ('.' :: (fraction ++ x)) (run.foldl Position.after p)) then
        .error (.flawed (.numberTooLong limits.number) p)
      else if numberExceeds limits.number ((c :: run).length + fraction.length)
          (onText x ((run ++ '.' :: fraction).foldl Position.after p)) then
        .error (.flawed (.numberTooLong limits.number) p)
      else
        ((floatValue (digitsValue (c :: run ++ fraction)) fraction.length).mapError .overflow).map
          fun v => (.float v, onText x ((run ++ '.' :: fraction).foldl Position.after p)) := by
  have hfollows (q : Position) : (onText ('.' :: (fraction ++ x)) q).ahead = some '.' ∧
      (onText ('.' :: (fraction ++ x)) q).source.peek?.any isDigit := by
    obtain ⟨d, ds, rfl⟩ := List.exists_cons_of_ne_nil hne
    rw [onText_cons (by decide), peek?_eq_head?]
    exact ⟨rfl, hfraction d List.mem_cons_self⟩
  have hadvance (q : Position) :
    (onText ('.' :: (fraction ++ x)) q).advance = onText (fraction ++ x) (q.after '.') := by
    rw [onText_cons (by decide)]
    rfl
  unfold number
  rw [takeWhile_ahead hrun (by rintro d ⟨⟩; decide)]
  dsimp only
  rw [if_pos (hfollows _), hadvance, takeWhile_run (by decide) (by decide) hfraction hx,
    List.foldl_append,
    List.foldl_cons]
  cases floatValue (digitsValue (c :: run ++ fraction)) fraction.length <;> rfl

lemma numberExceeds_apart (hz : Apart z) (size : Nat) (y : List Char) (p : Position) :
    numberExceeds limit size (onText (y ++ z) p) = numberExceeds limit size (onText y p) := by
  have hdot : ((onText (y ++ z) p).ahead == some '.') = ((onText y p).ahead == some '.') := by
    rw [Bool.eq_iff_iff, beq_iff_eq, beq_iff_eq, ahead_onText_iff (by decide) (by decide),
      ahead_onText_iff (by decide) (by decide), hz.head?_append_iff (by decide) (by decide)]
  unfold numberExceeds
  rw [hdot]

lemma number_apart (hc : isDigit c = true) (h : number limits (onText (c :: x) p) = .ok (l, k)) :
    ∃ w y, c :: x = w ++ y ∧ l.WrittenAs w ∧ endsName w = true ∧ ∀ z, Apart z →
      number limits (onText (c :: x ++ z) p)
        = .ok (l, onText (y ++ z) (w.foldl Position.after p)) := by
  have hreturn : c ≠ '\r' := by
    rintro rfl
    exact absurd hc (by decide)
  have hname {w : List Char} (hw : ∀ d ∈ w, isDigit d = true) : ∀ d ∈ w, continuesName d = true :=
    fun d hd => continuesName_of_isDigit (hw d hd)
  have hapart {y z : List Char} (hy : ∀ d ∈ y.head?, isDigit d = false) (hz : Apart z) :
      ∀ d ∈ (y ++ z).head?, isDigit d = false := hz.forall_head? (by decide) (by decide) hy
  obtain ⟨run, y, rfl, hrun, hy⟩ := exists_run isDigit x
  have hwhole : ∀ d ∈ c :: run, isDigit d = true := List.forall_mem_cons.2 ⟨hc, hrun⟩
  rw [onText_cons hreturn] at h
  by_cases hdot : ∃ d r, y = '.' :: d :: r ∧ isDigit d = true
  · obtain ⟨d, r, rfl, hd⟩ := hdot
    obtain ⟨more, y, rfl, hmore, hy⟩ := exists_run isDigit r
    have hfraction : ∀ e ∈ d :: more, isDigit e = true := List.forall_mem_cons.2 ⟨hd, hmore⟩
    rw [← List.cons_append, number_fraction hwhole hfraction (List.cons_ne_nil _ _) hy] at h
    split at h
    · cases h
    split at h
    · cases h
    rename_i hsize hsize'
    cases hv : floatValue (digitsValue (c :: run ++ d :: more)) (d :: more).length with
    | error what =>
      rw [hv] at h
      cases h
    | ok v =>
    rw [hv] at h
    cases h
    refine ⟨c :: run ++ '.' :: (d :: more),
      y, by simp, .float (List.cons_ne_nil _ _) hwhole hfraction hv, ?_,
      fun z hz => ?_⟩
    · rw [endsName_append _ (List.cons_ne_nil _ _),
        endsName_cons_of_ne_nil _ (List.cons_ne_nil _ _)]
      exact endsName_of_forall (List.cons_ne_nil _ _) (hname hfraction)
    · have htext : c :: (run ++ '.' :: d :: (more ++ y)) ++ z
        = c :: (run ++ '.' :: (d :: more ++ (y ++ z))) := by simp
      rw [htext, onText_cons hreturn,
        number_fraction hwhole hfraction (List.cons_ne_nil _ _) (hapart hy hz),
        ← List.append_assoc, ← List.cons_append, numberExceeds_apart hz, if_neg hsize,
          numberExceeds_apart hz,
        if_neg hsize', hv]
      rfl
  · have hdot' : ∀ d r, y = '.' :: d :: r → isDigit d = false := fun d r hr =>
      Bool.eq_false_iff.2 fun hd => hdot ⟨d, r, hr, hd⟩
    rw [number_whole hwhole hy hdot'] at h
    split at h
    · cases h
    rename_i hsize
    cases h
    refine ⟨c :: run, y, rfl, .int (List.cons_ne_nil _ _) hwhole, ?_, fun z hz => ?_⟩
    · exact endsName_of_forall (List.cons_ne_nil _ _) (hname hwhole)
    · have hfraction : ∀ d r, y ++ z = '.' :: d :: r → isDigit d = false := by
        intro d r hr
        have hhead : y.head? = some '.' :=
          (hz.head?_append_iff (by decide) (by decide) y).1 (by rw [hr]; rfl)
        obtain ⟨y, rfl⟩ := List.head?_eq_some_iff.1 hhead
        rw [List.cons_append, List.cons.injEq] at hr
        have hy' : ∀ e ∈ y.head?, isDigit e = false := fun e he => by
          obtain ⟨v, rfl⟩ := List.head?_eq_some_iff.1 he
          exact hdot' e v rfl
        exact hapart hy' hz d (by rw [hr.2]; rfl)
      rw [List.cons_append, onText_cons hreturn, List.append_assoc,
        number_whole hwhole (hapart hy hz) hfraction,
        numberExceeds_apart hz, if_neg hsize]
      rfl

/-! ## Strings and symbols -/

/-- A string is read up to its closing quote, whatever is behind it. -/
lemma stringBody_ok {room : Int} {opened : Position} {chars out : List Char} {t : Source}
    (hs : '\r' ∉ s.rest) (h : stringBody limit opened room chars s = .ok (out, t)) :
    ∃ w more y, s.rest = w ++ '"' :: y ∧ Quotes w more ∧ out = chars.reverse ++ more ∧
      ∀ z, stringBody limit opened room chars ⟨s.rest ++ z, s.position⟩ =
        .ok (out, ⟨y ++ z, (w ++ ['"']).foldl Position.after s.position⟩) := by
  fun_induction stringBody limit opened room chars s with
  | case1 | case3 | case4 | case5 | case7 => cases h
  | case2 room chars s t' hn =>
    cases h
    obtain ⟨hrest, -, -⟩ := rest_of_next? hs hn
    refine ⟨[], [], t.rest, hrest, .nil, (List.append_nil _).symm, fun z => ?_⟩
    rw [hrest]
    exact stringBody_of_close (next?_cons (by decide) _ _)
  | case6 room chars s t' e u hu d he hroom hn hc ih =>
    obtain ⟨hrest, hs', hplace⟩ := rest_of_next? hs hn
    obtain ⟨hrest', hs'', hplace'⟩ := rest_of_next? hs' hu
    obtain ⟨w, more, y, hw, hquotes, rfl, hread⟩ := ih hs'' h
    have hreturn : e ≠ '\r' := fun he => hs' (by simp [hrest', he])
    refine ⟨'\\' :: e :: w, d :: more,
      y, by simp [hrest, hrest', hw], .escape he hquotes, by simp, fun z => ?_⟩
    rw [hrest, hrest', List.cons_append, List.cons_append]
    simp only [stringBody_of_escape (next?_cons (by decide) _ _) (next?_cons hreturn _ _), he,
      if_neg hroom]
    rw [← hplace, ← hplace', hread, hplace', hplace]
    rfl
  | case8 room chars s c t' hn hquote hslash hroom ih =>
    obtain ⟨hrest, hs', hplace⟩ := rest_of_next? hs hn
    obtain ⟨w, more, y, hw, hquotes, rfl, hread⟩ := ih hs' h
    have hreturn : c ≠ '\r' := fun hc => hs (by simp [hrest, hc])
    refine ⟨c :: w, c :: more,
      y, by simp [hrest, hw], .plain hquote hslash hquotes, by simp, fun z => ?_⟩
    rw [hrest, List.cons_append, stringBody_of_other (next?_cons hreturn _ _) hquote hslash,
      if_neg hroom, ← hplace, hread, hplace]
    rfl

lemma continuesName_of_single? (h : single? c = some m) : continuesName c = false := by
  unfold single? at h
  split at h <;> first | decide | cases h

lemma continuesName_of_double? (h : double? c d = some m) :
    continuesName c = false ∧ continuesName d = false := by
  unfold double? at h
  split at h <;> first | decide | cases h

lemma spelling_of_single? (h : single? c = some m) : m.spelling.toList = [c] := by
  unfold single? at h
  split at h <;> cases h <;> rfl

lemma spelling_of_double? (h : double? c d = some m) : m.spelling.toList = [c, d] ∧ c ≠ '\r' ∧
    d ≠ '\r' := by
  unfold double? at h
  split at h <;> cases h <;> exact ⟨rfl, by decide, by decide⟩

lemma symbol_of_double? (h : double? c d = some m) (x : List Char) (p : Position) :
    symbol limits c (onText (c :: d :: x) p) =
      labelled (.symbol m) (ofSource limits.comment ⟨x, (p.after c).after d⟩) := by
  obtain ⟨-, hc, hd⟩ := spelling_of_double? h
  have hbind : (peek? ⟨d :: x, p.after c⟩).bind (double? c) = some m := h
  rw [onText_cons hc]
  unfold symbol
  simp only [hbind, advance_of_next? (k := ⟨some c, ⟨d :: x, p.after c⟩⟩) (next?_cons hd _ _)]
  rfl

lemma symbol_of_single? (h : single? c = some m) (hreturn : c ≠ '\r')
    (hx : x.head?.bind (double? c) = none) (p : Position) :
    symbol limits c (onText (c :: x) p) = labelled (.symbol m)
      (ofSource limits.comment ⟨x, p.after c⟩) := by
  have hbind : (peek? ⟨x, p.after c⟩).bind (double? c) = none := by rwa [peek?_eq_head?]
  rw [onText_cons hreturn]
  unfold symbol
  simp only [hbind, h]
  rfl

lemma token_of_mark (hc : continuesName c = false) (hquote : c ≠ '"') (k : Lexer) :
    token limits c k = symbol limits c k := by
  have hname : ¬startsName c = true := fun h => by
    rw [continuesName_of_startsName h] at hc
    cases hc
  have hdigit : ¬isDigit c = true := fun h => by
    rw [continuesName_of_isDigit h] at hc
    cases hc
  unfold token
  rw [if_neg hname, if_neg hdigit, if_neg hquote]

lemma lexeme_of_labelled {l' : Lexeme} {r : Except LexError Lexer}
    (h : labelled l' r = .ok (l, k)) : l = l' := by
  cases r with
  | error e => cases h
  | ok k' =>
    cases h
    rfl

lemma symbol_apart (hreturn : c ≠ '\r') (h : symbol limits c (onText (c :: x) p) = .ok (l, k)) :
    ∃ w y, c :: x = w ++ y ∧ l.WrittenAs w ∧ endsName w = false ∧ ∀ z, Apart z →
      symbol limits c (onText (c :: x ++ z) p) =
        labelled l (ofSource limits.comment ⟨y ++ z, w.foldl Position.after p⟩) := by
  cases hdouble : x.head?.bind (double? c) with
  | some m =>
    obtain ⟨d, hd, hm⟩ := Option.bind_eq_some_iff.1 hdouble
    obtain ⟨y, rfl⟩ := List.head?_eq_some_iff.1 hd
    rw [symbol_of_double? hm] at h
    obtain rfl := lexeme_of_labelled h
    refine ⟨[c, d], y, rfl, (spelling_of_double? hm).1 ▸ .symbol m, ?_, fun z _ =>
      symbol_of_double? hm (y ++ z) p⟩
    exact (continuesName_of_double? hm).2
  | none =>
    cases hm : single? c with
    | none =>
      rw [onText_cons hreturn, symbol, peek?_eq_head?, hdouble, hm] at h
      cases h
    | some m =>
      rw [symbol_of_single? hm hreturn hdouble] at h
      obtain rfl := lexeme_of_labelled h
      refine ⟨[c], x, rfl, spelling_of_single? hm ▸ .symbol m, continuesName_of_single? hm,
        fun z hz => ?_⟩
      refine symbol_of_single? hm hreturn ?_ p
      -- no symbol of two characters ends in a blank or a slash
      cases x with
      | cons d x => exact hdouble
      | nil =>
        cases z with
        | nil => rfl
        | cons d z => rcases hz d rfl with rfl | rfl <;> simp [double?]

/-! ## Tokens -/

/-- The token of the lexeme `l` in front of a text: `w` is how it is written, and `y` the text
behind it.  The same is read with any text put at the end that stands apart. -/
structure Takes (limits : Limits) (c : Char) (x : List Char) (p : Position) (l : Lexeme)
    (w y : List Char) : Prop where
  text : c :: x = w ++ y
  written : l.WrittenAs w
  leaves : ∀ z, Apart z → token limits c (onText (c :: x ++ z) p) =
    if endsName w then .ok (l, onText (y ++ z) (w.foldl Position.after p))
    else labelled l (ofSource limits.comment ⟨y ++ z, w.foldl Position.after p⟩)

lemma word_takes (hc : startsName c = true) (h : word limits (onText (c :: x) p) = .ok (l, k)) :
    ∃ w y, Takes limits c x p l w y := by
  obtain ⟨run, y, rfl, hrun, hy⟩ := exists_run continuesName x
  have hword : ∀ d ∈ c :: run, continuesName d = true :=
    List.forall_mem_cons.2 ⟨continuesName_of_startsName hc, hrun⟩
  rw [← List.cons_append, word_run hword hy] at h
  split at h
  · cases h
  rename_i hsize
  cases h
  refine ⟨c :: run, y, rfl, .word hc hrun, fun z hz => ?_⟩
  rw [token, if_pos hc, ← List.cons_append, List.append_assoc,
    word_run hword (hz.forall_head? (by decide) (by decide) hy), if_neg hsize, if_pos]
  exact endsName_of_forall (List.cons_ne_nil _ _) hword

lemma string_takes (hx : '\r' ∉ x) (h : string limits (onText ('"' :: x) p) = .ok (l, k)) :
    ∃ w y, Takes limits '"' x p l w y := by
  rw [onText_cons (by decide)] at h
  unfold string at h
  split at h
  · cases h
  rename_i hbody
  obtain ⟨w, more, y, hw, hquotes, hout, hread⟩ := stringBody_ok hx hbody
  obtain rfl : x = w ++ '"' :: y := hw
  obtain rfl := lexeme_of_labelled h
  refine ⟨'"' :: (w ++ ['"']), y, by simp, hout ▸ .string hquotes, fun z _ => ?_⟩
  have hends : endsName ('"' :: (w ++ ['"'])) = false :=
    endsName_append ('"' :: w) (List.cons_ne_nil _ _)
  rw [token, if_neg (by decide), if_neg (by decide), if_pos rfl, if_neg (by simp [hends]),
    List.cons_append,
    onText_cons (by decide)]
  unfold string
  rw [hread]
  rfl

/-- Every token takes a piece of the text. -/
lemma token_takes (hx : '\r' ∉ c :: x) (h : token limits c (onText (c :: x) p) = .ok (l, k)) :
    ∃ w y, Takes limits c x p l w y := by
  obtain ⟨hreturn, hx'⟩ := List.ne_and_not_mem_of_not_mem_cons hx
  unfold token at h
  split at h
  · exact word_takes ‹_› h
  rename_i hname
  split at h
  · rename_i hdigit
    obtain ⟨w, y, htext, hw, hends, hread⟩ := number_apart hdigit h
    refine ⟨w, y, htext, hw, fun z hz => ?_⟩
    rw [token, if_neg hname, if_pos hdigit, hread z hz, if_pos hends]
  rename_i hdigit
  split at h
  · rename_i hquote
    subst hquote
    exact string_takes hx' h
  · rename_i hquote
    obtain ⟨w, y, htext, hw, hends, hread⟩ := symbol_apart (Ne.symm hreturn) h
    refine ⟨w, y, htext, hw, fun z hz => ?_⟩
    rw [token, if_neg hname, if_neg hdigit, if_neg hquote, hread z hz, if_neg (by simp [hends])]

end Lexer

end AudLang
