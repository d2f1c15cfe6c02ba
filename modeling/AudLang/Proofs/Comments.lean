import AudLang.Proofs.Taking

/-!
Comments between tokens.

A comment that is put between two tokens reads like a blank there, unless it directly follows a
name, a reserved word or a number.  Behind these the lexer takes the next character as it stands, so
that the comment's opening slash is read as a division and its inside as program text.
-/

namespace AudLang

open Text

/-! ## Behind a lexeme -/

namespace Lexer

open Source

/-- What is said behind a lexeme that is lost when no significant character can be reached behind
it. -/
def behind (limits : Limits) (last : Option Lexeme) : Except LexError Lexer → Said
  | .error e => ⟨[], some e.what⟩
  | .ok k => (k.said limits).after last.toList

/-- What is said from a token on. -/
def told (limits : Limits) : Except LexError (Lexeme × Lexer) → Said
  | .error e => ⟨[], some e.what⟩
  | .ok (x, k) => (k.said limits).after [x]

variable {limits : Limits} {limit : Int} {last : Option Lexeme} {k k' : Lexer} {s t : Source}
  {p : Position}
  {c : Char} {l : Lexeme} {w x y : List Char}

lemma told_labelled (l : Lexeme) (r : Except LexError Lexer) :
    told limits (labelled l r) = behind limits (some l) r := by
  cases r <;> rfl

/-- What is said behind a lexeme does not depend on its place. -/
lemma behind_ofSource (p q : Position) :
    behind limits last (ofSource limit ⟨w, p⟩) = behind limits last (ofSource limit ⟨w, q⟩) := by
  have hbeside : (⟨w, p⟩ : Source).rest = (⟨w, q⟩ : Source).rest := rfl
  have hsource := ofSource_twins twins_rest limit hbeside
  generalize ofSource limit ⟨w, p⟩ = a at hsource
  generalize ofSource limit ⟨w, q⟩ = b at hsource
  cases hsource with
  | ok h => rw [behind, behind, said_beside h]
  | error h => rw [behind, behind, h.what_eq]

lemma settle_of_ofSource (h : ofSource limits.comment s = .ok k) : settle limits k = .ok k := by
  unfold ofSource at h
  split at h
  · cases h
  rename_i c? t hs
  cases h
  obtain ⟨hblank, hend⟩ := nextSignificant_settled hs
  cases c? with
  | none =>
    unfold settle ofSource
    rw [if_pos (by rfl), nextSignificant_of_end (next?_eq_none.2 (hend rfl))]
  | some c => exact if_neg (by simp [hblank c rfl])

lemma said_of_settle (h : settle limits k = ofSource limits.comment s) :
    k.said limits = behind limits none (ofSource limits.comment s) := by
  cases hs : ofSource limits.comment s with
  | error e =>
    rw [hs] at h
    refine said_of_error (e := e) ?_
    unfold next
    rw [h]
  | ok k₁ =>
    rw [hs] at h
    refine said_congr ?_
    unfold next
    rw [h, settle_of_ofSource hs]

lemma said_of_empty (hk : k.ahead = none) (h : k.source.rest = []) :
    k.said limits = ⟨[], none⟩ := by
  obtain ⟨a, t⟩ := k
  cases hk
  have hnext : next limits ⟨none, t⟩ = .ok (none, ⟨none, t⟩) := by
    unfold next settle ofSource
    rw [if_pos (by rfl), nextSignificant_of_end (next?_eq_none.2 h)]
  exact said_of_end hnext

/-- In front of a significant character, what is said is said from its token on. -/
lemma said_onText_cons (hc : isBlank c = false) (x : List Char) (p : Position) :
    (onText (c :: x) p).said limits = told limits (token limits c (onText (c :: x) p)) := by
  have hsettle : settle limits (onText (c :: x) p) = _ := settle_onText_cons hc x p
  have hahead : (onText (c :: x) p).ahead = some c := by
    rw [onText_cons (by rintro rfl; exact absurd hc (by decide))]
  cases ht : token limits c (onText (c :: x) p) with
  | error e =>
    refine said_of_error (e := e) ?_
    unfold next
    simp only [hsettle, hahead, ht]
  | ok a =>
    refine said_of_token (t := ⟨a.1, (onText (c :: x) p).source.position⟩) ?_
    unfold next
    simp only [hsettle, hahead, ht]

/-! ## Texts put at the end -/

/-- The two ways into a text that is put at the end of another one; `F` is what is said then. -/
inductive Enters (limits : Limits) : Bool → (List Char → Said) → Prop
  /-- Behind a name or number, as it stands. -/
  | raw {F : List Char → Said} (xs : List Lexeme) (q : Position)
    (h : ∀ z, Apart z → F z = ((onText z q).said limits).after xs) : Enters limits true F
  /-- Behind anything else, at its first significant character. -/
  | significant {F : List Char → Said} (xs : List Lexeme) (last : Option Lexeme) (q : Position)
    (h : ∀ z, Apart z → F z = (behind limits last (ofSource limits.comment ⟨z, q⟩)).after xs) :
      Enters limits false F

variable {b : Bool} {F G : List Char → Said}

lemma Enters.congr (h : Enters limits b G) (hF : ∀ z, Apart z → F z = G z) : Enters limits b F := by
  cases h with
  | raw xs q h => exact .raw xs q fun z hz => (hF z hz).trans (h z hz)
  | significant xs last q h => exact .significant xs last q fun z hz => (hF z hz).trans (h z hz)

/-- More lexemes in front. -/
lemma Enters.after (h : Enters limits b F) (ys : List Lexeme) :
    Enters limits b fun z => (F z).after ys := by
  cases h with
  | raw xs q h => exact .raw (ys ++ xs) q fun z hz => by rw [h z hz, Said.after_after]
  | significant xs last q h =>
    exact .significant (ys ++ xs) last q fun z hz => by rw [h z hz, Said.after_after]

/-- A text in front of the lexer that is read to its end says what it says, whatever is put at its
end. -/
def Settled (limits : Limits) (x : List Char) : Prop :=
  ∀ p, ((onText x p).said limits).stopped = none → Enters limits (endsName x) fun z =>
    (onText (x ++ z) p).said limits

/-- The same from the first significant character of a text on. -/
lemma enters_ofSource (hx : '\r' ∉ x)
    (hsettled : ∀ c y, c :: y <:+ x → isBlank c = false → Settled limits (c :: y))
    (h : (behind limits last (ofSource limits.comment ⟨x, p⟩)).stopped = none) :
    Enters limits (endsName x) fun z =>
      behind limits last (ofSource limits.comment ⟨x ++ z, p⟩) := by
  cases hk : ofSource limits.comment ⟨x, p⟩ with
  | error e =>
    rw [hk] at h
    cases h
  | ok k =>
    rw [hk] at h
    obtain ⟨gap, y, rfl, hgap, rfl, hblank, hread⟩ := ofSource_ok hx hk
    rw [endsName_filler hgap]
    cases y with
    | nil =>
      refine .significant [] last (gap.foldl Position.after p) fun z hz => ?_
      rw [hread z hz, if_pos rfl, Said.after_nil]
    | cons c y =>
      have henters := hsettled c y (List.suffix_append gap _) (hblank c rfl) _ h
      refine (henters.after last.toList).congr fun z hz => ?_
      rw [hread z hz, if_neg (List.cons_ne_nil c y)]
      rfl

/-- The text behind a name or number, of which the next character has been read as it stands. -/
lemma settled_of_ne_nil (hx : '\r' ∉ x) (hne : x ≠ [])
    (hsettled : ∀ c y, c :: y <:+ x → isBlank c = false → Settled limits (c :: y)) :
    Settled limits x := by
  obtain ⟨c, y, rfl⟩ := List.exists_cons_of_ne_nil hne
  cases hc : isBlank c with
  | false => exact hsettled c y (List.suffix_refl _) hc
  | true =>
    intro p h
    have hread (z : List Char) : (onText (c :: y ++ z) p).said limits =
        behind limits none (ofSource limits.comment ⟨c :: y ++ z, p⟩) :=
      said_of_settle (settle_onText (by rintro _ ⟨⟩; exact hc) p)
    have hstart := hread []
    rw [List.append_nil] at hstart
    rw [hstart] at h
    exact (enters_ofSource hx hsettled h).congr fun z _ => hread z

lemma settled_cons (hx : '\r' ∉ c :: x) (hc : isBlank c = false) : Settled limits (c :: x) := by
  -- every token takes a character, so that the induction is on how many are left
  induction hn : x.length using Nat.strongRecOn generalizing c x with
  | _ n ih =>
    intro p h
    rw [said_onText_cons hc] at h
    cases ht : token limits c (onText (c :: x) p) with
    | error e =>
      rw [ht] at h
      cases h
    | ok a =>
      obtain ⟨l, k⟩ := a
      obtain ⟨w, y, htext, hw, hleaves⟩ := token_takes hx ht
      have hy : '\r' ∉ y := fun hr => hx (htext ▸ List.mem_append_right w hr)
      have hshorter : y.length ≤ x.length := by
        have hlength := congrArg List.length htext
        have hpos := List.length_pos_of_ne_nil hw.ne_nil
        simp only [List.length_cons, List.length_append] at hlength
        omega
      have hsettled : ∀ d v, d :: v <:+ y → isBlank d = false → Settled limits (d :: v) :=
        fun d v hv hd => by
        have hlength := hv.length_le
        rw [List.length_cons] at hlength
        exact ih v.length (by omega) (fun hr => hy (hv.subset hr)) hd rfl
      have hread (z : List Char) : (onText (c :: x ++ z) p).said limits =
          told limits (token limits c (onText (c :: x ++ z) p)) := said_onText_cons hc _ p
      have hstart := hleaves [] .nil
      rw [List.append_nil, List.append_nil] at hstart
      rw [hstart] at h
      rw [htext]
      cases hname : endsName w with
      | true =>
        rw [hname, if_pos rfl] at h
        simp only [hname, if_true] at hleaves
        by_cases hnil : y = []
        · subst hnil
          rw [List.append_nil, hname, ← List.append_nil w, ← htext]
          exact .raw [l] _ fun z hz => by rw [hread, hleaves z hz]; rfl
        · rw [endsName_append w hnil, ← htext]
          refine ((settled_of_ne_nil hy hnil hsettled _ h).after [l]).congr fun z hz => ?_
          rw [hread, hleaves z hz]
          rfl
      | false =>
        have hends : endsName (w ++ y) = endsName y := by
          by_cases hnil : y = []
          · rw [hnil, List.append_nil, hname]
            rfl
          · exact endsName_append w hnil
        rw [hname, if_neg (by decide), told_labelled] at h
        simp only [hname, if_false, Bool.false_eq_true] at hleaves
        rw [hends, ← htext]
        refine (enters_ofSource hy hsettled h).congr fun z hz => ?_
        rw [hread, hleaves z hz, told_labelled]

/-! ## Comments -/

/-- Folding line ends leaves the last character alone, unless it is one of them. -/
lemma endsName_foldLines (x : List Char) : endsName (foldLines x) = endsName x := by
  have hfeed : continuesName '\n' = false := by decide
  have hreturn : continuesName '\r' = false := by decide
  fun_induction foldLines x with
  | case1 r ih => simp only [endsName_cons_of_not hfeed, endsName_cons_of_not hreturn, ih]
  | case2 r hr ih => simp only [endsName_cons_of_not hfeed, endsName_cons_of_not hreturn, ih]
  | case3 c r hr hc ih =>
    by_cases hnil : r = []
    · subst hnil
      rfl
    · rw [endsName_cons_of_ne_nil c hnil, endsName_cons_of_ne_nil c fun h =>
        hnil (foldLines_eq_nil.1 h), ih]
  | case4 => rfl

/-- A slash that is taken as it stands is a division, and what follows it is read like a text of its
own. -/
lemma said_slash (w : List Char) (p q : Position) :
    (onText ('/' :: '*' :: w) p).said limits =
      (behind limits none (ofSource limits.comment ⟨'*' :: w, q⟩)).after [.symbol .divide] := by
  have hstar : ofSource limits.comment ⟨'*' :: w, p.after '/'⟩
    = .ok (onText ('*' :: w) (p.after '/')) := by
    unfold ofSource
    rw [nextSignificant_of_other (next?_cons (by decide) _ _) (by decide) (by simp),
      onText_cons (by decide)]
  rw [said_onText_cons (by decide), token_of_mark (by decide) (by decide),
    symbol_of_single? rfl (by decide) rfl,
    told_labelled, behind_ofSource q (p.after '/'), hstar]
  rfl

lemma said_foldLines (limits : Limits) (text : String) :
    (Tokens.ofString limits text).said = behind limits none
      (ofSource limits.comment ⟨foldLines text.toList, .start⟩) := by
  rw [Tokens.ofString_foldLines, ← said_ofString]
  refine said_of_settle ?_
  unfold ofString Source.ofString
  rw [String.toList_ofList]
  rfl

end Lexer

/-! ## Every text -/

/-- Between two tokens, in front of the first and behind the last one, a comment says what a blank
says, unless it directly follows a name, a reserved word or a number.  There its opening slash is a
division, and the text behind the slash is read as it stands. -/
theorem comment_is_blank {limits : Limits} {before body after : String}
    (hbefore : (Tokens.ofString limits before).said.stopped = none)
    (hbody : ¬"*/".toList <:+: body.toList) (hlength : (body.length : Int) ≤ limits.comment) :
    (Lexer.endsName before.toList = false →
      (Tokens.ofString limits (before ++ ("/*" ++ body ++ "*/" ++ after))).said =
        (Tokens.ofString limits (before ++ (" " ++ after))).said) ∧
    (Lexer.endsName before.toList = true →
      (Tokens.ofString limits (before ++ ("/*" ++ body ++ "*/" ++ after))).said =
        (Tokens.ofString limits ("*" ++ body ++ "*/" ++ after)).said.after
          ((Tokens.ofString limits before).said.lexemes ++ [.symbol .divide])) := by
  have hstar : foldLines ("*" ++ body ++ "*/" ++ after).toList =
      '*' :: (foldLines body.toList ++ '*' :: '/' :: foldLines after.toList) := by
    have htext : ("*" ++ body ++ "*/" ++ after).toList
      = '*' :: (body.toList ++ '*' :: '/' :: after.toList) := by simp
    rw [htext, foldLines_cons (by decide), foldLines_append (by simp), foldLines_cons (by decide),
      foldLines_cons (by decide)]
  have hcomment : (before ++ ("/*" ++ body ++ "*/" ++ after)).toList =
      before.toList ++ '/' :: ("*" ++ body ++ "*/" ++ after).toList := by simp
  have hblank : (before ++ (" " ++ after)).toList = before.toList ++ ' ' :: after.toList := by simp
  simp only [Lexer.said_foldLines] at hbefore ⊢
  rw [hcomment, hblank, foldLines_append (by simp), foldLines_append (by simp),
    foldLines_cons (by decide),
    foldLines_cons (by decide), hstar]
  have henters := Lexer.enters_ofSource (return_notMem_foldLines before.toList)
    (fun c y hsuffix hc =>
      Lexer.settled_cons (fun hr => return_notMem_foldLines _ (hsuffix.subset hr)) hc) hbefore
  rw [Lexer.endsName_foldLines] at henters
  generalize Lexer.endsName before.toList = b at henters
  cases henters with
  | significant xs last q h =>
    refine ⟨fun _ => ?_, fun hname => absurd hname (by decide)⟩
    beta_reduce at h
    have hcomment : Filler limits.comment
      ('/' :: '*' :: (foldLines body.toList ++ '*' :: '/' :: [])) := by
      have hle := length_foldLines_le body.toList
      rw [String.length_toList] at hle
      exact .comment (Unclosed.foldLines hbody) (by omega) .nil
    have hblank : Filler limits.comment [' '] := .blank (by decide) .nil
    obtain ⟨q₁, hq₁, -⟩ :=
      Lexer.ofSource_filler (Int.le_max_left _ 0) hcomment (foldLines after.toList) q
    obtain ⟨q₂, hq₂, -⟩ :=
      Lexer.ofSource_filler (Int.le_max_left _ 0) hblank (foldLines after.toList) q
    simp only [List.cons_append, List.append_assoc, List.nil_append] at hq₁ hq₂
    rw [h _ (by simp [Apart]), h _ (by simp [Apart]), hq₁, hq₂, Lexer.behind_ofSource q₁ q₂]
  | raw xs q h =>
    refine ⟨fun hname => absurd hname (by decide), fun _ => ?_⟩
    beta_reduce at h
    have hself := h [] .nil
    rw [List.append_nil] at hself
    rw [h _ (by simp [Apart]), hself, Lexer.said_slash _ _ .start, Said.after_after,
      Lexer.said_of_empty rfl rfl]
    simp [Said.after]

/-- A comment directly behind a name is no blank. -/
theorem comment_is_blank_name :
    (Tokens.ofString {} "a").said.stopped = none ∧ ¬"*/".toList <:+: "c".toList ∧
      ("c".length : Int) ≤ ({} : Limits).comment ∧
      (Tokens.ofString {} ("a" ++ ("/*" ++ "c" ++ "*/" ++ "b"))).said.lexemes =
        [.identifier "a", .symbol .divide, .symbol .times, .identifier "c", .symbol .times,
          .symbol .divide,
          .identifier "b"] ∧
      (Tokens.ofString {} ("a" ++ (" " ++ "b"))).said.lexemes
        = [.identifier "a", .identifier "b"] := by
  have hbefore : (Tokens.ofString {} "a").said.stopped = none := by decide +kernel
  have hbody : ¬"*/".toList <:+: "c".toList := by decide
  have hlength : ("c".length : Int) ≤ ({} : Limits).comment := by decide
  refine ⟨hbefore, hbody, hlength, ?_, by with_unfolding_all rfl⟩
  rw [(comment_is_blank hbefore hbody hlength).2 (by decide)]
  with_unfolding_all rfl

end AudLang
