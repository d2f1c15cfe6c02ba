import AudLang.Proofs.Lexing
import AudLang.Text.LineEnds

/-!
Texts without carriage returns.

Reading folds line ends, so that a text has the tokens of its folded text
(`Tokens.ofString_foldLines`).  In a text without carriage returns one character after the other is
read, and what is skipped can be read off the text.
-/

namespace AudLang

open Source Text

/-! ## Folded texts -/

namespace Text

variable {c : Char} {x y z : List Char}

lemma foldLines_of_foldedHead? (h : foldedHead? x = some (c, y)) :
    foldLines x = c :: foldLines y := by
  unfold foldedHead? at h
  split at h <;> cases h
  · rw [foldLines]
  · rw [foldLines]
    assumption
  · rw [foldLines]
    · simp_all
    · assumption

lemma foldedHead?_eq_none (h : foldedHead? x = none) : x = [] := by
  unfold foldedHead? at h
  split at h
  · rfl
  all_goals cases h

lemma foldLines_eq_nil : foldLines x = [] ↔ x = [] := by
  constructor
  · intro h
    cases hx : foldedHead? x with
    | none => exact foldedHead?_eq_none hx
    | some a =>
      rw [foldLines_of_foldedHead? hx] at h
      cases h
  · rintro rfl
    rfl

lemma return_notMem_foldLines (x : List Char) : '\r' ∉ foldLines x := by
  fun_induction foldLines x <;> simp_all [eq_comm]

lemma foldLines_of_notMem (h : '\r' ∉ x) : foldLines x = x := by
  fun_induction foldLines x <;> simp_all

lemma foldLines_append (hz : z.head? ≠ some '\n') (x : List Char) :
    foldLines (x ++ z) = foldLines x ++ foldLines z := by
  fun_induction foldLines x with
  | case1 r ih => rw [List.cons_append, List.cons_append, foldLines, ih]; rfl
  | case2 r hr ih =>
    rw [List.cons_append, foldLines, ih]
    · rfl
    · intro w hw
      cases r with
      | nil => exact hz (by rw [← List.nil_append z, hw]; rfl)
      | cons d r =>
        cases hw
        exact hr r rfl
  | case3 c r hr hc ih => rw [List.cons_append, foldLines_cons hc, ih, List.cons_append]
  | case4 => rfl

lemma head?_foldLines (hreturn : c ≠ '\r') (hfeed : c ≠ '\n') : (foldLines x).head? = some c ↔
    x.head? = some c := by
  fun_induction foldLines x <;> simp_all [eq_comm]

end Text

/-! ## Folding does not matter -/

lemma Source.twins_foldLines :
    Twins Eq fun s s' => s.position = s'.position ∧ foldLines s.rest = foldLines s'.rest where
  place h := h.1
  ends {s s'} h hn := by
    rw [next?_eq_none] at hn ⊢
    rw [← foldLines_eq_nil, ← h.2, hn]
    rfl
  goes {s s' c t} h hn := by
    obtain ⟨hread, hplace⟩ := next?_eq_some.1 hn
    have hfold := foldLines_of_foldedHead? hread
    cases hread' : foldedHead? s'.rest with
    | none =>
      rw [h.2, foldedHead?_eq_none hread'] at hfold
      cases hfold
    | some a =>
      rw [h.2, foldLines_of_foldedHead? hread'] at hfold
      injection hfold with hchar hrest
      subst hchar
      exact ⟨⟨a.2, s'.position.after a.1⟩,
        next?_eq_some.2 ⟨hread', rfl⟩, by rw [hplace, h.1], hrest.symm⟩

/-- Texts that are alike up to their line ends have the same tokens. -/
lemma Tokens.ofString_congr (limits : Limits) {text text' : String}
    (h : foldLines text.toList = foldLines text'.toList) :
    ofString limits text = ofString limits text' := by
  have hpaired : Lexer.Paired
    (fun s s' => s.position = s'.position ∧ foldLines s.rest = foldLines s'.rest)
      (.ofString text) (.ofString text') := ⟨rfl, rfl, h⟩
  obtain ⟨htokens, hstop⟩ := Lexer.run_twins Source.twins_foldLines limits hpaired
  have hsame : ((Lexer.ofString text).run limits).1.map
    (·.1) = ((Lexer.ofString text').run limits).1.map (·.1) := by
    rw [← List.forall₂_eq_eq_eq, List.forall₂_map_left_iff, List.forall₂_map_right_iff]
    refine htokens.imp fun a b hab => ?_
    obtain ⟨⟨l, p⟩, k⟩ := a
    obtain ⟨⟨l', p'⟩, k'⟩ := b
    obtain ⟨rfl, rfl⟩ := hab
    rfl
  unfold ofString
  simp only [hsame, hstop.eq]

lemma Tokens.ofString_foldLines (limits : Limits) (text : String) :
    ofString limits text = ofString limits (String.ofList (foldLines text.toList)) :=
  ofString_congr limits
    (by rw [String.toList_ofList, foldLines_of_notMem (return_notMem_foldLines _)])

/-! ## Comments -/

/-- No comment ends in the text. -/
def Unclosed (x : List Char) : Prop := ¬['*', '/'] <:+: x

instance {x : List Char} : Decidable (Unclosed x) := inferInstanceAs (Decidable ¬_)

namespace Unclosed

variable {c : Char} {x : List Char}

lemma cons (h : Unclosed x) (hc : ¬(c = '*' ∧ x.head? = some '/')) : Unclosed (c :: x) := by
  intro hx
  rcases List.infix_cons_iff.1 hx with hprefix | hinfix
  · obtain ⟨y, hy⟩ := hprefix
    cases hy
    exact hc ⟨rfl, rfl⟩
  · exact h hinfix

lemma tail (h : Unclosed (c :: x)) : Unclosed x ∧ ¬(c = '*' ∧ x.head? = some '/') := by
  refine ⟨fun hx => h (hx.trans (List.suffix_cons c x).isInfix), ?_⟩
  rintro ⟨rfl, hx⟩
  obtain ⟨y, rfl⟩ := List.head?_eq_some_iff.1 hx
  exact h ⟨[], y, rfl⟩

lemma foldLines (h : Unclosed x) : Unclosed (foldLines x) := by
  fun_induction Text.foldLines x with
  | case1 r ih => exact (ih h.tail.1.tail.1).cons (by simp)
  | case2 r hr ih => exact (ih h.tail.1).cons (by simp)
  | case3 c r hr hc ih =>
    refine (ih h.tail.1).cons ?_
    rw [head?_foldLines (by decide) (by decide)]
    exact h.tail.2
  | case4 => exact h

end Unclosed

/-- A text goes on to the first end of a comment, or has none. -/
lemma exists_closed_or_unclosed (x : List Char) :
    (∃ body y, x = body ++ '*' :: '/' :: y ∧ Unclosed body) ∨ Unclosed x := by
  induction x with
  | nil => exact .inr (by simp [Unclosed])
  | cons c x ih =>
    by_cases hc : c = '*' ∧ x.head? = some '/'
    · obtain ⟨rfl, hx⟩ := hc
      obtain ⟨y, rfl⟩ := List.head?_eq_some_iff.1 hx
      exact .inl ⟨[], y, rfl, by simp [Unclosed]⟩
    · rcases ih with ⟨body, y, rfl, hbody⟩ | hx
      · refine .inl ⟨c :: body, y, rfl, hbody.cons fun hc' => hc ⟨hc'.1, ?_⟩⟩
        rw [List.head?_append, hc'.2]
        rfl
      · exact .inr (hx.cons hc)

/-- The characters of a comment, behind the `seen` ones, come to more than the limit. -/
def TooLong (limit : Int) (seen : Nat) (body : List Char) : Prop :=
  body ≠ [] ∧ limit < seen + body.length

instance {limit : Int} {seen : Nat} {body : List Char} : Decidable (TooLong limit seen body) :=
  inferInstanceAs (Decidable (_ ∧ _))

namespace Source

variable {limit : Int} {opened p : Position} {seen : Nat} {s t : Source} {c : Char}
  {body x y : List Char}

lemma tooLong_cons :
    TooLong limit seen (c :: body) ↔ limit < seen + 1 ∨ TooLong limit (seen + 1) body := by
  unfold TooLong
  cases body with
  | nil => simp
  | cons d body =>
    simp only [ne_eq, reduceCtorEq, not_false_eq_true, List.length_cons, true_and]
    omega

lemma tooLong_iff : TooLong limit 0 body ↔ max limit 0 < body.length := by
  unfold TooLong
  cases body with
  | nil => simp [Int.le_max_right]
  | cons c body =>
    simp only [ne_eq, reduceCtorEq, not_false_eq_true, List.length_cons, true_and]
    omega

/-- One character more of a comment. -/
lemma skipComment_cons (hnext : s.next? = some (c, t)) (hc : ¬(c = '*' ∧ t.peek? = some '/'))
    {r : Except LexError Source} (hskip : skipComment limit opened (seen + 1) t =
      if TooLong limit (seen + 1)
        body then .error (.flawed (.commentTooLong limit) opened) else r) :
    skipComment limit opened seen s =
      if TooLong limit seen
        (c :: body) then .error (.flawed (.commentTooLong limit) opened) else r := by
  rw [skipComment_of_other hnext hc, hskip]
  by_cases hroom : limit < seen + 1
  · rw [if_pos hroom, if_pos (tooLong_cons.2 (.inl hroom))]
  · simp only [tooLong_cons, hroom, false_or, if_false]

/-- A comment that has an end is skipped up to there unless it is too long. -/
lemma skipComment_closed (hbody : Unclosed body) (y : List Char) (p : Position) :
    skipComment limit opened seen ⟨body ++ '*' :: '/' :: y, p⟩ =
      if TooLong limit seen (foldLines body) then .error (.flawed (.commentTooLong limit) opened)
      else .ok ⟨y, (foldLines body ++ ['*', '/']).foldl Position.after p⟩ := by
  fun_induction foldLines body generalizing seen p with
  | case1 r ih => exact skipComment_cons rfl (by simp) (ih hbody.tail.1.tail.1 _)
  | case2 r hr ih =>
    have hhead : (r ++ '*' :: '/' :: y).head? ≠ some '\n' := by
      cases r with
      | nil => simp
      | cons d r => exact fun h => hr r (by cases h; rfl)
    exact skipComment_cons (next?_return hhead p) (by simp) (ih hbody.tail.1 _)
  | case3 c r hr hc ih =>
    obtain ⟨hbody, hopen⟩ := hbody.tail
    refine skipComment_cons (next?_cons hc _ p) ?_ (ih hbody _)
    rintro ⟨rfl, hp⟩
    rw [peek?_eq_head?] at hp
    cases r with
    | nil => cases hp
    | cons d r => exact hopen ⟨rfl, hp⟩
  | case4 => rw [List.nil_append, skipComment_of_close rfl rfl rfl, if_neg fun h => h.1 rfl]; rfl

/-- A comment without an end is found to be too long or without an end, whichever comes first. -/
lemma skipComment_unclosed (hx : Unclosed x) (hreturn : '\r' ∉ x) (p : Position) :
    skipComment limit opened seen ⟨x, p⟩ =
      .error (.flawed (if TooLong limit seen x then .commentTooLong limit else .unterminatedComment)
        opened) := by
  have hskip : skipComment limit opened seen ⟨x, p⟩ =
      if TooLong limit seen x then .error (.flawed (.commentTooLong limit) opened)
      else .error (.flawed .unterminatedComment opened) := by
    induction x generalizing p seen with
    | nil => rw [skipComment_of_end rfl, if_neg fun h => h.1 rfl]
    | cons c x ih =>
      obtain ⟨hc, hreturn⟩ := List.ne_and_not_mem_of_not_mem_cons hreturn
      refine skipComment_cons (next?_cons (Ne.symm hc) x p) ?_ (ih hx.tail.1 hreturn _)
      rw [peek?_eq_head?]
      exact hx.tail.2
  rw [hskip]
  split <;> rfl

end Source

/-! ## Gaps -/

/-- Blanks and comments of up to `limit` characters. -/
inductive Filler (limit : Int) : List Char → Prop
  | nil : Filler limit []
  | blank {c : Char} {x : List Char} (hc : Text.isBlank c = true) (h : Filler limit x) :
      Filler limit (c :: x)
  | comment {body x : List Char} (hbody : ¬['*', '/'] <:+: body)
      (hlength : (body.length : Int) ≤ limit)
      (h : Filler limit x) : Filler limit ('/' :: '*' :: (body ++ '*' :: '/' :: x))

lemma Filler.append {limit : Int} {x y : List Char} (hx : Filler limit x) (hy : Filler limit y) :
    Filler limit (x ++ y) := by
  induction hx with
  | nil => exact hy
  | blank hc _ ih => exact .blank hc ih
  | comment hbody hlength _ ih =>
    simp only [List.cons_append, List.append_assoc]
    exact .comment hbody hlength ih

/-- Behind a blank or a slash nothing goes on that stands in front of it; behind the end of a text
nothing does. -/
def Apart (z : List Char) : Prop := ∀ c ∈ z.head?, c = ' ' ∨ c = '/'

lemma Apart.nil : Apart [] := by simp [Apart]

lemma Apart.head?_append_iff {c : Char} {z : List Char} (hz : Apart z) (hblank : c ≠ ' ')
    (hslash : c ≠ '/') (x : List Char) : (x ++ z).head? = some c ↔ x.head? = some c := by
  cases x with
  | cons d x => rfl
  | nil =>
    refine ⟨fun h => ?_, by simp⟩
    rcases hz c h with rfl | rfl
    · exact absurd rfl hblank
    · exact absurd rfl hslash

/-- What does not go on with a text does not go on with one that stands apart, either. -/
lemma Apart.forall_head? {q : Char → Bool} {y z : List Char} (hz : Apart z) (hblank : q ' ' = false)
    (hslash : q '/' = false) (hy : ∀ d ∈ y.head?, q d = false) :
    ∀ d ∈ (y ++ z).head?, q d = false := by
  cases y with
  | cons d y => exact hy
  | nil =>
    intro d hd
    rcases hz d hd with rfl | rfl
    · exact hblank
    · exact hslash

section

variable {limit : Int} {s t : Source} {p : Position} {c : Char} {c? : Option Char}
  {gap x y : List Char}

lemma Source.rest_of_next? (hs : '\r' ∉ s.rest) (h : s.next? = some (c, t)) :
    s.rest = c :: t.rest ∧ '\r' ∉ t.rest ∧ t.position = s.position.after c := by
  obtain ⟨hread, hplace⟩ := next?_eq_some.1 h
  unfold foldedHead? at hread
  split at hread <;> cases hread <;> simp_all

/-- A comment that has an end, or none. -/
lemma Source.skipComment_ok {opened : Position} {seen : Nat} (hs : '\r' ∉ s.rest)
    (h : skipComment limit opened seen s = .ok t) :
    ∃ body y, s.rest = body ++ '*' :: '/' :: y ∧ Unclosed body ∧ ¬TooLong limit seen body ∧
      t = ⟨y, (body ++ ['*', '/']).foldl Position.after s.position⟩ := by
  obtain ⟨x, p⟩ := s
  rcases exists_closed_or_unclosed x with ⟨body, y, rfl, hbody⟩ | hx
  · have hfold : foldLines body = body := foldLines_of_notMem fun h => hs (List.mem_append_left _ h)
    rw [skipComment_closed hbody, hfold] at h
    split at h
    · cases h
    · cases h
      exact ⟨body, y, rfl, hbody, ‹_›, rfl⟩
  · rw [skipComment_unclosed hx hs] at h
    cases h

/-- A significant character is no blank, and where there is none, nothing is left. -/
lemma Source.nextSignificant_settled (h : nextSignificant limit s = .ok (c?, t)) :
    (∀ c ∈ c?, isBlank c = false) ∧ (c? = none → t.rest = []) := by
  fun_induction nextSignificant limit s with
  | case1 s hn =>
    cases h
    exact ⟨by simp, fun _ => next?_eq_none.1 hn⟩
  | case2 s c t' hn hc ih => exact ih h
  | case3 s c t' hn hc hp hu =>
    obtain ⟨d, u, hu'⟩ := exists_next?_of_peek? hp.2
    cases hu.symm.trans hu'
  | case4 => cases h
  | case5 s c t' hn hc hp d u hu v hv ih => exact ih h
  | case6 s c t' hn hc hp =>
    cases h
    exact ⟨by rintro _ ⟨⟩; simpa using hc, by simp⟩

/-- In front of a significant character, or of the end, there are only blanks and comments. -/
lemma Source.nextSignificant_ok (hs : '\r' ∉ s.rest) (h : nextSignificant limit s = .ok (c?, t)) :
    ∃ gap y, s.rest = gap ++ (c?.toList ++ y) ∧ Filler (max limit 0) gap ∧
      t = ⟨y, (gap ++ c?.toList).foldl Position.after s.position⟩ ∧
        ∀ c ∈ c?, ¬(c = '/' ∧ y.head? = some '*') := by
  fun_induction nextSignificant limit s with
  | case1 s hn =>
    obtain ⟨x, p⟩ := s
    obtain rfl : x = [] := next?_eq_none.1 hn
    cases h
    exact ⟨[], [], rfl, .nil, rfl, by simp⟩
  | case2 s c t' hn hc ih =>
    obtain ⟨hrest, hs', hplace⟩ := rest_of_next? hs hn
    obtain ⟨gap, y, hy, hgap, rfl, hend⟩ := ih hs' h
    exact ⟨c :: gap, y, by rw [hrest, hy]; rfl, .blank hc hgap, by rw [hplace]; rfl, hend⟩
  | case3 s c t' hn hc hp hu =>
    obtain ⟨d, u, hu'⟩ := exists_next?_of_peek? hp.2
    cases hu.symm.trans hu'
  | case4 => cases h
  | case5 s c t' hn hc hp d u hu v hv ih =>
    obtain ⟨hrest, hs', hplace⟩ := rest_of_next? hs hn
    obtain ⟨hrest', hs'', hplace'⟩ := rest_of_next? hs' hu
    obtain ⟨rfl, hstar⟩ := hp
    rw [peek?_eq_head?, hrest'] at hstar
    cases hstar
    obtain ⟨body, w, hw, hbody, hlong, rfl⟩ := skipComment_ok hs'' hv
    obtain ⟨gap, y, rfl, hgap, rfl, hend⟩ := ih (fun h => hs'' (by rw [hw]; simp [h])) h
    refine ⟨'/' :: '*' :: (body ++ '*' :: '/' :: gap), y, ?_, .comment hbody ?_ hgap, ?_, hend⟩
    · simp [hrest, hrest', hw]
    · exact Int.not_lt.1 (mt tooLong_iff.2 hlong)
    · simp [hplace, hplace']
  | case6 s c t' hn hc hp =>
    cases h
    obtain ⟨hrest, hs', hplace⟩ := rest_of_next? hs hn
    refine ⟨[], t.rest, hrest,
      .nil, by rw [List.nil_append, Option.toList_some, List.foldl_cons, List.foldl_nil, ← hplace],
      ?_⟩
    rintro _ ⟨⟩
    rwa [← peek?_eq_head?]

lemma Source.nextSignificant_blank (limit : Int) (hc : isBlank c = true) (x : List Char)
    (p : Position) :
    ∃ q, nextSignificant limit ⟨c :: x, p⟩ = nextSignificant limit ⟨x, q⟩ ∧
      (c ≠ '\r' → q = p.after c) := by
  by_cases hreturn : c = '\r'
  · subst hreturn
    by_cases hfeed : x.head? = some '\n'
    · -- a line feed is read together with the carriage return in front of it
      obtain ⟨y, rfl⟩ := List.head?_eq_some_iff.1 hfeed
      have hskip : nextSignificant limit ⟨'\n' :: y, p⟩ = _ :=
        nextSignificant_of_blank rfl (by decide)
      exact ⟨p, by rw [hskip, nextSignificant_of_blank rfl (by decide)], absurd rfl⟩
    · exact ⟨_, nextSignificant_of_blank (next?_return hfeed p) (by decide), absurd rfl⟩
  · exact ⟨_, nextSignificant_of_blank (next?_cons hreturn x p) hc, fun _ => rfl⟩

lemma Source.nextSignificant_filler {bound : Int} (hbound : bound ≤ max limit 0)
    (hgap : Filler bound gap) (y : List Char) (p : Position) :
    ∃ q, nextSignificant limit ⟨gap ++ y, p⟩ = nextSignificant limit ⟨y, q⟩ ∧
      ('\r' ∉ gap → q = gap.foldl Position.after p) := by
  induction hgap generalizing p with
  | nil => exact ⟨p, rfl, fun _ => rfl⟩
  | @blank c x hc _ ih =>
    obtain ⟨q, hskip, hq⟩ := nextSignificant_blank limit hc (x ++ y) p
    obtain ⟨q', hskip', hq'⟩ := ih q
    refine ⟨q', hskip.trans hskip', fun hreturn => ?_⟩
    obtain ⟨hne, hreturn⟩ := List.ne_and_not_mem_of_not_mem_cons hreturn
    rw [hq' hreturn, hq (Ne.symm hne)]
    rfl
  | @comment body x hbody hlength _ ih =>
    have hshort : ¬TooLong limit 0 (foldLines body) := by
      have hle := length_foldLines_le body
      rw [tooLong_iff]
      omega
    have htext : '/' :: '*' :: (body ++ '*' :: '/' :: x) ++ y
      = '/' :: '*' :: (body ++ '*' :: '/' :: (x ++ y)) := by simp
    obtain ⟨q', hskip', hq'⟩ :=
      ih ((foldLines body ++ ['*', '/']).foldl Position.after ((p.after '/').after '*'))
    refine ⟨q', ?_, fun hreturn => ?_⟩
    · rw [htext, nextSignificant_of_comment (next?_cons (by decide) _ p) rfl
        (next?_cons (by decide) _ _),
        skipComment_closed hbody, if_neg hshort]
      exact hskip'
    · rw [hq' fun h => hreturn (by simp [h]), foldLines_of_notMem fun h => hreturn (by simp [h])]
      simp

end

end AudLang
