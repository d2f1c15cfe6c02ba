import AudLang.Proofs.Places

/-!
The characters that mean something.

A text is cut into the characters outside of comments and the comments between them.  A comment runs
from a slash and an asterisk to the first asterisk and slash behind them.  What is left of the text
are the characters outside of comments that are no blanks, up to the first comment that has no end
or is too long.
-/

namespace AudLang

open Position Text

/-! ## Cuts -/

/-- A stretch of a text: a character outside of comments, a comment, or a comment that has no
end. -/
inductive Stretch where
  | code (c : Char)
  | comment (body : List Char)
  | unclosed (body : List Char)

/-- A stretch as it stands in the text. -/
def Stretch.text : Stretch → List Char
  | code c => [c]
  | comment body => '/' :: '*' :: (body ++ ['*', '/'])
  | unclosed body => '/' :: '*' :: body

/-- The stretches of a text one after the other. -/
inductive Cut : List Char → List Stretch → Prop
  | nil : Cut [] []
  | code {c : Char} {x : List Char} {ss : List Stretch} (hc : ¬(c = '/' ∧ x.head? = some '*'))
      (h : Cut x ss) :
    Cut (c :: x) (.code c :: ss)
  | comment {body x : List Char} {ss : List Stretch} (hbody : Unclosed body) (h : Cut x ss) :
    Cut ('/' :: '*' :: (body ++ '*' :: '/' :: x)) (.comment body :: ss)
  | unclosed {body : List Char} (hbody : Unclosed body) : Cut ('/' :: '*' :: body) [.unclosed body]

lemma exists_cut (x : List Char) : ∃ ss, Cut x ss := by
  -- a comment goes at once, so that the induction is on the length
  induction hn : x.length using Nat.strongRecOn generalizing x with
  | _ n ih =>
    subst hn
    cases x with
    | nil => exact ⟨[], .nil⟩
    | cons c x =>
      by_cases hc : c = '/' ∧ x.head? = some '*'
      · obtain ⟨rfl, hx⟩ := hc
        obtain ⟨y, rfl⟩ := List.head?_eq_some_iff.1 hx
        rcases exists_closed_or_unclosed y with ⟨body, z, rfl, hbody⟩ | hy
        · obtain ⟨ss, hss⟩ := ih z.length
            (by simp only [List.length_cons, List.length_append]; omega) z rfl
          exact ⟨_, .comment hbody hss⟩
        · exact ⟨_, .unclosed hy⟩
      · obtain ⟨ss, hss⟩ := ih x.length (Nat.lt_succ_self _) x rfl
        exact ⟨_, .code hc hss⟩

/-! ## What is left -/

namespace Stretch

/-- What is wrong with a stretch: a comment may hold up to `limit` characters, or none for a limit
below zero, and has an end. -/
def flaw? (limit : Int) : Stretch → Option LexFlaw
  | code _ => none
  | comment body => if max limit 0 < body.length then some (.commentTooLong limit) else none
  | unclosed body =>
    some (if max limit 0 < body.length then .commentTooLong limit else .unterminatedComment)

/-- The characters outside of comments that are no blanks, each with its place behind the text that
has been read. -/
def kept : List Char → List Stretch → List (Char × Position)
  | _, [] => []
  | read, s :: ss =>
    match s with
    | code c =>
      if isBlank c then kept (read ++ s.text) ss else (c, .reached (read ++ [c])) :: kept
        (read ++ s.text) ss
    | _ => kept (read ++ s.text) ss

/-- The stretches in front of the first one that something is wrong with. -/
def sound (limit : Int) (ss : List Stretch) : List Stretch :=
  ss.takeWhile fun s => (s.flaw? limit).isNone

/-- Where reading ends: at the end of the text, or at the opening asterisk of the first comment that
something is wrong with. -/
def stop (limit : Int) (read : List Char) (ss : List Stretch) : Except LexError Position :=
  match ss.findSome? (flaw? limit) with
  | none => .ok (.reached (read ++ ss.flatMap text))
  | some flaw =>
    .error (.flawed flaw (.reached (read ++ (sound limit ss).flatMap text ++ ['/', '*'])))

variable {limit : Int} {s : Stretch} {ss : List Stretch} {flaw : LexFlaw}

lemma sound_cons (h : s.flaw? limit = none) : sound limit (s :: ss) = s :: sound limit ss :=
  List.takeWhile_cons_of_pos (by simp [h])

lemma stop_cons (h : s.flaw? limit = none) (read : List Char) :
    stop limit read (s :: ss) = stop limit (read ++ s.text) ss := by
  simp only [stop, sound_cons h, List.findSome?_cons, h, List.flatMap_cons, List.append_assoc]

lemma sound_of_flaw (h : s.flaw? limit = some flaw) : sound limit (s :: ss) = [] :=
  List.takeWhile_cons_of_neg (by simp [h])

lemma stop_of_flaw (h : s.flaw? limit = some flaw) (read : List Char) :
    stop limit read (s :: ss) = .error (.flawed flaw (.reached (read ++ ['/', '*']))) := by
  simp only [stop, sound_of_flaw h, List.findSome?_cons, h, List.flatMap_nil, List.append_nil]

end Stretch

/-! ## Reading -/

namespace Source

open Stretch

variable {limit : Int} {s s' t : Source} {c : Char}

lemma significant_of_error {e : LexError} (h : nextSignificant limit s = .error e) :
    significant limit s = ([], .error e) := by
  rw [significant]
  split <;> simp_all

lemma significant_of_end (h : nextSignificant limit s = .ok (none, t)) :
    significant limit s = ([], .ok t.position) := by
  rw [significant]
  split <;> simp_all

lemma significant_of_char (h : nextSignificant limit s = .ok (some c, t)) :
    significant limit s = ((c, t.position) :: (significant limit t).1,
      (significant limit t).2) := by
  rw [significant]
  split <;> simp_all

lemma significant_congr (h : nextSignificant limit s = nextSignificant limit t) :
    significant limit s = significant limit t := by
  cases hs : nextSignificant limit s with
  | error e => rw [significant_of_error hs, significant_of_error (h.symm.trans hs)]
  | ok a =>
    obtain ⟨c?, u⟩ := a
    cases c? with
    | none => rw [significant_of_end hs, significant_of_end (h.symm.trans hs)]
    | some c => rw [significant_of_char hs, significant_of_char (h.symm.trans hs)]

/-- Sources that are alike up to their line ends have the same significant characters. -/
lemma significant_eq (h : s.position = s'.position ∧ foldLines s.rest = foldLines s'.rest) :
    significant limit s = significant limit s' := by
  have hagree := nextSignificant_twins twins_foldLines limit h
  generalize hs' : nextSignificant limit s' = b at hagree
  fun_induction significant limit s generalizing s' b with
  | case1 s e hs =>
    rw [hs] at hagree
    cases hagree with
    | error hlike =>
      cases hlike with
      | flawed flaw hplace => rw [significant_of_error hs', hplace]
      | overflow what => rw [significant_of_error hs']
  | case2 s t hs =>
    rw [hs] at hagree
    cases hagree with
    | @ok _ b hsame =>
      obtain ⟨c?, t'⟩ := b
      obtain ⟨rfl, hplace, -⟩ := hsame
      rw [significant_of_end hs', hplace]
  | case3 s c t hs more stop hmore ih =>
    rw [hs] at hagree
    cases hagree with
    | @ok _ b hsame =>
      obtain ⟨c?, t'⟩ := b
      obtain ⟨rfl, ht⟩ := hsame
      have hrest := ih ht _ rfl (nextSignificant_twins twins_foldLines limit ht)
      rw [significant_of_char hs', ← hrest, hmore, ht.1]

/-- What is read of a text behind the text that has been read. -/
lemma significant_cut {x : List Char} {ss : List Stretch} (h : Cut x ss) (hx : '\r' ∉ x)
    (read : List Char) :
    significant limit ⟨x, reached read⟩ = (kept read (sound limit ss), stop limit read ss) := by
  induction h generalizing read with
  | nil =>
    rw [significant_of_end (nextSignificant_of_end rfl)]
    simp [stop, sound, kept]
  | @code c x ss hc h ih =>
    obtain ⟨hreturn, hx⟩ := List.ne_and_not_mem_of_not_mem_cons hx
    have hnext := next?_cons (Ne.symm hreturn) x (reached read)
    have hrest := ih hx (read ++ [c])
    rw [← reached_concat] at hnext
    rw [sound_cons rfl, stop_cons rfl, kept]
    cases hblank : isBlank c with
    | true => rw [significant_congr (nextSignificant_of_blank hnext hblank), hrest, if_pos rfl]; rfl
    | false =>
      have hother : ¬(c = '/' ∧
        peek? ⟨x, reached (read ++ [c])⟩ = some '*') := by rwa [peek?_eq_head?]
      rw [significant_of_char (nextSignificant_of_other hnext hblank hother), hrest,
        if_neg (by decide)]
      rfl
  | @comment body x ss hbody h ih =>
    have hopen : nextSignificant limit ⟨'/' :: '*' :: (body ++ '*' :: '/' :: x), reached read⟩
      = _ :=
      nextSignificant_of_comment (next?_cons (by decide) _ _) rfl (next?_cons (by decide) _ _)
    have hfold : foldLines body = body := foldLines_of_notMem fun h => hx (by simp [h])
    rw [skipComment_closed hbody, hfold, ← reached_concat, ← reached_concat] at hopen
    by_cases hlong : TooLong limit 0 body
    · have hflaw : (Stretch.comment body).flaw? limit = some (.commentTooLong limit) :=
        if_pos (tooLong_iff.1 hlong)
      rw [if_pos hlong] at hopen
      rw [significant_of_error hopen, sound_of_flaw hflaw, stop_of_flaw hflaw]
      simp [kept]
    · have hflaw : (Stretch.comment body).flaw? limit = none := if_neg (mt tooLong_iff.2 hlong)
      rw [if_neg hlong, foldl_after_reached] at hopen
      have hrest := ih (fun h => hx (by simp [h])) (read ++ ['/'] ++ ['*'] ++ (body ++ ['*', '/']))
      rw [significant_congr hopen, hrest, sound_cons hflaw, stop_cons hflaw]
      simp [kept, Stretch.text]
  | @unclosed body hbody =>
    have hopen : nextSignificant limit ⟨'/' :: '*' :: body, reached read⟩ = _ :=
      nextSignificant_of_comment (next?_cons (by decide) _ _) rfl (next?_cons (by decide) _ _)
    rw [skipComment_unclosed hbody fun h => hx (by simp [h]), ← reached_concat,
      ← reached_concat] at hopen
    have hflaw : (Stretch.unclosed body).flaw? limit = some _ := rfl
    rw [significant_of_error hopen, sound_of_flaw hflaw, stop_of_flaw hflaw]
    simp [kept, tooLong_iff]

/-- The significant characters of a text are those outside of comments that are no blanks, in their
order and at their places.  They end with the first comment that is too long or has no end, at its
opening asterisk.  It is too long if it has more characters than the limit, and more than none. -/
theorem significant_is_code (limit : Int) (text : String) :
    (∃ ss, Cut (foldLines text.toList) ss) ∧
      ∀ ss, Cut (foldLines text.toList) ss →
        significant limit (.ofString text) = (kept [] (sound limit ss), stop limit [] ss) := by
  refine ⟨exists_cut _, fun ss hss => ?_⟩
  have hfold : significant limit (.ofString text) = significant limit
    ⟨foldLines text.toList, reached []⟩ :=
    significant_eq ⟨rfl, (foldLines_of_notMem (return_notMem_foldLines _)).symm⟩
  rw [hfold, significant_cut hss (return_notMem_foldLines _) []]

/-- A comment of one character is skipped, and one without an end stops the text. -/
theorem significant_is_code_unclosed :
    Cut (foldLines "a\r\n/*b*/c/*d".toList)
        [.code 'a', .code '\n', .comment ['b'], .code 'c', .unclosed ['d']] ∧
      significant 1 (.ofString "a\r\n/*b*/c/*d") =
        ([('a', ⟨1, 1⟩), ('c', ⟨2, 6⟩)], .error (.flawed .unterminatedComment ⟨2, 8⟩)) := by
  have hcut : Cut (foldLines "a\r\n/*b*/c/*d".toList)
      [.code 'a', .code '\n', .comment ['b'], .code 'c', .unclosed ['d']] := by
    have hd : Cut ['/', '*', 'd'] [.unclosed ['d']] := .unclosed (by decide)
    have hb : Unclosed ['b'] := by decide
    exact .code (by decide) (.code (by decide) (.comment hb (.code (by decide) hd)))
  exact ⟨hcut, ((significant_is_code 1 _).2 _ hcut).trans (by rfl)⟩

/-- A limit below zero lets an empty comment pass, although it has more characters than that. -/
theorem empty_comment_passes :
    Cut "/**/a".toList [.comment [], .code 'a'] ∧ (-1 : Int) < ([] : List Char).length ∧
      significant (-1) (.ofString "/**/a") = ([('a', ⟨1, 5⟩)], .ok ⟨1, 5⟩) := by
  have hcut : Cut "/**/a".toList [.comment [], .code 'a'] :=
    .comment (show Unclosed [] by decide) (.code (by decide) .nil)
  exact ⟨hcut, by decide, by with_unfolding_all rfl⟩

end Source

end AudLang
