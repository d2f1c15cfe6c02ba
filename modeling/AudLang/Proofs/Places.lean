import AudLang.Proofs.Taking
import Mathlib.Order.Basic

/-!
The places of tokens.

Places are ordered by line and then by column, and reading a character moves on to a later place,
whatever the character is.  The tokens of a text stand in it one after the other, with only blanks
and comments between them, and each token has the place of its own first character.
-/

namespace AudLang

open Text

/-! ## Order -/

/-- Places, by line and then by column. -/
instance : Preorder Position where
  le p q := p.line < q.line ∨ p.line = q.line ∧ p.column ≤ q.column
  lt p q := p.line < q.line ∨ p.line = q.line ∧ p.column < q.column
  le_refl p := .inr ⟨rfl, Nat.le_refl _⟩
  le_trans p q r h h' := by omega
  lt_iff_le_not_ge p q := by omega

namespace Position

/-- The place of the last character of a text: lines count from one, and the characters of a line
from its start. -/
def reached (x : List Char) : Position :=
  ⟨1 + x.count '\n', (x.reverse.takeWhile (· ≠ '\n')).length⟩

lemma lt_after (p : Position) (c : Char) : p < p.after c := by
  unfold after
  split
  · exact .inl (Nat.lt_succ_self _)
  · exact .inr ⟨rfl, Nat.lt_succ_self _⟩

lemma reached_concat (x : List Char) (c : Char) : reached (x ++ [c]) = (reached x).after c := by
  by_cases hc : c = '\n'
  · subst hc
    simp [reached, after, Nat.add_assoc]
  · simp [reached, after, hc]

lemma foldl_after_reached (x y : List Char) : y.foldl after (reached x) = reached (x ++ y) := by
  induction y generalizing x with
  | nil => rw [List.append_nil, List.foldl_nil]
  | cons c y ih =>
    rw [List.foldl_cons, ← reached_concat, ih, List.append_assoc, List.singleton_append]

lemma reached_le (x y : List Char) : reached x ≤ reached (x ++ y) := by
  induction y generalizing x with
  | nil => rw [List.append_nil]
  | cons c y ih =>
    have hle := ih (x ++ [c])
    rw [List.append_assoc, List.singleton_append, reached_concat] at hle
    exact (lt_after _ c).le.trans hle

lemma reached_lt (x : List Char) {y : List Char} (hy : y ≠ []) : reached x < reached (x ++ y) := by
  obtain ⟨c, z, rfl⟩ := List.exists_cons_of_ne_nil hy
  have hle := reached_le (x ++ [c]) z
  rw [List.append_assoc, List.singleton_append, reached_concat] at hle
  exact (lt_after _ c).trans_le hle

end Position

/-! ## Lexers -/

namespace Lexer

variable {limits : Limits} {p : Position} {k k' : Lexer} {c : Char} {l : Lexeme} {x : List Char}

/-- Reading on to a significant character takes a gap. -/
lemma settle_ok (hx : '\r' ∉ x) (hk : k = onText x p ∨ k = ⟨none, ⟨x, p⟩⟩)
    (h : settle limits k = .ok k') :
    ∃ gap y, x = gap ++ y ∧ Filler (max limits.comment 0) gap ∧
      k' = onText y (gap.foldl Position.after p) := by
  by_cases hsource : settle limits k = ofSource limits.comment ⟨x, p⟩
  · obtain ⟨gap, y, htext, hgap, hk', -⟩ := ofSource_ok hx (hsource.symm.trans h)
    exact ⟨gap, y, htext, hgap, hk'⟩
  rcases hk with rfl | rfl
  · cases x with
    | nil => exact absurd (settle_onText (by simp [Detached]) p) hsource
    | cons c x =>
      cases hc : isBlank c with
      | true => exact absurd (settle_onText (by rintro _ ⟨⟩; exact hc) p) hsource
      | false =>
        rw [settle_onText_cons hc] at h
        cases h
        exact ⟨[], c :: x, rfl, .nil, rfl⟩
  · exact absurd rfl hsource

/-- A token takes the text that it is written in, and the gap behind it. -/
lemma token_ok (hx : '\r' ∉ c :: x) (h : token limits c (onText (c :: x) p) = .ok (l, k)) :
    ∃ w gap y, c :: x = w ++ (gap ++ y) ∧ l.WrittenAs w ∧ Filler (max limits.comment 0) gap ∧
      k = onText y ((w ++ gap).foldl Position.after p) := by
  obtain ⟨w, y, htakes⟩ := token_takes hx h
  have hread := htakes.leaves [] .nil
  rw [List.append_nil, List.append_nil, h] at hread
  split at hread
  · cases hread
    exact ⟨w, [], y, htakes.text, htakes.written, .nil, by rw [List.append_nil]⟩
  · cases hsource : ofSource limits.comment ⟨y, w.foldl Position.after p⟩ with
    | error e =>
      rw [hsource] at hread
      cases hread
    | ok k' =>
      rw [hsource] at hread
      cases hread
      have hy : '\r' ∉ y := fun hr => hx (htakes.text ▸ List.mem_append_right _ hr)
      obtain ⟨gap, y', rfl, hgap, rfl, -⟩ := ofSource_ok hy hsource
      exact ⟨w, gap, y', htakes.text, htakes.written, hgap, by rw [List.foldl_append]⟩

end Lexer

/-! ## Texts -/

/-- Behind the text that has been read, the text in front holds the tokens one after the other, and
then a rest.  Between them there are only blanks and comments.  Each token has the place of its own
first character. -/
inductive LaidOut (limit : Int) : List Char → List Char → List Token → List Char → Prop
  | nil (read rest : List Char) : LaidOut limit read rest [] rest
  | cons {read gap w x rest : List Char} {c : Char} {l : Lexeme} {ts : List Token}
      (hgap : Filler limit gap)
    (hw : l.WrittenAs (c :: w)) (h : LaidOut limit (read ++ gap ++ c :: w) x ts rest) :
    LaidOut limit read (gap ++ (c :: w ++ x)) (⟨l, .reached (read ++ gap ++ [c])⟩ :: ts) rest

namespace LaidOut

open Position

variable {limit : Int} {read x rest : List Char} {ts : List Token}

lemma lt_position (h : LaidOut limit read x ts rest) : ∀ t ∈ ts, reached read < t.position := by
  induction h with
  | nil => simp
  | @cons read gap w x rest c l ts hgap hw h ih =>
    have hfirst : reached read < reached (read ++ gap ++ [c]) := by
      rw [List.append_assoc]
      exact reached_lt _ (by simp)
    refine List.forall_mem_cons.2 ⟨hfirst, fun t ht => ?_⟩
    have hle := reached_le read (gap ++ c :: w)
    rw [← List.append_assoc] at hle
    exact hle.trans_lt (ih t ht)

lemma position_le (h : LaidOut limit read x ts rest) :
    ∀ t ∈ ts, t.position ≤ reached (read ++ x) := by
  induction h with
  | nil => simp
  | @cons read gap w x rest c l ts hgap hw h ih =>
    have htext : read ++ (gap ++ (c :: w ++ x)) = read ++ gap ++ c :: w ++ x := by simp
    rw [htext]
    refine List.forall_mem_cons.2 ⟨?_, ih⟩
    have hle := reached_le (read ++ gap ++ [c]) (w ++ x)
    simpa using hle

lemma pairwise (h : LaidOut limit read x ts rest) :
    ts.Pairwise fun a b => a.position < b.position := by
  induction h with
  | nil => exact .nil
  | @cons read gap w x rest c l ts hgap hw h ih =>
    refine .cons (fun t ht => ?_) ih
    have hle := reached_le (read ++ gap ++ [c]) w
    rw [List.append_assoc _ [c], List.singleton_append] at hle
    exact hle.trans_lt (h.lt_position t ht)

end LaidOut

namespace Lexer

open Position

/-- What a lexer reads is laid out in the text in front of it, together with the gap that it has
just skipped. -/
lemma laidOut_run {limits : Limits} {k : Lexer} {read gap x : List Char} (hx : '\r' ∉ x)
    (hk : k = onText x (reached (read ++ gap)) ∨ k = ⟨none, ⟨x, reached (read ++ gap)⟩⟩)
    (hgap : Filler (max limits.comment 0) gap) :
    ∃ rest, LaidOut (max limits.comment 0) read (gap ++ x) ((k.run limits).1.map (·.1)) rest ∧
      ∀ p, (k.run limits).2 = .ok p → Filler (max limits.comment 0) rest ∧
        p = reached (read ++ (gap ++ x)) := by
  fun_induction run limits k generalizing read gap x with
  | case1 k e hk' => exact ⟨_, .nil _ _, fun p hp => by cases hp⟩
  | case2 k k₁ hnext =>
    obtain ⟨_, hsettle, ⟨hend, -, rfl⟩ | ⟨_, _, _, _, hnone⟩⟩ := next_ok hnext
    · obtain ⟨gap', y, rfl, hgap', rfl⟩ := settle_ok hx hk hsettle
      have hnil : y = [] := by
        cases y with
        | nil => rfl
        | cons c y =>
          rw [onText_cons fun hc => hx (by simp [hc])] at hend
          cases hend
      subst hnil
      refine ⟨_, .nil _ _, fun p hp => ⟨?_, ?_⟩⟩
      · simpa using hgap.append hgap'
      · cases hp
        exact (foldl_after_reached _ _).trans (by simp)
    · cases hnone
  | case3 k t k₁ hnext more stop hrun ih =>
    obtain ⟨k₂, hsettle, ⟨_, hnone, _⟩ | ⟨c, l, hc, htoken, ht⟩⟩ := next_ok hnext
    · cases hnone
    cases ht
    obtain ⟨gap', y, rfl, hgap', rfl⟩ := settle_ok hx hk hsettle
    cases y with
    | nil => cases hc
    | cons d y =>
    have hy : '\r' ∉ d :: y := fun h => hx (List.mem_append_right _ h)
    have hreturn : d ≠ '\r' := fun hd => hy (by simp [hd])
    have hahead := onText_cons hreturn y (gap'.foldl after (reached (read ++ gap)))
    rw [hahead] at hc
    cases hc
    obtain ⟨w, gap₁, z, hyz, hw, hgap₁, rfl⟩ := token_ok hy htoken
    obtain ⟨_, w, rfl⟩ := List.exists_cons_of_ne_nil hw.ne_nil
    cases hyz
    have hfirst : (gap'.foldl after (reached (read ++ gap))).after c = reached
      (read ++ (gap ++ gap') ++ [c]) := by
      rw [foldl_after_reached, ← reached_concat]
      simp
    have hbehind : ((c :: w) ++ gap₁).foldl after (gap'.foldl after (reached (read ++ gap)))
        = reached (read ++ (gap ++ gap') ++ c :: w ++ gap₁) := by
      rw [foldl_after_reached, foldl_after_reached]
      simp
    rw [hbehind] at hrun ih
    obtain ⟨rest, hlaid, hstop⟩ := ih (fun h => hy (by simp [h])) (.inl rfl) hgap₁
    simp only [hrun] at hlaid hstop
    refine ⟨rest, ?_, fun p hp => ?_⟩
    · have hcons := LaidOut.cons (hgap.append hgap') hw hlaid
      rw [← hfirst] at hcons
      rw [hahead]
      simpa using hcons
    · obtain ⟨hrest, hp⟩ := hstop p hp
      exact ⟨hrest, by rw [hp]; simp⟩

end Lexer

namespace Tokens

/-- The tokens stand in the order of their places, and none behind the end of the text. -/
structure InOrder (tokens : Tokens) : Prop where
  pairwise : tokens.tokens.Pairwise fun a b => a.position < b.position
  le_stop : ∀ stop, tokens.stop = .ok stop → ∀ t ∈ tokens.tokens, t.position ≤ stop

lemma laidOut_ofString (limits : Limits) (text : String) :
    ∃ rest, LaidOut (max limits.comment 0) [] (foldLines text.toList) (ofString limits text).tokens
      rest ∧ ∀ p, (ofString limits text).stop = .ok p →
        Filler (max limits.comment 0) rest ∧ p = .reached (foldLines text.toList) := by
  rw [ofString_foldLines]
  refine Lexer.laidOut_run (return_notMem_foldLines _) (.inr ?_) Filler.nil
  unfold Lexer.ofString Source.ofString
  rw [String.toList_ofList]
  rfl

lemma inOrder_ofString (limits : Limits) (text : String) : (ofString limits text).InOrder := by
  obtain ⟨rest, hlaid, hstop⟩ := laidOut_ofString limits text
  refine ⟨hlaid.pairwise, fun p hp t ht => ?_⟩
  rw [(hstop p hp).2]
  exact hlaid.position_le t ht

/-- Every token of a text is at the place of its own first character, with filler alone before it;
these places go on strictly from token to token, and if the text is read to its end, the end is
behind all of them. -/
theorem places_are_true (limits : Limits) (text : String) :
    (∃ rest, LaidOut (max limits.comment 0) [] (foldLines text.toList) (ofString limits text).tokens
      rest ∧
      ∀ p, (ofString limits text).stop = .ok p →
        Filler (max limits.comment 0) rest ∧ p = .reached (foldLines text.toList)) ∧
    (ofString limits text).tokens.Pairwise (fun a b => a.position < b.position) ∧
    ∀ p, (ofString limits text).stop = .ok p → ∀ t ∈ (ofString limits text).tokens,
      t.position ≤ p :=
  ⟨laidOut_ofString limits text, (inOrder_ofString limits text).pairwise,
    (inOrder_ofString limits text).le_stop⟩

end Tokens

end AudLang
