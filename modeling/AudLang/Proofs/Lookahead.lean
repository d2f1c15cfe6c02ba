import AudLang.Proofs.Places
import AudLang.Source.Reader

/-!
Looking ahead in a stream.

Whatever a reader has taken from its stream to look at, it has the same text in front of it as a
source that is not looked at at all (`Reader.source`).  So the answers to requests do not depend on
what was looked at before.
-/

namespace AudLang

open Source Text

/-! ## Streams and sources -/

namespace Reader

variable {k : Nat} {r : Reader}

/-- The source that a reader stands for, however much of it has been looked at. -/
def source (r : Reader) : Source := ⟨r.ahead ++ r.stream, r.position⟩

/-- Looking at characters takes nothing away. -/
lemma source_fill (k : Nat) (r : Reader) : (r.fill k).source = r.source := by
  fun_induction fill k r with
  | case1 r hless t hdraw =>
    unfold draw at hdraw
    split at hdraw <;> cases hdraw
    rfl
  | case2 r hless c t hdraw ih =>
    rw [ih]
    unfold draw at hdraw
    split at hdraw <;> cases hdraw
    simp [source]
  | case3 r hless => rfl

/-- Enough characters have been looked at, or all there are. -/
lemma le_ahead_or_stream_fill (k : Nat) (r : Reader) :
    k ≤ (r.fill k).ahead.length ∨ (r.fill k).stream = [] := by
  fun_induction fill k r with
  | case1 r hless t hdraw =>
    unfold draw at hdraw
    split at hdraw <;> cases hdraw
    exact .inr rfl
  | case2 r hless c t hdraw ih => exact ih
  | case3 r hless =>
    by_cases hended : r.ended = true
    · exact .inr (r.drained hended)
    · exact .inl (Nat.le_of_not_lt fun hk => hless ⟨hk, by simpa using hended⟩)

lemma peek_eq (k : Int) (r : Reader) : (r.peek k).1 = r.source.peek? k ∧
    (r.peek k).2.source = r.source := by
  unfold peek Source.peek?
  by_cases hk : k ≤ 0
  · rw [if_pos hk, if_pos hk]
    exact ⟨rfl, rfl⟩
  · rw [if_neg hk, if_neg hk]
    refine ⟨?_, source_fill _ r⟩
    rw [← source_fill k.toNat r]
    show (r.fill k.toNat).ahead[(k - 1).toNat]?
      = ((r.fill k.toNat).ahead ++ (r.fill k.toNat).stream)[(k - 1).toNat]?
    rcases le_ahead_or_stream_fill k.toNat r with hle | hend
    · rw [List.getElem?_append_left (by omega)]
    · rw [hend, List.append_nil]

lemma advance_eq (r : Reader) :
    r.advance.1 = r.source.rest.head? ∧
      r.advance.2.source = ⟨r.source.rest.tail, r.source.position⟩ := by
  obtain ⟨stream, ahead, ended, p, hdrained⟩ := r
  unfold advance source
  cases ahead with
  | cons c more => exact ⟨rfl, rfl⟩
  | nil =>
    cases ended with
    | true =>
      obtain rfl := hdrained rfl
      exact ⟨rfl, rfl⟩
    | false => cases stream <;> exact ⟨rfl, rfl⟩

lemma read_eq (r : Reader) :
    r.read.1 = r.source.next?.map (·.1) ∧
      r.read.2.source = (r.source.next?.map (·.2)).getD r.source := by
  obtain ⟨hfirst, hrest⟩ := advance_eq r
  unfold read
  generalize r.source = s at hfirst hrest ⊢
  obtain ⟨x, p⟩ := s
  split
  · rename_i t hadvance
    rw [hadvance] at hfirst hrest
    obtain rfl : x = [] := List.head?_eq_none_iff.1 hfirst.symm
    exact ⟨rfl, hrest⟩
  · rename_i t hadvance
    rw [hadvance] at hfirst hrest
    obtain ⟨y, rfl⟩ := List.head?_eq_some_iff.1 hfirst.symm
    have hpeek := peek_eq 1 t
    rw [show t.source = ⟨y, p⟩ from hrest] at hpeek
    split
    · rename_i u hu
      rw [hu] at hpeek
      obtain ⟨z, rfl⟩ := List.head?_eq_some_iff.1 ((peek?_eq_head? _).symm.trans hpeek.1.symm)
      have hfeed := (advance_eq u).2
      rw [show u.source = ⟨'\n' :: z, p⟩ from hpeek.2] at hfeed
      exact ⟨rfl, congrArg (fun s : Source => (⟨s.rest, s.position.after '\n'⟩ : Source)) hfeed⟩
    · rename_i c? u hother hu
      rw [hu] at hpeek
      have hhead : y.head? ≠ some '\n' := by
        rw [← peek?_eq_head? ⟨y, p⟩, ← hpeek.1]
        exact hother
      rw [next?_return hhead]
      exact ⟨rfl, congrArg (fun s : Source => (⟨s.rest, s.position.after '\n'⟩ : Source)) hpeek.2⟩
  · rename_i c t hc hadvance
    rw [hadvance] at hfirst hrest
    obtain ⟨y, rfl⟩ := List.head?_eq_some_iff.1 hfirst.symm
    rw [next?_cons hc]
    exact ⟨rfl, congrArg (fun s : Source => (⟨s.rest, s.position.after c⟩ : Source)) hrest⟩

end Reader

/-! ## Units -/

/-- A text cut into what is read at once: a line end, or any other character. -/
def units : List Char → List (List Char)
  | '\r' :: '\n' :: r => ['\r', '\n'] :: units r
  | c :: r => [c] :: units r
  | [] => []

lemma flatten_units (x : List Char) : (units x).flatten = x := by
  fun_induction units x with
  | case1 r ih => rw [List.flatten_cons, ih]; rfl
  | case2 c r hr ih => rw [List.flatten_cons, ih]; rfl
  | case3 => rfl

lemma units_next? {s t : Source} {c : Char} (h : s.next? = some (c, t)) :
    units t.rest = (units s.rest).tail := by
  unfold next? at h
  split at h <;> cases h <;> simp_all [units]

/-! ## Requests -/

namespace Reader

/-- What is answered to a request once `g` characters of the text `x` have been read.  The
characters that are looked at are those of the text itself, line ends included. -/
def Request.expected (x : List Char) (g : Nat) : Request → Option Char
  | .read => (foldLines x)[g]?
  | .peek k => if k ≤ 0 then none else ((units x).drop g).flatten[(k - 1).toNat]?

lemma Request.expected_next {s t : Source} {c : Char} (h : s.next? = some (c, t)) (g : Nat)
    (q : Request) : q.expected s.rest (g + 1) = q.expected t.rest g := by
  cases q with
  | read => rw [expected, expected, foldLines_of_foldedHead? (next?_eq_some.1 h).1,
      List.getElem?_cons_succ]
  | peek k => rw [expected, expected, units_next? h, ← List.drop_one, List.drop_drop, Nat.add_comm]

/-- One request: what is answered to it, and what it leaves to be read. -/
lemma serve_eq (r : Reader) (q : Request) :
    (r.serve q).1 = q.expected r.source.rest 0 ∧
      (r.serve q).2.source = if q = .read then (r.source.next?.map (·.2)).getD
        r.source else r.source := by
  cases q with
  | read =>
    refine ⟨?_, (read_eq r).2⟩
    show r.read.1 = _
    rw [(read_eq r).1, Request.expected]
    cases hnext : r.source.next? with
    | none => rw [next?_eq_none.1 hnext]; rfl
    | some a => rw [foldLines_of_foldedHead? (next?_eq_some.1 hnext).1]; rfl
  | peek k =>
    refine ⟨?_, (peek_eq k r).2⟩
    show (r.peek k).1 = _
    rw [(peek_eq k r).1, Request.expected, List.drop_zero, flatten_units]
    rfl

/-- What is to be answered behind a request was to be answered before it, one character further on
if it took one. -/
lemma expected_serve (r : Reader) (q : Request) (g : Nat) :
    (∀ q' : Request, q'.expected (r.serve q).2.source.rest g = q'.expected r.source.rest
      (g + [q].count .read)) ∧
      ((foldLines (r.serve q).2.source.rest).take g).foldl Position.after
        (r.serve q).2.source.position =
        ((foldLines r.source.rest).take (g + [q].count .read)).foldl Position.after
          r.source.position := by
  rw [(serve_eq r q).2]
  cases q with
  | peek k => exact ⟨fun _ => rfl, rfl⟩
  | read =>
    show (∀ q' : Request, q'.expected ((r.source.next?.map (·.2)).getD r.source).rest g = _) ∧ _
    cases hnext : r.source.next? with
    | none =>
      have hend : r.source.rest = [] := next?_eq_none.1 hnext
      constructor
      · intro q'
        cases q' <;> simp [Request.expected, hend, foldLines, units]
      · simp [hend, foldLines]
    | some a =>
      obtain ⟨c, t⟩ := a
      obtain ⟨hhead, hplace⟩ := next?_eq_some.1 hnext
      constructor
      · exact fun q' => (q'.expected_next hnext g).symm
      · show ((foldLines t.rest).take g).foldl Position.after t.position
          = ((foldLines r.source.rest).take (g + 1)).foldl Position.after r.source.position
        rw [foldLines_of_foldedHead? hhead, List.take_succ_cons, List.foldl_cons, hplace]

/-- Requests in turn.  The induction is on them, for a reader anywhere in its text. -/
lemma answers_eq (r : Reader) (qs : List Request) (i : Nat) :
    (r.answers qs)[i]? = qs[i]?.map fun q =>
      (q.expected r.source.rest ((qs.take i).count .read),
        ((foldLines r.source.rest).take ((qs.take (i + 1)).count .read)).foldl Position.after
          r.source.position) := by
  induction qs generalizing r i with
  | nil => rfl
  | cons q qs ih =>
    show (((r.serve q).1, (r.serve q).2.source.position) :: (r.serve q).2.answers qs)[i]? = _
    have hcount (l : List Request) : (q :: l).count .read = l.count .read + [q].count .read := by
      rw [List.count_cons, List.count_singleton]
    cases i with
    | zero =>
      rw [List.getElem?_cons_zero, List.getElem?_cons_zero, (serve_eq r q).1, List.take_succ_cons,
        hcount, List.take_zero,
        List.count_nil]
      exact congrArg (fun p => some (_, p)) (expected_serve r q 0).2
    | succ i =>
      rw [List.getElem?_cons_succ, List.getElem?_cons_succ, ih]
      refine congrArg (qs[i]?.map ·) (funext fun q' => ?_)
      rw [(expected_serve r q _).1, (expected_serve r q _).2, List.take_succ_cons,
        List.take_succ_cons, hcount (qs.take i),
        hcount (qs.take (i + 1))]

/-- A reader answers by the text that it has not read, whatever of it has been looked at. -/
lemma answers_congr {r t : Reader} (h : r.source = t.source) (qs : List Request) :
    r.answers qs = t.answers qs :=
  List.ext_getElem? fun i => by rw [answers_eq, answers_eq, h]

/-- The answers to any requests of a reader of `text`: its characters one after another with their
line ends folded and then none for ever, at the place that the characters read so far lead to, and
for a look ahead the characters of the text that are still to be read.  A look ahead could as well
not have been taken. -/
theorem answers_regardless_of_peeks (text : String) :
    (∀ qs i, ((ofString text).answers qs)[i]? = qs[i]?.map fun q =>
      (q.expected text.toList ((qs.take i).count .read),
        Position.reached ((foldLines text.toList).take ((qs.take (i + 1)).count .read)))) ∧
    ∀ before k after, ((ofString text).answers (before ++ .peek k :: after)).eraseIdx before.length
      = (ofString text).answers (before ++ after) := by
  constructor
  · intro qs i
    rw [answers_eq]
    refine congrArg (qs[i]?.map ·) (funext fun q => congrArg (Prod.mk _) ?_)
    exact Position.foldl_after_reached [] _
  · intro before k after
    generalize ofString text = r
    induction before generalizing r with
    | nil => exact answers_congr (peek_eq k r).2 after
    | cons q before ih => exact congrArg (_ :: ·) (ih (r.serve q).2)

end Reader

end AudLang
