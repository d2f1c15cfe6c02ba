import AudLang.Proofs.Outcome
import AudLang.Proofs.Spelling
import AudLang.Machine.Builtins

/-!
Whole numbers and their texts.

The text of a whole number is read as the number, also with white space around it
(`readWhole?_written`).  So the functions that convert the one into the other undo one another, as
long as the number has no more digits than can be converted; a text that is no whole number is an
error at the call.
-/

namespace AudLang

open Lexer Text

namespace Decimal

variable {before x after : List Char} {n : Int}

/-- Digits without underscores are all read. -/
lemma digitRun_of_isDigit {ds : List Char} (h : ∀ c ∈ ds, c.isDigit = true) :
    digitRun ds = (ds.map fun c => c.toNat - 48, []) := by
  induction ds with
  | nil =>
    rw [digitRun]
    rfl
  | cons c ds ih =>
    obtain ⟨hc, hds⟩ := List.forall_mem_cons.1 h
    have hpass : passUnderscore ds = ds := by
      unfold passUnderscore
      split
      · exact absurd (hds '_' List.mem_cons_self) (by decide)
      · rfl
    rw [digitRun, digitValue?_of_isDigit hc]
    simp only [hpass, ih hds, List.map_cons]

lemma ofDigits_toDigits (n : Nat) :
    ofDigits ((Nat.toDigits 10 n).map fun c => c.toNat - 48) = n := by
  rw [ofDigits, List.foldl_map]
  exact Nat.ofDigitChars_toDigits (by decide) (by decide)

/-- White space around a text that has none is left out. -/
lemma strip_append (hbefore : ∀ c ∈ before, isNumberBlank c = true)
    (hafter : ∀ c ∈ after, isNumberBlank c = true)
    (hne : x ≠ []) (hx : ∀ c ∈ x, isNumberBlank c = false) : strip (before ++ x ++ after) = x := by
  have hstays {y : List Char} (hne : y ≠ []) (hy : ∀ c ∈ y, isNumberBlank c = false)
    (z : List Char) :
      (y ++ z).dropWhile isNumberBlank = y ++ z := by
    obtain ⟨c, y, rfl⟩ := List.exists_cons_of_ne_nil hne
    rw [List.cons_append, List.dropWhile_cons_of_neg (by simp [hy c List.mem_cons_self])]
  have hlast := hstays (List.reverse_ne_nil_iff.2 hne) (fun c hc => hx c (List.mem_reverse.1 hc)) []
  rw [List.append_nil] at hlast
  rw [strip, List.append_assoc, List.dropWhile_append_of_pos hbefore, hstays hne hx,
    List.reverse_append,
    List.dropWhile_append_of_pos fun c hc => hafter c (List.mem_reverse.1 hc), hlast,
      List.reverse_reverse]

lemma toList_toString (n : Int) :
    (toString n).toList = (if n < 0 then ['-'] else []) ++ Nat.toDigits 10 n.natAbs := by
  cases n with
  | ofNat m => simp [toString, Int.repr, Nat.repr]
  | negSucc m => simp [toString, Int.repr, Nat.repr]

lemma isNumberBlank_of_mem_toString {c : Char} (hc : c ∈ (toString n).toList) :
    isNumberBlank c = false := by
  rw [toList_toString] at hc
  rcases List.mem_append.1 hc with hc | hc
  · split at hc <;> simp at hc
    subst hc
    decide
  · have hdigit : c.isDigit = true := Nat.isDigit_of_mem_toDigits (by decide) (by decide) hc
    have hdigits : Text.isDigit c = true := by rw [Text.isDigit, digitValue?_of_isDigit hdigit]; rfl
    rw [isNumberBlank, isBlank_of_continuesName (continuesName_of_isDigit hdigits), Bool.false_and]

lemma takeSign_toString (n : Int) :
    takeSign (toString n).toList = (decide (n < 0), Nat.toDigits 10 n.natAbs) := by
  rw [toList_toString]
  by_cases hneg : n < 0
  · simp [hneg, takeSign]
  · obtain ⟨c, r, hdigits⟩ :=
      List.exists_cons_of_ne_nil (Nat.toDigits_ne_nil (n := n.natAbs) (b := 10))
    have hc : c.isDigit = true :=
      Nat.isDigit_of_mem_toDigits (by decide) (by decide) (hdigits ▸ List.mem_cons_self)
    rw [if_neg hneg, List.nil_append, hdigits, decide_eq_false hneg]
    unfold takeSign
    split
    · cases ‹_ :: _ = _›
      cases hc
    · cases ‹_ :: _ = _›
      cases hc
    · rfl

lemma wholeText?_eq (n : Int) :
    wholeText? n = if (Nat.toDigits 10 n.natAbs).length ≤ digitLimit then some
      (toString n) else none := by
  have hiff := Nat.length_toDigits_le_iff (b := 10) (k := digitLimit) (n := n.natAbs) (by decide)
    (by decide)
  simp only [wholeText?, hiff, Nat.pow_eq]

/-- A whole number is read from its text. -/
lemma readWhole?_written (hbefore : ∀ c ∈ before, isNumberBlank c = true)
    (hafter : ∀ c ∈ after, isNumberBlank c = true)
    (hn : (Nat.toDigits 10 n.natAbs).length ≤ digitLimit) :
    readWhole? (String.ofList (before ++ (toString n).toList ++ after)) = some n := by
  have hne : (toString n).toList ≠ [] := by rw [toList_toString]; simp
  have hdigits : ∀ c ∈ Nat.toDigits 10 n.natAbs, c.isDigit = true := fun c =>
    Nat.isDigit_of_mem_toDigits (by decide) (by decide)
  rw [readWhole?, String.toList_ofList, strip_append hbefore hafter hne fun c =>
    isNumberBlank_of_mem_toString,
    takeSign_toString]
  simp only [digitRun_of_isDigit hdigits, ofDigits_toDigits]
  rw [if_neg (by simpa using hn)]
  simp only [decide_eq_true_eq, Option.some.injEq]
  split <;> omega

end Decimal

namespace Run

-- the power of ten in the limit on digits is not to be computed
attribute [local irreducible] Decimal.wholeText?

variable {m : Machine} {a : Ref} {n : Int} {s : String}

lemma callBuiltin_itos (h : m.store.get a = .int n) (hs : Decimal.wholeText? n = some s)
    (p : Position) :
    callBuiltin .itos [a] p m = .ok m.store.next { m with store := m.store.push (.text s) } := by
  have htext : (Datum.int n).toText = .ok s := by
    unfold Datum.toText
    simp only [hs]
  simp [callBuiltin, guarded, perform, datum, value, tryCatch_run, bind_run, h, Value.datum?, htext,
    ask]
  rfl

lemma callBuiltin_stoi (h : m.store.get a = .text s) (p : Position) :
    (∀ n, Decimal.readWhole? s = some n →
      callBuiltin .stoi [a] p m = .ok m.store.next { m with store := m.store.push (.int n) }) ∧
    (Decimal.readWhole? s = none →
      callBuiltin .stoi [a] p m = .error (.failed (.notANumber s "int") (some p)) m) := by
  refine ⟨fun n hn => ?_, fun hn => ?_⟩
  · simp [callBuiltin, guarded, perform, datum, value, tryCatch_run, bind_run, h, Value.datum?,
      Datum.toInt, hn, converted]
    rfl
  · have htext : (Datum.text s).toText = .ok s := rfl
    simp [callBuiltin, guarded, perform, datum, value, tryCatch_run, bind_run, h, Value.datum?,
      Datum.toInt, hn, converted,
      htext, ask, failSomewhere, fail]

/-- **Whole numbers round-trip.**  A number of at most 4300 digits is converted into its text, and
its text with any white space of numbers around it into the number.  Whatever text is converted into
a number, the answer is a number, or an error at the call. -/
theorem whole_numbers_round_trip (m : Machine) (a : Ref) (p : Position) :
    (∀ n : Int, (Nat.toDigits 10 n.natAbs).length ≤ 4300 →
      (m.store.get a = .int n →
        callBuiltin .itos [a] p m = .ok m.store.next
          { m with store := m.store.push (.text (toString n)) }) ∧
      ∀ before after : List Char, (∀ c ∈ before ++ after, Text.isNumberBlank c = true) →
        m.store.get a = .text (String.ofList (before ++ (toString n).toList ++ after)) →
        callBuiltin .stoi [a] p m = .ok m.store.next { m with store := m.store.push (.int n) }) ∧
    ∀ s, m.store.get a = .text s →
      (∃ n, callBuiltin .stoi [a] p m = .ok m.store.next { m with store := m.store.push (.int n) })
        ∨
        callBuiltin .stoi [a] p m = .error (.failed (.notANumber s "int") (some p)) m := by
  refine ⟨fun n hn => ⟨fun h => ?_, fun before after hblank h => ?_⟩, fun s h => ?_⟩
  · exact callBuiltin_itos h ((Decimal.wholeText?_eq n).trans (if_pos hn)) p
  · obtain ⟨hbefore, hafter⟩ := List.forall_mem_append.1 hblank
    exact (callBuiltin_stoi h p).1 n (Decimal.readWhole?_written hbefore hafter hn)
  · cases hs : Decimal.readWhole? s with
    | some n => exact .inl ⟨n, (callBuiltin_stoi h p).1 n hs⟩
    | none => exact .inr ((callBuiltin_stoi h p).2 hs)

theorem whole_numbers_round_trip_negative :
    (Nat.toDigits 10 (-12 : Int).natAbs).length ≤ 4300 ∧
      callBuiltin .itos [1] ⟨1, 1⟩ { store := ⟨#[.null, .int (-12)]⟩ } =
        .ok 2 { store := ⟨#[.null, .int (-12), .text "-12"]⟩ } ∧
      callBuiltin .stoi [1] ⟨1, 1⟩ { store := ⟨#[.null, .text " -12\n"]⟩ } =
        .ok 2 { store := ⟨#[.null, .text " -12\n", .int (-12)]⟩ } := by
  have hn : (Nat.toDigits 10 (-12 : Int).natAbs).length ≤ 4300 := by decide
  have htext : (" -12\n" : String) = String.ofList
    ([' '] ++ (toString (-12 : Int)).toList ++ ['\n']) := by decide +kernel
  have hblank : ∀ c ∈ [' '] ++ ['\n'], Text.isNumberBlank c = true :=
    List.forall_mem_cons.2 ⟨by decide, List.forall_mem_singleton.2 (by decide)⟩
  exact ⟨hn, ((whole_numbers_round_trip _ 1 _).1 _ hn).1 rfl,
    ((whole_numbers_round_trip _ 1 _).1 _ hn).2 [' '] ['\n'] hblank (congrArg Value.text htext)⟩

/-- A separator is white space of the language, and none of numbers. -/
theorem separator_in_front_of_number :
    Text.isBlank '\x1c' = true ∧
      callBuiltin .stoi [1] ⟨1, 1⟩ { store := ⟨#[.null, .text "\x1c5"]⟩ } =
        .error (.failed (.notANumber "\x1c5" "int") (some ⟨1, 1⟩))
          { store := ⟨#[.null, .text "\x1c5"]⟩ } :=
  ⟨by decide, (callBuiltin_stoi rfl _).2 (by decide +kernel)⟩

end Run

end AudLang
