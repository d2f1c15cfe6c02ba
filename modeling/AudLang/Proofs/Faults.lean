import AudLang.Machine.Evaluate
import AudLang.Proofs.Outcome

/-!
Faults of computations without a state.

Most faults come from computations on numbers, texts, sounds and trees, which know nothing of scopes
and calls.  None of them is the fault of leaving what was never entered: this fault is left to the
steps that close scopes and calls.
-/

namespace AudLang

variable {α : Type}

/-- The computation does not end in the fault of leaving what was never entered. -/
abbrev Balanced (r : Except Fault α) : Prop := Raises (· ≠ .unbalanced) r

/-! ## Numbers and texts -/

namespace Datum

lemma balanced_toText (d : Datum) : Balanced d.toText := by
  unfold toText
  split
  · split
    · exact .ok _
    · exact .error (by decide)
  all_goals exact .ok _

lemma balanced_toInt (d : Datum) : Balanced d.toInt := by
  unfold toInt
  split
  · exact .ok _
  · split
    · exact .ok _
    · exact .error (by split <;> decide)
  · split
    · exact .ok _
    · exact .error (by decide)
  · exact .ok _
  · exact .error (by decide)

lemma balanced_floatOfInt (n : Int) : Balanced (floatOfInt n) := by
  unfold floatOfInt
  split
  · exact .ok _
  · exact .error (by decide)

lemma balanced_toFloat (d : Datum) : Balanced d.toFloat := by
  unfold toFloat
  split
  · exact balanced_floatOfInt _
  · exact .ok _
  · split
    · exact .ok _
    · exact .error (by decide)
  · exact balanced_floatOfInt _
  · exact .error (by decide)

lemma balanced_atMost (a b : Datum) : Balanced (a.atMost b) := by
  unfold atMost
  split
  · exact .ok _
  · exact .ok _
  · exact .ok _
  · exact .ok _
  · exact .error (by decide)

lemma balanced_join (a b : Datum) : Balanced (a.join b) := by
  unfold join
  split
  · exact .ok _
  · split
    · exact (balanced_floatOfInt _).bind fun _ => .ok _
    · exact (balanced_floatOfInt _).bind fun _ => .ok _
    · exact .ok _
    · exact .error (by decide)

end Datum

lemma BinaryOp.balanced_onStrings (op : BinaryOp) (a b : Datum) : Balanced (op.onStrings a b) := by
  unfold onStrings
  split
  · exact (a.balanced_join b).map _
  · exact .ok _
  · exact .ok _
  · exact .ok _

lemma Store.balanced_operate (s : Store) (op : BinaryOp) (left right : Value) :
    Balanced (s.operate op left right) := by
  unfold operate
  split
  · exact .ok _
  · exact (Datum.balanced_floatOfInt _).map _
  · exact (Datum.balanced_floatOfInt _).map _
  · exact .ok _
  · exact op.balanced_onStrings _ _
  · exact .ok _
  · split
    · exact .ok _
    · exact .ok _

lemma Run.balanced_inRange (start stop : Datum) (length : Int) :
    Balanced (inRange start stop length) := by
  refine (Datum.balanced_atMost _ _).bind fun t => ?_
  split
  · exact .ok _
  · refine (Datum.balanced_atMost _ _).bind fun t => ?_
    split
    · exact .ok _
    · exact Datum.balanced_atMost _ _

/-! ## Files and sounds -/

lemma Refusal.fault_ne_unbalanced (r : Refusal) : r.fault ≠ .unbalanced := by
  cases r <;> decide

lemma Run.LoadFailure.fault_ne_unbalanced (e : LoadFailure) : e.fault ≠ .unbalanced := by
  cases e <;> decide

lemma Wave.fault_encode_ne_unbalanced (s : Segment) : (encode s).fault ≠ some .unbalanced := by
  unfold encode
  simp only
  split
  · decide
  · split
    · decide
    · split
      · simp
      · simp

lemma Wave.fault_writeAs_ne_unbalanced (s : Segment) (format : String) :
    (writeAs s format).fault ≠ some .unbalanced := by
  unfold writeAs
  split
  · exact fault_encode_ne_unbalanced s
  · split
    · simp
    · split
      · rename_i f hf
        rw [← hf]
        exact fault_encode_ne_unbalanced s
      · decide

namespace Segment

variable (s : Segment)

lemma balanced_frames : Balanced s.frames := by
  unfold frames
  split
  · exact .error (by decide)
  · exact .ok _

lemma balanced_seconds : Balanced s.seconds := by
  unfold seconds
  split
  · exact .ok _
  · exact s.balanced_frames.map _

lemma balanced_milliseconds : Balanced s.milliseconds := s.balanced_seconds.map _

lemma balanced_extent : Balanced s.extent := by
  refine s.balanced_frames.bind fun n => ?_
  split
  · exact .error (by decide)
  · exact .ok _

lemma balanced_samples : Balanced s.samples := by
  unfold samples
  split
  · exact .error (by decide)
  · exact .ok _

lemma balanced_slice (start stop : Float) : Balanced (s.slice start stop) := by
  refine s.balanced_extent.bind fun n => ?_
  extract_lets stopLimit limited first last data missing
  split
  · exact .ok _
  · exact (balanced_samples _).map _

lemma balanced_setChannels (n : Nat) : Balanced (s.setChannels n) := by
  unfold setChannels
  split
  · exact .ok _
  · split
    · split
      · exact s.balanced_samples.map _
      · refine s.balanced_frames.bind fun _ => ?_
        split
        · exact .error (by decide)
        · split
          · exact .error (by decide)
          · exact .ok _
    · split
      · exact .error (by decide)
      · exact .error (by decide)

lemma balanced_setRate (rate : Nat) : Balanced (s.setRate rate) := by
  unfold setRate
  split
  · exact .ok _
  · split
    · exact .ok _
    · split
      · exact .error (by decide)
      · split
        · exact .error (by decide)
        · exact .ok _

lemma balanced_setWidth (width : Nat) : Balanced (s.setWidth width) := by
  unfold setWidth
  split
  · exact .ok _
  · split
    · exact .error (by decide)
    · exact s.balanced_samples.map _

lemma balanced_append (t : Segment) : Balanced (s.append t) := by
  refine (s.balanced_setChannels _).bind fun s₁ => (s₁.balanced_setRate _).bind fun s₂ =>
    (s₂.balanced_setWidth _).bind fun s₃ => ?_
  exact (t.balanced_setChannels _).bind fun t₁ => (t₁.balanced_setRate _).bind fun t₂ =>
    (t₂.balanced_setWidth _).map _

lemma balanced_gainFactor (db : Float) : Balanced (gainFactor db) := by
  unfold gainFactor
  extract_lets x y
  split
  · exact .error (by decide)
  · exact .ok _

lemma balanced_gain (db : Float) : Balanced (s.gain db) :=
  (balanced_gainFactor db).bind fun _ => s.balanced_samples.map _

end Segment

/-! ## Trees -/

namespace Node

lemma balanced_definedName (n : Node) : Balanced n.definedName := by
  unfold definedName
  split
  · exact .ok _
  · exact .ok _
  · exact .error (by decide)

lemma balanced_returnTypeName (n : Node) : Balanced n.returnTypeName := by
  unfold returnTypeName
  split
  · exact .ok _
  · exact .ok _
  · exact .ok _
  · exact .error (by decide)

lemma balanced_dumpAll {ns : List Node} (h : ∀ n ∈ ns, Balanced n.dump) :
    Balanced (dumpAll ns) := by
  induction ns with
  | nil => exact .ok _
  | cons n ns ih =>
    obtain ⟨hn, hns⟩ := List.forall_mem_cons.1 h
    exact hn.bind fun _ => (ih hns).map _

/-- To show a tree is to leave no scope and no call. -/
lemma balanced_dump (n : Node) : Balanced n.dump := by
  cases n with
  | int s v =>
    unfold dump
    generalize Decimal.wholeText? v = text
    cases text with
    | some text => exact .ok _
    | none => exact .error (by decide)
  | list s es | block s es | construct s t es =>
    exact (balanced_dumpAll fun e he => balanced_dump e).map _
  | binary s op l r => exact (balanced_dump l).bind fun _ => (balanced_dump r).map _
  | negate s e | member s e x | listType s t e | giveBack s e | callStatement s e
  | expressionStatement s e | parameter s e x =>
    exact (balanced_dump e).map _
  | call s f es =>
    exact (balanced_dump f).bind fun _ => (balanced_dumpAll fun e he => balanced_dump e).map _
  | declare s t x v => exact (balanced_dump t).bind fun _ => (balanced_dump v).map _
  | branch s c a b =>
    exact (balanced_dump c).bind fun _ => (balanced_dump a).bind fun _ => (balanced_dump b).map _
  | loop s c b => exact (balanced_dump c).bind fun _ => (balanced_dump b).map _
  | assign s t v => exact (balanced_dump t).bind fun _ => (balanced_dump v).map _
  | define s r x ps b =>
    exact (balanced_dump r).bind fun _ => (balanced_dumpAll fun p hp => balanced_dump p).bind
      fun _ =>
      (balanced_dump b).map _
  | program s is ns => exact (balanced_dumpAll fun n hn => balanced_dump n).map _
  | _ => exact .ok _

end Node

end AudLang
