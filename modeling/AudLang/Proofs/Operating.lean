import AudLang.Proofs.Holding

/-!
Operators, as the checker admits them and as machines apply them.

The checker looks at the types of two operands, a machine at their values.  On values of types that
the checker admits the two agree, but for three things: a division by zero, which no checker can
see; an order between strings or between truth values, which the checker admits and no machine
knows; and a string that holds no text, as a title that was changed to null does, which cannot be
joined.
-/

namespace AudLang

open Run

/-! ## Operations -/

/-- Is the value a number that is zero? -/
def Value.isZero (v : Value) : Bool := v.datum?.any (·.equals (.int 0))

/-- What an operator makes of two values of a store, or that it cannot be applied to them. -/
def BinaryOp.perform (op : BinaryOp) (s : Store) (l r : Value) (p : Position) : Except Stop Value :=
  match s.operate op l r with
  | .ok (some v) => .ok v
  | .ok none => .error (.failed (.badOperands op l.typeName r.typeName) (some p))
  | .error f => .error (.fault f)

/-- The same with the divisor looked at first. -/
def BinaryOp.apply (op : BinaryOp) (s : Store) (l r : Value) (p : Position) : Except Stop Value :=
  if op = .divide ∧ r.datum?.isNone then .error (.fault .noMember)
  else if op = .divide ∧ r.isZero then .error (.failed .divisionByZero (some p))
  else op.perform s l r p

namespace Run

variable {body : Node → Run Unit} {fuel : Nat} {m m₁ m₂ : Machine} {op : BinaryOp}

/-- Gives a value, or stops. -/
def giveOr : Except Stop Value → Run Unit
  | .ok v => give v
  | .error e => throw e

lemma perform_run (op : BinaryOp) (l r : Value) (p : Position) (m : Machine) :
    (do
      match ← ask ((← get).store.operate op l r) with
      | some v => give v
      | none => fail (.badOperands op l.typeName r.typeName) p : Run Unit) m =
      giveOr (op.perform m.store l r p) m := by
  unfold BinaryOp.perform
  simp only [bind_run, get_run]
  cases m.store.operate op l r with
  | error f => rfl
  | ok v? => cases v? <;> rfl

lemma operate_run (op : BinaryOp) (q r : Ref) (p : Position) (m : Machine) :
    operate op q r p m = giveOr (op.apply m.store (m.store.get q) (m.store.get r) p) m := by
  have hperform := perform_run op (m.store.get q) (m.store.get r) p m
  unfold BinaryOp.apply
  simp only [operate, value, bind_run, get_run, pure_run]
  by_cases hop : op = .divide
  · subst hop
    cases hd : (m.store.get r).datum? with
    | none =>
      simp only [if_true, true_and, Option.isNone_none, datum, value, bind_run, get_run, pure_run,
        hd]
      rfl
    | some d =>
      have hpresent : (some d).isNone = false := rfl
      cases hzero : d.equals (.int 0) with
      | true =>
        have hisZero : (m.store.get r).isZero = true := by rw [Value.isZero, hd]; exact hzero
        simp only [if_true, true_and, hpresent, hisZero, datum, value, bind_run, get_run, pure_run,
          hd, hzero]
        rfl
      | false =>
        have hisZero : (m.store.get r).isZero = false := by rw [Value.isZero, hd]; exact hzero
        simp only [if_true, true_and, hpresent, hisZero, datum, value, bind_run, get_run, pure_run,
          hd, hzero]
        exact hperform
  · simp only [hop]
    exact hperform

/-- Both operands are visited, the left one first, and the operator is applied to what their cells
hold behind that. -/
lemma visit_binary {s : Span} {left right : Node} (ha : op ≠ .and) (ho : op ≠ .or)
    (hleft : visit body fuel left m = .ok () m₁) (hright : visit body fuel right m₁ = .ok () m₂) :
    visit body fuel (.binary s op left right) m =
      giveOr (op.apply m₂.store (m₂.store.get m₁.last) (m₂.store.get m₂.last) s.start) m₂ := by
  rw [visit_operation ha ho]
  simp only [valueOf, last, bind_run, hleft, hright, get_run, pure_run]
  exact operate_run op m₁.last m₂.last s.start m₂

lemma visit_logical {s : Span} {left right : Node} (hop : op = .and ∨ op = .or)
    (hleft : visit body fuel left m = .ok () m₁) (hright : visit body fuel right m₁ = .ok () m₂) :
    ∃ b m₃, visit body fuel (.binary s op left right) m = .ok () m₃ ∧
      m₃.store.get m₃.last = .bool b := by
  have hgive : ∀ (b : Bool) (m' : Machine), ∃ c m₃, give (.bool b) m' = .ok () m₃ ∧
      m₃.store.get m₃.last = .bool c := fun b m' => ⟨b, _, rfl, m'.store.get_push_next _⟩
  rcases hop with rfl | rfl
  · rw [visit, bind_of_ok (holds_of_ok hleft)]
    cases (m₁.store.get m₁.last).isTrue with
    | true =>
      rw [if_pos rfl, bind_of_ok (holds_of_ok hright)]
      exact hgive _ m₂
    | false => exact hgive false m₁
  · rw [visit, bind_of_ok (holds_of_ok hleft)]
    cases (m₁.store.get m₁.last).isTrue with
    | true => exact hgive true m₁
    | false =>
      rw [if_neg (by decide), bind_of_ok (holds_of_ok hright)]
      exact hgive _ m₂

end Run

/-! ## Values of types -/

namespace Value

/-- Is the value, which is not null, of a type with this base?  Audio is of the type of files as
well. -/
def belongs : Value → Base → Bool
  | .int _, .int | .float _, .float | .string _, .string | .bool _, .bool | .list .., .list => true
  | .file _, .file | .audio .., .file | .audio .., .audio | .folder _, .folder => true
  | _, _ => false

/-- Is the value of the type?  Operators do not look at the elements of lists. -/
def hasType (v : Value) : Ty → Bool
  | .absent => false
  | .of b _ => v.belongs b

variable {v w : Value} {b : Base} {t : Ty}

lemma belongs_of_hasType (h : v.hasType t = true) (hb : t.hasBase b = true) :
    v.belongs b = true := by
  cases t with
  | absent => cases h
  | of c e =>
    obtain rfl : c = b := by simpa [Ty.hasBase, Ty.base?] using hb
    exact h

lemma int_of_belongs (h : v.belongs .int = true) : ∃ n, v = .int n := by
  cases v <;> first | exact ⟨_, rfl⟩ | cases h

lemma float_of_belongs (h : v.belongs .float = true) : ∃ x, v = .float x := by
  cases v <;> first | exact ⟨_, rfl⟩ | cases h

lemma string_of_belongs (h : v.belongs .string = true) : ∃ d, v = .string d := by
  cases v <;> first | exact ⟨_, rfl⟩ | cases h

lemma bool_of_belongs (h : v.belongs .bool = true) : ∃ b, v = .bool b := by
  cases v <;> first | exact ⟨_, rfl⟩ | cases h

end Value

/-- A value of a type is an object, or of one of the four simple types. -/
lemma Value.base_cases {v : Value} {b : Base} (h : v.belongs b = true) :
    v.isObject = true ∨ b = .int ∨ b = .float ∨ b = .string ∨ b = .bool := by
  cases v <;> cases b <;> cases h <;> simp [isObject]

/-- Types that accept each other have one base, if there are values of them, but for files and
audio. -/
lemma Ty.bases_of_accepts {v w : Value} {l r : Ty} (hl : v.hasType l = true)
    (hr : w.hasType r = true) (h : l.accepts r = .ok true) :
    ∃ a b, v.belongs a = true ∧ w.belongs b = true ∧ (a = b ∨ a = .file ∧ b = .audio) := by
  cases l with
  | absent => cases hl
  | of a e =>
    cases r with
    | absent => cases hr
    | of b f =>
      refine ⟨a, b, hl, hr, ?_⟩
      by_cases haudio : b = .audio
      · subst haudio
        cases a <;> simp_all [accepts]
      · have hnull : b ≠ .null := by
          rintro rfl
          cases w <;> cases hr
        exact .inl (Ty.base_of_accepts h hnull haudio).1

/-! ## Agreement -/

namespace BinaryOp

/-- The operations that the checker admits and no value has: an order between strings or truth
values, and the joining of strings of which one holds no text. -/
def isMissing (op : BinaryOp) : Value → Value → Bool
  | .string (.text _), .string (.text _) | .bool _, .bool _ => op.isOrder
  | .string _, .string _ => op.isOrder || op == .add
  | _, _ => false

variable {op : BinaryOp} {s : Store} {v w : Value} {l r t : Ty}

/-- Values of one base, and files beside audio, can be compared for equality. -/
lemma operate_equality {a b : Base} (hop : op = .equals ∨ op = .notEquals) (hv : v.belongs a = true)
    (hw : w.belongs b = true) (hab : a = b ∨ a = .file ∧ b = .audio ∨ a = .audio ∧ b = .file) :
    ∃ c, s.operate op v w = .ok (some (.bool c)) := by
  rcases Value.base_cases hv with hobject | hsimple
  · have hoperate : s.operate op v w = .ok (op.onEquality (s.sameObject v w)) := by
      unfold Store.operate
      split
      iterate 6 cases hobject
      rw [hobject]
      rfl
    rw [hoperate]
    rcases hop with rfl | rfl <;> exact ⟨_, rfl⟩
  · obtain rfl : a = b := by
      rcases hab with hab | ⟨rfl, -⟩ | ⟨rfl, -⟩
      · exact hab
      · rcases hsimple with h | h | h | h <;> cases h
      · rcases hsimple with h | h | h | h <;> cases h
    rcases hsimple with rfl | rfl | rfl | rfl
    · obtain ⟨x, rfl⟩ := Value.int_of_belongs hv
      obtain ⟨y, rfl⟩ := Value.int_of_belongs hw
      rcases hop with rfl | rfl <;> exact ⟨_, rfl⟩
    · obtain ⟨x, rfl⟩ := Value.float_of_belongs hv
      obtain ⟨y, rfl⟩ := Value.float_of_belongs hw
      rcases hop with rfl | rfl <;> exact ⟨_, rfl⟩
    · obtain ⟨x, rfl⟩ := Value.string_of_belongs hv
      obtain ⟨y, rfl⟩ := Value.string_of_belongs hw
      rcases hop with rfl | rfl <;> exact ⟨_, rfl⟩
    · obtain ⟨x, rfl⟩ := Value.bool_of_belongs hv
      obtain ⟨y, rfl⟩ := Value.bool_of_belongs hw
      rcases hop with rfl | rfl <;> exact ⟨_, rfl⟩

lemma order_of_operation (hop : op.isOrder = true) (h : Check.operation op l r = .ok (some t)) :
    t = .bool ∧ ∃ b : Base, (b = .int ∨ b = .float ∨ b = .string ∨ b = .bool) ∧
      l.hasBase b = true ∧ r.hasBase b = true := by
  have hboth : Check.operation op l r =
      if l.hasBase .int && r.hasBase .int || l.hasBase .float && r.hasBase .float ||
        l.hasBase .string && r.hasBase .string || l.hasBase .bool && r.hasBase
          .bool then .ok (some .bool)
      else .ok none := by
    cases op <;> cases hop <;> rfl
  rw [hboth] at h
  split at h
  · rename_i hbase
    cases h
    simp only [Bool.or_eq_true, Bool.and_eq_true] at hbase
    refine ⟨rfl, ?_⟩
    rcases hbase with ((hb | hb) | hb) | hb
    · exact ⟨.int, by simp, hb⟩
    · exact ⟨.float, by simp, hb⟩
    · exact ⟨.string, by simp, hb⟩
    · exact ⟨.bool, by simp, hb⟩
  · cases h

/-- An order that the checker admits gives a truth value between numbers, and is missing between
strings and between truth values. -/
lemma operate_order (hop : op.isOrder = true) (hv : v.hasType l = true) (hw : w.hasType r = true)
    (h : Check.operation op l r = .ok (some t)) :
    t = .bool ∧ ((op.isMissing v w = false ∧ ∃ c, s.operate op v w = .ok (some (.bool c))) ∨
      (op.isMissing v w = true ∧ s.operate op v w = .ok none)) := by
  obtain ⟨ht, b, hb, hl, hr⟩ := order_of_operation hop h
  have hv' := Value.belongs_of_hasType hv hl
  have hw' := Value.belongs_of_hasType hw hr
  refine ⟨ht, ?_⟩
  rcases hb with rfl | rfl | rfl | rfl
  · obtain ⟨x, rfl⟩ := Value.int_of_belongs hv'
    obtain ⟨y, rfl⟩ := Value.int_of_belongs hw'
    cases op <;> cases hop <;> exact .inl ⟨rfl, _, rfl⟩
  · obtain ⟨x, rfl⟩ := Value.float_of_belongs hv'
    obtain ⟨y, rfl⟩ := Value.float_of_belongs hw'
    cases op <;> cases hop <;> exact .inl ⟨rfl, _, rfl⟩
  · obtain ⟨x, rfl⟩ := Value.string_of_belongs hv'
    obtain ⟨y, rfl⟩ := Value.string_of_belongs hw'
    have hmissing : op.isMissing (.string x) (.string y) = true := by
      unfold isMissing
      split <;> simp_all
    refine .inr ⟨hmissing, ?_⟩
    cases op <;> cases hop <;> rfl
  · obtain ⟨x, rfl⟩ := Value.bool_of_belongs hv'
    obtain ⟨y, rfl⟩ := Value.bool_of_belongs hw'
    cases op <;> cases hop <;> exact .inr ⟨rfl, rfl⟩

/-- An operation that the checker admits has a value of the type that the checker expects, unless it
is missing. -/
lemma operate_typed (ha : op ≠ .and) (ho : op ≠ .or) (hv : v.hasType l = true)
    (hw : w.hasType r = true)
    (h : Check.operation op l r = .ok (some t)) (hmissing : op.isMissing v w = false) :
    ∃ u, s.operate op v w = .ok (some u) ∧ u.hasType t = true := by
  cases Ty.operable_of_operation ha ho h with
  | arithmetic hop hb hl hr =>
    have hv' := Value.belongs_of_hasType hv hl
    have hw' := Value.belongs_of_hasType hw hr
    rcases hb with rfl | rfl
    · obtain ⟨x, rfl⟩ := Value.int_of_belongs hv'
      obtain ⟨y, rfl⟩ := Value.int_of_belongs hw'
      cases op <;> cases hop <;> exact ⟨_, rfl, rfl⟩
    · obtain ⟨x, rfl⟩ := Value.float_of_belongs hv'
      obtain ⟨y, rfl⟩ := Value.float_of_belongs hw'
      cases op <;> cases hop <;> exact ⟨_, rfl, rfl⟩
  | join hl hr =>
    obtain ⟨x, rfl⟩ := Value.string_of_belongs (Value.belongs_of_hasType hv hl)
    obtain ⟨y, rfl⟩ := Value.string_of_belongs (Value.belongs_of_hasType hw hr)
    cases x <;> cases y <;> first | exact ⟨_, rfl, rfl⟩ | cases hmissing
  | order hop =>
    obtain ⟨-, ⟨-, c, hc⟩ | ⟨hcontra, -⟩⟩ := operate_order hop hv hw h
    · exact ⟨_, hc, rfl⟩
    · cases hmissing.symm.trans hcontra
  | equality hop hcompare =>
    obtain ⟨a, b, ha, hb, hab⟩ : ∃ a b, v.belongs a = true ∧ w.belongs b = true ∧
        (a = b ∨ a = .file ∧ b = .audio ∨ a = .audio ∧ b = .file) := by
      rcases hcompare with ⟨b, hl, hr⟩ | haccepts | haccepts
      · exact ⟨b, b, Value.belongs_of_hasType hv hl, Value.belongs_of_hasType hw hr, .inl rfl⟩
      · obtain ⟨a, b, ha, hb, hab⟩ := Ty.bases_of_accepts hv hw haccepts
        exact ⟨a, b, ha, hb, hab.imp_right .inl⟩
      · obtain ⟨b, a, hb, ha, hab⟩ := Ty.bases_of_accepts hw hv haccepts
        exact ⟨a, b, ha, hb, hab.imp Eq.symm fun h => .inr ⟨h.2, h.1⟩⟩
    obtain ⟨c, hc⟩ := operate_equality (s := s) hop ha hb hab
    exact ⟨_, hc, rfl⟩

lemma datum_of_divide (hw : w.hasType r = true) (h : Check.operation .divide l r = .ok (some t)) :
    w.datum?.isNone = false := by
  cases Ty.operable_of_operation (by decide) (by decide) h with
  | arithmetic _ hb _ hr =>
    have hw' := Value.belongs_of_hasType hw hr
    rcases hb with rfl | rfl
    · obtain ⟨n, rfl⟩ := Value.int_of_belongs hw'
      rfl
    · obtain ⟨x, rfl⟩ := Value.float_of_belongs hw'
      rfl
  | order hop => cases hop
  | equality hop => rcases hop with h | h <;> cases h

end BinaryOp

namespace Check

variable {n left right : Node} {op : BinaryOp} {l r t : Ty} {k k' : Checker}

lemma operation_of_binary (ha : op ≠ .and) (ho : op ≠ .or)
    (h : binary n op left right l r k = .ok t k') : operation op l r = .ok (some t) := by
  unfold binary at h
  split at h
  · exact absurd rfl ha
  · exact absurd rfl ho
  · obtain ⟨o, hoperation, h₁⟩ := ask_ok h
    cases o with
    | some u =>
      cases h₁
      exact hoperation
    | none => exact absurd h₁ not_flag_ok

lemma bool_of_binary (hop : op = .and ∨ op = .or) (h : binary n op left right l r k = .ok t k') :
    t = .bool := by
  rcases hop with rfl | rfl
  all_goals
    obtain ⟨_, k₁, -, h₁⟩ := ok_of_bind h
    obtain ⟨_, k₂, -, h₂⟩ := ok_of_bind h₁
    cases h₂
    rfl

lemma negation_ok {t : Ty} (h : negation n l k = .ok t k') :
    l.hasBase .int = true ∧ t = .int ∨ l.hasBase .float = true ∧ t = .float := by
  unfold negation at h
  split at h
  · rename_i hint
    cases h
    exact .inl ⟨hint, rfl⟩
  split at h
  · rename_i hfloat
    cases h
    exact .inr ⟨hfloat, rfl⟩
  · exact absurd h not_flag_ok

end Check

namespace BinaryOp

variable {op : BinaryOp} {s : Store} {v w : Value} {l r t : Ty} {p : Position}

lemma apply_of_zero (h : Check.operation .divide l r = .ok (some t)) (hw : w.hasType r = true)
    (hzero : w.isZero = true) :
    divide.apply s v w p = .error (.failed .divisionByZero (some p)) := by
  unfold apply
  rw [if_neg (by simp [datum_of_divide hw h]), if_pos ⟨rfl, hzero⟩]

lemma apply_of_not_zero (h : Check.operation op l r = .ok (some t)) (hw : w.hasType r = true)
    (hzero : ¬(op = .divide ∧ w.isZero = true)) : op.apply s v w p = op.perform s v w p := by
  have hdatum : ¬(op = .divide ∧ w.datum?.isNone = true) := by
    rintro ⟨rfl, hnone⟩
    rw [datum_of_divide hw h] at hnone
    cases hnone
  unfold apply
  rw [if_neg hdatum, if_neg hzero]

lemma texts_of_join {a b : Datum} {c : String} (h : a.join b = .ok (some c)) :
    ∃ x y, a = .text x ∧ b = .text y := by
  unfold Datum.join at h
  split at h
  · exact ⟨_, _, rfl, rfl⟩
  · split at h
    · obtain ⟨_, -, h'⟩ := answer_of_bind h
      cases h'
    · obtain ⟨_, -, h'⟩ := answer_of_bind h
      cases h'
    · cases h
    · cases h

lemma perform_of_missing_join (hmissing : add.isMissing v w = true) :
    ∃ e, add.perform s v w p = .error e := by
  obtain ⟨a, b, rfl, rfl⟩ : ∃ a b, v = .string a ∧ w = .string b := by
    unfold isMissing at hmissing
    split at hmissing
    · exact ⟨_, _, rfl, rfl⟩
    · cases hmissing
    · exact ⟨_, _, rfl, rfl⟩
    · cases hmissing
  unfold perform
  split
  · rename_i u hu
    obtain ⟨c?, hjoin, hc⟩ := answer_of_bind hu
    cases c? with
    | none => cases hc
    | some c =>
      obtain ⟨x, y, rfl, rfl⟩ := texts_of_join hjoin
      cases hmissing
  · exact ⟨_, rfl⟩
  · exact ⟨_, rfl⟩

lemma isOrder_of_isMissing (h : op.isMissing v w = true) (hop : op ≠ .add) : op.isOrder = true := by
  unfold isMissing at h
  split at h
  · exact h
  · exact h
  · simpa [hop] using h
  · cases h

/-- How an operator ends that the checker admits with a type: it divides by zero, it lacks an
operation between the two values, or it gives a value of the type. -/
structure Outcome (op : BinaryOp) (v w : Value) (t : Ty) (p : Position) (m : Machine)
    (x : EStateM.Result Stop Machine Unit) : Prop where
  zero : op = .divide ∧ w.isZero = true → x = .error (.failed .divisionByZero (some p)) m
  missing : op.isMissing v w = true → ∃ e, x = .error e m ∧
    (op ≠ .add → e = .failed (.badOperands op v.typeName w.typeName) (some p))
  value : ¬(op = .divide ∧ w.isZero = true) → op.isMissing v w = false →
    ∃ m', x = .ok () m' ∧ (m'.store.get m'.last).hasType t = true

/-- The outcome of an operator that is no logical one. -/
lemma apply_outcome (ha : op ≠ .and) (ho : op ≠ .or) (hv : v.hasType l = true)
    (hw : w.hasType r = true) (h : Check.operation op l r = .ok (some t)) (m : Machine) :
    op.Outcome v w t p m (giveOr (op.apply m.store v w p) m) := by
  constructor
  · rintro ⟨rfl, hzero⟩
    rw [apply_of_zero h hw hzero]
    rfl
  · intro hmissing
    have hdivide : ¬(op = .divide ∧ w.isZero = true) := by
      rintro ⟨rfl, -⟩
      cases isOrder_of_isMissing hmissing (by decide)
    rw [apply_of_not_zero h hw hdivide]
    by_cases hop : op = .add
    · subst hop
      obtain ⟨e, he⟩ := perform_of_missing_join hmissing
      rw [he]
      exact ⟨e, rfl, fun hadd => absurd rfl hadd⟩
    · have horder := isOrder_of_isMissing hmissing hop
      obtain ⟨-, ⟨hcontra, -⟩ | ⟨-, hnone⟩⟩ := operate_order (s := m.store) horder hv hw h
      · cases hcontra.symm.trans hmissing
      · unfold perform
        rw [hnone]
        exact ⟨_, rfl, fun _ => rfl⟩
  · intro hzero hmissing
    obtain ⟨u, hu, hut⟩ := operate_typed (s := m.store) ha ho hv hw h hmissing
    rw [apply_of_not_zero h hw hzero]
    unfold perform
    rw [hu]
    exact ⟨_, rfl, (congrArg (·.hasType t) (m.store.get_push_next u)).trans hut⟩

end BinaryOp

namespace Run

variable {body : Node → Run Unit} {fuel : Nat} {m m₁ m₂ : Machine} {op : BinaryOp} {s : Span}
  {left right e : Node}
  {l r t u : Ty} {k k' : Checker}

lemma visit_binary_outcome
    (h : Check.binary (.binary s op left right) op left right l r k = .ok t k')
    (hleft : visit body fuel left m = .ok () m₁) (hright : visit body fuel right m₁ = .ok () m₂)
    (hl : (m₂.store.get m₁.last).hasType l = true) (hr : (m₂.store.get m₂.last).hasType r = true) :
    op.Outcome (m₂.store.get m₁.last) (m₂.store.get m₂.last) t s.start m₂
      (visit body fuel (.binary s op left right) m) := by
  by_cases hop : op = .and ∨ op = .or
  · obtain rfl := Check.bool_of_binary hop h
    obtain ⟨b, m₃, hvisit, hb⟩ := visit_logical (s := s) hop hleft hright
    have hdivide : op ≠ .divide := by rcases hop with rfl | rfl <;> decide
    have hadd : op ≠ .add := by rcases hop with rfl | rfl <;> decide
    have horder : op.isOrder = false := by rcases hop with rfl | rfl <;> rfl
    refine ⟨fun hzero => absurd hzero.1 hdivide, fun hmissing => ?_, fun _ _ => ⟨m₃, hvisit, ?_⟩⟩
    · cases (BinaryOp.isOrder_of_isMissing hmissing hadd).symm.trans horder
    · rw [hb]
      rfl
  · obtain ⟨ha, ho⟩ := not_or.1 hop
    rw [visit_binary ha ho hleft hright]
    exact BinaryOp.apply_outcome ha ho hl hr (Check.operation_of_binary ha ho h) m₂

lemma visit_negate_typed (h : Check.negation (.negate s e) t k = .ok u k')
    (he : visit body fuel e m = .ok () m₁) (ht : (m₁.store.get m₁.last).hasType t = true) :
    ∃ m₂, visit body fuel (.negate s e) m = .ok () m₂ ∧
      (m₂.store.get m₂.last).hasType u = true := by
  rw [visit]
  simp only [valueOf, last, negate, value, bind_run, he, get_run, pure_run]
  rcases Check.negation_ok h with ⟨hint, rfl⟩ | ⟨hfloat, rfl⟩
  · obtain ⟨n, hn⟩ := Value.int_of_belongs (Value.belongs_of_hasType ht hint)
    rw [hn]
    exact ⟨_, rfl, congrArg (·.hasType .int) (m₁.store.get_push_next (.int (-n)))⟩
  · obtain ⟨x, hx⟩ := Value.float_of_belongs (Value.belongs_of_hasType ht hfloat)
    rw [hx]
    exact ⟨_, rfl, congrArg (·.hasType .float) (m₁.store.get_push_next (.float (-x)))⟩

end Run

/-! ## Every operator -/

/-- On values of types that the checker admits, an operator divides by zero, or lacks an operation,
or gives a value of the type that the checker expects; a negation always does the last. -/
theorem operators_follow_checker (body : Node → Run Unit) (fuel : Nat) :
    (∀ {s op left right l r t k k' m m₁ m₂},
      Check.binary (.binary s op left right) op left right l r k = .ok t k' →
      visit body fuel left m = .ok () m₁ → visit body fuel right m₁ = .ok () m₂ →
      (m₂.store.get m₁.last).hasType l = true → (m₂.store.get m₂.last).hasType r = true →
      op.Outcome (m₂.store.get m₁.last) (m₂.store.get m₂.last) t s.start m₂
        (visit body fuel (.binary s op left right) m)) ∧
    ∀ {s e t u k k' m m₁}, Check.negation (.negate s e) t k = .ok u k' →
      visit body fuel e m = .ok () m₁ → (m₁.store.get m₁.last).hasType t = true →
      ∃ m₂, visit body fuel (.negate s e) m = .ok () m₂ ∧ (m₂.store.get m₂.last).hasType u = true :=
  ⟨visit_binary_outcome, visit_negate_typed⟩

namespace Node

/-- `"a"` -/
def firstLetter : Node := .string (.columns 0 0) "a"

/-- `"b"` -/
def secondLetter : Node := .string (.columns 2 2) "b"

/-- `"a" < "b"` -/
def inOrder : Node := .binary (.columns 0 2) .less firstLetter secondLetter

end Node

/-- Two strings are admitted, and not compared by order. -/
theorem operators_follow_checker_strings :
    Check.binary .inOrder .less .firstLetter .secondLetter .string .string {} = .ok .bool {} ∧
      ∃ m₁ m₂ : Machine, visit (bodyAt 0 0) 0 .firstLetter {} = .ok () m₁ ∧
        visit (bodyAt 0 0) 0 .secondLetter m₁ = .ok () m₂ ∧
        (m₂.store.get m₁.last).hasType .string = true ∧
        (m₂.store.get m₂.last).hasType .string = true ∧ visit (bodyAt 0 0) 0 .inOrder {} =
          .error (.failed (.badOperands .less "string" "string") (some ⟨1, 0⟩)) m₂ := by
  have hcheck : Check.binary .inOrder .less .firstLetter .secondLetter .string .string
    {} = .ok .bool {} := rfl
  have hleft : visit (bodyAt 0 0) 0 .firstLetter {} =
      .ok () { store := ⟨#[.null, .text "a"]⟩, last := 1 } := rfl
  have hright : visit (bodyAt 0 0) 0 .secondLetter { store := ⟨#[.null, .text "a"]⟩, last := 1 } =
      .ok () { store := ⟨#[.null, .text "a", .text "b"]⟩, last := 2 } := rfl
  have houtcome := (operators_follow_checker (bodyAt 0 0) 0).1 hcheck hleft hright rfl rfl
  obtain ⟨e, hvisit, he⟩ := houtcome.missing rfl
  refine ⟨hcheck, _, _, hleft, hright, rfl, rfl, hvisit.trans ?_⟩
  rw [he (by decide)]
  rfl

end AudLang
