import AudLang.Proofs.Operating

/-!
Equality of values.

Two values are compared by what they are: numbers and strings by their content, files by their path
and the path of their folder, folders by their path, and null with null.  This is the likeness of a
value, and where no floats are involved values are equal exactly if they have the same likeness.  So
equality has the laws of an equivalence as far as values have a likeness.  Lists have none: nothing
is equal to a list, not even the list itself.
-/

namespace AudLang

open Run

/-! ## Likenesses -/

/-- Is the datum a float? -/
def Datum.isFloat : Datum → Bool
  | .float _ => true
  | _ => false

namespace Value

/-- Is the value neither a float nor a string that holds one?  The elements of a list play no
part. -/
def isFloatFree : Value → Bool
  | .float _ => false
  | .string d => !d.isFloat
  | _ => true

/-- Is the value a list? -/
def isList : Value → Bool
  | .list .. => true
  | _ => false

/-- May an expression of the type have the value: is it of the type, or null where null may stand
for it? -/
def mayHave (v : Value) (t : Ty) : Bool :=
  v.hasType t || v.isNull && t.accepts .null matches .ok true

end Value

/-- What is compared of a value. -/
inductive Likeness where
  | int (n : Int)
  | string (content : Datum)
  | bool (b : Bool)
  | null
  | file (path : String) (folder : Option String)
  | folder (path : String)

/-- The content of a string as it is compared: a truth value in it counts as a number. -/
def Datum.content (d : Datum) : Datum := d.number?.getD d

/-- What is compared of a value of a store.  Lists are not compared. -/
def Store.likeness? (s : Store) : Value → Option Likeness
  | .int n => some (.int n)
  | .string d => some (.string d.content)
  | .bool b => some (.bool b)
  | .null => some .null
  | .file f | .audio f _ => some (.file f.path (s.parentPath f))
  | .folder d => some (.folder d.path)
  | .float _ | .list .. | .other _ => none

/-- The values have a likeness, and it is the same one. -/
structure Store.Resembles (s : Store) (v w : Value) : Prop where
  same : s.likeness? v = s.likeness? w
  isSome : (s.likeness? v).isSome = true

lemma Datum.equals_iff {d e : Datum} (hd : d.isFloat = false) (he : e.isFloat = false) :
    d.equals e = true ↔ d.content = e.content := by
  cases d <;> cases hd <;> cases e <;> cases he <;> simp [equals, content, number?]

namespace Store

variable {s : Store} {u v w : Value}

lemma Resembles.symm (h : s.Resembles v w) : s.Resembles w v := ⟨h.same.symm, h.same ▸ h.isSome⟩

lemma Resembles.trans (h : s.Resembles u v) (h' : s.Resembles v w) : s.Resembles u w :=
  ⟨h.same.trans h'.same, h.isSome⟩

lemma resembles_iff : s.Resembles v w ↔ s.likeness? v = s.likeness? w ∧
    (s.likeness? v).isSome = true :=
  ⟨fun h => ⟨h.same, h.isSome⟩, fun h => ⟨h.1, h.2⟩⟩

/-- Objects are the same exactly if they resemble each other. -/
lemma sameObject_iff (h : v.isObject = true ∨ w.isObject = true) :
    s.sameObject v w = true ↔ s.Resembles v w := by
  rw [resembles_iff]
  cases v <;> cases w <;> simp_all [sameObject, likeness?, Value.isObject, Value.file?]

/-- Whatever equality answers, it answers that the values resemble each other or that they do
not. -/
lemma operate_equals (hv : v.isFloatFree = true) (hw : w.isFloatFree = true) {x : Value}
    (h : s.operate .equals v w = .ok (some x)) :
    ∃ e : Bool, x = .bool e ∧ (e = true ↔ s.Resembles v w) := by
  rw [resembles_iff]
  unfold operate at h
  split at h
  · cases h
    exact ⟨_, rfl, by simp [likeness?]⟩
  · cases hw
  · cases hv
  · cases hv
  · rename_i a b
    cases h
    simp only [Value.isFloatFree, Bool.not_eq_true'] at hv hw
    exact ⟨_, rfl, by simp [likeness?, Datum.equals_iff hv hw]⟩
  · cases h
    exact ⟨_, rfl, by simp [likeness?]⟩
  · split at h
    · rename_i hobject
      cases h
      refine ⟨_, rfl, ?_⟩
      rw [← resembles_iff]
      exact sameObject_iff (by simpa using hobject)
    · cases h

/-- Inequality answers the opposite of what equality answers, with floats as well. -/
lemma operate_notEquals {x : Value} (h : s.operate .equals v w = .ok (some x)) :
    ∃ e : Bool, x = .bool e ∧ s.operate .notEquals v w = .ok (some (.bool (!e))) := by
  unfold operate at h ⊢
  split at h
  case h_2 a y =>
    cases hfloat : Datum.floatOfInt a with
    | error f =>
      rw [hfloat] at h
      cases h
    | ok x =>
      rw [hfloat] at h
      cases h
      exact ⟨_, rfl, rfl⟩
  case h_3 x b =>
    cases hfloat : Datum.floatOfInt b with
    | error f =>
      rw [hfloat] at h
      cases h
    | ok y =>
      rw [hfloat] at h
      cases h
      exact ⟨_, rfl, rfl⟩
  case h_7 =>
    split at h
    · rename_i hobject
      cases h
      exact ⟨_, rfl, by rw [if_pos hobject]; rfl⟩
    · cases h
  all_goals
    cases h
    exact ⟨_, rfl, rfl⟩

/-- Equality has an answer for values of types between which the checker admits it. -/
lemma exists_operate_equals {l r : Ty} (h : Check.operation .equals l r = .ok (some .bool))
    (hv : v.mayHave l = true) (hw : w.mayHave r = true) :
    ∃ x, s.operate .equals v w = .ok (some x) := by
  by_cases hnull : v = .null ∨ w = .null
  · refine ⟨.bool (s.sameObject v w), ?_⟩
    rcases hnull with rfl | rfl
    · rfl
    · cases v <;> rfl
  · simp only [not_or] at hnull
    have htyped : ∀ {u : Value} {t : Ty}, u ≠ .null → u.mayHave t = true → u.hasType t = true := by
      intro u t hne hu
      have hnot : u.isNull = false := by cases u <;> first | rfl | exact absurd rfl hne
      simpa [Value.mayHave, hnot] using hu
    have hmissing : BinaryOp.equals.isMissing v w = false := by
      cases hm : BinaryOp.equals.isMissing v w with
      | false => rfl
      | true => cases BinaryOp.isOrder_of_isMissing hm (by decide)
    obtain ⟨x, hx, -⟩ := BinaryOp.operate_typed (s := s) (by decide) (by decide) (htyped hnull.1 hv)
      (htyped hnull.2 hw) h hmissing
    exact ⟨x, hx⟩

/-- Among the values that expressions have, only floats and lists have no likeness. -/
lemma isSome_likeness? {t : Ty} (hv : v.mayHave t = true) (hfree : v.isFloatFree = true) :
    (s.likeness? v).isSome = !v.isList := by
  cases v with
  | float x => cases hfree
  | other n => cases t <;> simp [Value.mayHave, Value.hasType, Value.belongs, Value.isNull] at hv
  | _ => rfl

end Store

/-! ## Machines -/

namespace Machine

variable {m : Machine} {op : BinaryOp} {a b c : Ref} {e : Bool}

/-- Comparing the values in two cells gives this truth value, wherever it is done. -/
def Compares (m : Machine) (op : BinaryOp) (a b : Ref) (e : Bool) : Prop :=
  ∀ p, operate op a b p m = give (.bool e) m

lemma compares_of_operate (hop : op ≠ .divide)
    (h : m.store.operate op (m.store.get a) (m.store.get b) = .ok (some (.bool e))) :
    m.Compares op a b e := by
  intro p
  rw [operate_run, BinaryOp.apply, if_neg (by simp [hop]), if_neg (by simp [hop]), BinaryOp.perform,
    h]
  rfl

lemma operate_of_ok (hop : op ≠ .divide) {p : Position} {m' : Machine}
    (h : operate op a b p m = .ok () m') :
    ∃ v, m.store.operate op (m.store.get a) (m.store.get b) = .ok (some v) ∧
      give v m = .ok () m' := by
  rw [operate_run, BinaryOp.apply, if_neg (by simp [hop]), if_neg (by simp [hop]),
    BinaryOp.perform] at h
  cases hv : m.store.operate op (m.store.get a) (m.store.get b) with
  | error f =>
    rw [hv] at h
    cases h
  | ok v? =>
    rw [hv] at h
    cases v? with
    | none => cases h
    | some v => exact ⟨v, rfl, h⟩

/-- Different values are given by different steps. -/
lemma give_injective {v w : Value} (h : give v m = give w m) : v = w := by
  have hstore : m.store.push v = m.store.push w := by
    injection h with _ hm
    exact congrArg Machine.store hm
  rw [← m.store.get_push_next v, hstore, m.store.get_push_next w]

lemma compares_iff (hop : op ≠ .divide) : m.Compares op a b e ↔
    m.store.operate op (m.store.get a) (m.store.get b) = .ok (some (.bool e)) := by
  refine ⟨fun h => ?_, compares_of_operate hop⟩
  obtain ⟨v, hv, hgive⟩ := operate_of_ok hop (h .start)
  rw [hv, give_injective (hgive.trans rfl : give v m = give (.bool e) m)]

/-- An expression of the type may have the value in the cell, and there is no float in it. -/
structure Holds (m : Machine) (t : Ty) (r : Ref) : Prop where
  typed : (m.store.get r).mayHave t = true
  floatFree : (m.store.get r).isFloatFree = true

variable {t : Ty}

/-- Comparing two cells tells whether the values in them resemble each other. -/
lemma exists_compares (ht : Check.operation .equals t t = .ok (some .bool)) (ha : m.Holds t a)
    (hb : m.Holds t b) : ∃ e, m.Compares .equals a b e ∧
      (e = true ↔ m.store.Resembles (m.store.get a) (m.store.get b)) := by
  obtain ⟨x, hx⟩ := Store.exists_operate_equals (s := m.store) ht ha.typed hb.typed
  obtain ⟨e, rfl, he⟩ := Store.operate_equals ha.floatFree hb.floatFree hx
  exact ⟨e, compares_of_operate (by decide) hx, he⟩

lemma Compares.unique {e' : Bool} (hop : op ≠ .divide) (h : m.Compares op a b e)
    (h' : m.Compares op a b e') : e = e' := by
  have heq := ((compares_iff hop).1 h).symm.trans ((compares_iff hop).1 h')
  injection heq with heq
  injection heq with heq
  injection heq

lemma compares_true_iff (ht : Check.operation .equals t t = .ok (some .bool)) (ha : m.Holds t a)
    (hb : m.Holds t b) :
    m.Compares .equals a b true ↔ m.store.Resembles (m.store.get a) (m.store.get b) := by
  obtain ⟨e, hcompares, he⟩ := exists_compares ht ha hb
  refine ⟨fun h => he.1 (hcompares.unique (by decide) h), fun h => ?_⟩
  rw [← he.2 h]
  exact hcompares

lemma not_resembles_list {v w : Value} (h : v.isList = true) : ¬m.store.Resembles v w := by
  intro hsame
  have hsome := hsame.isSome
  cases v <;> cases h
  cases hsome

/-- Where the checker admits equality, it has an answer for all values of the type.  Without floats
it is symmetric and transitive, and every value but a list is equal to itself; a list is equal to
nothing.  Inequality, where equality has an answer, has the opposite one, with floats as well. -/
theorem equality_laws (m : Machine) :
    (∀ t, Check.operation .equals t t = .ok (some .bool) →
      ∀ a b c, m.Holds t a → m.Holds t b → m.Holds t c →
        m.Compares .equals a a (!(m.store.get a).isList) ∧
        (∃ e, m.Compares .equals a b e ∧ m.Compares .equals b a e) ∧
        (m.Compares .equals a b true → m.Compares .equals b c true → m.Compares .equals a c true) ∧
        ((m.store.get a).isList = true → m.Compares .equals a b false)) ∧
    ∀ a b p m', operate .equals a b p m = .ok () m' →
      ∃ e, m.Compares .equals a b e ∧ m.Compares .notEquals a b (!e) := by
  refine ⟨fun t ht a b c ha hb hc => ⟨?_, ?_, ?_, ?_⟩, fun a b p m' h => ?_⟩
  · obtain ⟨e, hcompares, he⟩ := exists_compares ht ha ha
    have hsome := Store.isSome_likeness? (s := m.store) ha.typed ha.floatFree
    have hself : e = true ↔ (!(m.store.get a).isList) = true := by
      rw [he, ← hsome]
      exact ⟨Store.Resembles.isSome, fun h => ⟨rfl, h⟩⟩
    rw [← Bool.eq_iff_iff.2 hself]
    exact hcompares
  · obtain ⟨e, hcompares, he⟩ := exists_compares ht ha hb
    obtain ⟨e', hcompares', he'⟩ := exists_compares ht hb ha
    have hsame : e = true ↔ e' = true := by
      rw [he, he']
      exact ⟨Store.Resembles.symm, Store.Resembles.symm⟩
    rw [← Bool.eq_iff_iff.2 hsame] at hcompares'
    exact ⟨e, hcompares, hcompares'⟩
  · intro hab hbc
    rw [compares_true_iff ht ha hb] at hab
    rw [compares_true_iff ht hb hc] at hbc
    rw [compares_true_iff ht ha hc]
    exact hab.trans hbc
  · intro hlist
    obtain ⟨e, hcompares, he⟩ := exists_compares ht ha hb
    cases e with
    | false => exact hcompares
    | true => exact absurd (he.1 rfl) (not_resembles_list hlist)
  · obtain ⟨x, hx, -⟩ := operate_of_ok (by decide) h
    obtain ⟨e, rfl, hne⟩ := Store.operate_notEquals hx
    exact ⟨e, compares_of_operate (by decide) hx, compares_of_operate (by decide) hne⟩

/-- Two values for one file are equal, audio or not; a list is not equal to itself. -/
theorem equality_laws_filesAndLists : ∃ m : Machine,
    Check.operation .equals .file .file = .ok (some .bool) ∧ m.Compares .equals 2 3 true ∧
    m.Compares .equals 3 2 true ∧
    Check.operation .equals (.list .int) (.list .int) = .ok (some .bool) ∧
    m.Compares .equals 4 4 false ∧ m.Compares .notEquals 4 4 true := by
  let f : FileObject :=
    { path := "/d/a.wav", name := "a.wav", parent := some 1, isDeleted := false }
  let m : Machine :=
    { store := ⟨#[.null, .folder { path := "/d", name := "d", files := [], isDeleted := false },
        .file f, .audio f { length := 0, bitrate := 0, title := .text "a" }, .list "int" [0]]⟩ }
  obtain ⟨hlaws, hopposite⟩ := equality_laws m
  have hfile : m.Holds .file 2 := ⟨by decide, rfl⟩
  have haudio : m.Holds .file 3 := ⟨by decide, rfl⟩
  have hlist : m.Holds (.list .int) 4 := ⟨by decide, rfl⟩
  have hequal : m.Compares .equals 2 3 true :=
    (compares_true_iff (by decide) hfile haudio).2 ⟨rfl, rfl⟩
  obtain ⟨-, ⟨e, hsame, hback⟩, -⟩ := hlaws .file (by decide) 2 3 3 hfile haudio haudio
  rw [← hequal.unique (by decide) hsame] at hback
  obtain ⟨hself, -⟩ := hlaws (.list .int) (by decide) 4 4 4 hlist hlist hlist
  obtain ⟨e', hanswer, hnegated⟩ := hopposite 4 4 .start _ (hself .start)
  rw [← Compares.unique (by decide) hself hanswer] at hnegated
  exact ⟨m, by decide, hequal, hback, by decide, hself, hnegated⟩

end Machine

end AudLang
