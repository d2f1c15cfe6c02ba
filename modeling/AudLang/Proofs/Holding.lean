import AudLang.Proofs.Discipline

/-!
Values of types.

`Store.Holds` says that a cell holds a value of a type, down to the elements of lists.  Values of
simple types may be written over by values of the same kind and still are of their type, which is
what makes it safe to share cells.  The steps of a machine that compute with values are looked at
one by one: given values of the types that the checker asks for, each of them gives a value of the
type that the checker expects or stops with an error that a program may meet.
-/

namespace AudLang

open Run

/-! ## Cells -/

/-- Is the value of the type with this base?  Null is of no type but void, and no value here is of a
type of files. -/
def Value.isOf : Value → Base → Bool
  | .int _, .int | .float _, .float | .string (.text _), .string | .bool _, .bool | .null, .void =>
    true
  | _, _ => false

/-- The cell holds a value of the type. -/
inductive Store.Holds (s : Store) : Ref → Ty → Prop
  | simple {r : Ref} {b : Base} (e : Ty) (hr : r < s.next) (h : (s.get r).isOf b = true) :
      Holds s r (.of b e)
  | list {r : Ref} {type : String} {rs : List Ref} {e : Ty} (hr : r < s.next)
      (h : s.get r = .list type rs) (hes : ∀ q ∈ rs, Holds s q e) : Holds s r (.list e)

/-- The second value may come into the cell of the first. -/
structure Value.Alike (v w : Value) : Prop where
  isOf : ∀ b, v.isOf b = true → w.isOf b = true
  list : ∀ type rs, v = .list type rs → w = .list type rs

lemma Value.Alike.refl (v : Value) : v.Alike v := ⟨fun _ h => h, fun _ _ h => h⟩

namespace Store.Holds

variable {s s' : Store} {r q : Ref} {t u : Ty}

lemma lt (h : s.Holds r t) : r < s.next := by cases h <;> assumption

/-- Types stay as long as the values in the cells are alike. -/
lemma of_alike (h : s.Holds r t) (hn : s.next ≤ s'.next)
    (hv : ∀ r t, s.Holds r t → (s.get r).Alike (s'.get r)) : s'.Holds r t := by
  induction h with
  | simple e hr h =>
    exact .simple e (Nat.lt_of_lt_of_le hr hn) ((hv _ _ (.simple e hr h)).isOf _ h)
  | list hr h hes ih =>
    exact .list (Nat.lt_of_lt_of_le hr hn) ((hv _ _ (.list hr h hes)).list _ _ h) ih

lemma isFixed (h : s.Holds r t) : (s.get r).isFixed = true := by
  cases h with
  | simple e _ h => cases hv : s.get r <;> simp_all [Value.isOf, Value.isFixed]
  | list _ h => rw [h]; rfl

lemma of_keeps (h : s.Holds r t) (hs : s.Keeps s') : s'.Holds r t := by
  refine h.of_alike hs.next fun q u hq => ?_
  rw [(hs.get q hq.lt).eq_of_isFixed hq.isFixed]
  exact .refl _

lemma push (h : s.Holds r t) (v : Value) : (s.push v).Holds r t := h.of_keeps (s.keeps_push v)

lemma text_of_string {d : Datum} (h : s.Holds r t) (hd : s.get r = .string d) :
    ∃ x, d = .text x := by
  cases h with
  | simple e _ h => rw [hd] at h; cases d <;> first | exact ⟨_, rfl⟩ | cases h
  | list _ h => rw [hd] at h; cases h

lemma of_put (h : s.Holds r t) {target : Ref} (hq : s.Holds q u)
    (hfits : (s.get target).fits (s.get q) = true) : (s.put target (s.get q)).Holds r t := by
  refine h.of_alike (by simp) fun r t hr => ?_
  by_cases hne : r = target
  · subst hne
    rw [Store.get_put_self hr.lt]
    constructor
    · intro b hb
      cases hw : s.get q with
      | string d =>
        obtain ⟨x, rfl⟩ := hq.text_of_string hw
        cases hv : s.get r <;> simp_all [Value.fits]
        cases b <;> simp_all [Value.isOf]
      | _ =>
        cases hv : s.get r <;> simp_all [Value.fits]
        all_goals cases b <;> simp_all [Value.isOf]
    · intro type rs hlist
      rw [hlist] at hfits
      cases hfits
  · rw [Store.get_put_of_ne hne]
    exact .refl _

lemma push_copy (h : s.Holds r t) (hs : (s.get r).isSimple = true) :
    (s.push (s.get r)).Holds s.next t := by
  cases h with
  | simple e _ h => exact .simple e (by simp) (by rw [Store.get_push_next]; exact h)
  | list _ h => rw [h] at hs; cases hs

lemma of_literal {v : Value} (h : v.Literal t) : (s.push v).Holds s.next t := by
  cases h <;> exact .simple _ (by simp) (by rw [Store.get_push_next]; rfl)

lemma of_elements {type : String} {rs : List Ref} (h : ∀ r ∈ rs, s.Holds r t) :
    (s.push (.list type rs)).Holds s.next (.list t) :=
  .list (by simp) (s.get_push_next _) fun r hr => (h r hr).push _

end Store.Holds

/-! ## Types that accept each other -/

lemma Ty.base_of_accepts {a b : Base} {e f : Ty} (h : (Ty.of a e).accepts (.of b f) = .ok true)
    (hnull : b ≠ .null) (haudio : b ≠ .audio) : a = b ∧ (a = .list → e.accepts f = .ok true) := by
  by_cases hlist : a = .list ∧ b = .list
  · obtain ⟨rfl, rfl⟩ := hlist
    exact ⟨rfl, fun _ => h⟩
  · rw [Ty.accepts] at h
    · have hab : a = b := by simpa [hnull, haudio] using h
      exact ⟨hab, fun ha => absurd ⟨ha, hab ▸ ha⟩ hlist⟩
    · rintro rfl rfl
      exact hlist ⟨rfl, rfl⟩

/-- A value of a type is of every type that accepts it. -/
lemma Store.Holds.of_accepts {s : Store} {r : Ref} {u : Ty} (h : s.Holds r u) :
    ∀ {t : Ty}, t.accepts u = .ok true → s.Holds r t := by
  induction h with
  | @simple r b e hr h =>
    intro t ht
    have hnull : b ≠ .null := by rintro rfl; cases hv : s.get r <;> simp_all [Value.isOf]
    have haudio : b ≠ .audio := by rintro rfl; cases hv : s.get r <;> simp_all [Value.isOf]
    cases t with
    | absent => cases ht
    | of a f =>
      obtain ⟨rfl, -⟩ := Ty.base_of_accepts ht hnull haudio
      exact .simple f hr h
  | list hr h _ ih =>
    intro t ht
    cases t with
    | absent => cases ht
    | of a f =>
      obtain ⟨rfl, he⟩ := Ty.base_of_accepts ht (by simp) (by simp)
      exact .list hr h fun q hq => ih q hq (he rfl)

/-! ## Operators -/

namespace BinaryOp

/-- Does the operator compute with numbers? -/
def isArithmetic : BinaryOp → Bool
  | add | subtract | multiply | divide => true
  | _ => false

/-- Does the operator compare by order? -/
def isOrder : BinaryOp → Bool
  | less | lessOrEqual | greater | greaterOrEqual => true
  | _ => false

end BinaryOp

/-- The operations that the checker knows. -/
inductive Ty.Operable (l r : Ty) : BinaryOp → Ty → Prop
  | arithmetic {op : BinaryOp} {b : Base} (hop : op.isArithmetic = true)
      (hb : b = .int ∨ b = .float)
      (hl : l.hasBase b = true) (hr : r.hasBase b = true) : Operable l r op (.plain b)
  | join (hl : l.hasBase .string = true) (hr : r.hasBase .string = true) : Operable l r .add .string
  | order {op : BinaryOp} {b : Base} (hop : op.isOrder = true) (hl : l.hasBase b = true)
      (hr : r.hasBase b = true) : Operable l r op .bool
  | equality {op : BinaryOp} (hop : op = .equals ∨ op = .notEquals)
      (h : (∃ b, l.hasBase b = true ∧ r.hasBase b = true) ∨ l.accepts r = .ok true ∨
        r.accepts l = .ok true) : Operable l r op .bool

lemma Ty.operable_of_operation {op : BinaryOp} {l r t : Ty} (ha : op ≠ .and) (ho : op ≠ .or)
    (h : Check.operation op l r = .ok (some t)) : l.Operable r op t := by
  cases op with
  | and => exact absurd rfl ha
  | or => exact absurd rfl ho
  | add | subtract | multiply | divide =>
    simp only [Check.operation, Bool.and_eq_true] at h
    split at h
    · rename_i hint
      cases h
      exact .arithmetic rfl (.inl rfl) hint.1 hint.2
    split at h
    · rename_i hfloat
      cases h
      exact .arithmetic rfl (.inr rfl) hfloat.1 hfloat.2
    split at h
    · rename_i hstring
      cases h
      first | exact .join hstring.2.1 hstring.2.2 | cases hstring.1
    · cases h
  | less | lessOrEqual | greater | greaterOrEqual =>
    simp only [Check.operation, Bool.and_eq_true, Bool.or_eq_true] at h
    split at h
    · rename_i hboth
      cases h
      rcases hboth with ((hb | hb) | hb) | hb <;> exact .order rfl hb.1 hb.2
    · cases h
  | equals | notEquals =>
    simp only [Check.operation, Bool.and_eq_true, Bool.or_eq_true] at h
    split at h
    · rename_i hboth
      cases h
      refine .equality (by simp) (.inl ?_)
      rcases hboth with ((hb | hb) | hb) | hb <;> exact ⟨_, hb⟩
    · obtain ⟨accepts, hlr, h₁⟩ := answer_of_bind h
      cases accepts with
      | true =>
        cases h₁
        exact .equality (by simp) (.inr (.inl hlr))
      | false =>
        obtain ⟨accepts, hrl, h₂⟩ := answer_of_bind h₁
        cases accepts with
        | true =>
          cases h₂
          exact .equality (by simp) (.inr (.inr hrl))
        | false => cases h₂

namespace Store.Holds

variable {s : Store} {r q p : Ref} {t u : Ty}

lemma int (h : s.Holds r t) (ht : t.hasBase .int = true) : ∃ n, s.get r = .int n := by
  cases h with
  | simple _ _ h =>
    obtain rfl := by simpa [Ty.hasBase, Ty.base?] using ht
    cases hv : s.get r <;> simp_all [Value.isOf]
  | list => cases ht

lemma float (h : s.Holds r t) (ht : t.hasBase .float = true) : ∃ x, s.get r = .float x := by
  cases h with
  | simple _ _ h =>
    obtain rfl := by simpa [Ty.hasBase, Ty.base?] using ht
    cases hv : s.get r <;> simp_all [Value.isOf]
  | list => cases ht

lemma string (h : s.Holds r t) (ht : t.hasBase .string = true) : ∃ x, s.get r = .text x := by
  cases h with
  | simple e hr h =>
    obtain rfl := by simpa [Ty.hasBase, Ty.base?] using ht
    cases hv : s.get r with
    | string d =>
      obtain ⟨x, rfl⟩ := text_of_string (.simple e hr h) hv
      exact ⟨x, rfl⟩
    | _ => simp_all [Value.isOf]
  | list => cases ht

lemma bool (h : s.Holds r t) (ht : t.hasBase .bool = true) : ∃ b, s.get r = .bool b := by
  cases h with
  | simple _ _ h =>
    obtain rfl := by simpa [Ty.hasBase, Ty.base?] using ht
    cases hv : s.get r <;> simp_all [Value.isOf]
  | list => cases ht

lemma void (h : s.Holds r t) (ht : t.hasBase .void = true) : s.get r = .null := by
  cases h with
  | simple _ _ h =>
    obtain rfl := by simpa [Ty.hasBase, Ty.base?] using ht
    cases hv : s.get r <;> simp_all [Value.isOf]
  | list => cases ht

lemma elements (h : s.Holds r t) (ht : t.hasBase .list = true) :
    ∃ type rs, s.get r = .list type rs ∧ ∀ q ∈ rs, s.Holds q t.element := by
  cases h with
  | simple _ _ h =>
    obtain rfl := by simpa [Ty.hasBase, Ty.base?] using ht
    cases hv : s.get r <;> simp_all [Value.isOf]
  | list _ h hes => exact ⟨_, _, h, hes⟩

/-- The bases of types that have values. -/
lemma base_cases {b : Base} (h : s.Holds r t) (ht : t.hasBase b = true) :
    b = .int ∨ b = .float ∨ b = .string ∨ b = .bool ∨ b = .void ∨ b = .list := by
  cases h with
  | simple _ _ h =>
    obtain rfl := by simpa [Ty.hasBase, Ty.base?] using ht
    unfold Value.isOf at h
    split at h <;> simp_all
  | list =>
    obtain rfl := by simpa [Ty.hasBase, Ty.base?] using ht
    simp

/-- Types that accept each other have a base in common, if there are values of them. -/
lemma base_of_accepts (hr : s.Holds r u) (h : t.accepts u = .ok true) :
    ∃ b, t.hasBase b = true ∧ u.hasBase b = true := by
  cases t with
  | absent => cases h
  | of a e =>
    cases u with
    | absent => cases h
    | of b f =>
      have hb := hr.base_cases (b := b) (by simp [Ty.hasBase, Ty.base?])
      obtain ⟨rfl, -⟩ := Ty.base_of_accepts h (by rintro rfl; simp at hb)
        (by rintro rfl; simp at hb)
      exact ⟨a, by simp [Ty.hasBase, Ty.base?], by simp [Ty.hasBase, Ty.base?]⟩

lemma operate_equality {op : BinaryOp} {b : Base} (hop : op = .equals ∨ op = .notEquals)
    (hq : s.Holds q t) (hp : s.Holds p u) (ht : t.hasBase b = true) (hu : u.hasBase b = true) :
    ∃ c, s.operate op (s.get q) (s.get p) = .ok (some (.bool c)) := by
  rcases hq.base_cases ht with rfl | rfl | rfl | rfl | rfl | rfl
  · obtain ⟨x, hx⟩ := hq.int ht
    obtain ⟨y, hy⟩ := hp.int hu
    rw [hx, hy]
    rcases hop with rfl | rfl <;> exact ⟨_, rfl⟩
  · obtain ⟨x, hx⟩ := hq.float ht
    obtain ⟨y, hy⟩ := hp.float hu
    rw [hx, hy]
    rcases hop with rfl | rfl <;> exact ⟨_, rfl⟩
  · obtain ⟨x, hx⟩ := hq.string ht
    obtain ⟨y, hy⟩ := hp.string hu
    rw [hx, hy]
    rcases hop with rfl | rfl <;> exact ⟨_, rfl⟩
  · obtain ⟨x, hx⟩ := hq.bool ht
    obtain ⟨y, hy⟩ := hp.bool hu
    rw [hx, hy]
    rcases hop with rfl | rfl <;> exact ⟨_, rfl⟩
  · rw [hq.void ht, hp.void hu]
    rcases hop with rfl | rfl <;> exact ⟨_, rfl⟩
  · obtain ⟨_, _, hx, -⟩ := hq.elements ht
    obtain ⟨_, _, hy, -⟩ := hp.elements hu
    rw [hx, hy]
    rcases hop with rfl | rfl <;> exact ⟨_, rfl⟩

lemma datum_of_divide {v : Ty} (hp : s.Holds p u) (h : t.Operable u .divide v) :
    ∃ d, (s.get p).datum? = some d := by
  cases h with
  | arithmetic _ hb _ hr =>
    rcases hb with rfl | rfl
    · obtain ⟨n, hn⟩ := hp.int hr
      exact ⟨_, by rw [hn]; rfl⟩
    · obtain ⟨x, hx⟩ := hp.float hr
      exact ⟨_, by rw [hx]; rfl⟩
  | order hop => cases hop
  | equality hop => rcases hop with h | h <;> cases h

/-- An operation that the checker knows has a value of the type that the checker expects, provided
that only numbers are compared by order. -/
lemma operate_literal {op : BinaryOp} {v : Ty} (hq : s.Holds q t) (hp : s.Holds p u)
    (h : t.Operable u op v)
    (horder : op.isOrder = true → t.hasBase .int = true ∨ t.hasBase .float = true) :
    ∃ w, s.operate op (s.get q) (s.get p) = .ok (some w) ∧ w.Literal v := by
  cases h with
  | arithmetic hop hb hl hr =>
    rcases hb with rfl | rfl
    · obtain ⟨x, hx⟩ := hq.int hl
      obtain ⟨y, hy⟩ := hp.int hr
      rw [hx, hy]
      cases op <;> cases hop <;> exact ⟨_, rfl, .int _⟩
    · obtain ⟨x, hx⟩ := hq.float hl
      obtain ⟨y, hy⟩ := hp.float hr
      rw [hx, hy]
      cases op <;> cases hop <;> exact ⟨_, rfl, .float _⟩
  | join hl hr =>
    obtain ⟨x, hx⟩ := hq.string hl
    obtain ⟨y, hy⟩ := hp.string hr
    rw [hx, hy]
    exact ⟨_, rfl, .text _⟩
  | @order _ b hop hl hr =>
    have hb : t.hasBase b = true := hl
    rcases horder hop with hn | hn
    · obtain rfl : b = .int := by
        cases t <;> simp_all [Ty.hasBase, Ty.base?]
      obtain ⟨x, hx⟩ := hq.int hl
      obtain ⟨y, hy⟩ := hp.int hr
      rw [hx, hy]
      cases op <;> cases hop <;> exact ⟨_, rfl, .bool _⟩
    · obtain rfl : b = .float := by
        cases t <;> simp_all [Ty.hasBase, Ty.base?]
      obtain ⟨x, hx⟩ := hq.float hl
      obtain ⟨y, hy⟩ := hp.float hr
      rw [hx, hy]
      cases op <;> cases hop <;> exact ⟨_, rfl, .bool _⟩
  | equality hop h =>
    have hbase : ∃ b, t.hasBase b = true ∧ u.hasBase b = true := by
      rcases h with hb | haccepts | haccepts
      · exact hb
      · exact hp.base_of_accepts haccepts
      · obtain ⟨b, hu, ht⟩ := hq.base_of_accepts haccepts
        exact ⟨b, ht, hu⟩
    obtain ⟨b, ht, hu⟩ := hbase
    obtain ⟨c, hc⟩ := hq.operate_equality hop hp ht hu
    exact ⟨_, hc, .bool c⟩

end Store.Holds

end AudLang
