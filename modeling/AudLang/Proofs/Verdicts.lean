import AudLang.Proofs.CheckDepth

/-!
What a check comes to.

A check prints nothing, or it reports a flaw at a node of the program, with one exception.  A flaw
in the arguments of a call is reported with the name of what is called, and it is looked for where
calls of methods have none.  So a check that comes to a method call with arguments which it has to
refuse ends in a fault.
-/

namespace AudLang

variable {field id : String} {args ns ps : List Node} {expected : Ty} {b s : Span}

/-! ## Full types -/

namespace Ty

variable {t u : Ty}

/-- There is a type, and if it is a list, then its elements have one as well. -/
def IsFull : Ty → Prop
  | absent => False
  | of b e => b = .list → e.IsFull

@[simp] lemma isFull_of (b : Base) (e : Ty) : (of b e).IsFull ↔ (b = .list → e.IsFull) := Iff.rfl

lemma IsFull.isPresent (h : t.IsFull) : t.isPresent = true := by
  cases t with
  | absent => exact h.elim
  | of b e => rfl

/-- Full types can be compared. -/
lemma IsFull.exists_accepts (ht : t.IsFull) (hu : u.IsFull) : ∃ b, t.accepts u = .ok b := by
  induction t generalizing u with
  | absent => exact ht.elim
  | of a e ih =>
    cases u with
    | absent => exact hu.elim
    | of b e' =>
      by_cases hlists : a = .list ∧ b = .list
      · obtain ⟨rfl, rfl⟩ := hlists
        exact ih (ht rfl) (hu rfl)
      · rw [accepts]
        · exact ⟨_, rfl⟩
        · exact fun ha hb => hlists ⟨ha, hb⟩

lemma isFull_of_fileProperty (h : fileProperty? field = some t) : t.IsFull := by
  unfold fileProperty? at h
  split at h <;> cases h <;> simp

lemma isFull_of_property (h : t.property? field = some u) : u.IsFull := by
  unfold property? at h
  split at h
  · exact isFull_of_fileProperty h
  · unfold folderProperty? at h
    split at h <;> cases h <;> simp
  · cases haudio : audioProperty? field with
    | some v =>
      rw [haudio] at h
      cases h
      unfold audioProperty? at haudio
      split at haudio <;> cases haudio <;> simp
    | none =>
      rw [haudio] at h
      exact isFull_of_fileProperty h
  · cases h

end Ty

/-- All types of a signature are full. -/
structure Signature.IsFull (s : Signature) : Prop where
  parameters : ∀ p ∈ s.parameters, p.IsFull
  returns : s.returns.IsFull

namespace Ty

variable {t : Ty} {s : Signature} {name : String}

lemma isFull_of_fileMethod (h : fileMethod? name = some s) : s.IsFull := by
  unfold fileMethod? at h
  split at h <;> cases h <;> exact ⟨by simp, by simp⟩

/-- The signatures of methods are full, if the elements of lists have full types. -/
lemma isFull_of_method (ht : t.IsFull) (h : t.method? name = some s) : s.IsFull := by
  unfold method? at h
  split at h
  · rename_i hbase
    have helement : t.element.IsFull := by
      cases t with
      | absent => cases hbase
      | of b e => exact ht (Option.some.inj hbase)
    unfold listMethod? at h
    split at h <;> cases h
    · exact ⟨by simp, helement⟩
    · exact ⟨by simp, by simp⟩
  · exact isFull_of_fileMethod h
  · unfold folderMethod? at h
    split at h <;> cases h <;> exact ⟨by simp, by simp⟩
  · cases haudio : audioMethod? name with
    | some s' =>
      rw [haudio] at h
      cases h
      unfold audioMethod? at haudio
      split at haudio <;> cases haudio <;> exact ⟨by simp, by simp⟩
    | none =>
      rw [haudio] at h
      exact isFull_of_fileMethod h
  · cases h

lemma not_hasBase_null_of_method (h : t.method? name = some s) : t.hasBase .null = false := by
  unfold method? at h
  split at h
  all_goals first | cases h | simp [hasBase, *]

end Ty

lemma Node.IsType.isFull {n : Node} (h : n.IsType) : n.declaredType.IsFull := by
  induction h with
  | @simple s k hk =>
    show (Ty.named k.spelling .absent).IsFull
    cases k <;> cases hk <;> exact fun h => by cases h
  | @list s e he ih =>
    have hlist : (Node.listType s Keyword.list.spelling e).declaredType = .list e.declaredType := by
      rw [Node.declaredType, Node.denotedType, he.denotedType_eq]
      rfl
    rw [hlist]
    exact fun _ => ih

namespace Check

/-- The question has an answer, and if it is a type, it is full. -/
def AnswersFull (x : Except Fault (Option Ty)) : Prop := ∃ o, x = .ok o ∧ ∀ t, o = some t → t.IsFull

namespace AnswersFull

lemma some {b : Base} (h : b ≠ .list) : AnswersFull (.ok (some (.plain b))) := by
  refine ⟨_, rfl, fun t ht => ?_⟩
  cases ht
  exact fun hb => absurd hb h

lemma none : AnswersFull (.ok none) := ⟨_, rfl, fun _ ht => by cases ht⟩

lemma ite {c : Prop} [Decidable c] {x y : Except Fault (Option Ty)} (hx : AnswersFull x)
    (hy : AnswersFull y) : AnswersFull (if c then x else y) := by
  split
  · exact hx
  · exact hy

end AnswersFull

/-- There is an answer to the question which type an operation between full types has. -/
lemma answersFull_operation (op : BinaryOp) {l r : Ty} (hl : l.IsFull) (hr : r.IsFull) :
    AnswersFull (operation op l r) := by
  obtain ⟨b, hb⟩ := hl.exists_accepts hr
  obtain ⟨b', hb'⟩ := hr.exists_accepts hl
  have hbool : AnswersFull (.ok (Option.some .bool)) := .some (by decide)
  unfold operation
  simp only [hb, hb']
  cases op with
  | add | subtract | multiply | divide =>
    exact .ite (.some (by decide)) (.ite (.some (by decide)) (.ite (.some (by decide)) .none))
  | equals | notEquals => exact .ite hbool (.ite hbool (.ite hbool .none))
  | less | lessOrEqual | greater | greaterOrEqual => exact .ite hbool .none
  | and | or => exact hbool

end Check

/-! ## Checkers with full types -/

namespace Checker

variable {k : Checker}

/-- All types that the checker remembers are full. -/
structure IsFull (k : Checker) : Prop where
  scopes : ∀ t ∈ k.scopes, ∀ e ∈ t.entries, e.2.IsFull
  functions : ∀ e ∈ k.functions.entries, e.2.IsFull
  returns : k.returns.isPresent = true → k.returns.IsFull

lemma isFull_fresh : ({} : Checker).IsFull := by
  refine ⟨by simp [Checker.scopes], ?_, by simp [Ty.isPresent]⟩
  intro e he
  simp only [Functions.builtin, List.mem_cons, List.not_mem_nil, or_false] at he
  rcases he with rfl | rfl | rfl | rfl | rfl | rfl | rfl | rfl | rfl | rfl | rfl <;>
    exact ⟨by simp, by simp⟩

lemma IsFull.typeOf (hk : k.IsFull) {id : String} (h : (k.typeOf id).isPresent = true) :
    (k.typeOf id).IsFull := by
  unfold Checker.typeOf Scopes.get at h ⊢
  split
  · rename_i t ht
    rw [ht] at h
    simp only [Table.get] at h ⊢
    cases hl : t.entries.lookup id with
    | none => simp [hl, Ty.isPresent] at h
    | some u =>
      obtain ⟨before, after, heq, -⟩ := List.lookup_eq_some_iff.1 hl
      exact hk.scopes t (List.mem_of_find?_eq_some ht) (id, u) (by simp [heq])
  · rename_i ht
    rw [ht] at h
    cases h

lemma IsFull.function (hk : k.IsFull) {f : Signature} (h : k.functions.get? id = some f) :
    f.IsFull := by
  obtain ⟨before, after, heq, -⟩ := List.lookup_eq_some_iff.1 h
  exact hk.functions (id, f) (by simp [heq])

lemma IsFull.enter (hk : k.IsFull) : k.enter.IsFull := by
  refine ⟨fun t ht => ?_, hk.functions, hk.returns⟩
  rcases List.mem_cons.1 ht with rfl | ht
  · simp
  · exact hk.scopes t ht

lemma IsFull.add (hk : k.IsFull) {t : Ty} (ht : t.IsFull) (id : String) : (k.add id t).IsFull := by
  have hadd : ∀ table ∈ k.scopes, ∀ e ∈ (table.add id t).entries, e.2.IsFull := by
    intro table htable e he
    rcases List.mem_append.1 he with he | he
    · exact hk.scopes table htable e he
    · cases List.mem_singleton.1 he
      exact ht
  have hinner : ∀ table ∈ k.inner, table ∈ k.scopes := fun _ h => List.mem_append_left _ h
  have hglobal : k.global ∈ k.scopes := by simp [Checker.scopes]
  unfold Checker.add
  split
  · rename_i table outer hi
    refine ⟨fun table' h => ?_, hk.functions, hk.returns⟩
    simp only [Checker.scopes, List.cons_append, List.mem_cons] at h
    rcases h with rfl | h
    · exact hadd table (hinner _ (by simp [hi]))
    · exact hk.scopes table'
        (by simp only [Checker.scopes, hi, List.cons_append, List.mem_cons, h, or_true])
  · rename_i hi
    refine ⟨fun table' h => ?_, hk.functions, hk.returns⟩
    simp only [Checker.scopes, hi, List.nil_append, List.mem_singleton] at h
    exact h ▸ hadd k.global hglobal

lemma isFull_parameterTable (hp : ∀ p ∈ ps, p.IsParameter) :
    ∀ e ∈ (Node.parameterTable ps).entries, e.2.IsFull := by
  intro e he
  obtain ⟨p, hmem, hentry⟩ := List.mem_filterMap.1 he
  obtain ⟨s, id, ht⟩ := hp p hmem
  cases hentry
  exact ht.isFull

lemma IsFull.define (hk : k.IsFull) {returns : Node} {ps : List Node} (hr : returns.IsType)
    (hp : ∀ p ∈ ps, p.IsParameter) : (k.define returns ps).IsFull := by
  refine ⟨fun table h e he => ?_, hk.functions, fun _ => hr.isFull⟩
  simp only [Checker.scopes, Checker.define, List.cons_append, List.mem_cons] at h
  rcases h with rfl | h
  · exact isFull_parameterTable hp e he
  · exact hk.scopes table h e he

lemma IsFull.after {n : Node} (hk : k.IsFull) (hn : n.IsStatement) : (k.after n).IsFull := by
  cases hn with
  | declare s id ht hv he => exact hk.add ht.isFull id
  | _ => exact hk

lemma IsFull.afterAll {ns : List Node} (hns : ∀ n ∈ ns, n.IsStatement) : ∀ {k : Checker}, k.IsFull →
    (k.afterAll ns).IsFull := by
  induction ns with
  | nil => exact fun hk => hk
  | cons n ns ih =>
    intro k hk
    obtain ⟨hn, hns⟩ := List.forall_mem_cons.1 hns
    exact ih hns (hk.after hn)

end Checker

/-! ## The way of a check -/

namespace Checker

open Check

/-- The checker knows what is called: a function by its name, or a method by the type of the
object. -/
inductive Calls (k : Checker) : Node → Signature → Prop
  | function (s : Span) {id : String} {f : Signature} (h : k.functions.get? id = some f) :
      Calls k (.name s id) f
  | method (s : Span) {object name t f} (ho : k.Infers object t) (h : t.method? name = some f) :
      Calls k (.member s object name) f

/-- On its way through a tree the checker turns from one node to another, when it has accepted all
that comes before. -/
inductive TurnsTo : Checker × Node → Checker × Node → Prop
  | element {k s before after e t} (h : k.Infers (.list s before) t) :
      TurnsTo (k, .list s (before ++ e :: after)) (k, e)
  | left {k s op left right} : TurnsTo (k, .binary s op left right) (k, left)
  | right {k s op left right t} (h : k.Infers left t) :
      TurnsTo (k, .binary s op left right) (k, right)
  | operand {k : Checker} {s : Span} {e : Node} : TurnsTo (k, .negate s e) (k, e)
  | object {k s object field} : TurnsTo (k, .member s object field) (k, object)
  | receiver {k s t object field args} :
      TurnsTo (k, .call s (.member t object field) args) (k, object)
  | argument {k s target a before after f ps ps' p} (hf : k.Calls target f)
      (hps : f.parameters = ps ++ p :: ps')
      (hb : k.Suits before ps) (ha : after.length = ps'.length) :
      TurnsTo (k, .call s target (before ++ a :: after)) (k, a)
  | constructed {k s id a} : TurnsTo (k, .construct s id [a]) (k, a)
  | initialiser {k s type value id} (ht : type.IsType) :
      TurnsTo (k, .declare s type id value) (k, value)
  | assigned {k s t value id} (h : (k.typeOf id).isPresent = true) :
      TurnsTo (k, .assign s (.name t id) value) (k, value)
  | target {k s t object value field} :
      TurnsTo (k, .assign s (.member t object field) value) (k, .member t object field)
  | stored {k s t object value field u} (h : k.Infers (.member t object field) u) :
      TurnsTo (k, .assign s (.member t object field) value) (k, value)
  | returned {k : Checker} {s : Span} {value : Node} (h : k.returns.isPresent = true)
      (hv : value.isPresent = true) : TurnsTo (k, .giveBack s value) (k, value)
  | called {k s t target args} :
      TurnsTo (k, .callStatement s (.call t target args)) (k, .call t target args)
  | expression {k : Checker} {s : Span} {e : Node} : TurnsTo (k, .expressionStatement s e) (k, e)
  | branchCondition {k s c a b} : TurnsTo (k, .branch s c a b) (k, c)
  | onTrue {k s c a b} (h : k.TakesCondition c) : TurnsTo (k, .branch s c a b) (k, a)
  | onFalse {k s c a b t} (h : k.TakesCondition c) (ha : visit a k = .ok t k)
      (hb : b.isPresent = true) : TurnsTo (k, .branch s c a b) (k, b)
  | loopCondition {k s c b} : TurnsTo (k, .loop s c b) (k, c)
  | repeated {k s c b} (h : k.TakesCondition c) : TurnsTo (k, .loop s c b) (k, b)
  | statement {k s before after n} (h : k.enter.AdmitsAll before) :
      TurnsTo (k, .block s (before ++ n :: after)) (k.enter.afterAll before, n)
  | body {k s returns body id ps} (ht : returns.IsType) (hp : ∀ p ∈ ps, p.IsParameter)
      (hn : (Node.parameterTable ps).names.Nodup) :
      TurnsTo (k, .define s returns id ps body) (k.define returns ps, body)

/-- The checker has to refuse the arguments of a method call: there are too many or too few of them,
or one does not suit although those before it do. -/
inductive Misapplies (k : Checker) : Node → Prop
  | count {s t object name args f} (hf : k.Calls (.member t object name) f)
      (h : args.length ≠ f.parameters.length) : Misapplies k (.call s (.member t object name) args)
  | argument {s t object a name before after f ps ps' p u} (hf : k.Calls (.member t object name) f)
      (hps : f.parameters = ps ++ p :: ps') (hb : k.Suits before ps) (ha : k.Infers a u)
        (hp : p.accepts u = .ok false)
      (hl : after.length = ps'.length) :
        Misapplies k (.call s (.member t object name) (before ++ a :: after))

/-- What a check that stops can be blamed on: a flaw at a node of the tree, or a method call that
the checker comes to and whose arguments it has to refuse. -/
inductive Blames (k : Checker) (n : Node) : CheckStop → Prop
  | flaw (flaw : TypeFlaw) {c : Node} (hc : c.Within n) (hp : c.isPresent = true) :
      Blames k n (.flawed flaw c.start)
  | fault {k' : Checker} {c : Node} (h : Relation.ReflTransGen TurnsTo (k, n) (k', c))
      (hc : k'.Misapplies c) : Blames k n (.fault .noMember)

variable {k k' : Checker} {n c : Node} {p q : Checker × Node} {stop : CheckStop}

lemma TurnsTo.within (h : TurnsTo p q) : q.2.Within p.2 := by
  cases h with
  | @receiver k s t object field args =>
    have hobject : object ∈ (Node.member t object field).parts := List.mem_singleton_self _
    exact .head hobject (.single List.mem_cons_self)
  | _ => exact .single (by simp [Node.parts])

lemma Blames.of_turnsTo (hc : k'.Blames c stop) (h : TurnsTo (k, n) (k', c)) : k.Blames n stop := by
  cases hc with
  | flaw flaw hc hp => exact .flaw flaw (hc.trans h.within) hp
  | fault hr hc => exact .fault (.head h hr) hc

end Checker

/-! ## Expressions -/

/-- The checker gives the expression a full type, or there is something to blame. -/
def Checker.Judges (k : Checker) (n : Node) : Prop :=
  Ends (Check.visit n k) (fun t k' => k' = k ∧ t.IsFull) (fun stop _ => k.Blames n stop)

namespace Check

open Checker

variable {α : Type} {k : Checker} {n c : Node}

lemma flag_run (flaw : TypeFlaw) (hp : n.isPresent = true) :
    (flag flaw n : Check α) k = .error (.flawed flaw n.start) k := by
  cases n <;> first | rfl | cases hp

lemma flag_ends {Q : α → Checker → Prop} (flaw : TypeFlaw) (hc : c.Within n)
    (hp : c.isPresent = true) :
    Ends ((flag flaw c : Check α) k) Q (fun stop _ => k.Blames n stop) := by
  rw [flag_run flaw hp]
  exact .flaw flaw hc hp

lemma require_ends {actual : Ty} (he : expected.IsFull) (ha : actual.IsFull) (flaw : TypeFlaw)
    (hc : c.Within n) (hp : c.isPresent = true) :
    Ends (require expected actual flaw c k) (fun _ k' => k' = k)
      (fun stop _ => k.Blames n stop) := by
  obtain ⟨b, hb⟩ := he.exists_accepts ha
  rw [require, hb]
  cases b with
  | true => rfl
  | false => exact flag_ends flaw hc hp

lemma typed_eq (hn : n.IsExpression) (x : Check Ty) :
    typed n x = (x >>= fun t => if t.isPresent then pure t else flag (.untyped n.kindName) n) := by
  cases hn <;> rfl

/-- An expression that is asked for its type has a full one, or there is something to blame. -/
lemma typed_ends (hn : n.IsExpression) (h : k.Judges n) :
    Ends (typed n (visit n) k) (fun t k' => k' = k ∧ t.IsFull ∧ k.Infers n t)
      (fun stop _ => k.Blames n stop) := by
  rw [typed_eq hn]
  refine Ends.bind h fun t k₁ hv h₁ => ?_
  obtain ⟨rfl, hfull⟩ := h₁
  rw [hfull.isPresent]
  exact ⟨rfl, hfull, hn, hv⟩

lemma part_ends (ht : TurnsTo (k, n) (k, c)) (hc : c.IsExpression) (h : k.Judges c) :
    Ends (typed c (visit c) k) (fun t k' => k' = k ∧ t.IsFull ∧ k.Infers c t)
      (fun stop _ => k.Blames n stop) :=
  (typed_ends hc h).mono_error fun _ _ h => h.of_turnsTo ht

lemma join_ends {i : Nat} {soFar t : Ty} (hs : soFar.IsFull) (ht : t.IsFull)
    (hp : n.isPresent = true) :
    Ends (join n i soFar t k) (fun u k' => k' = k ∧ u.IsFull) (fun stop _ => k.Blames n stop) := by
  obtain ⟨b, hb⟩ := hs.exists_accepts ht
  obtain ⟨b', hb'⟩ := ht.exists_accepts hs
  rw [join, hb, hb']
  cases b with
  | true => exact ⟨rfl, hs⟩
  | false =>
    cases b' with
    | true => exact ⟨rfl, ht⟩
    | false => exact flag_ends _ .refl hp

/-- Elements that stop the checker stop it in one of them, behind those that are accepted. -/
lemma elements_ends {es : List Node} (hes : ∀ e ∈ es, e.IsExpression ∧ k.Judges e) :
    ∀ (i : Nat) {soFar : Ty},
    soFar.IsFull → Ends (elements i soFar es k) (fun t k' => k' = k ∧ t.IsFull) fun stop _ =>
      ∃ before e after t, es = before ++ e :: after ∧ elements i soFar before k = .ok t k ∧
        k.Blames e stop := by
  induction es with
  | nil =>
    intro i soFar hs
    exact ⟨rfl, hs⟩
  | cons e es ih =>
    intro i soFar hs
    obtain ⟨⟨he, hjudges⟩, hes⟩ := List.forall_mem_cons.1 hes
    have hhere : ∀ stop, k.Blames e stop → ∃ before e' after t,
        e :: es = before ++ e' :: after ∧ elements i soFar before k = .ok t k ∧ k.Blames e' stop :=
      fun stop h => ⟨[], e, es, soFar, rfl, rfl, h⟩
    rw [elements]
    refine Ends.bind ((typed_ends he hjudges).mono_error fun _ _ h => hhere _ h)
      fun t k₁ htyped h₁ => ?_
    obtain ⟨rfl, ht, -⟩ := h₁
    refine Ends.bind ((join_ends hs ht he.isPresent).mono_error fun _ _ h => hhere _ h)
      fun u k₂ hjoin h₂ => ?_
    obtain ⟨rfl, hu⟩ := h₂
    refine (ih hes (i + 1) hu).mono_error fun stop _ h => ?_
    obtain ⟨before, e', after, v, rfl, hbefore, hblames⟩ := h
    refine ⟨e :: before, e', after, v, rfl, ?_, hblames⟩
    rw [elements, bind_of_ok htyped, bind_of_ok hjoin]
    exact hbefore

/-- Arguments that stop the checker stop it in one of them, behind those that suit.  If there is
nothing to blame in this one, then it is refused, and there is no name to refuse it by. -/
lemma arguments_ends {called : Except Fault String}
    (hargs : ∀ a ∈ args, a.IsExpression ∧ k.Judges a) :
    ∀ (i : Nat) {ps : List Ty}, (∀ p ∈ ps, p.IsFull) →
    args.length = ps.length → Ends (arguments called i args ps k) (fun _ k' => k' = k) fun stop _ =>
      ∃ before a after ps₁ p ps₂, args = before ++ a :: after ∧ ps = ps₁ ++ p :: ps₂ ∧
        k.Suits before ps₁ ∧ after.length = ps₂.length ∧ (k.Blames a stop ∨
          ∃ t f, k.Infers a t ∧ p.accepts t = .ok false ∧ called = .error f ∧ stop = .fault f) := by
  induction args with
  | nil =>
    intro i ps _ _
    rfl
  | cons a args ih =>
    intro i ps hps hl
    obtain ⟨⟨ha, hjudges⟩, hargs⟩ := List.forall_mem_cons.1 hargs
    cases ps with
    | nil => cases hl
    | cons p ps =>
      obtain ⟨hp, hps⟩ := List.forall_mem_cons.1 hps
      have hl' : args.length = ps.length := Nat.succ.inj hl
      rw [arguments]
      refine Ends.bind ((typed_ends ha hjudges).mono_error
        fun _ _ h => ⟨[], a, args, [], p, ps, rfl, rfl, .nil, hl', .inl h⟩) fun t k₁ _ h₁ => ?_
      obtain ⟨rfl, ht, hinfers⟩ := h₁
      obtain ⟨b, hb⟩ := hp.exists_accepts ht
      rw [hb]
      cases b with
      | true =>
        refine (ih hargs (i + 1) hps hl').mono_error fun stop _ h => ?_
        obtain ⟨before, a', after, ps₁, p', ps₂, rfl, rfl, hsuits, hrest⟩ := h
        exact ⟨a :: before, a', after, p :: ps₁, p', ps₂, rfl, rfl, .cons ⟨t, hinfers, hb⟩ hsuits,
          hrest⟩
      | false =>
        cases called with
        | error f =>
          exact ⟨[], a, args, [], p, ps, rfl, rfl, .nil, hl', .inr ⟨t, f, hinfers, hb, rfl, rfl⟩⟩
        | ok name =>
          show Ends ((flag (.badArgument i name p t) a >>= fun _ =>
            arguments (.ok name) (i + 1) args ps) k₁) _ _
          rw [bind_of_error (flag_run _ ha.isPresent)]
          exact ⟨[], a, args, [], p, ps, rfl, rfl, .nil, hl', .inl (.flaw _ .refl ha.isPresent)⟩

lemma binary_ends {op : BinaryOp} {left right : Node} {l r : Ty} (hleft : left.isPresent = true)
    (hright : right.isPresent = true) (hl : l.IsFull) (hr : r.IsFull) :
    Ends (binary (.binary s op left right) op left right l r k) (fun t k' => k' = k ∧ t.IsFull)
      (fun stop _ => k.Blames (.binary s op left right) stop) := by
  have hbool : Ty.bool.IsFull := by simp
  have hlogical : Ends ((do
      require .bool l (.badLeft op l) left
      require .bool r (.badRight op r) right
      return Ty.bool) k) (fun t k' => k' = k ∧ t.IsFull)
        (fun stop _ => k.Blames (.binary s op left right) stop) := by
    refine Ends.bind (require_ends hbool hl _ (.single (by simp [Node.parts])) hleft)
      fun _ k₁ _ h₁ => ?_
    obtain rfl := h₁
    refine Ends.bind (require_ends hbool hr _ (.single (by simp [Node.parts])) hright)
      fun _ k₂ _ h₂ => ?_
    exact ⟨h₂, hbool⟩
  unfold binary
  split
  · exact hlogical
  · exact hlogical
  · obtain ⟨o, ho, hfull⟩ := answersFull_operation op hl hr
    rw [ho]
    cases o with
    | some t => exact ⟨rfl, hfull t rfl⟩
    | none => exact flag_ends (c := .binary s op left right) _ .refl rfl

lemma negation_ends {e : Node} (t : Ty) :
    Ends (negation (.negate s e) t k) (fun t k' => k' = k ∧ t.IsFull)
      (fun stop _ => k.Blames (.negate s e) stop) := by
  unfold negation
  split
  · exact ⟨rfl, by simp⟩
  · split
    · exact ⟨rfl, by simp⟩
    · exact flag_ends _ .refl rfl

lemma property_ends {object : Node} (t : Ty) (hobject : object.isPresent = true) :
    Ends (property (.member s object field) object t field k) (fun t k' => k' = k ∧ t.IsFull)
      (fun stop _ => k.Blames (.member s object field) stop) := by
  unfold property
  split
  · exact flag_ends _ (.single (by simp [Node.parts])) hobject
  · cases hp : t.property? field with
    | some p => exact ⟨rfl, Ty.isFull_of_property hp⟩
    | none => exact flag_ends _ .refl rfl

/-- If it is known what is called, or there is something to blame in it, then the call is judged. -/
lemma judges_call {target : Node}
    (hcallee : Ends (callee target k) (fun f k' => k' = k ∧ k.Calls target f ∧ f.IsFull)
      fun stop _ => k.Blames (.call s target args) stop)
      (hargs : ∀ a ∈ args, a.IsExpression ∧ k.Judges a) :
    k.Judges (.call s target args) := by
  unfold Judges
  rw [visit]
  refine Ends.bind hcallee fun f k₁ _ h₁ => ?_
  obtain ⟨rfl, hcalls, hfull⟩ := h₁
  split
  · rename_i hl
    refine Ends.bind ((arguments_ends hargs 1 hfull.parameters hl).mono_error fun stop _ h => ?_)
      fun _ k₂ _ h₂ => ⟨h₂, hfull.returns⟩
    obtain ⟨before, a, after, ps, p, ps', rfl, hps, hsuits, hafter, hblames | hrefuses⟩ := h
    · exact hblames.of_turnsTo (.argument hcalls hps hsuits hafter)
    · obtain ⟨t, e, ht, hp, he, rfl⟩ := hrefuses
      -- a function has its name where it is looked for, and a method has not
      cases hcalls with
      | function => cases he
      | method _ ho hf =>
        cases he
        exact .fault .refl (.argument (.method _ ho hf) hps hsuits ht hp hafter)
  · rename_i hl
    cases hcalls with
    | @function t id f hf => exact flag_ends (c := .call s (.name t id) args) _ .refl rfl
    | method _ ho hf => exact .fault .refl (.count (.method _ ho hf) hl)

lemma function_ends (hk : k.IsFull) {t : Span} :
    Ends (callee (.name t id) k) (fun f k' => k' = k ∧ k.Calls (.name t id) f ∧ f.IsFull)
      fun stop _ => k.Blames (.call s (.name t id) args) stop := by
  rw [callee, function]
  simp only [bind_run, get_run]
  cases hf : k.functions.get? id with
  | some f => exact ⟨rfl, .function t hf, hk.function hf⟩
  | none => exact flag_ends _ (.single List.mem_cons_self) rfl

lemma method_ends {t : Span} {object : Node} {name : String} (ho : object.IsExpression)
    (h : k.Judges object) :
    Ends (callee (.member t object name) k)
      (fun f k' => k' = k ∧ k.Calls (.member t object name) f ∧ f.IsFull)
      fun stop _ => k.Blames (.call s (.member t object name) args) stop := by
  rw [callee]
  refine Ends.bind (part_ends .receiver ho h) fun u k₁ _ h₁ => ?_
  obtain ⟨rfl, hfull, hinfers⟩ := h₁
  unfold method
  split
  · exact flag_ends _ (TurnsTo.within (.receiver (k := k₁))) ho.isPresent
  · cases hf : u.method? name with
    | some f => exact ⟨rfl, .method t hinfers hf, Ty.isFull_of_method hfull hf⟩
    | none => exact flag_ends _ (.single List.mem_cons_self) rfl

/-- The checker gives every expression a full type, or there is something to blame. -/
lemma judges_expression (hk : k.IsFull) (hn : n.IsExpression) : k.Judges n := by
  induction hn with
  | int | float | string | bool | null => exact ⟨rfl, by simp⟩
  | name s id =>
    unfold Judges
    rw [visit]
    simp only [bind_run, get_run]
    split
    · rename_i hp
      exact ⟨rfl, hk.typeOf hp⟩
    · exact flag_ends _ .refl rfl
  | @list s es hes ih =>
    have hnil : k.Infers (.list s []) (.list .null) := ⟨.list s (by simp), rfl⟩
    cases es with
    | nil => exact ⟨rfl, by simp⟩
    | cons e es =>
      obtain ⟨he, hes⟩ := List.forall_mem_cons.1 hes
      obtain ⟨ihe, ih⟩ := List.forall_mem_cons.1 ih
      unfold Judges
      rw [visit]
      have hturn : TurnsTo (k, .list s ([] ++ e :: es)) (k, e) := .element hnil
      refine Ends.bind (part_ends hturn he ihe) fun first k₁ htyped h₁ => ?_
      obtain ⟨rfl, hfirst, -⟩ := h₁
      refine Ends.bind ((elements_ends (fun e h => ⟨hes e h, ih e h⟩) 2 hfirst).mono_error
        fun stop _ h => ?_) fun t k₂ _ h₂ => ⟨h₂.1, fun _ => h₂.2⟩
      obtain ⟨before, e', after, t, rfl, hbefore, hblames⟩ := h
      have hlist : k₁.Infers (.list s (e :: before)) (.list t) := by
        refine ⟨.list s (List.forall_mem_cons.2 ⟨he, fun e h => hes e (List.mem_append_left _ h)⟩),
          ?_⟩
        rw [visit, bind_of_ok htyped, bind_of_ok hbefore]
        rfl
      have hturn' : TurnsTo (k₁, .list s ((e :: before) ++ e' :: after)) (k₁, e') := .element hlist
      exact hblames.of_turnsTo hturn'
  | binary s op hl hr ihl ihr =>
    unfold Judges
    rw [visit]
    refine Ends.bind (part_ends .left hl ihl) fun l k₁ _ h₁ => ?_
    obtain ⟨rfl, hfull, hinfers⟩ := h₁
    refine Ends.bind (part_ends (.right hinfers) hr ihr) fun r k₂ _ h₂ => ?_
    obtain ⟨rfl, hfull', -⟩ := h₂
    exact binary_ends hl.isPresent hr.isPresent hfull hfull'
  | negate s he ih =>
    unfold Judges
    rw [visit]
    refine Ends.bind (part_ends .operand he ih) fun t k₁ _ h₁ => ?_
    obtain ⟨rfl, -⟩ := h₁
    exact negation_ends t
  | member s field ho ih =>
    unfold Judges
    rw [visit]
    refine Ends.bind (part_ends .object ho ih) fun t k₁ _ h₁ => ?_
    obtain ⟨rfl, -⟩ := h₁
    exact property_ends t ho.isPresent
  | call s t id hargs ih => exact judges_call (function_ends hk) fun a h => ⟨hargs a h, ih a h⟩
  | method s t field ho hargs iho ih =>
    exact judges_call (method_ends ho iho) fun a h => ⟨hargs a h, ih a h⟩
  | @construct s c args hc hargs ih =>
    rcases args with - | ⟨a, - | ⟨b, args⟩⟩
    · exact flag_ends _ .refl rfl
    · have ha := hargs a List.mem_cons_self
      unfold Judges
      rw [visit]
      refine Ends.bind (part_ends .constructed ha (ih a List.mem_cons_self)) fun t k₁ _ h₁ => ?_
      obtain ⟨rfl, hfull, -⟩ := h₁
      refine Ends.bind (require_ends (by simp) hfull _ (.single List.mem_cons_self) ha.isPresent)
        fun _ k₂ _ h₂ => ?_
      refine ⟨h₂, ?_⟩
      cases c <;> cases hc <;> exact fun h => by cases h
    · exact flag_ends _ .refl rfl

end Check

/-! ## Statements -/

/-- The checker accepts the statement, or there is something to blame. -/
def Checker.Assesses (k : Checker) (n : Node) : Prop :=
  Ends (Check.visit n k) (fun _ _ => True) (fun stop _ => k.Blames n stop)

namespace Check

open Checker

variable {α : Type} {k : Checker} {n c : Node}

/-- A part that must have a certain type, with what is done behind it. -/
lemma required_ends {e : Node} {flaw : Ty → TypeFlaw} {rest : Check α} {Q : α → Checker → Prop}
    (hk : k.IsFull)
    (he : e.IsExpression) (ht : TurnsTo (k, n) (k, e)) (hexpected : expected.IsFull)
    (hc : c.Within n)
    (hp : c.isPresent = true)
    (hrest : ∀ t, typed e (visit e) k = .ok t k → expected.accepts t = .ok true →
      Ends (rest k) Q fun stop _ => k.Blames n stop) : Ends ((do
      let t ← typed e (visit e)
      require expected t (flaw t) c
      rest) k) Q fun stop _ => k.Blames n stop := by
  refine Ends.bind (part_ends ht he (judges_expression hk he)) fun t k₁ htyped h₁ => ?_
  obtain ⟨rfl, hfull, -⟩ := h₁
  refine Ends.bind (require_ends hexpected hfull _ hc hp) fun _ k₂ hrequire h₂ => ?_
  obtain rfl := h₂
  exact hrest t htyped (accepts_of_require hrequire).1

lemma discard_ends {x : Check α} {E : CheckStop → Checker → Prop}
    (h : Ends (x k) (fun _ _ => True) E) : Ends (discard x k) (fun _ k' => ∃ a, x k = .ok a k') E :=
  Ends.bind h fun a _ hx _ => ⟨a, hx⟩

lemma declare_flaw (name : String) (type : Ty) (p : Position) (k : Checker) :
    Ends (declare name type p k) (fun _ _ => True)
      (fun stop _ => ∃ flaw, stop = .flawed flaw p) := by
  simp only [declare, bind_run, get_run]
  cases k.inner with
  | nil =>
    simp only [bind_run]
    cases k.global.declare name type with
    | ok t => trivial
    | error flaw => exact ⟨flaw, rfl⟩
  | cons t outer =>
    simp only [bind_run]
    cases t.declare name type with
    | ok t => trivial
    | error flaw => exact ⟨flaw, rfl⟩

lemma declareAll_flaw (hp : ∀ p ∈ ps, p.IsParameter) : ∀ k : Checker,
    Ends (declareAll ps k) (fun _ _ => True)
      fun stop _ => ∃ p ∈ ps, p.isPresent = true ∧ ∃ flaw, stop = .flawed flaw p.start := by
  induction ps with
  | nil => exact fun _ => trivial
  | cons p ps ih =>
    intro k
    obtain ⟨hp, hps⟩ := List.forall_mem_cons.1 hp
    obtain ⟨s, id, ht⟩ := hp
    rw [declareAll, Node.parameterType, ht.denotedType_eq]
    show Ends ((declare id _ s.start >>= fun _ => declareAll ps) k) _ _
    refine Ends.bind ((declare_flaw id _ s.start k).mono_error fun _ _ h => ?_) fun _ k₁ _ _ => ?_
    · exact ⟨_, List.mem_cons_self, rfl, h⟩
    · refine (ih hps k₁).mono_error fun _ _ h => ?_
      obtain ⟨p, hmem, hrest⟩ := h
      exact ⟨p, List.mem_cons_of_mem _ hmem, hrest⟩

lemma eq_of_block {t : Ty} {k' : Checker} (hns : ∀ n ∈ ns, n.IsStatement)
    (h : visit (.block b ns) k = .ok t k') : k' = k :=
  (block_ok (fun n hn => advances (hns n hn)) h).1

/-- Statements that stop the checker stop it in one of them, behind those that are accepted. -/
lemma visitAll_ends (hk : k.IsFull)
    (hns : ∀ n ∈ ns, n.IsStatement ∧ ∀ {k : Checker}, k.IsFull → k.Assesses n) :
    Ends (visitAll ns k) (fun _ k' => k' = k.afterAll ns) fun stop _ =>
      ∃ before n after, ns = before ++ n :: after ∧ k.AdmitsAll before ∧
        (k.afterAll before).Blames n stop := by
  have hstatement (ms : List Node) (h : ∀ n ∈ ms, n.IsStatement) {u : Unit} {k' : Checker}
      (hv : visitAll ms k = .ok u k') : k' = k.afterAll ms ∧ k.AdmitsAll ms :=
    visitAll_ok (fun n hn => advances (h n hn)) hv
  cases hv : visitAll ns k with
  | ok u k' => exact (hstatement ns (fun n hn => (hns n hn).1) hv).1
  | error stop k' =>
    obtain ⟨before, n, after, k₁, rfl, hbefore, hstop⟩ := visitAll_error hv
    have hb : ∀ n ∈ before, n.IsStatement := fun n hn => (hns n (List.mem_append_left _ hn)).1
    obtain ⟨rfl, hadmits⟩ := hstatement before hb hbefore
    exact ⟨before, n, after, rfl, hadmits, ((hns n (by simp)).2 (hk.afterAll hb)).error hstop⟩

lemma assesses_block (hk : k.IsFull)
    (hns : ∀ n ∈ ns, n.IsStatement ∧ ∀ {k : Checker}, k.IsFull → k.Assesses n) :
    k.Assesses (.block b ns) := by
  unfold Assesses
  rw [visit]
  show Ends ((visitAll ns >>= fun _ => exit >>= fun _ => pure Ty.absent) k.enter) _ _
  refine Ends.bind ((visitAll_ends hk.enter hns).mono_error fun stop _ h => ?_) fun _ k₁ _ h₁ => ?_
  · obtain ⟨before, n, after, rfl, hadmits, hblames⟩ := h
    exact hblames.of_turnsTo (.statement hadmits)
  · rw [h₁, afterAll_inner ns k.enter rfl]
    trivial

lemma assesses_define {returns : Node} {body : List Node} (hk : k.IsFull) (ht : returns.IsType)
    (hp : ∀ p ∈ ps, p.IsParameter)
    (hbody : ∀ n ∈ body, n.IsStatement ∧ ∀ {k : Checker}, k.IsFull → k.Assesses n) :
    k.Assesses (.define s returns id ps (.block b body)) := by
  unfold Assesses
  rw [visit, ht.denotedType_eq]
  -- what is left to do in the scope of the parameters
  show Ends ((declareAll ps >>= fun _ => discard (visit (.block b body)) >>= fun _ =>
    exit >>= fun _ =>
    modify (fun k₁ : Checker => { k₁ with returns := k.returns }) >>= fun _ => pure Ty.absent)
      ({ k with returns := returns.declaredType } : Checker).enter) _ _
  refine Ends.bind ((declareAll_flaw hp _).mono_error fun stop _ h => ?_) fun _ k₁ hdeclare _ => ?_
  · obtain ⟨p, hmem, hpresent, flaw, rfl⟩ := h
    exact .flaw flaw (.single (by simp [Node.parts, hmem])) hpresent
  obtain ⟨hk₁, hnodup⟩ := declareAll_ok (t := {}) hp rfl (by simp [Table.names]) hdeclare
  obtain rfl : k₁ = k.define returns ps := hk₁
  have hturn : TurnsTo (k, .define s returns id ps (.block b body))
    (k.define returns ps, .block b body) :=
    .body ht hp (by simpa [Node.parameterTable] using hnodup)
  refine Ends.bind ((discard_ends (assesses_block (hk.define ht hp) hbody)).mono_error
    fun stop _ h => h.of_turnsTo hturn) fun _ k₂ _ h₂ => ?_
  obtain ⟨t, hblock⟩ := h₂
  obtain rfl := eq_of_block (fun n hn => (hbody n hn).1) hblock
  trivial

lemma assesses_branch {c other : Node} {body : List Node} (hk : k.IsFull) (hc : c.IsExpression)
    (hbody : ∀ n ∈ body, n.IsStatement ∧ ∀ {k : Checker}, k.IsFull → k.Assesses n)
    (hother : other.isPresent = true → k.Assesses other) :
    k.Assesses (.branch s c (.block b body) other) := by
  unfold Assesses
  rw [visit]
  refine required_ends hk hc .branchCondition (by simp) (.single List.mem_cons_self) hc.isPresent
    fun t htyped haccepts => ?_
  have hcondition : k.TakesCondition c := ⟨t, htyped, haccepts⟩
  refine Ends.bind ((discard_ends (assesses_block hk hbody)).mono_error
    fun stop _ h => h.of_turnsTo (.onTrue hcondition)) fun _ k₁ _ h₁ => ?_
  obtain ⟨t', hblock⟩ := h₁
  obtain rfl := eq_of_block (fun n hn => (hbody n hn).1) hblock
  cases hp : other.isPresent with
  | false => trivial
  | true =>
    refine Ends.bind ((discard_ends (hother hp)).mono_error
      fun stop _ h => h.of_turnsTo (.onFalse hcondition hblock hp)) fun _ _ _ _ => trivial

lemma assesses_giveBack {value : Node} (hk : k.IsFull)
    (hv : value.isPresent = true → value.IsExpression) : k.Assesses (.giveBack s value) := by
  unfold Assesses
  rw [visit, bind_of_ok (get_run k)]
  cases hp : k.returns.isPresent with
  | false => exact flag_ends (c := .giveBack s value) _ .refl rfl
  | true =>
    have hrequire {t : Ty} (ht : t.IsFull) : Ends ((do
        let k₁ ← get
        require k₁.returns t (.badReturn k₁.returns t) (.giveBack s value)
        return Ty.absent) k) (fun _ _ => True) fun stop _ => k.Blames (.giveBack s value) stop := by
      rw [bind_of_ok (get_run k)]
      exact Ends.bind (require_ends (c := .giveBack s value) (hk.returns hp) ht _ .refl rfl)
        fun _ _ _ _ => trivial
    cases hpresent : value.isPresent with
    | false => exact hrequire (by simp)
    | true =>
      refine Ends.bind (part_ends (.returned hp hpresent) (hv hpresent)
        (judges_expression hk (hv hpresent)))
        fun t k₁ _ h₁ => ?_
      obtain ⟨rfl, ht, -⟩ := h₁
      exact hrequire ht

/-- The checker accepts every statement, or there is something to blame. -/
lemma assesses_statement (hn : n.IsStatement) : ∀ {k : Checker}, k.IsFull → k.Assesses n := by
  induction hn with
  | declare s id ht hv he =>
    intro k hk
    unfold Assesses
    rw [visit, ht.denotedType_eq]
    refine required_ends hk he (.initialiser ht) ht.isFull (.single (by simp [Node.parts]))
      he.isPresent
      fun t _ _ => ?_
    refine Ends.bind ((declare_flaw id _ s.start k).mono_error fun stop _ h => ?_)
      fun _ _ _ _ => trivial
    obtain ⟨flaw, rfl⟩ := h
    exact .flaw (c := .declare s _ id _) flaw .refl rfl
  | @assign s t id value he =>
    intro k hk
    unfold Assesses
    rw [visit]
    simp only [bind_run, get_run]
    cases hp : (k.typeOf id).isPresent with
    | false => exact flag_ends (c := .name t id) _ (.single List.mem_cons_self) rfl
    | true =>
      exact required_ends hk he (.assigned hp) (hk.typeOf hp) (.single (by simp [Node.parts]))
        he.isPresent
        fun _ _ _ => trivial
  | assignMember s t field ho hname he =>
    intro k hk
    have hmember : (Node.member t _ field).IsExpression := .member t field ho
    unfold Assesses
    rw [visit]
    refine Ends.bind (part_ends .target hmember (judges_expression hk hmember)) fun u k₁ _ h₁ => ?_
    obtain ⟨rfl, hu, hinfers⟩ := h₁
    exact required_ends hk he (.stored hinfers) hu (.single (by simp [Node.parts])) he.isPresent
      fun _ _ _ => trivial
  | call s t hc hname =>
    intro k hk
    unfold Assesses
    rw [visit]
    refine Ends.bind ((discard_ends ((judges_expression hk hc).weaken (fun _ _ _ _ => trivial)
      fun _ _ _ h => h)).weaken
      (fun _ _ _ h => h) fun _ _ _ h => h.of_turnsTo .called) fun _ _ _ _ => trivial
  | expression s he =>
    intro k hk
    unfold Assesses
    rw [visit]
    exact Ends.bind (discard_ends ((part_ends .expression he (judges_expression hk he)).weaken
      (fun _ _ _ _ => trivial) fun _ _ _ h => h)) fun _ _ _ _ => trivial
  | giveBack s => exact fun hk => assesses_giveBack hk fun h => by cases h
  | giveBackValue s he => exact fun hk => assesses_giveBack hk fun _ => he
  | branch s b hc hb ih =>
    exact fun hk => assesses_branch hk hc (fun n h => ⟨hb n h, ih n h⟩) fun h => by cases h
  | branchElse s b b' hc hb ho ih iho =>
    exact fun hk => assesses_branch hk hc (fun n h => ⟨hb n h, ih n h⟩) fun _ =>
      assesses_block hk fun n h => ⟨ho n h, iho n h⟩
  | loop s b hc hb ih =>
    intro k hk
    unfold Assesses
    rw [visit]
    refine required_ends hk hc .loopCondition (by simp) (.single List.mem_cons_self) hc.isPresent
      fun t htyped haccepts => ?_
    refine Ends.bind ((discard_ends (assesses_block hk fun n h => ⟨hb n h, ih n h⟩)).mono_error
      fun stop _ h => h.of_turnsTo (.repeated ⟨t, htyped, haccepts⟩)) fun _ _ _ _ => trivial
  | define s b id ht hp hb ih =>
    exact fun hk => assesses_define hk ht hp fun n h => ⟨hb n h, ih n h⟩

end Check

/-! ## Faults -/

namespace Checker

open Check

variable {k k' : Checker} {n : Node} {t : Ty} {f : Fault} {p q : Checker × Node}

lemma Infers.typed (h : k.Infers n t) (hk : k.IsFull) : typed n (Check.visit n) k = .ok t k := by
  have hfull := ((judges_expression hk h.expression).ok h.visit).2
  rw [typed_eq h.expression, bind_of_ok h.visit, hfull.isPresent]
  rfl

lemma Calls.callee {target : Node} {s : Signature} (h : k.Calls target s) (hk : k.IsFull) :
    callee target k = .ok s k := by
  cases h with
  | function _ h =>
    rw [Check.callee, Check.function, bind_of_ok (get_run k), h]
    rfl
  | method _ ho h =>
    rw [Check.callee, bind_of_ok (ho.typed hk), Check.method, Ty.not_hasBase_null_of_method h, h]
    rfl

lemma AdmitsAll.statements : ∀ {k : Checker}, k.AdmitsAll ns → ∀ n ∈ ns, n.IsStatement := by
  induction ns with
  | nil => simp
  | cons n ns ih => exact fun h => List.forall_mem_cons.2 ⟨h.1.statement, ih h.2⟩

lemma AdmitsAll.visitAll {ns : List Node} : ∀ {k : Checker}, k.AdmitsAll ns →
    visitAll ns k = .ok () (k.afterAll ns) := by
  induction ns with
  | nil => exact fun _ => rfl
  | cons n ns ih =>
    intro k h
    have hn : discard (Check.visit n) k = .ok () (k.after n) := bind_of_ok h.1.visit
    rw [Check.visitAll, bind_of_ok hn]
    exact ih h.2

lemma require_run {actual : Ty} {flaw : TypeFlaw} (h : expected.accepts actual = .ok true) :
    require expected actual flaw n k = .ok () k := by
  rw [require, h]
  rfl

lemma declareAll_run (hp : ∀ p ∈ ps, p.IsParameter) : ∀ {k : Checker} {t : Table}
    {outer : List Table}, k.inner = t :: outer →
    (⟨t.entries ++ ps.filterMap Node.entry?⟩ : Table).names.Nodup →
    declareAll ps k = .ok ()
      { k with inner := ⟨t.entries ++ ps.filterMap Node.entry?⟩ :: outer } := by
  induction ps with
  | nil =>
    intro k t outer hi _
    rw [declareAll, List.filterMap_nil, List.append_nil, ← hi]
    rfl
  | cons p ps ih =>
    intro k t outer hi hn
    obtain ⟨hp, hps⟩ := List.forall_mem_cons.1 hp
    obtain ⟨s, id, ht⟩ := hp
    rename_i type
    have hentries : t.entries ++ (Node.parameter s type (.plain id) :: ps).filterMap Node.entry?
        = (t.add id type.declaredType).entries ++ ps.filterMap Node.entry? := by
      simp [Table.add, Node.entry?]
    have hfresh : id ∉ t.names := by
      rw [hentries, Table.names, List.map_append] at hn
      have hadded := hn.of_append_left
      rw [← Table.names, Table.names_add] at hadded
      exact fun h => (List.nodup_append.1 hadded).2.2 id h id (List.mem_singleton_self _) rfl
    have hdeclare : declare id type.declaredType s.start k
        = .ok () { k with inner := t.add id type.declaredType :: outer } := by
      simp [declare, bind_run, hi, Table.declare, hfresh, Table.add]
    rw [hentries] at hn ⊢
    rw [declareAll, Node.parameterType, ht.denotedType_eq]
    exact (bind_of_ok hdeclare).trans (ih hps rfl hn)

lemma typed_of_fault (h : visit n k = .error (.fault f) k') :
    typed n (visit n) k = .error (.fault f) k' := by
  cases n with
  | unknown s kind => cases h
  | _ => exact bind_of_error h

lemma elements_append_fault {before after : List Node} (h : visit n k = .error (.fault f) k') :
    ∀ {k₁ : Checker} {i : Nat} {soFar : Ty}, elements i soFar before k₁ = .ok t k →
    elements i soFar (before ++ n :: after) k₁ = .error (.fault f) k' := by
  induction before with
  | nil =>
    intro k₁ i soFar hbefore
    cases hbefore
    exact bind_of_error (typed_of_fault h)
  | cons b before ih =>
    intro k₁ i soFar hbefore
    rw [elements] at hbefore
    obtain ⟨u, k₂, htyped, h₁⟩ := ok_of_bind hbefore
    obtain ⟨v, k₃, hjoin, h₂⟩ := ok_of_bind h₁
    rw [List.cons_append, elements, bind_of_ok htyped, bind_of_ok hjoin]
    exact ih h₂

lemma arguments_append {called : Except Fault String} {before after : List Node} {ps ps' : List Ty}
    (hk : k.IsFull) (h : k.Suits before ps) : ∀ i : Nat,
    arguments called i (before ++ after) (ps ++ ps') k = arguments called (i + before.length) after
      ps' k := by
  induction h with
  | nil => exact fun _ => rfl
  | @cons a p before ps ha _ ih =>
    intro i
    obtain ⟨u, hu, haccepts⟩ := ha
    rw [List.cons_append, List.cons_append, arguments, bind_of_ok (hu.typed hk), haccepts]
    refine (ih (i + 1)).trans ?_
    rw [List.length_cons, Nat.add_assoc, Nat.add_comm 1]

/-- The arguments of a method call that have to be refused stop the check with a fault: there is no
name to refuse them by. -/
lemma Misapplies.fault (h : k.Misapplies n) (hk : k.IsFull) :
    visit n k = .error (.fault .noMember) k := by
  cases h with
  | count hf hl =>
    rw [visit, bind_of_ok (hf.callee hk), if_neg hl]
    rfl
  | @argument s t object a name before after f ps ps' p u hf hps hb ha hp hl =>
    have hcount : (before ++ a :: after).length = f.parameters.length := by
      simp [hps, hb.length_eq, hl]
    rw [visit, bind_of_ok (hf.callee hk), if_pos hcount, hps, bind_run, arguments_append hk hb,
      arguments,
      bind_of_ok (ha.typed hk), hp]
    rfl

lemma TurnsTo.isFull (h : TurnsTo p q) (hk : p.1.IsFull) : q.1.IsFull := by
  cases h with
  | statement h => exact hk.enter.afterAll h.statements
  | body ht hp hn => exact hk.define ht hp
  | _ => exact hk

/-- A fault in a part that the checker turns to is a fault of the whole. -/
lemma TurnsTo.fault (h : TurnsTo p q) (hk : p.1.IsFull)
    (hq : visit q.2 q.1 = .error (.fault f) k') : visit p.2 p.1 = .error (.fault f) k' := by
  cases h with
  | @element k s before after e t h =>
    cases before with
    | nil =>
      rw [List.nil_append, visit]
      exact bind_of_error (typed_of_fault hq)
    | cons b before =>
      have hbefore := h.visit
      rw [visit] at hbefore
      obtain ⟨first, k₁, htyped, h₁⟩ := ok_of_bind hbefore
      obtain ⟨u, k₂, helements, h₂⟩ := ok_of_bind h₁
      cases h₂
      rw [List.cons_append, visit, bind_of_ok htyped]
      exact bind_of_error (elements_append_fault hq helements)
  | left | operand | object | constructed | target | branchCondition | loopCondition =>
    rw [visit]
    exact bind_of_error (typed_of_fault hq)
  | right h | stored h =>
    rw [visit, bind_of_ok (h.typed hk)]
    exact bind_of_error (typed_of_fault hq)
  | receiver =>
    rw [visit, callee]
    exact bind_of_error (bind_of_error (typed_of_fault hq))
  | @argument k s target a before after f ps ps' p hf hps hb ha =>
    have hcount : (before ++ a :: after).length = f.parameters.length := by
      simp [hps, hb.length_eq, ha]
    rw [visit, bind_of_ok (hf.callee hk), if_pos hcount, hps, bind_run, arguments_append hk hb,
      arguments,
      bind_of_error (typed_of_fault hq)]
  | @initialiser k s type value id ht =>
    have hask : ask type.denotedType k = .ok type.declaredType k := by
      rw [ht.denotedType_eq]
      rfl
    rw [visit, bind_of_ok hask]
    exact bind_of_error (typed_of_fault hq)
  | @assigned k s t value id h =>
    rw [visit]
    simp only [bind_run, get_run, h, if_true, pure_run]
    rw [typed_of_fault hq]
  | @returned k s value h hv =>
    rw [visit, bind_of_ok (get_run k), h, hv]
    exact bind_of_error (typed_of_fault hq)
  | called =>
    rw [visit]
    exact bind_of_error (bind_of_error hq)
  | expression =>
    rw [visit]
    exact bind_of_error (bind_of_error (typed_of_fault hq))
  | onTrue h | repeated h =>
    obtain ⟨t, htyped, haccepts⟩ := h
    rw [visit, bind_of_ok htyped, bind_of_ok (require_run haccepts)]
    exact bind_of_error (bind_of_error hq)
  | @onFalse k s c a b t h ha hb =>
    obtain ⟨u, htyped, haccepts⟩ := h
    have hdiscard : discard (visit a) k = .ok () k := bind_of_ok ha
    rw [visit, bind_of_ok htyped, bind_of_ok (require_run haccepts), bind_of_ok hdiscard, hb]
    exact bind_of_error (bind_of_error hq)
  | @statement k s before after n h =>
    have henter : Check.enter k = .ok () k.enter := rfl
    rw [visit, bind_of_ok henter]
    exact bind_of_error (visitAll_append_error h.visitAll hq)
  | @body k s returns body id ps ht hp hn =>
    -- the promised type is set and a scope is open by the time the parameters are declared
    have hdeclare := declareAll_run hp
      (k := ({ k with returns := returns.declaredType } : Checker).enter) rfl hn
    rw [visit, ht.denotedType_eq]
    exact (bind_of_ok hdeclare).trans (bind_of_error (bind_of_error hq))

/-- A fault that the checker comes to is a fault of where it has started. -/
lemma fault_of_turns (h : Relation.ReflTransGen TurnsTo p q) (hk : p.1.IsFull)
    (hq : visit q.2 q.1 = .error (.fault f) k') : visit p.2 p.1 = .error (.fault f) k' := by
  -- from the end of the way back to its start
  induction h using Relation.ReflTransGen.head_induction_on with
  | refl => exact hq
  | head hturn _ ih => exact hturn.fault hk (ih (hturn.isFull hk))

lemma isFull_of_turns (h : Relation.ReflTransGen TurnsTo p q) (hk : p.1.IsFull) : q.1.IsFull := by
  induction h with
  | refl => exact hk
  | tail _ hturn ih => exact hturn.isFull ih

/-- Where there is a method call with arguments that have to be refused on its way, the checker ends
in a fault. -/
lemma fault_of_misapplies {c : Node} (h : Relation.ReflTransGen TurnsTo (k, n) (k', c))
    (hc : k'.Misapplies c) (hk : k.IsFull) : ∃ k₁, visit n k = .error (.fault .noMember) k₁ :=
  ⟨k', fault_of_turns h hk (hc.fault (isFull_of_turns h hk))⟩

end Checker

/-! ## Programs -/

lemma Checker.IsFull.addFunction {k : Checker} (hk : k.IsFull) (name : String) {f : Signature}
    (hf : f.IsFull) : ({ k with functions := k.functions.add name f } : Checker).IsFull := by
  refine ⟨hk.scopes, fun e he => ?_, hk.returns⟩
  rcases List.mem_append.1 he with he | he
  · exact hk.functions e he
  · cases List.mem_singleton.1 he
    exact hf

namespace Check

variable {k : Checker}

lemma register_flaw (name : String) (f : Signature) (p : Position) (k : Checker) :
    Ends (register name f p k) (fun _ k' => k' = { k with functions := k.functions.add name f })
      fun stop _ => ∃ flaw, stop = .flawed flaw p := by
  simp only [register, bind_run, get_run, Functions.register]
  cases (k.functions.get? name).isSome with
  | true => exact ⟨_, rfl⟩
  | false => rfl

/-- Definitions become known with full types, and the check stops only at one of them. -/
lemma registerAll_flaw {ds : List Node} (hds : ∀ d ∈ ds, d.IsStatement ∧ d.isDefinition = true) :
    ∀ {k : Checker}, k.IsFull → Ends (registerAll ds k) (fun _ k' => k'.IsFull)
      fun stop _ => ∃ d ∈ ds, d.isPresent = true ∧ ∃ flaw, stop = .flawed flaw d.start := by
  induction ds with
  | nil => exact fun hk => hk
  | cons d ds ih =>
    intro k hk
    obtain ⟨⟨hd, hdefinition⟩, hrest⟩ := List.forall_mem_cons.1 hds
    cases hd with
    | @define s b returns id ps body ht hp hb =>
      have hsignature : (⟨(Node.parameterTable ps).entries.map Prod.snd, returns.declaredType⟩ :
        Signature).IsFull := by
        refine ⟨fun t hmem => ?_, ht.isFull⟩
        obtain ⟨e, he, rfl⟩ := List.mem_map.1 hmem
        exact Checker.isFull_parameterTable hp e he
      rw [registerAll, (Node.IsStatement.define s b id ht hp hb).signature_eq]
      show Ends ((register id _ s.start >>= fun _ => registerAll ds) k) _ _
      refine Ends.bind ((register_flaw id _ s.start k).mono_error fun _ _ h => ?_)
        fun _ k₁ _ h₁ => ?_
      · exact ⟨_, List.mem_cons_self, rfl, h⟩
      · subst h₁
        refine (ih hrest (hk.addFunction id hsignature)).mono_error fun _ _ h => ?_
        obtain ⟨d, hmem, hrest⟩ := h
        exact ⟨d, List.mem_cons_of_mem _ hmem, hrest⟩
    | _ => cases hdefinition

end Check

namespace Checker

open Check

variable {k : Checker} {program : Node}

/-- On its way through the program the check comes to a method call with arguments that have to be
refused. -/
inductive Stumbles (k : Checker) : Node → Prop
  | mk {s is ns before after n c k₁ k₂} (h : ns = before ++ n :: after)
      (hr : registerAll (Node.program s is ns).definitions k = .ok () k₁) (hb : k₁.AdmitsAll before)
      (hc : Relation.ReflTransGen TurnsTo (k₁.afterAll before, n) (k₂, c)) (hm : k₂.Misapplies c) :
      Stumbles k (.program s is ns)

lemma registerAll_program (hns : ∀ n ∈ ns, n.IsStatement) (hk : k.IsFull) :
    Ends (registerAll (Node.program s (Parser.definitionIndexes ns) ns).definitions k)
      (fun _ k' => k'.IsFull)
      fun stop _ => ∃ d ∈ ns, d.isPresent = true ∧ ∃ flaw, stop = .flawed flaw d.start := by
  rw [Node.definitions_program]
  refine (registerAll_flaw (fun d hd => ?_) hk).mono_error fun _ _ h => ?_
  · obtain ⟨hmem, hdefinition⟩ := List.mem_filter.1 hd
    exact ⟨hns d hmem, hdefinition⟩
  · obtain ⟨d, hd, hrest⟩ := h
    exact ⟨d, List.mem_of_mem_filter hd, hrest⟩

/-- The check of a program comes to its end with full types, or it stops at a flaw, or else it
stumbles. -/
lemma program_ends (hk : k.IsFull) (hp : program.IsProgram) :
    Ends (Check.program program k) (fun _ k' => k'.IsFull) fun stop _ =>
      (∃ (flaw : TypeFlaw) (c : Node), c.Within program ∧ c.isPresent = true ∧
        stop = .flawed flaw c.start) ∨
        k.Stumbles program ∧ stop = .fault .noMember := by
  cases hp with
  | @mk s ns hns =>
    rw [Check.program]
    refine Ends.bind ((registerAll_program hns hk).mono_error fun stop _ h => ?_)
      fun _ k₁ hregister hk₁ => ?_
    · obtain ⟨d, hd, hpresent, flaw, rfl⟩ := h
      exact .inl ⟨flaw, d, .single hd, hpresent, rfl⟩
    refine Ends.bind ((visitAll_ends hk₁ fun n hn =>
      ⟨hns n hn, assesses_statement (hns n hn)⟩).weaken
      (fun _ _ _ h => h) fun stop _ _ h => ?_) fun _ k₂ _ h₂ => ?_
    · obtain ⟨before, n, after, heq, hadmits, hblames⟩ := h
      have hn : n ∈ ns := by
        rw [heq]
        simp
      cases hblames with
      | flaw flaw hc hpresent => exact .inl ⟨flaw, _, hc.tail hn, hpresent, rfl⟩
      | fault hc hm => exact .inr ⟨.mk heq hregister hadmits hc hm, rfl⟩
    · -- the global scope and the functions are all that is left
      have hk₂ : k₂.IsFull := h₂ ▸ hk₁.afterAll hns
      refine ⟨fun table htable => ?_, hk₂.functions, fun h => by cases h⟩
      exact hk₂.scopes table (List.mem_append_right _ htable)

lemma Stumbles.fault (h : k.Stumbles program) (hk : k.IsFull) (hp : program.IsProgram) :
    ∃ k', Check.program program k = .error (.fault .noMember) k' := by
  cases hp with
  | @mk s ns hns =>
    cases h with
    | @mk _ _ _ before after n c k₁ k₂ heq hr hb hc hm =>
      have hk₁ : k₁.IsFull := (registerAll_program hns hk).ok hr
      obtain ⟨k', hfault⟩ := fault_of_misapplies hc hm (hk₁.afterAll hb.statements)
      refine ⟨k', ?_⟩
      rw [Check.program, bind_of_ok hr, heq]
      exact bind_of_error (visitAll_append_error hb.visitAll hfault)

end Checker

/-! ## Verdicts -/

/-- A report of a flaw goes on with a number behind its first bracket. -/
lemma TypeFlaw.report_toList (flaw : TypeFlaw) (p : Position) :
    ∃ d rest, (flaw.report p).toList = '[' :: d :: rest ∧ d.isDigit = true := by
  obtain ⟨d, ds, hd⟩ : ∃ d ds, Nat.toDigits 10 p.line = d :: ds :=
    List.exists_cons_of_ne_nil Nat.toDigits_ne_nil
  have hline : (toString p.line).toList = d :: ds := by
    rw [← hd]
    exact Nat.toList_repr
  have hmem : d ∈ Nat.toDigits 10 p.line := by
    rw [hd]
    exact List.mem_cons_self
  refine ⟨d, ds ++ (", " ++ toString
    p.column ++ "] ERROR " ++ s!"Type checking: {flaw.message}").toList, ?_,
    Nat.isDigit_of_mem_toDigits (by decide) (by decide) hmem⟩
  rw [report, reportText, Position.report]
  simp only [String.toList_append, hline]
  simp [toString]

lemma CheckStop.report_fault_toList (f : Fault) :
    ∃ rest, (CheckStop.fault f).report.toList = '[' :: 'T' :: rest := by
  show ∃ rest, ("[Type Checker Internal Error] " ++ f.label).toList = '[' :: 'T' :: rest
  rw [String.toList_append]
  exact ⟨"ype Checker Internal Error] ".toList ++ f.label.toList, rfl⟩

lemma TypeFlaw.report_ne_fault (flaw : TypeFlaw) (p : Position) (f : Fault) :
    flaw.report p ≠ (CheckStop.fault f).report := by
  intro h
  obtain ⟨d, rest, hflaw, hdigit⟩ := flaw.report_toList p
  obtain ⟨rest', hfault⟩ := CheckStop.report_fault_toList f
  rw [h, hfault] at hflaw
  obtain ⟨rfl, -⟩ := List.cons.inj (List.cons.inj hflaw).2
  cases hdigit

namespace Checker

open Check

variable {k : Checker} {program : Node}

/-- A checker that has been made and that has accepted some programs since then. -/
inductive Arises : Checker → Prop
  | fresh : Arises {}
  | check {k : Checker} {tokens : Tokens} {program : Node} (hk : Arises k)
      (hp : Program.ofTokens tokens = .ok program)
      (h : (k.check program).1 = "") : Arises (k.check program).2

/-- The check prints nothing, or the report of one flaw at a node of the program. -/
def GivesVerdict (k : Checker) (program : Node) : Prop :=
  (k.check program).1 = "" ∨
    ∃ (flaw : TypeFlaw) (n : Node), n.Within program ∧ n.isPresent = true ∧
      (k.check program).1 = flaw.report n.start ++ "\n"

lemma Arises.isFull (h : k.Arises) : k.IsFull := by
  induction h with
  | fresh => exact isFull_fresh
  | @check k tokens program _ hp h ih =>
    have hends := program_ends ih (Program.isProgram_ofTokens hp)
    unfold Checker.check at h ⊢
    cases hc : Check.program program k with
    | ok u k' => exact hends.ok hc
    | error stop k' =>
      rw [hc] at h
      exact absurd (congrArg String.length h) (by simp)

lemma givesVerdict_of_not_stumbles (hk : k.IsFull) (hp : program.IsProgram)
    (h : ¬ k.Stumbles program) : k.GivesVerdict program := by
  have hends := program_ends hk hp
  unfold GivesVerdict Checker.check
  cases hc : Check.program program k with
  | ok u k' => exact .inl rfl
  | error stop k' =>
    rcases hends.error hc with ⟨flaw, n, hn, hpresent, rfl⟩ | ⟨hstumbles, -⟩
    · exact .inr ⟨flaw, n, hn, hpresent, rfl⟩
    · exact absurd hstumbles h

lemma check_of_stumbles (hk : k.IsFull) (hp : program.IsProgram) (h : k.Stumbles program) :
    (k.check program).1 = "[Type Checker Internal Error] AttributeError\n" := by
  obtain ⟨k', hfault⟩ := h.fault hk hp
  rw [Checker.check, hfault]
  rfl

lemma not_givesVerdict_of_stumbles (hk : k.IsFull) (hp : program.IsProgram)
    (h : k.Stumbles program) : ¬ k.GivesVerdict program := by
  obtain ⟨k', hfault⟩ := h.fault hk hp
  have hprints : (k.check program).1
    = (CheckStop.fault .noMember).report ++ "\n" := by rw [Checker.check, hfault]
  rintro (hsilent | ⟨flaw, n, -, -, hflaw⟩)
  · rw [hprints] at hsilent
    exact absurd (congrArg String.length hsilent) (by simp)
  · rw [hprints] at hflaw
    exact flaw.report_ne_fault n.start .noMember ((String.append_left_inj _).1 hflaw).symm

/-- A checker that has accepted some programs gives a verdict on the next program, unless on its way
through the program it comes to a method call with arguments that have to be refused: a wrong number
of them, or one of the wrong type.  Then it reports a failure of its own. -/
theorem givesVerdict_iff_not_stumbles {tokens : Tokens} (hk : k.Arises)
    (hp : Program.ofTokens tokens = .ok program) :
    (k.GivesVerdict program ↔ ¬ k.Stumbles program) ∧
      (k.Stumbles program →
        (k.check program).1 = "[Type Checker Internal Error] AttributeError\n") := by
  have hprogram := Program.isProgram_ofTokens hp
  refine ⟨⟨fun hverdict hstumbles => ?_, givesVerdict_of_not_stumbles hk.isFull hprogram⟩,
    check_of_stumbles hk.isFull hprogram⟩
  exact not_givesVerdict_of_stumbles hk.isFull hprogram hstumbles hverdict

end Checker

/-- `File f = File("a");` -/
def Node.opening : Node :=
  .program (.columns 0 8) []
    [.declare (.columns 0 7) (.type (.columns 0 0) "File") "f"
      (.construct (.columns 3 6) "File" [.string (.columns 5 5) "a"])]

/-- `f.move(5);` -/
def Node.moving : Node :=
  .program (.columns 0 7) [] [.callStatement (.columns 0 6)
    (.call (.columns 0 5) (.member (.columns 0 2) (.name (.columns 0 0) "f") "move")
      [.int (.columns 4 4) 5])]

lemma Program.ofTokens_opening :
    ofTokens (.onLine [.keyword .file, .identifier "f", .symbol .assign, .keyword .file,
      .symbol .lparen, .string "a",
      .symbol .rparen, .symbol .semicolon]) = .ok .opening := by
  cbv

lemma Program.ofTokens_moving :
    ofTokens (.onLine [.identifier "f", .symbol .dot, .identifier "move", .symbol .lparen, .int 5,
      .symbol .rparen,
      .symbol .semicolon]) = .ok .moving := by
  cbv

/-- Behind a program that declares a file, the checker gives no verdict on one that moves the file
to a number. -/
theorem Checker.givesVerdict_iff_not_stumbles_moving :
    (({} : Checker).check .opening).2.Arises ∧ (({} : Checker).check .opening).2.Stumbles .moving ∧
      ¬ (({} : Checker).check .opening).2.GivesVerdict .moving ∧
      ((({} : Checker).check .opening).2.check .moving).1
        = "[Type Checker Internal Error] AttributeError\n" := by
  have harises : (({} : Checker).check .opening).2.Arises :=
    .check .fresh Program.ofTokens_opening rfl
  have hobject : (({} : Checker).check .opening).2.Infers (.name (.columns 0 0) "f") .file :=
    ⟨.name _ _, rfl⟩
  have hnumber : (({} : Checker).check .opening).2.Infers (.int (.columns 4 4) 5) .int :=
    ⟨.int _ (by decide), rfl⟩
  have hstumbles : (({} : Checker).check .opening).2.Stumbles .moving := by
    have hmisapplies : (({} : Checker).check .opening).2.Misapplies (.call (.columns 0 5)
        (.member (.columns 0 2) (.name (.columns 0 0) "f") "move")
          ([] ++ .int (.columns 4 4) 5 :: [])) :=
      .argument (.method _ hobject rfl) (show [Ty.folder] = [] ++ Ty.folder :: [] from rfl) .nil
        hnumber rfl rfl
    exact .mk (show _ = [] ++ _ :: [] from rfl) rfl trivial (.single .called) hmisapplies
  obtain ⟨hverdict, hfails⟩ := givesVerdict_iff_not_stumbles harises Program.ofTokens_moving
  exact ⟨harises, hstumbles, fun h => hverdict.1 h hstumbles, hfails hstumbles⟩

end AudLang
