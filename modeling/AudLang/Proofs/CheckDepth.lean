import AudLang.Proofs.Rules

/-!
How deep a checker stands when a check stops.

An expression leaves the checker as it is, whether it is accepted or not.  A statement leaves open
what it had opened by then: the scope of a block, or the scope and the promised type of a function.
Outside of all scopes this tells when a check that has failed leaves the checker where it started
(`idle_check_iff`).
-/

namespace AudLang

variable {ns : List Node} {b : Span}

/-! ## Properties of steps -/

lemma Ty.raises_accepts (t u : Ty) : Raises (· ≠ Fault.unbalanced) (t.accepts u) := by
  fun_induction accepts t u with
  | case1 | case2 => exact .error (by decide)
  | case3 a b ih => exact ih
  | case4 => exact .ok _

namespace Check

variable {α β : Type} {k k' : Checker} {n : Node}

lemma raises_operation (op : BinaryOp) (l r : Ty) :
    Raises (· ≠ Fault.unbalanced) (operation op l r) := by
  have hite {c : Prop} [Decidable c] {x y : Except Fault (Option Ty)}
    (hx : Raises (· ≠ Fault.unbalanced) x)
      (hy : Raises (· ≠ Fault.unbalanced) y) :
        Raises (· ≠ Fault.unbalanced) (if c then x else y) := by
    split
    · exact hx
    · exact hy
  unfold operation
  cases op with
  | add | subtract | multiply | divide => exact hite (.ok _) (hite (.ok _) (hite (.ok _) (.ok _)))
  | equals | notEquals =>
    refine hite (.ok _) ((l.raises_accepts r).bind fun b => hite (.ok _) ?_)
    exact (r.raises_accepts l).bind fun b' => hite (.ok _) (.ok _)
  | less | lessOrEqual | greater | greaterOrEqual => exact hite (.ok _) (.ok _)
  | and | or => exact .ok _

lemma raises_calledName (n : Node) : Raises (· ≠ Fault.unbalanced) (calledName n) := by
  cases n with
  | name s id => exact .ok id
  | _ => exact .error (by decide)

/-- A property of the steps that only look at the checker, or stop with anything but a scope too
few, and of what is put together from steps that have it. -/
structure Composes (P : (α : Type) → Check α → Prop) : Prop where
  pure : ∀ {α : Type} (a : α), P α (Pure.pure a)
  get : P Checker MonadState.get
  stop : ∀ {α : Type} {e : CheckStop}, e ≠ .fault .unbalanced → P α (throw e)
  bind : ∀ {α β : Type} {x : Check α} {f : α → Check β}, P α x → (∀ a, P β (f a)) → P β (x >>= f)

namespace Composes

variable {P : (α : Type) → Check α → Prop}

lemma ite (_ : Composes P) {c : Prop} [Decidable c] {x y : Check α} (hx : P α x) (hy : P α y) :
    P α (if c then x else y) := by
  split
  · exact hx
  · exact hy

section

variable (hP : Composes P)

include hP

lemma discard {x : Check α} (hx : P α x) : P PUnit (Functor.discard x) :=
  hP.bind hx fun _ => hP.pure _

lemma flag (flaw : TypeFlaw) (n : Node) : P α (flag flaw n) := by
  unfold Check.flag
  split
  · exact hP.stop fun h => by cases h
  · exact hP.stop (by decide)

lemma ask {r : Except Fault α} (h : Raises (· ≠ Fault.unbalanced) r) : P α (ask r) := by
  cases r with
  | ok a => exact hP.pure a
  | error f => exact hP.stop fun hf => h (by cases hf; rfl)

lemma require (expected actual : Ty) (flaw : TypeFlaw) (n : Node) :
    P Unit (require expected actual flaw n) :=
  hP.bind (hP.ask (expected.raises_accepts actual)) fun _ => hP.ite (hP.pure _) (hP.flag _ _)

lemma typed {x : Check Ty} (hx : P Ty x) (n : Node) : P Ty (typed n x) := by
  unfold Check.typed
  split
  · exact hP.flag _ _
  · exact hP.bind hx fun _ => hP.ite (hP.pure _) (hP.flag _ _)

lemma binary (n : Node) (op : BinaryOp) (left right : Node) (l r : Ty) :
    P Ty (binary n op left right l r) := by
  have hlogical : P Ty (do
      Check.require .bool l (.badLeft op l) left
      Check.require .bool r (.badRight op r) right
      return Ty.bool) := hP.bind (hP.require _ _ _ _) fun _ => hP.bind (hP.require _ _ _ _) fun _ =>
        hP.pure _
  unfold Check.binary
  split
  · exact hlogical
  · exact hlogical
  · refine hP.bind (hP.ask (raises_operation op l r)) fun o => ?_
    cases o with
    | some t => exact hP.pure t
    | none => exact hP.flag _ _

lemma join (n : Node) (i : Nat) (soFar t : Ty) : P Ty (join n i soFar t) := by
  refine hP.bind (hP.ask (soFar.raises_accepts t)) fun _ => hP.ite (hP.pure _) ?_
  exact hP.bind (hP.ask (t.raises_accepts soFar)) fun _ => hP.ite (hP.pure _) (hP.flag _ _)

lemma property (n object : Node) (t : Ty) (field : String) :
    P Ty (property n object t field) := by
  refine hP.ite (hP.flag _ _) ?_
  cases t.property? field with
  | some p => exact hP.pure p
  | none => exact hP.flag _ _

lemma method (target object : Node) (t : Ty) (name : String) :
    P Signature (method target object t name) := by
  refine hP.ite (hP.flag _ _) ?_
  cases t.method? name with
  | some s => exact hP.pure s
  | none => exact hP.flag _ _

lemma function (target : Node) (name : String) : P Signature (function target name) := by
  refine hP.bind hP.get fun k => ?_
  cases k.functions.get? name with
  | some s => exact hP.pure s
  | none => exact hP.flag _ _

lemma elements {es : List Node} (h : ∀ e ∈ es, P Ty (visit e)) :
    ∀ (i : Nat) (soFar : Ty), P Ty (elements i soFar es) := by
  induction es with
  | nil =>
    intro i soFar
    exact hP.pure _
  | cons e es ih =>
    intro i soFar
    obtain ⟨he, hes⟩ := List.forall_mem_cons.1 h
    rw [Check.elements]
    exact hP.bind (hP.typed he e) fun t => hP.bind (hP.join _ _ _ _) fun u => ih hes _ _

lemma arguments (target : Node) {args : List Node} (h : ∀ a ∈ args, P Ty (visit a)) :
    ∀ (i : Nat) (ps : List Ty), P Unit (arguments (calledName target) i args ps) := by
  induction args with
  | nil =>
    intro i ps
    exact hP.pure _
  | cons a args ih =>
    intro i ps
    obtain ⟨ha, hargs⟩ := List.forall_mem_cons.1 h
    cases ps with
    | nil => exact hP.pure _
    | cons p ps =>
      rw [Check.arguments]
      refine hP.bind (hP.typed ha a) fun t => hP.bind (hP.ask (p.raises_accepts t)) fun b => ?_
      refine hP.ite (ih hargs _ _) (hP.bind (hP.ask (raises_calledName target)) fun _ => ?_)
      exact hP.bind (hP.flag _ _) fun _ => ih hargs _ _

lemma callee {target : Node}
    (h : ∀ s object field, target = .member s object field → P Ty (visit object)) :
    P Signature (callee target) := by
  cases target with
  | member s object field =>
    rw [Check.callee]
    exact hP.bind (hP.typed (h s object field rfl) _) fun t => hP.method _ _ t _
  | name s id =>
    rw [Check.callee]
    exact hP.function _ _
  | _ =>
    simp only [Check.callee]
    exact hP.flag _ _

/-! ### Trees whose parts have the property -/

lemma name (s : Span) (id : String) : P Ty (visit (.name s id)) := by
  rw [visit]
  exact hP.bind hP.get fun k => hP.ite (hP.pure _) (hP.flag _ _)

lemma list (s : Span) {es : List Node} (h : ∀ e ∈ es, P Ty (visit e)) :
    P Ty (visit (.list s es)) := by
  cases es with
  | nil =>
    rw [visit]
    exact hP.pure _
  | cons e es =>
    obtain ⟨he, hes⟩ := List.forall_mem_cons.1 h
    rw [visit]
    exact hP.bind (hP.typed he e) fun t => hP.bind (hP.elements hes _ _) fun _ => hP.pure _

lemma operation (s : Span) (op : BinaryOp) {left right : Node} (hl : P Ty (visit left))
    (hr : P Ty (visit right)) : P Ty (visit (.binary s op left right)) := by
  rw [visit]
  exact hP.bind (hP.typed hl _) fun l => hP.bind (hP.typed hr _) fun r => hP.binary _ _ _ _ l r

lemma negate (s : Span) {e : Node} (he : P Ty (visit e)) : P Ty (visit (.negate s e)) := by
  rw [visit]
  exact hP.bind (hP.typed he _) fun t => hP.ite (hP.pure _) (hP.ite (hP.pure _) (hP.flag _ _))

lemma member (s : Span) {object : Node} (field : String) (ho : P Ty (visit object)) :
    P Ty (visit (.member s object field)) := by
  rw [visit]
  exact hP.bind (hP.typed ho _) fun t => hP.property _ _ t _

lemma call (s : Span) {target : Node} {args : List Node}
    (ht : ∀ s object field, target = .member s object field → P Ty (visit object))
    (ha : ∀ a ∈ args, P Ty (visit a)) : P Ty (visit (.call s target args)) := by
  rw [visit]
  refine hP.bind (hP.callee ht) fun f => ?_
  exact hP.ite (hP.bind (hP.arguments target ha _ _) fun _ => hP.pure _)
    (hP.bind (hP.ask (raises_calledName target)) fun _ => hP.flag _ _)

lemma construct (s : Span) (id : String) {args : List Node} (ha : ∀ a ∈ args, P Ty (visit a)) :
    P Ty (visit (.construct s id args)) := by
  match args with
  | [] => exact hP.flag _ _
  | [a] =>
    rw [visit]
    exact hP.bind (hP.typed (ha a List.mem_cons_self) a) fun t =>
      hP.bind (hP.require _ _ _ _) fun _ => hP.pure _
  | a :: b :: args => exact hP.flag _ _

lemma assign (s : Span) {target value : Node} (ht : P Ty (visit target))
    (hv : P Ty (visit value)) : P Ty (visit (.assign s target value)) := by
  have hrest (expected : Ty) : P Ty (do
      let t ← Check.typed value (visit value)
      Check.require expected t (.badAssignment t expected) value
      return Ty.absent) := hP.bind (hP.typed hv _) fun t => hP.bind (hP.require _ _ _ _) fun _ =>
        hP.pure _
  cases target with
  | name t id =>
    rw [visit]
    exact hP.bind hP.get fun k => hP.ite (hP.bind (hP.pure _) hrest) (hP.bind (hP.flag _ _) hrest)
  | member t object field =>
    rw [visit]
    exact hP.bind (hP.typed ht _) hrest
  | _ =>
    simp only [visit]
    exact hP.bind (hP.flag _ _) hrest

lemma giveBack (s : Span) {value : Node} (hv : value.isPresent = true → P Ty (visit value)) :
    P Ty (visit (.giveBack s value)) := by
  have hrest (t : Ty) : P Ty (do
      let k ← MonadState.get
      Check.require k.returns t (.badReturn k.returns t) (.giveBack s value)
      return Ty.absent) := hP.bind hP.get fun k => hP.bind (hP.require _ _ _ _) fun _ => hP.pure _
  rw [visit]
  cases hp : value.isPresent with
  | false =>
    refine hP.bind hP.get fun k => hP.ite ?_ (hP.bind (hP.flag _ _) fun _ => ?_)
    all_goals exact hP.bind (hP.pure _) hrest
  | true =>
    refine hP.bind hP.get fun k => hP.ite ?_ (hP.bind (hP.flag _ _) fun _ => ?_)
    all_goals exact hP.bind (hP.typed (hv hp) value) hrest

lemma callStatement (s : Span) {e : Node} (he : P Ty (visit e)) :
    P Ty (visit (.callStatement s e)) := by
  cases e with
  | call t target args =>
    rw [visit]
    exact hP.bind (hP.discard he) fun _ => hP.pure _
  | _ =>
    simp only [visit]
    exact hP.stop (by decide)

lemma expressionStatement (s : Span) {e : Node} (he : P Ty (visit e)) :
    P Ty (visit (.expressionStatement s e)) := by
  rw [visit]
  exact hP.bind (hP.discard (hP.typed he e)) fun _ => hP.pure _

end

end Composes

/-! ## Steps that change nothing -/

/-- The step leaves the checker as it is, whether it answers or stops. -/
structure Stays (x : Check α) : Prop where
  ends : ∀ k, Ends (x k) (fun _ k' => k' = k) (fun _ k' => k' = k)

lemma composes_stays : Composes @Stays where
  pure _ := ⟨fun _ => rfl⟩
  get := ⟨fun _ => rfl⟩
  stop _ := ⟨fun _ => rfl⟩
  bind hx hf := by
    refine ⟨fun k => Ends.bind (hx.ends k) fun a k₁ _ h₁ => ?_⟩
    obtain rfl := h₁
    exact (hf a).ends k₁

lemma stays_ask (r : Except Fault α) : Stays (ask r) := by
  cases r with
  | ok a => exact composes_stays.pure a
  | error f => exact ⟨fun _ => rfl⟩

/-- Expressions leave the checker as it is, whether it accepts them or not. -/
lemma stays_term {n : Node} (hn : n.isTerm = true) : Stays (visit n) := by
  match n with
  | .int .. | .float .. | .string .. | .bool .. | .null .. =>
    rw [visit]
    exact composes_stays.pure _
  | .name s id => exact composes_stays.name s id
  | .list s es => exact composes_stays.list s fun e h => stays_term (Node.allTerms_iff.1 hn e h)
  | .binary s op left right =>
    obtain ⟨hl, hr⟩ := Bool.and_eq_true_iff.1 hn
    exact composes_stays.operation s op (stays_term hl) (stays_term hr)
  | .negate s e =>
    have he : e.isTerm = true := hn
    exact composes_stays.negate s (stays_term he)
  | .member s object field =>
    have ho : object.isTerm = true := hn
    exact composes_stays.member s field (stays_term ho)
  | .call s target args =>
    obtain ⟨ht, hargs⟩ := Bool.and_eq_true_iff.1 hn
    refine composes_stays.call s (fun s' object field h => stays_term (n := object) ?_)
      fun a h => stays_term (Node.allTerms_iff.1 hargs a h)
    subst h
    exact ht
  | .construct s id args =>
    exact composes_stays.construct s id fun a h => stays_term (Node.allTerms_iff.1 hn a h)

lemma stays_expression (hn : n.IsExpression) : Stays (visit n) := stays_term hn.isTerm

/-! ## Steps that are well nested -/

/-- The step closes what it has opened when it answers, and when it stops it has closed no more than
that. -/
structure Nests (x : Check α) : Prop where
  ends : ∀ k, Ends (x k) (fun _ k' => k'.inner.length = k.inner.length)
    (fun _ k' => k.inner.length ≤ k'.inner.length)

namespace Nests

lemma of_stays {x : Check α} (h : Stays x) : Nests x := by
  refine ⟨fun k => (h.ends k).weaken (fun _ k' _ hk => ?_) (fun _ k' _ hk => ?_)⟩
  · rw [hk]
  · exact hk ▸ Nat.le_refl _

lemma bind {x : Check α} {f : α → Check β} (hx : Nests x) (hf : ∀ a, Nests (f a)) :
    Nests (x >>= f) := by
  refine ⟨fun k => Ends.bind (hx.ends k) fun a k₁ _ h₁ => ?_⟩
  exact ((hf a).ends k₁).weaken (fun _ k' _ h => h.trans h₁) fun _ k' _ h => h₁ ▸ h

lemma discard {x : Check α} (hx : Nests x) : Nests (Functor.discard x) :=
  hx.bind fun _ => .of_stays (composes_stays.pure _)

end Nests

/-- A declaration that is refused leaves the checker as it is. -/
lemma declare_ends (name : String) (type : Ty) (p : Position) (k : Checker) :
    Ends (declare name type p k) (fun _ k' => k'.inner.length = k.inner.length)
      (fun _ k' => k' = k) := by
  simp only [declare, bind_run, get_run]
  cases hinner : k.inner with
  | nil =>
    simp only [bind_run]
    cases k.global.declare name type with
    | ok t => simp [Ends]
    | error flaw => rfl
  | cons t outer =>
    simp only [bind_run]
    cases t.declare name type with
    | ok t => simp [Ends]
    | error flaw => rfl

lemma nests_declare (name : String) (type : Ty) (p : Position) : Nests (declare name type p) :=
  ⟨fun k => (declare_ends name type p k).mono_error fun _ _ h => h ▸ Nat.le_refl _⟩

lemma nests_declareAll {ps : List Node} (h : ∀ p ∈ ps, p.IsParameter) : Nests (declareAll ps) := by
  induction ps with
  | nil => exact .of_stays (composes_stays.pure _)
  | cons p ps ih =>
    obtain ⟨hp, hps⟩ := List.forall_mem_cons.1 h
    obtain ⟨s, id, ht⟩ := hp
    rw [declareAll]
    exact (Nests.of_stays (stays_ask _)).bind fun t => (nests_declare id t s.start).bind fun _ =>
      ih hps

lemma nests_visitAll (h : ∀ n ∈ ns, Nests (visit n)) : Nests (visitAll ns) := by
  induction ns with
  | nil => exact .of_stays (composes_stays.pure _)
  | cons n ns ih =>
    obtain ⟨hn, hns⟩ := List.forall_mem_cons.1 h
    rw [visitAll]
    exact hn.discard.bind fun _ => ih hns

/-- A scope that is open can be left. -/
lemma exit_ends {len : Nat} (h : k.inner.length = len + 1) :
    Ends (exit k) (fun _ k' => k'.inner.length = len) (fun _ _ => False) := by
  simp only [exit, bind_run, get_run]
  cases hinner : k.inner with
  | nil => simp [hinner] at h
  | cons t outer => simpa [Ends, hinner] using h

/-- A block that stops has its scope open. -/
lemma block_ends (h : ∀ n ∈ ns, Nests (visit n)) (k : Checker) :
    Ends (visit (.block b ns) k) (fun _ k' => k'.inner.length = k.inner.length)
      (fun _ k' => k.inner.length < k'.inner.length) := by
  rw [visit]
  show Ends ((visitAll ns >>= fun _ => exit >>= fun _ => pure Ty.absent) k.enter) _ _
  refine Ends.bind (((nests_visitAll h).ends k.enter).mono_error fun _ _ h => h)
    fun _ k₁ _ h₁ => ?_
  exact Ends.bind ((exit_ends h₁).mono_error fun _ _ h => h.elim) fun _ _ _ h => h

lemma discarded_block_ends (h : ∀ n ∈ ns, Nests (visit n)) (k : Checker) :
    Ends (discard (visit (.block b ns)) k) (fun _ k' => k'.inner.length = k.inner.length)
      (fun _ k' => k.inner.length < k'.inner.length) :=
  Ends.bind (block_ends h k) fun _ _ _ h => h

/-- A definition that stops has the scope of its parameters open. -/
lemma define_ends {s : Span} {returns : Node} {id : String} {ps body : List Node}
    (ht : returns.IsType)
    (hp : ∀ p ∈ ps, p.IsParameter) (h : ∀ n ∈ body, Nests (visit n)) (k : Checker) :
    Ends (visit (.define s returns id ps (.block b body)) k)
      (fun _ k' => k'.inner.length = k.inner.length)
      (fun _ k' => k.inner.length < k'.inner.length) := by
  have hbody : Nests (visit (.block b body)) :=
    ⟨fun k => (block_ends h k).mono_error fun _ _ h => Nat.le_of_lt h⟩
  rw [visit, ht.denotedType_eq]
  -- the promised type is set and the scope is open before the parameters are declared
  show Ends ((declareAll ps >>= fun _ => discard (visit (.block b body)) >>= fun _ =>
    exit >>= fun _ =>
    modify (fun k₁ : Checker => { k₁ with returns := k.returns }) >>= fun _ => pure Ty.absent)
      ({ k with returns := returns.declaredType } : Checker).enter) _ _
  refine Ends.bind (((nests_declareAll hp).ends _).mono_error fun _ _ h => h) fun _ k₁ _ h₁ => ?_
  refine Ends.bind ((hbody.discard.ends k₁).weaken (fun _ _ _ h => h.trans h₁) fun _ _ _ h => ?_)
    fun _ k₂ _ h₂ => ?_
  · rw [h₁] at h
    exact h
  · exact Ends.bind ((exit_ends h₂).mono_error fun _ _ h => h.elim) fun _ _ _ h => h

end Check

/-! ## What stops open -/

namespace Checker

/-- The checker takes the expression for a condition. -/
def TakesCondition (k : Checker) (c : Node) : Prop :=
  ∃ t, Check.typed c (Check.visit c) k = .ok t k ∧ Ty.bool.accepts t = .ok true

/-- The statement is one that has a scope open if it stops: a definition, or a branch or a loop
whose condition is accepted. -/
inductive Opens (k : Checker) : Node → Prop
  | branch (s : Span) {c : Node} (a b : Node) (hc : k.TakesCondition c) : Opens k (.branch s c a b)
  | loop (s : Span) {c : Node} (b : Node) (hc : k.TakesCondition c) : Opens k (.loop s c b)
  | define (s : Span) (returns : Node) (id : String) (ps : List Node) (b : Node) :
      Opens k (.define s returns id ps b)

/-- The state in which a statement stops: that from before, or deeper inside. -/
def StopsIn (k : Checker) (n : Node) (k' : Checker) : Prop :=
  k' = k ∧ ¬ k.Opens n ∨ k.inner.length < k'.inner.length ∧ k.Opens n

end Checker

namespace Check

variable {α : Type} {k k' : Checker} {n : Node}

/-- Behind a condition the checker is as before; without one it does not come to what is behind. -/
lemma condition_ends {c : Node} {flaw : Ty → TypeFlaw} {rest : Check α} {Q : α → Checker → Prop}
    {E : CheckStop → Checker → Prop} (hc : c.IsExpression)
    (hstops : ∀ e, ¬ k.TakesCondition c → E e k) (hrest : k.TakesCondition c → Ends (rest k) Q E) :
    Ends ((do
      let t ← typed c (visit c)
      require .bool t (flaw t) c
      rest) k) Q E := by
  rw [bind_run]
  have htyped := (composes_stays.typed (stays_expression hc) c).ends k
  cases hv : typed c (visit c) k with
  | error e k₁ =>
    -- the condition itself is not accepted
    rw [hv] at htyped
    obtain rfl : k₁ = k := htyped
    refine hstops e fun h => ?_
    obtain ⟨t, ht, -⟩ := h
    rw [hv] at ht
    cases ht
  | ok t k₁ =>
    rw [hv] at htyped
    obtain rfl : k₁ = k := htyped
    have hrequire := (composes_stays.require .bool t (flaw t) c).ends k₁
    simp only [bind_run]
    cases hr : require .bool t (flaw t) c k₁ with
    | ok u k₂ =>
      obtain ⟨haccepts, rfl⟩ := accepts_of_require hr
      exact hrest ⟨t, hv, haccepts⟩
    | error e k₂ =>
      -- it has a type, but one that is no condition
      rw [hr] at hrequire
      obtain rfl : k₂ = k₁ := hrequire
      refine hstops e fun h => ?_
      obtain ⟨t', ht', haccepts⟩ := h
      rw [hv] at ht'
      cases ht'
      simp only [require, bind_run, haccepts, ask, pure_run] at hr
      cases hr

/-- The statement closes what it opens when it is accepted, and otherwise it stops where it was or
inside of what it has opened. -/
structure WellNested (n : Node) : Prop where
  ends : ∀ k, Ends (visit n k) (fun _ k' => k'.inner.length = k.inner.length)
    (fun _ k' => k.StopsIn n k')

lemma WellNested.nests (h : WellNested n) : Nests (visit n) := by
  refine ⟨fun k => (h.ends k).weaken (fun _ _ _ h => h) fun _ k' _ h => ?_⟩
  rcases h with ⟨rfl, -⟩ | ⟨hlt, -⟩
  · exact Nat.le_refl _
  · exact Nat.le_of_lt hlt

lemma WellNested.of_stays (h : Stays (visit n)) (hopens : ∀ k : Checker, ¬ k.Opens n) :
    WellNested n :=
  ⟨fun k => (h.ends k).weaken (fun _ _ _ h => h ▸ rfl) fun _ _ _ h => .inl ⟨h, hopens k⟩⟩

lemma wellNested_declare (s : Span) {type value : Node} (id : String) (hv : value.IsExpression) :
    WellNested (.declare s type id value) := by
  refine ⟨fun k => ?_⟩
  -- up to the declaration itself nothing has changed
  have hstay {α : Type} {x : Check α} (hx : Stays x) :
      Ends (x k) (fun _ k' => k' = k) (fun _ k' => k.StopsIn (.declare s type id value) k') :=
    (hx.ends k).mono_error fun _ _ h => .inl ⟨h, fun ho => by cases ho⟩
  rw [visit]
  refine Ends.bind (hstay (stays_ask _)) fun d k₁ _ h₁ => ?_
  obtain rfl := h₁
  refine Ends.bind (hstay (composes_stays.typed (stays_expression hv) value)) fun t k₂ _ h₂ => ?_
  obtain rfl := h₂
  refine Ends.bind (hstay (composes_stays.require _ _ _ _)) fun _ k₃ _ h₃ => ?_
  obtain rfl := h₃
  refine Ends.bind ((declare_ends id d s.start k₃).mono_error fun _ _ h => ?_) fun _ _ _ h => h
  exact .inl ⟨h, fun ho => by cases ho⟩

/-- Every statement is well nested. -/
lemma wellNested_statement (hn : n.IsStatement) : WellNested n := by
  induction hn with
  | declare s id ht hv he => exact wellNested_declare s id he
  | assign s t id he =>
    exact .of_stays (composes_stays.assign s (composes_stays.name t id) (stays_expression he))
      fun k h => by cases h
  | assignMember s t field ho hname he =>
    refine .of_stays (composes_stays.assign s ?_ (stays_expression he)) fun k h => by cases h
    exact stays_expression (.member t field ho)
  | call s t hc hname =>
    exact .of_stays (composes_stays.callStatement s (stays_expression hc)) fun k h => by cases h
  | expression s he =>
    exact .of_stays (composes_stays.expressionStatement s (stays_expression he))
      fun k h => by cases h
  | giveBack s =>
    exact .of_stays (composes_stays.giveBack s fun h => by cases h) fun k h => by cases h
  | giveBackValue s he =>
    exact .of_stays (composes_stays.giveBack s fun _ => stays_expression he) fun k h => by cases h
  | branch s b hc hb ih =>
    refine ⟨fun k => ?_⟩
    rw [visit]
    refine condition_ends hc (fun e h => .inl ⟨rfl, fun ho => ?_⟩) fun hcondition => ?_
    · cases ho with
      | branch _ _ _ ho => exact h ho
    refine Ends.bind ((discarded_block_ends (fun n hn => (ih n hn).nests) k).mono_error
      fun _ _ h => .inr ⟨h, .branch s _ _ hcondition⟩) fun _ _ _ h => h
  | branchElse s b b' hc hb ho ih ih' =>
    refine ⟨fun k => ?_⟩
    rw [visit]
    refine condition_ends hc (fun e h => .inl ⟨rfl, fun ho => ?_⟩) fun hcondition => ?_
    · cases ho with
      | branch _ _ _ ho => exact h ho
    refine Ends.bind ((discarded_block_ends (fun n hn => (ih n hn).nests) k).mono_error
      fun _ _ h => .inr ⟨h, .branch s _ _ hcondition⟩) fun _ k₁ _ h₁ => ?_
    -- the scope of the first block is closed, so the second one stands as deep as the first
    refine Ends.bind ((discarded_block_ends (fun n hn => (ih' n hn).nests) k₁).weaken
      (fun _ _ _ h => h.trans h₁)
      fun _ _ _ h => .inr ⟨h₁ ▸ h, .branch s _ _ hcondition⟩) fun _ _ _ h => h
  | loop s b hc hb ih =>
    refine ⟨fun k => ?_⟩
    rw [visit]
    refine condition_ends hc (fun e h => .inl ⟨rfl, fun ho => ?_⟩) fun hcondition => ?_
    · cases ho with
      | loop _ _ ho => exact h ho
    refine Ends.bind ((discarded_block_ends (fun n hn => (ih n hn).nests) k).mono_error
      fun _ _ h => .inr ⟨h, .loop s _ hcondition⟩) fun _ _ _ h => h
  | define s b id ht hp hb ih =>
    refine ⟨fun k => ?_⟩
    exact (define_ends ht hp (fun n hn => (ih n hn).nests) k).mono_error
      fun _ _ h => .inr ⟨h, .define _ _ _ _ _⟩

end Check

/-! ## Programs -/

namespace Check

variable {k k' : Checker} {e : CheckStop}

/-- Functions become known without any effect on scopes and on what is promised. -/
lemma registerAll_ends (ds : List Node) (k : Checker) :
    Ends (registerAll ds k) (fun _ k' => k'.inner = k.inner ∧ k'.returns = k.returns)
      (fun _ k' => k'.inner = k.inner ∧ k'.returns = k.returns) := by
  induction ds generalizing k with
  | nil => exact ⟨rfl, rfl⟩
  | cons d ds ih =>
    refine Ends.bind (((stays_ask d.signature).ends k).weaken (fun _ _ _ h => h) fun _ k' _ h => ?_)
      fun a k₁ _ h₁ => ?_
    · obtain rfl := h
      exact ⟨rfl, rfl⟩
    obtain rfl := h₁
    obtain ⟨name, signature, p⟩ := a
    simp only [register, bind_run, get_run]
    cases k₁.functions.register name signature with
    | ok fs => exact ih { k₁ with functions := fs }
    | error flaw => exact ⟨rfl, rfl⟩

/-- Statements stop at the first of them that is not accepted. -/
lemma visitAll_error : ∀ {k : Checker}, visitAll ns k = .error e k' →
    ∃ before n after k₁, ns = before ++ n :: after ∧ visitAll before k = .ok () k₁ ∧
      visit n k₁ = .error e k' := by
  induction ns with
  | nil => intro k h; cases h
  | cons n ns ih =>
    intro k h
    rw [visitAll] at h
    rcases error_of_bind h with hn | ⟨u, k₁, hn, hrest⟩
    · refine ⟨[], n, ns, k, rfl, rfl, ?_⟩
      rcases error_of_bind hn with hn | ⟨t, k₁, -, hd⟩
      · exact hn
      · cases hd
    · obtain ⟨before, n', after, k₂, rfl, hbefore, hstop⟩ := ih hrest
      refine ⟨n :: before, n', after, k₂, rfl, ?_, hstop⟩
      rw [visitAll, bind_of_ok hn]
      exact hbefore

lemma visitAll_append_error {before after : List Node} {n : Node} {k₁ : Checker} : ∀ {k : Checker},
    visitAll before k = .ok () k₁ → visit n k₁ = .error e k' →
      visitAll (before ++ n :: after) k = .error e k' := by
  induction before with
  | nil =>
    intro k hbefore hn
    cases hbefore
    exact bind_of_error (bind_of_error hn)
  | cons b before ih =>
    intro k hbefore hn
    rw [visitAll] at hbefore
    obtain ⟨u, k₂, hb, hrest⟩ := ok_of_bind hbefore
    rw [List.cons_append, visitAll, bind_of_ok hb]
    exact ih hrest hn

end Check

namespace Checker

open Check

variable {k : Checker} {program : Node}

/-- The checker stands outside of all scopes and functions. -/
structure Idle (k : Checker) : Prop where
  inner : k.inner = []
  returns : k.returns = .absent

/-- The check of the program stops at a statement that has a scope open then. -/
inductive Trips (k : Checker) : Node → Prop
  | mk {s : Span} {is : List Nat} {ns before after : List Node} {n : Node} {e : CheckStop}
      {k₁ k₂ k₃ : Checker}
      (h : ns = before ++ n :: after)
        (hr : registerAll (Node.program s is ns).definitions k = .ok () k₁)
      (hb : visitAll before k₁ = .ok () k₂) (ho : k₂.Opens n) (hn : visit n k₂ = .error e k₃) :
      Trips k (.program s is ns)

/-- A check that trips stops, and the checker is not idle then. -/
lemma Trips.stops (h : k.Trips program) (hp : program.IsProgram) :
    ∃ e k', Check.program program k = .error e k' ∧ ¬ k'.Idle := by
  cases h with
  | @mk s is ns before after n e k₁ k₂ k₃ h hr hb ho hn =>
    have hns : ∀ n ∈ ns, n.IsStatement := by
      cases hp with
      | mk _ hns => exact hns
    refine ⟨e, k₃, ?_, fun hidle => ?_⟩
    · rw [Check.program, bind_of_ok hr, bind_of_error (h ▸ visitAll_append_error hb hn)]
    rcases ((wellNested_statement (hns n (by rw [h]; simp))).ends k₂).error hn with
      ⟨-, hnot⟩ | ⟨hlt, -⟩
    · exact hnot ho
    · rw [hidle.inner] at hlt
      exact absurd hlt (Nat.not_lt_zero _)

/-- Some accepted statements leave an idle checker idle. -/
lemma Idle.visitAll {k' : Checker} (hk : k.Idle) (hns : ∀ n ∈ ns, n.IsStatement)
    (h : visitAll ns k = .ok () k') : k'.Idle := by
  obtain ⟨rfl, -⟩ := visitAll_ok (fun n hn => advances (hns n hn)) h
  rw [afterAll_global ns k hk.inner]
  exact ⟨hk.inner, hk.returns⟩

/-- A check leaves an idle checker idle, unless it stops inside of a block or of a function. -/
lemma idle_check_iff (hk : k.Idle) (hp : program.IsProgram) :
    (k.check program).2.Idle ↔ ¬ k.Trips program := by
  constructor
  · intro hidle htrips
    obtain ⟨e, k', hstops, hnot⟩ := htrips.stops hp
    rw [check, hstops] at hidle
    exact hnot hidle
  · intro htrips
    cases hp with
    | @mk s ns hns =>
      unfold check
      rw [Check.program, bind_run]
      have hregister := registerAll_ends
        (Node.program s (Parser.definitionIndexes ns) ns).definitions k
      cases hr : registerAll (Node.program s (Parser.definitionIndexes ns) ns).definitions k with
      | error e k' =>
        have hk' := hregister.error hr
        exact ⟨hk'.1.trans hk.inner, hk'.2.trans hk.returns⟩
      | ok u k₁ =>
        have hk₁ := hregister.ok hr
        have hidle : k₁.Idle := ⟨hk₁.1.trans hk.inner, hk₁.2.trans hk.returns⟩
        simp only [bind_run]
        cases hv : Check.visitAll ns k₁ with
        | ok u k₂ => exact ⟨rfl, rfl⟩
        | error e k' =>
          -- the statements before the one that stops the check leave an idle checker to it
          obtain ⟨before, n, after, k₂, heq, hbefore, hstop⟩ := visitAll_error hv
          have hstatement (n' : Node) (h : n' ∈ before ++ n :: after) : n'.IsStatement :=
            hns n' (heq ▸ h)
          have hk₂ : k₂.Idle := hidle.visitAll
            (fun n' h => hstatement n' (List.mem_append_left _ h)) hbefore
          rcases ((wellNested_statement (hstatement n (by simp))).ends k₂).error hstop with
            ⟨rfl, -⟩ | ⟨-, ho⟩
          · exact hk₂
          · exact absurd (.mk heq hr hbefore ho hstop) htrips

end Checker

end AudLang
