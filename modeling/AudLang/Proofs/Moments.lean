import AudLang.Machine.Evaluate
import AudLang.Proofs.Rules

/-!
The moments of a run.

A run goes through a tree, and at each node that it comes to there is a machine: this is a moment of
the run.  `Enters` lists the moments that a moment leads to directly, one constructor for each place
from which the evaluator visits another node; `Reaches` are all moments that come up in between.
What is true of every moment of a run is true whenever the run looks at anything.

A moment also knows what the variables in the scopes of its machine were declared as.  This is read
off the declarations and parameters that the run has passed, and mirrors the contexts of the
machine: one frame of tables for the module and one for each call.
-/

namespace AudLang

variable {n : Node} {m : Machine}

/-! ## Declared variables -/

/-- What the variables of a context were declared as, scope by scope. -/
structure Frame where
  inner : List Table := []
  base : Table := {}

namespace Frame

/-- All tables from the innermost outward. -/
def tables (f : Frame) : List Table := f.inner ++ [f.base]

/-- A variable declared in the innermost scope. -/
def add (f : Frame) (name : String) (type : Ty) : Frame :=
  match f.inner with
  | t :: outer => { f with inner := t.add name type :: outer }
  | [] => { f with base := f.base.add name type }

/-- The variables of the innermost scope. -/
def current (f : Frame) : Table := f.inner.headD f.base

end Frame

/-- What the variables of all contexts of a machine were declared as. -/
structure Declared where
  module : Frame := {}
  calls : List Frame := []

namespace Declared

/-- Changes the frame of the innermost call, or of the module. -/
def updateCurrent (d : Declared) (f : Frame → Frame) : Declared :=
  match d.calls with
  | c :: outer => { d with calls := f c :: outer }
  | [] => { d with module := f d.module }

/-- The frame of the innermost call, or of the module. -/
def current (d : Declared) : Frame := d.calls.headD d.module

/-- The tables in which a name is looked up, in this order. -/
def visible (d : Declared) : List Table :=
  match d.calls with
  | c :: _ => c.tables ++ [d.module.base]
  | [] => d.module.tables

/-- The variables at the start of a block. -/
def enter (d : Declared) : Declared := d.updateCurrent fun f => { f with inner := {} :: f.inner }

/-- The variables behind a statement. -/
def after (d : Declared) : Node → Declared
  | .declare _ type id _ => d.updateCurrent (·.add id type.declaredType)
  | _ => d

/-- The variables behind some statements. -/
def afterAll (d : Declared) (statements : List Node) : Declared := statements.foldl after d

lemma after_of_none (d : Declared) (h : n.declaration? = none) : d.after n = d := by
  cases n <;> first | rfl | cases h

/-- Within a block, statements change the innermost table only. -/
lemma afterAll_open (d : Declared) (ns : List Node) : ∀ t : Table,
    (d.updateCurrent fun f => { f with inner := t :: f.inner }).afterAll ns
      = d.updateCurrent fun f =>
          { f with inner := ⟨t.entries ++ ns.filterMap Node.declaration?⟩ :: f.inner } := by
  induction ns with
  | nil => intro t; simp [afterAll]
  | cons n ns ih =>
    intro t
    cases hd : n.declaration? with
    | none =>
      rw [List.filterMap_cons_none hd, ← ih t]
      exact congrArg (·.afterAll ns) (after_of_none _ hd)
    | some e =>
      obtain ⟨x, type⟩ := e
      have hafter : (d.updateCurrent fun f => { f with inner := t :: f.inner }).after n
          = d.updateCurrent fun f => { f with inner := t.add x type :: f.inner } := by
        cases n <;> cases hd
        cases hc : d.calls <;> simp [after, updateCurrent, hc, Frame.add]
      rw [List.filterMap_cons_some hd]
      refine (congrArg (·.afterAll ns) hafter).trans ?_
      rw [ih]
      simp [Table.add]

lemma afterAll_enter (d : Declared) (ns : List Node) :
    d.enter.afterAll ns = d.updateCurrent fun f =>
      { f with inner := ⟨ns.filterMap Node.declaration?⟩ :: f.inner } :=
  afterAll_open d ns {}

/-- The variables before the body of a function that is called. -/
def call (d : Declared) (parameters : List Node) : Declared :=
  { d with calls := { base := Node.parameterTable parameters } :: d.calls }

end Declared

/-! ## Moments -/

/-- A moment of a run: a node is about to be visited on a machine, from where calls may still nest
`depth` deep. -/
structure Moment where
  depth : Nat
  node : Node
  declared : Declared
  machine : Machine

namespace Node

/-- The part that a node visits before anything else happens. -/
def first? : Node → Option Node
  | .binary _ _ e _ | .negate _ e | .member _ e _ | .declare _ _ _ e | .branch _ e _ _
  | .assign _ _ e | .callStatement _ e | .expressionStatement _ e => some e
  | .giveBack _ e => if e.isPresent then some e else none
  | _ => none

/-- The parts whose values a node collects. -/
def items : Node → List Node
  | .list _ es | .call _ _ es | .construct _ _ es => es
  | _ => []

lemma sizeOf_first? {e : Node} (h : n.first? = some e) : sizeOf e < sizeOf n := by
  cases n with
  | giveBack s e' =>
    cases hp : e'.isPresent with
    | false => simp [first?, hp] at h
    | true =>
      simp only [first?, hp, if_true, Option.some.injEq] at h
      subst h
      simp only [giveBack.sizeOf_spec]
      omega
  | binary | negate | member | declare | branch | assign | callStatement | expressionStatement =>
    cases h
    simp only [binary.sizeOf_spec, negate.sizeOf_spec, member.sizeOf_spec, declare.sizeOf_spec,
      branch.sizeOf_spec, assign.sizeOf_spec, callStatement.sizeOf_spec,
        expressionStatement.sizeOf_spec]
    omega
  | _ => cases h

lemma sizeOf_items {e : Node} (h : e ∈ n.items) : sizeOf e < sizeOf n := by
  have hlt := List.sizeOf_lt_of_mem h
  unfold items at h hlt
  split at h
  all_goals first | (simp at hlt ⊢; omega) | simp at h

lemma sizeOf_between {ns before after : List Node} (h : ns = before ++ n :: after) :
    sizeOf n < sizeOf ns := by
  subst h
  exact List.sizeOf_lt_of_mem (List.mem_append_right _ List.mem_cons_self)

end Node

namespace Run

/-- Visits a tree from where calls may nest `depth` deep. -/
def visitAt (fuel depth : Nat) (n : Node) : Run Unit := visit (bodyAt fuel depth) fuel n

/-- The values of some nodes, from where calls may nest `depth` deep. -/
def valuesAt (fuel depth : Nat) (ns : List Node) : Run (List Ref) :=
  values (bodyAt fuel depth) fuel ns

/-- A loop has gone through some rounds without a return. -/
inductive Rounds (condition : Run Bool) (step : Run Unit) : Nat → Machine → Machine → Prop
  | none (m : Machine) : Rounds condition step 0 m m
  | more {i m m₁ m₂ m₃} (h : Rounds condition step i m m₁) (hc : condition m₁ = .ok true m₂)
      (hs : step m₂ = .ok () m₃) (hr : m₃.returning = none) : Rounds condition step (i + 1) m m₃

end Run

open Run

namespace Moment

/-- What becomes of a moment. -/
def run (fuel : Nat) (c : Moment) : EStateM.Result Stop Machine Unit :=
  visitAt fuel c.depth c.node c.machine

/-- The moments that a moment leads to directly. -/
inductive Enters (fuel : Nat) : Moment → Moment → Prop
  | first {d n e Γ m} (h : n.first? = some e) : Enters fuel ⟨d, n, Γ, m⟩ ⟨d, e, Γ, m⟩
  | item {d n e before after Γ m m' rs} (h : n.items = before ++ e :: after)
      (hb : valuesAt fuel d before m = .ok rs m') : Enters fuel ⟨d, n, Γ, m⟩ ⟨d, e, Γ, m'⟩
  | right {d s op l r Γ m m'} (hl : visitAt fuel d l m = .ok () m')
      (ha : op = .and → (m'.store.get m'.last).isTrue = true) (ho : op = .or →
        (m'.store.get m'.last).isTrue = false) :
      Enters fuel ⟨d, .binary s op l r, Γ, m⟩ ⟨d, r, Γ, m'⟩
  | receiver {d s t o f args Γ m m' rs} (ha : valuesAt fuel d args m = .ok rs m') :
      Enters fuel ⟨d, .call s (.member t o f) args, Γ, m⟩ ⟨d, o, Γ, m'⟩
  | owner {d s t o e f Γ m m'} (he : visitAt fuel d e m = .ok () m') :
      Enters fuel ⟨d, .assign s (.member t o f) e, Γ, m⟩ ⟨d, o, Γ, m'⟩
  | onTrue {d s c a b Γ m m'} (hc : visitAt fuel d c m = .ok () m')
      (ht : (m'.store.get m'.last).isTrue = true) :
      Enters fuel ⟨d, .branch s c a b, Γ, m⟩ ⟨d, a, Γ, m'⟩
  | onFalse {d s c a b Γ m m'} (hc : visitAt fuel d c m = .ok () m')
      (ht : (m'.store.get m'.last).isTrue = false)
      (hb : b.isPresent = true) : Enters fuel ⟨d, .branch s c a b, Γ, m⟩ ⟨d, b, Γ, m'⟩
  | condition {d i s c b Γ m m'} (hi : i < fuel)
      (hr : Rounds (holds (visitAt fuel d c)) (visitAt fuel d b) i m m') :
      Enters fuel ⟨d, .loop s c b, Γ, m⟩ ⟨d, c, Γ, m'⟩
  | round {d i s c b Γ m m₁ m'} (hi : i < fuel)
      (hr : Rounds (holds (visitAt fuel d c)) (visitAt fuel d b) i m m₁)
      (hc : holds (visitAt fuel d c) m₁ = .ok true m') :
        Enters fuel ⟨d, .loop s c b, Γ, m⟩ ⟨d, b, Γ, m'⟩
  | statement {d s n ns before after Γ m m₁ m'} (h : ns = before ++ n :: after)
      (he : enter m = .ok () m₁)
      (hb : visitBlock (bodyAt fuel d) fuel before m₁ = .ok () m') (hr : m'.returning = none) :
      Enters fuel ⟨d, .block s ns, Γ, m⟩ ⟨d, n, Γ.enter.afterAll before, m'⟩
  | body {d s t u id id' returns b args ps Γ m m₁ m₂ m' rs}
      (ha : valuesAt fuel (d + 1) args m = .ok rs m₁)
      (hf : callee id t.start m₁ = .ok (.defined (.define u returns id' ps b)) m₁)
      (hc : pushContext id' s.start m₁ = .ok () m₂) (hp : declareParameters ps rs m₂ = .ok () m') :
      Enters fuel ⟨d + 1, .call s (.name t id) args, Γ, m⟩ ⟨d, b, Γ.call ps, m'⟩
  | top {d s n is ns before after Γ m m₁ m'} (h : ns = before ++ n :: after)
      (hn : n.isDefinition = false)
      (hr : registerAll (Node.program s is ns).definitions m = .ok () m₁)
      (hb : visitTop (bodyAt fuel d) fuel before m₁ = .ok () m') :
      Enters fuel ⟨d, .program s is ns, Γ, m⟩ ⟨d, n, Γ.afterAll before, m'⟩

/-- The moments that come up from a moment on. -/
inductive Reaches (fuel : Nat) : Moment → Moment → Prop
  | here (c : Moment) : Reaches fuel c c
  | step {c c' c'' : Moment} (h : Enters fuel c c') (h' : Reaches fuel c' c'') : Reaches fuel c c''

/-- At the moment a variable is looked up, on this machine: to be read, or to be assigned to when
the value is there. -/
inductive LooksUp (fuel : Nat) : Moment → String → Position → Machine → Prop
  | name (d : Nat) (s : Span) (id : String) (Γ : Declared) (m : Machine) :
      LooksUp fuel ⟨d, .name s id, Γ, m⟩ id s.start m
  | target {d : Nat} (t s : Span) (id : String) {e : Node} (Γ : Declared) {m m' : Machine}
      (h : visitAt fuel d e m = .ok () m') :
        LooksUp fuel ⟨d, .assign t (.name s id) e, Γ, m⟩ id s.start m'

/-- A run stops where it looks up a variable that no scope has. -/
lemma LooksUp.run_eq {fuel : Nat} {c : Moment} {name : String} {p : Position}
    (hc : c.LooksUp fuel name p m)
    (h : m.lookup? name = none) : c.run fuel = .error (.failed (.undeclared name) (some p)) m := by
  cases hc with
  | name d s id Γ m =>
    simp only [Moment.run, visitAt, visit, cellOf, bind_run, get_run, h]
    rfl
  | target t s id Γ hv =>
    unfold visitAt at hv
    simp only [Moment.run, visitAt, visit, valueOf, last, assign, cellOf, bind_run, hv, get_run,
      pure_run, h]
    rfl

/-- Every moment leads to nodes inside of its own, or into a function that is called. -/
lemma Enters.decreases {fuel : Nat} {c c' : Moment} (h : Enters fuel c c') :
    c'.depth < c.depth ∨ c'.depth = c.depth ∧ sizeOf c'.node < sizeOf c.node := by
  cases h with
  | first h => exact .inr ⟨rfl, Node.sizeOf_first? h⟩
  | item h _ => exact .inr ⟨rfl, Node.sizeOf_items (by rw [h]; simp)⟩
  | body => exact .inl (Nat.lt_succ_self _)
  | statement h | top h =>
    have hlt := Node.sizeOf_between h
    refine .inr ⟨rfl, ?_⟩
    simp only [Node.block.sizeOf_spec, Node.program.sizeOf_spec]
    omega
  | _ =>
    refine .inr ⟨rfl, ?_⟩
    simp only [Node.binary.sizeOf_spec, Node.call.sizeOf_spec, Node.member.sizeOf_spec,
      Node.assign.sizeOf_spec,
      Node.branch.sizeOf_spec, Node.loop.sizeOf_spec]
    omega

end Moment

/-! ## Sequences -/

namespace Run

variable {body : Node → Run Unit} {fuel : Nat} {ns ms : List Node}

lemma visit_operation {s : Span} {op : BinaryOp} {left right : Node} (ha : op ≠ .and)
    (ho : op ≠ .or) : visit body fuel (.binary s op left right) = (do
      let l ← valueOf (visit body fuel left)
      let r ← valueOf (visit body fuel right)
      operate op l r s.start) := by
  rw [visit]
  · exact ha
  · exact ho

lemma holds_of_ok {step : Run Unit} {m₁ : Machine} {u : Unit} (h : step m = .ok u m₁) :
    holds step m = .ok (m₁.store.get m₁.last).isTrue m₁ := by
  simp only [holds, valueOf, last, value, bind_run, h, get_run, pure_run]

lemma holds_of_error {step : Run Unit} {m₁ : Machine} {e : Stop} (h : step m = .error e m₁) :
    holds step m = .error e m₁ := by
  simp only [holds, valueOf, bind_run, h]

lemma values_append : ∀ {m m₁ : Machine} {rs : List Ref}, values body fuel ns m = .ok rs m₁ →
    values body fuel (ns ++ ms) m = (do return rs ++ (← values body fuel ms)) m₁ := by
  induction ns with
  | nil =>
    intro m m₁ rs h
    cases h
    simp only [List.nil_append, bind_run, pure_run]
    cases values body fuel ms m <;> rfl
  | cons n ns ih =>
    intro m m₁ rs h
    rw [values] at h
    obtain ⟨r, m₂, hn, h₁⟩ := ok_of_bind h
    obtain ⟨qs, m₃, hns, h₂⟩ := ok_of_bind h₁
    cases h₂
    rw [List.cons_append, values, bind_of_ok hn]
    simp only [bind_run, ih hns, pure_run]
    cases values body fuel ms m₁ <;> rfl

lemma visitBlock_append : ∀ {m m₁ : Machine}, visitBlock body fuel ns m = .ok () m₁ →
    m₁.returning = none → visitBlock body fuel (ns ++ ms) m = visitBlock body fuel ms m₁ := by
  induction ns with
  | nil => intro m m₁ h _; cases h; rfl
  | cons n ns ih =>
    intro m m₁ h hr
    rw [visitBlock] at h
    obtain ⟨_, m₂, hn, h₁⟩ := ok_of_bind h
    rw [List.cons_append, visitBlock, bind_of_ok hn]
    simp only [bind_run, get_run] at h₁ ⊢
    cases hm : m₂.returning with
    | none =>
      simp only [hm, Option.isNone_none, if_true] at h₁ ⊢
      exact ih h₁ hr
    | some r =>
      -- behind a return nothing else is visited, so no return is under way at the end
      simp only [hm] at h₁
      cases h₁
      rw [hm] at hr
      cases hr

lemma visitTop_definition (hn : n.isDefinition = true) (m : Machine) :
    visitTop body fuel (n :: ns) m = visitTop body fuel ns m := by
  rw [visitTop, hn]
  rfl

lemma visitTop_other (hn : n.isDefinition = false) (m : Machine) : visitTop body fuel (n :: ns) m
      = match visit body fuel n m with
        | .ok _ m₁ =>
          if m₁.returning.isSome then .error (.failed .strayReturn (some n.start)) m₁
          else visitTop body fuel ns m₁
        | .error e m₁ => .error e m₁ := by
  rw [visitTop, hn]
  show (visit body fuel n >>= _) m = _
  rw [bind_run]
  cases visit body fuel n m with
  | error e m₁ => rfl
  | ok _ m₁ => cases h : m₁.returning.isSome <;> simp [h, bind_run, fail]

lemma visitTop_append : ∀ {m m₁ : Machine}, visitTop body fuel ns m = .ok () m₁ →
    visitTop body fuel (ns ++ ms) m = visitTop body fuel ms m₁ := by
  induction ns with
  | nil => intro m m₁ h; cases h; rfl
  | cons n ns ih =>
    intro m m₁ h
    rw [List.cons_append]
    cases hn : n.isDefinition with
    | true =>
      rw [visitTop_definition hn] at h ⊢
      exact ih h
    | false =>
      rw [visitTop_other hn] at h ⊢
      split at h
      · split at h
        · cases h
        · rename_i hr
          simp only [hr]
          exact ih h
      · cases h

end Run

/-! ## Stops -/

namespace Moment

variable {fuel d : Nat} {m' : Machine} {e : Stop}

lemma error_of_first {part : Node} (hn : n.first? = some part)
    (h : visitAt fuel d part m = .error e m') : visitAt fuel d n m = .error e m' := by
  unfold visitAt at h ⊢
  cases n with
  | binary s op l r => cases hn; cases op <;> simp only [visit, holds, valueOf, bind_run, h]
  | assign s target v => cases hn; cases target <;> simp only [visit, valueOf, bind_run, h]
  | giveBack s v =>
    simp only [Node.first?] at hn
    split at hn
    · rename_i hp
      cases hn
      simp only [visit, valueOf, hp, if_true, bind_run, h]
    · cases hn
  | negate | member | declare | branch | callStatement | expressionStatement =>
    cases hn
    simp only [visit, holds, valueOf, bind_run, h]
  | _ => cases hn

lemma error_of_items (h : valuesAt fuel d n.items m = .error e m') :
    visitAt fuel d n m = .error e m' := by
  unfold valuesAt at h
  unfold visitAt
  cases n with
  | list s es => simp only [Node.items] at h; simp only [visit, bind_run, h]
  | construct s t es => simp only [Node.items] at h; simp only [visit, bind_run, h]
  | call s t es =>
    simp only [Node.items] at h
    cases t <;> simp only [visit, bind_run, h]
  | _ => simp only [Node.items] at h; cases h

lemma iterate_rounds {c : Run Bool} {b : Run Unit} {i : Nat} (hr : Rounds c b i m m') :
    ∀ j, iterate c b (i + j) m = iterate c b j m' := by
  induction hr with
  | none m => intro j; rw [Nat.zero_add]
  | more _ hc hs hreturn ih =>
    intro j
    rw [Nat.add_right_comm, Nat.add_assoc, ih (j + 1)]
    simp only [iterate, bind_run, hc, if_true, hs, get_run, hreturn, Option.isNone_none]

/-- A stop ends every moment that has led to it. -/
lemma Enters.error {c c' : Moment} (hc : Enters fuel c c') (h : c'.run fuel = .error e m') :
    c.run fuel = .error e m' := by
  unfold Moment.run at h ⊢
  cases hc with
  | first hn => exact error_of_first hn h
  | item hn hb =>
    refine error_of_items ?_
    rw [hn, valuesAt, values_append hb]
    simp only [values, valueOf, bind_run, visitAt] at h ⊢
    rw [h]
  | @right _ _ op _ _ _ _ m₁ hl ha ho =>
    simp only [visitAt] at h hl ⊢
    by_cases hand : op = .and
    · subst hand
      simp only [visit, bind_run, holds_of_ok hl, ha rfl, if_true, holds_of_error h]
    · by_cases hor : op = .or
      · subst hor
        have hfalse := holds_of_ok hl
        rw [ho rfl] at hfalse
        simp only [visit, bind_of_ok hfalse]
        exact bind_of_error (holds_of_error h)
      · rw [visit_operation hand hor]
        simp only [valueOf, last, bind_run, hl, get_run, pure_run, h]
  | receiver ha =>
    simp only [visitAt, valuesAt] at h ha ⊢
    simp only [visit, bind_run, ha, valueOf, h]
  | owner he =>
    simp only [visitAt] at h he ⊢
    simp only [visit, bind_run, he, valueOf, h]
  | onTrue hcond ht =>
    simp only [visitAt] at h hcond ⊢
    simp only [visit, bind_run, holds_of_ok hcond, ht, if_true, h]
  | onFalse hcond ht hb =>
    simp only [visitAt] at h hcond ⊢
    have hfalse := holds_of_ok hcond
    rw [ht] at hfalse
    simp only [visit, bind_run, hfalse, hb, if_true]
    exact bind_of_error h
  | @condition _ i _ _ _ _ _ _ hi hr =>
    obtain ⟨j, rfl⟩ := Nat.exists_eq_add_of_lt hi
    have hiterate := iterate_rounds hr (j + 1)
    simp only [iterate, bind_run, holds_of_error h] at hiterate
    simp only [visitAt] at hiterate ⊢
    rw [visit]
    exact bind_of_error hiterate
  | @round _ i _ _ _ _ _ _ _ hi hr hcond =>
    obtain ⟨j, rfl⟩ := Nat.exists_eq_add_of_lt hi
    have hiterate := iterate_rounds hr (j + 1)
    simp only [iterate, bind_run, hcond, if_true, h] at hiterate
    simp only [visitAt] at hiterate ⊢
    rw [visit]
    exact bind_of_error hiterate
  | statement hns he hb hr =>
    simp only [visitAt] at h ⊢
    rw [visit, bind_of_ok he, hns]
    refine bind_of_error ?_
    rw [visitBlock_append hb hr, visitBlock]
    exact bind_of_error h
  | body ha hf hpush hp =>
    simp only [visitAt, valuesAt] at h ha ⊢
    rw [visit, bind_of_ok ha, callNamed, bind_of_ok hf]
    simp only [invoke, bind_of_ok hpush, bind_of_ok hp]
    exact bind_of_error h
  | top hns hn hr hb =>
    simp only [visitAt] at h ⊢
    rw [visit, bind_of_ok hr, hns, visitTop_append hb, visitTop_other hn, h]

lemma Reaches.error {c c' : Moment} (hc : Reaches fuel c c') (h : c'.run fuel = .error e m') :
    c.run fuel = .error e m' := by
  induction hc with
  | here => exact h
  | step hc _ ih => exact hc.error (ih h)

end Moment

end AudLang
