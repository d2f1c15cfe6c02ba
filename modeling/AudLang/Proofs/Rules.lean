import AudLang.Proofs.Grammar
import AudLang.Typing.Checker
import Mathlib.Data.List.Forall2
import Mathlib.Data.List.Induction
import Mathlib.Data.List.Nodup
import Mathlib.Logic.Relation

/-!
The rules of typing.

When a checker accepts a tree of the grammar, it has looked at every part of the tree in a state
that can be told from the outside: expressions leave the checker as it is, a declaration adds its
variable to the innermost scope, and every other statement leaves the checker as it found it.
`TypingRule` and `StatementRule` list, one constructor for each rule of the grammar, what the
checker has found out about the parts; `Infers.rule` and `Admits.rule` say that it has always gone
by one of these rules.
-/

namespace AudLang

variable {flaw : TypeFlaw} {expected : Ty}

variable {name : String} {e n : Node} {u : Unit} {t : Ty} {f : Signature} {b s : Span} {k : Checker}
 {ns ps : List Node}

/-! ## Declared types -/

/-- The table with one more variable. -/
def Table.add (t : Table) (name : String) (type : Ty) : Table := ⟨t.entries ++ [(name, type)]⟩

lemma Table.names_add (t : Table) (name : String) (type : Ty) :
    (t.add name type).names = t.names ++ [name] := by
  simp [Table.names, Table.add]

lemma Table.declare_ok {t t' : Table} {type : Ty} (h : t.declare name type = .ok t') :
    name ∉ t.names ∧ t' = t.add name type := by
  unfold Table.declare at h
  split at h
  · cases h
  · rename_i hn
    cases h
    exact ⟨hn, rfl⟩

/-- The wider type can be reached from the other by types each of which accepts the one before. -/
def Ty.Covers (wider t : Ty) : Prop :=
  Relation.ReflTransGen (fun a b => b.accepts a = .ok true) t wider

namespace Node

/-- The type that a node stands for where a type is wanted. -/
def declaredType (n : Node) : Ty :=
  match n.denotedType with
  | .ok t => t
  | .error _ => .absent

lemma IsType.denotedType_eq (h : n.IsType) : n.denotedType = .ok n.declaredType := by
  induction h with
  | simple s hk => rfl
  | list s h ih => rw [Node.declaredType, Node.denotedType, ih]; rfl

/-- The name and the type that a parameter declares. -/
def entry? : Node → Option (String × Ty)
  | .parameter _ t (.plain x) => some (x, t.declaredType)
  | _ => none

/-- The name and the type that a statement declares. -/
def declaration? : Node → Option (String × Ty)
  | .declare _ t x _ => some (x, t.declaredType)
  | _ => none

/-- The variables that the parameters of a function declare. -/
def parameterTable (parameters : List Node) : Table := ⟨parameters.filterMap entry?⟩

end Node

/-! ## The states of a checker -/

namespace Checker

/-- A variable declared in the innermost scope. -/
def add (k : Checker) (name : String) (type : Ty) : Checker :=
  match k.inner with
  | t :: outer => { k with inner := t.add name type :: outer }
  | [] => { k with global := k.global.add name type }

/-- The variables of the innermost scope. -/
def current (k : Checker) : Table := k.inner.headD k.global

/-- The checker behind a statement. -/
def after (k : Checker) : Node → Checker
  | .declare _ type id _ => k.add id type.declaredType
  | _ => k

/-- The checker behind some statements. -/
def afterAll (k : Checker) (statements : List Node) : Checker := statements.foldl after k

/-- The checker at the start of a block. -/
def enter (k : Checker) : Checker := { k with inner := {} :: k.inner }

/-- The checker before the body of a function. -/
def define (k : Checker) (returns : Node) (parameters : List Node) : Checker :=
  { k with returns := returns.declaredType, inner := Node.parameterTable parameters :: k.inner }

@[simp] lemma afterAll_nil (k : Checker) : k.afterAll [] = k := rfl

@[simp] lemma afterAll_cons (k : Checker) (n : Node) (ns : List Node) :
    k.afterAll (n :: ns) = (k.after n).afterAll ns := rfl

lemma afterAll_append (k : Checker) (ns ms : List Node) :
    k.afterAll (ns ++ ms) = (k.afterAll ns).afterAll ms := List.foldl_append

lemma after_of_none (k : Checker) (h : n.declaration? = none) : k.after n = k := by
  cases n <;> first | rfl | cases h

/-- Within a scope, statements change the innermost table only. -/
lemma afterAll_inner (ns : List Node) : ∀ (k : Checker) {t : Table} {outer : List Table},
    k.inner = t :: outer →
    k.afterAll ns = { k with inner := ⟨t.entries ++ ns.filterMap Node.declaration?⟩ :: outer } := by
  induction ns with
  | nil => intro k t outer h; simp [← h]
  | cons n ns ih =>
    intro k t outer h
    cases hd : n.declaration? with
    | none => rw [afterAll_cons, after_of_none k hd, ih k h, List.filterMap_cons_none hd]
    | some e =>
      obtain ⟨x, type⟩ := e
      have hafter : k.after n = { k with inner := t.add x type :: outer } := by
        cases n <;> cases hd
        simp [after, add, h]
      rw [afterAll_cons, hafter, ih _ rfl, List.filterMap_cons_some hd]
      simp [Table.add]

/-- Outside of all scopes, statements change the global table only. -/
lemma afterAll_global (ns : List Node) : ∀ (k : Checker), k.inner = [] →
    k.afterAll ns = { k with global := ⟨k.global.entries ++ ns.filterMap Node.declaration?⟩ } := by
  induction ns with
  | nil => intro k _; simp
  | cons n ns ih =>
    intro k h
    cases hd : n.declaration? with
    | none => rw [afterAll_cons, after_of_none k hd, ih k h, List.filterMap_cons_none hd]
    | some e =>
      obtain ⟨x, type⟩ := e
      have hafter : k.after n = { k with global := k.global.add x type } := by
        cases n <;> cases hd
        simp [after, add, h]
      have hrest := ih { k with global := k.global.add x type } h
      rw [afterAll_cons, hafter, hrest, List.filterMap_cons_some hd]
      simp [Table.add]

/-- The checker gives an expression this type. -/
structure Infers (k : Checker) (n : Node) (t : Ty) : Prop where
  expression : n.IsExpression
  visit : Check.visit n k = .ok t k

/-- The checker gives each argument a type that its parameter accepts. -/
def Suits (k : Checker) (args : List Node) (parameters : List Ty) : Prop :=
  List.Forall₂ (fun a p => ∃ t, k.Infers a t ∧ p.accepts t = .ok true) args parameters

/-- The rules by which expressions get their types. -/
inductive TypingRule (k : Checker) : Node → Ty → Prop
  | int (s : Span) (v : Int) : TypingRule k (.int s v) .int
  | float (s : Span) (v : Float) : TypingRule k (.float s v) .float
  | string (s : Span) (v : String) : TypingRule k (.string s v) .string
  | bool (s : Span) (v : Bool) : TypingRule k (.bool s v) .bool
  | null (s : Span) : TypingRule k (.null s) .null
  | name (s : Span) (id : String) (h : (k.typeOf id).isPresent = true) :
      TypingRule k (.name s id) (k.typeOf id)
  | list (s : Span) (es : List Node) (t : Ty) (h : ∀ e ∈ es, ∃ u, k.Infers e u ∧ t.Covers u) :
      TypingRule k (.list s es) (.list t)
  | logical (s : Span) {op left right l r} (ho : op = .and ∨ op = .or) (hl : k.Infers left l)
      (hr : k.Infers right r)
      (hlb : Ty.bool.accepts l = .ok true) (hrb : Ty.bool.accepts r = .ok true) :
      TypingRule k (.binary s op left right) .bool
  | operation (s : Span) {op left right l r t} (ha : op ≠ .and) (ho : op ≠ .or)
      (hl : k.Infers left l)
      (hr : k.Infers right r) (h : Check.operation op l r = .ok (some t)) :
        TypingRule k (.binary s op left right) t
  | negateInt (s : Span) {e : Node} {t : Ty} (h : k.Infers e t) (ht : t.hasBase .int = true) :
      TypingRule k (.negate s e) .int
  | negateFloat (s : Span) {e : Node} {t : Ty} (h : k.Infers e t) (ht : t.hasBase .float = true) :
      TypingRule k (.negate s e) .float
  | member (s : Span) {object field t p} (ho : k.Infers object t) (h : t.property? field = some p) :
      TypingRule k (.member s object field) p
  | call (s t : Span) {id : String} {args : List Node} {f : Signature}
      (h : k.functions.get? id = some f)
      (ha : k.Suits args f.parameters) : TypingRule k (.call s (.name t id) args) f.returns
  | method (s t : Span) {object field args u f} (ho : k.Infers object u)
      (h : u.method? field = some f)
      (ha : k.Suits args f.parameters) :
        TypingRule k (.call s (.member t object field) args) f.returns
  | construct (s : Span) {c : Keyword} {a : Node} {t : Ty} (hc : Parser.isConstructor c = true)
      (h : k.Infers a t)
      (ht : Ty.string.accepts t = .ok true) :
        TypingRule k (.construct s c.spelling [a]) (.named c.spelling .absent)

end Checker

/-! ## Expressions -/

lemma Node.IsExpression.isPresent {n : Node} (h : n.IsExpression) : n.isPresent = true := by
  cases h <;> rfl

namespace Check

variable {α β : Type} {a : α} {k' : Checker}

/-- A question that has been answered, and what was done with the answer. -/
lemma ask_ok {r : Except Fault β} {f : β → Check α} (h : (ask r >>= f) k = .ok a k') :
    ∃ b, r = .ok b ∧ f b k = .ok a k' := by
  cases r with
  | ok b => exact ⟨b, rfl, h⟩
  | error f => cases h

lemma not_flag_ok : flag flaw n k ≠ .ok a k' := by
  intro h
  unfold flag at h
  cases hs : n.span? with
  | some s => rw [hs] at h; cases h
  | none => rw [hs] at h; cases h

lemma accepts_of_require {actual : Ty} (h : require expected actual flaw n k = .ok u k') :
    expected.accepts actual = .ok true ∧ k' = k := by
  obtain ⟨b, haccepts, hb⟩ := ask_ok h
  cases b with
  | true => cases hb; exact ⟨haccepts, rfl⟩
  | false => exact absurd hb not_flag_ok

lemma require_ok {actual : Ty} {f : Unit → Check α}
    (h : (require expected actual flaw n >>= f) k = .ok a k') :
    expected.accepts actual = .ok true ∧ f () k = .ok a k' := by
  obtain ⟨_, k₁, hrequire, h₁⟩ := ok_of_bind h
  obtain ⟨haccepts, rfl⟩ := accepts_of_require hrequire
  exact ⟨haccepts, h₁⟩

lemma typed_ok {x : Check Ty} (h : typed n x k = .ok t k') : x k = .ok t k' := by
  unfold typed at h
  split at h
  · exact absurd h not_flag_ok
  · obtain ⟨u, k₁, hu, h⟩ := ok_of_bind h
    split at h
    · cases h; exact hu
    · exact absurd h not_flag_ok

lemma join_ok {i : Nat} {soFar u : Ty} (h : join n i soFar t k = .ok u k') :
    k' = k ∧ u.Covers soFar ∧ u.Covers t := by
  obtain ⟨b, hkeeps, hb⟩ := ask_ok h
  cases b with
  | true => cases hb; exact ⟨rfl, .refl, .single hkeeps⟩
  | false =>
    obtain ⟨c, hwidens, hc⟩ := ask_ok hb
    cases c with
    | true => cases hc; exact ⟨rfl, .single hwidens, .refl⟩
    | false => exact absurd hc not_flag_ok

lemma property_ok {object : Node} {p : Ty} {field : String}
    (h : property n object t field k = .ok p k') : k' = k ∧ t.property? field = some p := by
  unfold property at h
  split at h
  · exact absurd h not_flag_ok
  · cases hp : t.property? field with
    | some q => rw [hp] at h; cases h; exact ⟨rfl, rfl⟩
    | none => rw [hp] at h; exact absurd h not_flag_ok

lemma method_ok {object : Node} (h : method n object t name k = .ok f k') :
    k' = k ∧ t.method? name = some f := by
  unfold method at h
  split at h
  · exact absurd h not_flag_ok
  · cases hf : t.method? name with
    | some g => rw [hf] at h; cases h; exact ⟨rfl, rfl⟩
    | none => rw [hf] at h; exact absurd h not_flag_ok

lemma function_ok (h : function n name k = .ok f k') : k' = k ∧ k.functions.get? name = some f := by
  unfold function at h
  simp only [bind_run, get_run] at h
  cases hf : k.functions.get? name with
  | some g => rw [hf] at h; cases h; exact ⟨rfl, rfl⟩
  | none => rw [hf] at h; exact absurd h not_flag_ok

lemma binary_ok {op : BinaryOp} {left right : Node} {l r : Ty} (hl : k.Infers left l)
    (hr : k.Infers right r)
    (h : binary n op left right l r k = .ok t k') :
    k' = k ∧ k.TypingRule (.binary s op left right) t := by
  by_cases hop : op = .and ∨ op = .or
  · -- both operands must be truth values
    have h' : (do
        require .bool l (.badLeft op l) left
        require .bool r (.badRight op r) right
        return Ty.bool : Check Ty) k = .ok t k' := by
      rcases hop with rfl | rfl <;> exact h
    obtain ⟨hlb, h₁⟩ := require_ok h'
    obtain ⟨hrb, h₂⟩ := require_ok h₁
    cases h₂
    exact ⟨rfl, .logical s hop hl hr hlb hrb⟩
  · obtain ⟨hand, hor⟩ := not_or.mp hop
    unfold binary at h
    split at h
    · exact absurd rfl hand
    · exact absurd rfl hor
    · obtain ⟨o, ho, h₁⟩ := ask_ok h
      cases o with
      | some u => cases h₁; exact ⟨rfl, .operation s hand hor hl hr ho⟩
      | none => exact absurd h₁ not_flag_ok

/-- The expression leaves the checker that accepts it as it is. -/
def Preserves (n : Node) : Prop :=
  n.IsExpression ∧ ∀ {k t k'}, visit n k = .ok t k' → k' = k

lemma Preserves.infers (hn : Preserves n) {f : Ty → Check α}
    (h : (typed n (visit n) >>= f) k = .ok a k') : ∃ t, k.Infers n t ∧ f t k = .ok a k' := by
  obtain ⟨t, k₁, htyped, h₁⟩ := ok_of_bind h
  have hv := typed_ok htyped
  obtain rfl := hn.2 hv
  exact ⟨t, ⟨hn.1, hv⟩, h₁⟩

lemma elements_ok {es : List Node} : ∀ {i : Nat} {soFar t : Ty}, (∀ e ∈ es, Preserves e) →
    elements i soFar es k = .ok t k' →
    k' = k ∧ t.Covers soFar ∧ ∀ e ∈ es, ∃ u, k.Infers e u ∧ t.Covers u := by
  induction es with
  | nil => intro i soFar t _ h; cases h; exact ⟨rfl, .refl, by simp⟩
  | cons e es ih =>
    intro i soFar t hes h
    rw [elements] at h
    obtain ⟨u, hu, h₁⟩ := (hes e List.mem_cons_self).infers h
    obtain ⟨v, k₂, hjoin, h₂⟩ := ok_of_bind h₁
    obtain ⟨rfl, hsoFar, hvu⟩ := join_ok hjoin
    obtain ⟨rfl, htv, hrest⟩ := ih (fun e he => hes e (List.mem_cons_of_mem _ he)) h₂
    refine ⟨rfl, hsoFar.trans htv, fun e' he' => ?_⟩
    rcases List.mem_cons.mp he' with rfl | he'
    · exact ⟨u, hu, hvu.trans htv⟩
    · exact hrest e' he'

lemma arguments_ok {called : Except Fault String} {args : List Node} :
    ∀ {i : Nat} {ps : List Ty} {u : Unit}, (∀ a ∈ args, Preserves a) → args.length = ps.length →
    arguments called i args ps k = .ok u k' → k' = k ∧ k.Suits args ps := by
  induction args with
  | nil =>
    intro i ps u _ hl h
    obtain rfl : ps = [] := List.length_eq_zero_iff.mp hl.symm
    cases h
    exact ⟨rfl, .nil⟩
  | cons a args ih =>
    intro i ps u hargs hl h
    cases ps with
    | nil => simp at hl
    | cons p ps =>
      rw [arguments] at h
      obtain ⟨t, ht, h₁⟩ := (hargs a List.mem_cons_self).infers h
      obtain ⟨b, haccepts, h₂⟩ := ask_ok h₁
      cases b with
      | true =>
        obtain ⟨rfl, hrest⟩ := ih (fun a ha => hargs a (List.mem_cons_of_mem _ ha))
          (by simpa using hl) h₂
        exact ⟨rfl, .cons ⟨t, ht, haccepts⟩ hrest⟩
      | false =>
        obtain ⟨_, _, _, h₃⟩ := ok_of_bind h₂
        obtain ⟨_, _, hflag, _⟩ := ok_of_bind h₃
        exact absurd hflag not_flag_ok

/-- Expressions leave the checker that accepts them as it is, and it has gone by one of the
rules. -/
lemma visit_expression (hn : n.IsExpression) : ∀ {k k' : Checker} {t : Ty},
    visit n k = .ok t k' → k' = k ∧ k.TypingRule n t := by
  induction hn with
  | int s hv => intro k k' t h; cases h; exact ⟨rfl, .int _ _⟩
  | float s v => intro k k' t h; cases h; exact ⟨rfl, .float _ _⟩
  | string s v => intro k k' t h; cases h; exact ⟨rfl, .string _ _⟩
  | bool s v => intro k k' t h; cases h; exact ⟨rfl, .bool _ _⟩
  | null s => intro k k' t h; cases h; exact ⟨rfl, .null _⟩
  | name s id =>
    intro k k' t h
    rw [visit] at h
    simp only [bind_run, get_run] at h
    split at h
    · rename_i hp
      cases h
      exact ⟨rfl, .name s id hp⟩
    · exact absurd h not_flag_ok
  | list s hes ih =>
    intro k k' t h
    rename_i es
    cases es with
    | nil => cases h; exact ⟨rfl, .list s [] .null (by simp)⟩
    | cons e es =>
      have hp : ∀ e' ∈ e :: es, Preserves e' := fun e' he' =>
        ⟨hes e' he', fun h => (ih e' he' h).1⟩
      rw [visit] at h
      obtain ⟨u, hu, h₁⟩ := (hp e List.mem_cons_self).infers h
      obtain ⟨v, k₂, helements, h₂⟩ := ok_of_bind h₁
      obtain ⟨rfl, hcovers, hrest⟩ :=
        elements_ok (fun e he => hp e (List.mem_cons_of_mem _ he)) helements
      cases h₂
      refine ⟨rfl, .list s _ v fun e' he' => ?_⟩
      rcases List.mem_cons.mp he' with rfl | he'
      · exact ⟨u, hu, hcovers⟩
      · exact hrest e' he'
  | binary s op hl hr ihl ihr =>
    intro k k' t h
    rw [visit] at h
    obtain ⟨l, hl, h₁⟩ := Preserves.infers ⟨hl, fun h => (ihl h).1⟩ h
    obtain ⟨r, hr, h₂⟩ := Preserves.infers ⟨hr, fun h => (ihr h).1⟩ h₁
    exact binary_ok hl hr h₂
  | negate s he ih =>
    intro k k' t h
    rw [visit] at h
    obtain ⟨u, hu, h₁⟩ := Preserves.infers ⟨he, fun h => (ih h).1⟩ h
    unfold negation at h₁
    split at h₁
    · cases h₁; exact ⟨rfl, .negateInt s hu ‹_›⟩
    · split at h₁
      · cases h₁; exact ⟨rfl, .negateFloat s hu ‹_›⟩
      · exact absurd h₁ not_flag_ok
  | member s field ho ih =>
    intro k k' t h
    rw [visit] at h
    obtain ⟨u, hu, h₁⟩ := Preserves.infers ⟨ho, fun h => (ih h).1⟩ h
    obtain ⟨rfl, hp⟩ := property_ok h₁
    exact ⟨rfl, .member s hu hp⟩
  | call s t id hargs ih =>
    intro k k' u h
    rw [visit] at h
    obtain ⟨f, k₁, hf, h₁⟩ := ok_of_bind h
    rw [callee] at hf
    obtain ⟨rfl, hf⟩ := function_ok hf
    split at h₁
    · obtain ⟨_, k₂, ha, h₂⟩ := ok_of_bind h₁
      obtain ⟨rfl, ha⟩ := arguments_ok (fun a h => ⟨hargs a h, fun h' => (ih a h h').1⟩) ‹_› ha
      cases h₂
      exact ⟨rfl, .call s t hf ha⟩
    · obtain ⟨_, _, _, h₂⟩ := ok_of_bind h₁
      exact absurd h₂ not_flag_ok
  | method s t field ho hargs iho ih =>
    intro k k' u h
    rw [visit] at h
    obtain ⟨f, k₁, hf, h₁⟩ := ok_of_bind h
    rw [callee] at hf
    obtain ⟨v, hv, hmethod⟩ := Preserves.infers ⟨ho, fun h => (iho h).1⟩ hf
    obtain ⟨rfl, hg⟩ := method_ok hmethod
    split at h₁
    · obtain ⟨_, k₂, ha, h₂⟩ := ok_of_bind h₁
      obtain ⟨rfl, ha⟩ := arguments_ok (fun a h => ⟨hargs a h, fun h' => (ih a h h').1⟩) ‹_› ha
      cases h₂
      exact ⟨rfl, .method s t hv hg ha⟩
    · obtain ⟨_, _, _, h₂⟩ := ok_of_bind h₁
      exact absurd h₂ not_flag_ok
  | construct s hc hargs ih =>
    intro k k' u h
    rename_i c args
    match args with
    | [] => exact absurd h not_flag_ok
    | _ :: _ :: _ => exact absurd h not_flag_ok
    | [a] =>
      rw [visit] at h
      obtain ⟨v, hv, h₁⟩ := Preserves.infers
        ⟨hargs a List.mem_cons_self, fun h => (ih a List.mem_cons_self h).1⟩ h
      obtain ⟨haccepts, h₂⟩ := require_ok h₁
      cases h₂
      exact ⟨rfl, .construct s hc hv haccepts⟩

lemma preserves (hn : n.IsExpression) : Preserves n :=
  ⟨hn, fun h => (visit_expression hn h).1⟩

end Check

/-- The checker goes by the rules of typing. -/
lemma Checker.Infers.rule (h : k.Infers n t) : k.TypingRule n t :=
  (Check.visit_expression h.expression h.visit).2

/-! ## Statements -/

namespace Checker

/-- The checker accepts a statement. -/
structure Admits (k : Checker) (n : Node) : Prop where
  statement : n.IsStatement
  visit : Check.visit n k = .ok .absent (k.after n)

/-- The checker accepts some statements, each behind those before it. -/
def AdmitsAll (k : Checker) : List Node → Prop
  | [] => True
  | n :: ns => k.Admits n ∧ (k.after n).AdmitsAll ns

lemma admitsAll_append {ms : List Node} : ∀ {k : Checker},
    k.AdmitsAll (ns ++ ms) ↔ k.AdmitsAll ns ∧ (k.afterAll ns).AdmitsAll ms := by
  induction ns with
  | nil => simp [AdmitsAll]
  | cons n ns ih => simp [AdmitsAll, ih, and_assoc]

/-- The rules by which statements are accepted. -/
inductive StatementRule (k : Checker) : Node → Prop
  | declare (s : Span) {type value id t} (hv : k.Infers value t)
      (ht : type.declaredType.accepts t = .ok true)
      (hn : id ∉ k.current.names) : StatementRule k (.declare s type id value)
  | assign (s t : Span) {id : String} {value : Node} {u : Ty} (hi : (k.typeOf id).isPresent = true)
      (hv : k.Infers value u) (h : (k.typeOf id).accepts u = .ok true) :
        StatementRule k (.assign s (.name t id) value)
  | assignMember (s t : Span) {object value field o v p} (ho : k.Infers object o)
      (hp : o.property? field = some p)
      (hv : k.Infers value v) : StatementRule k (.assign s (.member t object field) value)
  | call (s : Span) {e : Node} {t : Ty} (h : k.Infers e t) : StatementRule k (.callStatement s e)
  | expression (s : Span) {e : Node} {t : Ty} (h : k.Infers e t) :
      StatementRule k (.expressionStatement s e)
  | giveBack (s : Span) (hp : k.returns.isPresent = true) (h : k.returns.accepts .void = .ok true) :
      StatementRule k (.giveBack s .missing)
  | giveBackValue (s : Span) {e : Node} {t : Ty} (hp : k.returns.isPresent = true)
      (he : k.Infers e t) (h : k.returns.accepts t = .ok true) : StatementRule k (.giveBack s e)
  | branch (s b : Span) {c : Node} {body : List Node} {t : Ty} (hc : k.Infers c t)
      (ht : Ty.bool.accepts t = .ok true)
      (hb : k.enter.AdmitsAll body) : StatementRule k (.branch s c (.block b body) .missing)
  | branchElse (s b b' : Span) {c body other t} (hc : k.Infers c t)
      (ht : Ty.bool.accepts t = .ok true)
      (hb : k.enter.AdmitsAll body) (ho : k.enter.AdmitsAll other) :
      StatementRule k (.branch s c (.block b body) (.block b' other))
  | loop (s b : Span) {c : Node} {body : List Node} {t : Ty} (hc : k.Infers c t)
      (ht : Ty.bool.accepts t = .ok true)
      (hb : k.enter.AdmitsAll body) : StatementRule k (.loop s c (.block b body))
  | define (s b : Span) {returns id parameters body} (ht : returns.IsType)
      (hp : ∀ p ∈ parameters, p.IsParameter)
      (hn : (Node.parameterTable parameters).names.Nodup)
        (hb : (k.define returns parameters).enter.AdmitsAll body) :
      StatementRule k (.define s returns id parameters (.block b body))

end Checker

namespace Check

variable {k' : Checker}

lemma declare_ok {name : String} {type : Ty} {p : Position} {u : Unit}
    (h : declare name type p k = .ok u k') : name ∉ k.current.names ∧ k' = k.add name type := by
  simp only [declare, bind_run, get_run] at h
  cases hi : k.inner with
  | cons t outer =>
    simp only [hi] at h
    cases ht : t.declare name type with
    | error flaw => simp [ht, bind_run] at h
    | ok t' =>
      obtain ⟨hn, rfl⟩ := Table.declare_ok ht
      simp only [ht, bind_run, pure_run, set_run] at h
      cases h
      exact ⟨by simpa [Checker.current, hi] using hn, by simp [Checker.add, hi]⟩
  | nil =>
    simp only [hi] at h
    cases ht : k.global.declare name type with
    | error flaw => simp [ht, bind_run] at h
    | ok t' =>
      obtain ⟨hn, rfl⟩ := Table.declare_ok ht
      simp only [ht, bind_run, pure_run, set_run] at h
      cases h
      exact ⟨by simpa [Checker.current, hi] using hn, by simp [Checker.add, hi]⟩

/-- The names of parameters are declared one after the other, and no name twice. -/
lemma declareAll_ok : ∀ {k : Checker} {t : Table} {outer : List Table} {u : Unit},
    (∀ p ∈ ps, p.IsParameter) → k.inner = t :: outer → t.names.Nodup →
    declareAll ps k = .ok u k' →
    k' = { k with inner := ⟨t.entries ++ ps.filterMap Node.entry?⟩ :: outer } ∧
      (⟨t.entries ++ ps.filterMap Node.entry?⟩ : Table).names.Nodup := by
  induction ps with
  | nil =>
    intro k t outer u _ hi hn h
    cases h
    exact ⟨by simp [← hi], by simpa using hn⟩
  | cons p ps ih =>
    intro k t outer u hp hi hn h
    obtain ⟨s, id, hty⟩ := hp p List.mem_cons_self
    rename_i type
    rw [declareAll] at h
    obtain ⟨v, hv, h₁⟩ := ask_ok h
    have hv' : v = type.declaredType := by
      have := hty.denotedType_eq
      simp only [Node.parameterType, this] at hv
      cases hv
      rfl
    obtain ⟨_, k₂, hdeclare, h₂⟩ := ok_of_bind h₁
    obtain ⟨hfresh, rfl⟩ := declare_ok hdeclare
    have hfresh' : id ∉ t.names := by simpa [Checker.current, hi] using hfresh
    have hnames : (t.add id v).names.Nodup := by
      rw [Table.names_add, ← List.concat_eq_append]
      exact List.Nodup.concat hfresh' hn
    have hinner : (k.add id v).inner = t.add id v :: outer := by simp [Checker.add, hi]
    obtain ⟨rfl, hnodup⟩ := ih (fun p h => hp p (List.mem_cons_of_mem _ h)) hinner hnames h₂
    have hentries : (t.add id v).entries ++ ps.filterMap Node.entry?
        = t.entries ++ (Node.parameter s type (.plain id) :: ps).filterMap Node.entry? := by
      simp [Table.add, Node.entry?, hv']
    rw [hentries] at hnodup
    exact ⟨by rw [hentries]; simp [Checker.add, hi], hnodup⟩

/-- The statement leaves the checker that accepts it behind itself. -/
def Advances (n : Node) : Prop :=
  n.IsStatement ∧ ∀ {k t k'}, visit n k = .ok t k' → t = .absent ∧ k' = k.after n

lemma visitAll_ok : ∀ {k : Checker} {u : Unit}, (∀ n ∈ ns, Advances n) → visitAll ns k = .ok u k' →
    k' = k.afterAll ns ∧ k.AdmitsAll ns := by
  induction ns with
  | nil => intro k u _ h; cases h; exact ⟨rfl, trivial⟩
  | cons n ns ih =>
    intro k u hns h
    obtain ⟨hn, hvisit⟩ := hns n List.mem_cons_self
    rw [visitAll] at h
    obtain ⟨_, k₁, hdiscard, h₁⟩ := ok_of_bind h
    obtain ⟨t, k₂, hv, hd⟩ := ok_of_bind hdiscard
    cases hd
    obtain ⟨rfl, rfl⟩ := hvisit hv
    obtain ⟨hk, hrest⟩ := ih (fun n h => hns n (List.mem_cons_of_mem _ h)) h₁
    exact ⟨hk, ⟨hn, hv⟩, hrest⟩

lemma block_ok (hns : ∀ n ∈ ns, Advances n)
    (h : visit (.block b ns) k = .ok t k') : k' = k ∧ k.enter.AdmitsAll ns := by
  rw [visit] at h
  obtain ⟨_, k₁, henter, h₁⟩ := ok_of_bind h
  cases henter
  obtain ⟨_, k₂, hall, h₂⟩ := ok_of_bind h₁
  obtain ⟨rfl, hadmits⟩ := visitAll_ok hns hall
  obtain ⟨_, k₃, hexit, h₃⟩ := ok_of_bind h₂
  have hinner := Checker.afterAll_inner ns k.enter rfl
  change exit (k.enter.afterAll ns) = .ok () k₃ at hexit
  rw [hinner] at hexit
  cases hexit
  cases h₃
  exact ⟨rfl, hadmits⟩

lemma discarded_block_ok (hns : ∀ n ∈ ns, Advances n)
    (h : discard (visit (.block b ns)) k = .ok u k') : k' = k ∧ k.enter.AdmitsAll ns := by
  obtain ⟨_, k₁, hblock, hd⟩ := ok_of_bind h
  cases hd
  exact block_ok hns hblock

/-- A part whose type is required to be accepted by another. -/
lemma required_ok {at_ : Node} {flaw : Ty → TypeFlaw} {rest : Check α} (he : e.IsExpression)
    (h : (do
      let t ← typed e (visit e)
      require expected t (flaw t) at_
      rest) k = .ok a k') : ∃ t, k.Infers e t ∧ expected.accepts t = .ok true ∧
        rest k = .ok a k' := by
  obtain ⟨t, ht, h₁⟩ := (preserves he).infers h
  exact ⟨t, ht, require_ok h₁⟩

/-- A return stands in a function, and what is returned is looked at there. -/
lemma giveBack_ok (h : visit (.giveBack s e) k = .ok t k') : k.returns.isPresent = true ∧
      (if e.isPresent = true then do
        let t ← typed e (visit e)
        let k ← get
        require k.returns t (.badReturn k.returns t) (.giveBack s e)
        return Ty.absent
      else do
        let k ← get
        require k.returns .void (.badReturn k.returns .void) (.giveBack s e)
        return Ty.absent : Check Ty) k = .ok t k' := by
  rw [visit] at h
  obtain ⟨_, _, hget, h₁⟩ := ok_of_bind h
  cases hget
  by_cases hp : k.returns.isPresent = true
  · simp only [hp, if_true, pure_bind] at h₁
    exact ⟨hp, h₁⟩
  · simp only [hp] at h₁
    obtain ⟨_, _, hflag, _⟩ := ok_of_bind h₁
    exact absurd hflag not_flag_ok

lemma define_ok {returns : Node} {body : List Node} {id : String} (ht : returns.IsType)
    (hp : ∀ p ∈ ps, p.IsParameter) (hbody : ∀ n ∈ body, Advances n)
    (h : visit (.define s returns id ps (.block b body)) k = .ok t k') :
    (t = .absent ∧ k' = k) ∧ (Node.parameterTable ps).names.Nodup ∧
      (k.define returns ps).enter.AdmitsAll body := by
  rw [visit] at h
  obtain ⟨_, _, hget, h₁⟩ := ok_of_bind h
  cases hget
  obtain ⟨promised, hpromised, h₂⟩ := ask_ok h₁
  rw [ht.denotedType_eq] at hpromised
  cases hpromised
  obtain ⟨_, _, hmodify, h₃⟩ := ok_of_bind h₂
  cases hmodify
  obtain ⟨_, _, henter, h₄⟩ := ok_of_bind h₃
  cases henter
  obtain ⟨_, k₂, hdeclare, h₅⟩ := ok_of_bind h₄
  obtain ⟨hk₂, hnodup⟩ := declareAll_ok (t := {}) hp rfl (by simp [Table.names]) hdeclare
  have hdefine : k₂ = k.define returns ps := by rw [hk₂]; rfl
  subst hdefine
  obtain ⟨_, k₃, hdiscard, h₆⟩ := ok_of_bind h₅
  obtain ⟨hk₃, hadmits⟩ := discarded_block_ok hbody hdiscard
  subst hk₃
  obtain ⟨_, _, hexit, h₇⟩ := ok_of_bind h₆
  cases hexit
  cases h₇
  exact ⟨⟨rfl, rfl⟩, by simpa [Node.parameterTable] using hnodup, hadmits⟩

/-- A statement that a checker accepts leaves it behind the statement, and it has gone by one of the
rules. -/
lemma visit_statement (hn : n.IsStatement) : ∀ {k k' : Checker} {t : Ty},
    visit n k = .ok t k' → (t = .absent ∧ k' = k.after n) ∧ k.StatementRule n := by
  induction hn with
  | declare s id ht hv he =>
    intro k k' t h
    rw [visit] at h
    obtain ⟨d, hd, h₁⟩ := ask_ok h
    rw [ht.denotedType_eq] at hd
    cases hd
    obtain ⟨u, hu, haccepts, h₂⟩ := required_ok he h₁
    obtain ⟨_, k₄, hdeclare, h₄⟩ := ok_of_bind h₂
    obtain ⟨hfresh, rfl⟩ := declare_ok hdeclare
    cases h₄
    exact ⟨⟨rfl, rfl⟩, .declare s hu haccepts hfresh⟩
  | assign s t id he =>
    intro k k' v h
    rw [visit] at h
    obtain ⟨_, _, hget, h₁⟩ := ok_of_bind h
    cases hget
    by_cases hp : (k.typeOf id).isPresent = true
    · simp only [hp, if_true, pure_bind] at h₁
      obtain ⟨u, hu, haccepts, h₂⟩ := required_ok he h₁
      cases h₂
      exact ⟨⟨rfl, rfl⟩, .assign s t hp hu haccepts⟩
    · simp only [hp] at h₁
      obtain ⟨_, _, hflag, _⟩ := ok_of_bind h₁
      exact absurd hflag not_flag_ok
  | assignMember s t field ho hname he =>
    intro k k' v h
    rw [visit] at h
    obtain ⟨e, hmember, h₁⟩ := (preserves (.member t field ho)).infers h
    obtain ⟨u, hu, haccepts, h₂⟩ := required_ok he h₁
    cases h₂
    cases hmember.rule with
    | member _ ho hp => exact ⟨⟨rfl, rfl⟩, .assignMember s t ho hp hu⟩
  | call s t hc hname =>
    intro k k' v h
    rw [visit] at h
    obtain ⟨_, k₁, hdiscard, h₁⟩ := ok_of_bind h
    obtain ⟨u, k₂, hu, hd⟩ := ok_of_bind hdiscard
    cases hd
    obtain rfl := (preserves hc).2 hu
    cases h₁
    exact ⟨⟨rfl, rfl⟩, .call s ⟨hc, hu⟩⟩
  | expression s he =>
    intro k k' v h
    rw [visit] at h
    obtain ⟨_, k₁, hdiscard, h₁⟩ := ok_of_bind h
    obtain ⟨u, hu, hd⟩ := (preserves he).infers hdiscard
    cases hd
    cases h₁
    exact ⟨⟨rfl, rfl⟩, .expression s hu⟩
  | giveBack s =>
    intro k k' v h
    obtain ⟨hp, h₁⟩ := giveBack_ok h
    obtain ⟨_, _, hget, h₂⟩ := ok_of_bind h₁
    cases hget
    obtain ⟨haccepts, h₃⟩ := require_ok h₂
    cases h₃
    exact ⟨⟨rfl, rfl⟩, .giveBack s hp haccepts⟩
  | giveBackValue s he =>
    intro k k' v h
    obtain ⟨hp, h₁⟩ := giveBack_ok h
    rw [he.isPresent, if_pos rfl] at h₁
    obtain ⟨u, hu, h₂⟩ := (preserves he).infers h₁
    obtain ⟨_, _, hget, h₃⟩ := ok_of_bind h₂
    cases hget
    obtain ⟨haccepts, h₄⟩ := require_ok h₃
    cases h₄
    exact ⟨⟨rfl, rfl⟩, .giveBackValue s hp hu haccepts⟩
  | branch s b hc hb ih =>
    intro k k' v h
    rw [visit] at h
    obtain ⟨u, hu, haccepts, h₁⟩ := required_ok hc h
    obtain ⟨_, k₁, hdiscard, h₂⟩ := ok_of_bind h₁
    obtain ⟨rfl, hadmits⟩ :=
      discarded_block_ok (fun n hn => ⟨hb n hn, fun h => (ih n hn h).1⟩) hdiscard
    cases h₂
    exact ⟨⟨rfl, rfl⟩, .branch s b hu haccepts hadmits⟩
  | branchElse s b b' hc hb ho ih iho =>
    intro k k' v h
    rw [visit] at h
    obtain ⟨u, hu, haccepts, h₁⟩ := required_ok hc h
    obtain ⟨_, k₁, hdiscard, h₂⟩ := ok_of_bind h₁
    obtain ⟨rfl, hadmits⟩ :=
      discarded_block_ok (fun n hn => ⟨hb n hn, fun h => (ih n hn h).1⟩) hdiscard
    obtain ⟨_, k₂, hdiscard', h₃⟩ := ok_of_bind h₂
    obtain ⟨rfl, hadmits'⟩ :=
      discarded_block_ok (fun n hn => ⟨ho n hn, fun h => (iho n hn h).1⟩) hdiscard'
    cases h₃
    exact ⟨⟨rfl, rfl⟩, .branchElse s b b' hu haccepts hadmits hadmits'⟩
  | loop s b hc hb ih =>
    intro k k' v h
    rw [visit] at h
    obtain ⟨u, hu, haccepts, h₁⟩ := required_ok hc h
    obtain ⟨_, k₁, hdiscard, h₂⟩ := ok_of_bind h₁
    obtain ⟨rfl, hadmits⟩ :=
      discarded_block_ok (fun n hn => ⟨hb n hn, fun h => (ih n hn h).1⟩) hdiscard
    cases h₂
    exact ⟨⟨rfl, rfl⟩, .loop s b hu haccepts hadmits⟩
  | define s b id ht hp hb ih =>
    intro k k' v h
    obtain ⟨hk, hnodup, hadmits⟩ :=
      define_ok ht hp (fun n hn => ⟨hb n hn, fun h => (ih n hn h).1⟩) h
    exact ⟨hk, .define s b ht hp hnodup hadmits⟩

lemma advances (hn : n.IsStatement) : Advances n := ⟨hn, fun h => (visit_statement hn h).1⟩

end Check

/-- The checker goes by the rules of typing. -/
lemma Checker.Admits.rule (h : k.Admits n) : k.StatementRule n :=
  (Check.visit_statement h.statement h.visit).2

/-! ## Programs -/

namespace Node

/-- The name and the signature that a definition makes known. -/
def namedSignature? : Node → Option (String × Signature)
  | .define _ returns id parameters _ =>
    some (id, ⟨(parameterTable parameters).entries.map Prod.snd, returns.declaredType⟩)
  | _ => none

lemma parameterTypes_eq (hp : ∀ p ∈ ps, p.IsParameter) :
    ps.mapM Node.parameterType = .ok ((parameterTable ps).entries.map Prod.snd) := by
  induction ps with
  | nil => rfl
  | cons p ps ih =>
    obtain ⟨s, id, ht⟩ := hp p List.mem_cons_self
    have hrest := ih fun p h => hp p (List.mem_cons_of_mem _ h)
    rw [List.mapM_cons, hrest, Node.parameterType, ht.denotedType_eq]
    rfl

lemma IsStatement.signature_eq {returns : Node} {id : String} {body : Node}
    (h : (Node.define s returns id ps body).IsStatement) :
    (Node.define s returns id ps body).signature
      = .ok (id, ⟨(parameterTable ps).entries.map Prod.snd, returns.declaredType⟩, s.start) := by
  cases h with
  | define _ _ _ ht hp _ =>
    rw [Node.signature, parameterTypes_eq hp, ht.denotedType_eq]
    rfl

/-- The definitions that a program of the grammar makes known are those among its statements. -/
lemma definitions_program (s : Span) (ns : List Node) :
    (Node.program s (Parser.definitionIndexes ns) ns).definitions = ns.filter isDefinition := by
  show (Parser.definitionIndexes ns).filterMap (ns[·]?) = _
  induction ns using List.reverseRecOn with
  | nil => rfl
  | append_singleton ns n ih =>
    -- the places before the last one are those of the shorter list
    have hbefore : ∀ i ∈ List.range ns.length, (ns ++ [n])[i]? = ns[i]? := fun i hi =>
      List.getElem?_append_left (List.mem_range.mp hi)
    have hfilter : (List.range ns.length).filter (fun i => ((ns ++ [n])[i]?).any isDefinition)
        = Parser.definitionIndexes ns :=
      List.filter_congr fun i hi => by rw [hbefore i hi]
    have hmap : (Parser.definitionIndexes ns).filterMap ((ns ++ [n])[·]?)
        = ns.filter isDefinition := by
      rw [← ih]
      exact List.filterMap_congr fun i hi => hbefore i (List.mem_filter.mp hi).1
    have hindexes : Parser.definitionIndexes (ns ++ [n])
        = Parser.definitionIndexes ns ++ if n.isDefinition then [ns.length] else [] := by
      unfold Parser.definitionIndexes at hfilter ⊢
      rw [List.length_append, List.length_singleton, List.range_succ, List.filter_append, hfilter]
      simp [List.filter_cons]
    rw [hindexes, List.filterMap_append, hmap, List.filter_append]
    cases hn : n.isDefinition <;> simp [hn]

end Node

/-- The names of the functions that are known. -/
def Functions.names (f : Functions) : List String := f.entries.map Prod.fst

lemma Functions.get?_isSome_iff (f : Functions) (name : String) :
    (f.get? name).isSome = true ↔ name ∈ f.names := by
  simp [Functions.get?, Functions.names, List.lookup_isSome_iff]

/-- The functions with one more. -/
def Functions.add (f : Functions) (name : String) (s : Signature) : Functions :=
  ⟨f.entries ++ [(name, s)]⟩

lemma Functions.nodup_add {f : Functions} (hf : f.names.Nodup) (hn : name ∉ f.names)
    (s : Signature) : (f.add name s).names.Nodup := by
  have hnames : (f.add name s).names = f.names.concat
    name := by simp [Functions.names, Functions.add]
  rw [hnames]
  exact List.Nodup.concat hn hf

/-- The functions known once some definitions are. -/
def Functions.knowing (f : Functions) (ds : List Node) : Functions :=
  ⟨f.entries ++ ds.filterMap Node.namedSignature?⟩

namespace Check

variable {k' : Checker}

lemma register_ok {p : Position} (h : register name f p k = .ok u k') : name ∉ k.functions.names ∧
      k' = { k with functions := k.functions.add name f } := by
  simp only [register, bind_run, get_run, Functions.register] at h
  by_cases hn : (k.functions.get? name).isSome = true
  · simp [hn] at h
  · simp only [hn] at h
    cases h
    exact ⟨fun h => hn ((Functions.get?_isSome_iff _ _).mpr h), rfl⟩

lemma registerAll_ok {ds : List Node} : ∀ {k : Checker} {u : Unit},
    (∀ d ∈ ds, d.IsStatement ∧ d.isDefinition = true) → k.functions.names.Nodup →
    registerAll ds k = .ok u k' →
    k' = { k with functions := k.functions.knowing ds } ∧ k'.functions.names.Nodup := by
  induction ds with
  | nil =>
    intro k u _ hn h
    cases h
    exact ⟨by simp [Functions.knowing], hn⟩
  | cons d ds ih =>
    intro k u hds hn h
    obtain ⟨hd, hdef⟩ := hds d List.mem_cons_self
    match d, hd, hdef with
    | .define s returns id ps body, hd, _ =>
      rw [registerAll, hd.signature_eq] at h
      obtain ⟨_, _, hask, h₁⟩ := ok_of_bind h
      cases hask
      obtain ⟨_, k₁, hregister, h₂⟩ := ok_of_bind h₁
      obtain ⟨hfresh, rfl⟩ := register_ok hregister
      have hnames := Functions.nodup_add hn hfresh
        ⟨(Node.parameterTable ps).entries.map Prod.snd, returns.declaredType⟩
      obtain ⟨rfl, hnodup⟩ := ih (fun d h => hds d (List.mem_cons_of_mem _ h)) hnames h₂
      exact ⟨by simp [Functions.knowing, Functions.add, Node.namedSignature?], hnodup⟩

/-- What a checker that has printed nothing has found out about a program. -/
lemma program_ok {program : Node} (hp : program.IsProgram)
    (h : (({} : Checker).check program).1 = "") :
    ∃ s ns, program = .program s (Parser.definitionIndexes ns) ns ∧
      (Functions.builtin.knowing (ns.filter Node.isDefinition)).names.Nodup ∧
      ({ functions := .knowing .builtin (ns.filter Node.isDefinition) } : Checker).AdmitsAll
        ns := by
  obtain ⟨s, hns⟩ := hp
  rename_i ns
  refine ⟨s, ns, rfl, ?_⟩
  unfold Checker.check at h
  split at h
  · rename_i k' hok
    rw [Check.program, Node.definitions_program] at hok
    obtain ⟨_, k₁, hregister, h₁⟩ := ok_of_bind hok
    obtain ⟨rfl, hnodup⟩ := registerAll_ok
      (fun d hd => ⟨hns d (List.mem_filter.mp hd).1, (List.mem_filter.mp hd).2⟩) (by decide)
        hregister
    obtain ⟨_, k₂, hvisit, _⟩ := ok_of_bind h₁
    exact ⟨hnodup, (visitAll_ok (fun n hn => ⟨hns n hn, fun h => (visit_statement (hns n hn) h).1⟩)
      hvisit).2⟩
  · -- a report is a line of its own
    simp at h

end Check

/-! ## Places in a tree -/

namespace Node

/-- The nodes that a node is put together from. -/
def parts : Node → List Node
  | .list _ es | .construct _ _ es => es
  | .binary _ _ a b => [a, b]
  | .negate _ e | .member _ e _ | .listType _ _ e | .giveBack _ e | .callStatement _ e
  | .expressionStatement _ e | .parameter _ e _ => [e]
  | .call _ target args => target :: args
  | .block _ ns | .program _ _ ns => ns
  | .declare _ t _ e | .assign _ t e => [t, e]
  | .branch _ c a b => [c, a, b]
  | .loop _ c b => [c, b]
  | .define _ returns _ parameters body => returns :: body :: parameters
  | _ => []

lemma sizeOf_parts (h : e ∈ n.parts) : sizeOf e < sizeOf n := by
  have hmem : ∀ {ns : List Node}, e ∈ ns → sizeOf e < sizeOf ns := List.sizeOf_lt_of_mem
  cases n with
  | list s es | construct s t es | block s es | program s is es =>
    have hlt : sizeOf e < sizeOf es := hmem h
    simp only [list.sizeOf_spec, construct.sizeOf_spec, block.sizeOf_spec, program.sizeOf_spec]
    omega
  | call s target args =>
    rw [call.sizeOf_spec]
    rcases List.mem_cons.mp h with rfl | h
    · omega
    · have hlt := hmem h
      omega
  | define s returns id ps body =>
    rw [define.sizeOf_spec]
    rcases List.mem_cons.mp h with rfl | h
    · omega
    rcases List.mem_cons.mp h with rfl | h
    · omega
    · have hlt := hmem h
      omega
  | _ =>
    simp only [parts, List.mem_cons, List.not_mem_nil, or_false] at h
    all_goals
      rcases h with rfl | rfl | rfl
      all_goals
        simp
        try omega

/-- The node stands somewhere in a tree. -/
def Within (n tree : Node) : Prop := Relation.ReflTransGen (fun a b => a ∈ b.parts) n tree

end Node

namespace Checker

/-- Some statements, each with the checker that comes to it. -/
def along (k : Checker) : List Node → List (Checker × Node)
  | [] => []
  | n :: ns => (k, n) :: (k.after n).along ns

/-- The parts of a node, each with the checker that comes to it. -/
def below (k : Checker) : Node → List (Checker × Node)
  | .block _ ns => k.enter.along ns
  | .define _ returns _ parameters body => [(k.define returns parameters, body)]
  | n@(.program _ _ ns) => { k with functions := k.functions.knowing n.definitions }.along ns
  | n => n.parts.map (k, ·)

/-- On its way through a tree, from one node the checker comes to another. -/
def Comes (p q : Checker × Node) : Prop :=
  Relation.ReflTransGen (fun p q => q ∈ p.1.below p.2) p q

lemma mem_along : ∀ {k k' : Checker} {n : Node},
    (k', n) ∈ k.along ns ↔ ∃ before after, ns = before ++ n :: after ∧ k' = k.afterAll before := by
  induction ns with
  | nil => simp [along]
  | cons m ns ih =>
    intro k k' n
    simp only [along, List.mem_cons, ih]
    constructor
    · rintro (h | ⟨before, after, rfl, rfl⟩)
      · cases h
        exact ⟨[], ns, rfl, rfl⟩
      · exact ⟨m :: before, after, rfl, rfl⟩
    · rintro ⟨before, after, h, rfl⟩
      cases before with
      | nil => cases h; exact .inl rfl
      | cons _ before => cases h; exact .inr ⟨before, after, rfl, rfl⟩

lemma mem_parts_of_mem_below {k' : Checker} {n' : Node} (h : (k', n') ∈ k.below n) :
    n' ∈ n.parts := by
  cases n with
  | block s ns =>
    obtain ⟨before, after, rfl, -⟩ := mem_along.mp h
    simp [Node.parts]
  | program s is ns =>
    obtain ⟨before, after, rfl, -⟩ := mem_along.mp h
    simp [Node.parts]
  | define s returns id ps b =>
    simp only [below, List.mem_singleton, Prod.mk.injEq] at h
    simp [Node.parts, h.2]
  | _ =>
    obtain ⟨e, he, heq⟩ := List.mem_map.mp h
    cases heq
    exact he

end Checker

end AudLang
