import AudLang.Proofs.Layers
import AudLang.Proofs.Visits

/-!
Calls and scopes are well nested.

Whatever tree is visited on whatever machine, the scopes and calls that are opened on the way are
closed again, in the reverse order, before the visit ends; all that can be left of it in the layers
of the machine is variables that were declared in the innermost scope.  So there is always a scope
to leave behind a block and a call to leave behind the body of a function.  A visit that stops
leaves open what it had opened by then, on top of what was open before.
-/

namespace AudLang

open Run

variable {x : Run Unit} {body : Node → Run Unit} {a b n : Node}

namespace Run

variable {α β : Type} {m m₁ m' : Machine} {e : Stop}

/-! ## Steps -/

/-- A stop at which everything is open that was open before, and which is not over a scope that is
not there. -/
def StopsAbove (m : Machine) (e : Stop) (m' : Machine) : Prop :=
  Layers.Rises m.layers m'.layers ∧ e ≠ .fault .unbalanced

namespace StopsAbove

lemma of_layers (h : m'.layers = m.layers) (he : e ≠ .fault .unbalanced) : StopsAbove m e m' :=
  ⟨.of_grown (Machine.grown_nil_iff.mpr h), he⟩

lemma after_grown {xs : List String} (h : m.Grown m₁ xs) (h' : StopsAbove m₁ e m') :
    StopsAbove m e m' :=
  ⟨h'.1.after_grown h, h'.2⟩

lemma after_layers (h : m₁.layers = m.layers) (h' : StopsAbove m₁ e m') : StopsAbove m e m' :=
  h'.after_grown (Machine.grown_nil_iff.mpr h)

lemma of_under {scope : List String} (h : m₁.layers = m.layers.modifyHead (·.under [scope]))
    (h' : StopsAbove m₁ e m') : StopsAbove m e m' := by
  have hrises := h'.1
  rw [h] at hrises
  exact ⟨hrises.of_under, h'.2⟩

lemma of_cons {l : Layer} (h : m₁.layers = l :: m.layers) (h' : StopsAbove m₁ e m') :
    StopsAbove m e m' := by
  have hrises := h'.1
  rw [h] at hrises
  exact ⟨hrises.of_cons, h'.2⟩

end StopsAbove

/-- The step may declare variables in the innermost scope; nothing else shows in the layers. -/
structure Grows (x : Run α) : Prop where
  ends : ∀ m, Ends (x m) (fun _ m' => ∃ xs, m.Grown m' xs) (StopsAbove m)

/-- The step leaves the layers as they are and no return under way if there was none. -/
structure KeepsLayers (x : Run α) : Prop where
  ends : ∀ m, Ends (x m)
    (fun _ m' => m'.layers = m.layers ∧ (m.returning = none → m'.returning = none)) (StopsAbove m)

namespace KeepsLayers

lemma of_steady {x : Run α} (h : Steady x) : KeepsLayers x := by
  refine ⟨fun m => (h.ends m).weaken (fun _ m' _ hm => ?_) (fun e m' _ hm => ?_)⟩
  · exact ⟨hm.1, fun hr => hm.2.trans hr⟩
  · exact .of_layers hm.1 hm.2.2

lemma of_quiet {x : Run α} (h : Quiet x) : KeepsLayers x := of_steady (.of_quiet h)

lemma bind {x : Run α} {f : α → Run β} (hx : KeepsLayers x) (hf : ∀ a, KeepsLayers (f a)) :
    KeepsLayers (x >>= f) := by
  refine ⟨fun m => Ends.bind (hx.ends m) fun a m₁ _ h₁ => ?_⟩
  refine ((hf a).ends m₁).weaken (fun _ m' _ h => ?_) (fun e m' _ h => h.after_layers h₁.1)
  exact ⟨h.1.trans h₁.1, fun hr => h.2 (h₁.2 hr)⟩

lemma valueOf {x : Run Unit} (h : KeepsLayers x) : KeepsLayers (valueOf x) :=
  h.bind fun _ => of_quiet plain_last.quiet

lemma holds {x : Run Unit} (h : KeepsLayers x) : KeepsLayers (holds x) :=
  h.valueOf.bind fun _ => (of_quiet plain_value.quiet).bind fun _ => of_quiet (.pure _)

end KeepsLayers

namespace Grows

lemma of_keeps {x : Run α} (h : KeepsLayers x) : Grows x :=
  ⟨fun m => (h.ends m).weaken (fun _ _ _ hm => ⟨[], Machine.grown_nil_iff.mpr hm.1⟩) fun _ _ _ hm =>
    hm⟩

lemma of_steady {x : Run α} (h : Steady x) : Grows x := of_keeps (.of_steady h)

lemma of_quiet {x : Run α} (h : Quiet x) : Grows x := of_keeps (.of_quiet h)

lemma fail (e : RunError) (p : Position) : Grows (Run.fail e p : Run α) := of_steady (.fail e p)

lemma bind {x : Run α} {f : α → Run β} (hx : Grows x) (hf : ∀ a, Grows (f a)) :
    Grows (x >>= f) := by
  refine ⟨fun m => Ends.bind (hx.ends m) fun a m₁ _ h₁ => ?_⟩
  obtain ⟨xs, h₁⟩ := h₁
  refine ((hf a).ends m₁).weaken (fun _ m' _ h => ?_) (fun e m' _ h => h.after_grown h₁)
  obtain ⟨ys, h⟩ := h
  exact ⟨xs ++ ys, h₁.trans h⟩

lemma ite {c : Prop} [Decidable c] {x y : Run α} (hx : Grows x) (hy : Grows y) :
    Grows (if c then x else y) := by
  split
  · exact hx
  · exact hy

lemma valueOf {x : Run Unit} (h : Grows x) : Grows (valueOf x) :=
  h.bind fun _ => of_quiet plain_last.quiet

lemma holds {x : Run Unit} (h : Grows x) : Grows (holds x) :=
  h.valueOf.bind fun _ => (of_quiet plain_value.quiet).bind fun _ => of_quiet (.pure _)

lemma iterate {condition : Run Bool} {step : Run Unit} (hc : Grows condition) (hs : Grows step)
    (fuel : Nat) : Grows (iterate condition step fuel) := by
  induction fuel with
  | zero => exact ⟨fun m => .of_layers rfl (by simp)⟩
  | succ fuel ih =>
    refine hc.bind fun t => .ite ?_ (of_quiet (.pure _))
    exact hs.bind fun _ => (of_quiet quiet_get).bind fun m => .ite ih (of_quiet (.pure _))

end Grows

lemma grows_declare (name : String) (r : Ref) (p : Position) : Grows (declare name r p) :=
  ⟨fun m => (declare_ends name r p m).weaken (fun _ _ _ h => ⟨_, h.1⟩) fun _ _ _ h =>
    .of_layers h.1 h.2.2⟩

/-- From within the scope of a block: the scope is open at a stop, and closed at the end. -/
lemma inScope_ends (hx : Grows x) (h : m₁.layers = m.layers.modifyHead (·.under [[]])) :
    Ends ((do x; exit) m₁) (fun _ m' => m'.layers = m.layers) (StopsAbove m₁) := by
  refine Ends.bind (hx.ends m₁) ?_
  rintro _ m₂ _ ⟨xs, hgrown⟩
  obtain ⟨m', hexit, hlayers, -⟩ := exit_of_under (hgrown.under h)
  rw [hexit]
  exact hlayers

/-- The scope of a block is closed by the time the block ends. -/
lemma scope_ends (hx : Grows x) (m : Machine) :
    Ends ((do enter; x; exit) m) (fun _ m' => m'.layers = m.layers) (StopsAbove m) := by
  obtain ⟨m₁, henter⟩ : ∃ m₁, enter m = .ok () m₁ := ⟨_, rfl⟩
  have hm₁ := (enter_ok henter).1
  rw [bind_of_ok henter]
  exact (inScope_ends hx hm₁).mono_error fun _ _ h => h.of_under hm₁

/-- From within the context of a call: the context is open at a stop, and closed at the end, where
no return is under way. -/
lemma inCall_ends (hx : Grows x) (s : Span) (returns : Node) (id : String) (ps : List Node)
    (args : List Ref)
    {l : Layer} (h : m₁.layers = l :: m.layers) : Ends ((do
        declareParameters ps args
        x
        let returned := (← get).returning
        modify fun m : Machine => { m with returning := none }
        takeReturned id (← ask returns.returnTypeName) s.start returned
        popContext : Run Unit) m₁)
      (fun _ m' => m'.layers = m.layers ∧ m'.returning = none) (StopsAbove m₁) := by
  refine Ends.bind ((declareParameters_ends ps args m₁).weaken (fun _ _ _ h => h) fun e m' _ h =>
    ?_) ?_
  · obtain ⟨⟨xs, hgrown⟩, -, he⟩ := h
    exact ⟨.of_grown hgrown, he⟩
  rintro _ m₂ _ ⟨xs, hm₂⟩
  refine Ends.bind ((hx.ends m₂).weaken (fun _ _ _ h => h) fun e m' _ h => h.after_grown hm₂) ?_
  rintro _ m₃ _ ⟨ys, hm₃⟩
  -- the note of the return is wiped out here, and nothing behind it makes a new one
  have hgrown : m₁.Grown { m₃ with returning := none } (xs ++ ys) := hm₂.trans hm₃
  show Ends ((ask returns.returnTypeName >>= fun type =>
    takeReturned id type s.start m₃.returning >>= fun _ =>
      popContext) { m₃ with returning := none }) _ _
  have hask : Steady (ask returns.returnTypeName) :=
    .of_quiet (.ask returns.balanced_returnTypeName)
  have htake (type : String) : Steady (takeReturned id type s.start m₃.returning) :=
    .of_quiet plain_takeReturned.quiet
  refine Ends.bind ((hask.ends _).weaken (fun _ _ _ h => h) fun e m' _ h =>
    .after_grown hgrown (.of_layers h.1 h.2.2)) fun type m₄ _ h₄ => ?_
  have hgrown₄ : m₁.Grown m₄ (xs ++ ys) := h₄.1.trans hgrown
  refine Ends.bind (((htake type).ends m₄).weaken (fun _ _ _ h => h) fun e m' _ h =>
    .after_grown hgrown₄ (.of_layers h.1 h.2.2)) fun _ m₅ _ h₅ => ?_
  have hm₅ : m₅.layers = l.add (xs ++ ys) :: m.layers := h₅.1.trans (hgrown₄.cons h)
  obtain ⟨m', hpop, hlayers, hreturning⟩ := popContext_of_cons hm₅
  rw [hpop]
  exact ⟨hlayers, hreturning.trans (h₅.2.trans h₄.2)⟩

/-- The context of a call is closed by the time the call ends, and no return is under way behind
it. -/
lemma keeps_invoke (hb : ∀ n, Grows (body n)) (n : Node) (args : List Ref) (p : Position) :
    KeepsLayers (invoke body n args p) := by
  cases n with
  | define s returns id ps b =>
    refine ⟨fun m => ?_⟩
    refine Ends.bind ((pushContext_ends id p m).weaken (fun _ _ _ h => h.1) fun e m' _ h =>
      .of_layers h.1 h.2.2) fun _ m₁ _ hm₁ => ?_
    exact (inCall_ends (hb b) s returns id ps args hm₁).weaken (fun _ _ _ h => ⟨h.1, fun _ => h.2⟩)
      fun _ _ _ h => h.of_cons hm₁
  | _ =>
    exact (KeepsLayers.of_quiet (.ask (Node.balanced_dump _))).bind fun _ => .of_steady (.fail _ _)

lemma keeps_callNamed (hb : ∀ n, Grows (body n)) (name : String) (args : List Ref)
    (q p : Position) : KeepsLayers (callNamed body name args q p) := by
  refine (KeepsLayers.of_steady steady_callee).bind fun f => ?_
  cases f with
  | builtin b =>
    exact (KeepsLayers.of_quiet plain_callBuiltin.quiet).bind fun r => .of_quiet plain_setLast.quiet
  | defined n => exact keeps_invoke hb n args p

/-! ## All trees -/

variable {fuel : Nat}

lemma composes_keepsLayers : Composes fun _ x _ => KeepsLayers x where
  plain h := .of_quiet h.quiet
  cellOf _ _ := .of_steady steady_cellOf
  bind := .bind

lemma pervades_grows (hb : ∀ n, Grows (body n)) (fuel : Nat) :
    Pervades (fun _ x _ => Grows x) body body fuel fuel where
  plain h := .of_quiet h.quiet
  cellOf _ _ := .of_steady steady_cellOf
  bind := .bind
  declare := grows_declare
  assign _ _ _ := .of_steady steady_assign
  registerAll _ := .of_steady steady_registerAll
  note _ := ⟨fun _ => ⟨[], Machine.grown_nil_iff.mpr rfl⟩⟩
  look h := (Grows.of_quiet quiet_get).bind fun m => h m.returning
  stray p := .fail _ p
  scope h := ⟨fun m => (scope_ends h m).weaken (fun _ _ _ h => ⟨[], Machine.grown_nil_iff.mpr h⟩)
    fun _ _ _ h => h⟩
  iterate hc hx := hc.iterate hx fuel
  call name rs q p := .of_keeps (keeps_callNamed hb name rs q p)

lemma grows_visit (hb : ∀ n, Grows (body n)) (n : Node) : Grows (visit body fuel n) :=
  (pervades_grows hb fuel).visit n

lemma grows_values (hb : ∀ n, Grows (body n)) (ns : List Node) : Grows (values body fuel ns) :=
  @Composes.values _ body body fuel fuel ns (pervades_grows hb fuel).toComposes fun n _ =>
    grows_visit hb n

lemma grows_visitBlock (hb : ∀ n, Grows (body n)) (ns : List Node) :
    Grows (visitBlock body fuel ns) :=
  (pervades_grows hb fuel).visitBlock fun n _ => grows_visit hb n

lemma grows_visitTop (hb : ∀ n, Grows (body n)) (ns : List Node) : Grows (visitTop body fuel ns) :=
  (pervades_grows hb fuel).visitTop fun n _ => grows_visit hb n

lemma grows_bodyAt (fuel depth : Nat) (n : Node) : Grows (bodyAt fuel depth n) := by
  induction depth generalizing n with
  | zero => exact ⟨fun m => .of_layers rfl (by simp)⟩
  | succ depth ih => exact grows_visit ih n

/-! ## Trees of the grammar -/

/-- An expression declares nothing, and no return is under way behind it. -/
lemma keeps_expression (hb : ∀ n, Grows (body n)) (hn : n.IsExpression) :
    KeepsLayers (visit body fuel n) :=
  @Composes.expression _ body body fuel fuel _ composes_keepsLayers
    (fun h => ⟨h.isValued, fun _ he => h.of_mem_operands he⟩)
      (fun _ rs => keeps_callNamed hb _ rs _ _) n hn

end Run

namespace Node

/-- The variables that are declared directly among some statements. -/
def declaredAmong (ns : List Node) : List String := (ns.filterMap declaration?).map Prod.fst

/-- The variables that a tree declares in the scope in which it stands. -/
def declares : Node → List String
  | .declare _ _ id _ => [id]
  | .program _ _ ns => declaredAmong ns
  | _ => []

end Node

namespace Run

variable {fuel : Nat}

/-- If the step ends, it has declared these variables in the innermost scope, and nothing else shows
in the layers. -/
structure Adds (xs : List String) (x : Run α) : Prop where
  ends : ∀ m, Ends (x m) (fun _ m' => m.Grown m' xs) (StopsAbove m)

namespace Adds

variable {xs ys : List String}

lemma of_keeps {x : Run α} (h : KeepsLayers x) : Adds [] x :=
  ⟨fun m => (h.ends m).weaken (fun _ _ _ hm => Machine.grown_nil_iff.mpr hm.1) fun _ _ _ hm => hm⟩

lemma of_quiet {x : Run α} (h : Quiet x) : Adds [] x := of_keeps (.of_quiet h)

lemma bind {x : Run α} {f : α → Run β} (hx : Adds xs x) (hf : ∀ a, Adds ys (f a)) :
    Adds (xs ++ ys) (x >>= f) := by
  refine ⟨fun m => Ends.bind (hx.ends m) fun a m₁ _ h₁ => ?_⟩
  exact ((hf a).ends m₁).weaken (fun _ _ _ h => h₁.trans h) fun _ _ _ h => h.after_grown h₁

/-- A step behind one that declares nothing. -/
lemma after {x : Run α} {f : α → Run β} (hx : Adds [] x) (hf : ∀ a, Adds xs (f a)) :
    Adds xs (x >>= f) :=
  hx.bind hf

lemma scope (hx : Grows x) : Adds [] (do enter; x; exit) :=
  ⟨fun m => (scope_ends hx m).weaken (fun _ _ _ h => Machine.grown_nil_iff.mpr h) fun _ _ _ h => h⟩

lemma iterate {condition : Run Bool} {step : Run Unit} (hc : Adds [] condition) (hs : Adds [] step)
    (fuel : Nat) : Adds [] (iterate condition step fuel) := by
  induction fuel with
  | zero => exact ⟨fun m => .of_layers rfl (by simp)⟩
  | succ fuel ih =>
    refine hc.after fun t => ?_
    cases t with
    | false => exact of_quiet (.pure _)
    | true =>
      refine hs.after fun _ => (of_quiet quiet_get).after fun m => ?_
      split
      · exact ih
      · exact of_quiet (.pure _)

end Adds

lemma adds_declare (name : String) (r : Ref) (p : Position) : Adds [name] (declare name r p) :=
  ⟨fun m => (declare_ends name r p m).weaken (fun _ _ _ h => h.1) fun _ _ _ h =>
    .of_layers h.1 h.2.2⟩

lemma adds_block (hb : ∀ n, Grows (body n)) (s : Span) (ns : List Node) :
    Adds [] (visit body fuel (.block s ns)) := by
  rw [visit]
  exact .scope (grows_visitBlock hb ns)

/-- A statement declares what it is a declaration of. -/
lemma adds_statement (hb : ∀ n, Grows (body n)) (hn : n.IsStatement) :
    Adds n.declares (visit body fuel n) := by
  have hnull : Adds [] (give .null) := .of_quiet plain_give.quiet
  cases hn with
  | declare s id _ _ he =>
    rw [visit]
    exact (Adds.of_keeps (keeps_expression hb he).valueOf).after fun _ =>
      (adds_declare _ _ _).bind fun _ => hnull
  | assign s t id he =>
    rw [visit]
    exact (Adds.of_keeps (keeps_expression hb he).valueOf).after fun _ =>
      (Adds.of_keeps (.of_steady steady_assign)).after fun _ => hnull
  | assignMember s t f ho _ he =>
    rw [visit]
    exact (Adds.of_keeps (keeps_expression hb he)).after fun _ =>
      (Adds.of_keeps (keeps_expression hb ho).valueOf).after fun _ =>
        (Adds.of_quiet plain_setAttribute.quiet).after fun _ => hnull
  | call s t he =>
    rw [visit]
    exact (Adds.of_keeps (keeps_expression hb he)).after fun _ => hnull
  | expression s he =>
    rw [visit]
    exact (Adds.of_keeps (keeps_expression hb he)).after fun _ => hnull
  | giveBack s =>
    rw [visit]
    exact (Adds.of_quiet plain_nothing.quiet).after fun _ =>
      ⟨fun m => Machine.grown_nil_iff.mpr rfl⟩
  | giveBackValue s he =>
    rw [visit, if_pos he.isPresent]
    exact (Adds.of_keeps (keeps_expression hb he).valueOf).after fun _ =>
      ⟨fun m => Machine.grown_nil_iff.mpr rfl⟩
  | branch s b hc =>
    rw [visit]
    refine (Adds.of_keeps (keeps_expression hb hc).holds).after fun t => ?_
    cases t with
    | true => exact (adds_block hb _ _).after fun _ => hnull
    | false => exact hnull
  | branchElse s b b' hc =>
    rw [visit]
    refine (Adds.of_keeps (keeps_expression hb hc).holds).after fun t => ?_
    cases t with
    | true => exact (adds_block hb _ _).after fun _ => hnull
    | false => exact (adds_block hb _ _).after fun _ => hnull
  | loop s b hc =>
    rw [visit]
    exact ((Adds.of_keeps (keeps_expression hb hc).holds).iterate (adds_block hb _ _) fuel).after
      fun _ => hnull
  | define =>
    rw [visit]
    exact hnull

lemma adds_visitTop (hb : ∀ n, Grows (body n)) {ns : List Node} (hns : ∀ n ∈ ns, n.IsStatement) :
    Adds (Node.declaredAmong ns) (visitTop body fuel ns) := by
  induction ns with
  | nil => exact .of_quiet (.pure _)
  | cons n ns ih =>
    obtain ⟨hn, hrest⟩ := List.forall_mem_cons.1 hns
    have hnames : Node.declaredAmong (n :: ns) = n.declares ++ Node.declaredAmong ns := by
      cases hn <;> rfl
    rw [visitTop, hnames]
    cases hd : n.isDefinition with
    | true =>
      cases hn <;> cases hd
      exact ih hrest
    | false =>
      refine (adds_statement hb hn).bind fun _ => ?_
      refine (Adds.of_quiet quiet_get).after fun m => ?_
      split
      · exact ⟨fun m => .of_layers rfl (by simp)⟩
      · exact ih hrest

lemma adds_program (hb : ∀ n, Grows (body n)) {program : Node} (hp : program.IsProgram) :
    Adds program.declares (visit body fuel program) := by
  obtain ⟨s, hns⟩ := hp
  rw [visit]
  exact (Adds.of_keeps (.of_steady steady_registerAll)).after fun _ => adds_visitTop hb hns

end Run

/-! ## Parts of programs -/

namespace Node

/-- The nodes that programs of the grammar are put together from. -/
inductive IsPart : Node → Prop
  | missing : IsPart .missing
  | type {n : Node} (h : n.IsType) : IsPart n
  | expression {n : Node} (h : n.IsExpression) : IsPart n
  | parameter {n : Node} (h : n.IsParameter) : IsPart n
  | statement {n : Node} (h : n.IsStatement) : IsPart n
  | block (s : Span) {ns : List Node} (h : ∀ n ∈ ns, n.IsStatement) : IsPart (.block s ns)
  | program {n : Node} (h : n.IsProgram) : IsPart n

lemma IsExpression.isPart_of_mem (hb : b.IsExpression) (h : a ∈ b.parts) : a.IsPart := by
  cases hb with
  | list s hes => exact .expression (hes a h)
  | construct s hk hes => exact .expression (hes a h)
  | binary s op hl hr =>
    rcases List.mem_pair.mp h with rfl | rfl
    · exact .expression hl
    · exact .expression hr
  | negate s he => cases List.mem_singleton.mp h; exact .expression he
  | member s f he => cases List.mem_singleton.mp h; exact .expression he
  | call s t id hargs =>
    rcases List.mem_cons.mp h with rfl | h
    · exact .expression (.name t id)
    · exact .expression (hargs a h)
  | method s t f ho hargs =>
    rcases List.mem_cons.mp h with rfl | h
    · exact .expression (.member t f ho)
    · exact .expression (hargs a h)
  | _ => simp [parts] at h

lemma IsStatement.isPart_of_mem (hb : b.IsStatement) (h : a ∈ b.parts) : a.IsPart := by
  cases hb with
  | declare s id ht hv he =>
    rcases List.mem_pair.mp h with rfl | rfl
    · exact .type ht
    · exact .expression he
  | assign s t id he =>
    rcases List.mem_pair.mp h with rfl | rfl
    · exact .expression (.name t id)
    · exact .expression he
  | assignMember s t f ho hn he =>
    rcases List.mem_pair.mp h with rfl | rfl
    · exact .expression (.member t f ho)
    · exact .expression he
  | call s t hc hn => cases List.mem_singleton.mp h; exact .expression hc
  | expression s he => cases List.mem_singleton.mp h; exact .expression he
  | giveBack s => cases List.mem_singleton.mp h; exact .missing
  | giveBackValue s he => cases List.mem_singleton.mp h; exact .expression he
  | branch s b hc hb =>
    simp only [parts, List.mem_cons, List.not_mem_nil, or_false] at h
    rcases h with rfl | rfl | rfl
    · exact .expression hc
    · exact .block b hb
    · exact .missing
  | branchElse s b b' hc hb ho =>
    simp only [parts, List.mem_cons, List.not_mem_nil, or_false] at h
    rcases h with rfl | rfl | rfl
    · exact .expression hc
    · exact .block b hb
    · exact .block b' ho
  | loop s b hc hb =>
    rcases List.mem_pair.mp h with rfl | rfl
    · exact .expression hc
    · exact .block b hb
  | define s b id ht hp hb =>
    simp only [parts, List.mem_cons] at h
    rcases h with rfl | rfl | h
    · exact .type ht
    · exact .block b hb
    · exact .parameter (hp a h)

lemma IsPart.of_mem (hb : b.IsPart) (h : a ∈ b.parts) : a.IsPart := by
  cases hb with
  | missing => simp [parts] at h
  | type ht =>
    cases ht with
    | simple => simp [parts] at h
    | list s he => cases List.mem_singleton.mp h; exact .type he
  | expression he => exact he.isPart_of_mem h
  | parameter hp =>
    obtain ⟨s, id, ht⟩ := hp
    cases List.mem_singleton.mp h
    exact .type ht
  | statement hs => exact hs.isPart_of_mem h
  | block s hns => exact .statement (hns a h)
  | program hp =>
    obtain ⟨s, hns⟩ := hp
    exact .statement (hns a h)

lemma IsProgram.isPart_of_within {program : Node} (hp : program.IsProgram) (h : n.Within program) :
    n.IsPart := by
  induction h using Relation.ReflTransGen.head_induction_on with
  | refl => exact .program hp
  | head hmem _ ih => exact ih.of_mem hmem

end Node

namespace Run

/-- Whatever stands in a program declares exactly what it is a declaration of. -/
lemma adds_part {fuel : Nat} (hb : ∀ n, Grows (body n)) (hn : n.IsPart) :
    Adds n.declares (visit body fuel n) := by
  cases hn with
  | missing =>
    rw [visit]
    exact .of_quiet (.fault _ (by decide))
  | type ht =>
    cases ht <;> rw [visit] <;> exact .of_quiet (.pure _)
  | expression he =>
    have hnone : n.declares = [] := by cases he <;> rfl
    rw [hnone]
    exact .of_keeps (keeps_expression hb he)
  | parameter hp =>
    obtain ⟨s, id, ht⟩ := hp
    rw [visit]
    exact .of_quiet (.pure _)
  | statement hs => exact adds_statement hb hs
  | block s _ => exact adds_block hb s _
  | program hp => exact adds_program hb hp

end Run

/-! ## Every visit -/

/-- Visiting a node of a program, on any machine, leaves the calls and scopes that there were, and
the variables in them, with one exception: the innermost scope of the current call gains what the
node declares directly.  Behind an expression no return is under way if there was none.  And no
visit and no run stops because there is no scope or no call to leave. -/
theorem visit_keeps_stack {tokens : Tokens} {program n : Node}
    (hp : Program.ofTokens tokens = .ok program)
    (hn : n.Within program) (fuel depth : Nat) (m : Machine) :
    (∀ m', visitAt fuel depth n m = .ok () m' →
      m'.layers = m.layers.modifyHead (·.add n.declares) ∧
        (n.IsExpression → m.returning = none → m'.returning = none)) ∧
    (∀ m', visitAt fuel depth n m ≠ .error (.fault .unbalanced) m') ∧
    (m.interpret fuel program).1 ≠ .stopped (.fault .unbalanced) := by
  have hbody : ∀ n, Grows (bodyAt fuel depth n) := grows_bodyAt fuel depth
  have hpart := (Program.isProgram_ofTokens hp).isPart_of_within hn
  have hadds : Ends (visitAt fuel depth n m) (fun _ m' => m.Grown m' n.declares) (StopsAbove m) :=
    (adds_part hbody hpart).ends m
  refine ⟨fun m' h => ⟨hadds.ok h, fun he hr => ?_⟩, fun m' h => ?_, fun h => ?_⟩
  · exact (((keeps_expression hbody he).ends m).ok h).2 hr
  · exact (hadds.error h).2 rfl
  · have htree : Ends (tree fuel program m) (fun _ m' => ∃ xs, m.Grown m' xs) (StopsAbove m) :=
      (grows_visit (grows_bodyAt fuel m.depthLimit.toNat) program).ends m
    unfold Machine.interpret at h
    split at h
    · cases h
    · rename_i stop m' hstop
      cases h
      exact (htree.error hstop).2 rfl

namespace Node

/-- `func int f(int x) { if (0 < x) { int y = f(x - 1); return y; } return x; }` -/
def descending : Node :=
  .define (.columns 0 32) (.type (.columns 1 1) "int") "f"
    [.parameter (.columns 4 5) (.type (.columns 4 4) "int") (.plain "x")]
    (.block (.columns 7 32)
      [.branch (.columns 8 28)
        (.binary (.columns 10 12) .less (.int (.columns 10 10) 0) (.name (.columns 12 12) "x"))
        (.block (.columns 14 28)
          [.declare (.columns 15 24) (.type (.columns 15 15) "int") "y"
            (.call (.columns 18 23) (.name (.columns 18 18) "f")
              [.binary (.columns 20 22) .subtract (.name (.columns 20 20) "x")
                (.int (.columns 22 22) 1)]),
           .giveBack (.columns 25 27) (.name (.columns 26 26) "y")])
        .missing,
       .giveBack (.columns 29 31) (.name (.columns 30 30) "x")])

/-- `int z = f(1);` -/
def descent : Node :=
  .declare (.columns 33 40) (.type (.columns 33 33) "int") "z"
    (.call (.columns 36 39) (.name (.columns 36 36) "f") [.int (.columns 38 38) 1])

end Node

/-- A machine in the middle of a block, within a call. -/
def Machine.withinCall : Machine where
  module := { name := "<module>", base := ⟨[("c", 0)]⟩ }
  calls := [{ name := "g", inner := [⟨[("a", 0)]⟩], base := ⟨[("b", 0)]⟩ }]
  functions := [("f", .descending)]
  input := .lines []

lemma Program.ofTokens_descent :
    ofTokens (.onLine [.keyword .func, .keyword .int, .identifier "f", .symbol .lparen,
      .keyword .int,
      .identifier "x", .symbol .rparen, .symbol .lbrace, .keyword .if_, .symbol .lparen, .int 0,
      .symbol .lt,
      .identifier "x", .symbol .rparen, .symbol .lbrace, .keyword .int, .identifier "y",
      .symbol .assign,
      .identifier "f", .symbol .lparen, .identifier "x", .symbol .minus, .int 1, .symbol .rparen,
      .symbol .semicolon, .keyword .return_, .identifier "y", .symbol .semicolon, .symbol .rbrace,
      .keyword .return_, .identifier "x", .symbol .semicolon, .symbol .rbrace, .keyword .int,
      .identifier "z",
      .symbol .assign, .identifier "f", .symbol .lparen, .int 1, .symbol .rparen,
      .symbol .semicolon]) = .ok (.program (.columns 0 41) [0] [.descending, .descent]) := by
  cbv

/-- The function calls itself out of a block and returns out of one, and all that is left of it is
the variable that is declared with its value. -/
theorem visit_keeps_stack_descent :
    Node.descent.Within (.program (.columns 0 41) [0] [.descending, .descent]) ∧
      ∃ m', visitAt 0 3 .descent .withinCall = .ok () m' ∧
        m'.layers = [⟨"g", [["a", "z"]], ["b"]⟩, ⟨"<module>", [], ["c"]⟩] := by
  have hwithin : Node.descent.Within (.program (.columns 0 41) [0] [.descending, .descent]) :=
    .single (by simp [Node.parts])
  have hvisit : ∃ m', visitAt 0 3 .descent .withinCall = .ok () m' := ⟨_, by cbv⟩
  obtain ⟨m', hvisit⟩ := hvisit
  obtain ⟨hok, -, -⟩ := visit_keeps_stack Program.ofTokens_descent hwithin 0 3 .withinCall
  exact ⟨hwithin, m', hvisit, (hok m' hvisit).1⟩

end AudLang
