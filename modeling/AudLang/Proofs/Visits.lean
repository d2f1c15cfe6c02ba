import AudLang.Proofs.Moments
import AudLang.Proofs.Plain

/-!
What a visit has from its steps.

A visit of a tree is put together from plain steps, from looking up, declaring and assigning
variables, from scopes, rounds of loops and calls.  What holds of all of these and is kept by
sequence holds of the visit.  It is said here of two visits of a tree side by side, which may differ
in how many rounds their loops may take and in how they visit the bodies of functions.  A property
of one visit is the case in which there is no difference.
-/

namespace AudLang

namespace Node

/-- Is the node visited for a value? -/
def isValued : Node → Bool
  | .int .. | .float .. | .string .. | .bool .. | .null .. | .name .. | .list .. | .binary ..
    | .negate ..
  | .call .. | .member .. | .construct .. => true
  | _ => false

/-- The nodes that are visited for the value of a node. -/
def operands : Node → List Node
  | .list _ es | .construct _ _ es => es
  | .binary _ _ a b => [a, b]
  | .negate _ e | .member _ e _ => [e]
  | .call _ (.member _ object _) args => object :: args
  | .call _ _ args => args
  | _ => []

lemma sizeOf_operands {n e : Node} (h : e ∈ n.operands) : sizeOf e < sizeOf n := by
  unfold operands at h
  split at h
  case h_6 s t o f args =>
    rcases List.mem_cons.1 h with rfl | h
    · have hlt : sizeOf e < sizeOf (Node.member t e f) := sizeOf_parts List.mem_cons_self
      exact Nat.lt_trans hlt (sizeOf_parts List.mem_cons_self)
    · exact sizeOf_parts (List.mem_cons_of_mem _ h)
  case h_7 => exact sizeOf_parts (List.mem_cons_of_mem _ h)
  case h_8 => cases h
  all_goals exact sizeOf_parts h

lemma IsExpression.isValued {n : Node} (h : n.IsExpression) : n.isValued = true := by
  cases h <;> rfl

lemma IsExpression.of_mem_operands {n e : Node} (h : n.IsExpression) (he : e ∈ n.operands) :
    e.IsExpression := by
  cases h with
  | list s hes | construct s hk hes | call s t id hes => exact hes e he
  | binary s op hl hr => exact List.forall_mem_cons.2 ⟨hl, List.forall_mem_singleton.2 hr⟩ e he
  | negate s h | member s f h => exact List.forall_mem_singleton.2 h e he
  | method s t f ho hargs => exact List.forall_mem_cons.2 ⟨ho, hargs⟩ e he
  | _ => cases he

end Node

namespace Run

variable {α β : Type} {R : (α : Type) → Run α → Run α → Prop} {body body' : Node → Run Unit}
  {fuel fuel' : Nat}
  {n : Node} {ns : List Node}

/-! ## Expressions -/

/-- A relation in which a plain step and the looking up of a variable stand to themselves, and steps
in sequence do whenever they do one by one. -/
structure Composes (R : (α : Type) → Run α → Run α → Prop) : Prop where
  plain : ∀ {α : Type} {x : Run α}, Plain x → R α x x
  cellOf : ∀ (name : String) (p : Position), R Ref (Run.cellOf name p) (Run.cellOf name p)
  bind : ∀ {α β : Type} {x y : Run α} {f g : α → Run β}, R α x y → (∀ a, R β (f a) (g a)) →
    R β (x >>= f) (y >>= g)

namespace Composes

lemma ite (_ : Composes R) {c : Prop} [Decidable c] {x y x' y' : Run α} (hx : R α x x')
    (hy : R α y y') : R α (if c then x else y) (if c then x' else y') := by
  split
  · exact hx
  · exact hy

lemma valueOf (hR : Composes R) {x y : Run Unit} (h : R Unit x y) : R Ref (valueOf x) (valueOf y) :=
  hR.bind h fun _ => hR.plain plain_last

lemma holds (hR : Composes R) {x y : Run Unit} (h : R Unit x y) : R Bool (holds x) (holds y) :=
  hR.bind (hR.valueOf h) fun _ => hR.plain (plain_value.bind fun _ => .pure _)

lemma values (hR : Composes R) (h : ∀ n ∈ ns, R Unit (visit body fuel n) (visit body' fuel' n)) :
    R (List Ref) (values body fuel ns) (values body' fuel' ns) := by
  induction ns with
  | nil =>
    rw [Run.values, Run.values]
    exact hR.plain (.pure _)
  | cons n ns ih =>
    obtain ⟨hn, hns⟩ := List.forall_mem_cons.1 h
    rw [Run.values, Run.values]
    exact hR.bind (hR.valueOf hn) fun _ => hR.bind (ih hns) fun _ => hR.plain (.pure _)

/-- A node that is visited for a value, if the nodes that are visited for it and the call that it
makes are right. -/
lemma node (hR : Composes R) (hn : n.isValued = true)
    (hcall : ∀ {s t id args}, n = .call s (.name t id) args → ∀ rs,
      R Unit (callNamed body id rs t.start s.start) (callNamed body' id rs t.start s.start))
    (h : ∀ e ∈ n.operands, R Unit (visit body fuel e) (visit body' fuel' e)) :
    R Unit (visit body fuel n) (visit body' fuel' n) := by
  have hgive (v : Value) : R Unit (give v) (give v) := hR.plain plain_give
  cases n with
  | int | float | string | bool | null =>
    rw [visit, visit]
    exact hgive _
  | name s id =>
    rw [visit, visit]
    exact hR.bind (hR.cellOf id _) fun _ => hR.plain plain_setLast
  | list s es =>
    rw [visit, visit]
    refine hR.bind (hR.values h) fun rs => hR.plain ?_
    cases rs with
    | nil => exact plain_give
    | cons r rs => exact plain_value.bind fun _ => plain_give
  | binary s op left right =>
    have hl := h left (by simp [Node.operands])
    have hr := h right (by simp [Node.operands])
    by_cases ha : op = .and
    · subst ha
      rw [visit, visit]
      exact hR.bind (hR.holds hl) fun _ => hR.ite (hR.bind (hR.holds hr) fun _ => hgive _) (hgive _)
    · by_cases ho : op = .or
      · subst ho
        rw [visit, visit]
        exact hR.bind (hR.holds hl) fun _ =>
          hR.ite (hgive _) (hR.bind (hR.holds hr) fun _ => hgive _)
      · rw [visit_operation ha ho, visit_operation ha ho]
        exact hR.bind (hR.valueOf hl) fun _ => hR.bind (hR.valueOf hr) fun _ =>
          hR.plain plain_operate
  | negate s e =>
    rw [visit, visit]
    exact hR.bind (hR.valueOf (h e (by simp [Node.operands]))) fun _ => hR.plain plain_negate
  | call s target args =>
    cases target with
    | member t o f =>
      obtain ⟨ho, hargs⟩ := List.forall_mem_cons.1 h
      rw [visit, visit]
      refine hR.bind (hR.values hargs) fun rs => hR.bind (hR.valueOf ho) fun r => hR.plain ?_
      exact plain_requireObject.bind fun _ => plain_callMethod.bind fun _ => plain_setLast
    | name t id =>
      rw [visit, visit]
      exact hR.bind (hR.values h) fun rs => hcall rfl rs
    | _ =>
      simp only [visit]
      exact hR.bind (hR.values h) fun _ => hR.plain (.fail _ rfl)
  | member s o f =>
    rw [visit, visit]
    refine hR.bind (hR.valueOf (h o (by simp [Node.operands]))) fun r => hR.plain ?_
    exact plain_requireObject.bind fun _ => plain_getAttribute.bind fun _ => plain_setLast
  | construct s t args =>
    rw [visit, visit]
    exact hR.bind (hR.values h) fun _ => hR.plain plain_construct
  | _ => cases hn

/-- Expressions of a kind that goes down to what is visited for them. -/
lemma expression {P : Node → Prop} (hR : Composes R)
    (hP : ∀ {n}, P n → n.isValued = true ∧ ∀ e ∈ n.operands, P e)
    (hcall : ∀ {s t id args}, P (.call s (.name t id) args) → ∀ rs,
      R Unit (callNamed body id rs t.start s.start) (callNamed body' id rs t.start s.start))
      {n : Node} (hn : P n) :
    R Unit (visit body fuel n) (visit body' fuel' n) := by
  obtain ⟨hvalued, hoperands⟩ := hP hn
  refine hR.node hvalued (fun hn' => hcall (hn' ▸ hn)) fun e he => ?_
  exact hR.expression hP hcall (hoperands e he)
termination_by sizeOf n
decreasing_by exact Node.sizeOf_operands he

end Composes

/-! ## Statements -/

/-- Such a relation in which all that a visit does besides stands as well: what is done with names,
what is done about a return, the scope of a block, the rounds of a loop and a call. -/
structure Pervades (R : (α : Type) → Run α → Run α → Prop) (body body' : Node → Run Unit)
    (fuel fuel' : Nat) : Prop extends Composes R where
  declare : ∀ (name : String) (r : Ref) (p : Position),
    R Unit (Run.declare name r p) (Run.declare name r p)
  assign : ∀ (name : String) (r : Ref) (p : Position),
    R Unit (Run.assign name r p) (Run.assign name r p)
  registerAll : ∀ ns : List Node, R Unit (Run.registerAll ns) (Run.registerAll ns)
  note : ∀ r : Ref, R Unit (modify fun m => { m with returning := some r })
    (modify fun m => { m with returning := some r })
  look : ∀ {f g : Option Ref → Run Unit}, (∀ r, R Unit (f r) (g r)) →
    R Unit (do f (← get).returning) (do g (← get).returning)
  stray : ∀ p : Position, R Unit (fail .strayReturn p) (fail .strayReturn p)
  scope : ∀ {x y : Run Unit}, R Unit x y → R Unit (do enter; x; exit) (do enter; y; exit)
  iterate : ∀ {c c' : Run Bool} {x y : Run Unit}, R Bool c c' → R Unit x y →
    R Unit (Run.iterate c x fuel) (Run.iterate c' y fuel')
  call : ∀ (name : String) (rs : List Ref) (q p : Position),
    R Unit (callNamed body name rs q p) (callNamed body' name rs q p)

namespace Pervades

lemma visitBlock (hR : Pervades R body body' fuel fuel')
    (h : ∀ n ∈ ns, R Unit (Run.visit body fuel n) (Run.visit body' fuel' n)) :
    R Unit (visitBlock body fuel ns) (visitBlock body' fuel' ns) := by
  induction ns with
  | nil =>
    rw [Run.visitBlock, Run.visitBlock]
    exact hR.plain (.pure _)
  | cons n ns ih =>
    obtain ⟨hn, hns⟩ := List.forall_mem_cons.1 h
    rw [Run.visitBlock, Run.visitBlock]
    exact hR.bind hn fun _ => hR.look fun r =>
      hR.ite (c := r.isNone = true) (ih hns) (hR.plain (.pure _))

lemma visitTop (hR : Pervades R body body' fuel fuel')
    (h : ∀ n ∈ ns, R Unit (Run.visit body fuel n) (Run.visit body' fuel' n)) :
    R Unit (visitTop body fuel ns) (visitTop body' fuel' ns) := by
  induction ns with
  | nil =>
    rw [Run.visitTop, Run.visitTop]
    exact hR.plain (.pure _)
  | cons n ns ih =>
    obtain ⟨hn, hns⟩ := List.forall_mem_cons.1 h
    rw [Run.visitTop, Run.visitTop]
    cases n.isDefinition with
    | true => exact ih hns
    | false =>
      refine hR.bind hn fun _ => hR.look (f := fun r => if r.isSome = true then _ else _)
        (g := fun r => if r.isSome = true then _ else _) fun r => hR.ite ?_ (ih hns)
      exact hR.bind (hR.stray _) fun _ => ih hns

/-- Two visits of a tree. -/
lemma visit (hR : Pervades R body body' fuel fuel') (n : Node) :
    R Unit (visit body fuel n) (visit body' fuel' n) := by
  have hgive (v : Value) : R Unit (give v) (give v) := hR.plain plain_give
  match n with
  | .missing =>
    rw [Run.visit, Run.visit]
    exact hR.plain (.fault _ (by decide))
  | .unknown .. =>
    rw [Run.visit, Run.visit]
    exact hR.plain (.fail _ rfl)
  | .int .. | .float .. | .string ..
  | .bool .. | .null .. | .name .. | .list .. | .binary .. | .negate ..
  | .call .. | .member .. | .construct .. =>
    exact hR.node rfl (fun _ rs => hR.call _ rs _ _) fun e he => hR.visit e
  | .type .. | .listType .. | .parameter .. =>
    rw [Run.visit, Run.visit]
    exact hR.plain (.pure _)
  | .define .. =>
    rw [Run.visit, Run.visit]
    exact hgive _
  | .block s ns =>
    rw [Run.visit, Run.visit]
    exact hR.scope (hR.visitBlock fun e he => hR.visit e)
  | .declare s t id e =>
    rw [Run.visit, Run.visit]
    exact hR.bind (hR.valueOf (hR.visit e)) fun r => hR.bind (hR.declare id r _) fun _ => hgive _
  | .branch s c a b =>
    rw [Run.visit, Run.visit]
    refine hR.bind (hR.holds (hR.visit c)) fun t => ?_
    cases t with
    | true => exact hR.bind (hR.visit a) fun _ => hgive _
    | false =>
      cases b.isPresent with
      | true => exact hR.bind (hR.visit b) fun _ => hgive _
      | false => exact hgive _
  | .loop s c b =>
    rw [Run.visit, Run.visit]
    exact hR.bind (hR.iterate (hR.holds (hR.visit c)) (hR.visit b)) fun _ => hgive _
  | .assign s target e =>
    have he := hR.visit e
    cases target with
    | name t id =>
      rw [Run.visit, Run.visit]
      exact hR.bind (hR.valueOf he) fun r => hR.bind (hR.assign id r _) fun _ => hgive _
    | member t o f =>
      rw [Run.visit, Run.visit]
      refine hR.bind he fun _ => hR.bind (hR.valueOf (hR.visit o)) fun r => hR.plain ?_
      exact plain_setAttribute.bind fun _ => plain_give
    | _ =>
      simp only [Run.visit]
      exact hR.bind he fun _ => hR.plain (.fail _ rfl)
  | .giveBack s e =>
    rw [Run.visit, Run.visit]
    cases e.isPresent with
    | true => exact hR.bind (hR.valueOf (hR.visit e)) hR.note
    | false => exact hR.bind (hR.plain plain_nothing) hR.note
  | .callStatement s e | .expressionStatement s e =>
    rw [Run.visit, Run.visit]
    exact hR.bind (hR.visit e) fun _ => hgive _
  | .program s is ns =>
    rw [Run.visit, Run.visit]
    exact hR.bind (hR.registerAll _) fun _ => hR.visitTop fun e he => hR.visit e
termination_by sizeOf n
decreasing_by
  all_goals first | exact Node.sizeOf_operands ‹_› | skip
  all_goals simp_wf
  all_goals first | omega | (have hlt := List.sizeOf_lt_of_mem ‹_ ∈ _›; omega)

end Pervades

end Run

end AudLang
