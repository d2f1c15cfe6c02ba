import AudLang.Proofs.Fitting
import AudLang.Proofs.Grammar
import AudLang.Proofs.Plain
import Mathlib

/-!
Structured returns.

A return statement of the machine only notes a value; the blocks and loops around it look at the
note and end, and the call takes the value and wipes the note out.  The structured semantics knows
no note: a statement ends normally or with a returned value (`Flow`), a block goes on behind a
normal end only, a loop goes on behind a normal end of its body only, and a call makes the returned
value its own.
-/

namespace AudLang

open Run Moment

variable {m m' : Machine} {n : Node}

/-! ## The structured semantics -/

/-- How a statement ends. -/
inductive Flow where
  | normal
  | returned (value : Ref)
deriving DecidableEq, Repr

/-- The value that is returned, if one is. -/
def Flow.value? : Flow → Option Ref
  | normal => none
  | returned r => some r

namespace Structured

/-- Repeats a step as long as a condition holds and the step ends normally. -/
def iterate (condition : Run Bool) (step : Run Flow) : Nat → Run Flow
  | 0 => throw .exhausted
  | fuel + 1 => do
    if ← condition then
      match ← step with
      | .normal => iterate condition step fuel
      | .returned r => return .returned r
    else return .normal

/-- Calls a function that a program has defined: what its body returns is the value of the call. -/
def invoke (body : Node → Run Flow) (n : Node) (args : List Ref) (p : Position) : Run Unit := do
  match n with
  | .define s returns id parameters block => do
    pushContext id p
    declareParameters parameters args
    let flow ← body block
    takeReturned id (← ask returns.returnTypeName) s.start flow.value?
    popContext
  | _ => fail (.notAFunction (← ask n.dump)) p

/-- Calls a function by its name. -/
def callNamed (body : Node → Run Flow) (name : String) (args : List Ref) (namePlace p : Position) :
    Run Unit := do
  match ← callee name namePlace with
  | .builtin b => setLast (← callBuiltin b args p)
  | .defined n => invoke body n args p

mutual

/-- Evaluates an expression, whose value becomes the last one. -/
def eval (body : Node → Run Flow) (fuel : Nat) : Node → Run Unit
  | .int _ v => give (.int v)
  | .float _ v => give (.float v)
  | .string _ v => give (.text v)
  | .bool _ v => give (.bool v)
  | .null _ => give .null
  | .name s id => do setLast (← cellOf id s.start)
  | .list _ es => do
    let rs ← evalAll body fuel es
    let type ←
      match rs with
      | r :: _ => pure (← value r).typeName
      | [] => pure "unknown"
    give (.list type rs)
  | .binary _ .and left right => do
    if ← holds (eval body fuel left) then give (.bool (← holds (eval body fuel right)))
    else give (.bool false)
  | .binary _ .or left right => do
    if ← holds (eval body fuel left) then give (.bool true)
    else give (.bool (← holds (eval body fuel right)))
  | .binary s op left right => do
    let l ← valueOf (eval body fuel left)
    let r ← valueOf (eval body fuel right)
    operate op l r s.start
  | .negate s e => do negate (← valueOf (eval body fuel e)) s.start
  | .call s (.member _ object field) args => do
    let rs ← evalAll body fuel args
    let o ← valueOf (eval body fuel object)
    requireObject o field object.start
    setLast (← callMethod o field rs s.start)
  | .call s (.name t id) args => do
    let rs ← evalAll body fuel args
    callNamed body id rs t.start s.start
  | .call _ target args => do
    let _ ← evalAll body fuel args
    fail (.uncallable target.kindName) target.start
  | .member s object field => do
    let o ← valueOf (eval body fuel object)
    requireObject o field object.start
    setLast (← getAttribute o field s.start)
  | .construct s type args => do construct type (← evalAll body fuel args) s.start
  | _ => fault .noMember

/-- Evaluates expressions in order and collects their values. -/
def evalAll (body : Node → Run Flow) (fuel : Nat) : List Node → Run (List Ref)
  | [] => return []
  | n :: ns => do
    let r ← valueOf (eval body fuel n)
    return r :: (← evalAll body fuel ns)

end

mutual

/-- Executes a statement. -/
def exec (body : Node → Run Flow) (fuel : Nat) : Node → Run Flow
  | .block _ statements => do
    enter
    let flow ← execAll body fuel statements
    exit
    return flow
  | .declare s _ id value => do
    declare id (← valueOf (eval body fuel value)) s.start
    give .null
    return .normal
  | .branch _ condition onTrue onFalse => do
    let flow ←
      if ← holds (eval body fuel condition) then exec body fuel onTrue
      else if onFalse.isPresent then exec body fuel onFalse
      else pure .normal
    give .null
    return flow
  | .loop _ condition step => do
    let flow ← iterate (holds (eval body fuel condition)) (exec body fuel step) fuel
    give .null
    return flow
  | .assign _ (.name s id) value => do
    assign id (← valueOf (eval body fuel value)) s.start
    give .null
    return .normal
  | .assign _ (.member s object field) value => do
    eval body fuel value
    setAttribute (← valueOf (eval body fuel object)) field s.start
    give .null
    return .normal
  | .assign _ target value => do
    eval body fuel value
    fail .badTarget target.start
  | .giveBack _ value => do
    let r ← if value.isPresent then valueOf (eval body fuel value) else nothing
    return .returned r
  | .callStatement _ e | .expressionStatement _ e => do
    eval body fuel e
    give .null
    return .normal
  | .define .. => do
    give .null
    return .normal
  | _ => fault .noMember

/-- Executes statements in order, up to the first that returns. -/
def execAll (body : Node → Run Flow) (fuel : Nat) : List Node → Run Flow
  | [] => return .normal
  | n :: ns => do
    match ← exec body fuel n with
    | .normal => execAll body fuel ns
    | .returned r => return .returned r

end

/-- Executes the body of a function from which calls may nest `depth` deep. -/
def bodyAt (fuel : Nat) : Nat → Node → Run Flow
  | 0, _ => throw .exhausted
  | depth + 1, n => exec (bodyAt fuel depth) fuel n

/-- Executes a statement from where calls may nest `depth` deep. -/
def execAt (fuel depth : Nat) (n : Node) : Run Flow := exec (bodyAt fuel depth) fuel n

end Structured

/-! ## Machines on which no return is under way -/

namespace Machine

/-- No return is under way, and what is known by a name of a function is put together as it
should. -/
structure Clear (m : Machine) : Prop where
  returning : m.returning = none
  functions : ∀ x n, (x, n) ∈ m.functions → n.isAction = true

/-- The machine without the return that is under way. -/
def settled (m : Machine) : Machine := { m with returning := none }

lemma settled_of_none (h : m.returning = none) : m.settled = m := by
  unfold settled
  rw [← h]

/-- Returns and functions are as they were. -/
structure Calm (m m' : Machine) : Prop where
  returning : m'.returning = m.returning
  functions : m'.functions = m.functions

lemma Calm.refl (m : Machine) : m.Calm m := ⟨rfl, rfl⟩

lemma Calm.trans {m m' m'' : Machine} (h : m.Calm m') (h' : m'.Calm m'') : m.Calm m'' :=
  ⟨h'.returning.trans h.returning, h'.functions.trans h.functions⟩

lemma Undisturbed.calm (h : m.Undisturbed m') : m.Calm m' := ⟨h.returning, h.functions⟩

lemma Clear.of_calm (hm : m.Clear) (h : m.Calm m') : m'.Clear where
  returning := h.returning.trans hm.returning
  functions := by
    rw [h.functions]
    exact hm.functions

end Machine

namespace Run

variable {α β γ : Type}

/-- The step touches neither returns nor functions. -/
structure KeepsCalm (x : Run α) : Prop where
  ends : ∀ m, Ends (x m) (fun _ m' => m.Calm m') (fun _ m' => m.Calm m')

namespace KeepsCalm

lemma of_quiet {x : Run α} (h : Quiet x) : KeepsCalm x :=
  ⟨fun m => (h.ends m).weaken (fun _ _ _ hm => hm.calm) (fun _ _ _ hm => hm.1.calm)⟩

lemma bind {x : Run α} {f : α → Run β} (hx : KeepsCalm x) (hf : ∀ a, KeepsCalm (f a)) :
    KeepsCalm (x >>= f) := by
  refine ⟨fun m => ?_⟩
  refine Ends.bind (hx.ends m) fun a m₁ _ h₁ => ?_
  exact ((hf a).ends m₁).weaken (fun _ _ _ h => h₁.trans h) (fun _ _ _ h => h₁.trans h)

lemma fail (e : RunError) (p : Position) : KeepsCalm (Run.fail e p : Run α) := ⟨fun m => .refl m⟩

lemma fault (f : Fault) : KeepsCalm (Run.fault f : Run α) := ⟨fun m => .refl m⟩

end KeepsCalm

lemma calm_cellOf {name : String} {p : Position} : KeepsCalm (cellOf name p) := by
  refine (KeepsCalm.of_quiet quiet_get).bind fun m => ?_
  split
  · exact .of_quiet (.pure _)
  · exact .fail _ _

lemma calm_updateCurrent {h : Context → Context} :
    KeepsCalm (modify fun m : Machine => m.updateCurrent h : Run PUnit) :=
  ⟨fun m => ⟨m.updateCurrent_returning h, m.updateCurrent_functions h⟩⟩

lemma calm_declare {name : String} {r : Ref} {p : Position} : KeepsCalm (declare name r p) := by
  refine (KeepsCalm.of_quiet quiet_get).bind fun m => ?_
  split
  · exact .fail _ _
  · exact calm_updateCurrent

lemma calm_assign {name : String} {r : Ref} {p : Position} : KeepsCalm (assign name r p) := by
  refine calm_cellOf.bind fun target => (KeepsCalm.of_quiet plain_value.quiet).bind fun v => ?_
  refine (KeepsCalm.of_quiet plain_value.quiet).bind fun old => ?_
  split
  · exact ⟨fun m => ⟨rfl, rfl⟩⟩
  · refine ⟨fun m => ?_⟩
    obtain ⟨mod, cs, heq, -⟩ := m.rebind_eq name r
    simp only [modify_run, heq]
    exact ⟨rfl, rfl⟩

lemma calm_enter : KeepsCalm enter := calm_updateCurrent

lemma calm_exit : KeepsCalm exit := by
  refine (KeepsCalm.of_quiet quiet_get).bind fun m => ?_
  split
  · exact calm_updateCurrent
  · exact .fault _

lemma calm_pushContext {name : String} {p : Position} : KeepsCalm (pushContext name p) := by
  refine (KeepsCalm.of_quiet quiet_get).bind fun m => ?_
  split
  · exact .fail _ _
  · exact ⟨fun m => ⟨rfl, rfl⟩⟩

lemma calm_popContext : KeepsCalm popContext := by
  refine (KeepsCalm.of_quiet quiet_get).bind fun m => ?_
  split
  · exact ⟨fun m => ⟨rfl, rfl⟩⟩
  · exact .fault _

lemma calm_declareParameters {ps : List Node} {rs : List Ref} :
    KeepsCalm (declareParameters ps rs) := by
  fun_induction declareParameters ps rs with
  | case1 s t x ps r rs ih => exact calm_declare.bind fun _ => ih
  | case2 => exact .fault _
  | case3 => exact .fault _
  | case4 => exact .of_quiet (.pure _)

/-- The two outcomes are answers that `Q` relates, or one and the same stop on machines that differ
in the return under way at most. -/
inductive Alike (Q : α → Machine → β → Machine → Prop) :
    EStateM.Result Stop Machine α → EStateM.Result Stop Machine β → Prop
  | ok {a : α} {b : β} {m m' : Machine} (h : Q a m b m') : Alike Q (.ok a m) (.ok b m')
  | error (e : Stop) {m m' : Machine} (h : m.settled = m') : Alike Q (.error e m) (.error e m')

/-- From every machine on which no return is under way the two steps end alike. -/
def Along (Q : α → Machine → β → Machine → Prop) (x : Run α) (y : Run β) : Prop :=
  ∀ m, m.Clear → Alike Q (x m) (y m)

/-- One answer, on one machine, and no return is under way. -/
def Same (a : α) (m : Machine) (b : α) (m' : Machine) : Prop := a = b ∧ m = m' ∧ m'.Clear

/-- The machine has noted what the statement returns. -/
def Noted (_ : Unit) (m : Machine) (flow : Flow) (m' : Machine) : Prop :=
  m = { m' with returning := flow.value? } ∧ m'.Clear

namespace Along

/-- Two steps behind two others go on from answers that are related. -/
lemma after {δ : Type} {P : α → Machine → δ → Machine → Prop} {Q : β → Machine → γ → Machine → Prop}
    {x : Run α}
    {y : Run δ} {f : α → Run β} {g : δ → Run γ} (hx : Along P x y)
    (hf : ∀ a m b m', P a m b m' → Alike Q (f a m) (g b m')) : Along Q (x >>= f) (y >>= g) := by
  intro m hm
  have hxm := hx m hm
  rw [bind_run, bind_run]
  generalize x m = r at hxm ⊢
  generalize y m = r' at hxm ⊢
  cases hxm with
  | error e h => exact .error e h
  | ok h => exact hf _ _ _ _ h

lemma bind {Q : β → Machine → γ → Machine → Prop} {x y : Run α} {f : α → Run β} {g : α → Run γ}
    (hx : Along Same x y) (hf : ∀ a, Along Q (f a) (g a)) : Along Q (x >>= f) (y >>= g) := by
  refine hx.after fun a m b m' h => ?_
  obtain ⟨rfl, rfl, hm⟩ := h
  exact hf _ _ hm

/-- A step that touches neither returns nor functions goes along with itself. -/
lemma of_calm {x : Run α} (h : KeepsCalm x) : Along Same x x := by
  intro m hm
  have hx := h.ends m
  cases hxm : x m with
  | ok a m' =>
    rw [hxm] at hx
    exact .ok ⟨rfl, rfl, hm.of_calm hx⟩
  | error e m' =>
    rw [hxm] at hx
    exact .error e (Machine.settled_of_none (hx.returning.trans hm.returning))

lemma of_quiet {x : Run α} (h : Quiet x) : Along Same x x := of_calm (.of_quiet h)

lemma pure (a : α) : Along Same (Pure.pure a : Run α) (Pure.pure a) := of_quiet (.pure a)

lemma fail {Q : α → Machine → β → Machine → Prop} (e : RunError) (p : Position) :
    Along Q (Run.fail e p) (Run.fail e p) := by
  intro m hm
  exact .error _ (Machine.settled_of_none hm.returning)

lemma ite {Q : α → Machine → β → Machine → Prop} {c : Bool} {x x' : Run α} {y y' : Run β}
    (hx : Along Q x y) (hx' : Along Q x' y') :
    Along Q (if c then x else x') (if c then y else y') := by
  cases c
  · exact hx'
  · exact hx

lemma valueOf {x y : Run Unit} (h : Along Same x y) : Along Same (valueOf x) (valueOf y) :=
  h.bind fun _ => of_quiet plain_last.quiet

lemma holds {x y : Run Unit} (h : Along Same x y) : Along Same (holds x) (holds y) :=
  h.valueOf.bind fun _ => (of_quiet plain_value.quiet).bind fun _ => pure _

lemma normal {x y : Run Unit} (h : Along Same x y) :
    Along Noted x (y >>= fun _ => Pure.pure .normal) := by
  intro m hm
  have hxm := h m hm
  rw [bind_run]
  generalize x m = r at hxm ⊢
  generalize y m = r' at hxm ⊢
  cases hxm with
  | error e h => exact .error e h
  | @ok _ _ _ m₁ h =>
    obtain ⟨rfl, rfl, hm₁⟩ := h
    exact .ok ⟨(Machine.settled_of_none hm₁.returning).symm, hm₁⟩

end Along

/-! ## Steps that do not look at returns -/

/-- The step does not look at the return under way and leaves it as it is. -/
def Blind (x : Run Unit) : Prop :=
  ∀ (m : Machine) (v : Option Ref), x { m with returning := v } = match x m with
    | .ok _ m' => .ok () { m' with returning := v }
    | .error e m' => .error e { m' with returning := v }

lemma blind_give (v : Value) : Blind (give v) := fun _ _ => rfl

lemma blind_exit : Blind exit := by
  intro m v
  simp only [exit, bind_run, get_run]
  cases hc : m.calls with
  | nil =>
    simp only [Machine.current, hc, List.headD_nil]
    cases m.module.inner <;> simp [Machine.updateCurrent, hc, Run.fault]
  | cons c outer =>
    simp only [Machine.current, hc, List.headD_cons]
    cases c.inner <;> simp [Machine.updateCurrent, hc, Run.fault]

/-- Behind a statement comes a step that does not look at its end. -/
lemma Along.andThen {x : Run Unit} {y : Run Flow} {z : Run Unit} (h : Along Noted x y)
    (hb : Blind z) (hz : KeepsCalm z) :
    Along Noted (x >>= fun _ => z) (y >>= fun flow => z >>= fun _ => Pure.pure flow) := by
  refine h.after fun _ _ flow m₁ hnoted => ?_
  obtain ⟨rfl, hm₁⟩ := hnoted
  have hzm := hz.ends m₁
  simp only [bind_run, hb m₁ flow.value?]
  cases hr : z m₁ with
  | ok u m₂ =>
    rw [hr] at hzm
    exact .ok ⟨rfl, hm₁.of_calm hzm⟩
  | error e m₂ =>
    rw [hr] at hzm
    exact .error e (Machine.settled_of_none (m := m₂) (hzm.returning.trans hm₁.returning))

/-- Behind a statement that has ended normally comes another step; one that has returned is the
last. -/
lemma Along.unlessReturned {x f : Run Unit} {y g : Run Flow} (h : Along Noted x y)
    (hf : Along Noted f g) :
    Along Noted (x >>= fun _ => get >>= fun m => if m.returning.isNone then f else Pure.pure ())
      (y >>= fun flow => match flow with
        | .normal => g
        | .returned r => Pure.pure (.returned r)) := by
  refine h.after fun _ _ flow m₁ hnoted => ?_
  obtain ⟨rfl, hm₁⟩ := hnoted
  cases flow with
  | normal =>
    have hsettled : { m₁ with returning := none } = m₁ := Machine.settled_of_none hm₁.returning
    simp only [Flow.value?, bind_run, get_run, hsettled, hm₁.returning, Option.isNone_none, if_true]
    exact hf m₁ hm₁
  | returned r => exact .ok ⟨rfl, hm₁⟩

/-- A call takes what its body has returned and wipes the note out. -/
lemma Along.take {Q : α → Machine → β → Machine → Prop} {x : Run Unit} {y : Run Flow}
    {f : Option Ref → Run α} {g : Option Ref → Run β} (h : Along Noted x y)
    (hf : ∀ v, Along Q (f v) (g v)) :
    Along Q (x >>= fun _ => get >>= fun m =>
        modify (fun m : Machine => { m with returning := none }) >>= fun _ => f m.returning)
      (y >>= fun flow => g flow.value?) := by
  refine h.after fun _ _ flow m₁ hnoted => ?_
  obtain ⟨rfl, hm₁⟩ := hnoted
  have hsettled : { m₁ with returning := none } = m₁ := Machine.settled_of_none hm₁.returning
  simp only [bind_run, get_run, modify_run, hsettled]
  exact hf _ m₁ hm₁

lemma Along.null : Along Noted (give .null) (give .null >>= fun _ => Pure.pure .normal) :=
  (Along.of_quiet plain_give.quiet).normal

lemma Along.pureNormal : Along Noted (Pure.pure ()) (Pure.pure .normal) := (Along.pure ()).normal

lemma Along.iterate {c c' : Run Bool} {b : Run Unit} {b' : Run Flow} (hc : Along Same c c')
    (hb : Along Noted b b') (fuel : Nat) :
    Along Noted (iterate c b fuel) (Structured.iterate c' b' fuel) := by
  induction fuel with
  | zero => exact fun m hm => .error _ (Machine.settled_of_none hm.returning)
  | succ fuel ih => exact hc.bind fun t => .ite (hb.unlessReturned ih) .pureNormal

/-! ## Visiting trees -/

variable {body : Node → Run Unit} {body' : Node → Run Flow} {fuel : Nat}

lemma along_values {es : List Node}
    (h : ∀ e ∈ es, Along Same (visit body fuel e) (Structured.eval body' fuel e)) :
    Along Same (values body fuel es) (Structured.evalAll body' fuel es) := by
  induction es with
  | nil => exact .pure _
  | cons e es ih =>
    obtain ⟨he, hes⟩ := List.forall_mem_cons.1 h
    rw [values, Structured.evalAll]
    exact he.valueOf.bind fun _ => (ih hes).bind fun _ => .pure _

lemma along_visitBlock {ns : List Node}
    (h : ∀ n ∈ ns, Along Noted (visit body fuel n) (Structured.exec body' fuel n)) :
    Along Noted (visitBlock body fuel ns) (Structured.execAll body' fuel ns) := by
  induction ns with
  | nil => exact .pureNormal
  | cons n ns ih =>
    obtain ⟨hn, hns⟩ := List.forall_mem_cons.1 h
    rw [visitBlock, Structured.execAll]
    exact hn.unlessReturned (ih hns)

lemma along_invoke (hb : ∀ n, n.isAction = true → Along Noted (body n) (body' n))
    (hn : n.isAction = true)
    (args : List Ref) (p : Position) :
    Along Same (invoke body n args p) (Structured.invoke body' n args p) := by
  cases n with
  | define s returns id ps b =>
    refine (Along.of_calm calm_pushContext).bind fun _ =>
      (Along.of_calm calm_declareParameters).bind fun _ => ?_
    have hclose : ∀ v, KeepsCalm (do
        takeReturned id (← ask returns.returnTypeName) s.start v
        popContext) := fun v =>
      (KeepsCalm.of_quiet (Quiet.ask returns.balanced_returnTypeName)).bind fun _ =>
        (KeepsCalm.of_quiet plain_takeReturned.quiet).bind fun _ => calm_popContext
    exact (hb b hn).take fun v => .of_calm (hclose v)
  | _ => exact (Along.of_quiet (Quiet.ask (Node.balanced_dump _))).bind fun _ => .fail _ _

lemma calm_callee {name : String} {p : Position} : KeepsCalm (callee name p) := by
  unfold callee
  cases Builtin.ofName? name with
  | some b => exact .of_quiet (.pure _)
  | none =>
    refine (KeepsCalm.of_quiet quiet_get).bind fun m => ?_
    cases m.functions.lookup name with
    | some n => exact .of_quiet (.pure _)
    | none => exact .fail _ _

lemma mem_functions_of_callee {name : String} {p : Position}
    (h : callee name p m = .ok (.defined n) m') : m' = m ∧ (name, n) ∈ m.functions := by
  unfold callee at h
  cases hb : Builtin.ofName? name with
  | some b =>
    rw [hb] at h
    cases h
  | none =>
    simp only [hb, bind_run, get_run] at h
    cases hl : m.functions.lookup name with
    | none =>
      rw [hl] at h
      cases h
    | some n' =>
      rw [hl] at h
      cases h
      obtain ⟨before, after, heq, -⟩ := List.lookup_eq_some_iff.1 hl
      exact ⟨rfl, by rw [heq]; simp⟩

lemma along_callNamed (hb : ∀ n, n.isAction = true → Along Noted (body n) (body' n)) (name : String)
    (args : List Ref) (q p : Position) :
    Along Same (callNamed body name args q p) (Structured.callNamed body' name args q p) := by
  intro m hm
  have hcallee : Alike Same (callee name q m) (callee name q m) := Along.of_calm calm_callee m hm
  unfold callNamed Structured.callNamed
  rw [bind_run, bind_run]
  cases hf : callee name q m with
  | error e m' =>
    rw [hf] at hcallee
    cases hcallee with
    | error e h => exact .error e h
  | ok f m' =>
    cases f with
    | builtin b =>
      rw [hf] at hcallee
      cases hcallee with
      | ok h =>
        exact ((Along.of_quiet plain_callBuiltin.quiet).bind fun r => .of_quiet plain_setLast.quiet)
          m'
          h.2.2
    | defined n =>
      obtain ⟨rfl, hmem⟩ := mem_functions_of_callee hf
      exact along_invoke hb (hm.functions name n hmem) args p m' hm

/-- Visiting an expression is evaluating it, and no return is under way behind it. -/
lemma visit_term (hb : ∀ n, n.isAction = true → Along Noted (body n) (body' n)) {n : Node}
    (hn : n.isTerm = true) : Along Same (visit body fuel n) (Structured.eval body' fuel n) := by
  match n with
  | .int .. | .float .. | .string .. | .bool .. | .null .. =>
    rw [visit, Structured.eval]
    exact .of_quiet plain_give.quiet
  | .name s id =>
    rw [visit, Structured.eval]
    exact (Along.of_calm calm_cellOf).bind fun _ => .of_quiet plain_setLast.quiet
  | .list s es =>
    rw [visit, Structured.eval]
    refine (along_values fun e he => visit_term hb (Node.allTerms_iff.1 hn e he)).bind fun rs => ?_
    cases rs with
    | nil => exact .of_quiet plain_give.quiet
    | cons r rs => exact (Along.of_quiet plain_value.quiet).bind fun _ => .of_quiet plain_give.quiet
  | .binary s op left right =>
    obtain ⟨hleft, hright⟩ := Bool.and_eq_true_iff.1 hn
    have hl := visit_term hb hleft
    have hr := visit_term hb hright
    by_cases ha : op = .and
    · subst ha
      rw [visit, Structured.eval]
      exact hl.holds.bind fun _ => .ite (hr.holds.bind fun _ => .of_quiet plain_give.quiet)
        (.of_quiet plain_give.quiet)
    · by_cases ho : op = .or
      · subst ho
        rw [visit, Structured.eval]
        exact hl.holds.bind fun _ => .ite (.of_quiet plain_give.quiet)
          (hr.holds.bind fun _ => .of_quiet plain_give.quiet)
      · rw [visit_operation ha ho, Structured.eval]
        · exact hl.valueOf.bind fun _ => hr.valueOf.bind fun _ => .of_quiet plain_operate.quiet
        · exact ha
        · exact ho
  | .negate s e =>
    have he : e.isTerm = true := hn
    rw [visit, Structured.eval]
    exact (visit_term hb he).valueOf.bind fun _ => .of_quiet plain_negate.quiet
  | .member s o f =>
    have ho : o.isTerm = true := hn
    rw [visit, Structured.eval]
    exact (visit_term hb ho).valueOf.bind fun _ => (Along.of_quiet plain_requireObject.quiet).bind
      fun _ =>
      (Along.of_quiet plain_getAttribute.quiet).bind fun _ => .of_quiet plain_setLast.quiet
  | .construct s t args =>
    rw [visit, Structured.eval]
    exact (along_values fun e he => visit_term hb (Node.allTerms_iff.1 hn e he)).bind fun _ =>
      .of_quiet plain_construct.quiet
  | .call s target args =>
    obtain ⟨htarget, hargs⟩ := Bool.and_eq_true_iff.1 hn
    have ha := along_values fun e (he : e ∈ args) => visit_term hb (Node.allTerms_iff.1 hargs e he)
    cases target with
    | name t id =>
      rw [visit, Structured.eval]
      exact ha.bind fun rs => along_callNamed hb id rs _ _
    | member t o f =>
      have ho : o.isTerm = true := htarget
      rw [visit, Structured.eval]
      exact ha.bind fun _ => (visit_term hb ho).valueOf.bind fun _ =>
        (Along.of_quiet plain_requireObject.quiet).bind fun _ =>
          (Along.of_quiet plain_callMethod.quiet).bind fun _ => .of_quiet plain_setLast.quiet
    | int | float | string | bool | null | list | binary | negate | call | construct =>
      simp only [visit, Structured.eval]
      exact ha.bind fun _ => .fail _ _
    | _ => cases htarget
termination_by sizeOf n
decreasing_by
  all_goals subst_vars
  all_goals simp_wf
  all_goals first | omega | (have hlt := List.sizeOf_lt_of_mem ‹_ ∈ _›; omega)

/-- Visiting a statement is executing it, with a note of what it returns. -/
lemma visit_action (hb : ∀ n, n.isAction = true → Along Noted (body n) (body' n)) {n : Node}
    (hn : n.isAction = true) : Along Noted (visit body fuel n) (Structured.exec body' fuel n) := by
  match n with
  | .block s ns =>
    rw [visit, Structured.exec]
    have hns := along_visitBlock fun e (he : e ∈ ns) =>
      visit_action hb (Node.allActions_iff.1 hn e he)
    exact (Along.of_calm calm_enter).bind fun _ => hns.andThen blind_exit calm_exit
  | .declare s t id e =>
    have he : e.isTerm = true := hn
    rw [visit, Structured.exec]
    exact (visit_term hb he).valueOf.bind fun _ => (Along.of_calm calm_declare).bind fun _ => .null
  | .branch s c a b =>
    simp only [Node.isAction, Bool.and_eq_true] at hn
    rw [visit, Structured.exec]
    refine (visit_term hb hn.1.1).holds.bind fun t => ?_
    have hnull : KeepsCalm (give .null) := .of_quiet plain_give.quiet
    cases t with
    | true => exact (visit_action hb hn.1.2).andThen (blind_give _) hnull
    | false =>
      cases hp : b.isPresent with
      | true =>
        have hpart : b.isAction = true := by simpa [hp] using hn.2
        exact (visit_action hb hpart).andThen (blind_give _) hnull
      | false => exact Along.pureNormal.andThen (blind_give _) hnull
  | .loop s c b =>
    obtain ⟨hc, hstep⟩ := Bool.and_eq_true_iff.1 hn
    rw [visit, Structured.exec]
    exact ((visit_term hb hc).holds.iterate (visit_action hb hstep) fuel).andThen (blind_give _)
      (.of_quiet plain_give.quiet)
  | .assign s target e =>
    obtain ⟨htarget, he⟩ := Bool.and_eq_true_iff.1 hn
    have hv : Along Same (visit body fuel e) (Structured.eval body' fuel e) := visit_term hb he
    cases target with
    | name t id =>
      rw [visit, Structured.exec]
      exact hv.valueOf.bind fun _ => (Along.of_calm calm_assign).bind fun _ => .null
    | member t o f =>
      have ho : o.isTerm = true := htarget
      rw [visit, Structured.exec]
      exact hv.bind fun _ => (visit_term hb ho).valueOf.bind fun _ =>
        (Along.of_quiet plain_setAttribute.quiet).bind fun _ => .null
    | int | float | string | bool | null | list | binary | negate | call | construct =>
      simp only [visit, Structured.exec]
      exact hv.bind fun _ => .fail _ _
    | _ => cases htarget
  | .giveBack s e =>
    rw [visit, Structured.exec]
    have hnote : ∀ r, Along Noted (modify fun m : Machine => { m with returning := some r })
        (pure (.returned r)) := fun r m hm => .ok ⟨rfl, hm⟩
    cases hp : e.isPresent with
    | true =>
      have he : e.isTerm = true := by simpa [Node.isAction, hp] using hn
      exact (visit_term hb he).valueOf.bind hnote
    | false => exact (Along.of_quiet plain_nothing.quiet).bind hnote
  | .callStatement s e | .expressionStatement s e =>
    have he : e.isTerm = true := hn
    rw [visit, Structured.exec]
    exact (visit_term hb he).bind fun _ => .null
  | .define .. =>
    rw [visit, Structured.exec]
    exact .null
termination_by sizeOf n
decreasing_by
  all_goals simp_wf
  all_goals first | omega | (have hlt := List.sizeOf_lt_of_mem ‹_ ∈ _›; omega)

lemma bodyAt_action (fuel depth : Nat) (hn : n.isAction = true) :
    Along Noted (bodyAt fuel depth n) (Structured.bodyAt fuel depth n) := by
  induction depth generalizing n with
  | zero => exact fun m hm => .error _ (Machine.settled_of_none hm.returning)
  | succ depth ih => exact visit_action (fun n hn => ih hn) hn

/-! ## What is left of a machine -/

section

variable {Q : α → Machine → β → Machine → Prop} {x : Run α} {y : Run β} {a : α}

lemma Along.ok (h : Along Q x y) (hm : m.Clear) (hx : x m = .ok a m') :
    ∃ b m'', y m = .ok b m'' ∧ Q a m' b m'' := by
  have halike := h m hm
  rw [hx] at halike
  generalize hy : y m = r at halike
  cases halike with
  | ok hQ => exact ⟨_, _, rfl, hQ⟩

lemma Along.error {e : Stop} (h : Along Q x y) (hm : m.Clear) (hx : x m = .error e m') :
    y m = .error e m'.settled := by
  have halike := h m hm
  rw [hx] at halike
  generalize hy : y m = r at halike
  cases halike with
  | error e hm' => rw [hm']

lemma Along.clear {y : Run α} (h : Along Same x y) (hm : m.Clear) (hx : x m = .ok a m') :
    m'.Clear := by
  obtain ⟨b, m'', -, -, rfl, hclear⟩ := h.ok hm hx
  exact hclear

lemma Along.clear_of_none {x : Run Unit} {y : Run Flow} (h : Along Noted x y) (hm : m.Clear)
    (hx : x m = .ok () m') (hr : m'.returning = none) : m'.Clear := by
  obtain ⟨flow, m'', -, rfl, hclear⟩ := h.ok hm hx
  exact ⟨hr, hclear.functions⟩

end

lemma visitAt_term (fuel depth : Nat) (hn : n.isTerm = true) :
    Along Same (visitAt fuel depth n) (Structured.eval (Structured.bodyAt fuel depth) fuel n) :=
  visit_term (fun _ h => bodyAt_action fuel depth h) hn

lemma visitAt_action (fuel depth : Nat) (hn : n.isAction = true) :
    Along Noted (visitAt fuel depth n) (Structured.execAt fuel depth n) :=
  visit_action (fun _ h => bodyAt_action fuel depth h) hn

lemma valuesAt_terms (fuel depth : Nat) {ns : List Node} (hns : ∀ n ∈ ns, n.isTerm = true) :
    Along Same (valuesAt fuel depth ns)
      (Structured.evalAll (Structured.bodyAt fuel depth) fuel ns) :=
  along_values fun n hn => visitAt_term fuel depth (hns n hn)

/-- Statements behind one that has returned make no difference. -/
lemma visitBlock_of_returned {before after : List Node} {r : Ref} : ∀ {m m₁ : Machine},
    m.returning = none → visitBlock body fuel before m = .ok () m₁ → m₁.returning = some r →
    visitBlock body fuel (before ++ after) m = .ok () m₁ := by
  induction before with
  | nil =>
    intro m m₁ hm h hr
    cases h
    rw [hm] at hr
    cases hr
  | cons n ns ih =>
    intro m m₁ hm h hr
    rw [visitBlock] at h
    obtain ⟨u, m₂, hn, h₁⟩ := ok_of_bind h
    rw [List.cons_append, visitBlock, bind_of_ok hn]
    simp only [bind_run, get_run] at h₁ ⊢
    cases hm₂ : m₂.returning with
    | none =>
      simp only [hm₂, Option.isNone_none, if_true] at h₁ ⊢
      exact ih hm₂ h₁ hr
    | some q =>
      simp only [hm₂] at h₁ ⊢
      exact h₁

/-- A block that has returned ends in the same way whatever else is put at its end. -/
lemma visit_block_of_returned {s : Span} {before : List Node} {m₁ : Machine} {r : Ref}
    (hm : m.returning = none)
    (h : visit body fuel (.block s before) m = .ok () m₁) (hr : m₁.returning = some r)
    (after : List Node) : visit body fuel (.block s (before ++ after)) m = .ok () m₁ := by
  rw [visit] at h ⊢
  obtain ⟨u, m₂, henter, h₁⟩ := ok_of_bind h
  obtain ⟨u', m₃, hbefore, hexit⟩ := ok_of_bind h₁
  have hm₂ : m₂.returning = none := ((calm_enter.ends m).ok henter).returning.trans hm
  have hm₃ : m₃.returning = some r := ((calm_exit.ends m₃).ok hexit).returning.symm.trans hr
  rw [bind_of_ok henter, bind_of_ok (visitBlock_of_returned hm₂ hbefore hm₃)]
  exact hexit

end Run

/-! ## The moments of a run -/

namespace Node

lemma isTerm_of_first? {e : Node} (h : n.first? = some e)
    (hn : n.isTerm = true ∨ n.isAction = true) : e.isTerm = true := by
  cases n with
  | binary s op l r =>
    cases h
    rcases hn with hn | hn
    · exact (Bool.and_eq_true_iff.1 hn).1
    · cases hn
  | negate | member =>
    cases h
    rcases hn with hn | hn
    · exact hn
    · cases hn
  | declare | callStatement | expressionStatement =>
    cases h
    rcases hn with hn | hn
    · cases hn
    · exact hn
  | branch s c a b =>
    cases h
    rcases hn with hn | hn
    · cases hn
    · simp only [isAction, Bool.and_eq_true] at hn
      exact hn.1.1
  | assign s target e' =>
    cases h
    rcases hn with hn | hn
    · cases hn
    · exact (Bool.and_eq_true_iff.1 hn).2
  | giveBack s e' =>
    cases hp : e'.isPresent with
    | false => simp [first?, hp] at h
    | true =>
      simp only [first?, hp, if_pos, Option.some.injEq] at h
      subst h
      simpa [isTerm, isAction, hp] using hn
  | _ => cases h

lemma isTerm_of_mem_items {e : Node} (h : e ∈ n.items) (hn : n.isTerm = true ∨ n.isAction = true) :
    e.isTerm = true := by
  cases n with
  | list | construct =>
    rcases hn with hn | hn
    · exact allTerms_iff.1 hn e h
    · cases hn
  | call s target args =>
    rcases hn with hn | hn
    · exact allTerms_iff.1 (Bool.and_eq_true_iff.1 hn).2 e h
    · cases hn
  | _ => simp [items] at h

end Node

namespace Moment

variable {fuel d : Nat} {c c' : Moment} {I : Machine → Prop}

/-- What lasts from moment to moment: behind an expression, behind a statement if no return is under
way, and at the start of a block and of a call, whose body then is put together as it should. -/
structure Lasting (fuel : Nat) (I : Machine → Prop) : Prop where
  term : ∀ {d n m m'}, n.isTerm = true → I m → visitAt fuel d n m = .ok () m' → I m'
  action : ∀ {d n m m'}, n.isAction = true → I m → visitAt fuel d n m = .ok () m' →
    m'.returning = none → I m'
  enter : ∀ {m m'}, I m → enter m = .ok () m' → I m'
  call : ∀ {d args rs id id' p q u returns ps b m m₁ m₂ m'}, (∀ a ∈ args, a.isTerm = true) → I m →
    valuesAt fuel d args m = .ok rs m₁ →
    callee id p m₁ = .ok (.defined (.define u returns id' ps b)) m₁ →
      pushContext id' q m₁ = .ok () m₂ →
    declareParameters ps rs m₂ = .ok () m' → I m' ∧ b.isAction = true

namespace Lasting

lemma values (hI : Lasting fuel I) {ns : List Node} (hns : ∀ n ∈ ns, n.isTerm = true) :
    ∀ {m rs}, I m → valuesAt fuel d ns m = .ok rs m' → I m' := by
  induction ns with
  | nil =>
    intro m rs hm h
    cases h
    exact hm
  | cons n ns ih =>
    intro m rs hm h
    obtain ⟨hn, hns⟩ := List.forall_mem_cons.1 hns
    rw [valuesAt, Run.values] at h
    obtain ⟨r, m₁, hvalue, h⟩ := ok_of_bind h
    obtain ⟨rs', m₂, hrest, h⟩ := ok_of_bind h
    obtain ⟨u, m₃, hvisit, hlast⟩ := ok_of_bind hvalue
    cases hlast
    cases h
    exact ih hns (hI.term hn hm hvisit) hrest

lemma holds (hI : Lasting fuel I) {a : Node} {t : Bool} (ha : a.isTerm = true) (hm : I m)
    (h : holds (visitAt fuel d a) m = .ok t m') : I m' := by
  obtain ⟨r, m₁, hvalue, h⟩ := ok_of_bind h
  obtain ⟨u, m₂, hvisit, hlast⟩ := ok_of_bind hvalue
  cases hlast
  cases h
  exact hI.term ha hm hvisit

lemma rounds (hI : Lasting fuel I) {i : Nat} {a b : Node} (ha : a.isTerm = true)
    (hb : b.isAction = true)
    (hm : I m) (h : Rounds (Run.holds (visitAt fuel d a)) (visitAt fuel d b) i m m') : I m' := by
  induction h with
  | none => exact hm
  | more _ hc hs hr ih => exact hI.action hb (hI.holds ha (ih hm) hc) hs hr

lemma block (hI : Lasting fuel I) {ns : List Node} (hns : ∀ n ∈ ns, n.isAction = true) :
    ∀ {m}, I m → visitBlock (bodyAt fuel d) fuel ns m = .ok () m' → m'.returning = none → I m' := by
  induction ns with
  | nil =>
    intro m hm h _
    cases h
    exact hm
  | cons n ns ih =>
    intro m hm h hr
    obtain ⟨hn, hns⟩ := List.forall_mem_cons.1 hns
    rw [visitBlock] at h
    obtain ⟨u, m₁, hvisit, h⟩ := ok_of_bind h
    simp only [bind_run, get_run] at h
    cases hreturning : m₁.returning with
    | none =>
      simp only [hreturning, Option.isNone_none, if_true] at h
      exact ih hns (hI.action hn hm hvisit hreturning) h hr
    | some r =>
      -- a return ends the block, and none is under way at its end
      simp only [hreturning] at h
      cases h
      rw [hreturning] at hr
      cases hr

end Lasting

/-- Something holds of the machine, and what is to be visited is put together as it should. -/
structure Proper (I : Machine → Prop) (c : Moment) : Prop where
  machine : I c.machine
  node : c.node.isTerm = true ∨ c.node.isAction = true

lemma Enters.proper (hI : Lasting fuel I) (h : Enters fuel c c') (hc : c.Proper I) :
    c'.Proper I := by
  obtain ⟨hm, hn⟩ := hc
  cases h with
  | first h => exact ⟨hm, .inl (Node.isTerm_of_first? h hn)⟩
  | @item d n e before after Γ m m' rs h hb =>
    have hterms : ∀ a ∈ n.items, a.isTerm = true := fun a ha => Node.isTerm_of_mem_items ha hn
    rw [h] at hterms
    have hm' := hI.values (fun a ha => hterms a (List.mem_append_left _ ha)) hm hb
    exact ⟨hm', .inl (hterms e (by simp))⟩
  | @right d s op l r Γ m m' hl =>
    rcases hn with hn | hn
    · obtain ⟨hleft, hright⟩ := Bool.and_eq_true_iff.1 hn
      exact ⟨hI.term hleft hm hl, .inl hright⟩
    · cases hn
  | @receiver d s t o f args Γ m m' rs ha =>
    rcases hn with hn | hn
    · obtain ⟨ho, hargs⟩ := Bool.and_eq_true_iff.1 hn
      exact ⟨hI.values (Node.allTerms_iff.1 hargs) hm ha, .inl ho⟩
    · cases hn
  | @owner d s t o e f Γ m m' he =>
    rcases hn with hn | hn
    · cases hn
    · obtain ⟨ho, hvalue⟩ := Bool.and_eq_true_iff.1 hn
      exact ⟨hI.term hvalue hm he, .inl ho⟩
  | @onTrue d s cond a b Γ m m' hv =>
    rcases hn with hn | hn
    · cases hn
    · simp only [Node.isAction, Bool.and_eq_true] at hn
      exact ⟨hI.term hn.1.1 hm hv, .inr hn.1.2⟩
  | @onFalse d s cond a b Γ m m' hv _ hp =>
    rcases hn with hn | hn
    · cases hn
    · simp only [Node.isAction, hp, Bool.and_eq_true, Bool.not_true, Bool.false_or] at hn
      exact ⟨hI.term hn.1.1 hm hv, .inr hn.2⟩
  | condition _ hr =>
    rcases hn with hn | hn
    · cases hn
    · obtain ⟨ha, hb⟩ := Bool.and_eq_true_iff.1 hn
      exact ⟨hI.rounds ha hb hm hr, .inl ha⟩
  | @round d i s a b Γ m m₁ m' _ hr hv =>
    rcases hn with hn | hn
    · cases hn
    · obtain ⟨ha, hb⟩ := Bool.and_eq_true_iff.1 hn
      exact ⟨hI.holds ha (hI.rounds ha hb hm hr) hv, .inr hb⟩
  | @statement d s n ns before after Γ m m₁ m' h he hb hr =>
    rcases hn with hn | hn
    · cases hn
    · have hactions : ∀ k ∈ ns, k.isAction = true := Node.allActions_iff.1 hn
      rw [h] at hactions
      have hm' := hI.block (fun k hk => hactions k (List.mem_append_left _ hk)) (hI.enter hm he) hb
        hr
      exact ⟨hm', .inr (hactions n (by simp))⟩
  | @body d s t u id id' returns b args ps Γ m m₁ m₂ m' rs ha hf hpush hp =>
    rcases hn with hn | hn
    · have hargs := Node.allTerms_iff.1 (Bool.and_eq_true_iff.1 hn).2
      obtain ⟨hm', hb⟩ := hI.call hargs hm ha hf hpush hp
      exact ⟨hm', .inr hb⟩
    · cases hn
  | top => rcases hn with hn | hn <;> cases hn

/-- Whatever lasts holds whenever anything is visited. -/
lemma Reaches.proper (hI : Lasting fuel I) (h : Reaches fuel c c') (hc : c.Proper I) :
    c'.Proper I := by
  induction h with
  | here => exact hc
  | step h _ ih => exact ih (h.proper hI hc)

lemma lasting_clear (fuel : Nat) : Lasting fuel Machine.Clear where
  term hn hm h := (visitAt_term fuel _ hn).clear hm h
  action hn hm h hr := (visitAt_action fuel _ hn).clear_of_none hm h hr
  enter hm h := hm.of_calm ((calm_enter.ends _).ok h)
  call := by
    intro d args rs id id' p q u returns ps b m m₁ m₂ m' hargs hm ha hf hpush hp
    have hm₁ := (valuesAt_terms fuel d hargs).clear hm ha
    have hm₂ : m₂.Clear := hm₁.of_calm ((calm_pushContext.ends m₁).ok hpush)
    have hm' : m'.Clear := hm₂.of_calm ((calm_declareParameters.ends m₂).ok hp)
    obtain ⟨-, hmem⟩ := mem_functions_of_callee hf
    have hdefine : (Node.define u returns id' ps b).isAction = true := hm₁.functions id _ hmem
    exact ⟨hm', by simpa only [Node.isAction] using hdefine⟩

end Moment

/-! ## Every statement -/

/-- Visiting a statement while no return is under way is executing it: it ends normally with no
return noted, or with a note of the value that is returned, or it stops, just as the structured
semantics says, and the machine is the same but for the note.  A block that has returned ends alike
whatever else is put at its end, and whatever is visited, is visited while no return is under
way. -/
theorem visit_is_structured {n : Node} (hn : n.isAction = true) {m : Machine} (hm : m.Clear)
    (fuel depth : Nat) :
    (∀ flow m', (∃ m₁, visitAt fuel depth n m = .ok () m₁ ∧ m₁.returning = flow.value? ∧
      m₁.settled = m') ↔
      Structured.execAt fuel depth n m = .ok flow m') ∧
    (∀ e m', (∃ m₁, visitAt fuel depth n m = .error e m₁ ∧ m₁.settled = m') ↔
      Structured.execAt fuel depth n m = .error e m') ∧
    (∀ s before r m₁, n = .block s before → visitAt fuel depth n m = .ok () m₁ →
      m₁.returning = some r →
      ∀ after, visitAt fuel depth (.block s (before ++ after)) m = .ok () m₁) ∧
    ∀ Γ c, Reaches fuel ⟨depth, n, Γ, m⟩ c → c.machine.returning = none := by
  have halong := visitAt_action fuel depth hn
  refine ⟨fun flow m' => ⟨?_, fun h => ?_⟩, fun e m' => ⟨?_, fun h => ?_⟩, ?_, ?_⟩
  · rintro ⟨m₁, hvisit, hflow, rfl⟩
    obtain ⟨flow', m'', hexec, hnoted, hclear⟩ := halong.ok hm hvisit
    obtain rfl : flow' = flow := by
      rw [hnoted] at hflow
      cases flow <;> cases flow' <;> simp_all [Flow.value?]
    rw [hexec, hnoted]
    exact congrArg _ (Machine.settled_of_none (m := m'') hclear.returning).symm
  · have halike := halong m hm
    rw [h] at halike
    generalize hv : visitAt fuel depth n m = r at halike
    cases halike with
    | ok hnoted =>
      obtain ⟨rfl, hclear⟩ := hnoted
      exact ⟨_, rfl, rfl, Machine.settled_of_none hclear.returning⟩
  · rintro ⟨m₁, hvisit, rfl⟩
    exact halong.error hm hvisit
  · have halike := halong m hm
    rw [h] at halike
    generalize hv : visitAt fuel depth n m = r at halike
    cases halike with
    | error e hsettled => exact ⟨_, rfl, hsettled⟩
  · rintro s before r m₁ rfl hvisit hr after
    exact visit_block_of_returned hm.returning hvisit hr after
  · intro Γ c hc
    exact (hc.proper (lasting_clear fuel) ⟨hm, .inr hn⟩).machine.returning

namespace Node

/-- `func int doubled(int x) { while (true) { if (x == 0) { } else { return x + x; } } }` -/
def doubled : Node :=
  .define (.columns 0 33) (.type (.columns 1 1) "int") "doubled"
    [.parameter (.columns 4 5) (.type (.columns 4 4) "int") (.plain "x")]
    (.block (.columns 7 33)
      [.loop (.columns 8 32) (.bool (.columns 10 10) true)
        (.block (.columns 12 32)
          [.branch (.columns 13 31) (.binary (.columns 15 17) .equals (.name (.columns 15 15) "x")
              (.int (.columns 17 17) 0))
            (.block (.columns 19 20) [])
            (.block (.columns 22 31)
              [.giveBack (.columns 23 27)
                (.binary (.columns 24 26) .add (.name (.columns 24 24) "x")
                (.name (.columns 26 26) "x"))])])])

/-- `while (true) { return doubled(doubled(1)) + 1; }` -/
def doubling : Node :=
  .loop (.columns 1 19) (.bool (.columns 3 3) true)
    (.block (.columns 5 19)
      [.giveBack (.columns 6 16) (.binary (.columns 7 15) .add
        (.call (.columns 7 13) (.name (.columns 7 7) "doubled")
          [.call (.columns 9 12) (.name (.columns 9 9) "doubled") [.int (.columns 11 11) 1]])
        (.int (.columns 15 15) 1))])

end Node

/-- A machine that knows the function. -/
def Machine.doubling : Machine where
  functions := [("doubled", .doubled)]
  input := .lines []

/-- The block returns from its loop, behind two calls that have returned from theirs, and a
statement at its end is not executed. -/
theorem visit_is_structured_doubling :
    (Node.block (.columns 0 20) [.doubling]).isAction = true ∧ Machine.doubling.Clear ∧
      ∃ r m₁, m₁.returning = some r ∧ m₁.store.get r = .int 5 ∧
        Structured.execAt 2 3 (.block (.columns 0 20) [.doubling]) .doubling = .ok (.returned r)
        m₁.settled ∧
        visitAt 2 3 (.block (.columns 0 20) [.doubling, .giveBack (.columns 20 21) .missing])
          .doubling = .ok () m₁ := by
  have haction : (Node.block (.columns 0 20) [.doubling]).isAction = true := rfl
  have hclear : Machine.doubling.Clear := by
    refine ⟨rfl, fun x n h => ?_⟩
    cases List.mem_singleton.1 h
    rfl
  have hexec : ∃ r m', Structured.execAt 2 3 (.block (.columns 0 20) [.doubling]) .doubling
      = .ok (.returned r) m' ∧ m'.store.get r = .int 5 := by
    refine ⟨_, _, by cbv, ?_⟩
    cbv
  obtain ⟨r, m', hexec, hvalue⟩ := hexec
  obtain ⟨hends, -, hblock, -⟩ := visit_is_structured haction hclear 2 3
  obtain ⟨m₁, hvisit, hreturning, rfl⟩ := (hends (.returned r) m').2 hexec
  exact ⟨haction, hclear, r, m₁, hreturning, hvalue, hexec, hblock _ _ _ _ rfl hvisit hreturning _⟩

end AudLang
