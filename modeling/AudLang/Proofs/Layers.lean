import AudLang.Proofs.Returning

/-!
The layers of a machine.

A context, seen without the cells of its variables, is a layer: its name, and for each scope the
names declared there.  The layers of a machine are those of its contexts, from the innermost call
outward to the module.  They tell which calls and scopes are open and what each scope declares, and
nothing else.
-/

namespace AudLang

open Run

variable {name : String} {r : Ref} {p : Position} {m : Machine}

/-! ## Layers -/

/-- The names of the variables of a scope, in the order of declaration. -/
def Scope.names (s : Scope) : List String := s.bindings.map Prod.fst

/-- A context without the cells of its variables. -/
structure Layer where
  name : String
  /-- The variables of the scopes of blocks, from the innermost outward. -/
  inner : List (List String)
  /-- The variables of the base scope. -/
  base : List String
deriving DecidableEq, Repr

/-- What is left of a context without cells. -/
def Context.layer (c : Context) : Layer := ⟨c.name, c.inner.map Scope.names, c.base.names⟩

namespace Layer

/-- Variables declared in the innermost scope. -/
def add (l : Layer) (xs : List String) : Layer :=
  match l.inner with
  | scope :: outer => { l with inner := (scope ++ xs) :: outer }
  | [] => { l with base := l.base ++ xs }

/-- Scopes opened on top of the others. -/
def under (l : Layer) (scopes : List (List String)) : Layer := { l with inner := scopes ++ l.inner }

@[simp] lemma add_nil (l : Layer) : l.add [] = l := by
  obtain ⟨name, inner, base⟩ := l
  cases inner <;> simp [add]

@[simp] lemma add_add (l : Layer) (xs ys : List String) : (l.add xs).add ys = l.add (xs ++ ys) := by
  obtain ⟨name, inner, base⟩ := l
  cases inner <;> simp [add]

@[simp] lemma under_nil (l : Layer) : l.under [] = l := rfl

@[simp] lemma under_under (l : Layer) (ss ts : List (List String)) :
    (l.under ss).under ts = l.under (ts ++ ss) := by simp [under]

/-- What is declared in a scope on top says nothing about those below. -/
@[simp] lemma add_under_cons (l : Layer) (scope : List String) (scopes : List (List String))
    (xs : List String) :
    (l.under (scope :: scopes)).add xs = l.under ((scope ++ xs) :: scopes) := rfl

@[simp] lemma length_inner_add (l : Layer) (xs : List String) :
    (l.add xs).inner.length = l.inner.length := by
  obtain ⟨name, inner, base⟩ := l
  cases inner <;> simp [add]

end Layer

lemma Context.layer_add (c : Context) (name : String) (r : Ref) :
    (c.add name r).layer = c.layer.add [name] := by
  obtain ⟨id, inner, base⟩ := c
  cases inner <;> simp [Context.add, Context.layer, Layer.add, Scope.add, Scope.names]

lemma Scope.names_rebind (s : Scope) (name : String) (r : Ref) :
    (s.rebind name r).names = s.names := by
  simp [Scope.names, Scope.rebind, Function.comp_def]

lemma Context.names_rebindIn {ss ss' : List Scope} (h : rebindIn name r ss = some ss') :
    ss'.map Scope.names = ss.map Scope.names := by
  induction ss generalizing ss' with
  | nil => cases h
  | cons s outer ih =>
    rw [rebindIn] at h
    split at h
    · cases h
      simp only [List.map_cons, Scope.names_rebind]
    · obtain ⟨outer', houter, rfl⟩ := Option.map_eq_some_iff.mp h
      simp only [List.map_cons, ih houter]

lemma Context.layer_rebind {c c' : Context} (h : c.rebind name r = some c') :
    c'.layer = c.layer := by
  unfold Context.rebind at h
  split at h
  · rename_i inner hinner
    cases h
    simp only [Context.layer, Context.names_rebindIn hinner]
  · split at h
    · cases h
      simp only [Context.layer, Scope.names_rebind]
    · cases h

namespace Machine

/-- The layers of the contexts, from the innermost call outward to the module. -/
def layers (m : Machine) : List Layer := (m.calls ++ [m.module]).map Context.layer

variable {m' : Machine}

lemma layers_congr (hm : m'.module = m.module) (hc : m'.calls = m.calls) :
    m'.layers = m.layers := by
  unfold layers
  rw [hm, hc]

lemma layers_ne_nil (m : Machine) : m.layers ≠ [] := by simp [layers]

/-- The layer of the current context comes first. -/
lemma head_layers (m : Machine) : ∃ outer, m.layers = m.current.layer :: outer := by
  unfold layers current
  cases m.calls with
  | nil => exact ⟨[], rfl⟩
  | cons c outer => exact ⟨_, rfl⟩

lemma layers_updateCurrent {h : Context → Context} {g : Layer → Layer}
    (hg : (h m.current).layer = g m.current.layer) :
    (m.updateCurrent h).layers = m.layers.modifyHead g := by
  unfold current at hg
  unfold layers updateCurrent
  cases hc : m.calls with
  | nil => rw [hc] at hg; simp [show (h m.module).layer = g m.module.layer from hg]
  | cons c outer => rw [hc] at hg; simp [show (h c).layer = g c.layer from hg]

lemma layers_rebind (m : Machine) (name : String) (r : Ref) :
    (m.rebind name r).layers = m.layers := by
  unfold rebind
  split
  · rename_i hcalls
    cases h : m.module.rebind name r with
    | none => rfl
    | some c =>
      simp only [layers, Option.getD_some, List.map_append, List.map_cons, Context.layer_rebind h]
  · rename_i c outer hcalls
    cases h : c.rebind name r with
    | none => simp only [layers, List.map_append, List.map_cons, Context.layer, Scope.names_rebind]
    | some c' => simp only [layers, hcalls, List.cons_append, List.map_cons, Context.layer_rebind h]

/-- The layers are as before, but for some variables declared in the innermost scope. -/
def Grown (m m' : Machine) (xs : List String) : Prop := m'.layers = m.layers.modifyHead (·.add xs)

lemma grown_nil_iff : m.Grown m' [] ↔ m'.layers = m.layers := by
  obtain ⟨outer, h⟩ := m.head_layers
  simp [Grown, h]

lemma Grown.trans {m'' : Machine} {xs ys : List String} (h : m.Grown m' xs) (h' : m'.Grown m'' ys) :
    m.Grown m'' (xs ++ ys) := by
  obtain ⟨outer, hm⟩ := m.head_layers
  unfold Grown at *
  rw [h', h, hm]
  simp

lemma Grown.under {m'' : Machine} {scope xs : List String}
    (h : m'.layers = m.layers.modifyHead (·.under [scope])) (h' : m'.Grown m'' xs) :
    m''.layers = m.layers.modifyHead (·.under [scope ++ xs]) := by
  obtain ⟨outer, hm⟩ := m.head_layers
  unfold Grown at h'
  rw [h', h, hm]
  simp

lemma Grown.cons {m'' : Machine} {l : Layer} {xs : List String} (h : m'.layers = l :: m.layers)
    (h' : m'.Grown m'' xs) : m''.layers = l.add xs :: m.layers := by
  unfold Grown at h'
  rw [h', h]
  rfl

end Machine

/-! ## Steps -/

namespace Run

variable {α β : Type}

/-- The step leaves all layers and the return under way as they are, whether it answers or stops,
and it does not stop over a scope that is not there. -/
structure Steady (x : Run α) : Prop where
  ends : ∀ m, Ends (x m) (fun _ m' => m'.layers = m.layers ∧ m'.returning = m.returning)
    (fun e m' => m'.layers = m.layers ∧ m'.returning = m.returning ∧ e ≠ .fault .unbalanced)

namespace Steady

lemma of_quiet {x : Run α} (h : Quiet x) : Steady x := by
  refine ⟨fun m => (h.ends m).weaken (fun _ m' _ hm => ?_) (fun _ m' _ hm => ?_)⟩
  · exact ⟨Machine.layers_congr hm.module hm.calls, hm.returning⟩
  · exact ⟨Machine.layers_congr hm.1.module hm.1.calls, hm.1.returning, hm.2.balanced⟩

lemma bind {x : Run α} {f : α → Run β} (hx : Steady x) (hf : ∀ a, Steady (f a)) :
    Steady (x >>= f) := by
  refine ⟨fun m => Ends.bind (hx.ends m) fun a m₁ _ h₁ => ?_⟩
  refine ((hf a).ends m₁).weaken (fun _ m' _ h => ?_) (fun _ m' _ h => ?_)
  · exact ⟨h.1.trans h₁.1, h.2.trans h₁.2⟩
  · exact ⟨h.1.trans h₁.1, h.2.1.trans h₁.2, h.2.2⟩

lemma fail (e : RunError) (p : Position) : Steady (Run.fail e p : Run α) :=
  ⟨fun _ => ⟨rfl, rfl, by simp⟩⟩

end Steady

lemma steady_cellOf : Steady (cellOf name p) := by
  refine (Steady.of_quiet quiet_get).bind fun m => ?_
  split
  · exact .of_quiet (.pure _)
  · exact .fail _ _

lemma steady_assign : Steady (assign name r p) := by
  refine steady_cellOf.bind fun target => (Steady.of_quiet plain_value.quiet).bind fun v => ?_
  refine (Steady.of_quiet plain_value.quiet).bind fun old => ?_
  split
  · exact ⟨fun m => ⟨rfl, rfl⟩⟩
  · refine ⟨fun m => ⟨m.layers_rebind name r, ?_⟩⟩
    obtain ⟨mod, cs, heq, -⟩ := m.rebind_eq name r
    show (m.rebind name r).returning = m.returning
    rw [heq]

lemma steady_callee : Steady (callee name p) := by
  unfold callee
  cases Builtin.ofName? name with
  | some b => exact .of_quiet (.pure _)
  | none =>
    refine (Steady.of_quiet quiet_get).bind fun m => ?_
    cases m.functions.lookup name with
    | some n => exact .of_quiet (.pure _)
    | none => exact .fail _ _

lemma steady_registerAll {ds : List Node} : Steady (registerAll ds) := by
  induction ds with
  | nil => exact .of_quiet (.pure _)
  | cons d ds ih =>
    refine (Steady.of_quiet (.ask d.balanced_definedName)).bind fun name => Steady.bind ?_ fun _ =>
      ih
    refine (Steady.of_quiet quiet_get).bind fun m => ?_
    split
    · split
      · exact .fail _ _
      · exact .of_quiet (.fault _ (by decide))
    · exact ⟨fun m => ⟨rfl, rfl⟩⟩

/-- A declaration adds one variable to the innermost scope. -/
lemma declare_ends (name : String) (r : Ref) (p : Position) (m : Machine) :
    Ends (declare name r p m) (fun _ m' => m.Grown m' [name] ∧ m'.returning = m.returning)
      (fun e m' => m'.layers = m.layers ∧ m'.returning = m.returning ∧ e ≠ .fault .unbalanced) := by
  simp only [declare, bind_run, get_run]
  split
  · exact ⟨rfl, rfl, by simp⟩
  · exact ⟨Machine.layers_updateCurrent (Context.layer_add _ _ _), m.updateCurrent_returning _⟩

lemma declareParameters_ends (ps : List Node) (rs : List Ref) (m : Machine) :
    Ends (declareParameters ps rs m) (fun _ m' => ∃ xs, m.Grown m' xs)
      (fun e m' => (∃ xs, m.Grown m' xs) ∧ m'.returning = m.returning ∧
        e ≠ .fault .unbalanced) := by
  fun_induction declareParameters ps rs generalizing m with
  | case1 s t x ps r rs ih =>
    refine Ends.bind ((declare_ends x r s.start m).weaken (fun _ _ _ h => h) fun _ m' _ h => ?_)
      fun _ m₁ _ h₁ => (ih m₁).weaken (fun _ m' _ h => ?_) fun _ m' _ h => ?_
    · exact ⟨⟨[], Machine.grown_nil_iff.mpr h.1⟩, h.2⟩
    · obtain ⟨xs, h⟩ := h
      exact ⟨_, h₁.1.trans h⟩
    · obtain ⟨⟨xs, h⟩, hr⟩ := h
      exact ⟨⟨_, h₁.1.trans h⟩, hr.1.trans h₁.2, hr.2⟩
  | case2 => exact ⟨⟨[], Machine.grown_nil_iff.mpr rfl⟩, rfl, by decide⟩
  | case3 => exact ⟨⟨[], Machine.grown_nil_iff.mpr rfl⟩, rfl, by decide⟩
  | case4 => exact ⟨[], Machine.grown_nil_iff.mpr rfl⟩

/-- A block puts a scope without variables on the first layer. -/
lemma enter_ok {m' : Machine} (h : enter m = .ok () m') :
    m'.layers = m.layers.modifyHead (·.under [[]]) ∧ m'.returning = m.returning := by
  cases h
  exact ⟨Machine.layers_updateCurrent rfl, m.updateCurrent_returning _⟩

/-- A scope that was opened can be left, and the layers are those from before. -/
lemma exit_of_under {m₁ : Machine} {scope : List String}
    (h : m₁.layers = m.layers.modifyHead (·.under [scope])) :
    ∃ m', exit m₁ = .ok () m' ∧ m'.layers = m.layers ∧ m'.returning = m₁.returning := by
  obtain ⟨outer, hm⟩ := m.head_layers
  obtain ⟨outer₁, hm₁⟩ := m₁.head_layers
  rw [hm, hm₁] at h
  injection h with hlayer houter
  cases hi : m₁.current.inner with
  | nil => simp [Context.layer, Layer.under, hi] at hlayer
  | cons s rest =>
    have hexit : exit m₁ = .ok () (m₁.updateCurrent fun c => { c with inner := rest }) := by
      simp only [exit, bind_run, get_run, hi, modify_run]
    have hrest : ({ m₁.current with inner := rest } : Context).layer = m.current.layer := by
      simp only [Context.layer, Layer.under, hi, List.map_cons, List.cons_append, List.nil_append,
        Layer.mk.injEq,
        List.cons.injEq] at hlayer
      simp only [Context.layer, hlayer]
    refine ⟨_, hexit, ?_, m₁.updateCurrent_returning _⟩
    rw [Machine.layers_updateCurrent (g := fun _ => m.current.layer) hrest, hm₁, hm, houter]
    rfl

/-- A call puts a layer without variables in front. -/
lemma pushContext_ends (name : String) (p : Position) (m : Machine) :
    Ends (pushContext name p m)
      (fun _ m' => m'.layers = ⟨name, [], []⟩ :: m.layers ∧ m'.returning = m.returning)
      (fun e m' => m'.layers = m.layers ∧ m'.returning = m.returning ∧ e ≠ .fault .unbalanced) := by
  simp only [pushContext, bind_run, get_run]
  split
  · exact ⟨rfl, rfl, by simp⟩
  · exact ⟨rfl, rfl⟩

/-- A call that was begun can be left, and the layers are those from before. -/
lemma popContext_of_cons {m₁ : Machine} {l : Layer} (h : m₁.layers = l :: m.layers) :
    ∃ m', popContext m₁ = .ok () m' ∧ m'.layers = m.layers ∧ m'.returning = m₁.returning := by
  cases hc : m₁.calls with
  | nil =>
    obtain ⟨outer, hm⟩ := m.head_layers
    rw [hm] at h
    simp [Machine.layers, hc] at h
  | cons c outer =>
    refine ⟨{ m₁ with calls := outer }, ?_, ?_, rfl⟩
    · simp only [popContext, bind_run, get_run, hc, modify_run]
    · simp only [Machine.layers, hc, List.cons_append, List.map_cons, List.cons.injEq] at h
      exact h.2

end Run

/-! ## Rising -/

/-- What was open is open, and on top of it there may be variables of the innermost scope, scopes of
the first layer, and layers. -/
def Layers.Rises (ls ls' : List Layer) : Prop :=
  ∃ above scopes xs, ls' = above ++ ls.modifyHead fun l => (l.add xs).under scopes

namespace Layers.Rises

variable {ls ls₁ ls' : List Layer} {l : Layer} {xs : List String}

lemma of_grown (h : ls' = ls.modifyHead (·.add xs)) : Rises ls ls' := ⟨[], [], xs, by simpa using h⟩

lemma after_grown (h : ls₁ = ls.modifyHead (·.add xs)) (h' : Rises ls₁ ls') : Rises ls ls' := by
  obtain ⟨above, scopes, ys, rfl⟩ := h'
  refine ⟨above, scopes, xs ++ ys, ?_⟩
  rw [h]
  cases ls <;> simp

/-- What rises from within a block rises from its start. -/
lemma of_under {scope : List String} (h : Rises (ls.modifyHead (·.under [scope])) ls') :
    Rises ls ls' := by
  obtain ⟨above, scopes, xs, rfl⟩ := h
  refine ⟨above, scopes ++ [scope ++ xs], [], ?_⟩
  cases ls <;> simp

/-- What rises from within a call rises from its start. -/
lemma of_cons (h : Rises (l :: ls) ls') : Rises ls ls' := by
  obtain ⟨above, scopes, xs, rfl⟩ := h
  refine ⟨above ++ [(l.add xs).under scopes], [], [], ?_⟩
  cases ls <;> simp

end Layers.Rises

/-- The number of scopes that are open. -/
def Layers.scopes (ls : List Layer) : Nat := (ls.map fun l => l.inner.length + 1).sum

namespace Layers

variable {ls ls' : List Layer}

lemma scopes_cons (l : Layer) (ls : List Layer) :
    scopes (l :: ls) = l.inner.length + 1 + scopes ls := by
  simp [scopes]

lemma scopes_pos (h : ls ≠ []) : 0 < scopes ls := by
  cases ls with
  | nil => exact absurd rfl h
  | cons l ls => rw [scopes_cons]; omega

lemma scopes_under (h : ls ≠ []) (scope : List String) :
    scopes (ls.modifyHead (·.under [scope])) = scopes ls + 1 := by
  cases ls with
  | nil => exact absurd rfl h
  | cons l ls =>
    simp only [List.modifyHead_cons, scopes_cons, Layer.under, List.length_append,
      List.length_singleton]
    omega

/-- Whatever rises has no fewer scopes. -/
lemma Rises.scopes_le (h : Rises ls ls') : scopes ls ≤ scopes ls' := by
  obtain ⟨above, ss, xs, rfl⟩ := h
  cases ls with
  | nil => simp [scopes]
  | cons l ls => simp [scopes, Layer.under]; omega

end Layers

end AudLang
