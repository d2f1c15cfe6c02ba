import AudLang.Proofs.Operating
import AudLang.Proofs.Sealing
import AudLang.Proofs.Sharing

/-!
Operands of operators.

The operands of an operator are visited from left to right, and the operator is applied to what
their cells hold behind that.  The cell of the left operand may be written over in between: a
variable has a cell that a function called on the right can assign to, and so has an element of a
list.  Anything that is computed lives in a cell that no program can name, and keeps its value
whatever is called.
-/

namespace AudLang

open Run Moment

variable {name : String} {p : Position} {args : List Ref} {r : Ref} {promised : Prop} {n : Node}
  {x : Run Unit}
  {ns : List Node} {m : Machine}

/-! ## Names -/

/-- Through a rebound variable one gets at the new cell, through the others at the old ones. -/
lemma Scope.mem_rebind {s : Scope} {b : String × Ref} (h : b ∈ (s.rebind name r).bindings) :
    b.2 = r ∨ b ∈ s.bindings := by
  obtain ⟨⟨x, old⟩, hmem, rfl⟩ := List.mem_map.1 h
  by_cases hx : x = name
  · simp [hx]
  · simp [hx, hmem]

/-- What holds of scopes, and of a scope behind a rebinding, holds of the scopes behind it. -/
lemma Context.forall_of_rebindIn {P : Scope → Prop} (hP : ∀ s, P s → P (s.rebind name r))
    {ss ss' : List Scope}
    (h : rebindIn name r ss = some ss') (hss : ∀ s ∈ ss, P s) : ∀ s ∈ ss', P s := by
  induction ss generalizing ss' with
  | nil => cases h
  | cons s outer ih =>
    obtain ⟨hs, houter⟩ := List.forall_mem_cons.1 hss
    rw [rebindIn] at h
    split at h
    · cases h
      exact List.forall_mem_cons.2 ⟨hP s hs, houter⟩
    · obtain ⟨outer', h', rfl⟩ := Option.map_eq_some_iff.1 h
      exact List.forall_mem_cons.2 ⟨hs, ih h' houter⟩

namespace Machine

variable {H : Ref → Prop} {c : Context}

lemma SeesContext.base (h : m.SeesContext H c) : ∀ b ∈ c.base.bindings, m.Sees H b.2 :=
  h c.base (by simp [Context.scopes])

lemma Seals.current (hm : m.Seals H) : m.SeesContext H m.current := by
  refine hm.bindings _ ?_
  unfold Machine.current
  cases m.calls <;> simp

lemma Seals.visible (hm : m.Seals H) : ∀ s ∈ m.visible, ∀ b ∈ s.bindings, m.Sees H b.2 := by
  have hmodule := hm.bindings m.module List.mem_cons_self
  have hcurrent := hm.current
  unfold Machine.visible
  unfold Machine.current at hcurrent
  cases hcalls : m.calls with
  | nil => exact hmodule
  | cons c outer =>
    rw [hcalls] at hcurrent
    intro s hs
    rcases List.mem_append.1 hs with hs | hs
    · exact hcurrent s hs
    · cases List.mem_singleton.1 hs
      exact hmodule.base

/-- A variable names a cell that is not sealed off. -/
lemma Seals.lookup (hm : m.Seals H) (h : m.lookup? name = some r) : m.Sees H r := by
  obtain ⟨s, hs, hget⟩ := List.exists_of_findSome?_eq_some h
  obtain ⟨before, after, heq, -⟩ := List.lookup_eq_some_iff.1 hget
  exact hm.visible s hs (name, r) (by rw [heq]; simp)

lemma Seals.updateCurrent (hm : m.Seals H) {f : Context → Context}
    (hf : m.SeesContext H (f m.current)) : (m.updateCurrent f).Seals H := by
  refine hm.of_store (m.updateCurrent_store f) ?_ ?_ ?_
  · have hbindings := hm.bindings
    unfold Machine.current at hf
    unfold Machine.updateCurrent
    cases hcalls : m.calls with
    | nil =>
      rw [hcalls] at hf
      simpa [hcalls] using hf
    | cons c outer =>
      rw [hcalls] at hf hbindings
      obtain ⟨hmodule, hcalls⟩ := List.forall_mem_cons.1 hbindings
      obtain ⟨-, houter⟩ := List.forall_mem_cons.1 hcalls
      exact List.forall_mem_cons.2 ⟨hmodule, List.forall_mem_cons.2 ⟨hf, houter⟩⟩
  · rw [updateCurrent_returning]
    exact hm.returning
  · rw [updateCurrent_functions]
    exact hm.functions

lemma SeesContext.add (h : m.SeesContext H c) (name : String) (hr : m.Sees H r) :
    m.SeesContext H (c.add name r) := by
  have hadd : ∀ s : Scope, (∀ b ∈ s.bindings, m.Sees H b.2) → ∀ b ∈ (s.add name r).bindings,
    m.Sees H b.2 := by
    intro s hs b hb
    rcases List.mem_append.1 hb with hb | hb
    · exact hs b hb
    · cases List.mem_singleton.1 hb
      exact hr
  unfold SeesContext Context.scopes at h
  unfold SeesContext Context.scopes Context.add
  cases hinner : c.inner with
  | nil =>
    rw [hinner] at h
    simpa using hadd c.base (h c.base (by simp))
  | cons s outer =>
    rw [hinner] at h
    obtain ⟨hs, houter⟩ := List.forall_mem_cons.1 h
    exact List.forall_mem_cons.2 ⟨hadd s hs, houter⟩

lemma SeesContext.rebind {c' : Context} (h : m.SeesContext H c) {name : String} (hr : m.Sees H r)
    (hc' : c.rebind name r = some c') : m.SeesContext H c' := by
  have hrebind : ∀ s : Scope, (∀ b ∈ s.bindings, m.Sees H b.2) →
      ∀ b ∈ (s.rebind name r).bindings, m.Sees H b.2 := by
    intro s hs b hb
    rcases Scope.mem_rebind hb with hb | hb
    · rw [hb]
      exact hr
    · exact hs b hb
  obtain ⟨hinner, hbase⟩ := List.forall_mem_append.1 h
  have hbase := List.forall_mem_singleton.1 hbase
  unfold Context.rebind at hc'
  split at hc'
  · rename_i inner hin
    cases hc'
    exact List.forall_mem_append.2
      ⟨Context.forall_of_rebindIn hrebind hin hinner, List.forall_mem_singleton.2 hbase⟩
  · split at hc'
    · cases hc'
      exact List.forall_mem_append.2 ⟨hinner, List.forall_mem_singleton.2 (hrebind _ hbase)⟩
    · cases hc'

lemma Seals.rebind (hm : m.Seals H) (name : String) (hr : m.Sees H r) :
    (m.rebind name r).Seals H := by
  obtain ⟨hmodule, hcalls⟩ := List.forall_mem_cons.1 hm.bindings
  unfold Machine.rebind
  split
  · refine hm.of_store rfl (List.forall_mem_cons.2 ⟨?_, hcalls⟩) hm.returning hm.functions
    cases h : m.module.rebind name r with
    | none => exact hmodule
    | some c' => exact hmodule.rebind hr h
  · rename_i c outer hc
    rw [hc] at hcalls
    obtain ⟨hcurrent, houter⟩ := List.forall_mem_cons.1 hcalls
    split
    · rename_i c' h
      refine hm.of_store rfl (List.forall_mem_cons.2 ⟨hmodule, ?_⟩) hm.returning hm.functions
      exact List.forall_mem_cons.2 ⟨hcurrent.rebind hr h, houter⟩
    · refine hm.of_store rfl (List.forall_mem_cons.2 ⟨?_, by rw [hc]; exact hcalls⟩) hm.returning
        hm.functions
      obtain ⟨hinner, -⟩ := List.forall_mem_append.1 hmodule
      refine List.forall_mem_append.2 ⟨hinner, List.forall_mem_singleton.2 fun b hb => ?_⟩
      rcases Scope.mem_rebind hb with hb | hb
      · rw [hb]
        exact hr
      · exact hmodule.base b hb

/-- Leaving a call. -/
lemma Seals.leave (hm : m.Seals H) {outer : List Context} (h : m.calls = c :: outer) :
    ({ m with calls := outer } : Machine).Seals H := by
  obtain ⟨hmodule, hcalls⟩ := List.forall_mem_cons.1 hm.bindings
  rw [h] at hcalls
  exact hm.of_store rfl (List.forall_mem_cons.2 ⟨hmodule, (List.forall_mem_cons.1 hcalls).2⟩)
    hm.returning
    hm.functions

end Machine

namespace Run

variable {α β : Type} {H : Ref → Prop}

section

variable (hm : m.Seals H)

include hm

lemma sealed_updateCurrent {f : Context → Context} (hf : m.SeesContext H (f m.current)) :
    Sealed H m (modify fun m : Machine => m.updateCurrent f : Run PUnit) Anything :=
  ⟨hm.updateCurrent hf, .of_store (m.updateCurrent_store f), trivial⟩

lemma sealed_declare (hr : m.Sees H r) : Sealed H m (declare name r p) Anything :=
  .look hm looks_get fun _ _ =>
    .ite (.fail hm _ _) (sealed_updateCurrent hm (hm.current.add name hr))

lemma sees_of_cellOf {m' : Machine} (h : cellOf name p m = .ok r m') : m.Sees H r := by
  simp only [cellOf, bind_run, get_run] at h
  cases hl : m.lookup? name with
  | none =>
    rw [hl] at h
    cases h
  | some q =>
    rw [hl] at h
    cases h
    exact hm.lookup hl

/-- An assignment writes into the cell of a variable, which is not sealed off, or makes a variable
name another. -/
lemma sealed_assign (hr : m.Sees H r) : Sealed H m (assign name r p) Anything := by
  refine .look hm looks_cellOf fun target ht => .cell (.cell ?_)
  split
  · -- the one step that writes over simple values; but a variable names the cell
    exact ⟨hm.put target (hm.values r), .put (.inl (sees_of_cellOf hm ht).free), trivial⟩
  · obtain ⟨mod, cs, heq, -⟩ := m.rebind_eq name r
    have hstore : (m.rebind name r).store = m.store := by rw [heq]
    exact ⟨hm.rebind name hr, .of_store hstore, trivial⟩

lemma sealed_enter : Sealed H m enter Anything := by
  refine sealed_updateCurrent hm (List.forall_mem_cons.2 ⟨fun b hb => ?_, hm.current⟩)
  cases hb

lemma sealed_exit : Sealed H m exit Anything := by
  refine .machine ?_
  split
  · rename_i s outer h
    refine sealed_updateCurrent hm fun t ht => hm.current t ?_
    simp only [Context.scopes, h, List.cons_append, List.mem_cons]
    exact .inr ht
  · exact .fault hm _

lemma sealed_pushContext : Sealed H m (pushContext name p) Anything := by
  refine .look hm looks_get fun _ _ => .ite (.fail hm _ _) ⟨?_, .of_store rfl, trivial⟩
  obtain ⟨hmodule, hcalls⟩ := List.forall_mem_cons.1 hm.bindings
  refine hm.of_store rfl ?_ hm.returning hm.functions
  refine List.forall_mem_cons.2 ⟨hmodule, List.forall_mem_cons.2 ⟨fun s hs b hb => ?_, hcalls⟩⟩
  cases List.mem_singleton.1 hs
  cases hb

lemma sealed_declareParameters {rs : List Ref} {ps : List Node} (hrs : ∀ r ∈ rs, m.Sees H r) :
    Sealed H m (declareParameters ps rs) Anything := by
  fun_induction declareParameters ps rs generalizing m with
  | case1 s t x ps r rs ih =>
    obtain ⟨hr, hrs⟩ := List.forall_mem_cons.1 hrs
    exact (sealed_declare hm hr).bind fun _ m₁ hm₁ hs₁ _ =>
      ih hm₁ fun q hq => (hrs q hq).mono hs₁
  | case2 => exact .fault hm _
  | case3 => exact .fault hm _
  | case4 => exact .pure hm trivial

/-- Leaving a call keeps the last value. -/
lemma sealed_popContext (hg : Gives H promised m) :
    Sealed H m popContext fun _ m' => Gives H promised m' := by
  refine .machine ?_
  split
  · rename_i c outer h
    refine ⟨hm.leave h, .of_store rfl, hg.sees.mono (.of_store rfl), fun hp hs => ?_⟩
    obtain ⟨hsealable, hfree⟩ := hg.isNew hp hs
    exact ⟨hsealable.leave h, hfree⟩
  · exact .fault hm _

/-! ## Calls -/

lemma sealed_construct {type : String} :
    Sealed H m (construct type args p) fun _ m' => Gives H promised m' := by
  have hgive : ∀ {x : Run Ref}, Sealed H m x (IsNew H) →
      Sealed H m (x >>= setLast) fun _ m' => Gives H promised m' := fun hx =>
    hx.bind fun _ _ hm₁ _ hr => sealed_setLast hm₁ hr.sees fun _ _ => hr
  have hnone : ∀ r, (none : Option Ref) = some r → m.Sees H r := fun _ h => nomatch h
  unfold construct
  split
  · exact .look hm looks_contentOf fun _ _ => .look hm looks_pathText fun _ _ =>
      hgive (sealed_openFile hm hnone)
  · exact .look hm looks_contentOf fun _ _ => .look hm looks_pathText fun _ _ =>
      hgive (sealed_openFolder hm)
  · exact .look hm looks_contentOf fun _ _ => .look hm looks_pathText fun _ _ =>
      hgive (sealed_openAudio hm hnone)
  · exact .fail hm _ _

/-- A simple value that is returned is copied into a new cell. -/
lemma sealed_takeReturned {returned : Option Ref} {function type : String}
    (hr : ∀ r, returned = some r → m.Sees H r) :
    Sealed H m (takeReturned function type p returned) fun _ m' => Gives H promised m' := by
  unfold takeReturned
  split
  · cases returned with
    | none => exact sealed_give hm (.of_none rfl)
    | some r =>
      refine .look hm looks_value fun v _ => ?_
      split
      · exact sealed_give hm (.of_none rfl)
      · exact .look hm (.fail _ _) fun _ _ => sealed_give hm (.of_none rfl)
  · cases returned with
    | none => exact .fail hm _ _
    | some r =>
      refine .cell ?_
      split
      · rename_i hsimple
        exact (sealed_clone hm (hr r rfl)).bind fun q m₁ hm₁ _ hq =>
          sealed_setLast hm₁ hq.sees fun _ _ => hq.isNew hsimple
      · rename_i hsimple
        -- anything else keeps its cell, which may have other names
        exact sealed_setLast hm (hr r rfl) fun _ h => absurd h hsimple

end

/-- Every step of the body of a function keeps what is sealed off so. -/
abbrev SealedBody (H : Ref → Prop) (body : Node → Run Unit) : Prop :=
  ∀ n, n.isAction = true → ∀ m : Machine, m.Seals H → Sealed H m (body n) Anything

variable {body : Node → Run Unit} {fuel : Nat}

lemma sealed_invoke (hb : SealedBody H body) (hm : m.Seals H) (hn : n.isAction = true)
    (hargs : ∀ a ∈ args, m.Sees H a) : Sealed H m (invoke body n args p) fun _ m' =>
      Gives H promised m' := by
  cases n with
  | define s returns id ps b =>
    refine (sealed_pushContext hm).bind fun _ m₁ hm₁ hs₁ _ => ?_
    refine (sealed_declareParameters hm₁ fun a ha => (hargs a ha).mono hs₁).bind fun _ m₂ hm₂ _ _ =>
      ?_
    refine (hb b hn m₂ hm₂).bind fun _ m₃ hm₃ _ _ => .machine ?_
    have hsettle : Sealed H m₃ (modify fun m : Machine => { m with returning := none }) Anything :=
      ⟨hm₃.of_store rfl hm₃.bindings (fun _ h => nomatch h) hm₃.functions, .of_store rfl, trivial⟩
    -- the note is wiped out before the cell in it is taken, so what it named has to be kept in mind
    refine hsettle.bind fun _ m₄ hm₄ hs₄ _ => .look hm₄ (.ask _) fun type _ => ?_
    have hreturned : ∀ r, m₃.returning = some r → m₄.Sees H r :=
      fun r h => (hm₃.returning r h).mono hs₄
    exact (sealed_takeReturned hm₄ hreturned).bind fun _ m₅ hm₅ _ hg =>
      sealed_popContext hm₅ hg
  | _ => exact .look hm (.ask _) fun _ _ => .fail hm _ _

lemma sealed_callNamed (hb : SealedBody H body) (hm : m.Seals H) (hargs : ∀ a ∈ args, m.Sees H a)
    {q : Position} : Sealed H m (callNamed body name args q p) fun _ m' => Gives H promised m' := by
  refine .look hm looks_callee fun f hf => ?_
  cases f with
  | builtin b =>
    exact (sealed_callBuiltin hm).bind fun _ _ hm₁ _ hr =>
      sealed_setLast hm₁ hr.sees fun _ _ => hr
  | defined n =>
    obtain ⟨-, hmem⟩ := mem_functions_of_callee hf
    exact sealed_invoke hb hm (hm.functions name n hmem) hargs

/-! ## Visiting trees -/

lemma sealed_valueOf (h : Sealed H m x fun _ m' => Gives H promised m') :
    Sealed H m (valueOf x) fun r m' => m'.Sees H r := by
  refine h.bind fun _ m₁ hm₁ _ hg => ?_
  exact ⟨hm₁, .refl m₁, hg.sees⟩

lemma sealed_holds (h : Sealed H m x fun _ m' => Gives H promised m') :
    Sealed H m (holds x) Anything :=
  (sealed_valueOf h).bind fun _ _ hm₁ _ _ => .look hm₁ looks_value fun _ _ => .pure hm₁ trivial

lemma sealed_iterate {c : Run Bool} (hc : ∀ m : Machine, m.Seals H → Sealed H m c Anything)
    (hx : ∀ m : Machine, m.Seals H → Sealed H m x Anything) (fuel : Nat) :
    ∀ m : Machine, m.Seals H → Sealed H m (iterate c x fuel) Anything := by
  induction fuel with
  | zero => exact fun m hm => ⟨hm, .refl m⟩
  | succ fuel ih =>
    intro m hm
    refine (hc m hm).bind fun t m₁ hm₁ _ _ => .ite ?_ (.pure hm₁ trivial)
    refine (hx m₁ hm₁).bind fun _ m₂ hm₂ _ _ => .look hm₂ looks_get fun _ _ => ?_
    exact .ite (ih m₂ hm₂) (.pure hm₂ trivial)

lemma sealed_values {es : List Node}
    (h : ∀ e ∈ es, ∀ m : Machine, m.Seals H →
      Sealed H m (valueOf (visit body fuel e)) fun r m' => m'.Sees H r) :
    ∀ m : Machine, m.Seals H → Sealed H m (values body fuel es) fun rs m' =>
      ∀ r ∈ rs, m'.Sees H r := by
  induction es with
  | nil => exact fun m hm => .pure hm fun r hr => nomatch hr
  | cons e es ih =>
    intro m hm
    obtain ⟨he, hes⟩ := List.forall_mem_cons.1 h
    rw [values]
    refine (he m hm).bind fun r m₁ hm₁ _ hr => (ih hes m₁ hm₁).bind fun rs m₂ hm₂ hs₂ hrs => ?_
    exact .pure hm₂ (List.forall_mem_cons.2 ⟨hr.mono hs₂, hrs⟩)

lemma sealed_visitBlock (h : ∀ n ∈ ns, ∀ m : Machine, m.Seals H →
      Sealed H m (visit body fuel n) Anything) :
    ∀ m : Machine, m.Seals H → Sealed H m (visitBlock body fuel ns) Anything := by
  induction ns with
  | nil => exact fun m hm => .pure hm trivial
  | cons n ns ih =>
    intro m hm
    obtain ⟨hn, hns⟩ := List.forall_mem_cons.1 h
    rw [visitBlock]
    refine (hn m hm).bind fun _ m₁ hm₁ _ _ => .look hm₁ looks_get fun _ _ => ?_
    exact .ite (ih hns m₁ hm₁) (.pure hm₁ trivial)

end Run

/-- The expressions whose value may live in a cell that has a name already: variables, elements of
lists and folders of files. -/
def Node.mayShare : Node → Bool
  | .name .. => true
  | .member _ _ field => field = "parent"
  | .call _ (.member _ _ field) _ => field = "get"
  | _ => false

namespace Run

variable {H : Ref → Prop} {body : Node → Run Unit} {fuel : Nat}

/-- Whatever an expression does, what is sealed off stays so, and the value of the expression lives
in a new cell if it is simple and not one that may be shared. -/
lemma sealed_term (hb : SealedBody H body) {n : Node} (hn : n.isTerm = true) (m : Machine)
    (hm : m.Seals H) :
    Sealed H m (visit body fuel n) fun _ m' => Gives H (n.mayShare = false) m' := by
  match n with
  | .int .. | .float .. | .string .. | .bool .. | .null .. =>
    rw [visit]
    exact sealed_give hm (.of_none rfl)
  | .name s id =>
    rw [visit]
    exact .look hm looks_cellOf fun r hr => sealed_setLast hm (sees_of_cellOf hm hr)
      fun h => by cases h
  | .list s es =>
    have hes := Node.allTerms_iff.1 hn
    rw [visit]
    refine (sealed_values (fun e he m hm => sealed_valueOf (sealed_term hb (hes e he) m hm)) m
      hm).bind
      fun rs m₁ hm₁ _ hrs => ?_
    cases rs with
    | nil => exact sealed_give hm₁ hrs
    | cons r rs => exact .look hm₁ looks_value fun _ _ => sealed_give hm₁ hrs
  | .binary s op left right =>
    obtain ⟨hleft, hright⟩ := Bool.and_eq_true_iff.1 hn
    have hl := sealed_term hb hleft m hm
    have hr := sealed_term hb hright
    by_cases ha : op = .and
    · subst ha
      rw [visit]
      exact (sealed_holds hl).bind fun _ m₁ hm₁ _ _ => .ite
        ((sealed_holds (hr m₁ hm₁)).bind fun _ _ hm₂ _ _ => sealed_give hm₂ (.of_none rfl))
        (sealed_give hm₁ (.of_none rfl))
    · by_cases ho : op = .or
      · subst ho
        rw [visit]
        exact (sealed_holds hl).bind fun _ m₁ hm₁ _ _ => .ite (sealed_give hm₁ (.of_none rfl))
          ((sealed_holds (hr m₁ hm₁)).bind fun _ _ hm₂ _ _ => sealed_give hm₂ (.of_none rfl))
      · rw [visit_operation ha ho]
        exact (sealed_valueOf hl).bind fun _ m₁ hm₁ _ _ => (sealed_valueOf (hr m₁ hm₁)).bind
          fun _ _ hm₂ _ _ => sealed_operate hm₂
  | .negate s e =>
    have he : e.isTerm = true := hn
    rw [visit]
    exact (sealed_valueOf (sealed_term hb he m hm)).bind fun _ _ hm₁ _ _ => sealed_negate hm₁
  | .member s o f =>
    have ho : o.isTerm = true := hn
    rw [visit]
    refine (sealed_valueOf (sealed_term hb ho m hm)).bind fun r m₁ hm₁ _ hr => ?_
    refine .look hm₁ looks_requireObject fun _ _ => ?_
    refine (sealed_getAttribute hm₁ hr).bind fun q m₂ hm₂ _ hq => ?_
    exact sealed_setLast hm₂ hq.sees fun h _ => hq.isNew (by simpa [Node.mayShare] using h)
  | .construct s t args =>
    have hargs := Node.allTerms_iff.1 hn
    rw [visit]
    exact (sealed_values (fun e he m hm => sealed_valueOf (sealed_term hb (hargs e he) m hm)) m
      hm).bind
      fun rs m₁ hm₁ _ _ => sealed_construct hm₁
  | .call s target args =>
    obtain ⟨htarget, hargs⟩ := Bool.and_eq_true_iff.1 hn
    have ha := sealed_values
      (fun e (he : e ∈ args) m hm =>
        sealed_valueOf (sealed_term hb (Node.allTerms_iff.1 hargs e he) m hm)) m hm
    cases target with
    | name t id =>
      rw [visit]
      exact ha.bind fun rs m₁ hm₁ _ hrs => sealed_callNamed hb hm₁ hrs
    | member t o f =>
      have ho : o.isTerm = true := htarget
      rw [visit]
      refine ha.bind fun rs m₁ hm₁ _ hrs => ?_
      refine (sealed_valueOf (sealed_term hb ho m₁ hm₁)).bind fun r m₂ hm₂ hs₂ hr => ?_
      refine .look hm₂ looks_requireObject fun _ _ => ?_
      refine (sealed_callMethod hm₂ hr (fun a ha => (hrs a ha).mono hs₂)).bind fun q m₃ hm₃ _ hq =>
        ?_
      exact sealed_setLast hm₃ hq.sees fun h _ => hq.isNew (by simpa [Node.mayShare] using h)
    | int | float | string | bool | null | list | binary | negate | call | construct =>
      simp only [visit]
      exact ha.bind fun _ _ hm₁ _ _ => .fail hm₁ _ _
    | _ => cases htarget
termination_by sizeOf n
decreasing_by
  all_goals subst_vars
  all_goals simp_wf
  all_goals first | omega | (have hlt := List.sizeOf_lt_of_mem ‹_ ∈ _›; omega)

/-- Whatever a statement does, what is sealed off stays so. -/
lemma sealed_action (hb : SealedBody H body) {n : Node} (hn : n.isAction = true) (m : Machine)
    (hm : m.Seals H) : Sealed H m (visit body fuel n) Anything := by
  have hnull : ∀ m : Machine, m.Seals H → Sealed H m (give .null) Anything := fun m hm =>
    (sealed_alloc hm (.of_none rfl)).bind fun _ _ hm₁ _ hr =>
      (sealed_setLast hm₁ hr.sees fun (_ : True) _ => hr).weaken fun _ _ _ => trivial
  match n with
  | .block s ns =>
    rw [visit]
    refine (sealed_enter hm).bind fun _ m₁ hm₁ _ _ => ?_
    refine (sealed_visitBlock (fun e he => ?_) m₁ hm₁).bind fun _ _ hm₂ _ _ => sealed_exit hm₂
    exact sealed_action hb (Node.allActions_iff.1 hn e he)
  | .declare s t id e =>
    have he : e.isTerm = true := hn
    rw [visit]
    exact (sealed_valueOf (sealed_term hb he m hm)).bind fun _ m₁ hm₁ _ hr =>
      (sealed_declare hm₁ hr).bind fun _ m₂ hm₂ _ _ => hnull m₂ hm₂
  | .branch s c a b =>
    simp only [Node.isAction, Bool.and_eq_true] at hn
    rw [visit]
    refine (sealed_holds (sealed_term hb hn.1.1 m hm)).bind fun t m₁ hm₁ _ _ => ?_
    cases t with
    | true => exact (sealed_action hb hn.1.2 m₁ hm₁).bind fun _ m₂ hm₂ _ _ => hnull m₂ hm₂
    | false =>
      cases hp : b.isPresent with
      | true =>
        have hpart : b.isAction = true := by simpa [hp] using hn.2
        exact (sealed_action hb hpart m₁ hm₁).bind fun _ m₂ hm₂ _ _ => hnull m₂ hm₂
      | false => exact hnull m₁ hm₁
  | .loop s c b =>
    obtain ⟨hc, hstep⟩ := Bool.and_eq_true_iff.1 hn
    rw [visit]
    exact (sealed_iterate (fun m hm => sealed_holds (sealed_term hb hc m hm))
      (sealed_action hb hstep) fuel m
      hm).bind fun _ m₁ hm₁ _ _ => hnull m₁ hm₁
  | .assign s target e =>
    obtain ⟨htarget, he⟩ := Bool.and_eq_true_iff.1 hn
    have hv : Sealed H m (visit body fuel e) fun _ m' => Gives H (e.mayShare = false) m' :=
      sealed_term hb he m hm
    cases target with
    | name t id =>
      rw [visit]
      exact (sealed_valueOf hv).bind fun _ m₁ hm₁ _ hr =>
        (sealed_assign hm₁ hr).bind fun _ m₂ hm₂ _ _ => hnull m₂ hm₂
    | member t o f =>
      have ho : o.isTerm = true := htarget
      rw [visit]
      exact hv.bind fun _ m₁ hm₁ _ _ => (sealed_valueOf (sealed_term hb ho m₁ hm₁)).bind
        fun _ m₂ hm₂ _ _ =>
        .look hm₂ looks_setAttribute fun _ _ => hnull m₂ hm₂
    | int | float | string | bool | null | list | binary | negate | call | construct =>
      simp only [visit]
      exact hv.bind fun _ _ hm₁ _ _ => .fail hm₁ _ _
    | _ => cases htarget
  | .giveBack s e =>
    have hnote : ∀ (r : Ref) (m : Machine), m.Seals H → m.Sees H r →
        Sealed H m (modify fun m : Machine => { m with returning := some r }) Anything := by
      refine fun r m hm hr => ⟨hm.of_store rfl hm.bindings ?_ hm.functions, .of_store rfl, trivial⟩
      rintro q ⟨⟩
      exact hr
    rw [visit]
    cases hp : e.isPresent with
    | true =>
      have he : e.isTerm = true := by simpa [Node.isAction, hp] using hn
      exact (sealed_valueOf (sealed_term hb he m hm)).bind fun r m₁ hm₁ _ hr => hnote r m₁ hm₁ hr
    | false => exact (sealed_nothing hm).bind fun r m₁ hm₁ _ hr => hnote r m₁ hm₁ hr.sees
  | .callStatement s e | .expressionStatement s e =>
    have he : e.isTerm = true := hn
    rw [visit]
    exact (sealed_term hb he m hm).bind fun _ m₁ hm₁ _ _ => hnull m₁ hm₁
  | .define .. =>
    rw [visit]
    exact hnull m hm
termination_by sizeOf n
decreasing_by
  all_goals subst_vars
  all_goals simp_wf
  all_goals first | omega | (have hlt := List.sizeOf_lt_of_mem ‹_ ∈ _›; omega)

lemma sealed_bodyAt (fuel depth : Nat) : SealedBody H (bodyAt fuel depth) := by
  induction depth with
  | zero => exact fun n _ m hm => ⟨hm, .refl m⟩
  | succ depth ih => exact fun n hn m hm => sealed_action ih hn m hm

lemma sealed_termAt (fuel depth : Nat) (hn : n.isTerm = true) (m : Machine) (hm : m.Seals H) :
    Sealed H m (visitAt fuel depth n) fun _ m' => Gives H (n.mayShare = false) m' :=
  sealed_term (sealed_bodyAt fuel depth) hn m hm

lemma sealed_valuesAt (fuel depth : Nat) (hns : ∀ n ∈ ns, n.isTerm = true) (m : Machine)
    (hm : m.Seals H) : Sealed H m (valuesAt fuel depth ns) fun rs m' => ∀ r ∈ rs, m'.Sees H r :=
  sealed_values (fun n hn m hm => sealed_valueOf (sealed_termAt fuel depth (hns n hn) m hm)) m hm

lemma sealed_actionAt (fuel depth : Nat) (hn : n.isAction = true) (m : Machine) (hm : m.Seals H) :
    Sealed H m (visitAt fuel depth n) Anything :=
  sealed_action (sealed_bodyAt fuel depth) hn m hm

/-! ## Programs -/

lemma sealed_register (hm : m.Seals H) (hn : n.isAction = true) :
    Sealed H m (register name n) Anything := by
  refine .look hm looks_get fun m' hm' =>
    .ite (.ite (.fail hm _ _) (.fault hm _)) ⟨?_, .of_store rfl, trivial⟩
  refine hm.of_store rfl hm.bindings hm.returning fun x k hk => ?_
  rcases List.mem_append.1 hk with hk | hk
  · exact hm.functions x k hk
  · cases List.mem_singleton.1 hk
    exact hn

lemma sealed_registerAll (hns : ∀ n ∈ ns, n.isAction = true) :
    ∀ m : Machine, m.Seals H → Sealed H m (registerAll ns) Anything := by
  induction ns with
  | nil => exact fun m hm => .pure hm trivial
  | cons n ns ih =>
    intro m hm
    obtain ⟨hn, hns⟩ := List.forall_mem_cons.1 hns
    exact .look hm (.ask _) fun name _ => (sealed_register hm hn).bind fun _ m₁ hm₁ _ _ =>
      ih hns m₁ hm₁

lemma sealed_visitTop (h : ∀ n ∈ ns, ∀ m : Machine, m.Seals H →
      Sealed H m (visit body fuel n) Anything) :
    ∀ m : Machine, m.Seals H → Sealed H m (visitTop body fuel ns) Anything := by
  induction ns with
  | nil => exact fun m hm => .pure hm trivial
  | cons n ns ih =>
    intro m hm
    obtain ⟨hn, hns⟩ := List.forall_mem_cons.1 h
    rw [visitTop]
    cases n.isDefinition with
    | true => exact ih hns m hm
    | false =>
      refine (hn m hm).bind fun _ m₁ hm₁ _ _ => .look hm₁ looks_get fun _ _ => ?_
      simp only
      split
      · exact .look hm₁ (.fail _ _) fun _ _ => ih hns m₁ hm₁
      · exact ih hns m₁ hm₁

lemma Sealed.seals {α : Type} {m' : Machine} {x : Run α} {a : α} {Q : α → Machine → Prop}
    (h : Sealed H m x Q) (hx : x m = .ok a m') : m'.Seals H := (h.ends.ok hx).1

end Run

/-! ## The moments of a run -/

namespace Moment

variable {fuel : Nat} {c c' : Moment}

/-- A run comes to no loose ends. -/
lemma lasting_closed (fuel : Nat) : Lasting fuel Machine.Closed where
  term hn hm h := (sealed_termAt fuel _ hn _ hm).seals h
  action hn hm h _ := (sealed_actionAt fuel _ hn _ hm).seals h
  enter hm h := (sealed_enter hm).seals h
  call := by
    intro d args rs id id' p q u returns ps b m m₁ m₂ m' hargs hm ha hf hpush hp
    obtain ⟨hm₁, -, hrs⟩ := (sealed_valuesAt fuel d hargs m hm).ends.ok ha
    obtain ⟨hm₂, hs₂, -⟩ := (sealed_pushContext hm₁).ends.ok hpush
    have hm' := (sealed_declareParameters hm₂ fun r hr => (hrs r hr).mono hs₂).seals hp
    obtain ⟨-, hmem⟩ := mem_functions_of_callee hf
    have hdefine : (Node.define u returns id' ps b).isAction = true := hm₁.functions id _ hmem
    exact ⟨hm', by simpa only [Node.isAction] using hdefine⟩

/-- The machine has no loose ends, and what is to be visited is put together as it should: an
expression, a statement or a whole program. -/
structure Tidy (c : Moment) : Prop where
  machine : c.machine.Closed
  node : c.node.isTerm = true ∨ c.node.isAction = true ∨ c.node.isWhole = true

lemma Proper.tidy (h : c.Proper Machine.Closed) : c.Tidy := ⟨h.machine, h.node.imp_right .inl⟩

/-- A program leads to its statements, behind its definitions and the statements before. -/
lemma proper_of_program {d : Nat} {s : Span} {is : List Nat} {Γ : Declared} (hm : m.Closed)
    (hns : (Node.program s is ns).isWhole = true) (h : Enters fuel ⟨d, .program s is ns, Γ, m⟩ c) :
    c.Proper Machine.Closed := by
  obtain ⟨n, before, after, m₁, m', heq, hregister, hbefore, rfl⟩ := h.of_program
  have hactions : ∀ k ∈ ns, k.isAction = true := Node.allActions_iff.1 hns
  have hm₁ := (sealed_registerAll (fun k hk => Node.isAction_of_mem_definitions hns hk) m hm).seals
    hregister
  rw [heq] at hactions
  have hm' := (sealed_visitTop (fun k hk =>
    sealed_actionAt fuel d (hactions k (List.mem_append_left _ hk))) m₁
    hm₁).seals hbefore
  exact ⟨hm', .inr (hactions n (by simp))⟩

lemma Reaches.tidy (h : Reaches fuel c c') (hc : c.Tidy) : c'.Tidy := by
  obtain ⟨hm, hterm | haction | hwhole⟩ := hc
  · exact (h.proper (lasting_closed fuel) ⟨hm, .inl hterm⟩).tidy
  · exact (h.proper (lasting_closed fuel) ⟨hm, .inr haction⟩).tidy
  · cases h with
    | here => exact ⟨hm, .inr (.inr hwhole)⟩
    | step h h' =>
      obtain ⟨d, n, Γ, m⟩ := c
      cases n with
      | program s is ns =>
        exact (h'.proper (lasting_closed fuel) (proper_of_program hm hwhole h)).tidy
      | _ => cases hwhole

end Moment

lemma Machine.closed_fresh (limit : Int) (input : Input) (files : Files) :
    (fresh limit input files).Closed := by
  refine ⟨fun _ h => h.elim, ?_, ?_, (fun _ h => nomatch h), fun _ _ h => nomatch h⟩
  · intro c hc s hs b hb
    cases List.mem_singleton.1 hc
    cases List.mem_singleton.1 hs
    cases hb
  · intro q
    refine .of_none ?_
    rcases q with - | q <;> rfl

/-- The run of a program on a machine that has not run anything yet begins without loose ends. -/
lemma Moment.tidy_start {program : Node} (h : program.IsProgram) (limit : Int) (input : Input)
    (files : Files) : (start program (.fresh limit input files)).Tidy :=
  ⟨Machine.closed_fresh limit input files, .inr (.inr h.isWhole)⟩

/-! ## Operands -/

/-- Whether a simple value is on the left, an operator makes the same of it in any store. -/
lemma BinaryOp.apply_of_isSimple {l : Value} (h : l.isSimple = true) (op : BinaryOp) (s : Store)
    (r : Value) (p : Position) : op.apply s l r p = op.apply {} l r p := by
  have hoperate : s.operate op l r = Store.operate {} op l r := by
    cases l with
    | int | float | string | bool => cases r <;> rfl
    | _ => cases h
  unfold apply perform
  rw [hoperate]

namespace Run

variable {fuel depth : Nat} {left right : Node} {m₁ m₂ : Machine}

/-- The cell of a left operand that shares none is not written over while the right operand is
visited. -/
lemma left_kept_of_new (hm : m.Closed) (hl : left.isTerm = true) (hr : right.isTerm = true)
    (hleft : visitAt fuel depth left m = .ok () m₁)
    (hright : visitAt fuel depth right m₁ = .ok () m₂)
    (hsimple : (m₁.store.get m₁.last).isSimple = true) (hshare : left.mayShare = false) :
    m₂.store.get m₁.last = m₁.store.get m₁.last := by
  obtain ⟨-, -, hgives⟩ := (sealed_termAt fuel depth hl m hm).ends.ok hleft
  -- the cell of the left operand is sealed off while the right operand is visited
  have hsealed := (hgives.isNew hshare hsimple).sealable
  obtain ⟨-, hspares, -⟩ := (sealed_termAt fuel depth hr m₁ hsealed).ends.ok hright
  exact hspares.get m₁.last (.inr rfl) hsimple

/-- No simple value is written over while an operand is visited that calls no function of the
program. -/
lemma left_kept_of_quiet (hright : visitAt fuel depth right m₁ = .ok () m₂)
    (hsimple : (m₁.store.get m₁.last).isSimple = true) (hquiet : right.isQuiet = true) :
    m₂.store.get m₁.last = m₁.store.get m₁.last :=
  (((harmless_visit hquiet).ends m₁).ok hright).store.get_of_isSimple hsimple

end Run

/-- In a run that began without loose ends an operator is applied to what the cells of its operands
hold once both were visited, the left one first.  If the left operand was simple, this is the value
that it had, unless it shares its cell and the right operand calls a function of the program. -/
theorem operands_from_left_to_right {fuel depth : Nat} {c : Moment} (hc : c.Tidy) {s : Span}
    {op : BinaryOp}
    {left right : Node} {Γ : Declared} {m m₁ m₂ : Machine}
    (hreach : Reaches fuel c ⟨depth, .binary s op left right, Γ, m⟩) (ha : op ≠ .and)
    (ho : op ≠ .or)
    (hleft : visitAt fuel depth left m = .ok () m₁)
    (hright : visitAt fuel depth right m₁ = .ok () m₂)
    (hsimple : (m₁.store.get m₁.last).isSimple = true) :
    visitAt fuel depth (.binary s op left right) m =
        giveOr (op.apply m₂.store (m₂.store.get m₁.last) (m₂.store.get m₂.last) s.start) m₂ ∧
      (left.mayShare = false ∨ right.isQuiet = true →
        visitAt fuel depth (.binary s op left right) m =
          giveOr (op.apply {} (m₁.store.get m₁.last) (m₂.store.get m₂.last) s.start) m₂) := by
  obtain ⟨hm, hnode⟩ := hreach.tidy hc
  have hterm : (Node.binary s op left right).isTerm
    = true := by simpa [Node.isAction, Node.isWhole] using hnode
  obtain ⟨hl, hr⟩ := Bool.and_eq_true_iff.1 hterm
  have hvisit := visit_binary (s := s) ha ho hleft hright
  refine ⟨hvisit, fun h => ?_⟩
  have hkept : m₂.store.get m₁.last = m₁.store.get m₁.last := by
    rcases h with hshare | hquiet
    · exact left_kept_of_new hm hl hr hleft hright hsimple hshare
    · exact left_kept_of_quiet hright hsimple hquiet
  rw [hkept, BinaryOp.apply_of_isSimple hsimple] at hvisit
  exact hvisit

namespace Node

/-- `int x = 1;` -/
def variableOne : Node :=
  .declare (.columns 0 3) (.type (.columns 0 0) "int") "x" (.int (.columns 3 3) 1)

/-- `func int f() { x = 2; return 10; }` -/
def overwriting : Node :=
  .define (.columns 4 16) (.type (.columns 5 5) "int") "f" []
    (.block (.columns 9 16)
      [.assign (.columns 10 12) (.name (.columns 10 10) "x") (.int (.columns 12 12) 2),
        .giveBack (.columns 14 15) (.int (.columns 15 15) 10)])

/-- `f()` -/
def overwritingCall : Node := .call (.columns 19 21) (.name (.columns 19 19) "f") []

/-- `left + f()` -/
def besideCall (left : Node) : Node := .binary (.columns 17 21) .add left overwritingCall

/-- `int x = 1; func int f() { x = 2; return 10; } left + f();` -/
def overwritingProgram (left : Node) : Node :=
  .program (.columns 0 22) [1]
    [variableOne, overwriting, .expressionStatement (.columns 17 22) (besideCall left)]

end Node

/-- The machine on which the sum is visited. -/
def Machine.beforeSum : Machine where
  store := ⟨#[.null, .int 1, .null]⟩
  last := 2
  module := { name := "<module>", base := ⟨[("x", 1)]⟩ }
  functions := [("f", .overwriting)]

lemma Node.isProgram_overwritingProgram {left : Node} (h : left.IsExpression) :
    (overwritingProgram left).IsProgram := by
  have htype : ∀ s : Span, (Node.type s "int").IsType := fun s => .simple s (k := .int) rfl
  have hvalue : ∀ (s : Span) (v : Nat), (Node.int s v).IsExpression :=
    fun s v => .int s (Int.natCast_nonneg v)
  have hnotVoid : ∀ t, Node.type (.columns 0 0) "int" ≠ .type t Keyword.void.spelling := by
    intro t h
    injection h with _ h
    exact absurd h (by decide)
  have hdeclare : variableOne.IsStatement := .declare _ "x" (htype _) hnotVoid (hvalue _ 1)
  have hdefine : overwriting.IsStatement :=
    .define _ _ "f" (htype _) nofun (List.forall_mem_cons.2
      ⟨.assign _ _ "x" (hvalue _ 2), List.forall_mem_singleton.2 (.giveBackValue _ (hvalue _ 10))⟩)
  have hcall : overwritingCall.IsExpression := .call _ _ "f" nofun
  have hsum : (besideCall left).IsExpression := .binary _ .add h hcall
  exact .mk _ (List.forall_mem_cons.2 ⟨hdeclare, List.forall_mem_cons.2 ⟨hdefine,
    List.forall_mem_singleton.2 (.expression (.columns 17 22) hsum)⟩⟩)

lemma Moment.reaches_besideCall (left : Node) :
    ∃ Γ, Reaches 0 (start (.overwritingProgram left) (.fresh 50 (.text []) {}))
      ⟨50, .besideCall left, Γ, .beforeSum⟩ := by
  have hstatements : [.variableOne, .overwriting,
    .expressionStatement (.columns 17 22) (.besideCall left)] =
      [Node.variableOne, .overwriting] ++ .expressionStatement (.columns 17 22)
        (.besideCall left) :: [] := rfl
  exact ⟨_, .step (.top hstatements rfl rfl rfl) (.step (.first rfl) (.here _))⟩

/-- With the variable on the left, the sum is that of the value which the call has assigned to it;
with a number there, the number counts. -/
theorem operands_from_left_to_right_overwritten :
    (∃ m₁ m₂ m₃, visitAt 0 50 (.name (.columns 17 17) "x") .beforeSum = .ok () m₁ ∧
      visitAt 0 50 .overwritingCall m₁ = .ok () m₂ ∧ m₁.store.get m₁.last = .int 1 ∧
      m₂.store.get m₂.last = .int 10 ∧
      visitAt 0 50 (.besideCall (.name (.columns 17 17) "x")) .beforeSum = .ok () m₃ ∧
      m₃.store.get m₃.last = .int 12) ∧
    ∃ m₁ m₂ m₃, visitAt 0 50 (.int (.columns 17 17) 1) .beforeSum = .ok () m₁ ∧
      visitAt 0 50 .overwritingCall m₁ = .ok () m₂ ∧ m₁.store.get m₁.last = .int 1 ∧
      m₂.store.get m₂.last = .int 10 ∧
      visitAt 0 50 (.besideCall (.int (.columns 17 17) 1)) .beforeSum = .ok () m₃ ∧
      m₃.store.get m₃.last = .int 11 := by
  constructor
  · have hleft : visitAt 0 50 (.name (.columns 17 17) "x") .beforeSum =
        .ok () { Machine.beforeSum with last := 1 } := rfl
    have hright : visitAt 0 50 .overwritingCall { Machine.beforeSum with last := 1 } =
        .ok () { Machine.beforeSum with
          store := ⟨#[.null, .int 2, .null, .int 2, .null, .int 10, .int 10]⟩, last := 6 } := rfl
    have hprogram := Node.isProgram_overwritingProgram (.name (.columns 17 17) "x")
    obtain ⟨Γ, hreach⟩ := Moment.reaches_besideCall (.name (.columns 17 17) "x")
    have hsum := (operands_from_left_to_right (Moment.tidy_start hprogram _ _ _) hreach (by decide)
      (by decide)
      hleft hright rfl).1
    exact ⟨_, _, _, hleft, hright, rfl, rfl, hsum.trans rfl, rfl⟩
  · have hleft : visitAt 0 50 (.int (.columns 17 17) 1) .beforeSum =
        .ok () { Machine.beforeSum with store := ⟨#[.null, .int 1, .null, .int 1]⟩, last := 3 } :=
          rfl
    have hright : visitAt 0 50 .overwritingCall
          { Machine.beforeSum with store := ⟨#[.null, .int 1, .null, .int 1]⟩, last := 3 } =
        .ok () { Machine.beforeSum with
          store := ⟨#[.null, .int 2, .null, .int 1, .int 2, .null, .int 10, .int 10]⟩,
            last := 7 } := rfl
    have hprogram := Node.isProgram_overwritingProgram
      (.int (.columns 17 17) (by decide : (0 : Int) ≤ 1))
    obtain ⟨Γ, hreach⟩ := Moment.reaches_besideCall (.int (.columns 17 17) 1)
    have hsum := (operands_from_left_to_right (Moment.tidy_start hprogram _ _ _) hreach (by decide)
      (by decide)
      hleft hright rfl).2 (.inl rfl)
    exact ⟨_, _, _, hleft, hright, rfl, rfl, hsum.trans rfl, rfl⟩

end AudLang
