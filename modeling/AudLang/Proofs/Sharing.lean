import AudLang.Proofs.Programs
import AudLang.Proofs.Visits

/-!
Variables that share a cell.

A variable names a cell, and an assignment of a simple value writes into this cell.  Whoever names
the same cell sees the new value, and nobody else does: this is the main statement here, about every
assignment that a run comes to in a program that calls no function of its own.

Sharing comes about where a value is given a name or a place in a list: a declaration and a list
literal take the very cell in which the value of an expression lives.  The value of a variable lives
in the variable's cell and the value of a list's element in the element's, so that both are shared;
whatever is computed lives in a new cell.
-/

namespace AudLang

open Run Moment

variable {p : Position} {args : List Ref} {e n : Node} {es : List Node} {name : String} {r : Ref}
  {ss : List Scope}
  {v : Value}

/-! ## Programs that call no function of their own -/

namespace Node

mutual

/-- The expressions that call no function but those that come with the language. -/
def isQuiet : Node → Bool
  | .int .. | .float .. | .string .. | .bool .. | .null .. | .name .. => true
  | .list _ es | .construct _ _ es => allQuiet es
  | .binary _ _ l r => l.isQuiet && r.isQuiet
  | .negate _ e | .member _ e _ => e.isQuiet
  | .call _ (.name _ id) args => (Builtin.ofName? id).isSome && allQuiet args
  | .call _ (.member _ object _) args => object.isQuiet && allQuiet args
  | _ => false

/-- Are all the nodes such expressions? -/
def allQuiet : List Node → Bool
  | [] => true
  | n :: ns => n.isQuiet && allQuiet ns

end

mutual

/-- The statements, programs and expressions that call no function but those that come with the
language.  What a definition would call does not matter as long as nothing calls it. -/
def callsNothing : Node → Bool
  | .declare _ _ _ e | .callStatement _ e | .expressionStatement _ e => e.isQuiet
  | .assign _ (.member _ object _) e => object.isQuiet && e.isQuiet
  | .assign _ _ e => e.isQuiet
  | .giveBack _ e => !e.isPresent || e.isQuiet
  | .branch _ c a b => c.isQuiet && a.callsNothing && (!b.isPresent || b.callsNothing)
  | .loop _ c b => c.isQuiet && b.callsNothing
  | .block _ ns | .program _ _ ns => allCallNothing ns
  | .define .. => true
  | n => n.isQuiet

/-- Do all the nodes call nothing? -/
def allCallNothing : List Node → Bool
  | [] => true
  | n :: ns => n.callsNothing && allCallNothing ns

end

lemma allQuiet_iff {ns : List Node} : allQuiet ns = true ↔ ∀ n ∈ ns, n.isQuiet = true := by
  induction ns with
  | nil => simp [allQuiet]
  | cons n ns ih => simp [allQuiet, ih]

lemma allCallNothing_iff {ns : List Node} :
    allCallNothing ns = true ↔ ∀ n ∈ ns, n.callsNothing = true := by
  induction ns with
  | nil => simp [allCallNothing]
  | cons n ns ih => simp [allCallNothing, ih]

lemma callsNothing_of_isQuiet (h : n.isQuiet = true) : n.callsNothing = true := by
  cases n <;> first | exact h | simp [isQuiet] at h

lemma isQuiet_of_first? (h : n.first? = some e) (hn : n.callsNothing = true) :
    e.isQuiet = true := by
  cases n with
  | assign s target e' =>
    cases h
    cases target with
    | member t o f => exact (Bool.and_eq_true_iff.1 hn).2
    | _ => exact hn
  | giveBack s e' =>
    cases hp : e'.isPresent with
    | false => simp [first?, hp] at h
    | true =>
      simp only [first?, hp, if_pos, Option.some.injEq] at h
      subst h
      simpa [callsNothing, hp] using hn
  | binary s op l r =>
    cases h
    exact (Bool.and_eq_true_iff.1 hn).1
  | branch s c a b =>
    cases h
    simp only [callsNothing, Bool.and_eq_true] at hn
    exact hn.1.1
  | negate | member | declare | callStatement | expressionStatement =>
    cases h
    exact hn
  | _ => cases h

lemma isQuiet_of_mem_items (h : e ∈ n.items) (hn : n.callsNothing = true) : e.isQuiet = true := by
  cases n with
  | list | construct => exact allQuiet_iff.1 hn e h
  | call s target args =>
    cases target with
    | name | member => exact allQuiet_iff.1 (Bool.and_eq_true_iff.1 hn).2 e h
    | _ => cases hn
  | _ => simp [items] at h

lemma isValued_of_isQuiet (h : n.isQuiet = true) : n.isValued = true := by
  cases n <;> first | rfl | cases h

lemma isQuiet_operands (hn : n.isQuiet = true) : ∀ e ∈ n.operands, e.isQuiet = true := by
  cases n with
  | list | construct => exact allQuiet_iff.1 hn
  | binary =>
    obtain ⟨hl, hr⟩ := Bool.and_eq_true_iff.1 hn
    exact List.forall_mem_cons.2 ⟨hl, List.forall_mem_singleton.2 hr⟩
  | negate | member => exact List.forall_mem_singleton.2 hn
  | call s target args =>
    cases target with
    | name => exact allQuiet_iff.1 (Bool.and_eq_true_iff.1 hn).2
    | member =>
      obtain ⟨ho, hargs⟩ := Bool.and_eq_true_iff.1 hn
      exact List.forall_mem_cons.2 ⟨ho, allQuiet_iff.1 hargs⟩
    | _ => cases hn
  | _ => exact List.forall_mem_nil _

end Node

namespace Moment

variable {fuel : Nat} {c c' : Moment}

/-- A node that calls nothing leads to nodes that call nothing. -/
lemma Enters.callsNothing (h : Enters fuel c c') (hc : c.node.callsNothing = true) :
    c'.node.callsNothing = true := by
  cases h with
  | first h => exact Node.callsNothing_of_isQuiet (Node.isQuiet_of_first? h hc)
  | @item d n e before after Γ m m' rs h _ =>
    have hmem : e ∈ n.items := by simp [h]
    exact Node.callsNothing_of_isQuiet (Node.isQuiet_of_mem_items hmem hc)
  | right => exact Node.callsNothing_of_isQuiet (Bool.and_eq_true_iff.1 hc).2
  | receiver | owner => exact Node.callsNothing_of_isQuiet (Bool.and_eq_true_iff.1 hc).1
  | onTrue =>
    simp only [Node.callsNothing, Bool.and_eq_true] at hc
    exact hc.1.2
  | onFalse _ _ hb =>
    simp only [Node.callsNothing, hb, Bool.and_eq_true, Bool.not_true, Bool.false_or] at hc
    exact hc.2
  | condition =>
    simp only [Node.callsNothing, Bool.and_eq_true] at hc
    exact Node.callsNothing_of_isQuiet hc.1
  | round =>
    simp only [Node.callsNothing, Bool.and_eq_true] at hc
    exact hc.2
  | statement h =>
    refine Node.allCallNothing_iff.1 hc _ ?_
    rw [h]
    simp
  | @body d s t u id id' returns b args ps Γ m m₁ m₂ m' rs ha hf =>
    -- a function of the program has the name of none that comes with the language
    obtain ⟨f, hf'⟩ := Option.isSome_iff_exists.1 (Bool.and_eq_true_iff.1 hc).1
    simp [callee, hf'] at hf
  | top h =>
    refine Node.allCallNothing_iff.1 hc _ ?_
    rw [h]
    simp

/-- Nothing that a run comes to calls anything if the program does not. -/
lemma Reaches.callsNothing (h : Reaches fuel c c') (hc : c.node.callsNothing = true) :
    c'.node.callsNothing = true := by
  induction h with
  | here => exact hc
  | step h _ ih => exact ih (h.callsNothing hc)

end Moment

/-! ## Expressions leave what there is alone -/

namespace Run

variable {body : Node → Run Unit} {fuel : Nat}

/-- The step opens cells at most.  Unlike a quiet step it may stop over a name. -/
structure Harmless (x : Run α) : Prop where
  ends : ∀ m, Ends (x m) (fun _ m' => m.Undisturbed m') (fun _ m' => m.Undisturbed m')

lemma Quiet.harmless {x : Run α} (h : Quiet x) : Harmless x :=
  ⟨fun m => (h.ends m).weaken (fun _ _ _ h => h) (fun _ _ _ h => h.1)⟩

namespace Harmless

lemma pure (a : α) : Harmless (Pure.pure a : Run α) := (Quiet.pure a).harmless

lemma bind {x : Run α} {f : α → Run β} (hx : Harmless x) (hf : ∀ a, Harmless (f a)) :
    Harmless (x >>= f) := by
  refine ⟨fun m => ?_⟩
  refine Ends.bind (hx.ends m) fun a m₁ _ h₁ => ?_
  exact ((hf a).ends m₁).weaken (fun _ _ _ h => h₁.trans h) (fun _ _ _ h => h₁.trans h)

lemma valueOf {x : Run Unit} (h : Harmless x) : Harmless (valueOf x) :=
  h.bind fun _ => plain_last.quiet.harmless

lemma holds {x : Run Unit} (h : Harmless x) : Harmless (holds x) :=
  h.valueOf.bind fun _ => plain_value.quiet.harmless.bind fun _ => .pure _

end Harmless

lemma harmless_cellOf {name : String} : Harmless (cellOf name p) := by
  refine quiet_get.harmless.bind fun m => ?_
  split
  · exact .pure _
  · exact ⟨fun m => .refl m⟩

lemma composes_harmless : Composes fun _ x _ => Harmless x where
  plain h := h.quiet.harmless
  cellOf _ _ := harmless_cellOf
  bind := .bind

lemma harmless_callNamed {id : String} (h : (Builtin.ofName? id).isSome = true) {q : Position} :
    Harmless (callNamed body id args p q) := by
  obtain ⟨b, hb⟩ := Option.isSome_iff_exists.1 h
  unfold callNamed callee
  simp only [hb]
  exact plain_callBuiltin.quiet.harmless.bind fun _ => plain_setLast.quiet.harmless

/-- Whatever a quiet expression computes, names and values are as they were. -/
lemma harmless_visit (h : e.isQuiet = true) : Harmless (visit body fuel e) :=
  @Composes.expression _ body body fuel fuel (fun e => e.isQuiet = true) composes_harmless
    (fun h => ⟨Node.isValued_of_isQuiet h, Node.isQuiet_operands h⟩)
    (fun h _ => harmless_callNamed (Bool.and_eq_true_iff.1 h).1) e h

lemma harmless_values (h : Node.allQuiet es = true) : Harmless (values body fuel es) :=
  @Composes.values _ body body fuel fuel es composes_harmless fun e he =>
    harmless_visit (Node.allQuiet_iff.1 h e he)

end Run

/-! ## Naming another cell -/

/-- The cell of a variable in the first of some scopes that has it. -/
def Scopes.get? (ss : List Scope) (name : String) : Option Ref := ss.findSome? (·.get? name)

lemma Scopes.get?_append (ss ss' : List Scope) (name : String) :
    Scopes.get? (ss ++ ss') name = (Scopes.get? ss name).or (Scopes.get? ss' name) := by
  simp [Scopes.get?, List.findSome?_append]

/-- In some scopes a variable names another cell now, and no other variable does. -/
def Scopes.Rebound (name : String) (r : Ref) (ss ss' : List Scope) : Prop :=
  ∀ y, Scopes.get? ss' y = if y = name then some r else Scopes.get? ss y

lemma Scope.get?_rebind (s : Scope) (name : String) (r : Ref) (y : String) :
    (s.rebind name r).get? y = (s.get? y).map fun old => if y = name then r else old := by
  unfold Scope.get? Scope.rebind
  induction s.bindings with
  | nil => rfl
  | cons b bs ih =>
    obtain ⟨z, old⟩ := b
    rw [List.map_cons, List.lookup_cons, List.lookup_cons]
    cases hy : y == z with
    | false => exact ih
    | true =>
      rw [beq_iff_eq] at hy
      subst hy
      rfl

lemma Scope.rebound {s : Scope} (h : s.has name = true) (r : Ref) (ss : List Scope) :
    Scopes.Rebound name r (s :: ss) (s.rebind name r :: ss) := by
  intro y
  obtain ⟨old, hold⟩ := Option.isSome_iff_exists.1 h
  simp only [Scopes.get?, List.findSome?_cons, Scope.get?_rebind]
  by_cases hy : y = name
  · subst hy
    simp [hold]
  · simp [hy]

lemma Context.rebound_of_rebindIn {ss' : List Scope} (h : Context.rebindIn name r ss = some ss') :
    Scopes.Rebound name r ss ss' := by
  induction ss generalizing ss' with
  | nil => cases h
  | cons s outer ih =>
    rw [Context.rebindIn] at h
    split at h
    · rename_i hs
      cases h
      exact Scope.rebound hs r outer
    · rename_i hs
      obtain ⟨outer', houter, rfl⟩ := Option.map_eq_some_iff.1 h
      intro y
      have hnone : s.get? name = none := by simpa [Scope.has] using hs
      have hy := ih houter y
      simp only [Scopes.get?, List.findSome?_cons] at hy ⊢
      rw [hy]
      by_cases heq : y = name
      · subst heq
        simp [hnone]
      · simp [heq]

lemma Context.get?_of_rebindIn_none (h : Context.rebindIn name r ss = none) :
    Scopes.get? ss name = none := by
  induction ss with
  | nil => rfl
  | cons s outer ih =>
    rw [Context.rebindIn] at h
    split at h
    · cases h
    · rename_i hs
      have hnone : s.get? name = none := by simpa [Scope.has] using hs
      rw [Scopes.get?, List.findSome?_cons, hnone]
      exact ih (Option.map_eq_none_iff.1 h)

lemma Scopes.Rebound.append {ss' : List Scope} (h : Scopes.Rebound name r ss ss')
    (ts : List Scope) : Scopes.Rebound name r (ss ++ ts) (ss' ++ ts) := by
  intro y
  rw [Scopes.get?_append, Scopes.get?_append, h y]
  by_cases hy : y = name
  · simp [hy]
  · simp [hy]

lemma Scopes.Rebound.prepend {ts ts' : List Scope} (h : Scopes.Rebound name r ts ts')
    (hnone : Scopes.get? ss name = none) : Scopes.Rebound name r (ss ++ ts) (ss ++ ts') := by
  intro y
  rw [Scopes.get?_append, Scopes.get?_append, h y]
  by_cases hy : y = name
  · subst hy
    simp [hnone]
  · simp [hy]

lemma Context.rebound {c c' : Context} {name : String} {r : Ref} (h : c.rebind name r = some c') :
    Scopes.Rebound name r c.scopes c'.scopes := by
  unfold Context.rebind at h
  split at h
  · rename_i inner hinner
    cases h
    exact (rebound_of_rebindIn hinner).append [c.base]
  · rename_i hinner
    split at h
    · rename_i hbase
      cases h
      exact (Scope.rebound hbase r []).prepend (get?_of_rebindIn_none hinner)
    · cases h

lemma Context.get?_of_rebind_none {c : Context} (h : c.rebind name r = none) :
    Scopes.get? c.scopes name = none := by
  unfold Context.rebind at h
  split at h
  · cases h
  · rename_i hinner
    split at h
    · cases h
    · rename_i hbase
      have hnone : c.base.get? name = none := by simpa [Scope.has] using hbase
      rw [Context.scopes, Scopes.get?_append, get?_of_rebindIn_none hinner]
      simp [Scopes.get?, hnone]

lemma Scope.get?_add_self {s : Scope} (h : s.has name = false) :
    (s.add name r).get? name = some r := by
  have hnone : s.bindings.lookup name = none := by simpa [Scope.has, Scope.get?] using h
  simp [Scope.get?, Scope.add, List.lookup_append, hnone]

lemma Context.get?_add_self {c : Context} {name : String} {r : Ref}
    (h : c.current.has name = false) (ss : List Scope) :
    Scopes.get? ((c.add name r).scopes ++ ss) name = some r := by
  unfold Context.add Context.scopes
  cases hinner : c.inner with
  | nil =>
    have hbase : c.base.has name = false := by simpa [Context.current, hinner] using h
    simp [Scopes.get?, Scope.get?_add_self hbase]
  | cons s outer =>
    have hs : s.has name = false := by simpa [Context.current, hinner] using h
    simp [Scopes.get?, Scope.get?_add_self hs]

namespace Machine

variable {m : Machine} {q : Ref}

/-- Making a variable name another cell does just that. -/
lemma rebound (h : m.lookup? name = some q) (r : Ref) :
    Scopes.Rebound name r m.visible (m.rebind name r).visible := by
  have hfound : Scopes.get? m.visible name = some q := h
  unfold Machine.visible Machine.rebind at *
  cases hcalls : m.calls with
  | nil =>
    simp only [hcalls] at hfound ⊢
    cases hc : m.module.rebind name r with
    | none => rw [Context.get?_of_rebind_none hc] at hfound; cases hfound
    | some c' => exact Context.rebound hc
  | cons c outer =>
    simp only [hcalls] at hfound ⊢
    cases hc : c.rebind name r with
    | some c' => exact (Context.rebound hc).append _
    | none =>
      -- the variable is one of the module's
      have hnone := Context.get?_of_rebind_none hc
      rw [Scopes.get?_append, hnone] at hfound
      have hbase : m.module.base.has name = true := by
        cases hb : m.module.base.get? name with
        | none => simp [Scopes.get?, hb] at hfound
        | some _ => simp [Scope.has, hb]
      exact (Scope.rebound hbase r []).prepend hnone

lemma lookup?_rebind_self (h : m.lookup? name = some q) :
    (m.rebind name r).lookup? name = some r := by
  have hname := m.rebound h r name
  rwa [if_pos rfl] at hname

lemma lookup?_rebind_of_ne (h : m.lookup? name = some q) {y : String} (hy : y ≠ name) :
    (m.rebind name r).lookup? y = m.lookup? y := by
  have hname := m.rebound h r y
  rwa [if_neg hy] at hname

lemma lookup?_declare (h : m.current.current.has name = false) :
    (m.updateCurrent (·.add name r)).lookup? name = some r := by
  unfold Machine.lookup? Machine.visible Machine.updateCurrent
  cases hcalls : m.calls with
  | nil =>
    have hmodule : m.module.current.has name = false := by simpa [Machine.current, hcalls] using h
    rw [← List.append_nil (m.module.add name r).scopes]
    exact Context.get?_add_self hmodule []
  | cons c outer =>
    have hc : c.current.has name = false := by simpa [Machine.current, hcalls] using h
    exact Context.get?_add_self hc _

end Machine

/-! ## What assignments change -/

/-- The value that a variable has. -/
def Machine.read? (m : Machine) (name : String) : Option Value := (m.lookup? name).map m.store.get

namespace Store

/-- The element of a list. -/
def element? (s : Store) (list : Ref) (i : Nat) : Option Value :=
  match s.get list with
  | .list _ es => es[i]?.map s.get
  | _ => none

end Store

/-- A variable has been assigned to.  It has a value, and this is now the value of whatever had the
variable's cell, provided that it could be written over the old one.  Every other variable and
element of a list that was simple has the value that it had. -/
def Machine.Assigned (m : Machine) (name : String) (m' : Machine) : Prop :=
  ∃ r v, m.lookup? name = some r ∧ m'.read? name = some v ∧
    (∀ y q, y ≠ name → m.lookup? y = some q → (m.store.get q).isSimple = true →
      m'.read? y = some (if q = r ∧ (m.store.get r).fits v = true then v else m.store.get q)) ∧
    ∀ list type es i q, m.store.get list = .list type es → es[i]? = some q →
      (m.store.get q).isSimple = true →
      m'.store.element? list i =
        some (if q = r ∧ (m.store.get r).fits v = true then v else m.store.get q)

lemma Value.isNull_of_isSimple (h : v.isSimple = true) : v.isNull = false := by
  cases v <;> first | rfl | cases h

lemma Value.isFixed_of_isSimple (h : v.isSimple = true) : v.isFixed = true := by
  cases v <;> first | rfl | cases h

lemma Value.isSimple_of_fits {w : Value} (h : v.fits w = true) : v.isSimple = true := by
  cases v <;> first | rfl | (cases w <;> cases h)

namespace Store.Keeps

variable {s s' : Store}

/-- What a cell holds is what it held, unless that is a file, a folder or a recording. -/
lemma get_eq (h : s.Keeps s') (hr : (s.get r).isNull = false) (hfixed : (s.get r).isFixed = true) :
    s'.get r = s.get r :=
  (h.get r (Store.lt_next_of_not_null hr)).eq_of_isFixed hfixed

lemma get_of_isSimple (h : s.Keeps s') (hr : (s.get r).isSimple = true) : s'.get r = s.get r :=
  h.get_eq (Value.isNull_of_isSimple hr) (Value.isFixed_of_isSimple hr)

lemma get_of_list (h : s.Keeps s') {type : String} {es : List Ref} (hr : s.get r = .list type es) :
    s'.get r = .list type es := by
  rw [← hr]
  exact h.get_eq (by rw [hr]; rfl) (by rw [hr]; rfl)

end Store.Keeps

lemma Machine.Undisturbed.lookup? {m m' : Machine} (h : m.Undisturbed m') (name : String) :
    m'.lookup? name = m.lookup? name := by
  simp only [Machine.lookup?, Machine.visible, h.calls, h.module]

namespace Machine

variable {m m₁ m₂ : Machine} {q : Ref}

lemma assigned_of_put (h : m.Undisturbed m₁) (hr : m₁.lookup? name = some r)
    (hfits : (m₁.store.get r).fits v = true) :
    m.Assigned name { m₁ with store := m₁.store.put r v } := by
  have hr' : m.lookup? name = some r := by rw [← h.lookup? name, hr]
  have hsimple := Value.isSimple_of_fits hfits
  have hput : (m₁.store.put r v).get r = v :=
    Store.get_put_self (Store.lt_next_of_not_null (Value.isNull_of_isSimple hsimple)) v
  have hget : ∀ q, (m.store.get q).isSimple = true →
      (m₁.store.put r v).get q = if q = r ∧
        (m.store.get r).fits v = true then v else m.store.get q := by
    intro q hq
    by_cases hqr : q = r
    · subst hqr
      rw [h.store.get_of_isSimple hq] at hfits
      rw [hput, if_pos ⟨rfl, hfits⟩]
    · rw [Store.get_put_of_ne hqr, h.store.get_of_isSimple hq, if_neg fun hc => hqr hc.1]
  refine ⟨r, v, hr', ?_, fun y q hy hq hv => ?_, fun list type es i q hlist hq hv => ?_⟩
  · have hlookup : { m₁ with store := m₁.store.put r v }.lookup? name = some r := hr
    simp only [Machine.read?, hlookup, Option.map_some, hput]
  · have hlookup : { m₁ with store := m₁.store.put r v }.lookup? y = some q := by
      rw [← hq, ← h.lookup? y]
      rfl
    simp only [Machine.read?, hlookup, Option.map_some, hget q hv]
  · -- a list is not in the cell of a simple value
    have hne : list ≠ r := by
      rintro rfl
      rw [h.store.get_of_list hlist] at hfits
      cases hfits
    have hlist' : (m₁.store.put r v).get list = .list type es := by
      rw [Store.get_put_of_ne hne, h.store.get_of_list hlist]
    simp only [Store.element?, hlist', hq, Option.map_some, hget q hv]

/-- The variable made to name another cell. -/
lemma assigned_of_rebind (h : m.Undisturbed m₁) (hr : m₁.lookup? name = some r)
    (hfits : (m₁.store.get r).fits (m₁.store.get q) = false) :
    m.Assigned name (m₁.rebind name q) := by
  have hr' : m.lookup? name = some r := by rw [← h.lookup? name, hr]
  have hstore : (m₁.rebind name q).store = m₁.store := by
    obtain ⟨mod, cs, heq, _⟩ := m₁.rebind_eq name q
    rw [heq]
  have hnot : ¬ (m.store.get r).fits (m₁.store.get q) = true := by
    intro hyes
    rw [← h.store.get_of_isSimple (Value.isSimple_of_fits hyes), hfits] at hyes
    cases hyes
  have hif : ∀ p : Ref, (if p = r ∧ (m.store.get r).fits (m₁.store.get q) = true then m₁.store.get q
      else m.store.get p) = m.store.get p := fun p => if_neg fun hc => hnot hc.2
  refine ⟨r, m₁.store.get q, hr', ?_, fun y p hy hp hv => ?_, fun list type es i p hlist hp hv =>
    ?_⟩
  · simp only [Machine.read?, lookup?_rebind_self hr, Option.map_some, hstore]
  · have hlookup : (m₁.rebind name q).lookup? y = some p := by
      rw [lookup?_rebind_of_ne hr hy, h.lookup? y, hp]
    rw [hif p, Machine.read?, hlookup, Option.map_some, hstore, h.store.get_of_isSimple hv]
  · rw [hif p, hstore]
    simp only [Store.element?, h.store.get_of_list hlist, hp, Option.map_some,
      h.store.get_of_isSimple hv]

/-- Opening a cell for null behind an assignment changes nothing. -/
lemma Assigned.of_get_eq (h : m.Assigned name m₁) (hlookup : ∀ y, m₂.lookup? y = m₁.lookup? y)
    (hget : ∀ r, m₂.store.get r = m₁.store.get r) : m.Assigned name m₂ := by
  have hget' : m₂.store.get = m₁.store.get := funext hget
  have hread : ∀ y, m₂.read? y = m₁.read? y := fun y => by rw [read?, read?, hlookup, hget']
  have helement : ∀ list i, m₂.store.element? list i = m₁.store.element? list i := fun list i => by
    rw [Store.element?, Store.element?, hget']
  obtain ⟨r, v, hr, hv, hvariables, helements⟩ := h
  refine ⟨r, v, hr, by rw [hread, hv], fun y q hy hq hs => ?_, fun list type es i q hl hq hs => ?_⟩
  · rw [hread, hvariables y q hy hq hs]
  · rw [helement, helements list type es i q hl hq hs]

end Machine

namespace Run

variable {body : Node → Run Unit} {fuel : Nat}

/-- An assignment changes the values of those who share the variable's cell.  One that stops changes
nothing. -/
lemma assignment_ends (s t : Span) (h : e.isQuiet = true) (m : Machine) :
    Ends (visit body fuel (.assign s (.name t name) e) m) (fun _ m' => m.Assigned name m')
      (fun _ m' => m.Undisturbed m') := by
  rw [visit]
  refine Ends.bind ((harmless_visit h).valueOf.ends m) fun q m₁ _ h₁ => ?_
  refine Ends.bind (R := fun _ m₂ => m.Assigned name m₂) ?_ fun _ m₂ _ h₂ => ?_
  · unfold assign cellOf
    cases hr : m₁.lookup? name with
    | none =>
      simp only [bind_run, get_run, hr]
      exact h₁
    | some r =>
      simp only [bind_run, get_run, hr, pure_run, value]
      cases hfits : (m₁.store.get r).fits (m₁.store.get q) with
      | true => exact Machine.assigned_of_put h₁ hr hfits
      | false => exact Machine.assigned_of_rebind h₁ hr hfits
  · exact h₂.of_get_eq (fun y => rfl) (m₂.store.get_push_null)

end Run

/-! ## Where values live -/

/-- Is the value of an expression computed, and not looked up in a variable, a list or an object? -/
def Node.isComputed : Node → Bool
  | .int .. | .float .. | .string .. | .bool .. | .null .. | .list .. | .binary .. | .negate ..
  | .call _ (.name ..) _ => true
  | _ => false

/-- The value of an expression that was visited lives in this cell: that of a variable in the
variable's cell, that of a list's element in the element's, and what is computed in a cell that was
not there before. -/
def Node.LivesIn (e : Node) (r : Ref) (m : Machine) (s : Store) : Prop :=
  match e with
  | .name _ x => m.lookup? x = some r
  | .call _ (.member _ _ field) _ =>
    field = "get" → ∃ list type es, s.get list = .list type es ∧ r ∈ es
  | e => e.isComputed = true → m.store.next ≤ r

lemma Node.LivesIn.mono {m m₁ : Machine} {s s' : Store} (h : e.LivesIn r m₁ s)
    (hm : m.Undisturbed m₁) (hs : s.Keeps s') : e.LivesIn r m s' := by
  unfold Node.LivesIn at h ⊢
  split at h
  · rw [← hm.lookup?, h]
  · intro hfield
    obtain ⟨list, type, es, hlist, hr⟩ := h hfield
    exact ⟨list, type, es, hs.get_of_list hlist, hr⟩
  · exact fun hc => Nat.le_trans hm.store.next (h hc)

namespace Run

variable {body : Node → Run Unit} {fuel : Nat}

/-- The step answers with a new cell. -/
structure Opens (x : Run Ref) : Prop where
  ends : ∀ m, Ends (x m) (fun r _ => m.store.next ≤ r) (fun _ _ => True)

namespace Opens

lemma alloc (v : Value) : Opens (alloc v) := ⟨fun m => Nat.le_refl m.store.next⟩

lemma bind {x : Run α} {f : α → Run Ref} (hx : Harmless x) (hf : ∀ a, Opens (f a)) :
    Opens (x >>= f) := by
  refine ⟨fun m => ?_⟩
  refine Ends.bind ((hx.ends m).mono_error fun _ _ _ => trivial) fun a m₁ _ h₁ => ?_
  exact ((hf a).ends m₁).weaken (fun _ _ _ h => Nat.le_trans h₁.store.next h) fun _ _ _ h => h

lemma fault (f : Fault) : Opens (fault f) := ⟨fun _ => trivial⟩

lemma fail (e : RunError) (p : Position) : Opens (fail e p) := ⟨fun _ => trivial⟩

lemma tryCatch {x : Run Ref} {handle : Stop → Run Ref} (hx : Opens x) (hq : Harmless x)
    (hh : ∀ e, Opens (handle e)) : Opens (tryCatch x handle) := by
  refine ⟨fun m => ?_⟩
  have h := hx.ends m
  have hm := hq.ends m
  rw [tryCatch_run]
  cases hr : x m with
  | ok a m₁ => rw [hr] at h; exact h
  | error e m₁ =>
    rw [hr] at hm
    exact ((hh e).ends m₁).weaken (fun _ _ _ h' => Nat.le_trans hm.store.next h') fun _ _ _ h' => h'

end Opens

lemma opens_openFile {path : String} {parent : Option Ref} :
    Opens (openFile path parent p) := .bind plain_findFile.quiet.harmless fun _ => .alloc _

lemma opens_openAudio {path : String} {parent : Option Ref} : Opens (openAudio path parent p) := by
  refine .bind plain_findFile.quiet.harmless fun f => .bind plain_load.quiet.harmless fun loaded =>
    ?_
  split
  · exact .fail _ _
  · split
    · exact .fail _ _
    · exact .alloc _

lemma openAudio?_ends (path : String) (parent : Option Ref) (p : Position) (m : Machine) :
    Ends (openAudio? path parent p m)
      (fun o m' => m.Undisturbed m' ∧ ∀ r, o = some r → m.store.next ≤ r) (fun _ _ => True) := by
  rw [openAudio?, tryCatch_run, bind_run]
  cases hr : openAudio path parent p m with
  | ok r m₁ =>
    refine ⟨(plain_openAudio.quiet.ends m).ok hr, fun r' hr' => ?_⟩
    cases hr'
    exact (opens_openAudio.ends m).ok hr
  | error e m₁ =>
    cases e with
    | failed => exact ⟨((plain_openAudio.quiet.ends m).error hr).1, nofun⟩
    | fault => trivial
    | exhausted => trivial

lemma opens_perform {b : Builtin} : Opens (perform b args p) := by
  unfold perform
  split
  · exact .bind plain_datum.quiet.harmless fun d => .bind (Quiet.ask d.balanced_toText).harmless
      fun _ =>
      .bind plain_printLine.quiet.harmless fun _ => .alloc _
  · exact .bind plain_readLine.quiet.harmless fun _ => .alloc _
  · exact .bind plain_datum.quiet.harmless fun d =>
      .bind (plain_converted d.balanced_toInt).quiet.harmless fun _ => .alloc _
  · exact .bind plain_datum.quiet.harmless fun d => .bind (Quiet.ask d.balanced_toText).harmless
      fun _ => .alloc _
  · exact .bind plain_datum.quiet.harmless fun d =>
      .bind (plain_converted d.balanced_toFloat).quiet.harmless fun _ => .alloc _
  · exact .bind plain_datum.quiet.harmless fun d => .bind (Quiet.ask d.balanced_toText).harmless
      fun _ => .alloc _
  · exact .bind plain_datum.quiet.harmless fun d => .bind (Quiet.ask d.balanced_toFloat).harmless
      fun _ => .alloc _
  · exact .bind plain_datum.quiet.harmless fun d => .bind (Quiet.ask d.balanced_toInt).harmless
      fun _ => .alloc _
  · exact .bind plain_datum.quiet.harmless fun _ => .alloc _
  · refine .bind plain_value.quiet.harmless fun v => ?_
    split
    · exact opens_openFile
    · exact .fault _
  · refine .bind plain_usableFile.quiet.harmless fun f => ⟨fun m => ?_⟩
    refine Ends.bind (openAudio?_ends f.path f.parent p m) fun o m₁ _ h₁ => ?_
    cases o with
    | some r => exact h₁.2 r rfl
    | none => exact h₁.1.store.next
  · exact .fault _

lemma opens_callBuiltin {b : Builtin} : Opens (callBuiltin b args p) := by
  refine .tryCatch opens_perform plain_perform.quiet.harmless fun e => ?_
  split
  · exact .fail _ _
  · exact .fail _ _
  · exact ⟨fun _ => trivial⟩

/-- The step leaves its value in a new cell. -/
structure Computes (x : Run Unit) : Prop where
  ends : ∀ m, Ends (x m) (fun _ m' => m.store.next ≤ m'.last) (fun _ _ => True)

namespace Computes

lemma bind {x : Run α} {f : α → Run Unit} (hx : Harmless x) (hf : ∀ a, Computes (f a)) :
    Computes (x >>= f) := by
  refine ⟨fun m => ?_⟩
  refine Ends.bind ((hx.ends m).mono_error fun _ _ _ => trivial) fun a m₁ _ h₁ => ?_
  exact ((hf a).ends m₁).weaken (fun _ _ _ h => Nat.le_trans h₁.store.next h) fun _ _ _ h => h

lemma of_opens {x : Run Ref} (h : Opens x) : Computes (x >>= setLast) :=
  ⟨fun m => Ends.bind (h.ends m) fun _ _ _ hr => hr⟩

lemma give (v : Value) : Computes (give v) := of_opens (.alloc v)

lemma ite {c : Prop} [Decidable c] {x y : Run Unit} (hx : Computes x) (hy : Computes y) :
    Computes (if c then x else y) := by
  split
  · exact hx
  · exact hy

lemma fail (e : RunError) (p : Position) : Computes (fail e p) := ⟨fun _ => trivial⟩

end Computes

lemma computes_operate {op : BinaryOp} {left right : Ref} : Computes (operate op left right p) := by
  refine .bind plain_value.quiet.harmless fun l => .bind plain_value.quiet.harmless fun r => ?_
  extract_lets applied
  have happlied : ∀ u, Computes (applied u) := by
    intro u
    refine .bind quiet_get.harmless fun m =>
      .bind (Quiet.ask (m.store.balanced_operate _ _ _)).harmless fun o => ?_
    split
    · exact .give _
    · exact .fail _ _
  refine .ite (.bind plain_datum.quiet.harmless fun d => ?_) (happlied ())
  exact .ite ⟨fun _ => trivial⟩ (happlied ())

lemma computes_negate {r : Ref} : Computes (negate r p) := by
  refine .bind plain_value.quiet.harmless fun v => ?_
  split
  · exact .give _
  · exact .give _
  · exact .fail _ _

lemma computes_callNamed {id : String} (h : (Builtin.ofName? id).isSome = true) {q : Position} :
    Computes (callNamed body id args p q) := by
  obtain ⟨b, hb⟩ := Option.isSome_iff_exists.1 h
  unfold callNamed callee
  simp only [hb]
  exact .of_opens opens_callBuiltin

/-- What is computed lives in a new cell. -/
lemma computes_visit (h : e.isQuiet = true) (hc : e.isComputed = true) :
    Computes (visit body fuel e) := by
  cases e with
  | int | float | string | bool | null =>
    rw [visit]
    exact .give _
  | list s es =>
    rw [visit]
    refine .bind (harmless_values h) fun rs => ?_
    cases rs with
    | nil => exact .give _
    | cons r rs => exact .bind plain_value.quiet.harmless fun _ => .give _
  | binary s op left right =>
    obtain ⟨hleft, hright⟩ := Bool.and_eq_true_iff.1 h
    have hl : Harmless (visit body fuel left) := harmless_visit hleft
    have hr : Harmless (visit body fuel right) := harmless_visit hright
    by_cases ha : op = .and
    · subst ha
      rw [visit]
      exact .bind hl.holds fun _ => .ite (.bind hr.holds fun _ => .give _) (.give _)
    · by_cases ho : op = .or
      · subst ho
        rw [visit]
        exact .bind hl.holds fun _ => .ite (.give _) (.bind hr.holds fun _ => .give _)
      · rw [visit_operation ha ho]
        exact .bind hl.valueOf fun _ => .bind hr.valueOf fun _ => computes_operate
  | negate s e =>
    have he : e.isQuiet = true := h
    rw [visit]
    exact .bind (harmless_visit he).valueOf fun _ => computes_negate
  | call s target args =>
    cases target with
    | name t id =>
      obtain ⟨hid, hargs⟩ := Bool.and_eq_true_iff.1 h
      rw [visit]
      exact .bind (harmless_values hargs) fun _ =>
        computes_callNamed hid
    | _ => cases hc
  | _ => cases hc

lemma getElement_mem (es args : List Ref) (p : Position) (m : Machine) :
    Ends (getElement es args p m) (fun r m' => m' = m ∧ r ∈ es) (fun _ _ => True) := by
  unfold getElement
  split
  · rename_i a
    simp only [bind_run, value, get_run, pure_run]
    cases m.store.get a with
    | int i =>
      simp only
      cases hr : if 0 ≤ i then es[i.toNat]? else none with
      | some r =>
        split at hr
        · exact ⟨rfl, List.mem_of_getElem? hr⟩
        · cases hr
      | none =>
        generalize (Datum.int i).toText = text
        exact Ends.bind_last fun _ _ => trivial
    | _ => trivial
  · trivial

lemma callFile_get (o : Ref) (v : Value) (f : FileObject) (args : List Ref) (p : Position)
    (m : Machine) : Ends (callFile o v f "get" args p m) (fun _ _ => False) (fun _ _ => True) :=
  Ends.bind_last fun _ _ => trivial

lemma callAudio_get (o : Ref) (f : FileObject) (a : Recording) (args : List Ref) (p : Position)
    (m : Machine) : Ends (callAudio o f a "get" args p m) (fun _ _ => False) (fun _ _ => True) := by
  refine Ends.bind_last fun _ _ => Ends.bind_last fun loaded _ => ?_
  split
  · trivial
  · trivial
  · exact callFile_get _ _ _ _ _ _

lemma callFolder_get (o : Ref) (d : FolderObject) (args : List Ref) (p : Position) (m : Machine) :
    Ends (callFolder o d "get" args p m) (fun _ _ => False) (fun _ _ => True) :=
  Ends.bind_last fun _ _ => trivial

lemma callMethod_get (o : Ref) (args : List Ref) (p : Position) (m : Machine) :
    Ends (callMethod o "get" args p m)
      (fun r m' => ∃ list type es, m'.store.get list = .list type es ∧ r ∈ es)
        (fun _ _ => True) := by
  unfold callMethod
  simp only [bind_run, value, get_run, pure_run]
  cases hv : m.store.get o with
  | list type es =>
    refine (getElement_mem es args p m).weaken (fun r m' _ h => ?_) fun _ _ _ _ => trivial
    obtain ⟨rfl, hr⟩ := h
    exact ⟨o, type, es, hv, hr⟩
  | file f => exact (callFile_get _ _ _ _ _ _).weaken (fun _ _ _ h => h.elim) fun _ _ _ h => h
  | audio f a => exact (callAudio_get _ _ _ _ _ _).weaken (fun _ _ _ h => h.elim) fun _ _ _ h => h
  | folder d => exact (callFolder_get _ _ _ _ _).weaken (fun _ _ _ h => h.elim) fun _ _ _ h => h
  | _ => trivial

lemma livesIn_visit (h : e.isQuiet = true) (m : Machine) :
    Ends (visit body fuel e m) (fun _ m' => e.LivesIn m'.last m m'.store) (fun _ _ => True) := by
  cases hc : e.isComputed with
  | true =>
    refine ((computes_visit h hc).ends m).weaken (fun _ m' _ hm' => ?_) fun _ _ _ h => h
    unfold Node.LivesIn
    split
    · cases hc
    · cases hc
    · exact fun _ => hm'
  | false =>
    have hother : Ends (visit body fuel e m)
      (fun _ m' => e.isComputed = true → m.store.next ≤ m'.last)
        (fun _ _ => True) :=
      ((harmless_visit h).ends m).weaken (fun _ _ _ _ hyes => by rw [hc] at hyes; cases hyes)
        fun _ _ _ _ => trivial
    cases e with
    | name s x =>
      rw [visit]
      unfold cellOf
      simp only [bind_run, get_run]
      cases hx : m.lookup? x with
      | none => trivial
      | some r => exact hx
    | call s target args =>
      cases target with
      | member t o f =>
        rw [visit]
        refine Ends.bind_last fun rs _ => Ends.bind_last fun o _ => Ends.bind_last fun _ m₁ => ?_
        by_cases hf : f = "get"
        · subst hf
          exact Ends.bind (callMethod_get o rs s.start m₁) fun r m₂ _ hr _ => hr
        · exact Ends.bind_last fun r m₂ hyes => absurd hyes hf
      | _ => exact hother
    | _ => exact hother

lemma livesIn_valueOf (h : e.isQuiet = true) (m : Machine) :
    Ends (valueOf (visit body fuel e) m) (fun r m' => m.Undisturbed m' ∧ e.LivesIn r m m'.store)
      (fun _ _ => True) :=
  Ends.bind (((harmless_visit h).ends m).and (livesIn_visit h m) |>.mono_error
    fun _ _ _ => trivial) fun _ _ _ h₁ => h₁

lemma livesIn_values (h : ∀ e ∈ es, e.isQuiet = true) (m : Machine) : Ends (values body fuel es m)
      (fun rs m' => m.Undisturbed m' ∧ List.Forall₂ (fun e r => e.LivesIn r m m'.store) es rs)
      (fun _ _ => True) := by
  induction es generalizing m with
  | nil =>
    rw [values]
    exact ⟨.refl m, .nil⟩
  | cons e es ih =>
    obtain ⟨he, hes⟩ := List.forall_mem_cons.1 h
    rw [values]
    refine Ends.bind (livesIn_valueOf he m) fun r m₁ _ h₁ => ?_
    refine Ends.bind (ih hes m₁) fun rs m₂ _ h₂ => ?_
    refine ⟨h₁.1.trans h₂.1, .cons (h₁.2.mono (.refl m) h₂.1.store) ?_⟩
    exact h₂.2.imp fun e r hr => hr.mono h₁.1 (.refl m₂.store)

lemma livesIn_list (s : Span) (h : ∀ e ∈ es, e.isQuiet = true) (m : Machine) :
    Ends (visit body fuel (.list s es) m)
      (fun _ m' => ∃ type rs, m'.store.get m'.last = .list type rs ∧
        List.Forall₂ (fun e r => e.LivesIn r m m'.store) es rs) (fun _ _ => True) := by
  rw [visit]
  refine Ends.bind (livesIn_values h m) fun rs m₁ _ h₁ => ?_
  have hgive : ∀ type, Ends (give (.list type rs) m₁) (fun _ m' => ∃ type rs,
      m'.store.get m'.last = .list type rs ∧ List.Forall₂ (fun e r => e.LivesIn r m m'.store) es rs)
      (fun _ _ => True) := fun type =>
    ⟨type, rs, m₁.store.get_push_next _, h₁.2.imp fun e r hr =>
      hr.mono (.refl m) (m₁.store.keeps_push _)⟩
  cases rs with
  | nil => exact hgive _
  | cons r rs => exact hgive _

lemma livesIn_declare (s : Span) (type : Node) {y : String} (h : e.isQuiet = true) (m : Machine) :
    Ends (visit body fuel (.declare s type y e) m)
      (fun _ m' => ∃ r, m'.lookup? y = some r ∧ e.LivesIn r m m'.store) (fun _ _ => True) := by
  rw [visit]
  refine Ends.bind (livesIn_valueOf h m) fun r m₁ _ h₁ => ?_
  refine Ends.bind (R := fun _ m₂ => m₂.lookup? y = some r ∧ m₂.store = m₁.store) ?_
    fun _ m₂ _ h₂ => ?_
  · unfold declare
    simp only [bind_run, get_run]
    cases hy : m₁.current.current.has y with
    | true => trivial
    | false => exact ⟨Machine.lookup?_declare hy, by simp⟩
  · refine ⟨r, h₂.1, h₁.2.mono (.refl m) ?_⟩
    rw [← h₂.2]
    exact m₂.store.keeps_push _

end Run

/-! ## Every assignment of a run -/

/-- Wherever a run of a program that calls no function of its own comes to an assignment, the
variables and elements that share the variable's cell have the new value behind it, and all others
have the value that they had.  A declared variable and the elements of a list share the cells in
which the values that they were given live. -/
theorem assignment_changes_sharers {program : Node} (h : program.callsNothing = true) {fuel : Nat}
    {m : Machine} {c : Moment} (hc : Reaches fuel (.start program m) c) :
    (∀ s t x e, c.node = .assign s (.name t x) e →
      Ends (c.run fuel) (fun _ m' => c.machine.Assigned x m') (fun _ m' =>
        c.machine.Undisturbed m')) ∧
    (∀ s type y e, c.node = .declare s type y e →
      Ends (c.run fuel) (fun _ m' => ∃ r, m'.lookup? y = some r ∧ e.LivesIn r c.machine m'.store)
        (fun _ _ => True)) ∧
    ∀ s es, c.node = .list s es →
      Ends (c.run fuel) (fun _ m' => ∃ type rs, m'.store.get m'.last = .list type rs ∧
        List.Forall₂ (fun e r => e.LivesIn r c.machine m'.store) es rs) (fun _ _ => True) := by
  have hnothing := hc.callsNothing h
  obtain ⟨depth, node, declared, machine⟩ := c
  refine ⟨?_, ?_, ?_⟩
  · rintro s t x e rfl
    exact assignment_ends s t hnothing machine
  · rintro s type y e rfl
    exact livesIn_declare s type hnothing machine
  · rintro s es rfl
    exact livesIn_list s (Node.allQuiet_iff.1 hnothing) machine

namespace Node

/-- `int x = 1; int y = x;` -/
def copies : List Node :=
  [.declare (.columns 0 4) (.type (.columns 0 0) "int") "x" (.int (.columns 3 3) 1),
   .declare (.columns 5 9) (.type (.columns 5 5) "int") "y" (.name (.columns 8 8) "x")]

/-- `x = 2;` -/
def overwrites : Node :=
  .assign (.columns 10 13) (.name (.columns 10 10) "x") (.int (.columns 12 12) 2)

/-- `int x = 1; int y = x; x = 2;` -/
def copied : Node := .program (.columns 0 14) [] (copies ++ [overwrites])

end Node

/-- The machine in front of the assignment: both variables name one cell. -/
def Machine.copied : Machine where
  store := ⟨#[.null, .int 1, .null, .null]⟩
  last := 3
  module := { name := "<module>", base := ⟨[("x", 1), ("y", 1)]⟩ }
  input := .lines []

/-- The variable that was initialised with the other one changes with it. -/
theorem assignment_changes_sharers_copied :
    Node.copied.callsNothing = true ∧
      ∃ c m', Reaches 0 (.start .copied (.fresh 50 (.lines []) {})) c ∧
        c.node = .overwrites ∧ c.machine = .copied ∧ c.run 0 = .ok () m' ∧
        Machine.copied.read? "y" = some (.int 1) ∧ m'.read? "y" = some (.int 2) := by
  have hcalls : Node.copied.callsNothing = true := rfl
  have hsplit : Node.copies ++ [.overwrites] = Node.copies ++ .overwrites :: [] := rfl
  have hreaches : Reaches 0 (.start .copied (.fresh 50 (.lines []) {}))
      ⟨50, .overwrites, Declared.afterAll {} Node.copies, .copied⟩ :=
    .step (.top hsplit rfl rfl rfl) (.here _)
  have hrun : ∃ m', Moment.run 0 ⟨50, .overwrites, Declared.afterAll {} Node.copies, .copied⟩
      = .ok () m' ∧ m'.read? "x" = some (.int 2) := ⟨_, rfl, rfl⟩
  obtain ⟨m', hm', hx⟩ := hrun
  refine ⟨hcalls, _, m', hreaches, rfl, rfl, hm', rfl, ?_⟩
  obtain ⟨r, v, hr, hv, hvariables, -⟩ :=
    ((assignment_changes_sharers hcalls hreaches).1 _ _ _ _ rfl).ok hm'
  cases hx.symm.trans hv
  cases hr
  exact hvariables "y" 1 (by decide) rfl rfl

end AudLang
