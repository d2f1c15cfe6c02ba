import AudLang.Proofs.Frames

/-!
Who sees whose variables.

A machine keeps its scopes by context and looks a name up where the current context and the module
say.  Here the same is kept another way: every scope that is opened gets a number and keeps the
number of the scope around it, and a name is looked up by going from scope to scope along these
numbers, whatever contexts they belong to.
-/

namespace AudLang

open Run Moment

lemma Scope.rebind_of_not_has {s : Scope} {name : String} (h : s.has name = false) (r : Ref) :
    s.rebind name r = s := by
  have hnone : s.bindings.lookup name = none := by simpa [Scope.has, Scope.get?] using h
  have hsame (b : String × Ref) (hb : b ∈ s.bindings) :
    (b.1, if b.1 = name then r else b.2) = b := by
    have hne : name ≠ b.1 := by simpa using List.lookup_eq_none_iff.1 hnone b hb
    rw [if_neg hne.symm]
  exact congrArg Scope.mk ((List.map_congr_left hsame).trans (List.map_id _))

/-! ## Linked scopes -/

/-- A scope that knows the scope around it by its number. -/
structure Link where
  scope : Scope := {}
  parent : Option Nat
deriving DecidableEq, Repr

/-- The scopes that have been opened, the newest first.  The number of a scope is how many are
older. -/
abbrev Heap := List Link

namespace Heap

/-- The scope of that number. -/
def link? : Heap → Nat → Option Link
  | [], _ => none
  | s :: older, i => if i = older.length then some s else link? older i

/-- The variables of the scope of that number. -/
def scopeAt (h : Heap) (i : Nat) : Scope := ((link? h i).map Link.scope).getD {}

/-- The numbers of the scopes from one outward. -/
def chain : Heap → Nat → List Nat
  | [], _ => []
  | s :: older, i => if i = older.length then i :: s.parent.elim [] (chain older) else chain older i

/-- The first of the scopes from one outward that declares the variable. -/
def owner? (name : String) : Heap → Nat → Option Nat
  | [], _ => none
  | s :: older, i =>
    if i = older.length then
      if s.scope.has name then some i else s.parent.bind (owner? name older)
    else owner? name older i

/-- Changes the variables of the scope of that number. -/
def update (f : Scope → Scope) : Heap → Nat → Heap
  | [], _ => []
  | s :: older, i =>
    if i = older.length then { s with scope := f s.scope } :: older else s :: update f older i

variable {h : Heap} {s : Link} {i j : Nat} {f : Scope → Scope}

lemma lt_of_link? (hs : link? h i = some s) : i < h.length := by
  induction h with
  | nil => cases hs
  | cons t older ih =>
    rw [link?] at hs
    split at hs
    · simp [*]
    · exact Nat.lt_succ_of_lt (ih hs)

lemma link?_cons_of_lt (t : Link) (hi : i < h.length) : link? (t :: h) i = link? h i := by
  rw [link?, if_neg (Nat.ne_of_lt hi)]

@[simp] lemma link?_cons_length (t : Link) (h : Heap) : link? (t :: h) h.length = some t := by
  rw [link?, if_pos rfl]

lemma scopeAt_cons_of_lt (t : Link) (hi : i < h.length) : scopeAt (t :: h) i = scopeAt h i := by
  rw [scopeAt, link?_cons_of_lt t hi, scopeAt]

@[simp] lemma length_update (f : Scope → Scope) (h : Heap) (i : Nat) :
    (update f h i).length = h.length := by
  induction h with
  | nil => rfl
  | cons t older ih =>
    rw [update]
    split
    · rfl
    · simp [ih]

/-- A change shows in the scope of its number only, and never in the links. -/
lemma link?_update (f : Scope → Scope) (h : Heap) (i j : Nat) :
    link? (update f h i) j
      = (link? h j).map fun s => if j = i then { s with scope := f s.scope } else s := by
  induction h with
  | nil => rfl
  | cons t older ih =>
    by_cases hi : i = older.length
    · rw [update, if_pos hi, link?, link?]
      split
      · simp [*]
      · rename_i hj
        simp [show ¬j = i by omega]
    · rw [update, if_neg hi, link?, link?, length_update]
      split
      · simp [show ¬j = i by omega]
      · exact ih

lemma scopeAt_update_self (hi : i < h.length) : scopeAt (update f h i) i = f (scopeAt h i) := by
  have hsome : ∃ s, link? h i = some s := by
    induction h with
    | nil => cases hi
    | cons t older ih =>
      rw [link?]
      split
      · exact ⟨t, rfl⟩
      · exact ih (by rw [List.length_cons] at hi; omega)
  obtain ⟨s, hs⟩ := hsome
  simp [scopeAt, link?_update, hs]

lemma scopeAt_update_of_ne (hj : j ≠ i) : scopeAt (update f h i) j = scopeAt h j := by
  simp [scopeAt, link?_update, hj]

lemma lt_of_mem_chain (hj : j ∈ chain h i) : j < h.length := by
  induction h generalizing i with
  | nil => cases hj
  | cons t older ih =>
    rw [chain] at hj
    split at hj
    · rcases List.mem_cons.1 hj with rfl | hj
      · simp [*]
      · cases hp : t.parent with
        | none => rw [hp] at hj; cases hj
        | some k =>
          rw [hp] at hj
          exact Nat.lt_succ_of_lt (ih hj)
    · exact Nat.lt_succ_of_lt (ih hj)

/-- The owner of a name is looked for along the chain and nowhere else. -/
lemma owner?_eq (name : String) (h : Heap) (i : Nat) :
    owner? name h i = (chain h i).find? fun j => (scopeAt h j).has name := by
  induction h generalizing i with
  | nil => rfl
  | cons t older ih =>
    -- what is older has the same variables with the newest scope in front as without it
    have holder (k : Nat) : owner? name older k
        = (chain older k).find? fun j => (scopeAt (t :: older) j).has name := by
      rw [ih]
      apply List.find?_congr
      intro j hj
      rw [scopeAt_cons_of_lt t (lt_of_mem_chain hj)]
    rw [owner?, chain]
    split
    · rename_i hi
      have ht : scopeAt (t :: older) i = t.scope := by simp [scopeAt, hi]
      rw [List.find?_cons, ht]
      cases t.scope.has name with
      | true => rfl
      | false =>
        cases t.parent with
        | none => rfl
        | some k => exact holder k
    · exact holder i

/-- The scopes around a scope are older. -/
def Ordered (h : Heap) : Prop := ∀ i s j, link? h i = some s → s.parent = some j → j < i

lemma Ordered.update (ho : Ordered h) (f : Scope → Scope) (i : Nat) : Ordered (update f h i) := by
  intro j s k hs hk
  rw [link?_update] at hs
  obtain ⟨t, ht, rfl⟩ := Option.map_eq_some_iff.1 hs
  refine ho j t k ht ?_
  split at hk <;> exact hk

lemma Ordered.cons (ho : Ordered h) (hs : ∀ j, s.parent = some j → j < h.length) :
    Ordered (s :: h) := by
  intro i t j ht hj
  rw [link?] at ht
  split at ht
  · rename_i hi
    cases ht
    exact hi ▸ hs j hj
  · exact ho i t j ht hj

/-- A chain goes from each scope on to the one around it. -/
lemma chain_eq (ho : Ordered h) (hs : link? h i = some s) :
    chain h i = i :: s.parent.elim [] (chain h) := by
  induction h with
  | nil => cases hs
  | cons t older ih =>
    have hcons {k : Nat} (hk : k < older.length) : chain (t :: older) k = chain older k := by
      rw [chain, if_neg (Nat.ne_of_lt hk)]
    have hparent : s.parent.elim [] (chain (t :: older)) = s.parent.elim [] (chain older) := by
      cases hp : s.parent with
      | none => rfl
      | some k =>
        have hk := ho i s k hs hp
        have hi := lt_of_link? hs
        rw [List.length_cons] at hi
        exact hcons (by omega)
    rw [hparent]
    by_cases hi : i = older.length
    · subst hi
      rw [link?_cons_length] at hs
      cases hs
      rw [chain, if_pos rfl]
    · have hs' : link? older i = some s := by rwa [link?, if_neg hi] at hs
      have ho' : Ordered older := fun k u l hu hl =>
        ho k u l (by rwa [link?_cons_of_lt t (lt_of_link? hu)]) hl
      rw [hcons (lt_of_link? hs'), ih ho' hs']

/-- Each of the scopes is linked to the next one, and the last to the one outside. -/
def Linked (h : Heap) (outside : Option Nat) : List Nat → Prop
  | [] => True
  | i :: is => (∃ s, link? h i = some s ∧ s.parent = is.head?.or outside) ∧ Linked h outside is

variable {outside : Option Nat} {is : List Nat}

lemma Linked.lt (hl : Linked h outside is) (hi : i ∈ is) : i < h.length := by
  induction is with
  | nil => cases hi
  | cons k is ih =>
    obtain ⟨⟨s, hs, -⟩, hl⟩ := hl
    rcases List.mem_cons.1 hi with rfl | hi
    · exact lt_of_link? hs
    · exact ih hl hi

lemma Linked.update (hl : Linked h outside is) (f : Scope → Scope) (i : Nat) :
    Linked (update f h i) outside is := by
  induction is with
  | nil => trivial
  | cons k is ih =>
    obtain ⟨⟨s, hs, hp⟩, hl⟩ := hl
    refine ⟨⟨_, by rw [link?_update, hs]; rfl, ?_⟩, ih hl⟩
    split <;> exact hp

lemma Linked.cons (hl : Linked h outside is) (t : Link) : Linked (t :: h) outside is := by
  induction is with
  | nil => trivial
  | cons k is ih =>
    obtain ⟨⟨s, hs, hp⟩, hl⟩ := hl
    exact ⟨⟨s, by rwa [link?_cons_of_lt t (lt_of_link? hs)], hp⟩, ih hl⟩

lemma Linked.append {js : List Nat} (hl : Linked h outside (is ++ js)) : Linked h outside js := by
  induction is with
  | nil => exact hl
  | cons k is ih => exact ih hl.2

/-- The chain from the first of some linked scopes goes through all of them and then outside. -/
lemma Linked.chain (ho : Ordered h) (hl : Linked h outside (i :: is)) :
    chain h i = i :: is ++ outside.elim [] (Heap.chain h) := by
  induction is generalizing i with
  | nil =>
    obtain ⟨⟨s, hs, hp⟩, -⟩ := hl
    rw [chain_eq ho hs, hp]
    rfl
  | cons k is ih =>
    obtain ⟨⟨s, hs, hp⟩, hl⟩ := hl
    rw [chain_eq ho hs, hp]
    show i :: Heap.chain h k = _
    rw [ih hl]
    rfl

end Heap

/-! ## Environments -/

/-- The numbers of the scopes of a function call or of the module. -/
structure LinkedContext where
  name : String
  /-- The scopes of the blocks that are open, from the innermost outward. -/
  inner : List Nat := []
  base : Nat
deriving DecidableEq, Repr

namespace LinkedContext

def scopes (c : LinkedContext) : List Nat := c.inner ++ [c.base]

/-- The innermost scope. -/
def current (c : LinkedContext) : Nat := c.inner.headD c.base

/-- The context with the variables of its scopes. -/
def read (h : Heap) (c : LinkedContext) : Context :=
  ⟨c.name, c.inner.map (Heap.scopeAt h), Heap.scopeAt h c.base⟩

variable {h h' : Heap} {c : LinkedContext} {i : Nat}

lemma current_mem (c : LinkedContext) : c.current ∈ c.scopes := by
  unfold current scopes
  cases c.inner <;> simp

lemma scopes_eq (c : LinkedContext) : ∃ is, c.scopes = c.current :: is := by
  unfold current scopes
  cases c.inner with
  | nil => exact ⟨[], rfl⟩
  | cons i is => exact ⟨_, rfl⟩

lemma scopes_read (h : Heap) (c : LinkedContext) :
    (c.read h).scopes = c.scopes.map (Heap.scopeAt h) := by
  simp [read, scopes, Context.scopes]

lemma read_congr (heq : ∀ i ∈ c.scopes, Heap.scopeAt h' i = Heap.scopeAt h i) :
    c.read h' = c.read h := by
  have hinner : c.inner.map (Heap.scopeAt h') = c.inner.map (Heap.scopeAt h) :=
    List.map_congr_left fun i hi => heq i (List.mem_append_left _ hi)
  have hbase : Heap.scopeAt h' c.base = Heap.scopeAt h c.base := heq _ (by simp [scopes])
  simp only [read, hinner, hbase]

lemma read_update_of_notMem {f : Scope → Scope} (hi : i ∉ c.scopes) :
    c.read (Heap.update f h i) = c.read h :=
  read_congr fun _ hj => Heap.scopeAt_update_of_ne fun heq => hi (heq ▸ hj)

lemma read_cons (s : Link) (hc : ∀ i ∈ c.scopes, i < h.length) : c.read (s :: h) = c.read h :=
  read_congr fun i hi => Heap.scopeAt_cons_of_lt s (hc i hi)

/-- A variable that is added to the innermost scope. -/
lemma read_add (hc : ∀ i ∈ c.scopes, i < h.length) (hd : c.scopes.Nodup) (name : String) (r : Ref) :
    c.read (Heap.update (·.add name r) h c.current) = (c.read h).add name r := by
  obtain ⟨id, inner, base⟩ := c
  have hself := Heap.scopeAt_update_self (f := (·.add name r)) (hc _ (current_mem _))
  cases inner with
  | nil =>
    simp only [current, List.headD_nil] at hself ⊢
    simp only [read, Context.add, List.map_nil, hself]
  | cons i is =>
    simp only [current, List.headD_cons] at hself ⊢
    obtain ⟨hi, -⟩ := List.nodup_cons.1 hd
    have hrest (j : Nat) (hj : j ∈ is ++ [base]) :
        Heap.scopeAt (Heap.update (·.add name r) h i) j = Heap.scopeAt h j :=
      Heap.scopeAt_update_of_ne fun heq => hi (heq ▸ hj)
    have his := List.map_congr_left fun _ hj => hrest _ (List.mem_append_left _ hj)
    simp only [read, Context.add, List.map_cons, hself, his, hrest base (by simp)]

/-- Rebinding in some scopes changes the first of them that declares the variable. -/
lemma rebindIn_map {is : List Nat} (his : ∀ i ∈ is, i < h.length) (hd : is.Nodup) (name : String)
    (r : Ref) : Context.rebindIn name r (is.map (Heap.scopeAt h))
      = (is.find? fun j => (Heap.scopeAt h j).has name).map fun j =>
          is.map (Heap.scopeAt (Heap.update (·.rebind name r) h j)) := by
  induction is with
  | nil => rfl
  | cons i is ih =>
    obtain ⟨hi, hd⟩ := List.nodup_cons.1 hd
    rw [List.map_cons, Context.rebindIn, List.find?_cons]
    cases hn : (Heap.scopeAt h i).has name with
    | true =>
      have hself := Heap.scopeAt_update_self (f := (·.rebind name r))
        (his i (List.mem_cons_self ..))
      have hrest := List.map_congr_left fun j (hj : j ∈ is) =>
        (Heap.scopeAt_update_of_ne (h := h) (f := (·.rebind name r)) fun heq : j = i =>
          hi (heq ▸ hj)).symm
      simp only [if_true, Option.map_some, List.map_cons, hself, hrest]
    | false =>
      rw [ih (fun j hj => his j (List.mem_cons_of_mem _ hj)) hd]
      simp only [Bool.false_eq_true, if_false, Option.map_map]
      apply Option.map_congr
      intro j hj
      have hj' : j ∈ is := List.mem_of_find?_eq_some hj
      have hfirst := Heap.scopeAt_update_of_ne (h := h) (f := (·.rebind name r)) fun heq : i = j =>
        hi (heq ▸ hj')
      simp only [Function.comp, List.map_cons, hfirst]

/-- Rebinding in a context changes the first of its scopes that declares the variable. -/
lemma read_rebind (hc : ∀ i ∈ c.scopes, i < h.length) (hd : c.scopes.Nodup) (name : String)
    (r : Ref) :
    (c.read h).rebind name r = (c.scopes.find? fun j => (Heap.scopeAt h j).has name).map fun j =>
      c.read (Heap.update (·.rebind name r) h j) := by
  obtain ⟨hinner, -, hbase⟩ := List.nodup_append.1 hd
  have hlt : ∀ i ∈ c.inner, i < h.length := fun i hi => hc i (List.mem_append_left _ hi)
  unfold Context.rebind scopes
  simp only [read, rebindIn_map hlt hinner, List.find?_append]
  cases hf : c.inner.find? fun j => (Heap.scopeAt h j).has name with
  | some j =>
    have hj : j ∈ c.inner := List.mem_of_find?_eq_some hf
    have hsame := Heap.scopeAt_update_of_ne (h := h) (f := (·.rebind name r))
      (hbase j hj c.base (by simp)).symm
    simp only [Option.map_some, Option.some_or, hsame]
  | none =>
    simp only [Option.map_none, Option.none_or, List.find?_cons, List.find?_nil]
    by_cases hb : (Heap.scopeAt h c.base).has name = true
    · have hself := Heap.scopeAt_update_self (f := (·.rebind name r)) (hc c.base (by simp [scopes]))
      have hrest := List.map_congr_left fun j (hj : j ∈ c.inner) =>
        (Heap.scopeAt_update_of_ne (h := h) (f := (·.rebind name r))
          (hbase j hj c.base (by simp))).symm
      simp only [hb, if_true, Option.map_some, hself, hrest]
    · simp only [hb, Bool.false_eq_true, if_false, Option.map_none]

end LinkedContext

/-- The scopes of a run, kept by their numbers. -/
structure Environment where
  heap : Heap := [{ parent := none }]
  module : LinkedContext := { name := "<module>", base := 0 }
  /-- The calls that have not ended, from the innermost outward. -/
  calls : List LinkedContext := []
deriving DecidableEq, Repr

namespace Environment

/-- The context of the innermost call, or of the module. -/
def current (e : Environment) : LinkedContext := e.calls.headD e.module

/-- Changes the current context. -/
def updateCurrent (e : Environment) (f : LinkedContext → LinkedContext) : Environment :=
  match e.calls with
  | c :: outer => { e with calls := f c :: outer }
  | [] => { e with module := f e.module }

/-- The innermost scope of the current context, where every search for a name begins. -/
def scope (e : Environment) : Nat := e.current.current

/-- The cell of a variable. -/
def lookup? (e : Environment) (name : String) : Option Ref :=
  (Heap.owner? name e.heap e.scope).bind fun i => (Heap.scopeAt e.heap i).get? name

/-- Adds a variable to the innermost scope. -/
def declare (e : Environment) (name : String) (r : Ref) : Environment :=
  { e with heap := Heap.update (·.add name r) e.heap e.scope }

/-- Rebinds a variable in the scope that it is found in. -/
def rebind (e : Environment) (name : String) (r : Ref) : Environment :=
  match Heap.owner? name e.heap e.scope with
  | some i => { e with heap := Heap.update (·.rebind name r) e.heap i }
  | none => e

/-- Opens a scope in the current context; the innermost scope is the one around it. -/
def enter (e : Environment) : Environment :=
  { e.updateCurrent fun c => { c with inner := e.heap.length :: c.inner } with
    heap := { parent := some e.scope } :: e.heap }

/-- Closes the innermost scope of the current context. -/
def exit (e : Environment) : Environment :=
  e.updateCurrent fun c => { c with inner := c.inner.tail }

/-- Opens a context; the base scope of the module is the one around its base scope. -/
def call (e : Environment) (name : String) : Environment :=
  { e with
    heap := { parent := some e.module.base } :: e.heap
    calls := { name, base := e.heap.length } :: e.calls }

/-- Closes the context of the innermost call. -/
def leave (e : Environment) : Environment := { e with calls := e.calls.tail }

/-- What a deed makes of the environment.  The values in the store tell whether an assignment
rebinds. -/
def does (e : Environment) (store : Store) : Deed → Environment
  | .declare name r _ => e.declare name r
  | .assign name r _ =>
    match e.lookup? name with
    | some q => if (store.get q).fits (store.get r) then e else e.rebind name r
    | none => e
  | .enter => e.enter
  | .exit => e.exit
  | .call name _ => e.call name
  | .leave => e.leave
  | .note _ => e
  | .register .. => e

/-- The environment has the scopes of the machine, each linked to the next one of its context, the
base scope of a call to that of the module, and no scope belongs to two contexts. -/
structure Represents (e : Environment) (m : Machine) : Prop where
  module : m.module = e.module.read e.heap
  calls : m.calls = e.calls.map (LinkedContext.read e.heap)
  ordered : Heap.Ordered e.heap
  distinct : ((e.calls ++ [e.module]).flatMap LinkedContext.scopes).Nodup
  module_linked : Heap.Linked e.heap none e.module.scopes
  calls_linked : ∀ c ∈ e.calls, Heap.Linked e.heap (some e.module.base) c.scopes

namespace Represents

variable {e : Environment} {m m' : Machine} {name : String} {r : Ref}

lemma lt (hr : e.Represents m) {c : LinkedContext} (hc : c ∈ e.calls ++ [e.module]) {i : Nat}
    (hi : i ∈ c.scopes) : i < e.heap.length := by
  rcases List.mem_append.1 hc with hc | hc
  · exact (hr.calls_linked c hc).lt hi
  · rw [List.mem_singleton.1 hc] at hi
    exact hr.module_linked.lt hi

/-- In the module the chain of the current scope is the scopes of the module. -/
lemma chain_module (hr : e.Represents m) :
    Heap.chain e.heap e.module.current = e.module.scopes := by
  obtain ⟨is, his⟩ := e.module.scopes_eq
  have hlinked := hr.module_linked
  rw [his] at hlinked ⊢
  rw [hlinked.chain hr.ordered]
  simp

/-- In a call it is the scopes of the call and then the base scope of the module. -/
lemma chain_call (hr : e.Represents m) {c : LinkedContext} (hc : c ∈ e.calls) :
    Heap.chain e.heap c.current = c.scopes ++ [e.module.base] := by
  obtain ⟨is, his⟩ := c.scopes_eq
  have hlinked := hr.calls_linked c hc
  have hlast : Heap.Linked e.heap none [e.module.base] := Heap.Linked.append hr.module_linked
  have hbase : Heap.chain e.heap e.module.base = [e.module.base] := hlast.chain hr.ordered
  rw [his] at hlinked ⊢
  rw [hlinked.chain hr.ordered, Option.elim_some, hbase]

/-- The machine sees the scopes along the chain of the current one. -/
lemma visible (hr : e.Represents m) :
    m.visible = (Heap.chain e.heap e.scope).map (Heap.scopeAt e.heap) := by
  unfold Machine.visible scope current
  have hcalls := hr.calls
  cases hc : e.calls with
  | nil =>
    rw [hc] at hcalls
    simp only [hcalls, List.map_nil, List.headD_nil, hr.chain_module]
    rw [hr.module, LinkedContext.scopes_read]
  | cons c outer =>
    rw [hc] at hcalls
    simp only [hcalls, List.map_cons, List.headD_cons, hr.chain_call (hc ▸ List.mem_cons_self ..)]
    rw [hr.module, LinkedContext.scopes_read, List.map_append]
    rfl

lemma lookup?_eq (hr : e.Represents m) (name : String) : e.lookup? name = m.lookup? name := by
  unfold lookup? Machine.lookup?
  rw [hr.visible, Heap.owner?_eq, List.findSome?_map]
  induction Heap.chain e.heap e.scope with
  | nil => rfl
  | cons i is ih =>
    rw [List.find?_cons, List.findSome?_cons]
    cases hi : (Heap.scopeAt e.heap i).get? name with
    | some q => simp [Scope.has, hi]
    | none => simpa [Scope.has, hi] using ih

lemma nodup (hr : e.Represents m) {c : LinkedContext} (hc : c ∈ e.calls ++ [e.module]) :
    c.scopes.Nodup :=
  (List.nodup_flatMap.1 hr.distinct).1 c hc

section Current

variable {h : Heap} {mod c : LinkedContext} {outer : List LinkedContext} {i : Nat}
  {f : Scope → Scope}

/-- A change in a scope of the innermost call does not show in the contexts below. -/
lemma read_outer (hr : Represents ⟨h, mod, c :: outer⟩ m) (hi : i ∈ c.scopes) {c' : LinkedContext}
    (hc' : c' ∈ outer ++ [mod]) : c'.read (Heap.update f h i) = c'.read h := by
  obtain ⟨hdisjoint, -⟩ := List.pairwise_cons.1 (List.nodup_flatMap.1 hr.distinct).2
  exact LinkedContext.read_update_of_notMem fun hi' => hdisjoint c' hc' hi hi'

lemma read_calls (hr : Represents ⟨h, mod, outer⟩ m) (hi : i ∈ mod.scopes) (hc : c ∈ outer) :
    c.read (Heap.update f h i) = c.read h := by
  obtain ⟨-, -, hdisjoint⟩ := List.pairwise_append.1 (List.nodup_flatMap.1 hr.distinct).2
  exact LinkedContext.read_update_of_notMem fun hi' =>
    hdisjoint c hc mod (List.mem_singleton_self mod) hi' hi

end Current

/-- A change in the variables of one scope leaves the links as they are. -/
lemma update (hr : e.Represents m) {f : Scope → Scope} {i : Nat}
    (hmodule : m'.module = e.module.read (Heap.update f e.heap i))
    (hcalls : m'.calls = e.calls.map (LinkedContext.read (Heap.update f e.heap i))) :
    Represents { e with heap := Heap.update f e.heap i } m' :=
  ⟨hmodule, hcalls, hr.ordered.update f i, hr.distinct, hr.module_linked.update f i,
    fun c hc => (hr.calls_linked c hc).update f i⟩

lemma declare (hr : e.Represents m) (name : String) (r : Ref) :
    (e.declare name r).Represents (m.updateCurrent (·.add name r)) := by
  have hadd {c : LinkedContext} (hc : c ∈ e.calls ++ [e.module]) :=
    LinkedContext.read_add (fun _ hi => hr.lt hc hi) (hr.nodup hc) name r
  obtain ⟨h, mod, calls⟩ := e
  have hcalls := hr.calls
  have hmodule := hr.module
  cases calls with
  | nil =>
    refine hr.update ?_ ?_
    · simp only [Machine.updateCurrent, hcalls, List.map_nil, hmodule]
      exact (hadd (by simp)).symm
    · simp only [Machine.updateCurrent, hcalls, List.map_nil]
  | cons c outer =>
    refine hr.update ?_ ?_
    · simp only [Machine.updateCurrent, hcalls, List.map_cons, hmodule]
      exact (hr.read_outer c.current_mem (by simp)).symm
    · have houter := List.map_congr_left fun c' (hc' : c' ∈ outer) =>
        hr.read_outer (f := (·.add name r)) c.current_mem (List.mem_append_left _ hc')
      simp only [Machine.updateCurrent, hcalls, List.map_cons, scope, current, List.headD_cons,
        houter,
        hadd (c := c) (by simp)]

lemma rebind (hr : e.Represents m) (name : String) (r : Ref) :
    (e.rebind name r).Represents (m.rebind name r) := by
  have hrebind {c : LinkedContext} (hc : c ∈ e.calls ++ [e.module]) :=
    LinkedContext.read_rebind (fun _ hi => hr.lt hc hi) (hr.nodup hc) name r
  unfold Environment.rebind
  rw [Heap.owner?_eq]
  obtain ⟨h, mod, calls⟩ := e
  have hcalls := hr.calls
  have hmodule := hr.module
  cases calls with
  | nil =>
    have hm : m.rebind name r = { m with module := (m.module.rebind name r).getD m.module } := by
      simp only [Machine.rebind, hcalls, List.map_nil]
    rw [show Heap.chain h (scope ⟨h, mod, []⟩) = mod.scopes from hr.chain_module, hm, hmodule,
      hrebind (by simp)]
    cases mod.scopes.find? fun j => (Heap.scopeAt h j).has name with
    | none => exact ⟨rfl, hcalls, hr.ordered, hr.distinct, hr.module_linked, hr.calls_linked⟩
    | some i => exact hr.update rfl hcalls
  | cons c outer =>
    have hchain : Heap.chain h (scope ⟨h, mod, c :: outer⟩) = c.scopes ++ [mod.base] :=
      hr.chain_call (List.mem_cons_self ..)
    have hc := hrebind (c := c) (by simp)
    unfold Machine.rebind
    simp only [hcalls, List.map_cons, hc, hchain, List.find?_append]
    cases hf : c.scopes.find? fun j => (Heap.scopeAt h j).has name with
    | some i =>
      have hi : i ∈ c.scopes := List.mem_of_find?_eq_some hf
      have houter := List.map_congr_left fun c' (hc' : c' ∈ outer) =>
        hr.read_outer (f := (·.rebind name r)) hi (List.mem_append_left _ hc')
      refine hr.update ?_ ?_
      · exact hmodule.trans (hr.read_outer hi (by simp)).symm
      · simp only [Option.map_some, List.map_cons, houter]
    | none =>
      -- the call does not declare the variable, and the base scope of the module is all there is
      simp only [Option.map_none, Option.none_or, List.find?_cons, List.find?_nil]
      by_cases hb : (Heap.scopeAt h mod.base).has name = true
      · have hbase : mod.base ∈ mod.scopes := by simp [LinkedContext.scopes]
        have hself := Heap.scopeAt_update_self (f := (·.rebind name r))
          (hr.lt (c := mod) (by simp) hbase)
        obtain ⟨-, -, hinner⟩ := List.nodup_append.1 (hr.nodup (c := mod) (by simp))
        have hrest := List.map_congr_left fun j (hj : j ∈ mod.inner) =>
          Heap.scopeAt_update_of_ne (h := h) (f := (·.rebind name r))
            (hinner j hj mod.base (by simp))
        have hcontexts := List.map_congr_left fun c' (hc' : c' ∈ c :: outer) =>
          hr.read_calls (f := (·.rebind name r)) hbase hc'
        simp only [hb]
        refine hr.update ?_ hcontexts.symm
        simp only [hmodule, LinkedContext.read, hself, hrest]
      · have hmodule' : m.module.base.rebind name r = m.module.base :=
          Scope.rebind_of_not_has (by simpa [hmodule, LinkedContext.read] using hb) r
        simp only [hb, hmodule']
        exact ⟨hmodule, rfl, hr.ordered, hr.distinct, hr.module_linked, hr.calls_linked⟩

/-- A change of the current context, which keeps its base scope, while the scopes of the others stay
as they are. -/
lemma updateCurrent {h : Heap} {g : LinkedContext → LinkedContext} {f : Context → Context}
    (hr : e.Represents m)
    (hread : ∀ c ∈ e.calls ++ [e.module], c.read h = c.read e.heap) (ho : Heap.Ordered h)
    (hlinked : ∀ outside is, Heap.Linked e.heap outside is → Heap.Linked h outside is)
    (hg : (g e.current).read h = f (e.current.read e.heap))
    (hbase : (g e.current).base = e.current.base)
    (hdistinct : ∀ is, (e.current.scopes ++ is).Nodup → (∀ i ∈ is, i < e.heap.length) →
      ((g e.current).scopes ++ is).Nodup)
    (hcurrent : ∀ outside, Heap.Linked e.heap outside e.current.scopes →
      Heap.Linked h outside (g e.current).scopes) :
    Represents { e.updateCurrent g with heap := h } (m.updateCurrent f) := by
  have hlt {c : LinkedContext} (hc : c ∈ e.calls ++ [e.module]) {i : Nat} (hi : i ∈ c.scopes) :=
    hr.lt hc hi
  obtain ⟨h₀, mod, calls⟩ := e
  obtain ⟨hmodule, hcalls, -, hd, hml, hcl⟩ := hr
  unfold Machine.updateCurrent
  cases calls with
  | nil =>
    simp only [hcalls, List.map_nil, hmodule]
    exact ⟨hg.symm, rfl, ho, hdistinct [] hd (by simp), hcurrent none hml, fun c hc => by cases hc⟩
  | cons c outer =>
    have houter := List.map_congr_left fun c' (hc' : c' ∈ outer) => (hread c' (by simp [hc'])).symm
    simp only [hcalls, List.map_cons]
    refine ⟨hmodule.trans (hread mod (by simp)).symm, ?_, ho, ?_, hlinked _ _ hml, ?_⟩
    · exact congrArg₂ List.cons hg.symm houter
    · exact hdistinct _ hd fun i hi => by
        obtain ⟨c', hc', hi⟩ := List.mem_flatMap.1 hi
        exact hlt (List.mem_cons_of_mem _ hc') hi
    · intro c' hc'
      rcases List.mem_cons.1 hc' with rfl | hc'
      · exact hcurrent _ (hcl c (List.mem_cons_self ..))
      · exact hlinked _ _ (hcl c' (List.mem_cons_of_mem _ hc'))

lemma current_mem (e : Environment) : e.current ∈ e.calls ++ [e.module] := by
  unfold current
  cases e.calls <;> simp

lemma enter (hr : e.Represents m) :
    e.enter.Represents (m.updateCurrent fun c => { c with inner := {} :: c.inner }) := by
  have hlt {c : LinkedContext} (hc : c ∈ e.calls ++ [e.module]) {i : Nat} (hi : i ∈ c.scopes) :=
    hr.lt hc hi
  have hread {c : LinkedContext} (hc : c ∈ e.calls ++ [e.module]) :
      c.read ({ parent := some e.scope } :: e.heap) = c.read e.heap :=
        LinkedContext.read_cons _ fun _ => hlt hc
  have hordered : Heap.Ordered ({ parent := some e.scope } :: e.heap) :=
    hr.ordered.cons fun j hj => by
      cases hj
      exact hlt (current_mem e) e.current.current_mem
  refine hr.updateCurrent (fun c => hread) hordered (fun _ _ hl => hl.cons _) ?_ rfl
    (fun is hd his => ?_)
    fun o hl => ?_
  · have hcurrent := hread (current_mem e)
    have hnew : Heap.scopeAt ({ parent := some e.scope } :: e.heap) e.heap.length
      = {} := by simp [Heap.scopeAt]
    simp only [LinkedContext.read, Context.mk.injEq, true_and] at hcurrent ⊢
    simp [hcurrent, hnew]
  · refine List.nodup_cons.2 ⟨fun hi => ?_, hd⟩
    rcases List.mem_append.1 hi with hi | hi
    · exact Nat.lt_irrefl _ (hlt (current_mem e) hi)
    · exact Nat.lt_irrefl _ (his _ hi)
  · obtain ⟨is, his⟩ := e.current.scopes_eq
    refine ⟨⟨_, Heap.link?_cons_length _ _, ?_⟩, hl.cons _⟩
    show some e.current.current = (e.current.scopes.head?).or o
    rw [his]
    rfl

lemma inner_of_current (hr : e.Represents m) :
    m.current.inner = e.current.inner.map (Heap.scopeAt e.heap) := by
  unfold Machine.current current
  rw [hr.calls, hr.module]
  cases e.calls <;> rfl

lemma exit (hr : e.Represents m) {s : Scope} {outer : List Scope}
    (hs : m.current.inner = s :: outer) :
    e.exit.Represents (m.updateCurrent fun c => { c with inner := outer }) := by
  rw [hr.inner_of_current] at hs
  obtain ⟨i, is, hi, -, rfl⟩ := List.map_eq_cons_iff.1 hs
  have hscopes : e.current.scopes
    = i :: (is ++ [e.current.base]) := by rw [LinkedContext.scopes, hi]; rfl
  have htail : { e.current with inner := e.current.inner.tail }.scopes
    = is ++ [e.current.base] := by
    rw [LinkedContext.scopes, hi]
    rfl
  have hexit : e.exit =
      { e.updateCurrent fun c => { c with inner := c.inner.tail } with heap := e.heap } := by
    unfold Environment.exit Environment.updateCurrent
    cases e.calls <;> rfl
  rw [hexit]
  refine hr.updateCurrent (fun _ _ => rfl) hr.ordered (fun _ _ hl => hl) ?_ rfl
    (fun js hd _ => ?_) fun o hl => ?_
  · simp only [LinkedContext.read, hi, List.tail_cons]
  · rw [hscopes] at hd
    rw [htail]
    exact (List.nodup_cons.1 hd).2
  · rw [hscopes] at hl
    rw [htail]
    exact hl.2

lemma call (hr : e.Represents m) (name : String) :
    (e.call name).Represents { m with calls := { name } :: m.calls } := by
  have hlt {c : LinkedContext} (hc : c ∈ e.calls ++ [e.module]) {i : Nat} (hi : i ∈ c.scopes) :=
    hr.lt hc hi
  have hread {c : LinkedContext} (hc : c ∈ e.calls ++ [e.module]) (s : Link) :
      c.read e.heap = c.read (s :: e.heap) := (LinkedContext.read_cons s fun _ => hlt hc).symm
  have hmem : e.module ∈ e.calls ++ [e.module] := by simp
  refine ⟨hr.module.trans (hread hmem _), ?_, ?_, ?_, hr.module_linked.cons _, ?_⟩
  · have hcalls := List.map_congr_left fun c (hc : c ∈ e.calls) =>
      hread (List.mem_append_left _ hc) { parent := some e.module.base }
    simp only [Environment.call, List.map_cons, LinkedContext.read, List.map_nil, Heap.scopeAt,
      Heap.link?_cons_length]
    exact congrArg _ (hr.calls.trans hcalls)
  · refine hr.ordered.cons fun j hj => ?_
    cases hj
    exact hlt hmem (by simp [LinkedContext.scopes])
  · refine List.nodup_cons.2 ⟨fun hi => ?_, hr.distinct⟩
    obtain ⟨c, hc, hi⟩ := List.mem_flatMap.1 hi
    exact Nat.lt_irrefl _ (hlt hc hi)
  · intro c hc
    rcases List.mem_cons.1 hc with rfl | hc
    · exact ⟨⟨_, Heap.link?_cons_length _ _, rfl⟩, trivial⟩
    · exact (hr.calls_linked c hc).cons _

lemma leave (hr : e.Represents m) {c : Context} {outer : List Context} (hc : m.calls = c :: outer) :
    e.leave.Represents { m with calls := outer } := by
  rw [hr.calls] at hc
  obtain ⟨c', outer', hcalls, -, rfl⟩ := List.map_eq_cons_iff.1 hc
  obtain ⟨h, mod, calls⟩ := e
  subst hcalls
  exact ⟨hr.module, rfl, hr.ordered, (List.nodup_append.1 hr.distinct).2.1, hr.module_linked,
    fun c hc => hr.calls_linked c (List.mem_cons_of_mem _ hc)⟩

/-- Whatever is done, the environment goes along. -/
lemma does (hr : e.Represents m) {k : Deed} (hk : k.Makes m m') :
    (e.does m.store k).Represents m' := by
  have hsame {m' : Machine} (hmodule : m'.module = m.module) (hcalls : m'.calls = m.calls) :
    e.Represents m' :=
    ⟨hmodule.trans hr.module, hcalls.trans hr.calls, hr.ordered, hr.distinct, hr.module_linked,
      hr.calls_linked⟩
  cases hk with
  | declare r p h => exact hr.declare _ r
  | put p h hf =>
    rw [Environment.does, hr.lookup?_eq, h]
    simp only [hf, if_true]
    exact hsame rfl rfl
  | rebind p h hf =>
    rw [Environment.does, hr.lookup?_eq, h]
    simp only [hf, Bool.false_eq_true, if_false]
    exact hr.rebind _ _
  | enter => exact hr.enter
  | exit h => exact hr.exit h
  | call name p h => exact hr.call name
  | leave h => exact hr.leave h
  | note => exact hsame rfl rfl
  | register => exact hsame rfl rfl

end Represents

end Environment

/-! ## Along a run -/

namespace Moment

variable {fuel : Nat} {c c' : Moment} {k : UserCall} {e : Environment} {m m₁ m₂ m₃ m' : Machine}

/-- The environment has been carried along with a run from the moment, deed by deed, up to the
machine. -/
inductive Carries (fuel : Nat) (c : Moment) : Environment → Machine → Prop
  | start : Carries fuel c {} c.machine
  | quiet {e : Environment} {m m' : Machine} (h : Carries fuel c e m) (hq : m.Undisturbed m') :
      Carries fuel c e m'
  | deed {e : Environment} {c' : Moment} {k : Deed} {m m' : Machine} (h : Carries fuel c e m)
      (hr : Reaches fuel c c') (hd : c'.Does fuel k m) (hk : k.Makes m m') :
        Carries fuel c (e.does m.store k) m'

/-- An environment can be carried along throughout. -/
lemma invariant_carries (fuel : Nat) (c : Moment) :
    Invariant fuel c fun m => ∃ e, c.Carries fuel e m where
  quiet := by
    rintro m m' ⟨e, h⟩ hq
    exact ⟨e, .quiet h hq⟩
  deed := by
    rintro c' k m m' hr - hd ⟨e, h⟩ hk
    exact ⟨_, .deed h hr hd hk⟩

lemma Carries.represents (h : c.Carries fuel e m) (hc : Environment.Represents {} c.machine) :
    e.Represents m := by
  induction h with
  | start => exact hc
  | quiet _ hq ih =>
    exact ⟨hq.module.trans ih.module, hq.calls.trans ih.calls, ih.ordered, ih.distinct,
      ih.module_linked,
      ih.calls_linked⟩
  | deed _ _ _ hk ih => exact ih.does hk

end Moment

lemma Environment.represents_fresh (limit : Int) (input : Input) (files : Files) :
    Environment.Represents {} (.fresh limit input files) where
  module := rfl
  calls := rfl
  ordered i s j hs hj := by
    rw [Heap.link?] at hs
    split at hs
    · cases hs
      cases hj
    · cases hs
  distinct := by decide
  module_linked := ⟨⟨_, rfl, rfl⟩, trivial⟩
  calls_linked c hc := by cases hc

/-! ## Below a call -/

namespace Moment

variable {fuel : Nat} {c : Moment} {k : UserCall} {m m₁ : Machine}

/-- The machine comes up during the call, from where its context is opened to where it is closed. -/
inductive During (fuel : Nat) (c : Moment) (k : UserCall) (m₁ : Machine) : Machine → Prop
  /-- Some parameters are declared. -/
  | begins {before after : List Node} {rs rs' : List Ref} {m₂ m : Machine}
      (hpush : pushContext k.name k.place m₁ = .ok () m₂) (hps : k.parameters = before ++ after)
      (hrs : k.args = rs ++ rs') (hlen : before.length = rs.length)
      (hp : declareParameters before rs m₂ = .ok () m) : During fuel c k m₁ m
  /-- The body is visited. -/
  | inside {m₂ m : Machine} (h : c.Starts fuel k m₁ m₂) (hm : (c.inside k m₂).Passes fuel m) :
      During fuel c k m₁ m
  /-- The value that the body has returned is taken. -/
  | ends {m₂ m₃ m : Machine} (h : c.Starts fuel k m₁ m₂)
      (hb : bodyAt fuel c.depth k.body m₂ = .ok () m₃)
      (ht : takes k m₃ = .ok () m) : During fuel c k m₁ m

lemma During.over (h : c.During fuel k m₁ m) (hc : c.Orderly) :
    m₁.Over m ∧ m₁.calls.length < m.calls.length := by
  cases h with
  | @begins _ _ _ _ m₂ _ hpush hps hrs hlen hp =>
    have hopened := over_pushContext hpush
    refine ⟨hopened.1.declareParameters hopened.2 hp, ?_⟩
    rw [length_calls_declareParameters hp]
    exact hopened.2
  | inside h hm =>
    have hlt : m₁.calls.length < (c.inside k _).machine.calls.length := h.length_calls_lt
    have hinside := h.orderly hc
    exact ⟨over_of_passes hinside (.inl hlt) h.over hm,
      (invariant_length fuel _ _).passes hinside hlt hm⟩
  | ends h hb ht =>
    refine ⟨h.over_of_takes hc hb ht, ?_⟩
    rw [(Does.leave h hb ht).length_calls, h.calls.length_calls]
    exact Nat.lt_succ_self _

end Moment

/-- A call does not see the variables of its caller, and it cannot rebind them.

Let every scope know the scope around it, and let names be looked up and rebound along these links
alone.  In whatever a run comes to, this is what the machine does; and the scopes along the links
are those of the current context and, in a call, the base scope of the module.  From the beginning
of a call to its end, all contexts below it stay as they are, but for the base scope of the
module. -/
theorem calls_see_no_locals {program : Node} (hp : program.IsProgram) (limit : Int) (input : Input)
    (files : Files) (fuel : Nat) :
    (∀ m, (start program (.fresh limit input files)).Passes fuel m →
      ∃ e, (start program (.fresh limit input files)).Carries fuel e m) ∧
    (∀ e m, (start program (.fresh limit input files)).Carries fuel e m →
      (m.module = e.module.read e.heap ∧ m.calls = e.calls.map (LinkedContext.read e.heap)) ∧
      Heap.chain e.heap e.module.current = e.module.scopes ∧
      (∀ c ∈ e.calls, Heap.chain e.heap c.current = c.scopes ++ [e.module.base]) ∧
      (∀ name, m.lookup? name = e.lookup? name) ∧
      ∀ name r, (m.rebind name r).module = (e.rebind name r).module.read (e.rebind name r).heap ∧
        (m.rebind name r).calls = (e.rebind name r).calls.map
          (LinkedContext.read (e.rebind name r).heap)) ∧
    ∀ c k m₁, Reaches fuel (start program (.fresh limit input files)) c → c.Calls fuel k m₁ →
      (∀ m, c.During fuel k m₁ m →
        ∃ base callee above,
          m.contexts = ⟨m₁.module.name, m₁.module.inner,
            base⟩ :: m₁.calls.reverse ++ callee :: above) ∧
      ∀ m, c.run fuel = .ok () m →
        ∃ base, m.contexts = ⟨m₁.module.name, m₁.module.inner, base⟩ :: m₁.calls.reverse := by
  have hc : (start program (.fresh limit input files)).Orderly :=
    ⟨⟨rfl, fun _ _ h => by cases h⟩, .inr (.inr hp.isWhole)⟩
  refine ⟨fun m h => ?_, fun e m h => ?_, fun c k m₁ hr hcalls => ?_⟩
  · exact (invariant_carries fuel _).passes hc ⟨_, .start⟩ h
  · have hrep := h.represents (Environment.represents_fresh limit input files)
    refine ⟨⟨hrep.module, hrep.calls⟩, hrep.chain_module, fun c => hrep.chain_call, fun name => ?_,
      fun name r => ?_⟩
    · exact (hrep.lookup?_eq name).symm
    · exact ⟨(hrep.rebind name r).module, (hrep.rebind name r).calls⟩
  · have hc' := hr.orderly hc
    refine ⟨fun m h => ?_, fun m h => ?_⟩
    · obtain ⟨hover, hlt⟩ := h.over hc'
      obtain ⟨base, above, hcontexts⟩ := hover.contexts
      cases above with
      | cons callee above => exact ⟨base, callee, above, hcontexts⟩
      | nil =>
        have hlength := congrArg List.length hcontexts
        simp only [Machine.contexts, List.length_append, List.length_cons, List.length_reverse,
          List.length_nil] at hlength
        omega
    · obtain ⟨⟨base, hmodule⟩, hcalls'⟩ := (hcalls.over hc' h).imp_left Machine.Over.module
      exact ⟨base, by rw [Machine.contexts, hmodule, hcalls']⟩

/-- A function is called, and its context stands over that of the module. -/
theorem calls_see_no_locals_endless :
    ∃ c k m₁ m, Reaches 0 (start .endless (.fresh 3 (.text []) {})) c ∧ c.Calls 0 k m₁ ∧
      c.During 0 k m₁ m ∧ (∃ e, (start .endless (.fresh 3 (.text []) {})).Carries 0 e m ∧
        Heap.chain e.heap e.module.current = e.module.scopes) ∧
      ∃ base callee above,
        m.contexts = ⟨m₁.module.name, m₁.module.inner,
          base⟩ :: m₁.calls.reverse ++ callee :: above := by
  have hp : Node.endless.IsProgram := Program.isProgram_ofTokens Program.ofTokens_endless
  obtain ⟨hcarries, hchains, hbelow⟩ := calls_see_no_locals hp 3 (.text []) {} 0
  obtain ⟨c, k, m₁, m, hr, hcalls, hpush⟩ :
    ∃ c k m₁ m, Reaches 0 (start .endless (.fresh 3 (.text []) {})) c ∧
      c.Calls 0 k m₁ ∧ pushContext k.name k.place m₁ = .ok () m :=
    ⟨_, _, _, _, .step (.top (show _ = [_] ++ _ :: _ from rfl) rfl rfl rfl)
      (.step (.first rfl) (.here _)),
      .mk rfl rfl, rfl⟩
  have hduring : c.During 0 k m₁ m :=
    .begins hpush (List.nil_append _).symm (List.nil_append _).symm rfl rfl
  obtain ⟨e, he⟩ := hcarries m (.behind hr (.call hcalls) hpush)
  exact ⟨c, k, m₁, m, hr, hcalls, hduring, ⟨e, he, (hchains e m he).2.1⟩,
    (hbelow c k m₁ hr hcalls).1 m hduring⟩

end AudLang
