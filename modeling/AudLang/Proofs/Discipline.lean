import AudLang.Proofs.Fitting
import AudLang.Proofs.Plain

/-!
Disciplines: what checking a program says about its runs.

A checker goes through a program once, in the order of the source; a run goes through the bodies of
functions and loops as often as they are called and repeated.  Still the two agree on every name: at
each moment of a run of an accepted program there is a state in which the checker came to the same
node, and its tables are what the scopes of the machine were declared as (`World.Ready`).

How much more is known about the values of variables depends on the programs that one looks at.  A
`Discipline` says what it means that a type describes a cell, which nodes are allowed beyond what
the checker asks, and which stops are excused; its laws are what single steps of a machine have to
satisfy.  What follows from the laws for whole runs is the subject of `AudLang.Proofs.Agreement`.
-/

namespace AudLang

open Run Moment

/-! ## Functions -/

lemma Builtin.get?_builtin (id : String) :
    Functions.builtin.get? id = (Builtin.ofName? id).map Builtin.signature := by
  have hentries : Functions.builtin.entries = Builtin.all.map fun b => (b.name, b.signature) := by
    decide
  unfold Functions.get? Builtin.ofName?
  rw [hentries]
  generalize Builtin.all = bs
  induction bs with
  | nil => rfl
  | cons b bs ih =>
    rw [List.map_cons, List.find?_cons]
    by_cases h : b.name = id
    · simp [h]
    · have hne : (id == b.name) = false := by simpa using fun h' => h h'.symm
      simpa [List.lookup_cons, hne, h] using ih

lemma lookup_namedSignature {es : List (String × Node)} {id : String} {f : Signature}
    (hes : ∀ x n, (x, n) ∈ es → ∃ s returns ps body, n = .define s returns x ps body)
    (h : ((es.map Prod.snd).filterMap Node.namedSignature?).lookup id = some f) :
    ∃ n, es.lookup id = some n ∧ (id, n) ∈ es ∧ n.namedSignature? = some (id, f) := by
  induction es with
  | nil => cases h
  | cons e es ih =>
    obtain ⟨x, n⟩ := e
    obtain ⟨s, returns, ps, body, rfl⟩ := hes x n List.mem_cons_self
    simp only [List.map_cons, List.filterMap_cons, Node.namedSignature?] at h
    by_cases hx : id = x
    · subst hx
      simp only [List.lookup_cons, beq_self_eq_true] at h
      cases h
      exact ⟨.define s returns id ps body, by simp, List.mem_cons_self, rfl⟩
    · have hne : (id == x) = false := by simpa using hx
      simp only [List.lookup_cons, hne] at h
      obtain ⟨n, hlookup, hmem, hentry⟩ := ih (fun x n hn => hes x n (List.mem_cons_of_mem _ hn)) h
      exact ⟨n, by simpa [List.lookup_cons, hne] using hlookup, List.mem_cons_of_mem _ hmem, hentry⟩

/-! ## Disciplines -/

/-- The new values whose types are plain to see. -/
inductive Value.Literal : Value → Ty → Prop
  | int (n : Int) : Literal (.int n) .int
  | float (x : Float) : Literal (.float x) .float
  | text (s : String) : Literal (.text s) .string
  | bool (b : Bool) : Literal (.bool b) .bool
  | void : Literal .null .void

/-- What a class of programs keeps to, and why the single steps of a machine keep to it. -/
structure Discipline (fuel : Nat) where
  /-- The type describes the cell. -/
  describes : Store → Ref → Ty → Prop
  /-- The second store can come after the first. -/
  evolves : Store → Store → Prop
  /-- The node may stand where the checker comes to it. -/
  allows : Checker → Node → Prop
  /-- The run may stop in this way at the moment. -/
  excuses : Moment → Stop → Prop
  evolves_trans : ∀ {s s' s''}, evolves s s' → evolves s' s'' → evolves s s''
  evolves_of_keeps : ∀ {s s'}, s.Keeps s' → evolves s s'
  evolves_put : ∀ {s r q t}, describes s q t → (s.get r).fits (s.get q) = true →
    evolves s (s.put r (s.get q))
  describes_of_evolves : ∀ {s s' r t}, evolves s s' → describes s r t → describes s' r t
  describes_of_accepts : ∀ {s r t u}, t.accepts u = .ok true → describes s r u → describes s r t
  describes_literal : ∀ {s : Store} {v t}, Value.Literal v t → describes (s.push v) s.next t
  describes_null : ∀ {s : Store} {k p}, allows k (.null p) → describes (s.push .null) s.next .null
  describes_list : ∀ {s : Store} {rs type t}, (∀ r ∈ rs, describes s r t) →
    describes (s.push (.list type rs)) s.next (.list t)
  allows_below : ∀ {k k' n n'}, allows k n → (k', n') ∈ k.below n → allows k' n'
  operate : ∀ {k c s op a b l r t q p} {m : Machine}, c.node = .binary s op a b →
    op ≠ .and → op ≠ .or → allows k c.node → k.Infers a l → k.Infers b r →
    Check.operation op l r = .ok (some t) →
    describes m.store q l → describes m.store p r →
    Ends (Run.operate op q p s.start m) (fun _ m' => describes m'.store m'.last t)
      (fun e _ => excuses c e)
  negate : ∀ {c t u r p} {m : Machine},
    (t.hasBase .int = true ∧ u = .int ∨ t.hasBase .float = true ∧ u = .float) →
    describes m.store r t →
    Ends (Run.negate r p m) (fun _ m' => describes m'.store m'.last u) (fun e _ => excuses c e)
  member : ∀ {c t u f r p p'} {m : Machine}, t.property? f = some u → describes m.store r t →
    Ends ((do requireObject r f p; getAttribute r f p') m) (fun q m' => describes m'.store q u)
      (fun e _ => excuses c e)
  excuses_readOnly : ∀ {s c t u f r p type}, t.property? f = some u → describes s r t →
    excuses c (.failed (.readOnly f type) (some p))
  method : ∀ {k c s p o f args t g rs r m₁ m₂}, c.node = .call s (.member p o f) args →
    allows k c.node → valuesAt fuel c.depth args c.machine = .ok rs m₁ →
    valueOf (visitAt fuel c.depth o) m₁ = .ok r m₂ → t.method? f = some g →
    describes m₂.store r t → List.Forall₂ (describes m₂.store) rs g.parameters →
    Ends ((do requireObject r f o.start; callMethod r f rs s.start) m₂)
      (fun q m' => describes m'.store q g.returns) (fun e _ => excuses c e)
  construct : ∀ {k c s id args t r} {m : Machine}, c.node = .construct s id args → allows k c.node →
    Ty.string.accepts t = .ok true → describes m.store r t →
    Ends (Run.construct id [r] s.start m)
      (fun _ m' => describes m'.store m'.last (.named id .absent)) (fun e _ => excuses c e)
  builtin : ∀ {c b rs p} {m : Machine}, List.Forall₂ (describes m.store) rs b.signature.parameters →
    Ends (callBuiltin b rs p m) (fun q m' => describes m'.store q b.signature.returns)
      (fun e _ => excuses c e)
  takeReturned : ∀ {c} {returns : Node} {type id p returned} {m : Machine}, returns.IsType →
    returns.returnTypeName = .ok type →
    (∀ r, returned = some r → describes m.store r returns.declaredType) →
    Ends (Run.takeReturned id type p returned m)
      (fun _ m' => describes m'.store m'.last returns.declaredType) (fun e _ => excuses c e)
  excuses_tooDeep : ∀ {c n p}, excuses c (.failed (.tooDeep n) (some p))
  excuses_exhausted : ∀ {d s a b Γ m m'},
    Rounds (holds (visitAt fuel d a)) (visitAt fuel d b) fuel m m' →
    excuses ⟨d, .loop s a b, Γ, m⟩ .exhausted

namespace Discipline

variable {fuel : Nat} (L : Discipline fuel)

/-- The variables of a machine are described by what they were declared as. -/
abbrev Fits (Γ : Declared) (m : Machine) : Prop := m.Fits (L.describes m.store) Γ

/-- What there is to know about the functions and the global variables of a program. -/
structure World where
  /-- The functions that the checker knows. -/
  signatures : Functions
  /-- The functions that the machine knows. -/
  defined : List (String × Node)
  /-- The global variables, once all of them are declared. -/
  globals : Table
  known : signatures = .knowing .builtin (defined.map Prod.snd)
  distinct : signatures.names.Nodup
  named : ∀ x n, (x, n) ∈ defined → ∃ s returns ps body, n = .define s returns x ps body
  /-- Each definition has been accepted, behind some of the global declarations. -/
  checked : ∀ x n, (x, n) ∈ defined → ∃ k : Checker, k.inner = [] ∧ k.functions = signatures ∧
    k.global.entries <+: globals.entries ∧ k.Admits n ∧ L.allows k n

variable {L} (W : L.World)

/-- The checker's tables are those of the machine.  Inside a call, the global declarations that the
checker knew need not be those that the run has come to by now, but both are among the first
ones. -/
structure World.Placed (k : Checker) (Γ : Declared) : Prop where
  functions : k.functions = W.signatures
  global : k.global.entries <+: W.globals.entries
  base : Γ.module.base.entries <+: W.globals.entries
  outside : Γ.calls = [] → k.inner = Γ.module.inner ∧ k.global = Γ.module.base
  inside : ∀ f fs, Γ.calls = f :: fs → k.inner = f.tables

/-- The machine has the variables and the functions that it should have. -/
structure World.Intact (depth : Nat) (Γ : Declared) (m : Machine) : Prop where
  fits : L.Fits Γ m
  functions : m.functions = W.defined
  depth : m.depthLimit.toNat ≤ depth + m.calls.length

/-- The machine is in the state in which nodes are visited. -/
structure World.Steady (depth : Nat) (Γ : Declared) (m : Machine) : Prop extends
    W.Intact depth Γ m where
  returning : m.returning = none

end Discipline

/-- The checker accepts the node where it comes to it. -/
inductive Checker.Sanctions (k : Checker) : Node → Prop
  | expression {n : Node} {t : Ty} (h : k.Infers n t) : Sanctions k n
  | statement {n : Node} (h : k.Admits n) : Sanctions k n
  | block (s : Span) {ns : List Node} (h : k.enter.AdmitsAll ns) : Sanctions k (.block s ns)

namespace Discipline

variable {fuel : Nat} {L : Discipline fuel} (W : L.World)

/-- What holds at every moment of a run, for the state in which the checker comes to the node. -/
structure World.Ready (k : Checker) (c : Moment) : Prop where
  sanctioned : k.Sanctions c.node
  allowed : L.allows k c.node
  placed : W.Placed k c.declared
  steady : W.Steady c.depth c.declared c.machine
  inside : c.declared.calls ≠ [] →
    ∃ s returns id ps body, (id, .define s returns id ps body) ∈ W.defined ∧ c.node.Within body

/-- What holds once a node has been visited. -/
structure World.Post (k : Checker) (c : Moment) (m : Machine) : Prop where
  intact : W.Intact c.depth (c.declared.after c.node) m
  evolves : L.evolves c.machine.store m.store
  value : ∀ t, k.Infers c.node t → L.describes m.store m.last t
  returned : ∀ r, m.returning = some r →
    ¬ c.node.IsExpression ∧ k.returns.isPresent = true ∧ L.describes m.store r k.returns

/-- A global variable is missing: the declaration that is known to the checker has not been
visited. -/
structure World.Late (c : Moment) (name : String) (p : Position) (m : Machine) : Prop where
  reference : c.LooksUp fuel name p m
  unbound : m.lookup? name = none
  inside : c.declared.calls ≠ []
  known : name ∈ W.globals.names
  missing : name ∉ c.declared.module.base.names

/-- Why a run stops. -/
inductive World.Cause (c : Moment) : Stop → Machine → Prop
  | late {name : String} {p : Position} {m : Machine} (h : W.Late c name p m) :
      Cause c (.failed (.undeclared name) (some p)) m
  | excused {e : Stop} {m : Machine} (h : L.excuses c e) : Cause c e m

/-- The run stops at one of the moments that come up, and there is a cause for it. -/
def World.Blame (c : Moment) (e : Stop) (m : Machine) : Prop :=
  ∃ c', Reaches fuel c c' ∧ L.Fits c'.declared m ∧ W.Cause c' e m

/-- How a moment ends. -/
def World.Sound (k : Checker) (c : Moment) : Prop :=
  Ends (c.run fuel) (fun _ m => W.Post k c m) (W.Blame c)

/-! ## Names -/

namespace World

variable {W} {k : Checker} {Γ : Declared} {m m' : Machine} {d : Nat}

/-- A name that the checker has found is visible with the same type, or it is late. -/
lemma Placed.find? (hk : W.Placed k Γ) {name : String} (h : (k.typeOf name).isPresent = true) :
    Tables.find? Γ.visible name = some (k.typeOf name) ∨
      Tables.find? Γ.visible name = none ∧ Γ.calls ≠ [] ∧ name ∈ W.globals.names ∧
        name ∉ Γ.module.base.names := by
  have hget : k.typeOf name = (Tables.find? k.scopes name).getD .absent := Scopes.get_eq _ _
  cases hfind : Tables.find? k.scopes name with
  | none => rw [hget, hfind] at h; cases h
  | some t =>
    rw [hfind] at hget
    rw [hget, Option.getD_some]
    unfold Checker.scopes at hfind
    cases hΓ : Γ.calls with
    | nil =>
      obtain ⟨hi, hg⟩ := hk.outside hΓ
      rw [hi, hg] at hfind
      exact .inl (by simpa [Declared.visible, hΓ, Frame.tables] using hfind)
    | cons f fs =>
      rw [hk.inside f fs hΓ, Tables.find?_append_single] at hfind
      simp only [Declared.visible, hΓ, Tables.find?_append_single]
      cases hf : Tables.find? f.tables name with
      | some u =>
        rw [hf] at hfind
        exact .inl hfind
      | none =>
        rw [hf, Option.none_or] at hfind
        rw [Option.none_or]
        have hglobal := Tables.lookup_of_prefix hk.global hfind
        cases hb : Γ.module.base.entries.lookup name with
        | some u =>
          -- both tables are beginnings of one and the same
          rw [Tables.lookup_of_prefix hk.base hb] at hglobal
          exact .inl hglobal
        | none =>
          refine .inr ⟨rfl, List.cons_ne_nil _ _, ?_, ?_⟩
          · exact (W.globals.mem_names_iff name).mpr (by simp [hglobal])
          · intro hmem
            simpa [hb] using (Γ.module.base.mem_names_iff name).mp hmem

lemma Placed.current (hk : W.Placed k Γ) : k.current = Γ.current.current := by
  unfold Checker.current Declared.current Frame.current
  cases hΓ : Γ.calls with
  | nil =>
    obtain ⟨hi, hg⟩ := hk.outside hΓ
    rw [hi, hg]
    rfl
  | cons f fs =>
    rw [hk.inside f fs hΓ, Frame.tables, List.headD_cons]
    cases f.inner <;> rfl

/-- The tables stay the same on both sides while the statements of a block are visited. -/
lemma Placed.block (hk : W.Placed k Γ) (ns : List Node) :
    W.Placed (k.enter.afterAll ns) (Γ.enter.afterAll ns) := by
  rw [Checker.afterAll_inner ns k.enter rfl, Declared.afterAll_enter, Declared.updateCurrent]
  cases hΓ : Γ.calls with
  | nil =>
    obtain ⟨hi, hg⟩ := hk.outside hΓ
    refine ⟨hk.functions, hk.global, hk.base, fun _ => ⟨?_, hg⟩, fun f fs h => ?_⟩
    · show _ :: k.inner = _ :: Γ.module.inner
      rw [hi]
      rfl
    · cases h
  | cons f fs =>
    refine ⟨hk.functions, hk.global, hk.base, fun h => ?_, fun g gs h => ?_⟩
    · cases h
    cases h
    show _ :: k.inner = _
    rw [hk.inside f fs hΓ]
    rfl

/-- A function that the checker knows comes with the language or has been defined and accepted. -/
lemma lookup (W : L.World) {id : String} {f : Signature} (h : W.signatures.get? id = some f) :
    (∃ b, Builtin.ofName? id = some b ∧ f = b.signature) ∨
      Builtin.ofName? id = none ∧ ∃ n, W.defined.lookup id = some n ∧ (id, n) ∈ W.defined ∧
        n.namedSignature? = some (id, f) := by
  rw [W.known, Functions.knowing, Functions.get?, List.lookup_append] at h
  change ((Functions.builtin.get? id).or _) = some f at h
  rw [Builtin.get?_builtin] at h
  cases hb : Builtin.ofName? id with
  | some b =>
    rw [hb] at h
    cases h
    exact .inl ⟨b, rfl, rfl⟩
  | none =>
    rw [hb, Option.map_none, Option.none_or] at h
    exact .inr ⟨rfl, lookup_namedSignature W.named h⟩

/-! ## Steps -/

lemma Intact.undisturbed (hm : W.Intact d Γ m) (h : m.Undisturbed m') : W.Intact d Γ m' where
  fits := by
    have hfits := hm.fits.mono fun _ _ hd =>
      L.describes_of_evolves (L.evolves_of_keeps h.store) hd
    exact ⟨by rw [h.module]; exact hfits.module, by rw [h.calls]; exact hfits.calls⟩
  functions := h.functions.trans hm.functions
  depth := by rw [h.depthLimit, h.calls]; exact hm.depth

lemma Intact.updateCurrent {Δ : Declared} {h : Context → Context} (hm : W.Intact d Γ m)
    (hfits : (m.updateCurrent h).Fits (L.describes m.store) Δ) :
    W.Intact d Δ (m.updateCurrent h) where
  fits := by
    show Machine.Fits _ _ _
    rw [Machine.updateCurrent_store]
    exact hfits
  functions := by rw [Machine.updateCurrent_functions]; exact hm.functions
  depth := by
    rw [Machine.updateCurrent_depthLimit, Machine.length_calls_updateCurrent]
    exact hm.depth

lemma Steady.undisturbed (hm : W.Steady d Γ m) (h : m.Undisturbed m') : W.Steady d Γ m' :=
  ⟨hm.toIntact.undisturbed h, h.returning.trans hm.returning⟩

lemma Steady.enter (hm : W.Steady d Γ m) :
    W.Steady d Γ.enter (m.updateCurrent fun c => { c with inner := {} :: c.inner }) := by
  refine ⟨hm.toIntact.updateCurrent hm.fits.enter, ?_⟩
  rw [Machine.updateCurrent_returning]
  exact hm.returning

variable (W) in
/-- The machine is still in the state in which a node was to be visited. -/
structure Kept (c : Moment) (m : Machine) : Prop where
  steady : W.Steady c.depth c.declared m
  evolves : L.evolves c.machine.store m.store

variable {c c' : Moment}

lemma Kept.undisturbed (hm : W.Kept c m) (h : m.Undisturbed m') : W.Kept c m' :=
  ⟨hm.steady.undisturbed h, L.evolves_trans hm.evolves (L.evolves_of_keeps h.store)⟩

lemma Blame.enters {e : Stop} (hc : Enters fuel c c') (h : W.Blame c' e m) : W.Blame c e m := by
  obtain ⟨c'', hreach, hcause⟩ := h
  exact ⟨c'', .step hc hreach, hcause⟩

/-- A step that concerns no name keeps the machine, and where it stops, the moment is to blame. -/
lemma Kept.quiet {α : Type} {x : Run α} {Q : α → Machine → Prop} (hm : W.Kept c m)
    (hq : Quiet x) (hx : Ends (x m) Q (fun e _ => L.excuses c e)) :
    Ends (x m) (fun a m' => (W.Kept c m' ∧ m.Undisturbed m') ∧ Q a m') (W.Blame c) := by
  have hquiet := hq.ends m
  refine hx.weaken (fun a m' hr ha => ?_) (fun e m' hr he => ?_)
  · have hu := hquiet.ok hr
    exact ⟨⟨hm.undisturbed hu, hu⟩, ha⟩
  · have hu := (hquiet.error hr).1
    exact ⟨c, .here c, (hm.undisturbed hu).steady.fits, .excused he⟩

end World

end Discipline

end AudLang
