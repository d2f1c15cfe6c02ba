import AudLang.Proofs.Nesting

/-!
The course of a run.

A moment leads to other moments, and in between it does something by itself.  Most of that is quiet.
What is not is one of a few deeds: a variable is declared or assigned to, a scope or a call is
opened or closed, a return is noted or its note wiped out, a function is made known.
-/

namespace AudLang

open Run

/-! ## Deeds -/

/-- What a run does to names, calls, returns and functions, one thing at a time. -/
inductive Deed where
  | declare (name : String) (r : Ref) (p : Position)
  | assign (name : String) (r : Ref) (p : Position)
  | enter
  | exit
  /-- Opens the context of a call. -/
  | call (name : String) (p : Position)
  /-- Closes the context of a call. -/
  | leave
  /-- Notes a return, or wipes the note out. -/
  | note (returned : Option Ref)
  | register (name : String) (n : Node)

namespace Deed

/-- Does it. -/
def run : Deed → Run Unit
  | declare name r p => Run.declare name r p
  | assign name r p => Run.assign name r p
  | enter => Run.enter
  | exit => Run.exit
  | call name p => pushContext name p
  | leave => popContext
  | note returned => modify fun m => { m with returning := returned }
  | register name n => Run.register name n

/-- What a deed makes of a machine, if it does not fail. -/
inductive Makes : Deed → Machine → Machine → Prop
  | declare {name : String} {m : Machine} (r : Ref) (p : Position)
      (h : m.current.current.has name = false) :
      Makes (.declare name r p) m (m.updateCurrent (·.add name r))
  | put {name q r m : _} (p : Position) (h : m.lookup? name = some q)
      (hf : (m.store.get q).fits (m.store.get r) = true) :
      Makes (.assign name r p) m { m with store := m.store.put q (m.store.get r) }
  | rebind {name q r m : _} (p : Position) (h : m.lookup? name = some q)
      (hf : (m.store.get q).fits (m.store.get r) = false) :
        Makes (.assign name r p) m (m.rebind name r)
  | enter (m : Machine) : Makes .enter m (m.updateCurrent fun c =>
      { c with inner := {} :: c.inner })
  | exit {s : Scope} {outer : List Scope} {m : Machine} (h : m.current.inner = s :: outer) :
      Makes .exit m (m.updateCurrent fun c => { c with inner := outer })
  | call {m : Machine} (name : String) (p : Position) (h : m.calls.length + 1 < m.depthLimit) :
      Makes (.call name p) m { m with calls := { name } :: m.calls }
  | leave {c : Context} {outer : List Context} {m : Machine} (h : m.calls = c :: outer) :
      Makes .leave m { m with calls := outer }
  | note (returned : Option Ref) (m : Machine) :
      Makes (.note returned) m { m with returning := returned }
  | register (name : String) (n : Node) (m : Machine) :
      Makes (.register name n) m { m with functions := m.functions ++ [(name, n)] }

/-- Why a deed fails: the run goes too far only at a call for which there are too many contexts. -/
def Fails (k : Deed) (m : Machine) (e : Stop) : Prop :=
  e.isOverrun = true → ∃ name p, k = .call name p ∧ e = .failed (.tooDeep m.depthLimit) (some p) ∧
    m.depthLimit ≤ m.calls.length + 1

/-- A deed that fails leaves the machine as it was. -/
lemma ends (k : Deed) (m : Machine) :
    Ends (k.run m) (fun _ m' => k.Makes m m') (fun e m' => m' = m ∧ k.Fails m e) := by
  cases k with
  | declare name r p =>
    simp only [run, Run.declare, bind_run, get_run]
    split
    · exact ⟨rfl, fun h => by cases h⟩
    · exact .declare r p (Bool.eq_false_iff.2 ‹_›)
  | assign name r p =>
    simp only [run, Run.assign, cellOf, value, bind_run, get_run, pure_run]
    cases hl : m.lookup? name with
    | none => exact ⟨rfl, fun h => by cases h⟩
    | some target =>
      simp only [pure_run]
      split
      · exact .put p hl ‹_›
      · exact .rebind p hl (Bool.eq_false_iff.2 ‹_›)
  | enter => exact .enter m
  | exit =>
    simp only [run, Run.exit, bind_run, get_run]
    cases hi : m.current.inner with
    | nil => exact ⟨rfl, fun h => by cases h⟩
    | cons s outer => exact .exit hi
  | call name p =>
    simp only [run, pushContext, bind_run, get_run]
    split
    · exact ⟨rfl, fun _ => ⟨name, p, rfl, rfl, ‹_›⟩⟩
    · exact .call name p (by omega)
  | leave =>
    simp only [run, popContext, bind_run, get_run]
    cases hc : m.calls with
    | nil => exact ⟨rfl, fun h => by cases h⟩
    | cons c outer => exact .leave hc
  | note returned => exact .note returned m
  | register name n =>
    simp only [run, Run.register, bind_run, get_run]
    split
    · split
      · exact ⟨rfl, fun h => by cases h⟩
      · exact ⟨rfl, fun h => by cases h⟩
    · exact .register name n m

end Deed

namespace Run

variable {m m₁ : Machine}

lemma registerAll_append {ns ms : List Node} : ∀ {m : Machine}, registerAll ns m = .ok () m₁ →
    registerAll (ns ++ ms) m = registerAll ms m₁ := by
  induction ns with
  | nil => intro m h; cases h; rfl
  | cons n ns ih =>
    intro m h
    rw [registerAll] at h
    obtain ⟨name, m₂, hname, h⟩ := ok_of_bind h
    obtain ⟨u, m₃, hregister, h⟩ := ok_of_bind h
    rw [List.cons_append, registerAll, bind_of_ok hname, bind_of_ok hregister]
    exact ih h

lemma declareParameters_append {ps qs : List Node} {rs rs' : List Ref}
    (hlen : ps.length = rs.length) : ∀ {m : Machine}, declareParameters ps rs m = .ok () m₁ →
    declareParameters (ps ++ qs) (rs ++ rs') m = declareParameters qs rs' m₁ := by
  fun_induction declareParameters ps rs with
  | case1 s t x ps r rs ih =>
    intro m h
    obtain ⟨u, m₂, hdeclare, h⟩ := ok_of_bind h
    rw [List.cons_append, List.cons_append, declareParameters, bind_of_ok hdeclare]
    exact ih (by simpa using hlen) h
  | case2 => intro m h; cases h
  | case3 => intro m h; cases h
  | case4 ps rs h₁ h₂ h₃ =>
    intro m h
    cases h
    cases ps with
    | nil =>
      cases rs with
      | nil => rfl
      | cons r rs => cases hlen
    | cons p ps =>
      cases rs with
      | nil => cases hlen
      | cons r rs => exact absurd rfl (h₃ p ps r rs rfl)

end Run

lemma Machine.Clear.register {m m' : Machine} {name : String} {n : Node} (hm : m.Clear)
    (hn : n.isAction = true) (h : Run.register name n m = .ok () m') : m'.Clear := by
  simp only [Run.register, bind_run, get_run] at h
  split at h
  · split at h <;> cases h
  · cases h
    refine ⟨hm.returning, fun x k hk => ?_⟩
    rcases List.mem_append.1 hk with hk | hk
    · exact hm.functions x k hk
    · cases List.mem_singleton.1 hk
      exact hn

/-- A call of a function that a program has defined. -/
structure UserCall where
  /-- The place of the definition. -/
  span : Span
  returns : Node
  name : String
  parameters : List Node
  body : Node
  args : List Ref
  /-- The place of the call. -/
  place : Position

namespace Moment

variable {fuel d : Nat} {c c' c'' : Moment} {k : UserCall} {m m₁ m₂ m₃ m' : Machine} {e : Stop}

/-- At the moment a function of the program is called; its arguments have been computed, on this
machine. -/
inductive Calls (fuel : Nat) : Moment → UserCall → Machine → Prop
  | mk {d s t u id id' returns b args ps Γ m m₁ rs : _} (ha : valuesAt fuel d args m = .ok rs m₁)
      (hf : callee id t.start m₁ = .ok (.defined (.define u returns id' ps b)) m₁) :
      Calls fuel ⟨d, .call s (.name t id) args, Γ, m⟩ ⟨u, returns, id', ps, b, rs, s.start⟩ m₁

/-- At the moment the body of a function that is called is about to be visited, on this machine. -/
structure Starts (fuel : Nat) (c : Moment) (k : UserCall) (m₁ m : Machine) : Prop where
  calls : c.Calls fuel k m₁
  begins : ∃ m₂, pushContext k.name k.place m₁ = .ok () m₂ ∧
    declareParameters k.parameters k.args m₂ = .ok () m

/-- At the moment a call takes the value that its body has returned. -/
def takes (k : UserCall) (m : Machine) : EStateM.Result Stop Machine Unit :=
  (ask k.returns.returnTypeName >>= fun type => takeReturned k.name type k.span.start m.returning)
    { m with returning := none }

lemma quiet_takes (k : UserCall) (returned : Option Ref) :
    Quiet (ask k.returns.returnTypeName >>= fun type =>
      takeReturned k.name type k.span.start returned) :=
  (Quiet.ask k.returns.balanced_returnTypeName).bind fun _ => plain_takeReturned.quiet

/-- The moment at which the body of the call is visited. -/
def inside (c : Moment) (k : UserCall) (m : Machine) : Moment :=
  ⟨c.depth - 1, k.body, c.declared.call k.parameters, m⟩

/-- At the moment the deed is done, on this machine. -/
inductive Does (fuel : Nat) : Moment → Deed → Machine → Prop
  | declare {d s t e id Γ m m₁ : _} (hv : visitAt fuel d e m = .ok () m₁) :
      Does fuel ⟨d, .declare s t id e, Γ, m⟩ (.declare id m₁.last s.start) m₁
  | assign {d s t e id Γ m m₁ : _} (hv : visitAt fuel d e m = .ok () m₁) :
      Does fuel ⟨d, .assign t (.name s id) e, Γ, m⟩ (.assign id m₁.last s.start) m₁
  | enter (d : Nat) (s : Span) (ns : List Node) (Γ : Declared) (m : Machine) :
      Does fuel ⟨d, .block s ns, Γ, m⟩ .enter m
  | exit {d s ns Γ m m₁ m₂ : _} (he : Run.enter m = .ok () m₁)
      (hb : visitBlock (bodyAt fuel d) fuel ns m₁ = .ok () m₂) :
      Does fuel ⟨d, .block s ns, Γ, m⟩ .exit m₂
  | call {c : Moment} {k : UserCall} {m : Machine} (h : c.Calls fuel k m) :
      Does fuel c (.call k.name k.place) m
  | parameter {c k s type x r before after rs rs' m m₁ m₂ : _} (h : c.Calls fuel k m)
      (hc : pushContext k.name k.place m = .ok () m₁)
      (hps : k.parameters = before ++ .parameter s type (.plain x) :: after)
        (hrs : k.args = rs ++ r :: rs')
      (hlen : before.length = rs.length) (hp : declareParameters before rs m₁ = .ok () m₂) :
      Does fuel c (.declare x r s.start) m₂
  | wipe {c k m m₁ m₂ : _} (h : c.Starts fuel k m m₁)
      (hb : bodyAt fuel c.depth k.body m₁ = .ok () m₂) : Does fuel c (.note none) m₂
  | leave {c k m m₁ m₂ m₃ : _} (h : c.Starts fuel k m m₁)
      (hb : bodyAt fuel c.depth k.body m₁ = .ok () m₂)
      (ht : takes k m₂ = .ok () m₃) : Does fuel c .leave m₃
  | note {d s e Γ m m₁ : _} (hp : e.isPresent = true) (hv : visitAt fuel d e m = .ok () m₁) :
      Does fuel ⟨d, .giveBack s e, Γ, m⟩ (.note (some m₁.last)) m₁
  | noteNothing {d s e Γ r m m₁ : _} (hp : e.isPresent = false) (hv : nothing m = .ok r m₁) :
      Does fuel ⟨d, .giveBack s e, Γ, m⟩ (.note (some r)) m₁
  | register {d s is ns before after n name Γ m m₁ : _}
      (hds : (Node.program s is ns).definitions = before ++ n :: after)
      (hn : n.definedName = .ok name) (hb : registerAll before m = .ok () m₁) :
      Does fuel ⟨d, .program s is ns, Γ, m⟩ (.register name n) m₁

/-! ## One moment -/

/-- What becomes of the machine in the course of a moment. -/
inductive Course (fuel : Nat) (c : Moment) : Machine → Prop
  | start : Course fuel c c.machine
  | quiet {m m' : Machine} (h : Course fuel c m) (hq : m.Undisturbed m') : Course fuel c m'
  | deed {k : Deed} {m m' : Machine} (h : Course fuel c m) (hd : c.Does fuel k m)
      (hk : k.run m = .ok () m') : Course fuel c m'
  | part {c' : Moment} {m' : Machine} (he : Enters fuel c c') (h : Course fuel c c'.machine)
      (hv : c'.run fuel = .ok () m') : Course fuel c m'

/-- In the course of the moment the machine comes to this, with no return under way. -/
structure Amid (fuel : Nat) (c : Moment) (m : Machine) : Prop where
  course : c.Course fuel m
  clear : m.Clear

/-- The moment stops by itself, and not within a moment that it leads to. -/
inductive Breaks (fuel : Nat) (c : Moment) : Stop → Machine → Prop
  | deed {k e m m' : _} (hm : c.Amid fuel m) (hd : c.Does fuel k m) (hk : k.run m = .error e m') :
      Breaks fuel c e m'
  /-- Any other step fails. -/
  | own {e : Stop} {m m' : Machine} (hm : c.Amid fuel m) (hq : m.Undisturbed m')
      (ho : e.isOverrun = false) (hb : e ≠ .fault .unbalanced) : Breaks fuel c e m'
  /-- A statement of a program returns. -/
  | stray {c' : Moment} {p : Position} {m' : Machine} (hm : c.Course fuel m')
      (hn : c.node.isWhole = true)
      (he : Enters fuel c c') (hv : c'.run fuel = .ok () m') (hr : m'.returning ≠ none) :
      Breaks fuel c (.failed .strayReturn (some p)) m'
  /-- A loop has no rounds left. -/
  | rounds {m' : Machine} (hm : c.Amid fuel m') (hn : ∃ s a b, c.node = .loop s a b) :
      Breaks fuel c .exhausted m'
  /-- A call is nested so deep that its body cannot be visited. -/
  | depth {k : UserCall} {m m' : Machine} (hm : c.Amid fuel m') (hs : c.Starts fuel k m m')
      (hd : c.depth = 0) : Breaks fuel c .exhausted m'

/-- The moment stops: within a moment that it leads to, or by itself. -/
def Halts (fuel : Nat) (c : Moment) (e : Stop) (m' : Machine) : Prop :=
  (∃ c', Enters fuel c c' ∧ c'.run fuel = .error e m') ∨ c.Breaks fuel e m'

namespace Amid

section

variable (hm : c.Amid fuel m)

include hm

lemma undisturbed (hq : m.Undisturbed m') : c.Amid fuel m' :=
  ⟨.quiet hm.course hq, hm.clear.of_calm hq.calm⟩

/-- A quiet step. -/
lemma quiet {α : Type} {x : Run α} (hx : Quiet x) :
    Ends (x m) (fun _ m' => c.Amid fuel m') (Halts fuel c) :=
  (hx.ends m).weaken (fun _ _ _ h => hm.undisturbed h)
    fun _ _ _ h => .inr (.own hm h.1 h.2.bounded h.2.balanced)

lemma finish {α : Type} {x : Run α} (hx : Quiet x) :
    Ends (x m) (fun _ m' => c.Course fuel m') (Halts fuel c) :=
  (hm.quiet hx).weaken (fun _ _ _ h => h.course) fun _ _ _ h => h

lemma deed {k : Deed} (hd : c.Does fuel k m) (hk : KeepsCalm k.run) :
    Ends (k.run m) (fun _ m' => c.Amid fuel m') (Halts fuel c) :=
  (hk.ends m).weaken (fun _ _ hr h => ⟨.deed hm.course hd hr, hm.clear.of_calm h⟩)
    fun _ _ hr _ => .inr (.deed hm hd hr)

lemma cellOf (name : String) (p : Position) :
    Ends (cellOf name p m) (fun _ m' => c.Amid fuel m') (Halts fuel c) := by
  simp only [Run.cellOf, bind_run, get_run]
  cases m.lookup? name with
  | some r => exact hm
  | none => exact .inr (.own hm (.refl m) rfl (by simp))

lemma callee (name : String) (p : Position) :
    Ends (callee name p m) (fun _ m' => c.Amid fuel m') (Halts fuel c) := by
  unfold Run.callee
  cases Builtin.ofName? name with
  | some b => exact hm
  | none =>
    simp only [bind_run, get_run]
    cases m.functions.lookup name with
    | some n => exact hm
    | none => exact .inr (.own hm (.refl m) rfl (by simp))

lemma part {n : Node} (he : Enters fuel c ⟨c.depth, n, c.declared, m⟩)
    (hn : n.isTerm = true) :
    Ends (visitAt fuel c.depth n m) (fun _ m' => c.Amid fuel m') (Halts fuel c) := by
  cases hv : visitAt fuel c.depth n m with
  | ok u m' => exact ⟨.part he hm.course hv, (lasting_clear fuel).term hn hm.clear hv⟩
  | error e m' => exact .inl ⟨_, he, hv⟩

lemma valueOf {n : Node} (he : Enters fuel c ⟨c.depth, n, c.declared, m⟩)
    (hn : n.isTerm = true) :
    Ends (Run.valueOf (visitAt fuel c.depth n) m)
      (fun r m' => c.Amid fuel m' ∧ visitAt fuel c.depth n m = .ok () m' ∧ r = m'.last)
        (Halts fuel c) :=
  Ends.bind (hm.part he hn) fun _ _ hv h => ⟨h, hv, rfl⟩

lemma holds {n : Node} (he : Enters fuel c ⟨c.depth, n, c.declared, m⟩)
    (hn : n.isTerm = true) :
    Ends (Run.holds (visitAt fuel c.depth n) m)
      (fun t m' => c.Amid fuel m' ∧ visitAt fuel c.depth n m = .ok () m' ∧
        t = (m'.store.get m'.last).isTrue)
      (Halts fuel c) := by
  have hpart := hm.part he hn
  cases hv : visitAt fuel c.depth n m with
  | ok u m₁ =>
    rw [hv] at hpart
    rw [holds_of_ok hv]
    exact ⟨hpart, rfl, rfl⟩
  | error e m₁ =>
    rw [hv] at hpart
    rw [holds_of_error hv]
    exact hpart

end

/-- The values of some parts, behind some that have been visited. -/
lemma values (hterms : ∀ a ∈ c.node.items, a.isTerm = true) {part : List Node} (after : List Node) :
    ∀ (before : List Node) {rs : List Ref} {m : Machine}, c.node.items = before ++ part ++ after →
    valuesAt fuel c.depth before c.machine = .ok rs m → c.Amid fuel m →
    Ends (valuesAt fuel c.depth part m) (fun _ m' => c.Amid fuel m') (Halts fuel c) := by
  induction part with
  | nil => intro before rs m _ _ hm; exact hm
  | cons a part ih =>
    intro before rs m hitems hbefore hm
    have ha : a.isTerm = true := hterms a (by rw [hitems]; simp)
    have hitem : c.node.items = before ++ a :: (part ++ after) := by rw [hitems]; simp
    refine Ends.bind (hm.valueOf (.item hitem hbefore) ha) fun r m₁ hr h₁ => ?_
    have hbefore₁ : valuesAt fuel c.depth (before ++ [a]) c.machine = .ok (rs ++ [r]) m₁ := by
      rw [valuesAt, values_append hbefore, Run.values]
      simp only [bind_run] at hr ⊢
      rw [hr]
      rfl
    exact Ends.bind (ih (before ++ [a]) (by rw [hitems]; simp) hbefore₁ h₁.1) fun _ _ _ h => h

/-- The statements of a part of a block, behind some that have been visited. -/
lemma visitBlock {s : Span} {ns : List Node} {Γ : Declared} {m₀ : Machine}
    (hns : ∀ n ∈ ns, n.isAction = true)
    (henter : enter m = .ok () m₀) {part : List Node} (after : List Node) :
    ∀ (before : List Node) {m₁ : Machine},
    ns = before ++ part ++ after → visitBlock (bodyAt fuel d) fuel before m₀ = .ok () m₁ →
    Amid fuel ⟨d, .block s ns, Γ, m⟩ m₁ →
    Ends (visitBlock (bodyAt fuel d) fuel part m₁)
      (fun _ m' => Course fuel ⟨d, .block s ns, Γ, m⟩ m' ∧ (m'.returning = none → m'.Clear))
      (Halts fuel ⟨d, .block s ns, Γ, m⟩) := by
  -- the statements before have answered and none returns, which is what leads on to the next one
  induction part with
  | nil => intro before m₁ _ _ hm₁; exact ⟨hm₁.course, fun _ => hm₁.clear⟩
  | cons n part ih =>
    intro before m₁ heq hbefore hm₁
    have hsplit : ns = before ++ n :: (part ++ after) := by rw [heq]; simp
    have henters : Enters fuel ⟨d, .block s ns, Γ, m⟩ ⟨d, n, Γ.enter.afterAll before, m₁⟩ :=
      .statement hsplit henter hbefore hm₁.clear.returning
    rw [Run.visitBlock, bind_run]
    cases hv : visit (bodyAt fuel d) fuel n m₁ with
    | error e m₂ => exact .inl ⟨_, henters, hv⟩
    | ok u m₂ =>
      have hcourse : Course fuel ⟨d, .block s ns, Γ, m⟩ m₂ := .part henters hm₁.course hv
      simp only [bind_run, get_run]
      cases hr : m₂.returning with
      | some r => exact ⟨hcourse, fun h => by rw [hr] at h; cases h⟩
      | none =>
        have hclear : m₂.Clear :=
          (lasting_clear fuel).action (hns n (by rw [heq]; simp)) hm₁.clear hv hr
        refine ih (before ++ [n]) (by rw [heq]; simp) ?_ ⟨hcourse, hclear⟩
        rw [visitBlock_append hbefore hm₁.clear.returning, Run.visitBlock, bind_of_ok hv]
        simp only [bind_run, get_run, hr]
        rfl

lemma rounds {i : Nat} {s : Span} {a b : Node} {Γ : Declared} (ha : a.isTerm = true)
    (hb : b.isAction = true)
    (hm : m.Clear) (hi : i ≤ fuel)
    (hr : Rounds (Run.holds (visitAt fuel d a)) (visitAt fuel d b) i m m') :
    Amid fuel ⟨d, .loop s a b, Γ, m⟩ m' := by
  induction hr with
  | none m => exact ⟨.start, hm⟩
  | @more i m m₁ m₂ m₃ hr hc hs hreturn ih =>
    have hm₁ : Amid fuel ⟨d, .loop s a b, Γ, m⟩ m₁ := ih hm (by omega)
    obtain ⟨hm₂, -⟩ := (hm₁.holds (.condition (by omega) hr) ha).ok hc
    have henters : Enters fuel ⟨d, .loop s a b, Γ, m⟩ ⟨d, b, Γ, m₂⟩ := .round (by omega) hr hc
    exact ⟨.part henters hm₂.course hs, (lasting_clear fuel).action hb hm₂.clear hs hreturn⟩

/-- The definitions of a part of a program, behind some that are known. -/
lemma registerAll {s : Span} {is : List Nat} {ns : List Node} {Γ : Declared}
    (hds : ∀ n ∈ (Node.program s is ns).definitions, n.isAction = true) {part : List Node}
    (after : List Node) :
    ∀ (before : List Node) {m₁ : Machine},
    (Node.program s is ns).definitions = before ++ part ++ after →
    registerAll before m = .ok () m₁ → Amid fuel ⟨d, .program s is ns, Γ, m⟩ m₁ →
    Ends (registerAll part m₁) (fun _ m' => Amid fuel ⟨d, .program s is ns, Γ, m⟩ m')
      (Halts fuel ⟨d, .program s is ns, Γ, m⟩) := by
  induction part with
  | nil => intro before m₁ _ _ hm₁; exact hm₁
  | cons n part ih =>
    intro before m₁ heq hbefore hm₁
    have hn : n.isAction = true := hds n (by rw [heq]; simp)
    have hsplit : (Node.program s is ns).definitions
      = before ++ n :: (part ++ after) := by rw [heq]; simp
    rw [Run.registerAll]
    cases hname : n.definedName with
    | error f =>
      refine .inr (.own hm₁ (.refl m₁) rfl fun h => ?_)
      have hbalanced := n.balanced_definedName
      rw [hname] at hbalanced
      exact hbalanced (Stop.fault.inj h)
    | ok name =>
      show Ends ((register name n >>= fun _ => Run.registerAll part) m₁) _ _
      have hdoes : Does fuel ⟨d, .program s is ns, Γ, m⟩ (.register name n) m₁ :=
        .register hsplit hname hbefore
      rw [bind_run]
      cases hk : register name n m₁ with
      | error e m₂ => exact .inr (.deed hm₁ hdoes hk)
      | ok u m₂ =>
        have hm₂ : Amid fuel ⟨d, .program s is ns, Γ, m⟩ m₂ :=
          ⟨.deed hm₁.course hdoes hk, hm₁.clear.register hn hk⟩
        refine ih (before ++ [n]) (by rw [heq]; simp) ?_ hm₂
        rw [registerAll_append hbefore, Run.registerAll, hname]
        exact bind_of_ok hk

/-- The statements of a part of a program, behind some that have been visited. -/
lemma visitTop {s : Span} {is : List Nat} {ns : List Node} {Γ : Declared}
    (hns : ∀ n ∈ ns, n.isAction = true)
    {m₀ : Machine} (hregister : Run.registerAll (Node.program s is ns).definitions m = .ok () m₀)
    {part : List Node} (after : List Node) :
    ∀ (before : List Node) {m₁ : Machine}, ns = before ++ part ++ after →
    visitTop (bodyAt fuel d) fuel before m₀ = .ok () m₁ → Amid fuel ⟨d, .program s is ns, Γ, m⟩ m₁ →
    Ends (visitTop (bodyAt fuel d) fuel part m₁)
      (fun _ m' => Amid fuel ⟨d, .program s is ns, Γ, m⟩ m')
      (Halts fuel ⟨d, .program s is ns, Γ, m⟩) := by
  induction part with
  | nil => intro before m₁ _ _ hm₁; exact hm₁
  | cons n part ih =>
    intro before m₁ heq hbefore hm₁
    have hsplit : ns = before ++ n :: (part ++ after) := by rw [heq]; simp
    have heq' : ns = (before ++ [n]) ++ part ++ after := by rw [heq]; simp
    cases hn : n.isDefinition with
    | true =>
      -- definitions are known already and are passed over
      rw [visitTop_definition hn]
      exact ih (before ++ [n]) heq' (by rw [visitTop_append hbefore, visitTop_definition hn]; rfl)
        hm₁
    | false =>
      have henters : Enters fuel ⟨d, .program s is ns, Γ, m⟩ ⟨d, n, Γ.afterAll before, m₁⟩ :=
        .top hsplit hn hregister hbefore
      rw [visitTop_other hn]
      cases hv : visit (bodyAt fuel d) fuel n m₁ with
      | error e m' => exact .inl ⟨_, henters, hv⟩
      | ok u m₂ =>
        have hcourse : Course fuel ⟨d, .program s is ns, Γ, m⟩ m₂ := .part henters hm₁.course hv
        cases hr : m₂.returning with
        | some r =>
          -- there is nothing to return from, which stops the run with the return under way
          simp only [hr, Option.isSome_some, if_true]
          exact .inr (.stray hcourse (Node.allActions_iff.2 hns) henters hv (by simp [hr]))
        | none =>
          simp only [hr, Option.isSome_none]
          have haction : n.isAction = true := hns n (by rw [heq]; simp)
          refine ih (before ++ [n]) heq' ?_
            ⟨hcourse, (lasting_clear fuel).action haction hm₁.clear hv hr⟩
          rw [visitTop_append hbefore, visitTop_other hn, hv]
          simp only [hr, Option.isSome_none]
          rfl

/-- Behind the definitions of a program and its first statements. -/
lemma behind {s : Span} {is : List Nat} {ns before after : List Node} {n : Node} {Γ : Declared}
    {m₀ : Machine}
    (hm : Amid fuel ⟨d, .program s is ns, Γ, m⟩ m) (hwhole : (Node.program s is ns).isWhole = true)
    (hregister : Run.registerAll (Node.program s is ns).definitions m = .ok () m₀)
    (hns : ns = before ++ n :: after)
    (hb : Run.visitTop (bodyAt fuel d) fuel before m₀ = .ok () m₁) :
    Amid fuel ⟨d, .program s is ns, Γ, m⟩ m₁ := by
  have hm₀ := (registerAll (fun k hk => Node.isAction_of_mem_definitions hwhole hk) [] []
    (by simp) rfl hm).ok
    hregister
  exact (visitTop (Node.allActions_iff.1 hwhole) hregister (n :: after) [] (by simp [hns]) rfl
    hm₀).ok hb

end Amid

/-! ### Calls -/

lemma Calls.isAction (h : c.Calls fuel k m) (hm : m.Clear) : k.body.isAction = true := by
  cases h with
  | mk ha hf =>
    obtain ⟨-, hmem⟩ := mem_functions_of_callee hf
    have hdefine := hm.functions _ _ hmem
    simpa only [Node.isAction] using hdefine

/-- The body of a call is visited with a layer for the call in front. -/
lemma Starts.layers (h : c.Starts fuel k m m₁) : ∃ l, m₁.layers = l :: m.layers := by
  obtain ⟨m₂, hpush, hparameters⟩ := h.begins
  obtain ⟨xs, hgrown⟩ := (declareParameters_ends k.parameters k.args m₂).ok hparameters
  exact ⟨_, hgrown.cons ((pushContext_ends k.name k.place m).ok hpush).1⟩

/-- The body of a call is a moment of its own, unless calls are nested too deep to visit it. -/
lemma Starts.enters (h : c.Starts fuel k m m₁) (hd : 0 < c.depth) :
    Enters fuel c (c.inside k m₁) := by
  obtain ⟨hcalls, m₂, hpush, hparameters⟩ := h
  cases hcalls with
  | @mk d =>
    cases d with
    | zero => cases hd
    | succ d => exact .body ‹_› ‹_› hpush hparameters

lemma inside_run (hd : 0 < c.depth) : (c.inside k m).run fuel = bodyAt fuel c.depth k.body m := by
  unfold inside Moment.run
  cases h : c.depth with
  | zero => omega
  | succ d => rfl

lemma depth_pos_of_body (hb : bodyAt fuel c.depth k.body m₁ = .ok () m₂) : 0 < c.depth := by
  cases hd : c.depth with
  | zero =>
    rw [hd] at hb
    cases hb
  | succ d => exact Nat.succ_pos d

/-- Behind its body a call still has its layer in front of what was open before. -/
lemma Starts.taken (h : c.Starts fuel k m m₁) (hb : bodyAt fuel c.depth k.body m₁ = .ok () m₂)
    (ht : takes k m₂ = .ok () m₃) : ∃ l, m₃.layers = l :: m.layers := by
  obtain ⟨l, hl⟩ := h.layers
  obtain ⟨xs, hgrown⟩ := ((grows_bodyAt fuel c.depth k.body).ends m₁).ok hb
  have hm₂ : ({ m₂ with returning := none } : Machine).layers = m₂.layers := rfl
  have htakes := (Steady.of_quiet (quiet_takes k m₂.returning)).ends { m₂ with returning := none }
  exact ⟨l.add xs, (htakes.ok ht).1.trans (hm₂.trans (hgrown.cons hl))⟩

/-- So it can be left, and what was open before is open. -/
lemma Starts.leave (h : c.Starts fuel k m m₁) (hb : bodyAt fuel c.depth k.body m₁ = .ok () m₂)
    (ht : takes k m₂ = .ok () m₃) : ∃ m', popContext m₃ = .ok () m' ∧ m'.layers = m.layers := by
  obtain ⟨l, hl⟩ := h.taken hb ht
  obtain ⟨m', hpop, hlayers, -⟩ := popContext_of_cons hl
  exact ⟨m', hpop, hlayers⟩

/-- A call that answers has got through its body. -/
lemma Calls.answers (h : c.Calls fuel k m) (hr : c.run fuel = .ok () m') :
    ∃ m₁ m₂ m₃, c.Starts fuel k m m₁ ∧
    bodyAt fuel c.depth k.body m₁ = .ok () m₂ ∧ takes k m₂ = .ok () m₃ ∧
      popContext m₃ = .ok () m' := by
  have hcalls := h
  cases h with
  | @mk d s t u id id' returns b args ps Γ m₀ _ rs ha hf =>
    have ha' : values (bodyAt fuel d) fuel args m₀ = .ok rs m := ha
    rw [Moment.run, visitAt, visit, bind_of_ok ha', callNamed, bind_of_ok hf] at hr
    obtain ⟨_, m₂, hpush, hr⟩ := ok_of_bind hr
    obtain ⟨_, m₁, hparameters, hr⟩ := ok_of_bind hr
    obtain ⟨_, m₃, hbody, hr⟩ := ok_of_bind hr
    have hr : (ask returns.returnTypeName >>= fun type =>
      takeReturned id' type u.start m₃.returning >>= fun _ =>
        popContext) { m₃ with returning := none } = .ok () m' := hr
    rw [← bind_assoc] at hr
    obtain ⟨_, m₄, htakes, hpop⟩ := ok_of_bind hr
    exact ⟨m₁, m₃, m₄, ⟨hcalls, m₂, hpush, hparameters⟩, hbody, htakes, hpop⟩

namespace Amid

lemma parameters (hcalls : c.Calls fuel k m) (hpush : pushContext k.name k.place m = .ok () m₁)
    (ps after : List Node) (rs qs : List Ref) :
    ∀ (before : List Node) (rs' : List Ref) {m₂ : Machine},
    k.parameters = before ++ ps ++ after → k.args = rs' ++ rs ++ qs → before.length = rs'.length →
    declareParameters before rs' m₁ = .ok () m₂ → c.Amid fuel m₂ →
    Ends (declareParameters ps rs m₂) (fun _ m' => c.Amid fuel m') (Halts fuel c) := by
  fun_induction declareParameters ps rs with
  | case1 s t x ps r rs ih =>
    intro before rs' m₂ hps hrs hlen hbefore hm₂
    have hparameter : k.parameters = before ++ .parameter s t
      (.plain x) :: (ps ++ after) := by rw [hps]; simp
    have hargument : k.args = rs' ++ r :: (rs ++ qs) := by rw [hrs]; simp
    have hdoes : c.Does fuel (.declare x r s.start) m₂ :=
      .parameter hcalls hpush hparameter hargument hlen hbefore
    refine Ends.bind (hm₂.deed hdoes calm_declare) fun _ m₃ hdeclare hm₃ => ?_
    refine ih (before ++ [.parameter s t (.plain x)]) (rs' ++ [r]) (by rw [hps]; simp)
      (by rw [hrs]; simp)
      (by simp [hlen]) ?_ hm₃
    rw [declareParameters_append hlen hbefore, declareParameters, bind_of_ok hdeclare]
    rfl
  | case2 =>
    intro before rs' m₂ _ _ _ _ hm₂
    exact hm₂.quiet (.fault _ (by decide))
  | case3 =>
    intro before rs' m₂ _ _ _ _ hm₂
    exact hm₂.quiet (.fault _ (by decide))
  | case4 =>
    intro before rs' m₂ _ _ _ _ hm₂
    exact hm₂

lemma body (hstarts : c.Starts fuel k m m₁) (hm : m.Clear) (hm₁ : c.Amid fuel m₁) :
    Ends ((bodyAt fuel c.depth k.body >>= fun _ => get >>= fun m =>
        modify (fun m : Machine => { m with returning := none }) >>= fun _ =>
          ask k.returns.returnTypeName >>= fun type =>
            takeReturned k.name type k.span.start m.returning >>= fun _ =>
            popContext) m₁)
      (fun _ m' => c.Course fuel m') (Halts fuel c) := by
  have haction := hstarts.calls.isAction hm
  have hbody : Ends (bodyAt fuel c.depth k.body m₁)
      (fun _ m' => c.Course fuel m' ∧ ({ m' with returning := none } : Machine).Clear)
        (Halts fuel c) := by
    rcases Nat.eq_zero_or_pos c.depth with hd | hd
    · rw [hd]
      exact .inr (.depth hm₁ hstarts hd)
    · rw [← inside_run hd]
      cases hv : (c.inside k m₁).run fuel with
      | error e m' => exact .inl ⟨_, hstarts.enters hd, hv⟩
      | ok u m' =>
        obtain ⟨flow, m'', -, rfl, hclear⟩ := (visitAt_action fuel _ haction).ok hm₁.clear hv
        exact ⟨.part (hstarts.enters hd) hm₁.course hv, rfl, hclear.functions⟩
  refine Ends.bind hbody fun _ m₂ hb h₂ => ?_
  have hm₃ : c.Amid fuel { m₂ with returning := none } := ⟨.deed h₂.1 (.wipe hstarts hb) rfl, h₂.2⟩
  have htakes : Ends (takes k m₂) (fun _ m' => c.Amid fuel m') (Halts fuel c) :=
    hm₃.quiet (quiet_takes k m₂.returning)
  show Ends ((ask k.returns.returnTypeName >>= fun type =>
    takeReturned k.name type k.span.start m₂.returning >>= fun _ =>
      popContext) { m₂ with returning := none }) _ _
  rw [← bind_assoc, bind_run]
  cases ht : takes k m₂ with
  | error e m' =>
    have hstop := htakes.error ht
    unfold takes at ht
    rw [ht]
    exact hstop
  | ok u m₃ =>
    obtain ⟨m', hpop, -⟩ := hstarts.leave hb ht
    have hcourse : c.Course fuel m' := .deed (htakes.ok ht).course (.leave hstarts hb ht) hpop
    unfold takes at ht
    rw [ht]
    simp only [hpop]
    exact hcourse

lemma invoke (hcalls : c.Calls fuel k m) (hm : c.Amid fuel m) :
    Ends (invoke (bodyAt fuel c.depth) (.define k.span k.returns k.name k.parameters k.body) k.args
      k.place m)
      (fun _ m' => c.Course fuel m') (Halts fuel c) := by
  refine Ends.bind (hm.deed (.call hcalls) calm_pushContext) fun _ m₁ hpush hm₁ => ?_
  refine Ends.bind (parameters hcalls hpush k.parameters [] k.args [] [] [] (by simp)
    (by simp) rfl rfl hm₁)
    fun _ m₂ hparameters hm₂ => ?_
  exact body ⟨hcalls, m₁, hpush, hparameters⟩ hm.clear hm₂

/-- What is no definition is not called. -/
lemma invoke_of_not_definition {n : Node} (hm : c.Amid fuel m) (hn : n.isDefinition = false)
    (args : List Ref) (p : Position) :
    Ends (Run.invoke (bodyAt fuel d) n args p m) (fun _ m' => c.Course fuel m') (Halts fuel c) := by
  have heq : Run.invoke (bodyAt fuel d) n args p = ask n.dump >>= fun text =>
    Run.fail (.notAFunction text) p := by
    cases n with
    | define => cases hn
    | _ => rfl
  rw [heq]
  exact hm.finish ((Quiet.ask n.balanced_dump).bind fun _ => .fail _ rfl)

lemma callNamed {s t : Span} {id : String} {args : List Node} {Γ : Declared} {rs : List Ref}
    (ha : valuesAt fuel d args m = .ok rs m₁)
    (hm₁ : Amid fuel ⟨d, .call s (.name t id) args, Γ, m⟩ m₁) :
    Ends (callNamed (bodyAt fuel d) id rs t.start s.start m₁)
      (fun _ m' => Course fuel ⟨d, .call s (.name t id) args, Γ, m⟩ m')
      (Halts fuel ⟨d, .call s (.name t id) args, Γ, m⟩) := by
  refine Ends.bind (hm₁.callee id t.start) fun f m₂ hf hm₂ => ?_
  cases f with
  | builtin b =>
    exact hm₂.finish (plain_callBuiltin.quiet.bind fun r => plain_setLast.quiet)
  | defined n =>
    obtain ⟨rfl, -⟩ := mem_functions_of_callee hf
    -- the table of functions may hold any node, and only a definition begins a call
    cases hn : n.isDefinition with
    | false => exact hm₂.invoke_of_not_definition hn rs s.start
    | true =>
      cases n with
      | define u returns id' ps b => exact invoke (.mk ha hf) hm₂
      | _ => cases hn

end Amid

/-! ### All nodes -/

/-- No return is under way at the moment, and what is to be visited is put together as it should: an
expression, a statement or a whole program. -/
structure Orderly (c : Moment) : Prop where
  machine : c.machine.Clear
  node : c.node.isTerm = true ∨ c.node.isAction = true ∨ c.node.isWhole = true

lemma Proper.orderly (h : c.Proper Machine.Clear) : c.Orderly := ⟨h.machine, h.node.imp_right .inl⟩

/-- The values of all parts. -/
lemma Amid.items (hm : c.machine.Clear) (hn : c.node.isTerm = true ∨ c.node.isAction = true) :
    Ends (valuesAt fuel c.depth c.node.items c.machine)
      (fun _ m' => c.Amid fuel m') (Halts fuel c) :=
  Amid.values (fun _ ha => Node.isTerm_of_mem_items ha hn) [] [] (by simp) rfl ⟨.start, hm⟩

lemma Amid.first {n : Node} (hm : c.machine.Clear)
    (hn : c.node.isTerm = true ∨ c.node.isAction = true) (hfirst : c.node.first? = some n) :
    Ends (Run.valueOf (visitAt fuel c.depth n) c.machine)
      (fun r m' => c.Amid fuel m' ∧ visitAt fuel c.depth n c.machine = .ok () m' ∧ r = m'.last)
        (Halts fuel c) :=
  Amid.valueOf ⟨.start, hm⟩ (.first hfirst) (Node.isTerm_of_first? hfirst hn)

lemma course_term (hm : c.machine.Clear) (hn : c.node.isTerm = true) :
    Ends (c.run fuel) (fun _ m' => c.Course fuel m') (Halts fuel c) := by
  obtain ⟨d, n, Γ, m⟩ := c
  have hstart : Amid fuel ⟨d, n, Γ, m⟩ m := ⟨.start, hm⟩
  have hitems : Ends (valuesAt fuel d n.items m) (fun _ m' => Amid fuel ⟨d, n, Γ, m⟩ m') _ :=
    Amid.items hm (.inl hn)
  unfold Moment.run
  cases n with
  | int | float | string | bool | null =>
    rw [visitAt, visit]
    exact hstart.finish plain_give.quiet
  | name s id =>
    rw [visitAt, visit]
    exact Ends.bind (hstart.cellOf _ _) fun r _ _ h => h.finish plain_setLast.quiet
  | list s es =>
    rw [visitAt, visit]
    refine Ends.bind hitems fun rs m₁ _ hm₁ => ?_
    cases rs with
    | nil => exact hm₁.finish plain_give.quiet
    | cons r rs => exact hm₁.finish (plain_value.quiet.bind fun _ => plain_give.quiet)
  | binary s op left right =>
    -- the moment leads on to the right operand only where the left one has not settled the result
    obtain ⟨hleft, hright⟩ := Bool.and_eq_true_iff.1 hn
    by_cases ha : op = .and
    · subst ha
      rw [visitAt, visit]
      refine Ends.bind (hstart.holds (.first rfl) hleft) fun t m₁ _ h₁ => ?_
      obtain ⟨hm₁, hv, ht⟩ := h₁
      cases t with
      | false => exact hm₁.finish plain_give.quiet
      | true =>
        exact Ends.bind (hm₁.holds (.right hv (fun _ => ht.symm) fun h => by cases h) hright)
          fun _ _ _ h => h.1.finish plain_give.quiet
    · by_cases ho : op = .or
      · subst ho
        rw [visitAt, visit]
        refine Ends.bind (hstart.holds (.first rfl) hleft) fun t m₁ _ h₁ => ?_
        obtain ⟨hm₁, hv, ht⟩ := h₁
        cases t with
        | true => exact hm₁.finish plain_give.quiet
        | false =>
          exact Ends.bind (hm₁.holds (.right hv (fun h => by cases h) fun _ => ht.symm) hright)
            fun _ _ _ h => h.1.finish plain_give.quiet
      · rw [visitAt, visit_operation ha ho]
        refine Ends.bind (hstart.valueOf (.first rfl) hleft) fun l m₁ _ h₁ => ?_
        obtain ⟨hm₁, hv, -⟩ := h₁
        refine Ends.bind (hm₁.valueOf (.right hv (fun h => absurd h ha) fun h =>
          absurd h ho) hright)
          fun r m₂ _ h₂ => ?_
        exact h₂.1.finish plain_operate.quiet
  | negate s e =>
    rw [visitAt, visit]
    exact Ends.bind (Amid.first hm (.inl hn) rfl) fun r _ _ h => h.1.finish plain_negate.quiet
  | member s o field =>
    rw [visitAt, visit]
    refine Ends.bind (Amid.first hm (.inl hn) rfl) fun r m₁ _ h₁ => ?_
    exact h₁.1.finish (plain_requireObject.quiet.bind fun _ =>
      plain_getAttribute.quiet.bind fun _ => plain_setLast.quiet)
  | construct s type args =>
    rw [visitAt, visit]
    exact Ends.bind hitems fun rs m₁ _ hm₁ => hm₁.finish plain_construct.quiet
  | call s target args =>
    obtain ⟨htarget, hargs⟩ := Bool.and_eq_true_iff.1 hn
    cases target with
    | name t id =>
      rw [visitAt, visit]
      exact Ends.bind hitems fun rs m₁ hrs hm₁ => Amid.callNamed hrs hm₁
    | member t o field =>
      have ho : o.isTerm = true := htarget
      rw [visitAt, visit]
      refine Ends.bind hitems fun rs m₁ hrs hm₁ => ?_
      refine Ends.bind (hm₁.valueOf (.receiver hrs) ho) fun r m₂ _ h₂ => ?_
      exact h₂.1.finish (plain_requireObject.quiet.bind fun _ =>
        plain_callMethod.quiet.bind fun _ => plain_setLast.quiet)
    | int | float | string | bool | null | list | binary | negate | call | construct =>
      simp only [visitAt, visit]
      exact Ends.bind hitems fun rs m₁ _ hm₁ => hm₁.finish (.fail _ rfl)
    | _ => cases htarget
  | _ => cases hn

lemma Course.first {n : Node} (hn : c.node.first? = some n)
    (hv : visitAt fuel c.depth n c.machine = .ok () m) : c.Course fuel m := by
  have henters : Enters fuel c ⟨c.depth, n, c.declared, c.machine⟩ := .first hn
  exact .part henters .start hv

/-- A new value can always be made the last one, also while a return is under way. -/
lemma Course.give (h : c.Course fuel m) (v : Value) :
    Ends (give v m) (fun _ m' => c.Course fuel m') (Halts fuel c) :=
  .quiet h ((plain_give.quiet.ends m).ok rfl)

/-- A part of a statement that may return, with null as the last value behind it. -/
lemma Course.thenNull {n : Node} (h : c.Course fuel m)
    (he : Enters fuel c ⟨c.depth, n, c.declared, m⟩) :
    Ends ((visitAt fuel c.depth n >>= fun _ => Run.give .null) m)
      (fun _ m' => c.Course fuel m') (Halts fuel c) := by
  rw [bind_run]
  cases hv : visitAt fuel c.depth n m with
  | ok u m' => exact (Course.part he h hv).give .null
  | error e m' => exact .inl ⟨_, he, hv⟩

/-- The rounds of a loop that are left: `i` of them are behind, and there is fuel for `j` more. -/
lemma Amid.iterate {s : Span} {a b : Node} {Γ : Declared} (ha : a.isTerm = true)
    (hb : b.isAction = true) : ∀ (j i : Nat) {m₁ : Machine}, i + j = fuel →
    Rounds (Run.holds (visitAt fuel d a)) (visitAt fuel d b) i m m₁ →
    Amid fuel ⟨d, .loop s a b, Γ, m⟩ m₁ →
    Ends (iterate (Run.holds (visitAt fuel d a)) (visitAt fuel d b) j m₁)
      (fun _ m' => Course fuel ⟨d, .loop s a b, Γ, m⟩ m') (Halts fuel ⟨d, .loop s a b, Γ, m⟩) := by
  intro j
  induction j with
  | zero =>
    intro i m₁ _ _ hm₁
    exact .inr (.rounds hm₁ ⟨s, a, b, rfl⟩)
  | succ j ih =>
    intro i m₁ hi hr hm₁
    have hlt : i < fuel := by omega
    refine Ends.bind (hm₁.holds (.condition hlt hr) ha) fun t m₂ hv₂ h₂ => ?_
    obtain ⟨hm₂, -, -⟩ := h₂
    cases t with
    | false => exact hm₂.course
    | true =>
      have henters : Enters fuel ⟨d, .loop s a b, Γ, m⟩ ⟨d, b, Γ, m₂⟩ := .round hlt hr hv₂
      show Ends ((visitAt fuel d b >>= fun _ => get >>= fun m => _) m₂) _ _
      rw [bind_run]
      cases hv₃ : visitAt fuel d b m₂ with
      | error e m₃ => exact .inl ⟨_, henters, hv₃⟩
      | ok u m₃ =>
        have hcourse : Course fuel ⟨d, .loop s a b, Γ, m⟩ m₃ := .part henters hm₂.course hv₃
        simp only [bind_run, get_run]
        cases hreturn : m₃.returning with
        | some r => exact hcourse
        | none =>
          exact ih (i + 1) (by omega) (.more hr hv₂ hv₃ hreturn)
            ⟨hcourse, (lasting_clear fuel).action hb hm₂.clear hv₃ hreturn⟩

lemma course_action (hm : c.machine.Clear) (hn : c.node.isAction = true) :
    Ends (c.run fuel) (fun _ m' => c.Course fuel m') (Halts fuel c) := by
  obtain ⟨d, n, Γ, m⟩ := c
  have hstart : Amid fuel ⟨d, n, Γ, m⟩ m := ⟨.start, hm⟩
  unfold Moment.run
  cases n with
  | block s ns =>
    rw [visitAt, visit]
    refine Ends.bind (hstart.deed (.enter d s ns Γ m) calm_enter) fun _ m₀ henter hm₀ => ?_
    refine Ends.bind (Amid.visitBlock (Node.allActions_iff.1 hn) henter [] [] (by simp) rfl hm₀)
      fun _ m₁ hb h₁ => ?_
    -- scopes are well nested, so there is one to leave
    obtain ⟨xs, hgrown⟩ := ((grows_visitBlock (grows_bodyAt fuel d) ns).ends m₀).ok hb
    obtain ⟨m', hexit, -⟩ := exit_of_under (hgrown.under (enter_ok henter).1)
    rw [hexit]
    exact .deed h₁.1 (.exit henter hb) hexit
  | declare s t id e =>
    rw [visitAt, visit]
    refine Ends.bind (Amid.first hm (.inr hn) rfl) fun r m₁ _ h₁ => ?_
    obtain ⟨hm₁, hv, rfl⟩ := h₁
    exact Ends.bind (hm₁.deed (.declare hv) calm_declare) fun _ _ _ h => h.course.give .null
  | branch s a b b' =>
    simp only [Node.isAction, Bool.and_eq_true] at hn
    obtain ⟨⟨ha, hb⟩, hb'⟩ := hn
    rw [visitAt, visit]
    refine Ends.bind (hstart.holds (.first rfl) ha) fun t m₁ _ h₁ => ?_
    obtain ⟨hm₁, hv, ht⟩ := h₁
    cases t with
    | true => exact hm₁.course.thenNull (.onTrue hv ht.symm)
    | false =>
      cases hp : b'.isPresent with
      | true => exact hm₁.course.thenNull (.onFalse hv ht.symm hp)
      | false => exact hm₁.course.give .null
  | loop s a b =>
    obtain ⟨ha, hb⟩ := Bool.and_eq_true_iff.1 hn
    rw [visitAt, visit]
    exact Ends.bind (Amid.iterate ha hb fuel 0 (Nat.zero_add fuel) (.none m) hstart) fun _ _ _ h =>
      h.give .null
  | assign s target e =>
    obtain ⟨htarget, he⟩ := Bool.and_eq_true_iff.1 hn
    cases target with
    | name t id =>
      rw [visitAt, visit]
      refine Ends.bind (Amid.first hm (.inr hn) rfl) fun r m₁ _ h₁ => ?_
      obtain ⟨hm₁, hv, rfl⟩ := h₁
      exact Ends.bind (hm₁.deed (.assign hv) calm_assign) fun _ _ _ h => h.course.give .null
    | member t o field =>
      have ho : o.isTerm = true := htarget
      -- the value comes before the object that it is assigned to
      rw [visitAt, visit]
      refine Ends.bind ((hstart.part (.first rfl) he).weaken (fun _ _ hv h => And.intro h hv)
        fun _ _ _ h => h)
        fun _ m₁ _ h₁ => ?_
      refine Ends.bind (h₁.1.valueOf (.owner h₁.2) ho) fun r m₂ _ h₂ => ?_
      exact h₂.1.finish (plain_setAttribute.quiet.bind fun _ => plain_give.quiet)
    | int | float | string | bool | null | list | binary | negate | call | construct =>
      simp only [visitAt, visit]
      exact Ends.bind (hstart.part (.first rfl) he) fun _ m₁ _ hm₁ => hm₁.finish (.fail _ rfl)
    | _ => cases htarget
  | giveBack s e =>
    rw [visitAt, visit]
    cases hp : e.isPresent with
    | true =>
      have hfirst : (Node.giveBack s e).first? = some e := by simp [Node.first?, hp]
      refine Ends.bind (Amid.first hm (.inr hn) hfirst) fun r m₁ _ h₁ => ?_
      obtain ⟨hm₁, hv, rfl⟩ := h₁
      exact .deed hm₁.course (.note hp hv) rfl
    | false =>
      refine Ends.bind (hstart.quiet plain_nothing.quiet) fun r m₁ hr hm₁ => ?_
      exact .deed hm₁.course (.noteNothing hp hr) rfl
  | callStatement s e | expressionStatement s e =>
    rw [visitAt, visit]
    exact hstart.course.thenNull (.first rfl)
  | define =>
    rw [visitAt, visit]
    exact hstart.course.give _
  | _ => cases hn

/-- The course of a program.  No return is under way behind it. -/
lemma amid_program (hm : c.machine.Clear) (hn : c.node.isWhole = true) :
    Ends (c.run fuel) (fun _ m' => c.Amid fuel m') (Halts fuel c) := by
  obtain ⟨d, n, Γ, m⟩ := c
  cases n with
  | program s is ns =>
    unfold Moment.run
    rw [visitAt, visit]
    refine Ends.bind
      (Amid.registerAll (fun k hk => Node.isAction_of_mem_definitions hn hk) [] [] (by simp) rfl
        ⟨.start, hm⟩)
      fun _ m₁ hregister hm₁ => ?_
    exact Amid.visitTop (Node.allActions_iff.1 hn) hregister [] [] (by simp) rfl hm₁
  | _ => cases hn

/-- A moment answers in its course, or it stops: within a moment that it leads to, or by itself. -/
lemma course (hc : c.Orderly) :
    Ends (c.run fuel) (fun _ m' => c.Course fuel m') (Halts fuel c) := by
  rcases hc.node with hn | hn | hn
  · exact course_term hc.machine hn
  · exact course_action hc.machine hn
  · exact (amid_program hc.machine hn).weaken (fun _ _ _ h => h.course) fun _ _ _ h => h

/-! ## All moments -/

lemma Calls.amid (h : c.Calls fuel k m) (hc : c.Orderly) : c.Amid fuel m := by
  obtain ⟨hm, hn⟩ := hc
  cases h with
  | mk ha hf =>
    rcases hn with hn | hn | hn
    · exact (Amid.items hm (.inl hn)).ok ha
    · cases hn
    · cases hn

lemma Starts.amid (h : c.Starts fuel k m m₁) (hc : c.Orderly) : c.Amid fuel m₁ := by
  obtain ⟨hcalls, m₂, hpush, hparameters⟩ := h
  have hm₂ := ((hcalls.amid hc).deed (.call hcalls) calm_pushContext).ok hpush
  exact (Amid.parameters hcalls hpush k.parameters [] k.args [] [] [] (by simp) (by simp) rfl rfl
    hm₂).ok hparameters

/-- Where the body of a call ends, the call comes in its course. -/
lemma Starts.course (h : c.Starts fuel k m m₁) (hc : c.Orderly)
    (hb : bodyAt fuel c.depth k.body m₁ = .ok () m₂) : c.Course fuel m₂ := by
  have hd := depth_pos_of_body hb
  exact .part (h.enters hd) (h.amid hc).course ((inside_run hd).trans hb)

lemma Does.course {k : Deed} (h : c.Does fuel k m) (hc : c.Orderly) : c.Course fuel m := by
  have hstart : c.Amid fuel c.machine := ⟨.start, hc.machine⟩
  cases h with
  | declare hv => exact .first rfl hv
  | assign hv => exact .first rfl hv
  | enter => exact .start
  | @exit d s ns Γ m₀ m₁ _ he hb =>
    rcases hc.node with hn | hn | hn
    · cases hn
    · have hm₁ := (hstart.deed (.enter d s ns Γ m₀) calm_enter).ok he
      exact ((Amid.visitBlock (Node.allActions_iff.1 hn) he [] [] (by simp) rfl hm₁).ok hb).1
    · cases hn
  | call h => exact (h.amid hc).course
  | @parameter _ k s type x r before after rs rs' m₀ m₁ _ h hpush hps hrs hlen hp =>
    have hm₁ := ((h.amid hc).deed (.call h) calm_pushContext).ok hpush
    exact ((Amid.parameters h hpush before (.parameter s type (.plain x) :: after) rs (r :: rs') []
      [] hps hrs rfl rfl
      hm₁).ok hp).course
  | wipe h hb => exact h.course hc hb
  | @leave _ k m₀ m₁ m₂ _ h hb ht =>
    have hwiped : c.Course fuel { m₂ with returning := none } :=
      .deed (h.course hc hb) (.wipe h hb) rfl
    exact .quiet hwiped (((quiet_takes k m₂.returning).ends _).ok ht)
  | @note d s e Γ m₀ _ hp hv =>
    have hfirst : (Node.giveBack s e).first? = some e := by simp [Node.first?, hp]
    exact .first hfirst hv
  | noteNothing hp hv => exact .quiet .start ((plain_nothing.quiet.ends _).ok hv)
  | @register d s is ns before after n name Γ m₀ _ hds hname hb =>
    rcases hc.node with hn | hn | hn
    · cases hn
    · cases hn
    · exact ((Amid.registerAll (fun k hk => Node.isAction_of_mem_definitions hn hk) (n :: after) []
        (by simp [hds]) rfl hstart).ok hb).course

lemma Enters.course (h : Enters fuel c c') (hc : c.Orderly) : c.Course fuel c'.machine := by
  obtain ⟨hm, hn⟩ := hc
  have hstart : c.Amid fuel c.machine := ⟨.start, hm⟩
  cases h with
  | first h => exact .start
  | @item d n e before after Γ m m' rs h hb =>
    have hn' : n.isTerm = true ∨ n.isAction = true := by
      rcases hn with hn | hn | hn
      · exact .inl hn
      · exact .inr hn
      · cases n with
        | program => simp [Node.items] at h
        | _ => cases hn
    exact ((Amid.values (fun _ ha => Node.isTerm_of_mem_items ha hn') (e :: after) []
      (by simp [h]) rfl
      hstart).ok hb).course
  | right hl => exact .first rfl hl
  | owner he => exact .first rfl he
  | onTrue hv => exact .first rfl hv
  | onFalse hv => exact .first rfl hv
  | @receiver d s t o f args Γ m m' rs ha =>
    rcases hn with hn | hn | hn
    · exact ((Amid.items hm (.inl hn)).ok ha).course
    · cases hn
    · cases hn
  | @condition d i s a b Γ m m' hi hr =>
    rcases hn with hn | hn | hn
    · cases hn
    · obtain ⟨ha, hb⟩ := Bool.and_eq_true_iff.1 hn
      exact (Amid.rounds ha hb hm (Nat.le_of_lt hi) hr).course
    · cases hn
  | @round d i s a b Γ m m₁ m' hi hr hv =>
    rcases hn with hn | hn | hn
    · cases hn
    · obtain ⟨ha, hb⟩ := Bool.and_eq_true_iff.1 hn
      exact (((Amid.rounds ha hb hm (Nat.le_of_lt hi) hr).holds (.condition hi hr) ha).ok
        hv).1.course
    · cases hn
  | @statement d s n ns before after Γ m m₁ m' h he hb hr =>
    rcases hn with hn | hn | hn
    · cases hn
    · have hm₁ := (hstart.deed (.enter d s ns Γ m) calm_enter).ok he
      exact ((Amid.visitBlock (Node.allActions_iff.1 hn) he (n :: after) [] (by simp [h]) rfl
        hm₁).ok hb).1
    · cases hn
  | @body d s t u id id' returns b args ps Γ m m₁ m₂ m' rs ha hf hpush hp =>
    rcases hn with hn | hn | hn
    · have hcalls : Calls fuel ⟨d + 1, .call s (.name t id) args, Γ, m⟩ _ m₁ := .mk ha hf
      have hm₁ := (Amid.items hm (.inl hn)).ok ha
      have hm₂ := (hm₁.deed (.call hcalls) calm_pushContext).ok hpush
      exact ((Amid.parameters hcalls hpush ps [] rs [] [] [] (by simp) (by simp) rfl rfl hm₂).ok
        hp).course
    · cases hn
    · cases hn
  | @top d s n is ns before after Γ m m₁ m' h hdefinition hr hb =>
    rcases hn with hn | hn | hn
    · cases hn
    · cases hn
    · exact (hstart.behind hn hr h hb).course

/-- A moment leads to expressions and statements only. -/
lemma Enters.proper_of_orderly (h : Enters fuel c c') (hc : c.Orderly) :
    c'.Proper Machine.Clear := by
  obtain ⟨hm, hterm | haction | hwhole⟩ := hc
  · exact h.proper (lasting_clear fuel) ⟨hm, .inl hterm⟩
  · exact h.proper (lasting_clear fuel) ⟨hm, .inr haction⟩
  · obtain ⟨d, n, Γ, m⟩ := c
    cases n with
    | program s is ns =>
      cases h with
      | first h => cases h
      | item h => simp [Node.items] at h
      | @top _ _ n _ _ before after _ _ m₁ m' h hdefinition hr hb =>
        have hstart : Amid fuel ⟨d, .program s is ns, Γ, m⟩ m := ⟨.start, hm⟩
        exact ⟨(hstart.behind hwhole hr h hb).clear,
          .inr (Node.allActions_iff.1 hwhole n (by rw [h]; simp))⟩
    | _ => cases hwhole

lemma Enters.orderly (h : Enters fuel c c') (hc : c.Orderly) : c'.Orderly :=
  (h.proper_of_orderly hc).orderly

lemma Reaches.orderly (h : Reaches fuel c c') (hc : c.Orderly) : c'.Orderly := by
  induction h with
  | here => exact hc
  | step h _ ih => exact ih (h.orderly hc)

lemma Proper.not_isWhole {I : Machine → Prop} (hc : c.Proper I) : ¬ c.node.isWhole = true := by
  intro hn
  obtain ⟨d, n, Γ, m⟩ := c
  cases n with
  | program => rcases hc.node with hterm | haction <;> contradiction
  | _ => cases hn

/-- A run does not come to a program, unless it starts with it. -/
lemma Reaches.eq_of_whole (h : Reaches fuel c c') (hc : c.Orderly) (hn : c'.node.isWhole = true) :
    c' = c := by
  cases h with
  | here => rfl
  | step he hr =>
    exact absurd hn (hr.proper (lasting_clear fuel) (he.proper_of_orderly hc)).not_isWhole

lemma Reaches.trans (h : Reaches fuel c c') (h' : Reaches fuel c' c'') : Reaches fuel c c'' := by
  induction h with
  | here => exact h'
  | step h _ ih => exact .step h (ih h')

lemma Reaches.snoc (h : Reaches fuel c c') (h' : Enters fuel c' c'') : Reaches fuel c c'' :=
  h.trans (.step h' (.here c''))

/-- A machine that comes up in a run from the moment: where the run comes to a node or leaves it,
and before and behind each deed. -/
inductive Passes (fuel : Nat) (c : Moment) : Machine → Prop
  | comes {c' : Moment} (h : Reaches fuel c c') : Passes fuel c c'.machine
  | answers {c' : Moment} {m : Machine} (h : Reaches fuel c c') (hr : c'.run fuel = .ok () m) :
      Passes fuel c m
  | stops {c' : Moment} {e : Stop} {m : Machine} (h : Reaches fuel c c')
      (hr : c'.run fuel = .error e m) : Passes fuel c m
  | before {c' : Moment} {k : Deed} {m : Machine} (h : Reaches fuel c c') (hd : c'.Does fuel k m) :
      Passes fuel c m
  | behind {c' k m m' : _} (h : Reaches fuel c c') (hd : c'.Does fuel k m)
      (hk : k.run m = .ok () m') : Passes fuel c m'

/-- What quiet steps keep, and the deeds of all moments that come up from a moment on. -/
structure Invariant (fuel : Nat) (c : Moment) (I : Machine → Prop) : Prop where
  quiet : ∀ {m m'}, I m → m.Undisturbed m' → I m'
  deed : ∀ {c' k m m'}, Reaches fuel c c' → I c'.machine → c'.Does fuel k m → I m → k.Makes m m' →
    I m'

namespace Invariant

variable {I : Machine → Prop}

/-- It holds in the course of every moment at which it holds. -/
lemma course (hI : Invariant fuel c I) {c' : Moment} {m : Machine} (hr : Reaches fuel c c')
    (hc : c'.Orderly) (hm : I c'.machine) (h : c'.Course fuel m) : I m := by
  induction h with
  | start => exact hm
  | quiet _ hq ih => exact hI.quiet ih hq
  | deed _ hd hk ih => exact hI.deed hr hm hd ih ((Deed.ends _ _).ok hk)
  | @part c'' m' he hcourse hv ih =>
    have hc'' := he.orderly hc
    exact hI.course (hr.snoc he) hc'' ih ((Moment.course hc'').ok hv)
termination_by (c'.depth, sizeOf c'.node)
decreasing_by exact Prod.lex_def.mpr he.decreases

/-- It holds at every moment that comes up. -/
lemma reaches_from (hI : Invariant fuel c I) {c₁ c' : Moment} (hr : Reaches fuel c c₁)
    (hc : c₁.Orderly) (hm : I c₁.machine) (h : Reaches fuel c₁ c') : I c'.machine := by
  induction h with
  | here => exact hm
  | step he _ ih => exact ih (hr.snoc he) (he.orderly hc) (hI.course hr hc hm (he.course hc))

end Invariant

/-- Every stop of a run has a moment that stops by itself. -/
lemma exists_breaks {c : Moment} (hc : c.Orderly) (h : c.run fuel = .error e m') :
    ∃ c', Reaches fuel c c' ∧ c'.run fuel = .error e m' ∧ c'.Breaks fuel e m' := by
  rcases (course hc).error h with ⟨c₁, he, h₁⟩ | hbreaks
  · obtain ⟨c', hr, h', hbreaks⟩ := exists_breaks (he.orderly hc) h₁
    exact ⟨c', .step he hr, h', hbreaks⟩
  · exact ⟨c, .here c, h, hbreaks⟩
termination_by (c.depth, sizeOf c.node)
decreasing_by exact Prod.lex_def.mpr he.decreases

namespace Invariant

variable {I : Machine → Prop}

lemma breaks (hI : Invariant fuel c I) {c' : Moment} (hr : Reaches fuel c c') (hc : c'.Orderly)
    (hm : I c'.machine) (h : c'.Breaks fuel e m') : I m' := by
  cases h with
  | deed hamid hd hk =>
    rw [((Deed.ends _ _).error hk).1]
    exact hI.course hr hc hm hamid.course
  | own hamid hq => exact hI.quiet (hI.course hr hc hm hamid.course) hq
  | stray hcourse => exact hI.course hr hc hm hcourse
  | rounds hamid => exact hI.course hr hc hm hamid.course
  | depth hamid => exact hI.course hr hc hm hamid.course

lemma passes (hI : Invariant fuel c I) (hc : c.Orderly) (hm : I c.machine) (h : c.Passes fuel m) :
    I m := by
  have hreaches {c' : Moment} (h : Reaches fuel c c') : I c'.machine :=
    hI.reaches_from (.here c) hc hm h
  cases h with
  | comes h => exact hreaches h
  | answers h hr =>
    have hc' := h.orderly hc
    exact hI.course h hc' (hreaches h) ((Moment.course hc').ok hr)
  | stops h hr =>
    obtain ⟨c', hr', -, hbreaks⟩ := exists_breaks (h.orderly hc) hr
    have hr' := h.trans hr'
    exact hI.breaks hr' (hr'.orderly hc) (hreaches hr') hbreaks
  | before h hd =>
    have hc' := h.orderly hc
    exact hI.course h hc' (hreaches h) (hd.course hc')
  | behind h hd hk =>
    have hc' := h.orderly hc
    exact hI.course h hc' (hreaches h) (.deed (hd.course hc') hd hk)

end Invariant

end Moment

end AudLang
