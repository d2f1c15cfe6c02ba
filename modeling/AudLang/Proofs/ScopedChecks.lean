import AudLang.Proofs.CheckDepth

/-!
Checks are scoped.

A checker opens a scope for each block and each function, and notes what the function promises.
Both are put back by hand once the inside has been gone through.  All the same nothing gets out: an
expression changes nothing, a declaration adds its variable to the innermost scope, and behind any
other statement the checker is as before.
-/

namespace AudLang

variable {t : Ty} {ns ps : List Node} {b s : Span}

/-! ## Statements -/

namespace Node

lemma declaredType_of_denotedType {n : Node} (h : n.denotedType = .ok t) : n.declaredType = t := by
  rw [declaredType, h]

end Node

namespace Check

variable {α : Type} {k k' : Checker} {n : Node}

lemma typed_stays (hn : n.isTerm = true) (h : typed n (visit n) k = .ok t k') : k' = k :=
  ((composes_stays.typed (stays_term hn) n).ends k).ok h

/-- Behind a part whose type is required to be accepted the checker is as before. -/
lemma required_stays {e at_ : Node} {expected : Ty} {flaw : Ty → TypeFlaw} {rest : Check α} {a : α}
    (he : e.isTerm = true)
    (h : (do
      let t ← typed e (visit e)
      require expected t (flaw t) at_
      rest) k = .ok a k') : rest k = .ok a k' := by
  obtain ⟨t, k₁, htyped, h₁⟩ := ok_of_bind h
  obtain rfl := typed_stays he htyped
  exact (require_ok h₁).2

/-- A checker that accepts the statement is behind it afterwards. -/
def Leads (n : Node) : Prop := ∀ ⦃k k' : Checker⦄ ⦃t : Ty⦄, visit n k = .ok t k' → k' = k.after n

lemma leads_of_stays (h : Stays (visit n)) (hd : n.declaration? = none) : Leads n := by
  intro k k' t hv
  rw [Checker.after_of_none k hd]
  exact (h.ends k).ok hv

lemma discarded_leads {u : Unit} (hn : Leads n) (h : discard (visit n) k = .ok u k') :
    k' = k.after n := by
  obtain ⟨t, k₁, hv, hd⟩ := ok_of_bind h
  cases hd
  exact hn hv

lemma visitAll_leads (hns : ∀ n ∈ ns, Leads n) : ∀ {k : Checker} {u : Unit},
    visitAll ns k = .ok u k' → k' = k.afterAll ns := by
  induction ns with
  | nil =>
    intro k u h
    cases h
    rfl
  | cons n ns ih =>
    intro k u h
    obtain ⟨hn, hns⟩ := List.forall_mem_cons.1 hns
    rw [visitAll] at h
    obtain ⟨_, k₁, hdiscard, h₁⟩ := ok_of_bind h
    obtain rfl := discarded_leads hn hdiscard
    exact ih hns h₁

lemma leads_block (hns : ∀ n ∈ ns, Leads n) : Leads (.block b ns) := by
  intro k k' t h
  rw [visit] at h
  obtain ⟨_, k₁, henter, h₁⟩ := ok_of_bind h
  cases henter
  obtain ⟨_, k₂, hall, h₂⟩ := ok_of_bind h₁
  obtain rfl := visitAll_leads hns hall
  obtain ⟨_, k₃, hexit, h₃⟩ := ok_of_bind h₂
  -- all that has been declared is in the scope that is left here
  have hinner := Checker.afterAll_inner ns k.enter rfl
  change exit (k.enter.afterAll ns) = .ok () k₃ at hexit
  rw [hinner] at hexit
  cases hexit
  cases h₃
  rfl

lemma discarded_block {u : Unit} (hns : ∀ n ∈ ns, Leads n)
    (h : discard (visit (.block b ns)) k = .ok u k') :
    k' = k := discarded_leads (n := .block b ns) (leads_block hns) h

/-- Parameters are declared in the innermost scope. -/
lemma declareAll_inner : ∀ {k : Checker} {t : Table} {outer : List Table} {u : Unit},
    k.inner = t :: outer → declareAll ps k = .ok u k' →
      ∃ t', k' = { k with inner := t' :: outer } := by
  induction ps with
  | nil =>
    intro k t outer u hk h
    cases h
    exact ⟨t, by rw [← hk]⟩
  | cons p ps ih =>
    intro k t outer u hk h
    cases p with
    | parameter s type name =>
      rw [declareAll] at h
      obtain ⟨v, -, h₁⟩ := ask_ok h
      cases name with
      | token x =>
        obtain ⟨_, _, hthrow, -⟩ := ok_of_bind h₁
        cases hthrow
      | plain x =>
        obtain ⟨_, k₂, hdeclare, h₂⟩ := ok_of_bind h₁
        obtain ⟨-, rfl⟩ := declare_ok hdeclare
        have hadd : k.add x v = { k with inner := t.add x v :: outer } := by simp [Checker.add, hk]
        rw [hadd] at h₂
        exact ih (k := { k with inner := t.add x v :: outer }) rfl h₂
    | _ => cases h

lemma leads_define {returns : Node} {id : String} {body : List Node} (hbody : ∀ n ∈ body, Leads n) :
    Leads (.define s returns id ps (.block b body)) := by
  intro k k' t h
  rw [visit] at h
  obtain ⟨_, _, hget, h₁⟩ := ok_of_bind h
  cases hget
  obtain ⟨promised, -, h₂⟩ := ask_ok h₁
  obtain ⟨_, _, hmodify, h₃⟩ := ok_of_bind h₂
  cases hmodify
  obtain ⟨_, _, henter, h₄⟩ := ok_of_bind h₃
  cases henter
  obtain ⟨_, k₂, hdeclare, h₅⟩ := ok_of_bind h₄
  obtain ⟨table, rfl⟩ := declareAll_inner rfl hdeclare
  obtain ⟨_, k₃, hdiscard, h₆⟩ := ok_of_bind h₅
  obtain rfl := discarded_block hbody hdiscard
  -- the scope of the parameters is left, and the promise from before is put back
  obtain ⟨_, _, hexit, h₇⟩ := ok_of_bind h₆
  cases hexit
  cases h₇
  rfl

lemma declare_leads {type value : Node} {id : String} (hv : value.isTerm = true)
    (h : visit (.declare s type id value) k = .ok t k') :
    id ∉ k.current.names ∧ k' = k.add id type.declaredType := by
  rw [visit] at h
  obtain ⟨declared, hdeclared, h₁⟩ := ask_ok h
  obtain ⟨_, k₂, hdeclare, h₂⟩ := ok_of_bind (required_stays hv h₁)
  cases h₂
  rw [Node.declaredType_of_denotedType hdeclared]
  exact declare_ok hdeclare

/-- Behind a statement that it has accepted, a checker has the variable that the statement declares,
if it declares one, and is as before otherwise. -/
lemma leads_orderly (hn : n.IsOrderly) : Leads n := by
  induction hn with
  | block s h ih => exact leads_block ih
  | declare s type id h => exact fun k k' t hv => (declare_leads h hv).2
  | assign s ht hv =>
    exact leads_of_stays (composes_stays.assign s (stays_term ht) (stays_term hv)) rfl
  | call s h => exact leads_of_stays (composes_stays.callStatement s (stays_term h)) rfl
  | expression s h => exact leads_of_stays (composes_stays.expressionStatement s (stays_term h)) rfl
  | giveBack s => exact leads_of_stays (composes_stays.giveBack s fun h => by cases h) rfl
  | giveBackValue s h => exact leads_of_stays (composes_stays.giveBack s fun _ => stays_term h) rfl
  | branch s b hc hb ih =>
    intro k k' t h
    rw [visit] at h
    obtain ⟨_, k₁, hdiscard, h₁⟩ := ok_of_bind (required_stays hc h)
    cases h₁
    exact discarded_block ih hdiscard
  | branchElse s b b' hc hb ho ih iho =>
    intro k k' t h
    rw [visit] at h
    obtain ⟨_, k₁, hdiscard, h₁⟩ := ok_of_bind (required_stays hc h)
    obtain rfl := discarded_block ih hdiscard
    obtain ⟨_, k₂, hdiscard', h₂⟩ := ok_of_bind h₁
    cases h₂
    exact discarded_block iho hdiscard'
  | loop s b hc hb ih =>
    intro k k' t h
    rw [visit] at h
    obtain ⟨_, k₁, hdiscard, h₁⟩ := ok_of_bind (required_stays hc h)
    cases h₁
    exact discarded_block ih hdiscard
  | define s b returns id hp hb ih => exact leads_define ih

end Check

/-! ## Balance -/

namespace Node

lemma raises_denotedType (n : Node) : Raises (· ≠ Fault.unbalanced) n.denotedType := by
  fun_induction denotedType n with
  | case1 s id e ih => exact ih.map _
  | case2 | case3 => exact .ok _
  | case4 => exact .error (by decide)

lemma raises_parameterType (n : Node) : Raises (· ≠ Fault.unbalanced) n.parameterType := by
  unfold parameterType
  split
  · exact raises_denotedType _
  · exact .error (by decide)

lemma raises_parameterTypes (ps : List Node) :
    Raises (· ≠ Fault.unbalanced) (ps.mapM parameterType) := by
  induction ps with
  | nil => exact .ok _
  | cons p ps ih =>
    rw [List.mapM_cons]
    exact p.raises_parameterType.bind fun t => ih.bind fun ts => .ok _

lemma raises_signature (n : Node) : Raises (· ≠ Fault.unbalanced) n.signature := by
  unfold signature
  split
  · exact (raises_parameterTypes _).bind fun ts => (raises_denotedType _).bind fun t => .ok _
  · exact .error (by decide)

end Node

namespace Check

variable {α : Type} {k k' : Checker}

/-- The step closes what it has opened when it answers, and never stops for want of a scope to
close. -/
structure Balances (x : Check α) : Prop where
  ends : ∀ k, Ends (x k) (fun _ k' => k'.inner.length = k.inner.length)
    (fun stop _ => stop ≠ .fault .unbalanced)

lemma composes_balances : Composes @Balances where
  pure _ := ⟨fun _ => rfl⟩
  get := ⟨fun _ => rfl⟩
  stop h := ⟨fun _ => h⟩
  bind hx hf := by
    refine ⟨fun k => Ends.bind (hx.ends k) fun a k₁ _ h₁ => ?_⟩
    exact ((hf a).ends k₁).weaken (fun _ _ _ h => h.trans h₁) fun _ _ _ h => h

lemma balances_declare (name : String) (type : Ty) (p : Position) :
    Balances (declare name type p) := by
  refine ⟨fun k => ?_⟩
  simp only [declare, bind_run, get_run]
  cases hinner : k.inner with
  | nil =>
    simp only [bind_run]
    cases k.global.declare name type with
    | ok t => simp [Ends]
    | error flaw => exact fun h => by cases h
  | cons t outer =>
    simp only [bind_run]
    cases t.declare name type with
    | ok t => simp [Ends]
    | error flaw => exact fun h => by cases h

lemma balances_declareAll (ps : List Node) : Balances (declareAll ps) := by
  have hP := composes_balances
  induction ps with
  | nil => exact hP.pure _
  | cons p ps ih =>
    cases p with
    | parameter s type name =>
      rw [declareAll]
      refine hP.bind (hP.ask (Node.raises_parameterType _)) fun t => ?_
      cases name with
      | plain x => exact hP.bind (balances_declare x t _) fun _ => ih
      | token x => exact hP.bind (hP.stop (by decide)) fun _ => ih
    | _ => exact hP.stop (by decide)

lemma balances_visitAll (h : ∀ n ∈ ns, Balances (visit n)) : Balances (visitAll ns) := by
  induction ns with
  | nil => exact composes_balances.pure _
  | cons n ns ih =>
    obtain ⟨hn, hns⟩ := List.forall_mem_cons.1 h
    rw [visitAll]
    exact composes_balances.bind (composes_balances.discard hn) fun _ => ih hns

/-- Steps between the opening and the closing of a scope. -/
lemma balances_scope {x : Check Unit} {y : Check α} (hx : Balances x) (hy : Balances y) :
    Balances (enter >>= fun _ => x >>= fun _ => exit >>= fun _ => y) := by
  refine ⟨fun k => ?_⟩
  show Ends ((x >>= fun _ => exit >>= fun _ => y) k.enter) _ _
  refine Ends.bind (hx.ends k.enter) fun _ k₁ _ h₁ => ?_
  refine Ends.bind ((exit_ends h₁).mono_error fun _ _ h => h.elim) fun _ k₂ _ h₂ => ?_
  exact (hy.ends k₂).weaken (fun _ _ _ h => h.trans h₂) fun _ _ _ h => h

lemma balances_promise (type : Ty) : Balances
    (modify fun k : Checker => { k with returns := type }) :=
  ⟨fun _ => rfl⟩

/-- Whatever tree a checker goes through, it closes what it opens and never closes a scope that is
not there. -/
lemma balances_visit (n : Node) : Balances (visit n) := by
  have hP := composes_balances
  match n with
  | .missing =>
    rw [visit]
    exact hP.stop (by decide)
  | .unknown .. =>
    rw [visit]
    exact hP.flag _ _
  | .int .. | .float .. | .string ..
  | .bool .. | .null .. | .type .. | .listType .. | .parameter .. | .program .. =>
    rw [visit]
    exact hP.pure _
  | .name s id => exact hP.name s id
  | .list s es => exact hP.list s fun e _ => balances_visit e
  | .binary s op left right => exact hP.operation s op (balances_visit left) (balances_visit right)
  | .negate s e => exact hP.negate s (balances_visit e)
  | .member s object field => exact hP.member s field (balances_visit object)
  | .call s target args =>
    exact hP.call s (fun s' object field h => balances_visit object) fun a _ => balances_visit a
  | .construct s id args => exact hP.construct s id fun a _ => balances_visit a
  | .assign s target value => exact hP.assign s (balances_visit target) (balances_visit value)
  | .giveBack s value => exact hP.giveBack s fun _ => balances_visit value
  | .callStatement s e => exact hP.callStatement s (balances_visit e)
  | .expressionStatement s e => exact hP.expressionStatement s (balances_visit e)
  | .block s ns =>
    rw [visit]
    exact balances_scope (balances_visitAll fun n _ => balances_visit n) (hP.pure _)
  | .declare s type id value =>
    rw [visit]
    refine hP.bind (hP.ask type.raises_denotedType) fun d =>
      hP.bind (hP.typed (balances_visit value) _) fun t => ?_
    exact hP.bind (hP.require _ _ _ _) fun _ => hP.bind (balances_declare _ _ _) fun _ => hP.pure _
  | .branch s c a b =>
    rw [visit]
    refine hP.bind (hP.typed (balances_visit c) _) fun t => hP.bind (hP.require _ _ _ _) fun _ => ?_
    refine hP.bind (hP.discard (balances_visit a)) fun _ => hP.ite ?_ (hP.pure _)
    exact hP.bind (hP.discard (balances_visit b)) fun _ => hP.pure _
  | .loop s c b =>
    rw [visit]
    refine hP.bind (hP.typed (balances_visit c) _) fun t => hP.bind (hP.require _ _ _ _) fun _ => ?_
    exact hP.bind (hP.discard (balances_visit b)) fun _ => hP.pure _
  | .define s returns id ps body =>
    rw [visit]
    refine hP.bind hP.get fun k => hP.bind (hP.ask returns.raises_denotedType) fun promised => ?_
    refine hP.bind (balances_promise promised) fun _ => ?_
    have hinside := hP.bind (balances_declareAll ps) fun _ => hP.discard (balances_visit body)
    have hscope := balances_scope hinside (hP.bind (balances_promise k.returns) fun _ =>
      hP.pure Ty.absent)
    simpa only [bind_assoc] using hscope

lemma balances_register (name : String) (s : Signature) (p : Position) :
    Balances (register name s p) := by
  refine ⟨fun k => ?_⟩
  simp only [register, bind_run, get_run]
  cases k.functions.register name s with
  | ok f => rfl
  | error flaw => exact fun h => by cases h

lemma balances_registerAll (ds : List Node) : Balances (registerAll ds) := by
  have hP := composes_balances
  induction ds with
  | nil => exact hP.pure _
  | cons d ds ih =>
    exact hP.bind (hP.ask d.raises_signature) fun _ => hP.bind (balances_register _ _ _) fun _ => ih

lemma program_not_unbalanced {program : Node} {stop : CheckStop}
    (h : Check.program program k = .error stop k') : stop ≠ .fault .unbalanced := by
  have hP := composes_balances
  cases program with
  | program s is ns =>
    rw [Check.program] at h
    have hsteps := hP.bind (balances_registerAll (Node.program s is ns).definitions) fun _ =>
      balances_visitAll fun n (_ : n ∈ ns) => balances_visit n
    rw [← bind_assoc] at h
    rcases error_of_bind h with hstop | ⟨_, _, -, hmodify⟩
    · exact (hsteps.ends k).error hstop
    · cases hmodify
  | _ =>
    cases h
    decide

end Check

/-! ## Programs -/

namespace Node

lemma types_of_parameters (hp : ∀ p ∈ ps, p.isPlainParameter = true) :
    ∀ {ts : List Ty}, ps.mapM parameterType = .ok ts →
      ts = (parameterTable ps).entries.map Prod.snd := by
  induction ps with
  | nil =>
    intro ts h
    cases h
    rfl
  | cons p ps ih =>
    intro ts h
    obtain ⟨hplain, hps⟩ := List.forall_mem_cons.1 hp
    rw [List.mapM_cons] at h
    obtain ⟨t, ht, h₁⟩ := answer_of_bind h
    obtain ⟨ts', hts', h₂⟩ := answer_of_bind h₁
    cases h₂
    cases p with
    | parameter s u name =>
      cases name with
      | plain x =>
        rw [ih hps hts', ← declaredType_of_denotedType ht]
        rfl
      | token x => cases hplain
    | _ => cases hplain

/-- A definition makes its name known with the types of its parameters and what it returns. -/
lemma IsOrderly.namedSignature_eq {d : Node} (hd : d.IsOrderly) {name : String} {f : Signature}
    {p : Position} (h : d.signature = .ok (name, f, p)) : d.namedSignature? = some (name, f) := by
  cases hd with
  | define s b returns id hp hb =>
    rw [signature] at h
    obtain ⟨ts, hts, h₁⟩ := answer_of_bind h
    obtain ⟨t, ht, h₂⟩ := answer_of_bind h₁
    cases h₂
    rw [namedSignature?, types_of_parameters hp hts, declaredType_of_denotedType ht]
  | _ => cases h

end Node

namespace Check

variable {k k' : Checker}

lemma registerAll_orderly {ds : List Node} : ∀ {k : Checker} {u : Unit}, (∀ d ∈ ds, d.IsOrderly) →
    registerAll ds k = .ok u k' → k' = { k with functions := k.functions.knowing ds } := by
  induction ds with
  | nil =>
    intro k u _ h
    cases h
    simp [Functions.knowing]
  | cons d ds ih =>
    intro k u hds h
    obtain ⟨hd, hds⟩ := List.forall_mem_cons.1 hds
    rw [registerAll] at h
    obtain ⟨a, hsignature, h₁⟩ := ask_ok h
    obtain ⟨name, f, p⟩ := a
    obtain ⟨_, k₂, hregister, h₂⟩ := ok_of_bind h₁
    obtain ⟨-, rfl⟩ := register_ok hregister
    rw [ih hds h₂]
    simp [Functions.knowing, Functions.add, hd.namedSignature_eq hsignature]

end Check

namespace Checker

open Check

/-- The checker with what the statements at the top of a program declare and define. -/
def knowing (k : Checker) (program : Node) (statements : List Node) : Checker where
  inner := []
  global := ⟨k.global.entries ++ statements.filterMap Node.declaration?⟩
  functions := k.functions.knowing program.definitions
  returns := .absent

lemma check_orderly {k k' : Checker} {is : List Nat} (hns : ∀ n ∈ ns, n.IsOrderly)
    (hk : k.inner = [])
    (h : k.check (.program s is ns) = ("", k')) : k' = k.knowing (.program s is ns) ns := by
  unfold check at h
  cases hp : Check.program (.program s is ns) k with
  | error stop k₁ =>
    -- a report is a line of its own
    rw [hp] at h
    simp at h
  | ok u k₁ =>
    rw [hp] at h
    cases h
    rw [Check.program] at hp
    have hds : ∀ d ∈ (Node.program s is ns).definitions, d.IsOrderly := fun d hd => by
      obtain ⟨i, -, hi⟩ := List.mem_filterMap.1 hd
      exact hns d (List.mem_of_getElem? hi)
    obtain ⟨_, k₂, hregister, h₁⟩ := ok_of_bind hp
    obtain rfl := registerAll_orderly hds hregister
    obtain ⟨_, k₃, hall, h₂⟩ := ok_of_bind h₁
    obtain rfl := visitAll_leads (fun n hn => leads_orderly (hns n hn)) hall
    cases h₂
    have hglobal := afterAll_global ns
      { k with functions := k.functions.knowing (Node.program s is ns).definitions } hk
    simp only [hglobal, knowing]

/-- Checking is scoped.  An expression leaves the checker as it is, whether it is accepted or not.
A statement that is accepted adds the variable that it declares, which is new there, to the
innermost scope and changes nothing else.  No scope is ever left that has not been entered.  A check
that starts outside of all scopes and prints nothing ends there, with the variables and the
functions of the program added. -/
theorem checking_is_scoped (k : Checker) :
    (∀ e : Node, e.isTerm = true →
      Ends (typed e (visit e) k) (fun _ k' => k' = k) (fun _ k' => k' = k)) ∧
    (∀ (n : Node) (t : Ty) (k' : Checker), n.IsOrderly → visit n k = .ok t k' →
      (n.declaration? = none → k' = k) ∧
      (∀ x type, n.declaration? = some (x, type) → x ∉ k.current.names ∧ k' = k.add x type)) ∧
    (∀ (n : Node) (stop : CheckStop) (k' : Checker), visit n k = .error stop k' ∨
      Check.program n k = .error stop k' →
      stop ≠ .fault .unbalanced) ∧
    (∀ (s : Span) (is : List Nat) (ns : List Node) (k' : Checker), (∀ n ∈ ns, n.IsOrderly) →
      k.inner = [] →
      k.check (.program s is ns) = ("", k') → k' = k.knowing (.program s is ns) ns) := by
  refine ⟨fun e he => ?_, fun n t k' hn h => ⟨fun hd => ?_, fun x type hd => ?_⟩, fun n stop k' h =>
    ?_, ?_⟩
  · exact (composes_stays.typed (stays_term he) e).ends k
  · rw [leads_orderly hn h, after_of_none k hd]
  · cases hn with
    | declare s type id hv =>
      cases hd
      exact declare_leads hv h
    | _ => cases hd
  · rcases h with h | h
    · exact ((balances_visit n).ends k).error h
    · exact program_not_unbalanced h
  · exact fun s is ns k' hns hk h => check_orderly hns hk h

end Checker

/-- `int x = 1;` -/
def Node.outside : Node :=
  .declare (.columns 0 3) (.type (.columns 0 0) "int") "x" (.int (.columns 3 3) 1)

/-- `func int f(float x) { if (true) { bool x = true; } return 2; }` -/
def Node.shadowing : Node :=
  .define (.columns 5 26) (.type (.columns 6 6) "int") "f"
    [.parameter (.columns 9 10) (.type (.columns 9 9) "float") (.plain "x")]
    (.block (.columns 12 26)
      [.branch (.columns 13 22) (.bool (.columns 15 15) true)
        (.block (.columns 17 22)
          [.declare (.columns 18 21) (.type (.columns 18 18) "bool") "x"
            (.bool (.columns 21 21) true)]) .missing,
        .giveBack (.columns 23 24) (.int (.columns 24 24) 2)])

/-- Of three variables with one name only that outside of the function is left behind. -/
theorem Checker.checking_is_scoped_shadowing :
    (∀ n ∈ [Node.outside, Node.shadowing], n.IsOrderly) ∧
      (({} : Checker).check (.program (.columns 0 26) [1] [.outside, .shadowing])).1 = "" ∧
      (({} : Checker).check (.program (.columns 0 26) [1] [.outside, .shadowing])).2
        = { global := ⟨[("x", .int)]⟩, functions := Functions.builtin.add "f" ⟨[.float], .int⟩ } ∧
      ∃ stop, Check.typed (.name (.columns 0 0) "x") (Check.visit (.name (.columns 0 0) "x"))
        {} = .error stop {} := by
  have horderly : ∀ n ∈ [Node.outside, Node.shadowing], n.IsOrderly := by
    simp only [List.mem_cons, List.not_mem_nil, or_false, forall_eq_or_imp, forall_eq]
    refine ⟨.declare _ _ _ rfl, .define _ _ _ _ (by decide) ?_⟩
    simp only [List.mem_cons, List.not_mem_nil, or_false, forall_eq_or_imp, forall_eq]
    refine ⟨.branch _ _ rfl ?_, .giveBackValue _ rfl⟩
    simp only [List.mem_cons, List.not_mem_nil, or_false, forall_eq]
    exact .declare _ _ _ rfl
  obtain ⟨hterm, -, -, hprogram⟩ := checking_is_scoped {}
  have hsilent : (({} : Checker).check (.program (.columns 0 26) [1] [.outside, .shadowing])).1
    = "" := rfl
  refine ⟨horderly, hsilent, hprogram _ _ _ _ horderly rfl (Prod.ext hsilent rfl), ?_⟩
  cases hv : Check.typed (.name (.columns 0 0) "x") (Check.visit (.name (.columns 0 0) "x")) {} with
  | ok t k' => cases hv
  | error stop k' =>
    obtain rfl := (hterm (.name (.columns 0 0) "x") rfl).error hv
    exact ⟨stop, rfl⟩

end AudLang
