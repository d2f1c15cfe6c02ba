import AudLang.Proofs.Agreement

/-!
Whole programs.

What is ready stays ready: the moments that a moment leads to are ready when it is, so that whatever
a discipline says of a moment that is ready holds at every moment of a run.  The run of a program
starts outside of every call, makes the definitions known and goes through the statements in order;
if the checker has accepted the program, each of them is ready when its turn comes.
-/

namespace AudLang

open Run Moment

variable {m m' : Machine} {after before : List Node} {d : Nat} {s : Span} {Γ : Declared}

/-! ## Parts of accepted nodes -/

namespace Checker.Sanctions

variable {k : Checker} {n e : Node}

/-- What a node visits first is an expression. -/
lemma first (h : k.Sanctions n) (hn : n.first? = some e) : ∃ t, k.Infers e t := by
  cases h with
  | expression h =>
    cases h.rule with
    | logical _ _ hl | operation _ _ _ hl => cases hn; exact ⟨_, hl⟩
    | negateInt _ he | negateFloat _ he => cases hn; exact ⟨_, he⟩
    | member _ ho => cases hn; exact ⟨_, ho⟩
    | _ => cases hn
  | statement h =>
    cases h.rule with
    | declare _ hv | assign _ _ _ hv | assignMember _ _ _ _ hv => cases hn; exact ⟨_, hv⟩
    | call _ he | expression _ he => cases hn; exact ⟨_, he⟩
    | branch _ _ hc | branchElse _ _ _ hc => cases hn; exact ⟨_, hc⟩
    | giveBackValue _ _ he =>
      simp only [Node.first?, he.expression.isPresent, if_true] at hn
      cases hn
      exact ⟨_, he⟩
    | _ => cases hn
  | block => cases hn

/-- What a node collects are expressions. -/
lemma items (h : k.Sanctions n) (he : e ∈ n.items) : ∃ t, k.Infers e t := by
  cases h with
  | expression h =>
    cases h.rule with
    | list _ _ _ hes =>
      obtain ⟨u, hu, -⟩ := hes e he
      exact ⟨u, hu⟩
    | call _ _ _ ha | method _ _ _ _ ha => exact Discipline.World.exists_of_suits ha e he
    | construct _ _ ha => exact ⟨_, List.mem_singleton.mp he ▸ ha⟩
    | _ => cases he
  | statement h => cases h.rule <;> cases he
  | block => cases he

end Checker.Sanctions

/-! ## The moments of a run -/

namespace Discipline.World

variable {fuel : Nat} {L : Discipline fuel} {W : L.World} {k : Checker} {c c' : Moment}

lemma Ready.ne_program {k : Checker} {c : Moment} (hk : W.Ready k c) (s : Span)
    (is : List Nat) (ns : List Node) : c.node ≠ .program s is ns := by
  intro hn
  have hs := hk.sanctioned
  rw [hn] at hs
  cases hs with
  | expression h => cases h.expression
  | statement h => cases h.statement

lemma soundBelow (W : L.World) (c : Moment) : W.SoundBelow c := fun _ _ _ hk => sound hk

/-- The machine is kept while the first part is visited. -/
lemma Ready.kept_of_first {e : Node} (hk : W.Ready k c) (hn : c.node.first? = some e)
    (hv : visitAt fuel c.depth e c.machine = .ok () m') : W.Kept c m' := by
  obtain ⟨t, ht⟩ := hk.sanctioned.first hn
  exact (((W.soundBelow c).expression hk hk.kept (Checker.comes_of_first hn) ht
    (.first hn)).ok hv).1.toKept

lemma Ready.kept_of_values {rs : List Ref} (hk : W.Ready k c)
    (hitems : c.node.items = before ++ after)
    (hv : valuesAt fuel c.depth before c.machine = .ok rs m') : W.Kept c m' := by
  refine (((W.soundBelow c).values hk [] after hitems rfl hk.kept fun a ha => ?_).ok hv).1
  exact hk.sanctioned.items (by rw [hitems]; exact List.mem_append_left _ ha)

/-- Going through rounds of a loop keeps the machine. -/
lemma Ready.kept_of_rounds {i : Nat} {b : Span} {a : Node} {body : List Node} {t : Ty}
    (hk : W.Ready k ⟨d, .loop s a (.block b body), Γ, m⟩) (ha : k.Infers a t)
    (hb : k.enter.AdmitsAll body)
    (hi : i ≤ fuel) (hr : Rounds (holds (visitAt fuel d a)) (visitAt fuel d (.block b body)) i m
      m') :
    W.Kept ⟨d, .loop s a (.block b body), Γ, m⟩ m' := by
  have ih := W.soundBelow ⟨d, .loop s a (.block b body), Γ, m⟩
  induction hr with
  | none => exact hk.kept
  | @more i m m₁ m₂ m₃ hr hc hs hreturn ihr =>
    have hm₁ := ihr hk (by omega) ih
    have hm₂ := ((ih.holds hk hm₁ (.single (by simp [Checker.below, Node.parts])) ha
      (.condition hi hr)).ok hc).1
    have hm₃ := (ih.block hk hm₂ rfl (.single (by simp [Checker.below, Node.parts])) hb
      (.round hi hr hc)).ok hs
    exact ⟨⟨hm₃.intact, hreturn⟩, hm₃.evolves⟩

/-- The machine is kept while the first statements of a block are visited. -/
lemma Ready.steady_of_visitBlock {m₁ : Machine}
    (hk : W.Ready k ⟨d, .block s (before ++ after), Γ, m⟩)
    (hb : k.enter.AdmitsAll (before ++ after)) (he : enter m = .ok () m₁)
    (hv : visitBlock (bodyAt fuel d) fuel before m₁ = .ok () m') (hr : m'.returning = none) :
    W.Steady d (Γ.enter.afterAll before) m' := by
  obtain rfl : m.updateCurrent (fun c => { c with inner := {} :: c.inner }) = m₁ := by
    injection he
  have hevolves : L.evolves m.store
      (m.updateCurrent fun c => { c with inner := {} :: c.inner }).store := by
    rw [Machine.updateCurrent_store]
    exact L.evolves_of_keeps (.refl _)
  obtain ⟨ns, hm', -, hns, -⟩ := ((W.soundBelow _).visitBlock hk he [] rfl rfl hk.steady.enter
    hevolves (Checker.admitsAll_append.mp hb).1).ok hv
  obtain rfl : ns = before := hns hr
  exact ⟨hm', hr⟩

variable {t u : Span} {id id' : String} {returns b : Node} {args ps : List Node} {m₁ m₂ : Machine}
  {rs : List Ref}

/-- A function that is called is one that the program defines, and the arguments suit it. -/
lemma Ready.callable (hk : W.Ready k ⟨d, .call s (.name t id) args, Γ, m⟩)
    (ha : valuesAt fuel d args m = .ok rs m₁)
    (hf : callee id t.start m₁ = .ok (.defined (.define u returns id' ps b)) m₁) :
    ∃ b' body k₀, b = .block b' body ∧ (id', .define u returns id' ps b) ∈ W.defined ∧
      W.Callable k₀ returns ps b' body ∧ W.Steady d Γ m₁ ∧
      k.Suits args ((Node.parameterTable ps).entries.map Prod.snd) ∧
      List.Forall₂ (L.describes m₁.store) rs ((Node.parameterTable ps).entries.map Prod.snd) := by
  cases hk.sanctioned with
  | statement h => cases h.statement
  | expression h =>
    cases h.rule with
    | @call _ _ _ _ f hget hargs =>
      obtain ⟨hm₁, hd₁⟩ := ((W.soundBelow _).items hk (exists_of_suits hargs)).ok ha
      rw [hk.placed.functions] at hget
      rcases W.lookup hget with ⟨b', hb, -⟩ | ⟨hb, n, hn, hmem, hentry⟩
      · simp only [callee, hb] at hf
        cases hf
      · simp only [callee, hb, bind_run, get_run, hm₁.steady.functions, hn] at hf
        cases hf
        obtain ⟨_, _, _, b', body, k₀, heq, rfl, hcallable⟩ := callable_of_mem hmem hentry
        cases heq
        exact ⟨b', body, k₀, rfl, hmem, hcallable, hm₁.steady, hargs, describes_of_suits hargs hd₁⟩

/-- Where a function is called, its body is ready. -/
lemma Ready.body (hk : W.Ready k ⟨d + 1, .call s (.name t id) args, Γ, m⟩)
    (ha : valuesAt fuel (d + 1) args m = .ok rs m₁)
    (hf : callee id t.start m₁ = .ok (.defined (.define u returns id' ps b)) m₁)
    (hc : pushContext id' s.start m₁ = .ok () m₂)
    (hp : declareParameters ps rs m₂ = .ok () m') : ∃ k', W.Ready k' ⟨d, b, Γ.call ps, m'⟩ := by
  obtain ⟨b', body, k₀, rfl, hmem, hcallable, hm₁, -, hrs⟩ := hk.callable ha hf
  rcases open_run id' s.start hm₁ hcallable.parameters hcallable.distinct hrs with
    hdeep | ⟨d', m₃, m₄, hd, hpush, hdeclare, -, hm₄⟩
  · cases hc.symm.trans hdeep
  · cases hd
    cases hc.symm.trans hpush
    cases hp.symm.trans hdeclare
    exact ⟨_, hcallable.ready hmem hk.placed hm₄⟩

/-- The moments that a moment leads to are ready when it is. -/
lemma ready_of_enters (hk : W.Ready k c) (hc : Enters fuel c c') : ∃ k', W.Ready k' c' := by
  have ih := W.soundBelow c
  cases hc with
  | first hn =>
    obtain ⟨t, ht⟩ := hk.sanctioned.first hn
    exact ⟨k, hk.part hk.kept (Checker.comes_of_first hn) (.expression ht)⟩
  | @item d n e before after Γ m m' rs hn hb =>
    have hmem : e ∈ n.items := by rw [hn]; simp
    obtain ⟨t, ht⟩ := hk.sanctioned.items hmem
    exact ⟨k, hk.part (hk.kept_of_values hn hb) (Checker.comes_of_items hmem) (.expression ht)⟩
  | right hl =>
    have hm := hk.kept_of_first rfl hl
    cases hk.sanctioned with
    | statement h => cases h.statement
    | expression h =>
      cases h.rule with
      | logical _ _ _ hr | operation _ _ _ _ hr =>
        exact ⟨k, hk.part hm (.single (by simp [Checker.below, Node.parts])) (.expression hr)⟩
  | receiver ha =>
    have hm := hk.kept_of_values (List.append_nil _).symm ha
    cases hk.sanctioned with
    | statement h => cases h.statement
    | expression h =>
      cases h.rule with
      | method _ _ ho =>
        exact ⟨k, hk.part hm (Checker.comes_of_member (List.mem_map_of_mem List.mem_cons_self))
          (.expression ho)⟩
  | owner he =>
    have hm := hk.kept_of_first rfl he
    cases hk.sanctioned with
    | expression h => cases h.expression
    | statement h =>
      cases h.rule with
      | assignMember _ _ ho =>
        exact ⟨k, hk.part hm (Checker.comes_of_member (List.mem_map_of_mem List.mem_cons_self))
          (.expression ho)⟩
  | onTrue hv =>
    have hm := hk.kept_of_first rfl hv
    cases hk.sanctioned with
    | expression h => cases h.expression
    | statement h =>
      cases h.rule with
      | branch _ b _ _ hb | branchElse _ b _ _ _ hb =>
        exact ⟨k, hk.part hm (.single (by simp [Checker.below, Node.parts])) (.block b hb)⟩
  | onFalse hv ht hb =>
    have hm := hk.kept_of_first rfl hv
    cases hk.sanctioned with
    | expression h => cases h.expression
    | statement h =>
      cases h.rule with
      | branch => cases hb
      | branchElse _ _ b _ _ _ ho =>
        exact ⟨k, hk.part hm (.single (by simp [Checker.below, Node.parts])) (.block b ho)⟩
  | condition hi hr =>
    cases hk.sanctioned with
    | expression h => cases h.expression
    | statement h =>
      cases h.rule with
      | loop _ b ha _ hb =>
        have hm := hk.kept_of_rounds ha hb (Nat.le_of_lt hi) hr
        exact ⟨k, hk.part hm (.single (by simp [Checker.below, Node.parts])) (.expression ha)⟩
  | round hi hr hv =>
    cases hk.sanctioned with
    | expression h => cases h.expression
    | statement h =>
      cases h.rule with
      | loop _ b ha _ hb =>
        have hm := hk.kept_of_rounds ha hb (Nat.le_of_lt hi) hr
        have hm' := ((ih.holds hk hm (.single (by simp [Checker.below, Node.parts])) ha
          (.condition hi hr)).ok hv).1
        exact ⟨k, hk.part hm' (.single (by simp [Checker.below, Node.parts])) (.block b hb)⟩
  | statement hns he hv hr =>
    subst hns
    cases hk.sanctioned with
    | expression h => cases h.expression
    | statement h => cases h.statement
    | block _ hb =>
      exact ⟨_, hk.statement rfl (Checker.admitsAll_append.mp hb).2.1
        (hk.steady_of_visitBlock hb he hv hr)⟩
  | body ha hf hpush hp => exact hk.body ha hf hpush hp
  | top hns hn hr hb => cases hk.sanctioned with
    | expression h => cases h.expression
    | statement h => cases h.statement

lemma ready_of_reaches (hc : Reaches fuel c c') : ∀ {k}, W.Ready k c → ∃ k', W.Ready k' c' := by
  induction hc with
  | here => exact fun hk => ⟨_, hk⟩
  | step h _ ih =>
    intro k hk
    obtain ⟨k', hk'⟩ := ready_of_enters hk h
    exact ih hk'

end Discipline.World

/-! ## Definitions -/

/-- A definition with the name that it is known by. -/
def Node.named? : Node → Option (String × Node)
  | .define s returns id parameters body => some (id, .define s returns id parameters body)
  | _ => none

namespace Node

lemma map_named?_eq_filter (ns : List Node) :
    (ns.filterMap named?).map Prod.snd = ns.filter isDefinition := by
  have hnamed (n : Node) : (named? n).map Prod.snd = if isDefinition n then some n else none := by
    cases n <;> rfl
  rw [List.map_filterMap, ← List.filterMap_eq_filter]
  congr 1
  funext n
  rw [hnamed, Option.guard]

lemma mem_named? {ns : List Node} {x : String} {n : Node} (h : (x, n) ∈ ns.filterMap named?) :
    n ∈ ns ∧ ∃ s returns ps body, n = .define s returns x ps body := by
  obtain ⟨n', hn', h'⟩ := List.mem_filterMap.mp h
  cases n' <;> cases h'
  exact ⟨hn', _, _, _, _, rfl⟩

end Node

lemma Builtin.isSome_ofName?_iff (id : String) :
    (ofName? id).isSome = true ↔ id ∈ Functions.builtin.names := by
  rw [← Functions.get?_isSome_iff, Builtin.get?_builtin, Option.isSome_map]

/-- Definitions become known in their order if their names are new. -/
lemma Run.registerAll_run {ds : List Node} : ∀ {m : Machine}, (∀ d ∈ ds, d.isDefinition = true) →
    (Functions.builtin.names ++ m.functions.map Prod.fst
      ++ (ds.filterMap Node.named?).map Prod.fst).Nodup →
    registerAll ds m = .ok () { m with functions := m.functions ++ ds.filterMap Node.named? } := by
  induction ds with
  | nil =>
    intro m _ _
    simp [registerAll]
  | cons d ds ih =>
    intro m hds hn
    match d, hds d List.mem_cons_self with
    | .define s returns id ps body, _ =>
      have hfresh : id ∉ Functions.builtin.names ∧ id ∉ m.functions.map Prod.fst := by
        simp only [Node.named?, List.filterMap_cons, List.map_cons] at hn
        have hid := (List.nodup_append.mp hn).2.2
        exact ⟨fun h => hid id (List.mem_append_left _ h) id List.mem_cons_self rfl,
          fun h => hid id (List.mem_append_right _ h) id List.mem_cons_self rfl⟩
      have hbuiltin : (Builtin.ofName? id).isSome = false :=
        Bool.eq_false_iff.mpr fun h => hfresh.1 ((Builtin.isSome_ofName?_iff id).mp h)
      have hlookup : (m.functions.lookup id).isSome = false := by
        refine Bool.eq_false_iff.mpr fun h => hfresh.2 ?_
        simpa [List.lookup_isSome_iff] using h
      have hregister : register id (.define s returns id ps body) m
          = .ok () { m with functions := m.functions ++ [(id, .define s returns id ps body)] } := by
        simp only [register, bind_run, get_run, hbuiltin, hlookup]
        rfl
      rw [registerAll]
      simp only [Node.definedName, ask, pure_bind, bind_of_ok hregister]
      rw [ih fun d hd => hds d (List.mem_cons_of_mem _ hd)]
      · simp [Node.named?]
      · simpa [Node.named?] using hn

/-! ## Accepted programs -/

/-- The variables behind some statements of a program. -/
lemma Declared.afterAll_module (ns : List Node) : ∀ t : Table,
    ({ module := { base := t } } : Declared).afterAll ns
      = { module := { base := ⟨t.entries ++ ns.filterMap Node.declaration?⟩ } } := by
  induction ns with
  | nil => intro t; simp [afterAll]
  | cons n ns ih =>
    intro t
    cases hd : n.declaration? with
    | none =>
      rw [List.filterMap_cons_none hd, ← ih t]
      exact congrArg (·.afterAll ns) (after_of_none _ hd)
    | some e =>
      obtain ⟨x, type⟩ := e
      have hafter : ({ module := { base := t } } : Declared).after n
          = { module := { base := t.add x type } } := by
        cases n <;> cases hd
        rfl
      rw [List.filterMap_cons_some hd]
      refine (congrArg (·.afterAll ns) hafter).trans ?_
      rw [ih]
      simp [Table.add]

/-- The checker that comes to the first statement of a program. -/
def Checker.initial (ns : List Node) : Checker :=
  { functions := .knowing .builtin (ns.filter Node.isDefinition) }

/-- The checker behind some statements of a program. -/
lemma Checker.afterAll_initial (ns before : List Node) :
    (initial ns).afterAll before
      = { initial ns with global := ⟨before.filterMap Node.declaration?⟩ } := by
  rw [afterAll_global before (initial ns) rfl]
  rfl

namespace Discipline

variable {fuel : Nat} {L : Discipline fuel} {ns : List Node}

/-- A program whose statements the checker accepts, and which keeps to the discipline. -/
structure Accepts (L : Discipline fuel) (ns : List Node) : Prop where
  distinct : (Functions.builtin.knowing (ns.filter Node.isDefinition)).names.Nodup
  admits : (Checker.initial ns).AdmitsAll ns
  allows : ∀ before n after, ns = before ++ n :: after →
    L.allows ((Checker.initial ns).afterAll before) n

lemma Accepts.of_check {program : Node} (hp : program.IsProgram)
    (hc : (({} : Checker).check program).1 = "") (hl : L.allows {} program) :
    ∃ s ns, program = .program s (Parser.definitionIndexes ns) ns ∧ L.Accepts ns := by
  obtain ⟨s, ns, rfl, hn, ha⟩ := Check.program_ok hp hc
  refine ⟨s, ns, rfl, hn, ha, fun before n after h => L.allows_below hl ?_⟩
  rw [Checker.below, Node.definitions_program]
  exact Checker.mem_along.mpr ⟨before, after, h, rfl⟩

/-- The functions and the global variables of a program. -/
def Accepts.world (h : L.Accepts ns) : L.World where
  signatures := .knowing .builtin (ns.filter Node.isDefinition)
  defined := ns.filterMap Node.named?
  globals := ⟨ns.filterMap Node.declaration?⟩
  known := by rw [Node.map_named?_eq_filter]
  distinct := h.distinct
  named := fun _ _ hmem => (Node.mem_named? hmem).2
  checked := fun x n hmem => by
    obtain ⟨before, after, hns⟩ := List.append_of_mem (Node.mem_named? hmem).1
    refine ⟨(Checker.initial ns).afterAll before, ?_, ?_, ?_, ?_, h.allows before n after hns⟩
    · rw [Checker.afterAll_initial]
      rfl
    · rw [Checker.afterAll_initial]
      rfl
    · rw [Checker.afterAll_initial, hns, List.filterMap_append]
      exact List.prefix_append _ _
    · have hadmits := h.admits
      nth_rewrite 2 [hns] at hadmits
      exact (Checker.admitsAll_append.mp hadmits).2.1

end Discipline

/-- The moment at which the run of a program starts. -/
def Moment.start (program : Node) (m : Machine) : Moment :=
  ⟨m.depthLimit.toNat, program, {}, m⟩

lemma Moment.Enters.of_program {fuel : Nat} {is : List Nat} {ns : List Node} {c : Moment}
    (h : Enters fuel ⟨d, .program s is ns, Γ, m⟩ c) :
    ∃ n before after m₁ m', ns = before ++ n :: after ∧
      registerAll (Node.program s is ns).definitions m = .ok () m₁ ∧
      visitTop (bodyAt fuel d) fuel before m₁ = .ok () m' ∧ c = ⟨d, n, Γ.afterAll before, m'⟩ := by
  cases h with
  | first h => cases h
  | item h => simp [Node.items] at h
  | top hns hn hr hb => exact ⟨_, _, _, _, _, hns, hr, hb, rfl⟩

/-- A machine that has not run anything yet. -/
def Machine.fresh (depthLimit : Int) (input : Input) (files : Files) : Machine :=
  { depthLimit, input, files }

lemma Machine.tree_of_stopped {fuel : Nat} {program : Node} {e : Stop}
    (h : (m.interpret fuel program).1 = .stopped e) :
    ∃ m', Run.tree fuel program m = .error e m' := by
  unfold Machine.interpret at h
  split at h
  · cases h
  · cases h
    exact ⟨_, ‹_›⟩

namespace Discipline.Accepts

variable {fuel : Nat} {L : Discipline fuel} {ns : List Node} (h : L.Accepts ns) (s : Span)
  (limit : Int)
  (input : Input) (files : Files)

/-- The first moment of a run of the program. -/
abbrev root (_ : L.Accepts ns) (s : Span) (limit : Int) (input : Input) (files : Files) : Moment :=
  .start (.program s (Parser.definitionIndexes ns) ns) (.fresh limit input files)

/-- The machine on which the first statement is visited. -/
abbrev first (_ : L.Accepts ns) (limit : Int) (input : Input) (files : Files) : Machine :=
  { Machine.fresh limit input files with functions := ns.filterMap Node.named? }

lemma registerAll_run :
    registerAll (Node.program s (Parser.definitionIndexes ns) ns).definitions
      (.fresh limit input files) = .ok () (h.first limit input files) := by
  have hentries : (ns.filter Node.isDefinition).filterMap Node.named? = ns.filterMap
    Node.named? := by
    rw [List.filterMap_filter]
    congr 1
    funext n
    cases n <;> rfl
  have hnames : (ns.filterMap Node.named?).map Prod.fst
      = ((ns.filter Node.isDefinition).filterMap Node.namedSignature?).map Prod.fst := by
    rw [List.filterMap_filter, List.map_filterMap, List.map_filterMap]
    congr 1
    funext n
    cases n <;> rfl
  have hdistinct := h.distinct
  rw [Node.definitions_program, Run.registerAll_run fun d hd => (List.mem_filter.mp hd).2]
  · rw [hentries]
    rfl
  · rw [hentries, hnames]
    simpa [Functions.names, Functions.knowing, Machine.fresh] using hdistinct

lemma steady_first : h.world.Steady limit.toNat {} (h.first limit input files) where
  fits := ⟨⟨.nil, .empty⟩, .nil⟩
  functions := rfl
  depth := Nat.le_add_right _ _
  returning := rfl

variable {h s limit input files}

/-- A statement of the program is ready when its turn comes. -/
lemma ready_top {n : Node} (hns : ns = before ++ n :: after)
    (hm : h.world.Steady d (({} : Declared).afterAll before) m) :
    h.world.Ready ((Checker.initial ns).afterAll before) ⟨d, n, ({} : Declared).afterAll before, m⟩
      where
  sanctioned := by
    have hadmits := h.admits
    nth_rewrite 2 [hns] at hadmits
    exact .statement (Checker.admitsAll_append.mp hadmits).2.1
  allowed := h.allows before n after hns
  placed := by
    have hsegment : before.filterMap Node.declaration? <+: ns.filterMap Node.declaration? := by
      rw [hns, List.filterMap_append]
      exact List.prefix_append _ _
    rw [Checker.afterAll_initial, Declared.afterAll_module before {}]
    exact ⟨rfl, hsegment, hsegment, fun _ => ⟨rfl, rfl⟩, fun f fs hcalls => by cases hcalls⟩
  steady := hm
  inside := fun hcalls => by
    rw [Declared.afterAll_module before {}] at hcalls
    exact absurd rfl hcalls

/-- Going on with a program of which some statements have been visited. -/
lemma visitTop_ends {rest : List Node} : ∀ (before : List Node) {m : Machine},
    ns = before ++ (rest ++ after) →
    visitTop (bodyAt fuel limit.toNat) fuel before (h.first limit input files) = .ok () m →
    h.world.Steady limit.toNat (({} : Declared).afterAll before) m →
    Ends (visitTop (bodyAt fuel limit.toNat) fuel rest m)
      (fun _ m' => h.world.Steady limit.toNat (({} : Declared).afterAll (before ++ rest)) m')
      (h.world.Blame (h.root s limit input files)) := by
  induction rest with
  | nil =>
    intro before m _ _ hm
    rw [List.append_nil]
    exact hm
  | cons n rest ih =>
    intro before m hns hbefore hm
    have happend : (({} : Declared).afterAll before).after n
        = ({} : Declared).afterAll (before ++ [n]) := by simp [Declared.afterAll]
    have hvisited : ∀ {m'}, visitTop (bodyAt fuel limit.toNat) fuel [n] m = .ok () m' →
        visitTop (bodyAt fuel limit.toNat) fuel (before ++ [n]) (h.first limit input files)
          = .ok () m' := fun hn => by
      rw [visitTop_append hbefore]
      exact hn
    have hnext := fun {m'} => ih (before ++ [n]) (m := m') (by rw [hns]; simp)
    rw [List.append_assoc, List.singleton_append] at hnext
    cases hn : n.isDefinition with
    | true =>
      have hafter : (({} : Declared).afterAll before).after n = ({} : Declared).afterAll
        before := by
        cases n <;> first | rfl | cases hn
      rw [visitTop_definition hn]
      refine hnext (hvisited ?_) (by rwa [← happend, hafter])
      rw [visitTop_definition hn]
      rfl
    | false =>
      have hc : Enters fuel (h.root s limit input files)
          ⟨limit.toNat, n, ({} : Declared).afterAll before, m⟩ :=
        .top hns hn (registerAll_run h s limit input files) hbefore
      have hsound := World.sound (ready_top hns hm)
      rw [visitTop_other hn, ← visitAt]
      change Ends (visitAt fuel limit.toNat n m) _ _ at hsound
      cases hv : visitAt fuel limit.toNat n m with
      | error e m' =>
        rw [hv] at hsound
        exact World.Blame.enters hc hsound
      | ok u m' =>
        rw [hv] at hsound
        have hreturning : m'.returning = none := by
          cases hr : m'.returning with
          | none => rfl
          | some r =>
            -- outside of functions the checker knows of nothing to return
            obtain ⟨-, hp, -⟩ := hsound.returned r hr
            rw [Checker.afterAll_initial] at hp
            cases hp
        simp only [hreturning]
        refine hnext (hvisited ?_) ⟨happend ▸ hsound.intact, hreturning⟩
        rw [visitTop_other hn, ← visitAt]
        simp only [hv, hreturning]
        rfl

/-- How the run of an accepted program ends. -/
lemma ends : Ends ((h.root s limit input files).run fuel)
    (fun _ m => h.world.Steady limit.toNat (({} : Declared).afterAll ns) m)
    (h.world.Blame (h.root s limit input files)) := by
  show Ends (visitAt fuel limit.toNat (.program s (Parser.definitionIndexes ns) ns)
    (.fresh limit input files)) _ _
  rw [visitAt, visit, bind_of_ok (registerAll_run h s limit input files)]
  exact visitTop_ends [] (List.append_nil ns).symm rfl (steady_first h limit input files)

/-- Whatever a run of an accepted program comes to is ready. -/
lemma ready_of_reaches {c : Moment} (hc : Reaches fuel (h.root s limit input files) c) :
    c = h.root s limit input files ∨ ∃ k, h.world.Ready k c := by
  cases hc with
  | here => exact .inl rfl
  | step henters hreaches =>
    right
    obtain ⟨n, before, after, m₁, m', hns, hr, hb, rfl⟩ := henters.of_program
    cases hr.symm.trans (registerAll_run h s limit input files)
    have hm := (visitTop_ends (s := s) [] hns rfl (steady_first h limit input files)).ok hb
    exact World.ready_of_reaches hreaches (ready_top hns hm)

end Discipline.Accepts

end AudLang
