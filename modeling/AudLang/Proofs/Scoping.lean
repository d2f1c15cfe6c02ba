import AudLang.Proofs.Programs

/-!
Scoping.

The checker resolves the names of a program once, in the order of the source.  A run resolves them
again at every call and in every round of a loop, and it comes to the body of a function when the
function is called, which may be before or after the global declarations that stand above the
function.  Main statement: names that the checker has accepted are resolved by every run, except for
a global variable that a function refers to while the run has not got through the declaration of the
variable.
-/

namespace AudLang

open Run Moment

/-! ## The discipline of names -/

lemma Run.Quiet.ends_nameless {α : Type} {x : Run α} (hx : Quiet x) (m : Machine) :
    Ends (x m) (fun _ _ => True) (fun e _ => e.isAboutNames = false) :=
  (hx.ends m).weaken (fun _ _ _ _ => trivial) (fun _ _ _ h => h.2.nameless)

/-- Nothing is said about values, every program is allowed, and a run may stop for any reason that
is not about names. -/
def Discipline.naming (fuel : Nat) : Discipline fuel where
  describes := fun _ _ _ => True
  evolves := fun _ _ => True
  allows := fun _ _ => True
  excuses := fun _ e => e.isAboutNames = false
  evolves_trans := fun _ _ => trivial
  evolves_of_keeps := fun _ => trivial
  evolves_put := fun _ _ => trivial
  describes_of_evolves := fun _ _ => trivial
  describes_of_accepts := fun _ _ => trivial
  describes_literal := fun _ => trivial
  describes_null := fun _ => trivial
  describes_list := fun _ => trivial
  allows_below := fun _ _ => trivial
  operate := fun _ _ _ _ _ _ _ _ _ => plain_operate.quiet.ends_nameless _
  negate := fun _ _ => plain_negate.quiet.ends_nameless _
  member := fun _ _ =>
    (plain_requireObject.quiet.bind fun _ => plain_getAttribute.quiet).ends_nameless _
  excuses_readOnly := fun _ _ => rfl
  method := fun _ _ _ _ _ _ _ =>
    (plain_requireObject.quiet.bind fun _ => plain_callMethod.quiet).ends_nameless _
  construct := fun _ _ _ _ => plain_construct.quiet.ends_nameless _
  builtin := fun _ => plain_callBuiltin.quiet.ends_nameless _
  takeReturned := fun _ _ _ => plain_takeReturned.quiet.ends_nameless _
  excuses_tooDeep := rfl
  excuses_exhausted := fun _ => rfl

/-! ## Statements that a run has got through -/

/-- The run of a program has got through its first statements. -/
def Machine.Passes (fuel : Nat) (program : Node) (m : Machine) (passed : List Node) (m' : Machine) :
    Prop :=
  ∃ m₀, registerAll program.definitions m = .ok () m₀ ∧
    visitTop (bodyAt fuel m.depthLimit.toNat) fuel passed m₀ = .ok () m'

/-- Inside of a statement the global variables stay the same. -/
lemma Moment.Enters.base {fuel : Nat} {c c' : Moment} (h : Enters fuel c c')
    (hc : ∀ s is ns, c.node ≠ .program s is ns) :
    c'.declared.module.base = c.declared.module.base := by
  cases h with
  | @statement d s n ns before after Γ =>
    show (Γ.enter.afterAll before).module.base = Γ.module.base
    rw [Declared.afterAll_enter, Declared.updateCurrent]
    cases Γ.calls <;> rfl
  | top => exact absurd rfl (hc _ _ _)
  | _ => rfl

namespace Discipline

variable {fuel : Nat} {L : Discipline fuel} {W : L.World} {ns : List Node}

lemma World.Ready.base_of_reaches {c c' : Moment} (h : Reaches fuel c c') :
    ∀ {k}, W.Ready k c → c'.declared.module.base = c.declared.module.base := by
  induction h with
  | here => exact fun _ => rfl
  | step h _ ih =>
    intro k hk
    obtain ⟨k', hk'⟩ := ready_of_enters hk h
    rw [ih hk', h.base hk.ne_program]

/-- A moment of a run belongs to one of the statements of the program, and the global variables are
those that the statements before it declare. -/
lemma Accepts.passes_of_reaches (h : L.Accepts ns) {s : Span} {limit : Int} {input : Input}
    {files : Files} {c : Moment} (hc : Reaches fuel (h.root s limit input files) c)
    (hroot : c.declared.calls ≠ []) :
    ∃ passed n rest m, ns = passed ++ n :: rest ∧
      (Machine.fresh limit input files).Passes fuel (.program s (Parser.definitionIndexes ns) ns)
        passed m ∧
      Reaches fuel ⟨limit.toNat, n, ({} : Declared).afterAll passed, m⟩ c ∧
      c.declared.module.base = ⟨passed.filterMap Node.declaration?⟩ := by
  cases hc with
  | here => exact absurd rfl hroot
  | step henters hreaches =>
    obtain ⟨n, passed, rest, m₁, m, hns, hr, hb, rfl⟩ := henters.of_program
    refine ⟨passed, n, rest, m, hns, ⟨m₁, hr, hb⟩, hreaches, ?_⟩
    cases hr.symm.trans (registerAll_run h s limit input files)
    have hm := (visitTop_ends (s := s) [] hns rfl (steady_first h limit input files)).ok hb
    rw [World.Ready.base_of_reaches hreaches (ready_top hns hm)]
    show (({} : Declared).afterAll passed).module.base = _
    rw [Declared.afterAll_module passed {}]
    rfl

end Discipline

/-! ## Names that a run cannot resolve -/

lemma Node.exists_declare {ns : List Node} {name : String} :
    name ∈ (⟨ns.filterMap declaration?⟩ : Table).names ↔
      ∃ s type value, .declare s type name value ∈ ns := by
  unfold Table.names
  constructor
  · intro h
    obtain ⟨⟨x, t⟩, hmem, rfl⟩ := List.mem_map.mp h
    obtain ⟨n, hn, heq⟩ := List.mem_filterMap.mp hmem
    cases n <;> cases heq
    exact ⟨_, _, _, hn⟩
  · rintro ⟨s, type, value, hmem⟩
    exact List.mem_map.mpr ⟨_, List.mem_filterMap.mpr ⟨_, hmem, rfl⟩, rfl⟩

/-- A reference stands in the body of a function and means a global variable, but none of the
statements that have been passed declares it. -/
structure Node.RefersEarly (ns passed : List Node) (reference : Node) (name : String) : Prop where
  inside : ∃ s returns f parameters body,
    .define s returns f parameters body ∈ ns ∧ reference.Within body
  declared : ∃ s type value, .declare s type name value ∈ ns
  pending : ∀ s type value, .declare s type name value ∉ passed

/-- The run of a program gets through some of its statements, and in the next one it stops where a
variable is looked up early. -/
def Machine.StopsEarly (fuel : Nat) (program : Node) (m₀ : Machine) (name : String) (p : Position) :
    Prop :=
  ∃ s is passed n rest m₁ c m, program = .program s is (passed ++ n :: rest) ∧
    m₀.Passes fuel program passed m₁ ∧
    Reaches fuel ⟨m₀.depthLimit.toNat, n, ({} : Declared).afterAll passed, m₁⟩ c ∧
    c.LooksUp fuel name p m ∧ c.run fuel = .error (.failed (.undeclared name) (some p)) m ∧
    Node.RefersEarly (passed ++ n :: rest) passed c.node name

/-- If a run stops over a name, then over a global variable that is looked up early. -/
lemma Discipline.Accepts.stopsEarly {fuel : Nat} {ns : List Node} {s : Span} {limit : Int}
    {input : Input} {files : Files} {e : Stop} {m : Machine} (h : (naming fuel).Accepts ns)
    (hrun : (h.root s limit input files).run fuel = .error e m) (he : e.isAboutNames = true) :
    ∃ name p, e = .failed (.undeclared name) (some p) ∧
      (Machine.fresh limit input files).StopsEarly fuel
        (.program s (Parser.definitionIndexes ns) ns) name p := by
  obtain ⟨c, hreaches, -, hcause⟩ := h.ends.error hrun
  cases hcause with
  | excused hexcused => exact absurd (hexcused.symm.trans he) Bool.false_ne_true
  | @late name p _ hlate =>
    refine ⟨name, p, rfl, ?_⟩
    obtain ⟨passed, n, rest, m₁, hns, hpasses, hreach, hbase⟩ :=
      h.passes_of_reaches hreaches hlate.inside
    have hinside : ∃ u returns f ps body, .define u returns f ps body ∈ ns ∧
      c.node.Within body := by
      rcases h.ready_of_reaches hreaches with hroot | ⟨k, hk⟩
      · exact absurd (by rw [hroot]; rfl) hlate.inside
      · obtain ⟨u, returns, f, ps, body, hmem, hwithin⟩ := hk.inside hlate.inside
        exact ⟨u, returns, f, ps, body, (Node.mem_named? hmem).1, hwithin⟩
    have hpending : ∀ t type value, .declare t type name value ∉ passed := by
      intro t type value hmem
      apply hlate.missing
      rw [hbase]
      exact Node.exists_declare.mpr ⟨t, type, value, hmem⟩
    exact ⟨s, _, passed, n, rest, m₁, c, m, by rw [← hns], hpasses, hreach, hlate.reference,
      hlate.reference.run_eq hlate.unbound,
      hns ▸ ⟨hinside, Node.exists_declare.mp hlate.known, hpending⟩⟩

/-- Every name that the checker has accepted is resolved by the run, except for global variables
that functions refer to early. -/
theorem undeclared_only_early {tokens : Tokens} {program : Node}
    (hp : Program.ofTokens tokens = .ok program) (hc : (({} : Checker).check program).1 = "")
    (fuel : Nat) (limit : Int) (input : Input) (files : Files) {e : RunError} {p : Option Position}
    (h : ((Machine.fresh limit input files).interpret fuel program).1 = .stopped (.failed e p)) :
    (∀ x, e ≠ .redeclared x) ∧ (∀ f, e ≠ .undefined f) ∧ (∀ f, e ≠ .redefined f) ∧
      e ≠ .strayReturn ∧
      ∀ name, e = .undeclared name →
        ∃ q, p = some q ∧ (Machine.fresh limit input files).StopsEarly fuel program name q := by
  obtain ⟨s, ns, rfl, hall⟩ := Discipline.Accepts.of_check (L := .naming fuel)
    (Program.isProgram_ofTokens hp) hc trivial
  obtain ⟨m, hrun⟩ := Machine.tree_of_stopped h
  have hearly := hall.stopsEarly hrun
  refine ⟨?_, ?_, ?_, ?_, ?_⟩
  · rintro x rfl
    obtain ⟨_, _, heq, -⟩ := hearly rfl
    cases heq
  · rintro f rfl
    obtain ⟨_, _, heq, -⟩ := hearly rfl
    cases heq
  · rintro f rfl
    obtain ⟨_, _, heq, -⟩ := hearly rfl
    cases heq
  · rintro rfl
    obtain ⟨_, _, heq, -⟩ := hearly rfl
    cases heq
  · rintro name rfl
    obtain ⟨_, q, heq, hstops⟩ := hearly rfl
    cases heq
    exact ⟨q, rfl, hstops⟩

/-- A program that calls a function before it declares the variable that the function assigns to:
`f(); int x = 1; func void f() { x = 2; }`. -/
def Node.callsEarly : Node :=
  .program (.columns 0 20) [2]
    [.callStatement (.columns 0 3) (.call (.columns 0 2) (.name (.columns 0 0) "f") []),
     .declare (.columns 4 8) (.type (.columns 4 4) "int") "x" (.int (.columns 7 7) 1),
     .define (.columns 9 19) (.type (.columns 10 10) "void") "f" [] (.block (.columns 14 19)
       [.assign (.columns 15 18) (.name (.columns 15 15) "x") (.int (.columns 17 17) 2)])]

lemma Program.ofTokens_callsEarly :
    ofTokens (.onLine [.identifier "f", .symbol .lparen, .symbol .rparen, .symbol .semicolon,
      .keyword .int, .identifier "x", .symbol .assign, .int 1, .symbol .semicolon,
      .keyword .func, .keyword .void, .identifier "f", .symbol .lparen, .symbol .rparen,
      .symbol .lbrace, .identifier "x", .symbol .assign, .int 2, .symbol .semicolon,
      .symbol .rbrace]) = .ok .callsEarly := by
  cbv

/-- The checker accepts the early call, and the run stops at the assignment in the function. -/
theorem undeclared_only_early_callsEarly :
    (({} : Checker).check .callsEarly).1 = "" ∧
      ((Machine.fresh 50 (.lines []) {}).interpret 1 .callsEarly).1
        = .stopped (.failed (.undeclared "x") (some ⟨1, 15⟩)) ∧
      (Machine.fresh 50 (.lines []) {}).StopsEarly 1 .callsEarly "x" ⟨1, 15⟩ := by
  have hc : (({} : Checker).check .callsEarly).1 = "" := rfl
  have hrun : ((Machine.fresh 50 (.lines []) {}).interpret 1 .callsEarly).1
      = .stopped (.failed (.undeclared "x") (some ⟨1, 15⟩)) := rfl
  obtain ⟨-, -, -, -, hearly⟩ :=
    undeclared_only_early Program.ofTokens_callsEarly hc 1 50 (.lines []) {} hrun
  obtain ⟨q, hq, hstops⟩ := hearly "x" rfl
  cases hq
  exact ⟨hc, hrun, hstops⟩

end AudLang
