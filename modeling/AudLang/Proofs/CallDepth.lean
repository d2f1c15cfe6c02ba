import AudLang.Proofs.Course
import AudLang.Proofs.Fuel
import AudLang.Proofs.Programs

/-!
How deep calls nest, and why that makes runs end.

Every call opens a context, and a machine has room for so many of them only.  A run therefore goes
through finitely many nodes between the rounds of its loops: without loops it ends, however its
functions call each other.
-/

namespace AudLang

open Run Moment

/-! ## Contexts -/

namespace Machine

variable {m m' : Machine}

lemma length_contexts (m : Machine) : m.contexts.length = m.calls.length + 1 := by simp [contexts]

lemma length_calls_of_layers (h : m'.layers.length = m.layers.length) :
    m'.calls.length = m.calls.length := by
  simpa [layers] using h

lemma Grown.length_calls {xs : List String} (h : m.Grown m' xs) :
    m'.calls.length = m.calls.length :=
  length_calls_of_layers (by rw [h, List.length_modifyHead])

/-- There are no more contexts than the machine has room for; the module has its context in any
case. -/
def Bounded (m : Machine) : Prop := (m.contexts.length : Int) ≤ max 1 m.depthLimit

end Machine

/-- What only declares variables leaves the calls that there are. -/
lemma Run.Grows.length_calls {α : Type} {x : Run α} {a : α} {m m' : Machine} (hx : Grows x)
    (h : x m = .ok a m') : m'.calls.length = m.calls.length := by
  obtain ⟨xs, hgrown⟩ := (hx.ends m).ok h
  exact hgrown.length_calls

lemma Run.length_calls_enter {m m' : Machine} (h : enter m = .ok () m') :
    m'.calls.length = m.calls.length :=
  Machine.length_calls_of_layers (by rw [(enter_ok h).1, List.length_modifyHead])

/-- A deed leaves the room as it is, and only a call for which there is room takes some. -/
lemma Deed.Makes.bounded {k : Deed} {m m' : Machine} (h : k.Makes m m') (hm : m.Bounded) :
    m'.depthLimit = m.depthLimit ∧ m'.Bounded := by
  unfold Machine.Bounded at *
  rw [Machine.length_contexts] at *
  cases h with
  | declare | enter | exit => simpa using hm
  | put | note | register => exact ⟨rfl, hm⟩
  | @rebind name q r =>
    obtain ⟨mod, cs, heq, hlength⟩ := m.rebind_eq name r
    rw [heq]
    exact ⟨rfl, by simpa [hlength] using hm⟩
  | call name p h =>
    refine ⟨rfl, ?_⟩
    simp only [List.length_cons]
    omega
  | leave h =>
    refine ⟨rfl, ?_⟩
    simp only [h, List.length_cons] at hm ⊢
    omega

namespace Moment

variable {fuel d : Nat} {c c' : Moment} {k : UserCall} {m m₁ m' : Machine} {e : Stop}
  {program : Node}

/-- The room is the same throughout a run, and there are never more contexts than that. -/
lemma invariant_bounded (fuel : Nat) (c : Moment) (limit : Int) :
    Invariant fuel c fun m => m.depthLimit = limit ∧ m.Bounded where
  quiet hm hq := by
    refine ⟨hq.depthLimit.trans hm.1, ?_⟩
    unfold Machine.Bounded Machine.contexts at *
    rw [hq.depthLimit, hq.calls]
    exact hm.2
  deed _ _ _ hm hk := ⟨(hk.bounded hm.2).1.trans hm.1, (hk.bounded hm.2).2⟩

lemma bounded_of_passes (hc : c.Orderly) (hb : c.machine.Bounded) (h : c.Passes fuel m) :
    m.depthLimit = c.machine.depthLimit ∧ m.Bounded :=
  (invariant_bounded fuel c c.machine.depthLimit).passes hc ⟨rfl, hb⟩ h

lemma grows_visitAt (fuel d : Nat) (n : Node) : Grows (visitAt fuel d n) :=
  grows_visit (grows_bodyAt fuel d) n

lemma grows_valuesAt (fuel d : Nat) (ns : List Node) : Grows (valuesAt fuel d ns) :=
  grows_values (grows_bodyAt fuel d) ns

lemma Calls.length_calls (h : c.Calls fuel k m) : m.calls.length = c.machine.calls.length := by
  cases h with
  | mk ha => exact (grows_valuesAt _ _ _).length_calls ha

/-- Where the body of a call is visited there is one context more than where the call was made. -/
lemma Starts.length_calls (h : c.Starts fuel k m m₁) :
    m₁.calls.length = c.machine.calls.length + 1 := by
  obtain ⟨l, hl⟩ := h.layers
  rw [← h.calls.length_calls]
  simpa [Machine.layers] using congrArg List.length hl

/-- So there is where its context is closed. -/
lemma Does.length_calls (h : c.Does fuel .leave m) :
    m.calls.length = c.machine.calls.length + 1 := by
  cases h with
  | leave hstarts hb ht =>
    obtain ⟨l, hl⟩ := hstarts.taken hb ht
    rw [← hstarts.calls.length_calls]
    simpa [Machine.layers] using congrArg List.length hl

/-- How deep calls may still nest and how many there are add up to the same from moment to
moment. -/
lemma Enters.depth_add_calls (h : Enters fuel c c') :
    c'.depth + c'.machine.calls.length = c.depth + c.machine.calls.length := by
  have hvisit {d : Nat} {n : Node} {m m' : Machine} (h : visitAt fuel d n m = .ok () m') :=
    (grows_visitAt fuel d n).length_calls h
  have hholds {d : Nat} {n : Node} {t : Bool} {m m' : Machine}
    (h : holds (visitAt fuel d n) m = .ok t m') :=
    (grows_visitAt fuel d n).holds.length_calls h
  have hrounds {d i : Nat} {a b : Node} {m m' : Machine}
      (h : Rounds (holds (visitAt fuel d a)) (visitAt fuel d b) i m m') :
        m'.calls.length = m.calls.length := by
    induction h with
    | none => rfl
    | more _ hc hs _ ih => rw [hvisit hs, hholds hc, ih]
  cases h with
  | first => rfl
  | item _ hb => simp only [(grows_valuesAt _ _ _).length_calls hb]
  | right hl => simp only [hvisit hl]
  | receiver ha => simp only [(grows_valuesAt _ _ _).length_calls ha]
  | owner he => simp only [hvisit he]
  | onTrue hc => simp only [hvisit hc]
  | onFalse hc => simp only [hvisit hc]
  | condition _ hr => simp only [hrounds hr]
  | round _ hr hc => simp only [hholds hc, hrounds hr]
  | statement _ he hb =>
    have hblock := (grows_visitBlock (grows_bodyAt fuel _) _).length_calls hb
    simp only [hblock, length_calls_enter he]
  | @body d s t u id id' returns b args ps Γ m m₁ m₂ m' rs ha hf hpush hp =>
    have hstarts : Starts fuel ⟨d + 1, .call s (.name t id) args, Γ, m⟩ _ m₁ m' :=
      ⟨.mk ha hf, m₂, hpush, hp⟩
    have hlength := hstarts.length_calls
    simp only at hlength ⊢
    omega
  | top _ _ hr hb =>
    have htop := (grows_visitTop (grows_bodyAt fuel _) _).length_calls hb
    have hregister := (Grows.of_steady steady_registerAll).length_calls hr
    simp only [htop, hregister]

lemma Reaches.depth_add_calls (h : Reaches fuel c c') :
    c'.depth + c'.machine.calls.length = c.depth + c.machine.calls.length := by
  induction h with
  | here => rfl
  | step h _ ih => exact ih.trans h.depth_add_calls

/-! ## Refused calls -/

lemma Calls.refused (h : c.Calls fuel k m) (hm : m.depthLimit ≤ m.contexts.length) :
    c.run fuel = .error (.failed (.tooDeep m.depthLimit) (some k.place)) m := by
  rw [Machine.length_contexts] at hm
  cases h with
  | @mk d s t u id id' returns b args ps Γ m₀ _ rs ha hf =>
    have ha' : values (bodyAt fuel d) fuel args m₀ = .ok rs m := ha
    have hpush : pushContext id' s.start m = .error (.failed (.tooDeep m.depthLimit) (some s.start))
      m := by
      simp only [pushContext, bind_run, get_run,
        if_pos (show m.depthLimit ≤ m.calls.length + 1 by omega)]
      rfl
    rw [Moment.run, visitAt, visit, bind_of_ok ha', callNamed, bind_of_ok hf]
    exact bind_of_error hpush

lemma Calls.granted (_ : c.Calls fuel k m) (hm : m.contexts.length < m.depthLimit) :
    pushContext k.name k.place m = .ok () { m with calls := { name := k.name } :: m.calls } := by
  rw [Machine.length_contexts] at hm
  simp only [pushContext, bind_run, get_run,
    if_neg (show ¬m.depthLimit ≤ m.calls.length + 1 by omega)]
  rfl

/-- Where a run stops for want of room, a call was made for which there was none. -/
lemma exists_call_of_tooDeep {limit : Int} {p : Option Position} (hc : c.Orderly)
    (h : c.run fuel = .error (.failed (.tooDeep limit) p) m') :
    ∃ c' k, Reaches fuel c c' ∧ c'.Calls fuel k m' ∧ limit = m'.depthLimit ∧ p = some k.place ∧
      m'.depthLimit ≤ m'.contexts.length := by
  obtain ⟨c', hr, -, hbreaks⟩ := exists_breaks hc h
  cases hbreaks with
  | own _ _ ho => cases ho
  | @deed k _ m _ hm hd hk =>
    obtain ⟨rfl, hfails⟩ := (k.ends m).error hk
    obtain ⟨name, q, rfl, he, hle⟩ := hfails rfl
    cases hd with
    | call hcalls =>
      cases he
      exact ⟨c', _, hr, hcalls, rfl, rfl, by rw [Machine.length_contexts]; exact hle⟩

/-! ## Loops -/

/-- A run is exhausted in a loop, or in a call so deep that it was not to have been made. -/
lemma exists_loop_of_exhausted (hc : c.Orderly)
    (hroom : c.machine.depthLimit.toNat ≤ c.depth + c.machine.calls.length)
    (hb : c.machine.Bounded) (h : c.run fuel = .error .exhausted m') :
    ∃ c', Reaches fuel c c' ∧ ∃ s a b, c'.node = .loop s a b := by
  obtain ⟨c', hr, -, hbreaks⟩ := exists_breaks hc h
  refine ⟨c', hr, ?_⟩
  cases hbreaks with
  | own _ _ ho => cases ho
  | @deed k _ m _ hm hd hk =>
    obtain ⟨-, hfails⟩ := (k.ends m).error hk
    obtain ⟨name, q, rfl, he, hle⟩ := hfails rfl
    cases he
  | rounds _ hn => exact hn
  | @depth k m _ hamid hstarts hdepth =>
    -- the call has got a context although there was no room left for one
    obtain ⟨m₂, hpush, -⟩ := hstarts.begins
    have hinvariant := invariant_bounded fuel c c.machine.depthLimit
    have hc' := hr.orderly hc
    have hlimit := (hinvariant.course hr hc' (hinvariant.reaches_from (.here c) hc ⟨rfl, hb⟩ hr)
      (hstarts.calls.amid hc').course).1
    have hlength := hstarts.calls.length_calls
    have hdepth' := hr.depth_add_calls
    cases (Deed.ends (.call k.name k.place) m).ok hpush with
    | call _ _ hroom' => omega

end Moment

namespace Node

variable {n p : Node}

/-- Is the node a loop? -/
def isLoop : Node → Bool
  | .loop .. => true
  | _ => false

/-- Does a loop stand anywhere in the tree? -/
def hasLoop (n : Node) : Bool := n.isLoop || n.parts.attach.any fun p => p.1.hasLoop
termination_by sizeOf n
decreasing_by exact sizeOf_parts p.2

lemma hasLoop_part (h : n.hasLoop = false) (hp : p ∈ n.parts) : p.hasLoop = false := by
  rw [hasLoop, Bool.or_eq_false_iff, List.any_eq_false] at h
  exact Bool.eq_false_iff.2 (h.2 ⟨p, hp⟩ (List.mem_attach _ _))

lemma mem_parts_of_first? (h : n.first? = some p) : p ∈ n.parts := by
  cases n with
  | giveBack s e =>
    rw [first?] at h
    split at h <;> cases h
    simp [parts]
  | binary | negate | member | declare | branch | assign | callStatement | expressionStatement =>
    cases h
    simp [parts]
  | _ => cases h

lemma mem_parts_of_mem_items (h : p ∈ n.items) : p ∈ n.parts := by
  cases n with
  | list | construct => exact h
  | call => exact List.mem_cons_of_mem _ h
  | _ => simp [items] at h

lemma mem_parts_of_mem_definitions (h : p ∈ n.definitions) : p ∈ n.parts := by
  cases n with
  | program s is ns =>
    obtain ⟨i, -, hi⟩ := List.mem_filterMap.1 h
    exact List.mem_of_getElem? hi
  | _ => cases h

end Node

/-- Only the deed that makes a function known changes the functions. -/
lemma Deed.Makes.functions {k : Deed} {m m' : Machine} (h : k.Makes m m') :
    m'.functions = m.functions ∨ ∃ name n, k = .register name n ∧
      m'.functions = m.functions ++ [(name, n)] := by
  cases h with
  | declare | enter | exit => exact .inl (m.updateCurrent_functions _)
  | put | call | leave | note => exact .inl rfl
  | @rebind name q r =>
    obtain ⟨mod, cs, heq, -⟩ := m.rebind_eq name r
    exact .inl (by rw [heq])
  | register name n => exact .inr ⟨name, n, rfl, rfl⟩

/-- None of the functions has a loop. -/
def Machine.Loopless (m : Machine) : Prop := ∀ x n, (x, n) ∈ m.functions → n.hasLoop = false

namespace Moment

variable {fuel : Nat} {c c' : Moment} {program : Node} {m m' : Machine}

/-- A moment without loops leads to such moments only, if the functions that it calls have none. -/
lemma Enters.hasLoop (h : Enters fuel c c') (hc : c.node.hasLoop = false)
    (hcalls : ∀ k m, c.Calls fuel k m → k.body.hasLoop = false) : c'.node.hasLoop = false := by
  cases h with
  | first h => exact Node.hasLoop_part hc (Node.mem_parts_of_first? h)
  | item h => exact Node.hasLoop_part hc (Node.mem_parts_of_mem_items (by rw [h]; simp))
  | receiver | owner =>
    -- the object is a part of the target, which is a part of the node
    exact Node.hasLoop_part (Node.hasLoop_part hc (List.mem_cons_self ..)) (by simp [Node.parts])
  | body ha hf hpush hp => exact hcalls _ _ (.mk ha hf)
  | statement h | top h => exact Node.hasLoop_part hc (by simp [Node.parts, h])
  | right | onTrue | onFalse | condition | round =>
    exact Node.hasLoop_part hc (by simp [Node.parts])

lemma Does.mem_definitions {name : String} {n : Node} (h : c'.Does fuel (.register name n) m)
    (hr : Reaches fuel c c') (hc : c.Orderly) : n ∈ c.node.definitions := by
  cases h with
  | @register d s is ns before after _ _ Γ m₀ _ hds =>
    have hwhole : (Node.program s is ns).isWhole = true := by
      rcases (hr.orderly hc).node with h | h | h
      · cases h
      · cases h
      · exact h
    rw [← hr.eq_of_whole hc hwhole, hds]
    simp

/-- In the run of a program without loops, functions with loops do not become known. -/
lemma invariant_loopless (hc : (start program m).Orderly) (hl : program.hasLoop = false) :
    Invariant fuel (start program m) Machine.Loopless where
  quiet hm hq := by
    unfold Machine.Loopless
    rw [hq.functions]
    exact hm
  deed := by
    intro c k m m' hr _ hd hm hk
    rcases hk.functions with hsame | ⟨name, n, rfl, hmore⟩
    · unfold Machine.Loopless
      rw [hsame]
      exact hm
    · intro x k hx
      rw [hmore] at hx
      rcases List.mem_append.1 hx with hx | hx
      · exact hm x k hx
      · cases List.mem_singleton.1 hx
        exact Node.hasLoop_part hl (Node.mem_parts_of_mem_definitions (hd.mem_definitions hr hc))

lemma Calls.hasLoop {k : UserCall} (h : c.Calls fuel k m) (hm : m.Loopless) :
    k.body.hasLoop = false := by
  cases h with
  | mk ha hf =>
    obtain ⟨-, hmem⟩ := mem_functions_of_callee hf
    exact Node.hasLoop_part (hm _ _ hmem) (by simp [Node.parts])

/-- The run of a program without loops does not come to a loop. -/
lemma hasLoop_of_reaches (hc : (start program m).Orderly) (hl : program.hasLoop = false)
    (hm : m.Loopless)
    {c₁ : Moment} (hr : Reaches fuel (start program m) c₁) (hn : c₁.node.hasLoop = false)
    (h : Reaches fuel c₁ c) : c.node.hasLoop = false := by
  have hI : Invariant fuel (start program m) Machine.Loopless := invariant_loopless hc hl
  induction h with
  | here => exact hn
  | step he _ ih =>
    refine ih (hr.snoc he) (he.hasLoop hn fun k m' hcalls => hcalls.hasLoop ?_)
    have hc₁ := hr.orderly hc
    exact hI.course hr hc₁ (hI.reaches_from (.here _) hc hm hr) (hcalls.amid hc₁).course

end Moment

/-! ## Every run -/

lemma Machine.bounded_fresh (limit : Int) (input : Input) (files : Files) :
    (fresh limit input files).Bounded := by
  show (1 : Int) ≤ max 1 limit
  omega

/-- Without loops nothing goes on for ever: a program that has none ends on every fresh machine,
however its functions call each other.  In every run there are at most as many contexts as the
machine has room for, and a call fails for want of room if and only if all of it is taken when the
call is made. -/
theorem only_loops_go_on {program : Node} (hp : program.IsProgram) :
    (program.hasLoop = false → ∀ limit input files, ∃ ending m', ending ≠ .stopped .exhausted ∧
      ∀ fuel, (Machine.fresh limit input files).interpret fuel program = (ending, m')) ∧
    ∀ fuel m, m.Clear → (m.contexts.length : Int) ≤ max 1 m.depthLimit →
      (∀ m', (start program m).Passes fuel m' → (m'.contexts.length : Int) ≤ max 1 m.depthLimit) ∧
      (∀ c k m₁, Reaches fuel (start program m) c → c.Calls fuel k m₁ →
        (m.depthLimit ≤ m₁.contexts.length → ∃ m', m'.contexts = m₁.contexts ∧
          m.interpret fuel program = (.stopped (.failed (.tooDeep m.depthLimit) (some k.place)),
            m')) ∧
        (m₁.contexts.length < m.depthLimit →
          pushContext k.name k.place m₁ = .ok ()
            { m₁ with calls := { name := k.name } :: m₁.calls })) ∧
      ∀ limit p m', m.interpret fuel program = (.stopped (.failed (.tooDeep limit) p), m') →
        limit = m.depthLimit ∧ ∃ c k m₁, Reaches fuel (start program m) c ∧ c.Calls fuel k m₁ ∧
          p = some k.place ∧ m.depthLimit ≤ m₁.contexts.length := by
  have horderly {m : Machine} (hm : m.Clear) : (start program m).Orderly :=
    ⟨hm, .inr (.inr hp.isWhole)⟩
  refine ⟨fun hl limit input files => ?_, fun fuel m hm hb => ?_⟩
  · have hclear : (Machine.fresh limit input files).Clear := ⟨rfl, fun _ _ h => by cases h⟩
    have hends : ((Machine.fresh limit input files).interpret 0 program).1 ≠ .stopped
      .exhausted := by
      intro hexhausted
      obtain ⟨m', htree⟩ := Machine.tree_of_stopped hexhausted
      obtain ⟨c, hr, s, a, b, hn⟩ :=
        exists_loop_of_exhausted (horderly hclear) (Nat.le_add_right _ _)
        (Machine.bounded_fresh limit input files) htree
      have hloop := hasLoop_of_reaches (horderly hclear) hl
        (fun _ _ h => by cases h) (.here _) hl hr
      rw [hn, Node.hasLoop] at hloop
      cases hloop
    exact ⟨_, _, hends, fun fuel => Machine.interpret_of_le hends (Nat.zero_le fuel)⟩
  · have hbounded {m' : Machine} (h : (start program m).Passes fuel m') :=
      bounded_of_passes (horderly hm) hb h
    refine ⟨fun m' h => ?_, fun c k m₁ hr hcalls => ?_, fun limit p m' h => ?_⟩
    · have hm' := (hbounded h).2
      unfold Machine.Bounded at hm'
      rwa [(hbounded h).1] at hm'
    · have hlimit : m₁.depthLimit = m.depthLimit := (hbounded (.before hr (.call hcalls))).1
      rw [← hlimit]
      refine ⟨fun hfull => ?_, hcalls.granted⟩
      have htree : Run.tree fuel program m = _ := hr.error (hcalls.refused hfull)
      refine ⟨_, ?_, Machine.interpret_of_error htree⟩
      rfl
    · obtain ⟨m₁, htree⟩ := Machine.tree_of_stopped (congrArg Prod.fst h)
      obtain ⟨c, k, hr, hcalls, rfl, rfl, hfull⟩ := exists_call_of_tooDeep (horderly hm) htree
      have hlimit : m₁.depthLimit = m.depthLimit := (hbounded (.stops (.here _) htree)).1
      exact ⟨hlimit, c, k, m₁, hr, hcalls, rfl, hlimit ▸ hfull⟩

/-- `func void f() { f(); } f();` -/
def Node.endless : Node :=
  .program (.columns 0 15) [0]
    [.define (.columns 0 10) (.type (.columns 1 1) "void") "f" []
      (.block (.columns 5 10)
        [.callStatement (.columns 6 9) (.call (.columns 6 8) (.name (.columns 6 6) "f") [])]),
     .callStatement (.columns 11 14) (.call (.columns 11 13) (.name (.columns 11 11) "f") [])]

lemma Program.ofTokens_endless :
    ofTokens (.onLine [.keyword .func, .keyword .void, .identifier "f", .symbol .lparen,
      .symbol .rparen,
      .symbol .lbrace, .identifier "f", .symbol .lparen, .symbol .rparen, .symbol .semicolon,
      .symbol .rbrace,
      .identifier "f", .symbol .lparen, .symbol .rparen, .symbol .semicolon]) = .ok .endless := by
  cbv

/-- With room for three contexts, the function calls itself once, and its second call of itself is
refused. -/
theorem only_loops_go_on_endless :
    Node.endless.IsProgram ∧ Node.endless.hasLoop = false ∧
      (∃ m', ∀ fuel, (Machine.fresh 3 (.text []) {}).interpret fuel .endless
        = (.stopped (.failed (.tooDeep 3) (some ⟨1, 6⟩)), m')) ∧
      ∀ fuel m', (start .endless (.fresh 3 (.text []) {})).Passes fuel m' →
        m'.contexts.length ≤ 3 := by
  have hp : Node.endless.IsProgram := Program.isProgram_ofTokens Program.ofTokens_endless
  have hl : Node.endless.hasLoop = false := by cbv
  obtain ⟨hends, hruns⟩ := only_loops_go_on hp
  refine ⟨hp, hl, ?_, fun fuel m' h => ?_⟩
  · obtain ⟨ending, m', -, h⟩ := hends hl 3 (.text []) {}
    obtain ⟨m₁, htree⟩ : ∃ m₁, tree 0 .endless (.fresh 3 (.text []) {})
        = .error (.failed (.tooDeep 3) (some ⟨1, 6⟩)) m₁ := ⟨_, by cbv⟩
    have hending := congrArg Prod.fst ((h 0).symm.trans (Machine.interpret_of_error htree))
    exact ⟨m', fun fuel => by rw [h fuel, show ending = _ from hending]⟩
  · have hbounded := (hruns fuel (.fresh 3 (.text []) {}) ⟨rfl,
      fun _ _ h => by cases h⟩ (by decide)).1 m' h
    have hlimit : max 1 (Machine.fresh 3 (.text []) {}).depthLimit = 3 := by decide
    omega

end AudLang
