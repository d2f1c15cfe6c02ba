import AudLang.Proofs.CallDepth

/-!
The contexts below.

Whatever an expression or the body of a function does, the contexts that were there before stay as
they are, but for the base scope of the module, which every call can see.
-/

namespace AudLang

open Run Moment

/-! ## Machines -/

/-- Does the deed change the current context? -/
def Deed.isInner : Deed → Bool
  | declare .. | assign .. | enter | exit | leave => true
  | call .. | note _ | register .. => false

/-- The contexts of the first machine are there in the second, maybe below others, and they are as
they were, but for the base scope of the module. -/
structure Machine.Over (m₁ m : Machine) : Prop where
  module : ∃ base, m.module = ⟨m₁.module.name, m₁.module.inner, base⟩
  calls : m₁.calls <:+ m.calls

namespace Machine.Over

variable {m₁ m₂ m m' : Machine}

lemma refl (m : Machine) : m.Over m := ⟨⟨_, rfl⟩, List.suffix_refl _⟩

lemma trans (h : m₁.Over m₂) (h' : m₂.Over m) : m₁.Over m := by
  obtain ⟨⟨base, hmodule⟩, hcalls⟩ := h
  obtain ⟨⟨base', hmodule'⟩, hcalls'⟩ := h'
  exact ⟨⟨base', by rw [hmodule', hmodule]⟩, hcalls.trans hcalls'⟩

lemma undisturbed (h : m₁.Over m) (hq : m.Undisturbed m') : m₁.Over m' :=
  ⟨by rw [hq.module]; exact h.module, by rw [hq.calls]; exact h.calls⟩

lemma calls_eq (h : m₁.Over m) (hl : m.calls.length = m₁.calls.length) : m.calls = m₁.calls :=
  (h.calls.eq_of_length hl.symm).symm

/-- Where there are more contexts, the innermost of them is not among those below. -/
lemma exists_cons (h : m₁.Over m) (hlt : m₁.calls.length < m.calls.length) :
    ∃ c cs, m.calls = c :: cs ∧ m₁.calls <:+ cs := by
  have hcalls := h.calls
  cases hm : m.calls with
  | nil => rw [hm] at hlt; cases hlt
  | cons c cs =>
    rw [hm] at hcalls hlt
    rcases List.suffix_cons_iff.1 hcalls with heq | hcs
    · rw [heq] at hlt
      exact absurd hlt (Nat.lt_irrefl _)
    · exact ⟨c, cs, rfl, hcs⟩

lemma updateCurrent (h : m₁.Over m) (hlt : m₁.calls.length < m.calls.length)
    (f : Context → Context) : m₁.Over (m.updateCurrent f) := by
  obtain ⟨c, cs, hcalls, hcs⟩ := h.exists_cons hlt
  have heq : m.updateCurrent
    f = { m with calls := f c :: cs } := by simp only [Machine.updateCurrent, hcalls]
  rw [heq]
  exact ⟨h.module, hcs.trans (List.suffix_cons _ _)⟩

/-- Nor does rebinding a variable, unless it is one of the module's. -/
lemma rebind (h : m₁.Over m) (hlt : m₁.calls.length < m.calls.length) (name : String) (r : Ref) :
    m₁.Over (m.rebind name r) := by
  obtain ⟨c, cs, hcalls, hcs⟩ := h.exists_cons hlt
  obtain ⟨base, hmodule⟩ := h.module
  simp only [Machine.rebind, hcalls]
  cases c.rebind name r with
  | some c' => exact ⟨h.module, hcs.trans (List.suffix_cons _ _)⟩
  | none => exact ⟨⟨_, by rw [hmodule]⟩, hcs.trans (List.suffix_cons _ _)⟩

/-- Deeds leave the contexts below as they are, as long as none of these is the current one. -/
lemma makes (h : m₁.Over m) {k : Deed} (hk : k.Makes m m')
    (hlt : k.isInner = true → m₁.calls.length < m.calls.length) : m₁.Over m' := by
  cases hk with
  | declare | enter | exit => exact h.updateCurrent (hlt rfl) _
  | put | note | register => exact ⟨h.module, h.calls⟩
  | rebind => exact h.rebind (hlt rfl) _ _
  | call => exact ⟨h.module, h.calls.trans (List.suffix_cons _ _)⟩
  | leave hm =>
    obtain ⟨c, cs, hcalls, hcs⟩ := h.exists_cons (hlt rfl)
    cases hcalls.symm.trans hm
    exact ⟨h.module, hcs⟩

lemma declareParameters {ps : List Node} {rs : List Ref} : ∀ {m : Machine}, m₁.Over m →
    m₁.calls.length < m.calls.length → declareParameters ps rs m = .ok () m' → m₁.Over m' := by
  fun_induction Run.declareParameters ps rs with
  | case1 s t x ps r rs ih =>
    intro m h hlt hp
    obtain ⟨_, m₂, hdeclare, hp⟩ := ok_of_bind hp
    have hmakes := (Deed.ends (.declare x r s.start) m).ok hdeclare
    refine ih (h.makes hmakes fun _ => hlt) ?_ hp
    cases hmakes with
    | declare => rwa [Machine.length_calls_updateCurrent]
  | case2 => intro m h hlt hp; cases hp
  | case3 => intro m h hlt hp; cases hp
  | case4 => intro m h hlt hp; cases hp; exact h

/-- Contexts from the module inward: what was there, and what stands over it. -/
lemma contexts (h : m₁.Over m) :
    ∃ base above, m.contexts = ⟨m₁.module.name, m₁.module.inner,
      base⟩ :: m₁.calls.reverse ++ above := by
  obtain ⟨⟨base, hmodule⟩, top, hcalls⟩ := h
  exact ⟨base, top.reverse, by rw [Machine.contexts, hmodule, ← hcalls, List.reverse_append]; rfl⟩

end Machine.Over

/-! ## Moments -/

namespace Run

variable {m m' : Machine}

lemma length_calls_declareParameters {ps : List Node} {rs : List Ref}
    (h : declareParameters ps rs m = .ok () m') : m'.calls.length = m.calls.length := by
  obtain ⟨xs, hgrown⟩ := (declareParameters_ends ps rs m).ok h
  exact hgrown.length_calls

lemma over_pushContext {name : String} {p : Position} (h : pushContext name p m = .ok () m') :
    m.Over m' ∧ m.calls.length < m'.calls.length := by
  cases (Deed.ends (.call name p) m).ok h with
  | call => exact ⟨⟨⟨_, rfl⟩, List.suffix_cons _ _⟩, Nat.lt_succ_self _⟩

end Run

namespace Moment

variable {fuel n : Nat} {c c' : Moment} {k : UserCall} {m m₁ m₂ m₃ m' : Machine}

/-- What comes to be done from the moment on is done with more calls under way than these: there are
more already, or an expression is to be visited, which leaves the current context alone. -/
def Above (n : Nat) (c : Moment) : Prop :=
  n < c.machine.calls.length ∨ n ≤ c.machine.calls.length ∧ c.node.isTerm = true

/-- An expression leads to expressions, and to functions that are called. -/
lemma Enters.isTerm (h : Enters fuel c c') (hc : c.node.isTerm = true) :
    c'.node.isTerm = true ∨ c'.depth < c.depth := by
  cases h with
  | first h => exact .inl (Node.isTerm_of_first? h (.inl hc))
  | item h => exact .inl (Node.isTerm_of_mem_items (by rw [h]; simp) (.inl hc))
  | right => exact .inl (Bool.and_eq_true_iff.1 hc).2
  | receiver => exact .inl (Bool.and_eq_true_iff.1 hc).1
  | body => exact .inr (Nat.lt_succ_self _)
  | owner | onTrue | onFalse | condition | round | statement | top => cases hc

lemma Enters.above (h : Enters fuel c c') (hc : c.Above n) : c'.Above n := by
  have hsum := h.depth_add_calls
  have hdepth : c'.depth ≤ c.depth := by
    rcases h.decreases with hlt | ⟨heq, -⟩
    · exact Nat.le_of_lt hlt
    · exact Nat.le_of_eq heq
  rcases hc with hlt | ⟨hle, hterm⟩
  · exact .inl (by omega)
  · rcases h.isTerm hterm with hterm' | hlt
    · exact .inr ⟨by omega, hterm'⟩
    · exact .inl (by omega)

lemma Reaches.above (h : Reaches fuel c c') (hc : c.Above n) : c'.Above n := by
  induction h with
  | here => exact hc
  | step h _ ih => exact ih (h.above hc)

/-- There the current context is changed only where it is none of those below. -/
lemma Does.lt_length_calls {k : Deed} (h : c.Does fuel k m) (hc : c.Above n)
    (hk : k.isInner = true) : n < m.calls.length := by
  have hstatement (hterm : c.node.isTerm = false) : n < c.machine.calls.length := by
    rcases hc with hlt | ⟨-, hterm'⟩
    · exact hlt
    · rw [hterm] at hterm'
      cases hterm'
  have hle : n ≤ c.machine.calls.length := hc.elim Nat.le_of_lt And.left
  cases h with
  | declare hv | assign hv =>
    rw [(grows_visitAt _ _ _).length_calls hv]
    exact hstatement rfl
  | enter => exact hstatement rfl
  | exit he hb =>
    rw [(grows_visitBlock (grows_bodyAt fuel _) _).length_calls hb, length_calls_enter he]
    exact hstatement rfl
  | parameter hcalls hpush _ _ _ hp =>
    have hlt := (over_pushContext hpush).2
    rw [hcalls.length_calls] at hlt
    rw [length_calls_declareParameters hp]
    exact Nat.lt_of_le_of_lt hle hlt
  | leave hstarts hb ht =>
    rw [(Does.leave hstarts hb ht).length_calls]
    exact Nat.lt_succ_of_le hle
  | call | wipe | note | noteNothing | register => cases hk

lemma invariant_over (hc : c.Above m₁.calls.length) : Invariant fuel c m₁.Over where
  quiet hm hq := hm.undisturbed hq
  deed hr _ hd hm hk := hm.makes hk (hd.lt_length_calls (hr.above hc))

lemma invariant_length (fuel n : Nat) (c : Moment) :
    Invariant fuel c fun m => n ≤ m.calls.length where
  quiet hm hq := by rwa [hq.calls]
  deed := by
    intro c' k m m' _ hc' hd hm hk
    cases hk with
    | declare | enter | exit => rwa [Machine.length_calls_updateCurrent]
    | put | note | register => exact hm
    | @rebind name q r =>
      obtain ⟨mod, cs, heq, hlength⟩ := m.rebind_eq name r
      rwa [heq, hlength]
    | call => exact Nat.le_succ_of_le hm
    | leave h =>
      have hlength := hd.length_calls
      rw [h, List.length_cons] at hlength
      exact Nat.le_trans hc' (Nat.le_of_eq (Nat.succ.inj hlength).symm)

lemma over_of_passes (hc : c.Orderly) (habove : c.Above m₁.calls.length) (hover : m₁.Over c.machine)
    (h : c.Passes fuel m) : m₁.Over m :=
  (invariant_over habove).passes hc hover h

/-! ### Calls -/

lemma Starts.over (h : c.Starts fuel k m m₁) : m.Over m₁ := by
  obtain ⟨m₂, hpush, hparameters⟩ := h.begins
  obtain ⟨hover, hlt⟩ := over_pushContext hpush
  exact hover.declareParameters hlt hparameters

lemma Starts.length_calls_lt (h : c.Starts fuel k m m₁) : m.calls.length < m₁.calls.length := by
  rw [h.length_calls, h.calls.length_calls]
  exact Nat.lt_succ_self _

lemma Starts.orderly (h : c.Starts fuel k m m₁) (hc : c.Orderly) : (c.inside k m₁).Orderly :=
  ⟨(h.amid hc).clear, .inr (.inl (h.calls.isAction (h.calls.amid hc).clear))⟩

lemma Starts.over_of_takes (h : c.Starts fuel k m₁ m₂) (hc : c.Orderly)
    (hb : bodyAt fuel c.depth k.body m₂ = .ok () m₃) (ht : takes k m₃ = .ok () m) : m₁.Over m := by
  have hbody : m₁.Over m₃ :=
    over_of_passes (h.orderly hc) (.inl h.length_calls_lt) h.over
      (.answers (.here _) ((inside_run (depth_pos_of_body hb)).trans hb))
  have hquiet := ((quiet_takes k m₃.returning).ends { m₃ with returning := none }).ok ht
  have hwiped : m₁.Over { m₃ with returning := none } := ⟨hbody.module, hbody.calls⟩
  exact hwiped.undisturbed hquiet

/-- When a call has answered, all contexts are as before it, but for the base scope of the
module. -/
lemma Calls.over (h : c.Calls fuel k m₁) (hc : c.Orderly) (hr : c.run fuel = .ok () m) :
    m₁.Over m ∧ m.calls = m₁.calls := by
  obtain ⟨m₂, m₃, m₄, hstarts, hb, ht, hpop⟩ := h.answers hr
  have hover := hstarts.over_of_takes hc hb ht
  have hlength := (Does.leave hstarts hb ht).length_calls
  rw [← h.length_calls] at hlength
  have hlt : m₁.calls.length < m₄.calls.length := hlength ▸ Nat.lt_succ_self _
  have hclosed := hover.makes ((Deed.ends .leave m₄).ok hpop) fun _ => hlt
  have hrun := (grows_visitAt _ _ _).length_calls hr
  exact ⟨hclosed, hclosed.calls_eq (hrun.trans h.length_calls.symm)⟩

end Moment

end AudLang
