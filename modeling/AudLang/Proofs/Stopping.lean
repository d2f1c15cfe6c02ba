import AudLang.Proofs.Course

/-!
Where a run stops.

When a run stops at a moment, it stops at one of the moments that the moment leads to, or the moment
breaks.  Following the first kind down to the second one finds what the stop has left open: a block
that the run had come to, or a call that it had begun, and if there is none of these, the layers of
the machine are those from before (`grown_or_interrupted`).  No return is under way where a run
stops.
-/

namespace AudLang

open Run

namespace Moment

variable {fuel : Nat} {c : Moment} {k : UserCall} {m m₁ m' : Machine} {e : Stop}

/-- At the moment a scope is opened for a block, or a context for a call. -/
inductive Opens (fuel : Nat) : Moment → Prop
  | block (d : Nat) (s : Span) (ns : List Node) (Γ : Declared) (m : Machine) :
      Opens fuel ⟨d, .block s ns, Γ, m⟩
  | call {d : Nat} {s t u : Span} {id id' : String} {returns b : Node} {args ps : List Node}
      {Γ : Declared}
      {m m₁ m₂ : Machine} {rs : List Ref} (ha : valuesAt fuel d args m = .ok rs m₁)
      (hf : callee id t.start m₁ = .ok (.defined (.define u returns id' ps b)) m₁)
      (hc : pushContext id' s.start m₁ = .ok () m₂) :
        Opens fuel ⟨d, .call s (.name t id) args, Γ, m⟩

/-- What is opened at the moment is still open when the run stops. -/
structure Interrupted (fuel : Nat) (c : Moment) : Prop where
  opens : c.Opens fuel
  stops : ∃ e m', c.run fuel = .error e m'

lemma Calls.opens (h : c.Calls fuel k m) (hpush : pushContext k.name k.place m = .ok () m₁) :
    c.Opens fuel := by
  cases h with
  | mk ha hf => exact .call ha hf hpush

lemma Starts.opens (h : c.Starts fuel k m m₁) : c.Opens fuel := by
  obtain ⟨hcalls, m₂, hpush, -⟩ := h
  exact hcalls.opens hpush

/-- A deed opens something or is done behind what has been opened, or it declares a variable at
most. -/
lemma Does.opens_or_grown {k : Deed} (h : c.Does fuel k m) (hk : k.run m = .ok () m') :
    c.Opens fuel ∨ ∃ xs, m.Grown m' xs := by
  cases h with
  | @declare _ s _ _ id => exact .inr ⟨_, ((declare_ends id m.last s.start m).ok hk).1⟩
  | @assign _ s _ _ id =>
    exact .inr ⟨[], Machine.grown_nil_iff.mpr ((steady_assign.ends m).ok hk).1⟩
  | enter | exit => exact .inl (.block _ _ _ _ _)
  | call h => exact .inl (h.opens hk)
  | parameter h hpush => exact .inl (h.opens hpush)
  | wipe h | leave h => exact .inl h.opens
  | note | noteNothing =>
    cases hk
    exact .inr ⟨[], Machine.grown_nil_iff.mpr rfl⟩
  | @register _ _ _ _ _ _ n name =>
    cases (Deed.ends (.register name n) m).ok hk
    exact .inr ⟨[], Machine.grown_nil_iff.mpr rfl⟩

/-- In the course of a moment something is opened, or variables are declared at most. -/
lemma Course.opens_or_grown (h : c.Course fuel m) : c.Opens fuel ∨ ∃ xs, c.machine.Grown m xs := by
  induction h with
  | start => exact .inr ⟨[], Machine.grown_nil_iff.mpr rfl⟩
  | quiet _ hq ih =>
    rcases ih with hopens | ⟨xs, hgrown⟩
    · exact .inl hopens
    · have hsame := Machine.grown_nil_iff.mpr (Machine.layers_congr hq.module hq.calls)
      exact .inr ⟨_, hgrown.trans hsame⟩
  | deed _ hd hk ih =>
    rcases ih, hd.opens_or_grown hk with ⟨hopens | ⟨xs, h₁⟩, hopens' | ⟨ys, h₂⟩⟩
    · exact .inl hopens
    · exact .inl hopens
    · exact .inl hopens'
    · exact .inr ⟨_, h₁.trans h₂⟩
  | @part c' m' _ _ hv ih =>
    rcases ih with hopens | ⟨xs, hgrown⟩
    · exact .inl hopens
    · obtain ⟨ys, hgrown'⟩ := ((grows_visit (grows_bodyAt fuel c'.depth) c'.node).ends _).ok hv
      exact .inr ⟨_, hgrown.trans hgrown'⟩

/-- Where a moment breaks, no return is under way but for one that has no place in a program. -/
lemma Breaks.amid_or_stray (h : c.Breaks fuel e m') : c.Amid fuel m' ∨ c.node.isWhole = true ∧
    ∃ c', Enters fuel c c' ∧ c'.run fuel = .ok () m' ∧ m'.returning ≠ none := by
  cases h with
  | deed hm hd hk =>
    rw [((Deed.ends _ _).error hk).1]
    exact .inl hm
  | own hm hq => exact .inl (hm.undisturbed hq)
  | stray hm hn he hv hr => exact .inr ⟨hn, _, he, hv, hr⟩
  | rounds hm => exact .inl hm
  | depth hm => exact .inl hm

/-- Where a run stops, no return is under way, and the layers are those from before but for
variables, unless a block or a call that it had come to is still open. -/
lemma grown_or_interrupted {c : Moment} (hc : c.Proper Machine.Clear)
    (h : c.run fuel = .error e m') :
    m'.Clear ∧ ((∃ xs, c.machine.Grown m' xs) ∨ ∃ c', Reaches fuel c c' ∧ c'.Interrupted fuel) := by
  rcases (course hc.orderly).error h with ⟨c', henters, hstops⟩ | hbreaks
  · -- the stop is further inside: what is left open there is open here too
    obtain ⟨hclear, hinside⟩ := grown_or_interrupted (henters.proper (lasting_clear fuel) hc) hstops
    refine ⟨hclear, ?_⟩
    rcases (henters.course hc.orderly).opens_or_grown with hopens | ⟨xs, hgrown⟩
    · exact .inr ⟨c, .here c, hopens, e, m', h⟩
    rcases hinside with ⟨ys, hgrown'⟩ | ⟨c'', hreaches, hinterrupted⟩
    · exact .inl ⟨_, hgrown.trans hgrown'⟩
    · exact .inr ⟨c'', .step henters hreaches, hinterrupted⟩
  · rcases hbreaks.amid_or_stray with hm | ⟨hwhole, -⟩
    · refine ⟨hm.clear, ?_⟩
      rcases hm.course.opens_or_grown with hopens | hgrown
      · exact .inr ⟨c, .here c, hopens, e, m', h⟩
      · exact .inl hgrown
    · exact absurd hwhole hc.not_isWhole
termination_by (c.depth, sizeOf c.node)
decreasing_by exact Prod.lex_def.mpr henters.decreases

/-- What was opened is open where the run has stopped: there is more than one scope. -/
lemma Interrupted.one_lt_scopes (hc : c.Interrupted fuel) (h : c.run fuel = .error e m') :
    1 < Layers.scopes m'.layers := by
  cases hc.opens with
  | block d s ns Γ m =>
    obtain ⟨m₁, henter⟩ : ∃ m₁, enter m = .ok () m₁ := ⟨_, rfl⟩
    have hm₁ := (enter_ok henter).1
    rw [Moment.run, visitAt, visit, bind_of_ok henter] at h
    have hstops := (inScope_ends (grows_visitBlock (grows_bodyAt fuel d) _) hm₁).error h
    have hle := hstops.1.scopes_le
    have hpos := Layers.scopes_pos m.layers_ne_nil
    rw [hm₁, Layers.scopes_under m.layers_ne_nil] at hle
    omega
  | @call d s t u id id' returns b args ps Γ m m₁ m₂ rs ha hf hpush =>
    have hm₂ := ((pushContext_ends id' s.start m₁).ok hpush).1
    have ha' : values (bodyAt fuel d) fuel args m = .ok rs m₁ := ha
    rw [Moment.run, visitAt, visit, bind_of_ok ha', callNamed, bind_of_ok hf] at h
    simp only [invoke, bind_of_ok hpush] at h
    have hstops := (inCall_ends (grows_bodyAt fuel d b) u returns id' ps rs hm₂).error h
    have hle := hstops.1.scopes_le
    have hpos := Layers.scopes_pos m₁.layers_ne_nil
    rw [hm₂, Layers.scopes_cons] at hle
    omega

end Moment

end AudLang
