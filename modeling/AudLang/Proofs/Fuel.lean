import AudLang.Proofs.Visits

/-!
How long a run may take.

The number of rounds that a loop may take is no part of the language: it is there so that every run
ends.  A run that ends before it is exhausted ends in the same way however many more rounds are
allowed (`Machine.interpret_of_le`), so that a program either never ends or has one way to end.
-/

namespace AudLang

namespace Run

variable {α β : Type}

/-- The second step does what the first does, as far as the first is not exhausted. -/
def ExtendedBy (x y : Run α) : Prop := ∀ m, x m = y m ∨ ∃ m', x m = .error .exhausted m'

namespace ExtendedBy

lemma refl (x : Run α) : ExtendedBy x x := fun _ => .inl rfl

lemma bind {x y : Run α} {f g : α → Run β} (hx : ExtendedBy x y)
    (hf : ∀ a, ExtendedBy (f a) (g a)) : ExtendedBy (x >>= f) (y >>= g) := by
  intro m
  rcases hx m with h | ⟨m', h⟩
  · rw [bind_run, bind_run, ← h]
    cases x m with
    | error e m' => exact .inl rfl
    | ok a m' => exact hf a m'
  · exact .inr ⟨m', bind_of_error h⟩

lemma ite {c : Bool} {x y x' y' : Run α} (hx : ExtendedBy x x') (hy : ExtendedBy y y') :
    ExtendedBy (if c then x else y) (if c then x' else y') := by
  cases c
  · exact hy
  · exact hx

/-- A loop that may take more rounds. -/
lemma iterate {c c' : Run Bool} {b b' : Run Unit} (hc : ExtendedBy c c') (hb : ExtendedBy b b') :
    ∀ {i j : Nat}, i ≤ j → ExtendedBy (iterate c b i) (iterate c' b' j) := by
  intro i
  induction i with
  | zero => exact fun _ m => .inr ⟨m, rfl⟩
  | succ i ih =>
    intro j hij
    obtain ⟨j, rfl⟩ : ∃ k, j = k + 1 := ⟨j - 1, by omega⟩
    refine hc.bind fun t => ite (hb.bind fun _ => (refl _).bind fun m => ?_) (refl _)
    exact ite (ih (by omega)) (refl _)

end ExtendedBy

variable {body body' : Node → Run Unit} {fuel fuel' : Nat}

lemma invoke_extended (hb : ∀ n, ExtendedBy (body n) (body' n)) (n : Node) (args : List Ref)
    (p : Position) : ExtendedBy (invoke body n args p) (invoke body' n args p) := by
  cases n with
  | define s returns id ps b =>
    exact (ExtendedBy.refl _).bind fun _ => (ExtendedBy.refl _).bind fun _ =>
      (hb b).bind fun _ => .refl _
  | _ => exact .refl _

lemma callNamed_extended (hb : ∀ n, ExtendedBy (body n) (body' n)) (name : String)
    (args : List Ref) (q p : Position) :
    ExtendedBy (callNamed body name args q p) (callNamed body' name args q p) := by
  refine (ExtendedBy.refl _).bind fun f => ?_
  cases f with
  | builtin b => exact .refl _
  | defined n => exact invoke_extended hb n args p

/-- Visiting a tree with more rounds for each of its loops. -/
lemma pervades_extendedBy (hb : ∀ n, ExtendedBy (body n) (body' n)) (hf : fuel ≤ fuel') :
    Pervades @ExtendedBy body body' fuel fuel' where
  plain _ := .refl _
  cellOf _ _ := .refl _
  bind := .bind
  declare _ _ _ := .refl _
  assign _ _ _ := .refl _
  registerAll _ := .refl _
  note _ := .refl _
  look h := (ExtendedBy.refl _).bind fun m => h m.returning
  stray _ := .refl _
  scope h := (ExtendedBy.refl _).bind fun _ => h.bind fun _ => .refl _
  iterate hc hx := hc.iterate hx hf
  call name rs q p := callNamed_extended hb name rs q p

lemma bodyAt_extended (hf : fuel ≤ fuel') (depth : Nat) (n : Node) :
    ExtendedBy (bodyAt fuel depth n) (bodyAt fuel' depth n) := by
  induction depth generalizing n with
  | zero => exact .refl _
  | succ depth ih => exact (pervades_extendedBy ih hf).visit n

end Run

namespace Machine

variable {m m' : Machine} {program : Node} {fuel fuel' : Nat} {ending : Ending}

/-- A run that is not exhausted ends in the same way when more rounds are allowed. -/
lemma interpret_of_le (h : (m.interpret fuel program).1 ≠ .stopped .exhausted)
    (hf : fuel ≤ fuel') : m.interpret fuel' program = m.interpret fuel program := by
  have hextended :=
    (Run.pervades_extendedBy (Run.bodyAt_extended hf m.depthLimit.toNat) hf).visit program m
  change Run.tree fuel program m = Run.tree fuel' program m ∨
    ∃ m', Run.tree fuel program m = _ at hextended
  rcases hextended with heq | ⟨m', hm'⟩
  · unfold interpret
    rw [heq]
  · unfold interpret at h
    rw [hm'] at h
    exact absurd rfl h

/-- The run of a program on a machine never ends: no number of rounds is enough. -/
def Diverges (m : Machine) (program : Node) : Prop :=
  ∀ fuel, (m.interpret fuel program).1 = .stopped .exhausted

/-- The run of a program on a machine ends in this way, whenever it is given rounds enough. -/
def EndsWith (m : Machine) (program : Node) (ending : Ending) (m' : Machine) : Prop :=
  ending ≠ .stopped .exhausted ∧ ∃ least, ∀ fuel, least ≤ fuel →
    m.interpret fuel program = (ending, m')

lemma endsWith_of_interpret (h : m.interpret fuel program = (ending, m'))
    (hne : ending ≠ .stopped .exhausted) : m.EndsWith program ending m' := by
  refine ⟨hne, fuel, fun fuel' hf => ?_⟩
  rw [interpret_of_le (by rw [h]; exact hne) hf, h]

lemma exists_endsWith (h : (m.interpret fuel program).1 = ending)
    (hne : ending ≠ .stopped .exhausted) : ∃ m', m.EndsWith program ending m' :=
  ⟨_, endsWith_of_interpret (Prod.ext h rfl) hne⟩

/-- A run ends in one way only. -/
lemma EndsWith.unique {ending' : Ending} {m'' : Machine} (h : m.EndsWith program ending m')
    (h' : m.EndsWith program ending' m'') : ending = ending' ∧ m' = m'' := by
  obtain ⟨-, least, hl⟩ := h
  obtain ⟨-, least', hl'⟩ := h'
  have heq := (hl _ (Nat.le_max_left least least')).symm.trans
    (hl' _ (Nat.le_max_right least least'))
  exact Prod.mk.injEq .. ▸ heq

lemma interpret_of_error {e : Stop} (h : Run.tree fuel program m = .error e m') :
    m.interpret fuel program
      = (.stopped e, { m' with output := m'.output ++ e.report ++ "\n" }) := by
  unfold interpret
  rw [h]

lemma diverges_or_endsWith (m : Machine) (program : Node) :
    m.Diverges program ∨ ∃ fuel ending m', m.interpret fuel program = (ending, m') ∧
      m.EndsWith program ending m' := by
  by_cases h : m.Diverges program
  · exact .inl h
  · obtain ⟨fuel, hfuel⟩ := not_forall.mp h
    exact .inr ⟨fuel, _, _, rfl, endsWith_of_interpret rfl hfuel⟩

end Machine

end AudLang
