import AudLang.Proofs.CallDepth
import AudLang.Proofs.Plain

/-!
More room for calls.

How deep calls may nest is a number that a machine is given at its start.  A run asks for it in one
place, where a function is called, and it is there only to refuse calls.  So a run that is not
refused a call is the same run on a machine with more room (`Machine.interpret_withRoom`), and a run
that is refused one is another run there, since the refusal names the limit
(`Machine.ending_fresh_iff`).
-/

namespace AudLang

variable {name : String} {p : Position} {n : Node}

namespace Machine

/-- The machine with another limit on the depth of calls. -/
def withRoom (m : Machine) (limit : Int) : Machine := { m with depthLimit := limit }

lemma updateCurrent_withRoom (m : Machine) (limit : Int) (f : Context → Context) :
    (m.withRoom limit).updateCurrent f = (m.updateCurrent f).withRoom limit := by
  unfold updateCurrent withRoom
  cases m.calls <;> rfl

lemma rebind_withRoom (m : Machine) (limit : Int) (name : String) (r : Ref) :
    (m.withRoom limit).rebind name r = (m.rebind name r).withRoom limit := by
  unfold rebind withRoom
  cases m.calls with
  | nil => rfl
  | cons c outer =>
    dsimp only
    cases c.rebind name r <;> rfl

end Machine

namespace Run

/-! ## Steps side by side -/

variable {α β : Type} {d d' : Int} {k k₁ k₂ : Nat}

/-- On a machine with the limit `d` and `k` calls under way the first step is refused a call, or it
does what the second step does on the machine with the limit `d'`.  Once it has answered, `k₁` calls
are under way. -/
structure WidenedBy (d d' : Int) (k k₁ : Nat) (x y : Run α) : Prop where
  ends : ∀ m : Machine, m.depthLimit = d → m.calls.length = k →
    Ends (x m)
      (fun a m' => y (m.withRoom d') = .ok a (m'.withRoom d') ∧ m'.depthLimit = d ∧
        m'.calls.length = k₁)
      (fun e m' => (∃ p, e = .failed (.tooDeep d) p) ∨
        y (m.withRoom d') = .error e (m'.withRoom d'))

namespace WidenedBy

lemma bind {x y : Run α} {f g : α → Run β} (hx : WidenedBy d d' k k₁ x y)
    (hf : ∀ a, WidenedBy d d' k₁ k₂ (f a) (g a)) : WidenedBy d d' k k₂ (x >>= f) (y >>= g) := by
  refine ⟨fun m hd hk => ?_⟩
  have hends := hx.ends m hd hk
  rw [bind_run]
  cases hm : x m with
  | ok a m' =>
    obtain ⟨hy, hd', hk'⟩ := hends.ok hm
    rw [bind_of_ok hy]
    exact (hf a).ends m' hd' hk'
  | error e m' =>
    rcases hends.error hm with hp | hy
    · exact .inl hp
    · exact .inr (bind_of_error hy)

lemma ite {c : Prop} [Decidable c] {x y x' y' : Run α} (hx : WidenedBy d d' k k₁ x x')
    (hy : WidenedBy d d' k k₁ y y') :
    WidenedBy d d' k k₁ (if c then x else y) (if c then x' else y') := by
  split
  · exact hx
  · exact hy

lemma stop (e : Stop) : WidenedBy d d' k k₁ (throw e : Run α) (throw e) := ⟨fun _ _ _ => .inr rfl⟩

lemma fail (e : RunError) (p : Position) :
    WidenedBy d d' k k₁ (Run.fail e p : Run α) (Run.fail e p) := stop _

lemma fault (f : Fault) : WidenedBy d d' k k₁ (Run.fault f : Run α) (Run.fault f) := stop _

/-- A step of the world does the same whatever room there is. -/
lemma of_worldly {x : Run α} (h : Worldly x) : WidenedBy d d' k k x x := by
  obtain ⟨g, hg⟩ := h.step
  refine ⟨fun m hd hk => ?_⟩
  rw [hg m, hg (m.withRoom d')]
  show Ends (m.result (g m.world)) _ _
  cases hw : g m.world with
  | ok a w => exact ⟨congrArg _ hw, hd, hk⟩
  | error e w => exact .inr (congrArg _ hw)

lemma of_plain {x : Run α} (h : Plain x) : WidenedBy d d' k k x x := of_worldly h.worldly

lemma pure (a : α) : WidenedBy d d' k k (Pure.pure a : Run α) (Pure.pure a) := of_plain (.pure a)

/-- Looking at the machine, for the sake of something other than its room. -/
lemma look {f g : Machine → Run α} (h : ∀ m, WidenedBy d d' k k₁ (f m) (g m))
    (hg : ∀ m, g (m.withRoom d') = g m) : WidenedBy d d' k k₁ (get >>= f) (get >>= g) := by
  refine ⟨fun m hd hk => ?_⟩
  show Ends (f m m) (fun a m' => g (m.withRoom d') (m.withRoom d') = _ ∧ _)
    (fun e m' => _ ∨ g (m.withRoom d') (m.withRoom d') = _)
  rw [hg m]
  exact (h m).ends m hd hk

/-- Changing the machine, but not its room, where no call begins or ends. -/
lemma change {f : Machine → Machine} (hf : ∀ m, f (m.withRoom d') = (f m).withRoom d')
    (hd : ∀ m, (f m).depthLimit = m.depthLimit) (hk : ∀ m, (f m).calls.length = m.calls.length) :
    WidenedBy d d' k k (modify f : Run Unit) (modify f) := by
  refine ⟨fun m hm hcalls => ?_⟩
  show (.ok () (f (m.withRoom d')) : EStateM.Result Stop Machine Unit) = _ ∧ _ ∧ _
  exact ⟨by rw [hf], (hd m).trans hm, (hk m).trans hcalls⟩

/-- A loop, by induction on the rounds that it may take. -/
lemma iterate {c c' : Run Bool} {b b' : Run Unit} (hc : WidenedBy d d' k k c c')
    (hb : WidenedBy d d' k k b b')
    (fuel : Nat) : WidenedBy d d' k k (Run.iterate c b fuel) (Run.iterate c' b' fuel) := by
  induction fuel with
  | zero => exact stop _
  | succ fuel ih =>
    exact hc.bind fun _ => ite (hb.bind fun _ => look (fun _ => ite ih (pure _)) fun _ => rfl)
      (pure _)

end WidenedBy

/-! ## Names and functions -/

lemma widened_cellOf : WidenedBy d d' k k (cellOf name p) (cellOf name p) := by
  refine .look (fun m => ?_) fun _ => rfl
  cases m.lookup? name with
  | some r => exact .pure r
  | none => exact .fail _ _

lemma widened_declare {r : Ref} : WidenedBy d d' k k (declare name r p) (declare name r p) := by
  refine .look (fun m => .ite (.fail _ _) ?_) fun _ => rfl
  exact .change (fun m => m.updateCurrent_withRoom _ _) (by simp) (by simp)

lemma widened_assign {r : Ref} : WidenedBy d d' k k (assign name r p) (assign name r p) := by
  refine widened_cellOf.bind fun target => ?_
  refine (WidenedBy.of_plain plain_value).bind fun v => ?_
  refine (WidenedBy.of_plain plain_value).bind fun u => ?_
  refine .ite (.of_worldly worldly_put) ?_
  refine .change (fun m => m.rebind_withRoom _ _ _) (fun m => ?_) fun m => ?_
  · obtain ⟨mod, cs, heq, hlength⟩ := m.rebind_eq name r
    rw [heq]
  · obtain ⟨mod, cs, heq, hlength⟩ := m.rebind_eq name r
    rw [heq, hlength]

lemma widened_enter : WidenedBy d d' k k enter enter :=
  .change (fun m => m.updateCurrent_withRoom _ _) (by simp) (by simp)

lemma widened_exit : WidenedBy d d' k k exit exit := by
  refine .look (fun m => ?_) fun _ => rfl
  cases m.current.inner with
  | nil => exact .fault _
  | cons _ outer => exact .change (fun m => m.updateCurrent_withRoom _ _) (by simp) (by simp)

lemma widened_callee : WidenedBy d d' k k (callee name p) (callee name p) := by
  unfold callee
  cases Builtin.ofName? name with
  | some b => exact .pure _
  | none =>
    refine .look (fun m => ?_) fun _ => rfl
    cases m.functions.lookup name with
    | some n => exact .pure _
    | none => exact .fail _ _

lemma widened_register : WidenedBy d d' k k (register name n) (register name n) := by
  refine .look (fun m => .ite (.ite (.fail _ _) (.fault _)) ?_) fun _ => rfl
  exact .change (fun _ => rfl) (fun _ => rfl) fun _ => rfl

lemma widened_registerAll {ns : List Node} :
    WidenedBy d d' k k (registerAll ns) (registerAll ns) := by
  induction ns with
  | nil => exact .pure _
  | cons n ns ih =>
    exact (WidenedBy.of_worldly (.ask _)).bind fun _ => widened_register.bind fun _ => ih

lemma widened_declareParameters {ps : List Node} {rs : List Ref} :
    WidenedBy d d' k k (declareParameters ps rs) (declareParameters ps rs) := by
  fun_induction declareParameters ps rs with
  | case1 s _ x ps r rs ih => exact widened_declare.bind fun _ => ih
  | case2 => exact .fault _
  | case3 => exact .fault _
  | case4 => exact .pure _

lemma widened_note (r : Option Ref) :
    WidenedBy d d' k k (modify fun m => { m with returning := r } : Run Unit)
      (modify fun m => { m with returning := r }) :=
  .change (fun _ => rfl) (fun _ => rfl) fun _ => rfl

/-! ## Calls -/

lemma widened_refused {x : Unit → Run α} {y : Run α} (h : d ≤ k + 1) :
    WidenedBy d d' k k₁ (pushContext name p >>= x) y := by
  refine ⟨fun m hd hk => ?_⟩
  have hfull : pushContext name p m = .error (.failed (.tooDeep d) (some p)) m := by
    simp only [pushContext, bind_run, get_run, hd, hk, if_pos h]
    rfl
  rw [bind_of_error hfull]
  exact .inl ⟨_, rfl⟩

lemma widened_pushContext (hroom : d ≤ d') (h : (k : Int) + 1 < d) :
    WidenedBy d d' k (k + 1) (pushContext name p) (pushContext name p) := by
  refine ⟨fun m hd hk => ?_⟩
  have hpush {m : Machine} (hm : ¬ m.depthLimit ≤ m.calls.length + 1) :
      pushContext name p m = .ok () { m with calls := { name } :: m.calls } := by
    simp only [pushContext, bind_run, get_run, if_neg hm]
    rfl
  have hfirst : ¬ m.depthLimit ≤ m.calls.length + 1 := by omega
  have hsecond : ¬ (m.withRoom d').depthLimit ≤ (m.withRoom d').calls.length + 1 := by
    show ¬ d' ≤ m.calls.length + 1
    omega
  rw [hpush hfirst, hpush hsecond]
  exact ⟨rfl, hd, by simp [hk]⟩

lemma widened_popContext : WidenedBy d d' (k + 1) k popContext popContext := by
  refine ⟨fun m hd hk => ?_⟩
  obtain ⟨c, outer, hcalls⟩ := List.exists_cons_of_length_eq_add_one hk
  have hpop (limit : Int) :
    popContext (m.withRoom limit) = .ok () { m.withRoom limit with calls := outer } := by
    simp only [popContext, bind_run, get_run, Machine.withRoom, hcalls]
    rfl
  have hself : m.withRoom d = m := by rw [← hd]; rfl
  rw [← hself, hpop d]
  refine ⟨hpop d', rfl, ?_⟩
  simpa [Machine.withRoom, hcalls] using hk

variable {body body' : Node → Run Unit} {fuel : Nat}

lemma widened_invoke (hroom : d ≤ d')
    (hb : (k : Int) + 1 < d → ∀ n, WidenedBy d d' (k + 1) (k + 1) (body n) (body' n))
    {args : List Ref} : WidenedBy d d' k k (invoke body n args p) (invoke body' n args p) := by
  cases n with
  | define s returns id ps b =>
    -- Only here does the room count: both machines make the call, or the first one is refused it.
    rcases Int.lt_or_le (k + 1) d with hlt | hle
    · refine (widened_pushContext hroom hlt).bind fun _ => ?_
      refine widened_declareParameters.bind fun _ => (hb hlt b).bind fun _ => ?_
      refine .look (fun m => ?_) fun _ => rfl
      refine (widened_note none).bind fun _ => (WidenedBy.of_worldly (.ask _)).bind fun type => ?_
      exact (WidenedBy.of_plain plain_takeReturned).bind fun _ => widened_popContext
    · exact widened_refused hle
  | _ => exact (WidenedBy.of_worldly (.ask _)).bind fun _ => .fail _ _

lemma widened_callNamed (hroom : d ≤ d')
    (hb : (k : Int) + 1 < d → ∀ n, WidenedBy d d' (k + 1) (k + 1) (body n) (body' n))
    {args : List Ref}
    {q : Position} : WidenedBy d d' k k (callNamed body name args q p)
      (callNamed body' name args q p) := by
  refine widened_callee.bind fun f => ?_
  cases f with
  | builtin b => exact .of_plain (plain_callBuiltin.bind fun _ => plain_setLast)
  | defined n => exact widened_invoke hroom hb

/-! ## Trees -/

/-- What is left of the room is all that the bodies of functions have to do with it. -/
lemma pervades_widenedBy (hroom : d ≤ d')
    (hb : (k : Int) + 1 < d → ∀ n, WidenedBy d d' (k + 1) (k + 1) (body n) (body' n)) :
    Pervades (fun _ x y => WidenedBy d d' k k x y) body body' fuel fuel where
  plain h := .of_plain h
  cellOf _ _ := widened_cellOf
  bind := .bind
  declare _ _ _ := widened_declare
  assign _ _ _ := widened_assign
  registerAll _ := widened_registerAll
  note r := widened_note r
  look h := .look (fun m => h m.returning) fun _ => rfl
  stray p := .fail _ p
  scope h := widened_enter.bind fun _ => h.bind fun _ => widened_exit
  iterate hc hx := hc.iterate hx fuel
  call _ _ _ _ := widened_callNamed hroom hb

/-- Visiting the body of a function: what is left of the room is enough on both machines, by
induction on what is left on the first. -/
lemma widened_bodyAt (hroom : d ≤ d') {i j : Nat} (hk : (k : Int) < d) (hi : d ≤ i + k)
    (hj : d' ≤ j + k) : WidenedBy d d' k k (bodyAt fuel i n) (bodyAt fuel j n) := by
  induction i generalizing j k n with
  | zero => omega -- nothing is left of the room, so `k` calls are not under way
  | succ i ih =>
    obtain ⟨j, rfl⟩ : ∃ l, j = l + 1 := ⟨j - 1, by omega⟩
    exact (pervades_widenedBy hroom fun hlt n => ih (by omega) (by omega) (by omega)).visit n

lemma widened_tree (hroom : d ≤ d') : WidenedBy d d' k k (tree fuel n) (tree fuel n) := by
  refine ⟨fun m hd hk => ?_⟩
  have hvisit : WidenedBy d d' k k (visit (bodyAt fuel d.toNat) fuel n)
    (visit (bodyAt fuel d'.toNat) fuel n) :=
    (pervades_widenedBy hroom fun hlt n =>
      widened_bodyAt hroom (by omega) (by omega) (by omega)).visit n
  rw [← hd] at hvisit ⊢
  exact hvisit.ends m rfl hk

end Run

/-! ## Runs -/

namespace Machine

variable {m : Machine} {d : Int} {fuel : Nat} {program : Node}

/-- The run of a program is refused a call for want of room. -/
def RefusesCall (fuel : Nat) (m : Machine) (program : Node) : Prop :=
  ∃ p, (m.interpret fuel program).1 = .stopped (.failed (.tooDeep m.depthLimit) p)

/-- A run that is not refused a call is the same on a machine with more room. -/
lemma interpret_withRoom (hroom : m.depthLimit ≤ d) (h : ¬ m.RefusesCall fuel program) :
    (m.withRoom d).interpret fuel program
      = ((m.interpret fuel program).1, (m.interpret fuel program).2.withRoom d) := by
  have hwidened : Run.WidenedBy m.depthLimit d m.calls.length m.calls.length (Run.tree fuel program)
      (Run.tree fuel program) := Run.widened_tree hroom
  have hends := hwidened.ends m rfl rfl
  unfold RefusesCall interpret at h
  unfold interpret
  cases hm : Run.tree fuel program m with
  | ok u m' =>
    obtain ⟨hwide, -, -⟩ := hends.ok hm
    rw [hwide]
    rfl
  | error e m' =>
    rw [hm] at h
    rcases hends.error hm with ⟨p, rfl⟩ | hwide
    · exact absurd ⟨p, rfl⟩ h
    · rw [hwide]
      rfl

/-- A run is refused a call only by the limit of its own machine. -/
lemma eq_depthLimit_of_tooDeep (hp : program.IsProgram) (hm : m.Clear) (hb : m.Bounded)
    {limit : Int}
    {p : Option Position}
    (h : (m.interpret fuel program).1 = .stopped (.failed (.tooDeep limit) p)) :
    limit = m.depthLimit := by
  have horderly : (Moment.start program m).Orderly := ⟨hm, .inr (.inr hp.isWhole)⟩
  obtain ⟨m', htree⟩ := tree_of_stopped h
  obtain ⟨c, k, -, -, hlimit, -, -⟩ := Moment.exists_call_of_tooDeep horderly htree
  rw [hlimit]
  exact (Moment.bounded_of_passes horderly hb (.stops (.here _) htree)).1

/-- With more room a run ends in the same way if and only if it is not refused a call without. -/
lemma ending_withRoom_iff (hp : program.IsProgram) (hm : m.Clear) (hb : m.Bounded)
    (hroom : m.depthLimit < d) :
    ((m.withRoom d).interpret fuel program).1 = (m.interpret fuel program).1 ↔
      ¬ m.RefusesCall fuel program := by
  constructor
  · rintro hsame ⟨p, hrefused⟩
    rw [hrefused] at hsame
    -- The wider machine would have to refuse a call by a limit that is not its own.
    have hclear : (m.withRoom d).Clear := ⟨hm.returning, hm.functions⟩
    have hbounded : (m.withRoom d).Bounded := by
      have hcontexts : (m.contexts.length : Int) ≤ max 1 m.depthLimit := hb
      show (m.contexts.length : Int) ≤ max 1 d
      omega
    have hlimit : m.depthLimit = d := eq_depthLimit_of_tooDeep hp hclear hbounded hsame
    omega
  · intro h
    rw [interpret_withRoom (by omega) h]

/-! ## Two limits -/

section

variable {a b : Int} {input : Input} {files : Files}

lemma clear_fresh (limit : Int) (input : Input) (files : Files) : (fresh limit input files).Clear :=
  ⟨rfl, fun _ _ h => absurd h List.not_mem_nil⟩

/-- Of two limits the smaller one decides: a run that it does not refuse a call is the same run
under both. -/
lemma interpret_fresh (h : ¬ (fresh (min a b) input files).RefusesCall fuel program) :
    (fresh b input files).interpret fuel program
      = (((fresh a input files).interpret fuel program).1,
        ((fresh a input files).interpret fuel program).2.withRoom b) := by
  have ha := interpret_withRoom (d := a) (Int.min_le_left a b) h
  have hb := interpret_withRoom (d := b) (Int.min_le_right a b) h
  rw [show fresh b input files = (fresh (min a b) input files).withRoom b from rfl, hb,
    show fresh a input files = (fresh (min a b) input files).withRoom a from rfl, ha]
  rfl

/-- Under two limits a run ends in the same way if and only if they are one, or the smaller one does
not refuse it a call. -/
lemma ending_fresh_iff (hp : program.IsProgram) :
    ((fresh a input files).interpret fuel program).1
      = ((fresh b input files).interpret fuel program).1 ↔
      a = b ∨ ¬ (fresh (min a b) input files).RefusesCall fuel program := by
  rcases Int.lt_trichotomy a b with hlt | rfl | hgt
  · rw [Int.min_eq_left (by omega), or_iff_right (by omega), eq_comm]
    exact ending_withRoom_iff hp (clear_fresh a input files) (bounded_fresh a input files) hlt
  · simp
  · rw [Int.min_eq_right (by omega), or_iff_right (by omega)]
    exact ending_withRoom_iff hp (clear_fresh b input files) (bounded_fresh b input files) hgt

end

end Machine

end AudLang
