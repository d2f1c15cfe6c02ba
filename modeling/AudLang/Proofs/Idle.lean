import AudLang.Proofs.CheckDepth
import AudLang.Proofs.Fuel
import AudLang.Proofs.Operands
import AudLang.Proofs.Stopping

/-!
What programs leave behind.

A checker and a machine take one program after the other.  A check that is passed leaves the checker
outside of all scopes, and a run that comes to its end leaves the machine outside of all calls and
blocks.  A program that fails does not always do so: nothing closes what is open when a check or a
run stops, and nothing takes back a return that has no function to return from.  The next program
goes on from there.
-/

namespace AudLang

open Run

/-! ## Idle machines -/

namespace Machine

variable {m m' : Machine} {fuel : Nat} {program : Node}

/-- The machine stands in the module, outside of all blocks, and no return is under way. -/
structure Idle (m : Machine) : Prop where
  calls : m.calls = []
  name : m.module.name = "<module>"
  inner : m.module.inner = []
  returning : m.returning = none

lemma idle_iff_layers :
    m.Idle ↔ (∃ xs, m.layers = [⟨"<module>", [], xs⟩]) ∧ m.returning = none := by
  constructor
  · intro h
    refine ⟨⟨m.module.base.names, ?_⟩, h.returning⟩
    simp [layers, Context.layer, h.calls, h.name, h.inner]
  · rintro ⟨⟨xs, h⟩, hr⟩
    have hcalls : m.calls = [] := by
      have hlen := congrArg List.length h
      simpa [layers] using hlen
    simp only [layers, hcalls, List.nil_append, List.map_cons, List.map_nil, Context.layer,
      List.cons.injEq,
      Layer.mk.injEq, List.map_eq_nil_iff, and_true] at h
    exact ⟨hcalls, h.1, h.2.1, hr⟩

lemma Idle.grown {xs : List String} (h : m.Idle) (hg : m.Grown m' xs) (hr : m'.returning = none) :
    m'.Idle := by
  obtain ⟨⟨ys, hlayers⟩, -⟩ := idle_iff_layers.mp h
  refine idle_iff_layers.mpr ⟨⟨ys ++ xs, ?_⟩, hr⟩
  rw [hg, hlayers]
  rfl

lemma Idle.scopes (h : m.Idle) : Layers.scopes m.layers = 1 := by
  obtain ⟨⟨xs, hlayers⟩, -⟩ := idle_iff_layers.mp h
  rw [hlayers]
  rfl

end Machine

/-! ## Programs -/

namespace Machine

open Moment

variable {m m' : Machine} {fuel : Nat} {program : Node}

/-- What leaves a machine in the middle of something: the run of the program stops in a block or in
a call, or at a return outside of all functions. -/
inductive Trips (fuel : Nat) (m : Machine) (program : Node) : Prop
  | inside {c : Moment} (hr : Reaches fuel (.start program m) c) (hc : c.Interrupted fuel)
  | stray {c : Moment} {m' : Machine} (he : Enters fuel (.start program m) c)
      (hv : c.run fuel = .ok () m') (hr : m'.returning ≠ none)

/-- A run trips, or all it leaves behind is variables of the module. -/
lemma tree_ends (hm : m.Clear) (hp : program.IsProgram) (fuel : Nat) :
    Ends (tree fuel program m) (fun _ m' => m'.Clear ∧ ∃ xs, m.Grown m' xs)
      (fun _ m' => m.Trips fuel program ∨ m'.Clear ∧ ∃ xs, m.Grown m' xs) := by
  have hc : (Moment.start program m).Orderly := ⟨hm, .inr (.inr hp.isWhole)⟩
  -- a program opens nothing itself, so what is left open was opened in its statements
  have hopens : ¬ (Moment.start program m).Opens fuel := by
    cases hp with
    | mk s hns =>
      intro h
      cases h
  have hgrown {m' : Machine} (h : (Moment.start program m).Course fuel m') : ∃ xs, m.Grown m' xs :=
    h.opens_or_grown.resolve_left hopens
  refine (amid_program hc.machine hp.isWhole).weaken (fun _ m' _ h => ⟨h.clear, hgrown h.course⟩)
    fun e m' _ h => ?_
  rcases h with ⟨c, henters, hstops⟩ | hbreaks
  · have hproper := henters.proper_of_orderly hc
    obtain ⟨hclear, ⟨ys, hgrown'⟩ | ⟨c', hreaches, hinterrupted⟩⟩ :=
      grown_or_interrupted hproper hstops
    · obtain ⟨xs, hgrown⟩ := hgrown (henters.course hc)
      exact .inr ⟨hclear, _, hgrown.trans hgrown'⟩
    · exact .inl (.inside (.step henters hreaches) hinterrupted)
  · rcases hbreaks.amid_or_stray with hm' | ⟨-, c, henters, hreturns, hreturning⟩
    · exact .inr ⟨hm'.clear, hgrown hm'.course⟩
    · exact .inl (.stray henters hreturns hreturning)

/-- A return outside of all functions stops the run with the return under way. -/
lemma tree_of_stray (hp : program.IsProgram) {c : Moment} (he : Enters fuel (.start program m) c)
    (hv : c.run fuel = .ok () m') (hr : m'.returning ≠ none) :
    ∃ e, tree fuel program m = .error e m' := by
  cases hp with
  | @mk s ns hns =>
    unfold Moment.start at he
    generalize hdepth : m.depthLimit.toNat = d at he
    -- from a program the run leads to its statements only
    cases he with
    | first h => cases h
    | item h => simp [Node.items] at h
    | @top _ _ n _ _ before after _ _ m₁ m₂ heq hn hregister hbefore =>
      subst hdepth
      have hvisit : visit (bodyAt fuel m.depthLimit.toNat) fuel n m₂ = .ok () m' := hv
      have hsome : m'.returning.isSome = true := Option.isSome_iff_ne_none.mpr hr
      refine ⟨.failed .strayReturn (some n.start), ?_⟩
      show visit (bodyAt fuel m.depthLimit.toNat) fuel (.program s (Parser.definitionIndexes ns) ns)
        m = _
      rw [visit, bind_of_ok hregister, heq, visitTop_append hbefore, visitTop_other hn, hvisit]
      simp only [hsome, if_true]

/-- A run that trips stops, and the machine is not idle then. -/
lemma Trips.stops (h : m.Trips fuel program) (hp : program.IsProgram) :
    ∃ e m', tree fuel program m = .error e m' ∧ ¬ m'.Idle := by
  cases h with
  | inside hreaches hc =>
    obtain ⟨e, m', hstops⟩ := hc.stops
    have hlt := hc.one_lt_scopes hstops
    refine ⟨e, m', hreaches.error hstops, fun hidle => ?_⟩
    have hscopes := hidle.scopes
    omega
  | @stray c m' he hv hr =>
    obtain ⟨e, htree⟩ := tree_of_stray hp he hv hr
    exact ⟨e, m', htree, fun hidle => hr hidle.returning⟩

/-- The machine is idle and the functions it knows are put together as they should. -/
structure Ready (m : Machine) : Prop where
  idle : m.Idle
  clear : m.Clear

lemma ready_fresh (limit : Int) (input : Input) (files : Files) : (fresh limit input files).Ready :=
  ⟨⟨rfl, rfl, rfl, rfl⟩, rfl, fun _ _ h => by cases h⟩

/-- A run that does not trip leaves a ready machine ready. -/
lemma Ready.interpret (hm : m.Ready) (hp : program.IsProgram) (h : ¬ m.Trips fuel program) :
    (m.interpret fuel program).2.Ready := by
  have hends := tree_ends hm.clear hp fuel
  unfold Machine.interpret
  cases htree : tree fuel program m with
  | ok u m' =>
    obtain ⟨hclear, xs, hgrown⟩ := hends.ok htree
    exact ⟨hm.idle.grown hgrown hclear.returning, hclear⟩
  | error e m' =>
    rcases hends.error htree with htrips | ⟨hclear, xs, hgrown⟩
    · exact absurd htrips h
    · have hidle : m'.Idle := hm.idle.grown hgrown hclear.returning
      exact ⟨⟨hidle.calls, hidle.name, hidle.inner, hidle.returning⟩, hclear.returning,
        hclear.functions⟩

/-- A run leaves a ready machine idle, unless it stops inside of a block or of a call, or at a
return outside of all functions. -/
lemma idle_interpret_iff (hm : m.Ready) (hp : program.IsProgram) :
    (m.interpret fuel program).2.Idle ↔ ¬ m.Trips fuel program := by
  refine ⟨fun hidle htrips => ?_, fun h => (hm.interpret hp h).idle⟩
  obtain ⟨e, m', htree, hnot⟩ := htrips.stops hp
  rw [interpret_of_error htree] at hidle
  exact hnot ⟨hidle.calls, hidle.name, hidle.inner, hidle.returning⟩

lemma not_trips_of_finished {r : Ref} (hp : program.IsProgram)
    (h : (m.interpret fuel program).1 = .finished r) : ¬ m.Trips fuel program := by
  intro htrips
  obtain ⟨e, m', htree, -⟩ := htrips.stops hp
  rw [interpret_of_error htree] at h
  cases h

end Machine

/-! ## Sessions -/

/-- A checker and a machine. -/
structure Workbench where
  checker : Checker
  machine : Machine

/-- What a workbench can be asked to do. -/
inductive Job where
  | check (program : Node)
  | run (program : Node)

/-- The program of a job. -/
def Job.program : Job → Node
  | .check program | .run program => program

namespace Workbench

/-- Does a job; a run has so many rounds for each loop. -/
def perform (fuel : Nat) (w : Workbench) : Job → Workbench
  | .check program => { w with checker := (w.checker.check program).2 }
  | .run program => { w with machine := (w.machine.interpret fuel program).2 }

/-- Does some jobs in order. -/
def after (fuel : Nat) (w : Workbench) (jobs : List Job) : Workbench := jobs.foldl (perform fuel) w

/-- Both the checker and the machine are idle. -/
structure Idle (w : Workbench) : Prop where
  checker : w.checker.Idle
  machine : w.machine.Idle

/-- The job leaves the workbench in the middle of something. -/
def Trips (fuel : Nat) (w : Workbench) : Job → Prop
  | .check program => w.checker.Trips program
  | .run program => w.machine.Trips fuel program

/-- The job is done without a complaint. -/
def Passes (fuel : Nat) (w : Workbench) : Job → Prop
  | .check program => (w.checker.check program).1 = ""
  | .run program => ∃ r, (w.machine.interpret fuel program).1 = .finished r

/-- A workbench that has done nothing yet. -/
def fresh (depthLimit : Int) (input : Input) (files : Files) : Workbench :=
  ⟨{}, .fresh depthLimit input files⟩

/-- The workbench is idle, and can take any program. -/
structure Ready (w : Workbench) : Prop where
  checker : w.checker.Idle
  machine : w.machine.Ready

variable {fuel : Nat} {w : Workbench} {j : Job} {jobs : List Job}

lemma Ready.idle (hw : w.Ready) : w.Idle := ⟨hw.checker, hw.machine.idle⟩

lemma ready_fresh (limit : Int) (input : Input) (files : Files) : (fresh limit input files).Ready :=
  ⟨⟨rfl, rfl⟩, Machine.ready_fresh limit input files⟩

lemma after_append (fuel : Nat) (w : Workbench) (done : List Job) (j : Job) :
    w.after fuel (done ++ [j]) = (w.after fuel done).perform fuel j := List.foldl_append

lemma Ready.perform (hw : w.Ready) (hj : j.program.IsProgram) (h : ¬ w.Trips fuel j) :
    (w.perform fuel j).Ready := by
  cases j with
  | check program => exact ⟨(Checker.idle_check_iff hw.checker hj).mpr h, hw.machine⟩
  | run program => exact ⟨hw.checker, hw.machine.interpret hj h⟩

/-- A job leaves a ready workbench idle if and only if it does not trip. -/
lemma Ready.idle_perform_iff (hw : w.Ready) (hj : j.program.IsProgram) :
    (w.perform fuel j).Idle ↔ ¬ w.Trips fuel j := by
  refine ⟨fun hidle => ?_, fun h => (hw.perform hj h).idle⟩
  cases j with
  | check program => exact (Checker.idle_check_iff hw.checker hj).mp hidle.checker
  | run program => exact (Machine.idle_interpret_iff hw.machine hj).mp hidle.machine

lemma Passes.not_trips (h : w.Passes fuel j) (hj : j.program.IsProgram) : ¬ w.Trips fuel j := by
  cases j with
  | check program =>
    intro htrips
    obtain ⟨e, k', hstops, -⟩ := Checker.Trips.stops htrips hj
    have hprints : (w.checker.check program).1 = "" := h
    rw [Checker.check, hstops] at hprints
    exact absurd (congrArg String.length hprints) (by simp)
  | run program =>
    obtain ⟨r, hfinished⟩ := h
    exact Machine.not_trips_of_finished hj hfinished

lemma Ready.after (hw : w.Ready) (hjobs : ∀ j ∈ jobs, j.program.IsProgram)
    (h : ∀ done j, done ++ [j] <+: jobs → ¬ (w.after fuel done).Trips fuel j) :
    (w.after fuel jobs).Ready := by
  induction jobs using List.reverseRecOn with
  | nil => exact hw
  | append_singleton done j ih =>
    have hdone : (w.after fuel done).Ready := by
      refine ih (fun j hj => hjobs j (List.mem_append_left _ hj)) fun done' j' hsegment =>
        h done' j' ?_
      exact hsegment.trans (List.prefix_append done [j])
    rw [after_append]
    exact hdone.perform (hjobs j (by simp)) (h done j (List.prefix_refl _))

lemma Ready.not_trips (hw : w.Ready) (hjobs : ∀ j ∈ jobs, j.program.IsProgram)
    (h : ∀ done, done <+: jobs → (w.after fuel done).Idle) (done : List Job) (j : Job)
    (hsegment : done ++ [j] <+: jobs) : ¬ (w.after fuel done).Trips fuel j := by
  have hdone : ∀ done, done <+: jobs → (w.after fuel done).Ready := by
    intro done
    induction done using List.reverseRecOn with
    | nil => exact fun _ => hw
    | append_singleton done j ih =>
      intro hsegment
      have hj : j.program.IsProgram := hjobs j (hsegment.subset (by simp))
      have hready := ih ((List.prefix_append done [j]).trans hsegment)
      have hidle := h _ hsegment
      rw [after_append] at hidle ⊢
      exact hready.perform hj ((hready.idle_perform_iff hj).mp hidle)
  have hidle := h _ hsegment
  rw [after_append] at hidle
  have hready := hdone done ((List.prefix_append done [j]).trans hsegment)
  exact (hready.idle_perform_iff (hjobs j (hsegment.subset (by simp)))).mp hidle

end Workbench

/-! ## Idle sessions -/

/-- A session of checks and runs is idle behind every job if and only if none of its jobs trips: no
check stops inside of a block or of a function, no run stops inside of a block or of a call, and
none at a return outside of all functions.  A job that passes does not trip. -/
theorem session_idle_iff (fuel : Nat) (limit : Int) (input : Input) (files : Files)
    {jobs : List Job} (hjobs : ∀ j ∈ jobs, ∃ tokens, Program.ofTokens tokens = .ok j.program) :
    ((∀ done, done <+: jobs → ((Workbench.fresh limit input files).after fuel done).Idle) ↔
        ∀ done j, done ++ [j] <+: jobs →
          ¬ ((Workbench.fresh limit input files).after fuel done).Trips fuel j) ∧
      ∀ done j, done ++ [j] <+: jobs →
        ((Workbench.fresh limit input files).after fuel done).Passes fuel j →
        ¬ ((Workbench.fresh limit input files).after fuel done).Trips fuel j := by
  have hprograms : ∀ j ∈ jobs, j.program.IsProgram := by
    intro j hj
    obtain ⟨tokens, htokens⟩ := hjobs j hj
    exact Program.isProgram_ofTokens htokens
  have hready := Workbench.ready_fresh limit input files
  refine ⟨⟨hready.not_trips hprograms, fun h done hsegment => ?_⟩, fun done j hsegment hpasses =>
    ?_⟩
  · have hdone : ∀ j ∈ done, j.program.IsProgram := fun j hj => hprograms j (hsegment.subset hj)
    exact (hready.after hdone fun done' j hsegment' => h done' j (hsegment'.trans hsegment)).idle
  · exact hpasses.not_trips (hprograms j (hsegment.subset (by simp)))

/-- `if (true) { x; }` -/
def Node.unknownWithin : Node :=
  .program (.columns 0 8) []
    [.branch (.columns 0 7) (.bool (.columns 2 2) true)
      (.block (.columns 4 7) [.expressionStatement (.columns 5 6) (.name (.columns 5 5) "x")])
        .missing]

lemma Program.ofTokens_unknownWithin :
    ofTokens (.onLine [.keyword .if_, .symbol .lparen, .keyword .true_, .symbol .rparen,
      .symbol .lbrace,
      .identifier "x", .symbol .semicolon, .symbol .rbrace]) = .ok .unknownWithin := by
  cbv

/-- The unknown name stops both the check and the run, and both leave the block open. -/
theorem session_idle_iff_unknownWithin :
    (∀ j ∈ [Job.check .unknownWithin, .run .unknownWithin], ∃ tokens,
      Program.ofTokens tokens = .ok j.program) ∧
      ((Workbench.fresh 50 (.text []) {}).after 0 [.check .unknownWithin]).checker.inner = [{}] ∧
      ((Workbench.fresh 50 (.text []) {}).after 0 [.run .unknownWithin]).machine.module.inner
      = [{}] ∧ ∃ done j, done ++ [j] <+: [Job.check .unknownWithin, .run .unknownWithin] ∧
        ((Workbench.fresh 50 (.text []) {}).after 0 done).Trips 0 j := by
  have hjobs : ∀ j ∈ [Job.check .unknownWithin, .run .unknownWithin],
      ∃ tokens, Program.ofTokens tokens = .ok j.program := by
    intro j hj
    have hprogram : j.program = .unknownWithin := by
      rcases List.mem_pair.mp hj with rfl | rfl <;> rfl
    exact ⟨_, hprogram ▸ Program.ofTokens_unknownWithin⟩
  have hinner : ((Workbench.fresh 50 (.text []) {}).after 0 [.check .unknownWithin]).checker.inner
    = [{}] := rfl
  refine ⟨hjobs, hinner, rfl, ?_⟩
  by_contra hnone
  have hidle := (session_idle_iff 0 50 (.text []) {} hjobs).1.mpr fun done j hsegment htrips =>
    hnone ⟨done, j, hsegment, htrips⟩
  have hcheck := (hidle [.check .unknownWithin] (List.prefix_append _ [_])).checker.inner
  rw [hinner] at hcheck
  cases hcheck

end AudLang
