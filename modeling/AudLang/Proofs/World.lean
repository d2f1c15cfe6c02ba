import AudLang.Machine.Evaluate
import AudLang.Proofs.Outcome
import Mathlib.Tactic.Choose

/-!
Steps of the world.

The store of values, the value that was computed last, the input, the output and the files are the
world that a program works on; names, functions, calls and returns are how the machine keeps track
of the program.  Most steps concern the world alone: they are steps from world to world, and the
rest of the machine is neither looked at nor changed (`Worldly`).  Such steps in sequence make such
a step.
-/

namespace AudLang

variable {r : Ref}

/-- What a program works on. -/
structure World where
  store : Store
  last : Ref
  input : Input
  output : String
  files : Files

namespace Machine

/-- The world of a machine. -/
def world (m : Machine) : World := ⟨m.store, m.last, m.input, m.output, m.files⟩

/-- The machine in another world. -/
def inWorld (m : Machine) (w : World) : Machine :=
  { m with
    store := w.store, last := w.last, input := w.input, output := w.output, files := w.files }

/-- How a step of the world ends for a machine. -/
def result {α : Type} (m : Machine) : EStateM.Result Stop World α → EStateM.Result Stop Machine α
  | .ok a w => .ok a (m.inWorld w)
  | .error e w => .error e (m.inWorld w)

end Machine

namespace Run

variable {α β : Type}

/-- The step is a step from world to world, whatever machine makes it. -/
structure Worldly (x : Run α) : Prop where
  step : ∃ g : EStateM Stop World α, ∀ m : Machine, x m = m.result (g m.world)

namespace Worldly

lemma pure (a : α) : Worldly (Pure.pure a : Run α) := ⟨Pure.pure a, fun _ => rfl⟩

lemma stop (e : Stop) : Worldly (throw e : Run α) := ⟨throw e, fun _ => rfl⟩

lemma failSomewhere (e : RunError) : Worldly (Run.failSomewhere e : Run α) := stop _

lemma fault (f : Fault) : Worldly (Run.fault f : Run α) := stop _

lemma ask (r : Except Fault α) : Worldly (Run.ask r) := by
  cases r with
  | ok a => exact pure a
  | error f => exact fault f

lemma bind {x : Run α} {f : α → Run β} (hx : Worldly x) (hf : ∀ a, Worldly (f a)) :
    Worldly (x >>= f) := by
  obtain ⟨g, hg⟩ := hx.step
  choose h hh using fun a => (hf a).step
  refine ⟨g >>= h, fun m => ?_⟩
  rw [bind_run, bind_run, hg]
  cases g m.world with
  | ok a w => exact hh a (m.inWorld w)
  | error e w => rfl

lemma ite {c : Prop} [Decidable c] {x y : Run α} (hx : Worldly x) (hy : Worldly y) :
    Worldly (if c then x else y) := by
  split
  · exact hx
  · exact hy

/-- Looking at the world. -/
lemma view (f : World → α) : Worldly (do return f (← get).world : Run α) :=
  ⟨fun w => .ok (f w) w, fun _ => rfl⟩

/-- Looking at the machine, for the sake of its world. -/
lemma look {f : Machine → Run α} (hf : ∀ m, Worldly (f m))
    (hw : ∀ m m' : Machine, m.world = m'.world → f m = f m') : Worldly (get >>= f) := by
  choose g hg using fun m => (hf m).step
  -- One machine is looked at in place of all that are in the same world.
  refine ⟨fun w => g ((default : Machine).inWorld w) w, fun m => ?_⟩
  calc f m m
      = f ((default : Machine).inWorld m.world)
        m := by rw [hw m ((default : Machine).inWorld m.world) rfl]
    _ = m.result (g ((default : Machine).inWorld m.world) m.world) := hg _ m

/-- Changing the world. -/
lemma change (f : World → World) : Worldly
    (modify fun m : Machine => m.inWorld (f m.world) : Run Unit) :=
  ⟨fun w => .ok () (f w), fun _ => rfl⟩

end Worldly

/-! ## Cells, files and input -/

lemma worldly_value : Worldly (value r) := .view fun w => w.store.get r

lemma worldly_put {v : Value} : Worldly (put r v) :=
  .change fun w => { w with store := w.store.put r v }

lemma worldly_updateFile {change : FileObject → FileObject} : Worldly (updateFile r change) := by
  refine worldly_value.bind fun v => ?_
  split
  · exact worldly_put
  · exact worldly_put
  · exact .pure _

lemma worldly_updateFolder {change : FolderObject → FolderObject} :
    Worldly (updateFolder r change) := by
  refine worldly_value.bind fun v => ?_
  split
  · exact worldly_put
  · exact .pure _

lemma worldly_updateRecording {change : Recording → Recording} :
    Worldly (updateRecording r change) := by
  refine worldly_value.bind fun v => ?_
  split
  · exact worldly_put
  · exact .pure _

lemma worldly_track {folder file : Ref} : Worldly (track folder file) := by
  refine worldly_value.bind fun v => ?_
  split
  · exact .ite (.pure _) (worldly_put.bind fun _ => worldly_updateFile)
  · exact .pure _

end Run

end AudLang
