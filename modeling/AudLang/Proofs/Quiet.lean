import AudLang.Proofs.Faults
import AudLang.Proofs.Outcome

/-!
Steps that leave names alone.

Most of what a machine does concerns values and files: it opens cells, looks values up, and changes
what is known of files, recordings and folders.  Such a step is quiet: names mean the same cells as
before, no call and no return has begun or ended, every simple value, null and list is as it was,
and if the step stops, it does not stop over a name or over a scope that is not there.

Quiet steps in sequence are quiet (`Quiet.bind`).  What single cells, files and the input are read
and written with is quiet, and so is what is made of that.
-/

namespace AudLang

variable {r : Ref} {v : Value} {s : Store}

/-! ## Values and stores -/

/-- The value in a cell before and after a quiet step.  Only what is known of a file, a recording or
a folder may differ. -/
inductive Value.Persists : Value → Value → Prop
  | same (v : Value) : Persists v v
  | file (f g : FileObject) : Persists (.file f) (.file g)
  | audio (f g : FileObject) (a b : Recording) : Persists (.audio f a) (.audio g b)
  | folder (d e : FolderObject) : Persists (.folder d) (.folder e)

lemma Value.Persists.trans {u w : Value} (huv : u.Persists v) (hvw : v.Persists w) :
    u.Persists w := by
  cases huv with
  | same => exact hvw
  | file => cases hvw <;> exact .file _ _
  | audio => cases hvw <;> exact .audio _ _ _ _
  | folder => cases hvw <;> exact .folder _ _

/-- Is what the value holds all there is to it, so that only an assignment can change it? -/
def Value.isFixed : Value → Bool
  | .file _ | .audio .. | .folder _ => false
  | _ => true

lemma Value.Persists.eq_of_isFixed {w : Value} (h : v.Persists w) (hv : v.isFixed = true) :
    w = v := by
  cases h with
  | same => rfl
  | _ => simp [Value.isFixed] at hv

namespace Store

lemma get_push_of_lt (h : r < s.next) (v : Value) : (s.push v).get r = s.get r := by
  have hne : r ≠ s.cells.size := Nat.ne_of_lt h
  simp [Store.get, Store.push, Array.getElem?_push, hne]

@[simp] lemma get_push_next (s : Store) (v : Value) : (s.push v).get s.next = v := by
  simp [Store.get, Store.push, Store.next]

@[simp] lemma next_push (s : Store) (v : Value) : (s.push v).next = s.next + 1 := by
  simp [Store.next, Store.push]

lemma get_put_self (h : r < s.next) (v : Value) : (s.put r v).get r = v := by
  have hr : r < s.cells.size := h
  simp [Store.get, Store.put, hr]

lemma get_put_of_ne {q : Ref} (h : q ≠ r) (v : Value) : (s.put r v).get q = s.get q := by
  simp [Store.get, Store.put, Ne.symm h]

@[simp] lemma next_put (s : Store) (r : Ref) (v : Value) : (s.put r v).next = s.next := by
  simp [Store.next, Store.put]

lemma get_push_null (s : Store) (r : Ref) : (s.push .null).get r = s.get r := by
  rcases Nat.lt_or_ge r s.next with hlt | hge
  · exact get_push_of_lt hlt _
  · have hr : s.cells.size ≤ r := hge
    simp only [Store.get, Store.push, Array.getD_eq_getD_getElem?, Array.getElem?_push,
      Array.getElem?_eq_none hr, Option.getD_none]
    split <;> rfl

lemma lt_next_of_not_null (h : (s.get r).isNull = false) : r < s.next := by
  rcases Nat.lt_or_ge r s.next with hlt | hge
  · exact hlt
  · have hr : s.cells.size ≤ r := hge
    simp [Store.get, hr, Value.isNull] at h

/-- Cells may have been opened, and what the others hold persists. -/
structure Keeps (s s' : Store) : Prop where
  next : s.next ≤ s'.next
  get : ∀ r, r < s.next → (s.get r).Persists (s'.get r)

lemma Keeps.refl (s : Store) : s.Keeps s := ⟨Nat.le_refl _, fun _ _ => .same _⟩

lemma Keeps.trans {s s' s'' : Store} (h : s.Keeps s') (h' : s'.Keeps s'') : s.Keeps s'' :=
  ⟨Nat.le_trans h.next h'.next, fun r hr =>
    (h.get r hr).trans (h'.get r (Nat.lt_of_lt_of_le hr h.next))⟩

lemma keeps_push (s : Store) (v : Value) : s.Keeps (s.push v) :=
  ⟨by simp, fun r hr => by rw [get_push_of_lt hr]; exact .same _⟩

lemma keeps_put (h : (s.get r).Persists v) : s.Keeps (s.put r v) := by
  refine ⟨by simp, fun q hq => ?_⟩
  by_cases hqr : q = r
  · subst hqr
    rw [get_put_self hq]
    exact h
  · rw [get_put_of_ne hqr]
    exact .same _

end Store

/-! ## Machines and steps -/

/-- Names, calls and returns are as they were, and the store keeps what it held. -/
structure Machine.Undisturbed (m m' : Machine) : Prop where
  module : m'.module = m.module
  calls : m'.calls = m.calls
  functions : m'.functions = m.functions
  returning : m'.returning = m.returning
  depthLimit : m'.depthLimit = m.depthLimit
  store : m.store.Keeps m'.store

namespace Machine.Undisturbed

lemma refl (m : Machine) : m.Undisturbed m := ⟨rfl, rfl, rfl, rfl, rfl, .refl _⟩

lemma trans {m m' m'' : Machine} (h : m.Undisturbed m') (h' : m'.Undisturbed m'') :
    m.Undisturbed m'' where
  module := h'.module.trans h.module
  calls := h'.calls.trans h.calls
  functions := h'.functions.trans h.functions
  returning := h'.returning.trans h.returning
  depthLimit := h'.depthLimit.trans h.depthLimit
  store := h.store.trans h'.store

end Machine.Undisturbed

/-- Is an error about a name: a variable or a function that is not there or is there already, or a
return that belongs to no function? -/
def RunError.isAboutNames : RunError → Bool
  | .undeclared _ | .redeclared _ | .redefined _ | .undefined _ | .strayReturn => true
  | _ => false

/-- Does a run stop over a name? -/
def Stop.isAboutNames : Stop → Bool
  | .failed e _ => e.isAboutNames
  | _ => false

/-- Is an error about calls that are nested too deep? -/
def RunError.isTooDeep : RunError → Bool
  | .tooDeep _ => true
  | _ => false

/-- Does a run stop because it goes too far: calls are nested too deep, or a loop takes too many
rounds? -/
def Stop.isOverrun : Stop → Bool
  | .failed e _ => e.isTooDeep
  | .exhausted => true
  | .fault _ => false

namespace Run

variable {α β : Type}

/-- Stops over neither a name nor a scope that is not there, and not because the run goes too
far. -/
structure QuietStop (e : Stop) : Prop where
  nameless : e.isAboutNames = false
  balanced : e ≠ .fault .unbalanced
  bounded : e.isOverrun = false

lemma QuietStop.failed {e : RunError} {p : Option Position}
    (h : (e.isAboutNames || e.isTooDeep) = false) : QuietStop (.failed e p) :=
  ⟨(Bool.or_eq_false_iff.1 h).1, by simp, (Bool.or_eq_false_iff.1 h).2⟩

/-- The step leaves names alone and does not stop over one, nor over a scope that is not there, nor
because the run goes too far. -/
structure Quiet (x : Run α) : Prop where
  ends : ∀ m, Ends (x m) (fun _ m' => m.Undisturbed m') (fun e m' => m.Undisturbed m' ∧ QuietStop e)

namespace Quiet

lemma pure (a : α) : Quiet (Pure.pure a : Run α) := ⟨fun m => .refl m⟩

lemma bind {x : Run α} {f : α → Run β} (hx : Quiet x) (hf : ∀ a, Quiet (f a)) :
    Quiet (x >>= f) := by
  refine ⟨fun m => ?_⟩
  refine Ends.bind (hx.ends m) fun a m₁ _ h₁ => ?_
  exact ((hf a).ends m₁).weaken (fun _ _ _ h => h₁.trans h) (fun _ _ _ h => ⟨h₁.trans h.1, h.2⟩)

lemma fail {e : RunError} (p : Position) (h : (e.isAboutNames || e.isTooDeep) = false) :
    Quiet (Run.fail e p : Run α) := ⟨fun m => ⟨.refl m, .failed h⟩⟩

lemma failSomewhere {e : RunError} (h : (e.isAboutNames || e.isTooDeep) = false) :
    Quiet (Run.failSomewhere e : Run α) := ⟨fun m => ⟨.refl m, .failed h⟩⟩

lemma fault (f : Fault) (h : f ≠ .unbalanced) : Quiet (Run.fault f : Run α) :=
  ⟨fun m => ⟨.refl m, rfl, by simpa using h, rfl⟩⟩

lemma ask {r : Except Fault α} (h : Balanced r) : Quiet (Run.ask r) := by
  cases r with
  | ok a => exact pure a
  | error f => exact fault f h

/-- What is done about a stop may rely on the stop being that of a quiet step. -/
lemma tryCatch {x : Run α} {handle : Stop → Run α} (hx : Quiet x)
    (hh : ∀ e, QuietStop e → Quiet (handle e)) :
    Quiet (tryCatch x handle) := by
  refine ⟨fun m => ?_⟩
  have h := hx.ends m
  rw [tryCatch_run]
  cases hr : x m with
  | ok a m₁ => rw [hr] at h; exact h
  | error e m₁ =>
    rw [hr] at h
    exact ((hh e h.2).ends m₁).weaken (fun _ _ _ h' => h.1.trans h')
      (fun _ _ _ h' => ⟨h.1.trans h'.1, h'.2⟩)

end Quiet

/-! ## Cells, files and input -/

lemma quiet_get : Quiet (get : Run Machine) := ⟨fun m => .refl m⟩

/-- Writing over a value that persists in what is written. -/
lemma undisturbed_put {m : Machine} (h : (m.store.get r).Persists v) :
    m.Undisturbed { m with store := m.store.put r v } :=
  ⟨rfl, rfl, rfl, rfl, rfl, Store.keeps_put h⟩

lemma quiet_updateFile {change : FileObject → FileObject} : Quiet (updateFile r change) := by
  refine ⟨fun m => ?_⟩
  simp only [updateFile, value, bind_run, get_run, pure_run]
  cases h : m.store.get r with
  | file f => exact undisturbed_put (by rw [h]; exact .file _ _)
  | audio f a => exact undisturbed_put (by rw [h]; exact .audio _ _ _ _)
  | _ => exact .refl m

lemma quiet_updateFolder {change : FolderObject → FolderObject} :
    Quiet (updateFolder r change) := by
  refine ⟨fun m => ?_⟩
  simp only [updateFolder, value, bind_run, get_run, pure_run]
  cases h : m.store.get r with
  | folder d => exact undisturbed_put (by rw [h]; exact .folder _ _)
  | _ => exact .refl m

lemma quiet_updateRecording {change : Recording → Recording} :
    Quiet (updateRecording r change) := by
  refine ⟨fun m => ?_⟩
  simp only [updateRecording, value, bind_run, get_run, pure_run]
  cases h : m.store.get r with
  | audio f a => exact undisturbed_put (by rw [h]; exact .audio _ _ _ _)
  | _ => exact .refl m

lemma quiet_track {folder file : Ref} : Quiet (track folder file) := by
  refine ⟨fun m => ?_⟩
  simp only [track, value, bind_run, get_run, pure_run]
  cases h : m.store.get folder with
  | folder d =>
    simp only
    split
    · exact .refl m
    · have hput := undisturbed_put (m := m) (r := folder)
        (v := .folder { d with files := d.files ++ [file] }) (by rw [h]; exact .folder _ _)
      exact (quiet_updateFile.ends _).weaken (fun _ _ _ h' => hput.trans h')
        (fun _ _ _ h' => ⟨hput.trans h'.1, h'.2⟩)
  | _ => exact .refl m

end Run

end AudLang
