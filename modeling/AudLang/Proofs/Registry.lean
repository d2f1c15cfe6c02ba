import AudLang.Proofs.Sealing
import AudLang.Proofs.Trees
import Mathlib.Logic.Relation

/-!
What machines know of files and folders.

A registry says of each cell which file or which folder it holds, and nothing else.  Everything that
programs can ask of files, folders and recordings comes down to a few deeds on the registry.  What
is always true of files and folders is shown deed by deed.
-/

namespace AudLang

open Run Relation

variable {g r : Ref} {R : Registry} {v : Value} {change : FileObject → FileObject}

/-! ## Registries -/

/-- The folder that a value is, if it is one. -/
def Value.folder? : Value → Option FolderObject
  | .folder d => some d
  | _ => none

/-- The file and the folder in each cell. -/
@[ext] structure Registry where
  file : Ref → Option FileObject
  folder : Ref → Option FolderObject

namespace Registry

/-- Puts a value into a cell. -/
def set (R : Registry) (r : Ref) (v : Value) : Registry where
  file q := if q = r then v.file? else R.file q
  folder q := if q = r then v.folder? else R.folder q

/-- Changes what is known of a file. -/
def reviseFile (R : Registry) (r : Ref) (change : FileObject → FileObject) : Registry :=
  { R with file := fun q => if q = r then (R.file q).map change else R.file q }

/-- Changes what is known of a folder. -/
def reviseFolder (R : Registry) (r : Ref) (change : FolderObject → FolderObject) : Registry :=
  { R with folder := fun q => if q = r then (R.folder q).map change else R.folder q }

/-- A folder forgets a file. -/
def untrack (R : Registry) (g r : Ref) : Registry :=
  R.reviseFolder g fun d => { d with files := d.files.erase r }

/-- A file is forgotten by the folder that it belongs to, if it belongs to one. -/
def leave (R : Registry) (parent : Option Ref) (r : Ref) : Registry :=
  match parent with
  | some g => R.untrack g r
  | none => R

/-- A folder takes a file as its own, unless it has it already. -/
def track (R : Registry) (g r : Ref) : Registry :=
  match R.folder g with
  | some d =>
    if r ∈ d.files then R
    else (R.reviseFolder g fun d => { d with files := d.files ++ [r] }).reviseFile r
      fun f => { f with parent := some g, isDeleted := false }
  | none => R

@[simp] lemma leave_none (R : Registry) (r : Ref) : R.leave none r = R := rfl

@[simp] lemma leave_some (R : Registry) (g r : Ref) : R.leave (some g) r = R.untrack g r := rfl

/-- There is neither a file nor a folder in the cell. -/
def IsFree (R : Registry) (r : Ref) : Prop := R.file r = none ∧ R.folder r = none

/-- Putting something else into a free cell changes nothing. -/
lemma set_of_isFree (h : R.IsFree r) (hfile : v.file? = none) (hfolder : v.folder? = none) :
    R.set r v = R := by
  ext1 <;> funext q <;> by_cases hq : q = r
  · simp [set, hq, hfile, h.1]
  · simp [set, hq]
  · simp [set, hq, hfolder, h.2]
  · simp [set, hq]

/-- What is known of the sound in a file is not kept. -/
lemma set_audio (R : Registry) (r : Ref) (f : FileObject) (a : Recording) :
    R.set r (.audio f a) = R.set r (.file f) := rfl

lemma set_eq_reviseFile {f : FileObject} (hf : R.file r = some f) (hd : R.folder r = none)
    (hfile : v.file? = some (change f)) (hfolder : v.folder? = none) :
    R.set r v = R.reviseFile r change := by
  ext1 <;> funext q <;> by_cases hq : q = r
  · simp [set, reviseFile, hq, hfile, hf]
  · simp [set, reviseFile, hq]
  · simp [set, reviseFile, hq, hfolder, hd]
  · simp [set, reviseFile, hq]

lemma set_eq_reviseFolder {d : FolderObject} {change : FolderObject → FolderObject}
    (hf : R.file r = none)
    (hd : R.folder r = some d) (hfile : v.file? = none) (hfolder : v.folder? = some (change d)) :
    R.set r v = R.reviseFolder r change := by
  ext1 <;> funext q <;> by_cases hq : q = r
  · simp [set, reviseFolder, hq, hfile, hf]
  · simp [set, reviseFolder, hq]
  · simp [set, reviseFolder, hq, hfolder, hd]
  · simp [set, reviseFolder, hq]

lemma reviseFile_of_none (h : R.file r = none) (change : FileObject → FileObject) :
    R.reviseFile r change = R := by
  ext1
  · funext q
    by_cases hq : q = r
    · simp [reviseFile, hq, h]
    · simp [reviseFile, hq]
  · rfl

lemma reviseFolder_of_none (h : R.folder r = none) (change : FolderObject → FolderObject) :
    R.reviseFolder r change = R := by
  ext1
  · rfl
  · funext q
    by_cases hq : q = r
    · simp [reviseFolder, hq, h]
    · simp [reviseFolder, hq]

lemma reviseFile_of_id (h : ∀ f, R.file r = some f → change f = f) : R.reviseFile r change = R := by
  cases hf : R.file r with
  | none => exact reviseFile_of_none hf change
  | some f =>
    ext1
    · funext q
      by_cases hq : q = r
      · simp [reviseFile, hq, hf, h f hf]
      · simp [reviseFile, hq]
    · rfl

end Registry

namespace Machine

/-- What a machine knows of files and folders. -/
def registry (m : Machine) : Registry where
  file r := (m.store.get r).file?
  folder r := (m.store.get r).folder?

/-- The text that a request is given first, if it is one. -/
def firstText? (m : Machine) (args : List Ref) : Option String :=
  match args.head?.map m.store.get with
  | some (.string (.text s)) => some s
  | _ => none

variable {m : Machine}

lemma isFree_next (m : Machine) : m.registry.IsFree m.store.next := by
  have hnull : m.store.get m.store.next = .null := by simp [Store.get, Store.next]
  exact ⟨by simp [registry, hnull, Value.file?], by simp [registry, hnull, Value.folder?]⟩

lemma registry_push (m : Machine) (v : Value) :
    ({ m with store := m.store.push v } : Machine).registry = m.registry.set m.store.next v := by
  ext1 <;> funext q <;> simp only [registry, Registry.set, Store.get_push] <;> split <;> rfl

lemma registry_put (h : (m.store.get r).isNull = false) (v : Value) :
    ({ m with store := m.store.put r v } : Machine).registry = m.registry.set r v := by
  have hlt := Store.lt_next_of_not_null h
  ext1 <;> funext q <;> by_cases hq : q = r
  · simp [registry, Registry.set, hq, Store.get_put_self hlt]
  · simp [registry, Registry.set, hq, Store.get_put_of_ne hq]
  · simp [registry, Registry.set, hq, Store.get_put_self hlt]
  · simp [registry, Registry.set, hq, Store.get_put_of_ne hq]

/-- Writing what is known of a file anew revises it. -/
lemma registry_put_file {f : FileObject} (hf : (m.store.get r).file? = some f)
    (hfile : v.file? = some (change f)) (hfolder : v.folder? = none) :
    ({ m with store := m.store.put r v } : Machine).registry = m.registry.reviseFile r change := by
  have hget : (m.store.get r).isNull = false ∧ (m.store.get r).folder? = none := by
    cases h : m.store.get r <;> rw [h] at hf <;> cases hf <;> exact ⟨rfl, rfl⟩
  rw [registry_put hget.1]
  exact Registry.set_eq_reviseFile hf hget.2 hfile hfolder

lemma registry_put_folder {d : FolderObject} (hd : m.store.get r = .folder d)
    (change : FolderObject → FolderObject) :
    ({ m with store := m.store.put r (.folder (change d)) } : Machine).registry
      = m.registry.reviseFolder r change := by
  have hfile : m.registry.file r = none := by simp [registry, hd, Value.file?]
  have hfolder : m.registry.folder r = some d := by simp [registry, hd, Value.folder?]
  rw [registry_put (by simp [hd, Value.isNull])]
  exact Registry.set_eq_reviseFolder hfile hfolder rfl rfl

end Machine

/-! ## Deeds -/

/-- What is known of a file that is opened. -/
def Files.object (fs : Files) (path : String) (parent : Option Ref) : FileObject where
  path := fs.absolute path
  name := Path.base (fs.absolute path)
  parent := parent
  isDeleted := false

namespace Registry

variable {tame : Prop} {fs : Files}

/-- How a file that is opened comes by its path and its folder. -/
inductive Origin (tame : Prop) (fs : Files) (R : Registry) : String → Option Ref → Prop
  /-- The path is given, and the file belongs to no folder. -/
  | given (path : String) : Origin tame fs R path none
  /-- A folder lists what is in it. -/
  | listed {g : Ref} {d : FolderObject} {name : String} (hg : R.folder g = some d)
      (hn : name ∈ fs.names d.path) : Origin tame fs R (Path.join d.path name) (some g)
  /-- The file is fetched through a folder by a text. -/
  | fetched {g : Ref} {d : FolderObject} {name : String} (hg : R.folder g = some d)
      (ht : tame → Path.folder (fs.absolute (Path.join d.path name)) = d.path) :
      Origin tame fs R (Path.join d.path name) (some g)
  /-- The file of another value is opened once more. -/
  | shared {q : Ref} {f : FileObject} (hq : R.file q = some f) : Origin tame fs R f.path f.parent

/-- What can be done to the files and folders of a registry. -/
inductive Deed (tame : Prop) (fs : Files) (R : Registry) : Registry → Prop
  | rests : Deed tame fs R R
  | opens {r : Ref} {path : String} {parent : Option Ref} (hr : R.IsFree r)
      (ho : Origin tame fs R path parent)
      (hf : fs.isFile (fs.absolute path) = true) :
        Deed tame fs R (R.set r (.file (fs.object path parent)))
  | opensFolder {r : Ref} {path name : String} (hr : R.IsFree r) :
      Deed tame fs R (R.set r (.folder ⟨fs.absolute path, name, [], false⟩))
  | renames {r : Ref} {f : FileObject} {name : String} (hf : R.file r = some f)
      (hlive : f.isDeleted = false) (ht : tame → Path.IsName name) :
      Deed tame fs R (R.reviseFile r fun f' =>
        { f' with path := Path.join (Path.folder f.path) name, name })
  /-- The new extension stands behind a dot and holds neither slashes nor dots. -/
  | reformats {r f extension path} (hf : R.file r = some f) (hlive : f.isDeleted = false)
      (hempty : extension ≠ "") (hslash : '/' ∉ extension.toList) (hdot : '.' ∉ extension.toList)
      (hpath : path = (Path.splitExtension f.path).1 ++ "." ++ extension) :
      Deed tame fs R (R.reviseFile r fun f' => { f' with path, name := Path.base path })
  | moves {r g f d} (hf : R.file r = some f) (hlive : f.isDeleted = false)
      (hg : R.folder g = some d) :
      Deed tame fs R ((((R.leave f.parent r).reviseFile r fun f' =>
        { f' with parent := some g }).track g r).reviseFile r
        fun f' => { f' with path := Path.join d.path f.name })
  /-- A file that does not lie in the folder is known by the path of its copy. -/
  | adds {r g f d path} (hf : R.file r = some f) (hlive : f.isDeleted = false)
      (hg : R.folder g = some d)
      (hpath : path = if fs.absolute (Path.folder f.path) ≠ d.path then Path.join d.path
        f.name else f.path) :
      Deed tame fs R (((R.reviseFile r fun f' => { f' with path }).leave
        (if f.parent = some g then none else f.parent) r).track g r)
  | drops {r : Ref} {f : FileObject} (hf : R.file r = some f)
      (hlive : f.parent = none → f.isDeleted = false) :
      Deed tame fs R ((R.leave f.parent r).reviseFile r fun f' =>
        { f' with parent := none, isDeleted := true })

end Registry

/-- What is known of files and folders may have changed by one deed; the tree stays proper. -/
structure Change (tame : Prop) (m m' : Machine) : Prop where
  deed : m.registry.Deed tame m.files m'.registry
  proper : m.files.Proper → m'.files.Proper

/-- One change after the other. -/
abbrev Changes (tame : Prop) : Machine → Machine → Prop := ReflTransGen (Change tame)

lemma Changes.of_registry {tame : Prop} {m m' : Machine} (h : m'.registry = m.registry)
    (hp : m.files.Proper → m'.files.Proper) : Changes tame m m' :=
  .single ⟨h ▸ .rests, hp⟩

namespace Run

variable {α β : Type} {tame : Prop} {m : Machine} {R' R'' : Registry} {fs fs' fs'' : Files}

/-! ## Steps that always answer -/

/-- From machines with the one registry and files, the step answers with the other registry and
files. -/
structure Settles (R : Registry) (fs : Files) (x : Run α) (R' : Registry) (fs' : Files) : Prop where
  ends : ∀ m : Machine, m.registry = R → m.files = fs →
    Ends (x m) (fun _ m' => m'.registry = R' ∧ m'.files = fs') (fun _ _ => False)

lemma Settles.bind {x : Run α} {f : α → Run β} (hx : Settles R fs x R' fs')
    (hf : ∀ a, Settles R' fs' (f a) R'' fs'') : Settles R fs (x >>= f) R'' fs'' :=
  ⟨fun m hR hfs => Ends.bind (hx.ends m hR hfs) fun a m₁ _ h₁ => (hf a).ends m₁ h₁.1 h₁.2⟩

lemma settles_setFiles {fs' : Files} : Settles R fs (setFiles fs') R fs' :=
  ⟨fun _ hR _ => ⟨hR, rfl⟩⟩

lemma settles_alloc (hfile : v.file? = none) (hfolder : v.folder? = none) :
    Settles R fs (alloc v) R fs := by
  refine ⟨fun m hR hfs => ⟨?_, hfs⟩⟩
  rw [← hR]
  exact (m.registry_push v).trans (Registry.set_of_isFree m.isFree_next hfile hfolder)

lemma settles_nothing : Settles R fs nothing R fs := settles_alloc rfl rfl

lemma settles_updateFile {change : FileObject → FileObject} :
    Settles R fs (updateFile r change) (R.reviseFile r change) fs := by
  refine ⟨fun m hR hfs => ?_⟩
  subst hR
  simp only [updateFile, value, bind_run, get_run, pure_run]
  cases h : m.store.get r with
  | file f | audio f a => exact ⟨Machine.registry_put_file (by rw [h]; rfl) rfl rfl, hfs⟩
  | _ =>
    exact ⟨(Registry.reviseFile_of_none (by simp [Machine.registry, h, Value.file?]) _).symm, hfs⟩

lemma settles_updateFolder {change : FolderObject → FolderObject} :
    Settles R fs (updateFolder g change) (R.reviseFolder g change) fs := by
  refine ⟨fun m hR hfs => ?_⟩
  subst hR
  simp only [updateFolder, value, bind_run, get_run, pure_run]
  cases h : m.store.get g with
  | folder d => exact ⟨Machine.registry_put_folder h change, hfs⟩
  | _ => exact ⟨(Registry.reviseFolder_of_none (by simp [Machine.registry, h, Value.folder?])
      _).symm, hfs⟩

lemma settles_updateRecording {change : Recording → Recording} :
    Settles R fs (updateRecording r change) R fs := by
  refine ⟨fun m hR hfs => ?_⟩
  subst hR
  simp only [updateRecording, value, bind_run, get_run, pure_run]
  cases h : m.store.get r with
  | audio f a =>
    have hput : ({ m with store := m.store.put r (.audio f (change a)) } : Machine).registry =
        m.registry.reviseFile r id := Machine.registry_put_file (by rw [h]; rfl) rfl rfl
    exact ⟨hput.trans (Registry.reviseFile_of_id fun _ _ => rfl), hfs⟩
  | _ => exact ⟨rfl, hfs⟩

lemma settles_untrack : Settles R fs (untrack g r) (R.untrack g r) fs := settles_updateFolder

lemma settles_track : Settles R fs (track g r) (R.track g r) fs := by
  refine ⟨fun m hR hfs => ?_⟩
  subst hR
  simp only [track, value, bind_run, get_run, pure_run]
  cases h : m.store.get g with
  | folder d =>
    have hfolder : m.registry.folder g = some d := by simp [Machine.registry, h, Value.folder?]
    simp only [Registry.track, hfolder]
    by_cases hr : r ∈ d.files
    · simp only [List.contains_eq_mem, hr]
      exact ⟨rfl, hfs⟩
    · simp only [List.contains_eq_mem, hr]
      have hput := Machine.registry_put_folder h fun d => { d with files := d.files ++ [r] }
      exact settles_updateFile.ends _ hput hfs
  | _ =>
    have hfolder : m.registry.folder g = none := by simp [Machine.registry, h, Value.folder?]
    simp only [Registry.track, hfolder]
    exact ⟨rfl, hfs⟩

/-! ## Steps that do deeds -/

/-- From this machine on, the step ends behind a number of changes, whether it answers or stops. -/
structure Does (tame : Prop) (m : Machine) (x : Run α) : Prop where
  ends : Ends (x m) (fun _ m' => Changes tame m m') (fun _ m' => Changes tame m m')

namespace Does

variable {x : Run α} {f : α → Run β}

lemma of_onlyLooks (h : OnlyLooks x) : Does tame m x :=
  ⟨(h.ends m).weaken (fun _ _ _ h => h ▸ .refl) (fun _ _ _ h => h ▸ .refl)⟩

lemma fail (e : RunError) (p : Position) : Does tame m (Run.fail e p : Run α) :=
  .of_onlyLooks (.fail e p)

lemma fault (e : Fault) : Does tame m (Run.fault e : Run α) := .of_onlyLooks (.fault e)

lemma pure (a : α) : Does tame m (Pure.pure a : Run α) := .of_onlyLooks (.pure a)

lemma bind (hx : Does tame m x) (hf : ∀ a m₁, x m = .ok a m₁ → Does tame m₁ (f a)) :
    Does tame m (x >>= f) :=
  ⟨Ends.bind hx.ends fun a m₁ h h₁ => (hf a m₁ h).ends.weaken (fun _ _ _ h' => h₁.trans h')
    (fun _ _ _ h' => h₁.trans h')⟩

/-- Behind a step that only looks, the machine is the same. -/
lemma look (hx : OnlyLooks x) (hf : ∀ a, x m = .ok a m → Does tame m (f a)) :
    Does tame m (x >>= f) := by
  refine (of_onlyLooks hx).bind fun a m₁ h => ?_
  have hsame := (hx.ends m).ok h
  subst hsame
  exact hf a h

lemma ite {c : Prop} [Decidable c] {y : Run α} (hx : c → Does tame m x) (hy : ¬c → Does tame m y) :
    Does tame m (if c then x else y) := by
  split
  · exact hx ‹_›
  · exact hy ‹_›

lemma tryCatch {handle : Stop → Run α} (hx : Does tame m x)
    (hh : ∀ e m₁, x m = .error e m₁ → Does tame m₁ (handle e)) :
    Does tame m (tryCatch x handle) := by
  have hends := hx.ends
  refine ⟨?_⟩
  rw [tryCatch_run]
  cases h : x m with
  | ok a m₁ =>
    rw [h] at hends
    exact hends
  | error e m₁ =>
    rw [h] at hends
    exact (hh e m₁ h).ends.weaken (fun _ _ _ h' => ReflTransGen.trans hends h')
      (fun _ _ _ h' => ReflTransGen.trans hends h')

end Does

/-- A step that always answers has done its deed. -/
lemma Settles.does {x : Run α} (h : Settles m.registry m.files x R fs)
    (hd : m.registry.Deed tame m.files R) (hp : m.files.Proper → fs.Proper) : Does tame m x :=
  ⟨(h.ends m rfl rfl).weaken (fun _ _ _ h' => .single ⟨h'.1 ▸ hd, h'.2 ▸ hp⟩) (fun _ _ _ h' =>
    h'.elim)⟩

lemma does_alloc (hfile : v.file? = none) (hfolder : v.folder? = none) :
    Does tame m (alloc v) := (settles_alloc hfile hfolder).does .rests id

lemma does_nothing : Does tame m nothing := does_alloc rfl rfl

end Run

end AudLang
