import AudLang.Proofs.Ownership

/-!
Paths, names and folders of files.

A file is known by its path, by its name and by the folder it belongs to.  As long as nobody uses a
slash where a name is asked for, the three agree: the path is in normal form, the name is its last
component, and the folder has the path before it.
-/

namespace AudLang

open Run Relation AudLang.Path

variable {d : FolderObject} {f : FileObject}

namespace Registry

variable {fs : Files} {R R' : Registry} {g r : Ref}

/-- The path of a folder. -/
def pathOf (R : Registry) (g : Ref) : Option String := (R.folder g).map (·.path)

/-- The file lies at a name behind a route, and so does the folder that it belongs to. -/
def Lies (R : Registry) (f : FileObject) : Prop :=
  ∃ (l : Route) (c : String) (hc : IsName c), f.path = (l.child c hc).path ∧ f.name = c ∧
    ∀ g, f.parent = some g → R.pathOf g = some l.path

/-- All files that are not deleted lie somewhere, and all folders are at routes. -/
structure Placed (R : Registry) : Prop where
  file : ∀ r f, R.file r = some f → f.isDeleted = false → R.Lies f
  folder : ∀ g p, R.pathOf g = some p → ∃ l : Route, p = l.path

/-! ## Paths of folders -/

lemma pathOf_of_folder (h : R.folder g = some d) : R.pathOf g = some d.path := by
  simp [pathOf, h]

@[simp] lemma pathOf_reviseFile (R : Registry) (r : Ref) (change : FileObject → FileObject) :
    (R.reviseFile r change).pathOf = R.pathOf := rfl

lemma pathOf_reviseFolder (R : Registry) (g : Ref) {change : FolderObject → FolderObject}
    (h : ∀ d, (change d).path = d.path) : (R.reviseFolder g change).pathOf = R.pathOf := by
  funext q
  by_cases hq : q = g
  · simp [pathOf, reviseFolder, hq, Option.map_map, Function.comp_def, h]
  · simp [pathOf, reviseFolder, hq]

@[simp] lemma pathOf_untrack (R : Registry) (g r : Ref) : (R.untrack g r).pathOf = R.pathOf :=
  R.pathOf_reviseFolder g fun _ => rfl

@[simp] lemma pathOf_leave (R : Registry) (parent : Option Ref) (r : Ref) :
    (R.leave parent r).pathOf = R.pathOf := by
  cases parent with
  | none => rfl
  | some g => exact R.pathOf_untrack g r

@[simp] lemma pathOf_track (R : Registry) (g r : Ref) : (R.track g r).pathOf = R.pathOf := by
  unfold track
  split
  · split
    · rfl
    · rw [pathOf_reviseFile]
      exact R.pathOf_reviseFolder g fun _ => rfl
  · rfl

lemma Lies.of_pathOf (h : R.Lies f) (hR : ∀ g p, R.pathOf g = some p → R'.pathOf g = some p) :
    R'.Lies f := by
  obtain ⟨l, c, hc, hpath, hname, hparent⟩ := h
  exact ⟨l, c, hc, hpath, hname, fun g hg => hR g _ (hparent g hg)⟩

/-- Where no folder is opened and a single file changes, only this file has to be looked at. -/
lemma Placed.of_file (hR : R.Placed) (r : Ref) (hpath : R'.pathOf = R.pathOf)
    (hne : ∀ q, q ≠ r → R'.file q = R.file q)
    (hr : ∀ f', R'.file r = some f' → f'.isDeleted = false → R.Lies f') : R'.Placed := by
  refine ⟨fun q f' hq hlive => ?_, fun g p hg => hR.folder g p (hpath ▸ hg)⟩
  have hlies : R.Lies f' := by
    by_cases hqr : q = r
    · subst hqr
      exact hr f' hq hlive
    · rw [hne q hqr] at hq
      exact hR.file q f' hq hlive
  exact hlies.of_pathOf fun g p hg => by rw [hpath, hg]

/-! ## Single changes -/

lemma Placed.reviseFile {change : FileObject → FileObject} (hR : R.Placed) (hf : R.file r = some f)
    (h : R.Lies (change f)) : (R.reviseFile r change).Placed := by
  refine hR.of_file r rfl (fun q hq => file_reviseFile_of_ne hq change) fun f' hf' _ => ?_
  cases (file_reviseFile_self hf change).symm.trans hf'
  exact h

lemma Placed.set_file (hR : R.Placed) (hr : R.IsFree r) (h : R.Lies f) :
    (R.set r (.file f)).Placed := by
  have hpath : (R.set r (.file f)).pathOf = R.pathOf := by
    unfold pathOf
    rw [folder_set_of_isFree hr rfl]
  refine hR.of_file r hpath (fun q hq => file_set_of_ne hq) fun f' hf' _ => ?_
  simp only [set, if_true, Value.file?, Option.some.injEq] at hf'
  exact hf' ▸ h

lemma file_track_self (hf : R.file r = some f) (hg : R.folder g = some d)
    (h : r ∈ d.files → f.parent = some g) :
    ∃ f', (R.track g r).file r = some f' ∧ f'.path = f.path ∧ f'.name = f.name ∧
      f'.parent = some g := by
  unfold track
  rw [hg]
  simp only
  split
  · exact ⟨f, hf, rfl, rfl, h ‹_›⟩
  · exact ⟨_, file_reviseFile_self hf _, rfl, rfl, rfl⟩

lemma exists_folder_leave (hg : R.folder g = some d) (parent : Option Ref) (r : Ref) :
    ∃ d', (R.leave parent r).folder g = some d' ∧ d'.files ⊆ d.files := by
  cases parent with
  | none => exact ⟨d, hg, fun _ h => h⟩
  | some h =>
    by_cases hgh : g = h
    · refine ⟨{ d with files := d.files.erase r }, ?_, List.erase_subset⟩
      subst hgh
      simp [leave, untrack, reviseFolder, hg]
    · exact ⟨d, by simp [leave, untrack, reviseFolder, hgh, hg], fun _ h => h⟩

lemma exists_file_moves (hf : R.file r = some f) (hg : R.folder g = some d) (path : String) :
    ∃ f', ((((R.leave f.parent r).reviseFile r fun f' => { f' with parent := some g }).track g
      r).reviseFile r
      fun f' => { f' with path }).file r = some f' ∧ f'.path = path ∧ f'.name = f.name ∧
        f'.parent = some g := by
  obtain ⟨d', hd', -⟩ := exists_folder_leave hg f.parent r
  have hleft : (R.leave f.parent r).file r = some f := by rw [file_leave, hf]
  obtain ⟨f₁, hf₁, -, hname, hparent⟩ := file_track_self (g := g)
    (file_reviseFile_self hleft fun f' => { f' with parent := some g }) hd' fun _ => rfl
  exact ⟨_, file_reviseFile_self hf₁ _, rfl, hname, hparent⟩

lemma exists_file_adds (hR : R.Owned) (hf : R.file r = some f) (hg : R.folder g = some d)
    (path : String) : ∃ f', (((R.reviseFile r fun f' => { f' with path }).leave
      (if f.parent = some g then none else f.parent) r).track g r).file r = some f' ∧
      f'.path = path ∧ f'.name = f.name ∧ f'.parent = some g := by
  have hrevised := file_reviseFile_self hf fun f' => { f' with path }
  obtain ⟨d', hd', hsub⟩ := exists_folder_leave (R := R.reviseFile r fun f' => { f' with path }) hg
    (if f.parent = some g then none else f.parent) r
  have hown : r ∈ d'.files → ({ f with path } : FileObject).parent = some g := by
    intro hr
    obtain ⟨f₀, hf₀, hparent, -⟩ := hR.tracked g d r hg (hsub hr)
    cases hf.symm.trans hf₀
    exact hparent
  exact file_track_self (by rw [file_leave, hrevised]) hd' hown

lemma Placed.set_folder (hR : R.Placed) (hr : R.IsFree r) (hd : ∃ l : Route, d.path = l.path) :
    (R.set r (.folder d)).Placed := by
  have hfile : (R.set r (.folder d)).file = R.file := file_set_of_isFree hr rfl
  have hne : ∀ {g p}, R.pathOf g = some p → g ≠ r := by
    rintro g p hg rfl
    simp [pathOf, hr.2] at hg
  have hpath : ∀ g p, R.pathOf g = some p → (R.set r (.folder d)).pathOf g = some p := by
    intro g p hg
    simpa [pathOf, set, hne hg] using hg
  refine ⟨fun q f hq hlive => ?_, fun g p hg => ?_⟩
  · rw [hfile] at hq
    exact (hR.file q f hq hlive).of_pathOf hpath
  · by_cases hgr : g = r
    · simp only [pathOf, set, hgr, if_true, Value.folder?, Option.map_some, Option.some.injEq] at hg
      exact hg ▸ hd
    · refine hR.folder g p ?_
      simpa [pathOf, set, hgr] using hg

lemma lies_object (hO : R.Owned) (hR : R.Placed) (hfs : fs.Proper) {path : String}
    {parent : Option Ref}
    (ho : R.Origin True fs path parent) (hf : fs.isFile (fs.absolute path) = true) :
    R.Lies (fs.object path parent) := by
  obtain ⟨l, hl⟩ := fs.exists_route_absolute path
  have hnames := Files.names_ne_nil_of_isFile (hl ▸ hf)
  obtain ⟨l', c, hc, rfl⟩ := l.root_or_child.resolve_left hnames
  have hname : base (fs.absolute path) = c := by rw [hl, l'.base_child]
  refine ⟨l', c, hc, hl, hname, fun g hg => ?_⟩
  -- the folder is where the route without the name ends
  have hfolder : Path.folder (fs.absolute path) = l'.path := by rw [hl, Route.folder_child]
  cases ho with
  | given => cases hg
  | @listed _ d name hd hn =>
    cases hg
    obtain ⟨k, hk⟩ := hR.folder g d.path (pathOf_of_folder hd)
    have hisName := Files.isName_of_mem_names hfs hn
    rw [hk, ← k.path_child hisName, fs.absolute_path, Route.folder_child] at hfolder
    rw [pathOf_of_folder hd, hk, hfolder]
  | @fetched _ d name hd ht =>
    cases hg
    rw [pathOf_of_folder hd, ← hfolder, ht trivial]
  | @shared q f hq =>
    have hlive : f.isDeleted = false := by
      rw [Bool.eq_false_iff]
      intro hdeleted
      have hnone := hO.deleted q f hq hdeleted
      rw [show f.parent = some g from hg] at hnone
      cases hnone
    obtain ⟨k, c', hc', hpath, -, hparent⟩ := hR.file q f hq hlive
    rw [hpath, fs.absolute_path, Route.folder_child] at hfolder
    rw [hparent g hg, hfolder]

/-! ## Deeds -/

lemma lies_join (hR : R.Placed) (hf : R.Lies f) (hg : R.folder g = some d) {f' : FileObject}
    (hpath : f'.path = join d.path f.name) (hname : f'.name = f.name)
    (hparent : f'.parent = some g) : R.Lies f' := by
  obtain ⟨k, hk⟩ := hR.folder g d.path (pathOf_of_folder hg)
  obtain ⟨l, c, hc, -, rfl, -⟩ := hf
  refine ⟨k, f.name, hc, by rw [hpath, hk, k.path_child], hname, fun h hh => ?_⟩
  cases hparent.symm.trans hh
  rw [pathOf_of_folder hg, hk]

lemma isName_extension {stem extension : String} (hstem : '/' ∉ stem.toList)
    (hempty : extension ≠ "")
    (hslash : '/' ∉ extension.toList) (hdot : '.' ∉ extension.toList) :
    IsName (stem ++ ("." ++ extension)) := by
  rcases List.eq_nil_or_concat extension.toList with hnil | ⟨w, a, hw⟩
  · exact absurd (String.toList_eq_nil_iff.1 hnil) hempty
  · -- the last letter is no dot
    have ha : a ≠ '.' := by
      rintro rfl
      exact hdot (by simp [hw])
    have htext : (stem ++ ("." ++ extension)).toList
      = (stem.toList ++ '.' :: w) ++ [a] := by simp [hw]
    have hlast : (stem ++ ("." ++ extension)).toList.getLast? = some
      a := by rw [htext, List.getLast?_concat]
    refine ⟨?_, ?_, ?_, by simp [hstem, hslash]⟩
    · intro h
      rw [h] at hlast
      cases hlast
    · intro h
      rw [h] at hlast
      exact ha (Option.some.inj hlast).symm
    · intro h
      rw [h] at hlast
      exact ha (Option.some.inj hlast).symm

/-- Every tame deed leaves the files where they lie or at another such place. -/
lemma Deed.placed (h : R.Deed True fs R') (hO : R.Owned) (hR : R.Placed) (hfs : fs.Proper) :
    R'.Placed := by
  cases h with
  | rests => exact hR
  | opens hr ho hf => exact hR.set_file hr (lies_object hO hR hfs ho hf)
  | opensFolder hr => exact hR.set_folder hr (fs.exists_route_absolute _)
  | @renames r f name hf hlive ht =>
    refine hR.reviseFile hf ?_
    obtain ⟨l, c, hc, hpath, -, hparent⟩ := hR.file r f hf hlive
    refine ⟨l, name, ht trivial, ?_, rfl, hparent⟩
    rw [l.path_child, hpath, Route.folder_child]
  | @reformats r f extension path hf hlive hempty hslash hdot hpath =>
    refine hR.reviseFile hf ?_
    obtain ⟨l, c, hc, hold, -, hparent⟩ := hR.file r f hf hlive
    obtain ⟨stem, hstem, heq⟩ := l.exists_stem hc
    have hname := isName_extension hstem hempty hslash hdot
    have hnew : path = (l.child _ hname).path := by rw [hpath, hold, String.append_assoc, heq]
    exact ⟨l, _, hname, hnew, by rw [hnew, Route.base_child], hparent⟩
  | @moves r g f d hf hlive hg =>
    obtain ⟨f₁, hf₁, hpath₁, hname, hparent⟩ := exists_file_moves hf hg (Path.join d.path f.name)
    refine hR.of_file r (by simp) (fun q hq => ?_) fun f' hf' _ => ?_
    · rw [file_reviseFile_of_ne hq, file_track_of_ne hq, file_reviseFile_of_ne hq, file_leave]
    · cases hf₁.symm.trans hf'
      exact lies_join hR (hR.file r f hf hlive) hg hpath₁ hname hparent
  | @adds r g f d path hf hlive hg hpath =>
    have hlies := hR.file r f hf hlive
    obtain ⟨f₁, hf₁, hpath₁, hname, hparent⟩ := exists_file_adds hO hf hg path
    refine hR.of_file r (by simp) (fun q hq => ?_) fun f' hf' _ => ?_
    · rw [file_track_of_ne hq, file_leave, file_reviseFile_of_ne hq]
    · cases hf₁.symm.trans hf'
      by_cases helse : fs.absolute (Path.folder f.path) ≠ d.path
      · rw [if_pos helse] at hpath
        exact lies_join hR hlies hg (hpath₁.trans hpath) hname hparent
      · -- the file lies in the folder already
        rw [if_neg helse] at hpath
        obtain ⟨l, c, hc, hold, hc', -⟩ := hlies
        rw [not_not, hold, Route.folder_child, fs.absolute_path] at helse
        refine ⟨l, c, hc, (hpath₁.trans hpath).trans hold, hname.trans hc', fun h hh => ?_⟩
        cases hparent.symm.trans hh
        rw [pathOf_of_folder hg, helse]
  | @drops r f hf hlive =>
    refine hR.of_file r (by simp) (fun q hq => ?_) fun f' hf' hlive' => ?_
    · rw [file_reviseFile_of_ne hq, file_leave]
    · have hleft : (R.leave f.parent r).file r = some f := by rw [file_leave, hf]
      cases (file_reviseFile_self hleft _).symm.trans hf'
      cases hlive'

end Registry

/-! ## Requests that stray -/

namespace Run

-- what is in a file is never computed here
seal Files.isFile Run.load

variable {m m' : Machine} {r : Ref} {args : List Ref} {p : Position} {a : Ref}

lemma registry_of_renameFile (h : renameFile r f args p m = .ok a m') : ∃ n path,
    m.firstText? args = some n ∧ m'.registry = m.registry.reviseFile r fun f' =>
      { f' with path, name := n } := by
  obtain ⟨d, hd, h⟩ := looks_contentOf.ok_of_bind h
  obtain ⟨name, hname, h⟩ := looks_pathText.ok_of_bind h
  obtain ⟨fs, -, h⟩ := looks_files.ok_of_bind h
  refine ⟨name, Path.join (Path.folder f.path) name, firstText?_of_pathText hd hname, ?_⟩
  cases hrename : fs.rename f.path (Path.join (Path.folder f.path) name) with
  | ok fs' =>
    rw [hrename] at h
    have hsettles : Settles m.registry m.files (do
        setFiles fs'
        updateFile r fun f' => { f' with path := Path.join (Path.folder f.path) name, name }
        nothing) (m.registry.reviseFile r _) fs' :=
      settles_setFiles.bind fun _ => settles_updateFile.bind fun _ => settles_nothing
    exact ((hsettles.ends m rfl rfl).ok h).1
  | error e =>
    rw [hrename] at h
    cases e <;> cases h

/-- For these requests recordings have no methods of their own. -/
lemma callFile_of_callMethod {name : String} (hname : name = "change_filename" ∨ name = "move")
    (hf : m.registry.file r = some f) (h : callMethod r name args p m = .ok a m') :
    ∃ v, callFile r v f name args p m = .ok a m' := by
  obtain ⟨v, hv, h⟩ := looks_value.ok_of_bind h
  cases hv
  have hf : (m.store.get r).file? = some f := hf
  cases hget : m.store.get r <;> rw [hget] at hf h <;> cases hf
  · exact ⟨_, h⟩
  · obtain ⟨u, -, h⟩ := looks_checkFile.ok_of_bind h
    obtain ⟨loaded, -, h⟩ := looks_load.ok_of_bind h
    split at h
    · cases h
    · cases h
    · rcases hname with rfl | rfl <;> exact ⟨_, h⟩

lemma renameFile_of_callMethod (hf : m.registry.file r = some f)
    (h : callMethod r "change_filename" args p m = .ok a m') :
    f.isDeleted = false ∧ renameFile r f args p m = .ok a m' := by
  obtain ⟨v, h⟩ := callFile_of_callMethod (.inl rfl) hf h
  obtain ⟨u, hcheck, h⟩ := looks_checkFile.ok_of_bind h
  exact ⟨isDeleted_of_checkFile hcheck, h⟩

lemma getFile_of_callMethod (hd : m.registry.folder r = some d)
    (h : callMethod r "get_file" args p m = .ok a m') : getFile r d args p m = .ok a m' := by
  obtain ⟨v, hv, h⟩ := looks_value.ok_of_bind h
  cases hv
  have hd : (m.store.get r).folder? = some d := hd
  cases hget : m.store.get r <;> rw [hget] at hd h <;> cases hd
  obtain ⟨u, -, h⟩ := looks_checkFolder.ok_of_bind h
  exact h

lemma opened_of_getFile {n : String} (hn : m.firstText? args = some n)
    (hfile : m.files.isFile (Path.join d.path n) = true) (h : getFile r d args p m = .ok a m') :
    Opened m (Path.join d.path n) (some r) m' := by
  obtain ⟨c, hc, h⟩ := looks_contentOf.ok_of_bind h
  obtain ⟨name, hname, h⟩ := looks_pathText.ok_of_bind h
  cases hn.symm.trans (firstText?_of_pathText hc hname)
  obtain ⟨fs, hfs, h⟩ := looks_files.ok_of_bind h
  cases hfs
  rw [if_pos hfile, orElseOnError, tryCatch_run] at h
  cases haudio : openAudio (Path.join d.path n) (some r) p m with
  | ok b m₁ =>
    rw [haudio] at h
    cases h
    exact opened_openAudio.ok haudio
  | error e m₁ =>
    cases opened_openAudio.error haudio
    rw [haudio] at h
    cases e with
    | failed e place => exact opened_openFile.ok h
    | _ => cases h

end Run

/-! ## Runs -/

namespace Machine

variable {m₀ m m' : Machine}

/-- Of each file that is not deleted, the path is in normal form, the name is its last component,
and the folder that the file belongs to has the path before it. -/
def Coherent (m : Machine) : Prop :=
  ∀ r f, m.registry.file r = some f → f.isDeleted = false →
    m.files.absolute f.path = f.path ∧ f.name = base f.path ∧
    ∀ g, f.parent = some g → ∃ d, m.registry.folder g = some d ∧ d.path = Path.folder f.path

/-- What is kept along runs of tame requests. -/
structure Orderly (m : Machine) : Prop where
  owned : m.registry.Owned
  placed : m.registry.Placed
  proper : m.files.Proper

lemma Orderly.coherent (hm : m.Orderly) : m.Coherent := by
  intro r f hf hlive
  obtain ⟨l, c, hc, hpath, hname, hparent⟩ := hm.placed.file r f hf hlive
  refine ⟨by rw [hpath, m.files.absolute_path], by rw [hpath, l.base_child, hname], fun g hg => ?_⟩
  obtain ⟨d, hd, hd'⟩ := Option.map_eq_some_iff.1 (hparent g hg)
  exact ⟨d, hd, by rw [hd', hpath, l.folder_child]⟩

lemma Orderly.change (hm : m.Orderly) (h : Change True m m') : m'.Orderly :=
  ⟨h.deed.owned hm.owned, h.deed.placed hm.owned hm.placed hm.proper, h.proper hm.proper⟩

lemma Orderly.changes (hm : m.Orderly) (h : Changes True m m') : m'.Orderly := by
  induction h with
  | refl => exact hm
  | tail _ hchange ih => exact ih.change hchange

/-- One step of a run that does not stray: a request, whether it succeeds or fails, or anything else
that leaves alone what is known of files and folders and leaves a proper tree. -/
inductive TameStep : Machine → Machine → Prop
  | request (q : Request) (p : Position) (m : Machine) (h : ¬q.Strays m) : TameStep m (q.after p m)
  | elsewhere {m m' : Machine} (h : m'.registry = m.registry) (hp : m'.files.Proper) : TameStep m m'

lemma Orderly.step (hm : m.Orderly) (h : m.TameStep m') : m'.Orderly := by
  cases h with
  | request q p _ h => exact hm.changes (q.changes_after p fun _ => h)
  | elsewhere h hp => exact ⟨h ▸ hm.owned, h ▸ hm.placed, hp⟩

lemma KnowsNothing.orderly (h : m.KnowsNothing) (hp : m.files.Proper) : m.Orderly := by
  refine ⟨h.owned, ⟨fun r f hr => ?_, fun g p hg => ?_⟩, hp⟩
  · cases (h r).1.symm.trans hr
  · simp [Registry.pathOf, (h g).2] at hg

lemma Orderly.run (hm : m.Orderly) (h : ReflTransGen TameStep m m') : m'.Orderly := by
  induction h with
  | refl => exact hm
  | tail _ hstep ih => exact ih.step hstep

/-- Behind a straying request that succeeds, a file does not agree with itself or with its
folder. -/
lemma not_coherent_of_strays {q : Request} {p : Position} (hq : q.Strays m)
    (h : q.perform p m = .ok () m') : ¬m'.Coherent := by
  intro hc
  cases q with
  | method r name args =>
    obtain ⟨a, m₁, hcall, hlast⟩ := ok_of_bind h
    cases hlast
    rcases hq with ⟨rfl, hr, n, hn, hslash⟩ | ⟨rfl, d, n, hd, hn, hfile, hne⟩
    · -- the new name has a slash, which no last component has
      obtain ⟨f, hf⟩ := Option.isSome_iff_exists.1 hr
      obtain ⟨hlive, hrename⟩ := renameFile_of_callMethod hf hcall
      obtain ⟨n', path, hn', hregistry⟩ := registry_of_renameFile hrename
      cases hn.symm.trans hn'
      have hnew : m₁.registry.file r = some { f with path, name := n } := by
        rw [hregistry]
        exact Registry.file_reviseFile_self hf _
      obtain ⟨-, hname, -⟩ := hc r _ hnew hlive
      simp only at hname
      exact no_slash_base path (hname ▸ hslash)
    · -- the folder is the one that was asked, and the file does not lie in it
      have hopened := opened_of_getFile hn hfile (getFile_of_callMethod hd hcall)
      have hnew : m₁.registry.file m.store.next = some
        (m.files.object (join d.path n) (some r)) := by
        rw [hopened.registry]
        simp [Registry.set, Value.file?]
      obtain ⟨-, -, hparent⟩ := hc _ _ hnew rfl
      obtain ⟨d', hd', hpath⟩ := hparent r rfl
      cases (hopened.folder hd).symm.trans hd'
      exact hne hpath.symm
  | _ => exact hq

end Machine

/-- Along runs that do not stray everything is coherent, and a request that succeeds behind such a
run leaves things coherent exactly if it does not stray. -/
theorem coherent_of_tame_run {m₀ m : Machine} (h₀ : m₀.KnowsNothing) (hp : m₀.files.Proper)
    (h : ReflTransGen Machine.TameStep m₀ m) :
    m.Coherent ∧ ∀ (q : Request) (p : Position) (m' : Machine), q.perform p m = .ok () m' →
      (m'.Coherent ↔ ¬q.Strays m) := by
  have hm := (h₀.orderly hp).run h
  refine ⟨hm.coherent, fun q p m' hq =>
    ⟨fun hc hs => m.not_coherent_of_strays hs hq hc, fun hs => ?_⟩⟩
  have hafter := hm.step (.request q p m hs)
  rw [show q.after p m = m' by rw [Request.after, hq]] at hafter
  exact hafter.coherent

/-- A file is renamed to a text that leads out of its folder. -/
theorem coherent_of_tame_run_renamed : ∃ (m₀ m : Machine) (q : Request), m₀.KnowsNothing ∧
    m₀.files.Proper ∧
    ReflTransGen Machine.TameStep m₀ m ∧ m.Coherent ∧
    q.perform .start m = .ok () (q.after .start m) ∧
    ((q.after .start m).registry.file 3).map (·.path) = some "/d/../b" ∧
      ¬(q.after .start m).Coherent := by
  let m₀ : Machine :=
    { store := ⟨#[.null, .text "/d/a", .text "../b"]⟩
      files := ⟨⟨[(["d"], .folder), (["d", "a"], .file [])]⟩, []⟩ }
  let q : Request := .method 3 "change_filename" [2]
  have h₀ : m₀.KnowsNothing := by
    intro r
    rcases r with _ | _ | _ | r <;> exact ⟨rfl, rfl⟩
  have hp : m₀.files.Proper := by
    have hd : IsName "d" := ⟨by decide, by decide, by decide, by decide⟩
    have ha : IsName "a" := ⟨by decide, by decide, by decide, by decide⟩
    exact ⟨by simp [m₀, hd, ha], by simp [m₀]⟩
  let m := (Request.construct "File" [1]).after .start m₀
  have h : ReflTransGen Machine.TameStep m₀ m := .single (.request _ _ _ id)
  have hrun : q.perform .start m = .ok () (q.after .start m) :=
    Request.perform_of_run (by decide +kernel)
  have hstrays : q.Strays m := .inl ⟨rfl, by decide +kernel, "../b", by decide +kernel, by decide⟩
  obtain ⟨hcoherent, hexact⟩ := coherent_of_tame_run h₀ hp h
  exact ⟨m₀, m, q, h₀, hp, h, hcoherent, hrun, by decide +kernel,
    fun hc => (hexact q .start _ hrun).1 hc hstrays⟩

end AudLang
