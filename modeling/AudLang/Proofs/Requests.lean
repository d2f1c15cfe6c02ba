import AudLang.Proofs.Registry

/-!
What requests do to files and folders.

A program asks for files, folders and recordings in five ways: it constructs them, calls their
methods, reads or assigns their attributes, and hands them to functions.  Each of these steps is a
number of deeds on the registry, whether it succeeds or fails.  The statements follow the texts of
the steps, from single files up to `Request.changes_after`.
-/

namespace AudLang

open Run Relation

variable {name path : String} {parent : Option Ref} {p : Position} {s : Segment} {args : List Ref}
  {v : Value}
  {f : FileObject} {r : Ref} {a : Recording} {d : FolderObject} {m' : Machine}

-- what is at a path, and what sound is in it, is never computed here
seal Files.isFile Files.isFolder Files.doesExist Run.load

namespace Run

variable {α β : Type} {tame : Prop} {m : Machine} {R R' : Registry} {fs fs' : Files}

/-! ## Files -/

/-- One file was opened and nothing else happened. -/
structure Opened (m : Machine) (path : String) (parent : Option Ref) (m' : Machine) : Prop where
  isFile : m.files.isFile (m.files.absolute path) = true
  registry : m'.registry = m.registry.set m.store.next (.file (m.files.object path parent))
  files : m'.files = m.files

lemma Opened.changes (h : Opened m path parent m')
    (ho : m.registry.Origin tame m.files path parent) : Changes tame m m' :=
  .single ⟨h.registry ▸ .opens m.isFree_next ho h.isFile, fun hp => h.files ▸ hp⟩

/-- Whatever was a folder before still is. -/
lemma Opened.folder {path : String} {parent : Option Ref} {m' : Machine}
    (h : Opened m path parent m') {g : Ref}
    {d : FolderObject} (hg : m.registry.folder g = some d) : m'.registry.folder g = some d := by
  have hne : g ≠ m.store.next := by
    rintro rfl
    rw [m.isFree_next.2] at hg
    cases hg
  simp [h.registry, Registry.set, hne, hg]

lemma findFile_ok (h : findFile path parent p m = .ok f m') :
    m.files.isFile (m.files.absolute path) = true ∧ f = m.files.object path parent ∧ m' = m := by
  simp only [findFile, files, bind_run, get_run, pure_run] at h
  split at h
  · rename_i hf
    cases h
    exact ⟨hf, rfl, rfl⟩
  · cases h

lemma findFile_of_isFile (parent : Option Ref) (p : Position)
    (h : m.files.isFile (m.files.absolute path) = true) :
    findFile path parent p m = .ok (m.files.object path parent) m := by
  simp only [findFile, files, bind_run, get_run, pure_run, h, if_true]
  rfl

lemma opened_openFile :
    Ends (openFile path parent p m) (fun _ m' => Opened m path parent m') (fun _ m' => m' = m) := by
  refine Ends.bind (looks_findFile.ends m) fun f m₁ h _ => ?_
  obtain ⟨hf, rfl, rfl⟩ := findFile_ok h
  exact ⟨hf, m₁.registry_push _, rfl⟩

lemma opened_openAudio :
    Ends (openAudio path parent p m) (fun _ m' => Opened m path parent m')
      (fun _ m' => m' = m) := by
  refine Ends.bind (looks_findFile.ends m) fun f m₁ h _ => ?_
  obtain ⟨hf, hobject, rfl⟩ := findFile_ok h
  refine Ends.bind (looks_load.ends m₁) fun loaded m₂ _ h₂ => ?_
  subst h₂
  cases loaded with
  | error e => exact rfl
  | ok s =>
    simp only
    cases s.milliseconds with
    | error e => exact rfl
    | ok length =>
      exact ⟨hf, hobject ▸ (m₂.registry_push _).trans (Registry.set_audio _ _ _ _), rfl⟩

lemma does_openFile (ho : m.registry.Origin tame m.files path parent) :
    Does tame m (openFile path parent p) :=
  ⟨opened_openFile.weaken (fun _ _ _ h => h.changes ho) (fun _ _ _ h => h ▸ .refl)⟩

lemma does_openAudio (ho : m.registry.Origin tame m.files path parent) :
    Does tame m (openAudio path parent p) :=
  ⟨opened_openAudio.weaken (fun _ _ _ h => h.changes ho) (fun _ _ _ h => h ▸ .refl)⟩

lemma isDeleted_of_checkFile {operation : String} (h : checkFile f operation p m = .ok () m') :
    f.isDeleted = false := by
  simp only [checkFile, files, bind_run, get_run, pure_run] at h
  split at h
  · cases h
  · rename_i hf
    exact Bool.eq_false_iff.2 hf

lemma pathText_ok {d : Datum} {s : String} (h : pathText d m = .ok s m') : d = .text s := by
  cases d with
  | text t =>
    cases h
    rfl
  | _ => cases h

lemma firstText?_of_pathText {d : Datum} {s : String} {m'' : Machine}
    (hd : contentOf args 0 m = .ok d m')
    (hs : pathText d m' = .ok s m'') : m.firstText? args = some s := by
  have htext := pathText_ok hs
  subst htext
  cases args with
  | nil => cases hd
  | cons r rs =>
    have hget : datum r m = .ok (.text s) m' := hd
    simp only [datum, value, bind_run, get_run, pure_run] at hget
    cases h : m.store.get r <;> rw [h] at hget <;> cases hget
    simp [Machine.firstText?, h]

lemma does_renameFile (hf : m.registry.file r = some f) (hlive : f.isDeleted = false)
    (ht : tame → ∀ n, m.firstText? args = some n → '/' ∉ n.toList) :
    Does tame m (renameFile r f args p) := by
  refine .look looks_contentOf fun d hd => .look looks_pathText fun name hname => ?_
  have htext := firstText?_of_pathText hd hname
  refine .look looks_files fun fs hfs => ?_
  cases hfs
  split
  · rename_i fs hrename
    obtain ⟨-, -, -, -, -, hproper⟩ := Files.rename_ok hrename
    refine Settles.does ?_ (.renames hf hlive fun t =>
      Files.isName_of_rename hrename (ht t name htext)) hproper
    exact settles_setFiles.bind fun _ => settles_updateFile.bind fun _ => settles_nothing
  · exact .fault _
  · exact .fail _ _

lemma settles_leave {x : Run β} (h : Settles (R.leave parent r) fs x R' fs') : Settles R fs (do
      if let some g := parent then untrack g r
      x) R' fs' := by
  cases parent with
  | none => exact h
  | some g => exact settles_untrack.bind fun _ => h

lemma does_moveFile (hf : m.registry.file r = some f) (hlive : f.isDeleted = false) :
    Does tame m (moveFile r f args p) := by
  refine .look looks_argument fun target _ => .look looks_value fun v hv => ?_
  cases hv
  cases h : m.store.get target with
  | folder d =>
    have hfolder : m.registry.folder target = some d := by simp [Machine.registry, h, Value.folder?]
    refine .look looks_checkFolder fun _ _ => .look looks_files fun fs hfs => ?_
    cases hfs
    split
    · rename_i fs hmove
      refine Settles.does ?_ (.moves hf hlive hfolder) fun hp => hp.move hmove
      exact settles_setFiles.bind fun _ => settles_leave (settles_updateFile.bind fun _ =>
        settles_track.bind fun _ => settles_updateFile.bind fun _ => settles_nothing)
    · exact .fault _
    · exact .fail _ _
  | _ => exact .fault _

lemma does_deleteFile (hf : m.registry.file r = some f) (hlive : f.isDeleted = false) :
    Does tame m (deleteFile r f) := by
  refine .look looks_files fun fs hfs => ?_
  cases hfs
  extract_lets marked retired
  split
  · rename_i fs hremove
    refine Settles.does ?_ (.drops hf fun _ => hlive) fun hp => hp.remove hremove
    exact settles_setFiles.bind fun _ =>
      settles_leave (settles_updateFile.bind fun _ => settles_nothing)
  · exact .bind (.fault _) fun _ _ h => nomatch h

lemma does_callFile (hf : m.registry.file r = some f)
    (ht : tame → name = "change_filename" → ∀ n, m.firstText? args = some n → '/' ∉ n.toList) :
    Does tame m (callFile r v f name args p) := by
  refine .look looks_checkFile fun _ hcheck => ?_
  have hlive := isDeleted_of_checkFile hcheck
  split
  · exact .ite (fun _ => does_alloc rfl rfl) fun _ => .fail _ _
  · exact does_renameFile hf hlive fun t => ht t rfl
  · exact does_moveFile hf hlive
  · exact does_deleteFile hf hlive
  · exact .fail _ _

lemma does_fileAttribute : Does tame m (fileAttribute v f name p) := by
  refine .look looks_checkFile fun _ _ => ?_
  split
  · exact does_alloc rfl rfl
  · split
    · exact .pure _
    · exact does_nothing
  · exact .fail _ _

/-! ## Recordings -/

lemma saves_save (s : Segment) (path format : String) (m : Machine) :
    Ends (save s path format m)
      (fun _ m' => m'.registry = m.registry ∧ m'.store = m.store ∧
        (m.files.Proper → m'.files.Proper))
      (fun _ m' => m'.registry = m.registry ∧ m'.store = m.store ∧
        (m.files.Proper → m'.files.Proper)) := by
  refine Ends.bind (R := fun fs m₁ => fs = m.files ∧ m₁ = m) ⟨rfl, rfl⟩ fun fs m₁ _ h₁ => ?_
  obtain ⟨rfl, rfl⟩ := h₁
  cases hwrite : m₁.files.write path (Wave.writeAs s format).bytes with
  | error e => exact ⟨rfl, rfl, id⟩
  | ok fs =>
    cases hfault : (Wave.writeAs s format).fault with
    | none => exact ⟨rfl, rfl, fun hp => hp.write hwrite⟩
    | some e => exact ⟨rfl, rfl, fun hp => hp.write hwrite⟩

lemma does_save {format : String} : Does tame m (save s path format) :=
  ⟨(saves_save s path format m).weaken (fun _ _ _ h => .of_registry h.1 h.2.2) (fun _ _ _ h =>
    .of_registry h.1 h.2.2)⟩

lemma does_updateRecording {change : Recording → Recording} :
    Does tame m (updateRecording r change) := settles_updateRecording.does .rests id

lemma does_overwrite : Does tame m (overwrite r f s) :=
  .bind does_save fun _ _ _ => .look (.ask _) fun _ _ => .bind does_updateRecording fun _ _ _ =>
    does_nothing

lemma does_cut : Does tame m (cut r f a s args p) :=
  .look looks_contentOf fun _ _ => .look looks_contentOf fun _ _ => .look (.ask _) fun _ _ => .ite
    (fun _ => .look (.ask _) fun _ _ => .look (.ask _) fun _ _ => .look (.ask _) fun _ _ =>
      does_overwrite)
    (fun _ => .look (.ask _) fun _ _ => .look (.ask _) fun _ _ => .fail _ _)

lemma does_concat : Does tame m (concat r f s args p) := by
  refine .look looks_argument fun _ _ => .look looks_usableFile fun _ _ =>
    .look looks_load fun _ _ => ?_
  split
  · exact .fault _
  · exact .look (.ask _) fun _ _ => does_overwrite

lemma does_changeTitle : Does tame m (changeTitle r f s args) :=
  .look looks_contentOf fun _ _ => .bind does_updateRecording fun _ _ _ =>
    .bind does_save fun _ _ _ => does_nothing

lemma does_changeFormat (hf : m.registry.file r = some f) (hlive : f.isDeleted = false) :
    Does tame m (changeFormat r f s args p) := by
  refine .look looks_contentOf fun d _ => ?_
  split
  · extract_lets format path saved
    have hpath : path = (Path.splitExtension f.path).1 ++ "." ++ format := rfl
    have hsaved : format ≠ "" → '/' ∉ format.toList → '.' ∉ format.toList →
      Does tame m (saved ()) := by
      clear_value path format
      intro hempty hslash hdot
      refine .bind does_save fun _ m₁ hsave => .look looks_files fun fs hfs => ?_
      obtain ⟨hregistry, -, -⟩ := (saves_save s path format m).ok hsave
      cases hfs
      split
      · exact .fault _
      · rename_i fs hremove
        have hf₁ : m₁.registry.file r = some f := by rw [hregistry, hf]
        refine Settles.does ?_ (.reformats hf₁ hlive hempty hslash hdot hpath) fun hp =>
          hp.remove hremove
        exact settles_setFiles.bind fun _ => settles_updateFile.bind fun _ => settles_nothing
    refine .ite (fun _ => .bind (.fail _ _) fun _ _ h => nomatch h) fun hformat => ?_
    simp only [Bool.or_eq_true, Bool.not_eq_true', decide_eq_true_eq, not_or, Bool.not_eq_false,
      List.all_eq_true, String.isEmpty_iff] at hformat
    obtain ⟨⟨hempty, hall⟩, -⟩ := hformat
    exact hsaved hempty (fun h => absurd (hall _ h) (by decide)) fun h =>
      absurd (hall _ h) (by decide)
  · exact .fault _

lemma does_changeVolume : Does tame m (changeVolume f s args) :=
  .look looks_contentOf fun _ _ => .look (.ask _) fun _ _ => .look (.ask _) fun _ _ =>
    .bind does_save fun _ _ _ => does_nothing

lemma does_callAudio (hf : m.registry.file r = some f)
    (ht : tame → name = "change_filename" → ∀ n, m.firstText? args = some n → '/' ∉ n.toList) :
    Does tame m (callAudio r f a name args p) := by
  refine .look looks_checkFile fun _ hcheck => .look looks_load fun _ _ => ?_
  have hlive := isDeleted_of_checkFile hcheck
  split
  · exact .fail _ _
  · exact .fault _
  · split
    · exact does_cut
    · exact does_concat
    · exact does_changeTitle
    · exact does_changeFormat hf hlive
    · exact does_changeVolume
    · exact does_callFile hf ht

lemma does_audioAttribute : Does tame m (audioAttribute f a name p) := by
  refine .look looks_checkFile fun _ _ => ?_
  split
  · exact does_alloc rfl rfl
  · exact does_alloc rfl rfl
  · exact does_alloc rfl rfl
  · exact does_fileAttribute

/-! ## Folders -/

lemma opened_openFolder : Ends (openFolder path p m)
      (fun _ m' => m'.registry = m.registry.set m.store.next
        (.folder ⟨m.files.absolute path, Path.base path, [], false⟩) ∧ m'.files = m.files)
      (fun _ m' => m' = m) := by
  refine Ends.bind (R := fun fs m₁ => fs = m.files ∧ m₁ = m) ⟨rfl, rfl⟩ fun fs m₁ _ h₁ => ?_
  obtain ⟨rfl, rfl⟩ := h₁
  by_cases hf : m₁.files.isFolder (m₁.files.absolute path) = true
  · simp only [hf, if_true]
    exact ⟨m₁.registry_push _, rfl⟩
  · simp only [hf]
    exact rfl

lemma does_openFolder : Does tame m (openFolder path p) := by
  refine ⟨opened_openFolder.weaken (fun _ m' _ h => ?_) (fun _ _ _ h => h ▸ .refl)⟩
  exact .single ⟨h.1 ▸ .opensFolder m.isFree_next, fun hp => h.2 ▸ hp⟩

lemma does_getFile (hd : m.registry.folder r = some d)
    (ht : tame → ∀ n, m.firstText? args = some n → m.files.isFile (Path.join d.path n) = true →
      Path.folder (m.files.absolute (Path.join d.path n)) = d.path) :
      Does tame m (getFile r d args p) := by
  refine .look looks_contentOf fun c hc => .look looks_pathText fun name hname => ?_
  have htext := firstText?_of_pathText hc hname
  refine .look looks_files fun fs hfs => .ite (fun hfile => ?_) fun _ => does_nothing
  cases hfs
  have ho : m.registry.Origin tame m.files (Path.join d.path name) (some r) :=
    .fetched hd fun t => ht t name htext hfile
  refine .tryCatch (does_openAudio ho) fun e m₁ he => ?_
  have hsame := opened_openAudio.error he
  subst hsame
  split
  · exact does_openFile ho
  · exact ⟨.refl⟩

lemma file_of_usableFile {operation : String} (h : usableFile r operation p m = .ok f m') :
    m.registry.file r = some f ∧ f.isDeleted = false := by
  refine ⟨file?_of_usableFile h, ?_⟩
  simp only [usableFile, value, bind_run, get_run, pure_run] at h
  cases hv : m.store.get r with
  | file g | audio g a =>
    rw [hv] at h
    obtain ⟨u, m₁, hcheck, h⟩ := ok_of_bind h
    cases h
    exact isDeleted_of_checkFile hcheck
  | folder d =>
    rw [hv] at h
    obtain ⟨u, m₁, -, h⟩ := ok_of_bind h
    cases h
  | _ =>
    rw [hv] at h
    cases h

lemma does_addFile (hd : m.registry.folder r = some d) : Does tame m (addFile r d args p) := by
  refine .look looks_argument fun added _ => .look looks_usableFile fun f hf =>
    .look looks_files fun fs hfs => ?_
  cases hfs
  obtain ⟨hfile, hlive⟩ := file_of_usableFile hf
  extract_lets tracked handed path
  have hhanded : ∀ u R fs, Settles R fs (handed u)
      ((R.leave (if f.parent = some r then none else f.parent) added).track r added) fs := by
    intro u R fs
    have htracked : ∀ R u, Settles R fs (tracked u) (R.track r added) fs := fun R _ =>
      settles_track.bind fun _ => settles_nothing
    simp only [handed]
    cases hparent : f.parent with
    | none => exact htracked R ()
    | some g =>
      by_cases hg : g = r
      · simpa [hg] using htracked R ()
      · simpa [hg] using settles_untrack.bind (htracked _)
  refine .ite (fun hpath => ?_) fun hpath => ?_
  · split
    · rename_i fs hcopy
      refine Settles.does ?_ (.adds hfile hlive hd (if_pos hpath).symm) fun hp => hp.copy hcopy
      exact settles_setFiles.bind fun _ => settles_updateFile.bind fun u => hhanded u _ _
    · exact .bind (.fault _) fun _ _ h => nomatch h
    · exact .bind (.fail _ _) fun _ _ h => nomatch h
  · have hsame : (m.registry.reviseFile added fun f' => { f' with path := f.path }) = m.registry :=
      Registry.reviseFile_of_id fun f' hf' => by
        cases hfile.symm.trans hf'
        rfl
    refine Settles.does ?_ (.adds hfile hlive hd (if_neg hpath).symm) id
    rw [hsame]
    exact hhanded () _ _

lemma parent_of_ownedNamed {g : Ref} {rs : List Ref}
    (h : ownedNamed g name rs m = .ok (some r) m') :
    ∃ f, m.registry.file r = some f ∧ f.parent = some g := by
  induction rs with
  | nil => cases h
  | cons q rs ih =>
    simp only [ownedNamed, value, bind_run, get_run, pure_run] at h
    cases hq : (m.store.get q).file? with
    | none =>
      rw [hq] at h
      exact ih h
    | some f =>
      rw [hq] at h
      simp only at h
      split at h
      · rename_i hf
        cases h
        simp only [Bool.and_eq_true, decide_eq_true_eq] at hf
        exact ⟨f, hq, hf.2⟩
      · exact ih h

lemma does_removeFile : Does tame m (removeFile r d args p) := by
  unfold removeFile
  extract_lets done removed
  have hremoved : ∀ content, Does tame m (removed content) := by
    intro content
    refine .look looks_pathText fun name _ => .look looks_files fun fs hfs =>
      .ite (fun _ => ?_) fun _ => .fail _ _
    cases hfs
    extract_lets retired
    have hretired : ∀ u (m₁ : Machine), Does tame m₁ (retired u) := by
      intro u m₁
      refine .look (looks_ownedNamed _) fun owned howned => ?_
      split
      · rename_i file
        obtain ⟨f, hf, hparent⟩ := parent_of_ownedNamed howned
        have hdeed : m₁.registry.Deed tame m₁.files
          ((m₁.registry.leave f.parent file).reviseFile file
            fun f' => { f' with parent := none, isDeleted := true }) :=
              .drops hf (by simp [hparent])
        rw [hparent, Registry.leave_some] at hdeed
        refine Settles.does ?_ hdeed id
        exact settles_untrack.bind fun _ => settles_updateFile.bind fun _ => settles_nothing
      · exact does_nothing
    split
    · rename_i fs hremove
      exact (settles_setFiles.does .rests fun hp => hp.remove hremove).bind fun u m₁ _ =>
        hretired u m₁
    · exact .bind (.fault _) fun _ _ h => nomatch h
  split
  · refine .look looks_value fun v _ => ?_
    split
    · exact .look (.pure _) fun content _ => hremoved content
    · exact .look (.fail _ _) fun content _ => hremoved content
  · exact .look (.fail _ _) fun content _ => hremoved content

/-- A folder that is there, among these files. -/
structure Has (g : Ref) (d : FolderObject) (fs : Files) (m : Machine) : Prop where
  folder : m.registry.folder g = some d
  files : m.files = fs

lemma Opened.has {g : Ref} (h : Opened m path parent m') (hm : Has g d fs m) : Has g d fs m' :=
  ⟨h.folder hm.folder, h.files.trans hm.files⟩

/-- A step that is taken for each of some things in turn and keeps an invariant. -/
lemma does_mapM {I : Machine → Prop} {f : α → Run β} (as : List α)
    (hf : ∀ a ∈ as, ∀ m₁, I m₁ → Does tame m₁ (f a) ∧ ∀ b m₂, f a m₁ = .ok b m₂ → I m₂) :
    ∀ m : Machine, I m → Does tame m (as.mapM f) := by
  induction as with
  | nil =>
    intro m _
    rw [List.mapM_nil]
    exact .pure _
  | cons a as ih =>
    intro m hm
    rw [List.mapM_cons]
    obtain ⟨hdoes, hkeeps⟩ := hf a (by simp) m hm
    refine hdoes.bind fun b m₁ hb => .bind ?_ fun bs m₂ _ => .pure _
    exact ih (fun a ha => hf a (by simp [ha])) m₁ (hkeeps b m₁ hb)

lemma does_filterMapM {I : Machine → Prop} {f : α → Run (Option β)} (as : List α)
    (hf : ∀ a ∈ as, ∀ m₁, I m₁ → Does tame m₁ (f a) ∧ ∀ b m₂, f a m₁ = .ok b m₂ → I m₂)
    (hm : I m) : Does tame m (as.filterMapM f) := by
  have loop : ∀ (as : List α),
    (∀ a ∈ as, ∀ m₁, I m₁ → Does tame m₁ (f a) ∧ ∀ b m₂, f a m₁ = .ok b m₂ → I m₂) →
      ∀ (bs : List β) (m : Machine), I m → Does tame m (List.filterMapM.loop f as bs) := by
    intro as
    induction as with
    | nil => exact fun _ bs m _ => .pure _
    | cons a as ih =>
      intro hf bs m hm
      obtain ⟨hdoes, hkeeps⟩ := hf a (by simp) m hm
      refine hdoes.bind fun b m₁ hb => ?_
      have hrest := ih fun a ha => hf a (by simp [ha])
      split
      · exact hrest _ m₁ (hkeeps _ m₁ hb)
      · exact hrest _ m₁ (hkeeps _ m₁ hb)
  exact loop as hf [] m hm

lemma pathsIn_ok {paths : List String} (h : pathsIn d m = .ok paths m') :
    paths = (m.files.names d.path).map (Path.join d.path) := by
  cases h
  rfl

lemma does_listFiles (hd : m.registry.folder r = some d) : Does tame m (listFiles r d p) := by
  refine .look looks_files fun fs _ => .look looks_pathsIn fun paths hpaths => ?_
  have hpaths := pathsIn_ok hpaths
  refine .bind (does_mapM (I := Has r d m.files) _ ?_ m ⟨hd, rfl⟩) fun rs m₁ _ => does_alloc rfl rfl
  intro path hpath m₁ hm₁
  rw [hpaths] at hpath
  obtain ⟨name, hname, rfl⟩ := List.mem_map.1 (List.mem_filter.1 hpath).1
  refine ⟨does_openFile (.listed hm₁.folder (hm₁.files ▸ hname)), fun b m₂ h => ?_⟩
  exact (opened_openFile.ok h).has hm₁

lemma does_listFolders : Does tame m (listFolders d p) := by
  refine .look looks_files fun fs _ => .look looks_pathsIn fun paths _ => ?_
  refine .bind (does_mapM (I := fun _ => True) _ ?_ m trivial) fun rs m₁ _ => does_alloc rfl rfl
  exact fun path _ m₁ _ => ⟨does_openFolder, fun _ _ _ => trivial⟩

lemma opened_openAudio? :
    Ends (openAudio? path parent p m) (fun _ m' => m' = m ∨ Opened m path parent m')
      (fun _ m' => m' = m) := by
  simp only [openAudio?, tryCatch_run, bind_run]
  cases h : openAudio path parent p m with
  | ok r m₁ => exact .inr (opened_openAudio.ok h)
  | error e m₁ =>
    cases opened_openAudio.error h
    cases e with
    | failed e p => exact .inl rfl
    | _ => exact rfl

lemma does_openAudio? (ho : m.registry.Origin tame m.files path parent) :
    Does tame m (openAudio? path parent p) := by
  refine ⟨opened_openAudio?.weaken (fun _ _ _ h => ?_) (fun _ _ _ h => h ▸ .refl)⟩
  rcases h with h | h
  · exact h ▸ .refl
  · exact h.changes ho

lemma does_listAudio (hd : m.registry.folder r = some d) : Does tame m (listAudio r d p) := by
  refine .look looks_files fun fs _ => .look looks_pathsIn fun paths hpaths => ?_
  have hpaths := pathsIn_ok hpaths
  refine .bind (does_filterMapM (I := Has r d m.files) _ ?_ ⟨hd, rfl⟩) fun rs m₁ _ =>
    does_alloc rfl rfl
  intro path hpath m₁ hm₁
  rw [hpaths] at hpath
  obtain ⟨name, hname, rfl⟩ := List.mem_map.1 (List.mem_filter.1 hpath).1
  refine ⟨does_openAudio? (.listed hm₁.folder (hm₁.files ▸ hname)), fun b m₂ h => ?_⟩
  rcases opened_openAudio?.ok h with rfl | h
  · exact hm₁
  · exact h.has hm₁

lemma does_getFolder : Does tame m (getFolder d args p) :=
  .look looks_contentOf fun _ _ => .look looks_pathText fun _ _ => .look looks_files fun _ _ =>
    .ite (fun _ => does_openFolder) fun _ => does_nothing

lemma does_folderName : Does tame m (folderName d) :=
  .ite (fun _ => does_nothing) fun _ => does_alloc rfl rfl

lemma does_callFolder (hd : m.registry.folder r = some d)
    (ht : tame → name = "get_file" → ∀ n, m.firstText? args = some n →
      m.files.isFile (Path.join d.path n) = true →
      Path.folder (m.files.absolute (Path.join d.path n)) = d.path) :
      Does tame m (callFolder r d name args p) := by
  refine .look looks_checkFolder fun _ _ => ?_
  split
  · exact does_getFile hd fun t => ht t rfl
  · exact does_addFile hd
  · exact does_removeFile
  · exact does_listFiles hd
  · exact does_listFolders
  · exact does_listAudio hd
  · exact does_getFolder
  · exact does_folderName
  · exact .fail _ _

lemma does_folderAttribute (hd : m.registry.folder r = some d) :
    Does tame m (folderAttribute r d name p) := by
  refine .look looks_checkFolder fun _ _ => ?_
  split
  · exact does_alloc rfl rfl
  · exact does_listFiles hd
  · exact does_listFolders
  · exact does_folderName
  · exact .fail _ _

/-! ## Members and functions -/

lemma does_callList {elements : List Ref} : Does tame m (callList v elements name args p) := by
  unfold callList
  split
  · unfold getElement
    split
    · refine .look looks_value fun v _ => ?_
      split
      · split
        · exact .pure _
        · exact .look (.ask _) fun _ _ => .fail _ _
      · exact .fail _ _
    · exact .fail _ _
  · exact .ite (fun _ => does_alloc rfl rfl) fun _ => .fail _ _
  · exact .fail _ _

lemma does_getAttribute : Does tame m (getAttribute r name p) := by
  refine .look looks_value fun v hv => ?_
  cases hv
  split
  · exact does_fileAttribute
  · exact does_audioAttribute
  · rename_i d hd
    exact does_folderAttribute (by simp [Machine.registry, hd, Value.folder?])
  · exact .fail _ _

lemma does_printLine {s : String} : Does tame m (printLine s) := ⟨.of_registry rfl id⟩

lemma does_setLast : Does tame m (setLast r) := ⟨.of_registry rfl id⟩

lemma does_readLine : Does tame m readLine := by
  refine .look looks_get fun m' _ => ?_
  split
  · exact ⟨.of_registry rfl id⟩
  · exact ⟨.refl⟩
  · exact ⟨.refl⟩
  · exact ⟨.of_registry rfl id⟩

lemma does_perform {b : Builtin} : Does tame m (perform b args p) := by
  unfold perform
  split
  · exact .look looks_datum fun _ _ => .look (.ask _) fun _ _ =>
      .bind does_printLine fun _ _ _ => does_nothing
  · exact .bind does_readLine fun _ _ _ => does_alloc rfl rfl
  case h_3 | h_5 =>
    exact .look looks_datum fun _ _ => .look (looks_converted _) fun _ _ => does_alloc rfl rfl
  case h_4 | h_6 | h_7 | h_8 =>
    exact .look looks_datum fun _ _ => .look (.ask _) fun _ _ => does_alloc rfl rfl
  · exact .look looks_datum fun _ _ => does_alloc rfl rfl
  · refine .look looks_value fun v hv => ?_
    cases hv
    split
    · rename_i f hf
      exact does_openFile (.shared hf)
    · exact .fault _
  · refine .look looks_usableFile fun f hf => ?_
    refine (does_openAudio? (.shared (file_of_usableFile hf).1)).bind fun o m₁ _ => ?_
    split
    · exact .pure _
    · exact does_nothing
  · exact .fault _

lemma does_callBuiltin {b : Builtin} : Does tame m (callBuiltin b args p) := by
  refine does_perform.tryCatch fun e m₁ _ => ?_
  split
  · exact .fail _ _
  · exact .fail _ _
  · exact ⟨.refl⟩

lemma does_construct {type : String} : Does tame m (construct type args p) := by
  unfold construct
  split
  · exact .look looks_contentOf fun _ _ => .look looks_pathText fun path _ =>
      (does_openFile (.given path)).bind fun _ _ _ => does_setLast
  · exact .look looks_contentOf fun _ _ => .look looks_pathText fun path _ =>
      .bind does_openFolder fun _ _ _ => does_setLast
  · exact .look looks_contentOf fun _ _ => .look looks_pathText fun path _ =>
      (does_openAudio (.given path)).bind fun _ _ _ => does_setLast
  · exact .fail _ _

lemma ok_of_run' {x : Run α} {a : α} (h : EStateM.run' x m = some a) : ∃ m', x m = .ok a m' := by
  cases hx : x m with
  | error e m' => simp [EStateM.run', EStateM.run, hx] at h
  | ok b m' =>
    simp only [EStateM.run', EStateM.run, hx, Option.some.injEq] at h
    exact ⟨m', by rw [h]⟩

end Run

/-! ## Requests -/

/-- What a program can ask about files, folders and recordings. -/
inductive Request where
  | construct (type : String) (args : List Ref)
  | method (object : Ref) (name : String) (args : List Ref)
  | access (object : Ref) (name : String)
  | assign (object : Ref) (name : String)
  | function (b : Builtin) (args : List Ref)

namespace Request

variable {tame : Prop} {m : Machine}

/-- Carries out a request from a place in the program. -/
def perform (p : Position) : Request → Run Unit
  | construct type args => Run.construct type args p
  | method r name args => do setLast (← callMethod r name args p)
  | access r name => do setLast (← getAttribute r name p)
  | assign r name => setAttribute r name p
  | function b args => do setLast (← callBuiltin b args p)

/-- The machine that a request leaves, whether it succeeds or fails. -/
def after (q : Request) (p : Position) (m : Machine) : Machine :=
  match q.perform p m with
  | .ok _ m' => m'
  | .error _ m' => m'

/-- A request that gives an answer leaves what it leaves. -/
lemma perform_of_run {q : Request} (h : EStateM.run' (q.perform p) m = some ()) :
    q.perform p m = .ok () (q.after p m) := by
  obtain ⟨m', hq⟩ := ok_of_run' h
  rw [after, hq]

/-- The request gives a file something with slashes as a name, or fetches through a folder a file
that does not lie in it. -/
def Strays (q : Request) (m : Machine) : Prop :=
  match q with
  | method r name args =>
    (name = "change_filename" ∧ (m.registry.file r).isSome ∧ ∃ n, m.firstText? args = some n ∧
      '/' ∈ n.toList) ∨
    (name = "get_file" ∧ ∃ d n, m.registry.folder r = some d ∧ m.firstText? args = some n ∧
      m.files.isFile (Path.join d.path n) = true ∧
        Path.folder (m.files.absolute (Path.join d.path n)) ≠ d.path)
  | _ => False

lemma does_method (ht : tame → ¬(method r name args).Strays m) :
    Does tame m (callMethod r name args p) := by
  have hname : (m.registry.file r).isSome → tame → name = "change_filename" →
      ∀ n, m.firstText? args = some n → '/' ∉ n.toList := fun hr t hn n htext hslash =>
    ht t (.inl ⟨hn, hr, n, htext, hslash⟩)
  refine .look looks_value fun v hv => ?_
  cases hv
  split
  · exact does_callList
  · rename_i f hf
    have hfile : m.registry.file r = some f := by simp [Machine.registry, hf, Value.file?]
    exact does_callFile hfile (hname (by simp [hfile]))
  · rename_i f a hf
    have hfile : m.registry.file r = some f := by simp [Machine.registry, hf, Value.file?]
    exact does_callAudio hfile (hname (by simp [hfile]))
  · rename_i d hd
    have hfolder : m.registry.folder r = some d := by simp [Machine.registry, hd, Value.folder?]
    refine does_callFolder hfolder fun t hn n htext hfile => ?_
    exact Classical.byContradiction fun hne => ht t (.inr ⟨hn, d, n, hfolder, htext, hfile, hne⟩)
  · exact .fail _ _

lemma does_request {q : Request} (ht : tame → ¬q.Strays m) : Does tame m (q.perform p) := by
  cases q with
  | construct type args => exact does_construct
  | method r name args => exact (does_method ht).bind fun _ _ _ => does_setLast
  | access r name => exact .bind does_getAttribute fun _ _ _ => does_setLast
  | assign r name => exact .look looks_value fun _ _ => .fail _ _
  | function b args => exact .bind does_callBuiltin fun _ _ _ => does_setLast

/-- What a request leaves, it leaves behind a number of changes. -/
lemma changes_after (q : Request) (p : Position) (ht : tame → ¬q.Strays m) :
    Changes tame m (q.after p m) := by
  unfold after
  cases h : q.perform p m with
  | ok u m' => exact (does_request ht).ends.ok h
  | error e m' => exact (does_request ht).ends.error h

end Request

end AudLang
