import AudLang.Proofs.Failures

/-!
Calls of files and folders that stop.

A file or a folder that is asked for something looks at the arguments and at the tree first.  Then
the tree is changed in one operation, which succeeds or changes nothing, and only behind that is
anything noted in the files and folders themselves.  So a call that stops has changed nothing.  A
folder that lists what is in it makes one value after the other, and if it stops in between, these
values are in new cells, where nobody sees them.
-/

namespace AudLang

variable {path : String} {parent : Option Ref} {p : Position} {r : Ref} {d : FolderObject}
  {args : List Ref}

/-! ## New cells -/

namespace Machine

/-- Cells have been opened for new values, and nothing else has happened. -/
structure Enlarges (m m' : Machine) : Prop where
  next : m.store.next ≤ m'.store.next
  get : ∀ q, q < m.store.next → m'.store.get q = m.store.get q
  rest : m' = { m with store := m'.store }

lemma Enlarges.refl (m : Machine) : m.Enlarges m := ⟨Nat.le_refl _, fun _ _ => rfl, rfl⟩

lemma Enlarges.trans {m m₁ m₂ : Machine} (h : m.Enlarges m₁) (h' : m₁.Enlarges m₂) :
    m.Enlarges m₂ := by
  refine ⟨Nat.le_trans h.next h'.next, fun q hq => ?_, ?_⟩
  · rw [h'.get q (Nat.lt_of_lt_of_le hq h.next), h.get q hq]
  · have hrest := h'.rest
    rw [h.rest] at hrest
    exact hrest

lemma enlarges_push (m : Machine) (v : Value) : m.Enlarges { m with store := m.store.push v } :=
  ⟨by simp, fun _ hq => Store.get_push_of_lt hq v, rfl⟩

end Machine

namespace Run

variable {α β : Type}

/-- The step opens cells for new values and does nothing else, whether it answers or stops. -/
structure OnlyOpens (x : Run α) : Prop where
  ends : ∀ m, Ends (x m) (fun _ m' => m.Enlarges m') (fun _ m' => m.Enlarges m')

namespace OnlyOpens

variable {x : Run α} {f : α → Run β}

lemma of_onlyLooks (h : OnlyLooks x) : OnlyOpens x :=
  ⟨fun m => (h.ends m).weaken (fun _ _ _ h => h ▸ .refl m) (fun _ _ _ h => h ▸ .refl m)⟩

lemma pure (a : α) : OnlyOpens (Pure.pure a : Run α) := of_onlyLooks (.pure a)

lemma stop (e : Stop) : OnlyOpens (throw e : Run α) := ⟨fun m => .refl m⟩

lemma fail (e : RunError) (p : Position) : OnlyOpens (Run.fail e p : Run α) := stop _

lemma alloc (v : Value) : OnlyOpens (Run.alloc v) := ⟨fun m => m.enlarges_push v⟩

lemma nothing : OnlyOpens Run.nothing := alloc .null

lemma bind (hx : OnlyOpens x) (hf : ∀ a, OnlyOpens (f a)) : OnlyOpens (x >>= f) :=
  ⟨fun m => Ends.bind (hx.ends m) fun a m₁ _ h₁ =>
    ((hf a).ends m₁).weaken (fun _ _ _ h => h₁.trans h) (fun _ _ _ h => h₁.trans h)⟩

lemma look (hx : OnlyLooks x) (hf : ∀ a, OnlyOpens (f a)) : OnlyOpens (x >>= f) :=
  (of_onlyLooks hx).bind hf

lemma ite {c : Prop} [Decidable c] {y : Run α} (hx : OnlyOpens x) (hy : OnlyOpens y) :
    OnlyOpens (if c then x else y) := by
  split
  · exact hx
  · exact hy

/-- What is done about a stop goes on from the cells that were opened before it. -/
lemma tryCatch {handle : Stop → Run α} (hx : OnlyOpens x) (hh : ∀ e, OnlyOpens (handle e)) :
    OnlyOpens (tryCatch x handle) := by
  refine ⟨fun m => ?_⟩
  have hends := hx.ends m
  rw [tryCatch_run]
  cases h : x m with
  | ok a m₁ =>
    rw [h] at hends
    exact hends
  | error e m₁ =>
    rw [h] at hends
    exact ((hh e).ends m₁).weaken (fun _ _ _ h => hends.trans h) (fun _ _ _ h => hends.trans h)

lemma mapM (hf : ∀ a, OnlyOpens (f a)) (as : List α) : OnlyOpens (as.mapM f) := by
  induction as with
  | nil =>
    rw [List.mapM_nil]
    exact .pure _
  | cons a as ih =>
    rw [List.mapM_cons]
    exact (hf a).bind fun b => ih.bind fun bs => .pure _

lemma filterMapM {g : α → Run (Option β)} (hg : ∀ a, OnlyOpens (g a)) (as : List α) :
    OnlyOpens (as.filterMapM g) := by
  have loop : ∀ (as : List α) (bs : List β), OnlyOpens (List.filterMapM.loop g as bs) := by
    intro as
    induction as with
    | nil => exact fun bs => .pure _
    | cons a as ih =>
      intro bs
      refine (hg a).bind fun b => ?_
      split
      · exact ih _
      · exact ih _
  exact loop as []

end OnlyOpens

/-! ## Folders -/

lemma onlyOpens_openFile : OnlyOpens (openFile path parent p) :=
  .look looks_findFile fun _ => .alloc _

lemma onlyOpens_openAudio : OnlyOpens (openAudio path parent p) := by
  refine .look looks_findFile fun f => .look looks_load fun loaded => ?_
  split
  · exact .fail _ _
  · split
    · exact .fail _ _
    · exact .alloc _

lemma onlyOpens_openFolder : OnlyOpens (openFolder path p) :=
  .look looks_files fun _ => .ite (.alloc _) (.fail _ _)

lemma onlyOpens_openAudio? : OnlyOpens (openAudio? path parent p) := by
  refine .tryCatch (onlyOpens_openAudio.bind fun r => .pure _) fun e => ?_
  split
  · exact .pure _
  · exact .stop _

lemma onlyOpens_getFile : OnlyOpens (getFile r d args p) := by
  refine .look looks_contentOf fun c => .look looks_pathText fun name => .look looks_files fun fs =>
    .ite (.tryCatch onlyOpens_openAudio fun e => ?_) .nothing
  split
  · exact onlyOpens_openFile
  · exact .stop _

lemma onlyOpens_listFiles : OnlyOpens (listFiles r d p) :=
  .look looks_files fun _ => .look looks_pathsIn fun _ =>
    (OnlyOpens.mapM (fun _ => onlyOpens_openFile) _).bind fun _ => .alloc _

lemma onlyOpens_listFolders : OnlyOpens (listFolders d p) :=
  .look looks_files fun _ => .look looks_pathsIn fun _ =>
    (OnlyOpens.mapM (fun _ => onlyOpens_openFolder) _).bind fun _ => .alloc _

lemma onlyOpens_listAudio : OnlyOpens (listAudio r d p) :=
  .look looks_files fun _ => .look looks_pathsIn fun _ =>
    (OnlyOpens.filterMapM (fun _ => onlyOpens_openAudio?) _).bind fun _ => .alloc _

lemma onlyOpens_getFolder : OnlyOpens (getFolder d args p) :=
  .look looks_contentOf fun _ => .look looks_pathText fun _ => .look looks_files fun _ =>
    .ite onlyOpens_openFolder .nothing

/-- The file is copied or not; behind that nothing stops. -/
lemma stopsClean_addFile : StopsClean (addFile r d args p) := by
  refine .look looks_argument fun added => .look looks_usableFile fun f =>
    .look looks_files fun fs => ?_
  extract_lets tracked handed path
  have htracked : ∀ u, NeverStops (tracked u) :=
    fun _ => (NeverStops.track r added).bind fun _ => .nothing
  have hhanded : ∀ u, NeverStops (handed u) := by
    intro u
    simp only [handed]
    cases f.parent with
    | none => exact htracked ()
    | some parent =>
      dsimp only
      split
      · exact (NeverStops.untrack parent added).bind htracked
      · exact htracked ()
  split
  · split
    · exact .of_neverStops ((NeverStops.setFiles _).bind fun _ =>
        (NeverStops.updateFile added _).bind hhanded)
    · exact (StopsClean.fault _).bind hhanded
    · exact (StopsClean.fail _ p).bind hhanded
  · exact .of_neverStops (hhanded ())

lemma neverStops_ownedNamed (folder : Ref) (name : String) (rs : List Ref) :
    NeverStops (ownedNamed folder name rs) := by
  induction rs with
  | nil => exact .pure _
  | cons r rs ih =>
    have hvalue : NeverStops (value r) := ⟨fun _ => trivial⟩
    refine hvalue.bind fun v => ?_
    split
    · split
      · exact .pure _
      · exact ih
    · exact ih

/-- The file is removed from the tree or not; behind that a value is looked for and retired. -/
lemma stopsClean_removeFile : StopsClean (removeFile r d args p) := by
  unfold removeFile
  extract_lets done removed
  have hremoved : ∀ content, StopsClean (removed content) := by
    intro content
    refine .look looks_pathText fun name => .look looks_files fun fs => ?_
    split
    · extract_lets retired
      have hretired : ∀ u, NeverStops (retired u) := by
        intro u
        refine (neverStops_ownedNamed r name d.files).bind fun owned => ?_
        split
        · exact (NeverStops.untrack r _).bind fun _ => (NeverStops.updateFile _ _).bind fun _ =>
            .nothing
        · exact .nothing
      split
      · exact .of_neverStops ((NeverStops.setFiles _).bind hretired)
      · exact (StopsClean.fault _).bind hretired
    · exact .fail _ p
  split
  · refine .look looks_value fun v => ?_
    split
    · exact .look (.pure _) hremoved
    · exact .look (.fail _ p) hremoved
  · exact .look (.fail _ p) hremoved

/-! ## Calls -/

/-- A step that gives no answer has stopped. -/
lemma error_of_run' {x : Run α} {m : Machine} (h : EStateM.run' x m = none) :
    ∃ e m', x m = .error e m' := by
  cases hx : x m with
  | error e m' => exact ⟨e, m', rfl⟩
  | ok a m' => simp [EStateM.run', EStateM.run, hx] at h

/-- When the step stops, it has done no more than open cells for new values. -/
structure StopsAside (x : Run α) : Prop where
  ends : ∀ m, Ends (x m) (fun _ _ => True) (fun _ m' => m.Enlarges m')

lemma StopsClean.aside {x : Run α} (h : StopsClean x) : StopsAside x :=
  ⟨fun m => (h.ends m).weaken (fun _ _ _ h => h) (fun _ _ _ h => h ▸ .refl m)⟩

lemma OnlyOpens.aside {x : Run α} (h : OnlyOpens x) : StopsAside x :=
  ⟨fun m => (h.ends m).weaken (fun _ _ _ _ => trivial) (fun _ _ _ h => h)⟩

lemma stopsAside_callFolder {name : String} : StopsAside (callFolder r d name args p) := by
  refine ⟨fun m => Ends.bind ((looks_checkFolder.ends m).mono_error fun _ _ h => h ▸ .refl m)
    fun _ m₁ _ h₁ => ?_⟩
  subst h₁
  split
  · exact onlyOpens_getFile.aside.ends m₁
  · exact stopsClean_addFile.aside.ends m₁
  · exact stopsClean_removeFile.aside.ends m₁
  · exact onlyOpens_listFiles.aside.ends m₁
  · exact onlyOpens_listFolders.aside.ends m₁
  · exact onlyOpens_listAudio.aside.ends m₁
  · exact onlyOpens_getFolder.aside.ends m₁
  · exact (OnlyOpens.ite .nothing (.alloc _)).aside.ends m₁
  · exact (StopsClean.fail _ p).aside.ends m₁

end Run

open Run

namespace Machine

variable {m m' : Machine} {name : String} {e : Stop}

/-- A folder is known in the registry exactly if it is in the cell. -/
lemma folder_registry_iff : m.registry.folder r = some d ↔ m.store.get r = .folder d := by
  constructor
  · intro h
    have hfolder : (m.store.get r).folder? = some d := h
    cases hget : m.store.get r <;> rw [hget] at hfolder <;> cases hfolder
    rfl
  · intro h
    simp [registry, h, Value.folder?]

lemma callMethod_folder (hd : m.store.get r = .folder d) (name : String) (args : List Ref)
    (p : Position) : callMethod r name args p m = callFolder r d name args p m := by
  rw [callMethod, bind_of_ok (m.value_run r), hd]

/-- A call of a file or a folder that stops, for whatever reason, has changed nothing: the tree, all
values with all that is known of files and folders, and the rest of the machine are as they were.
At most there are new cells. -/
theorem unchanged_of_stop (hr : (∃ f, m.store.get r = .file f) ∨ ∃ d, m.store.get r = .folder d)
    (h : callMethod r name args p m = .error e m') :
    m'.files = m.files ∧ (∀ q, q < m.store.next → m'.store.get q = m.store.get q) ∧
      m' = { m with store := m'.store } := by
  have henlarges : m.Enlarges m' := by
    rcases hr with ⟨f, hf⟩ | ⟨d, hd⟩
    · rw [callMethod, bind_of_ok (m.value_run r), hf] at h
      exact (stopsClean_callFile.aside.ends m).error h
    · rw [callMethod_folder hd] at h
      exact (stopsAside_callFolder.ends m).error h
  refine ⟨?_, henlarges.get, henlarges.rest⟩
  rw [henlarges.rest]

/-- A file cannot be moved to where another one is: there is a folder with the name of the file, and
in it a file with this name. -/
theorem unchanged_of_stop_occupied :
    ∃ (m m' : Machine) (f : FileObject) (d : FolderObject) (e : Stop),
    m.store.get 1 = .file f ∧ m.store.get 2 = .folder d ∧ m.files.isFile f.path = true ∧
    callMethod 1 "move" [2] .start m = .error e m' ∧ m'.files = m.files ∧ m'.store.get 1 = .file f ∧
    m'.store.get 2 = .folder d := by
  let f : FileObject := { path := "/a", name := "a", parent := none, isDeleted := false }
  let d : FolderObject := { path := "/d", name := "d", files := [], isDeleted := false }
  let m : Machine :=
    { store := ⟨#[.null, .file f, .folder d]⟩
      files := ⟨⟨[(["a"], .file [1]), (["d"], .folder), (["d", "a"], .folder),
        (["d", "a", "a"], .file [2])]⟩, []⟩ }
  obtain ⟨e, m', h⟩ : ∃ e m', callMethod 1 "move" [2] .start m = .error e m' :=
    error_of_run' (by decide +kernel)
  obtain ⟨hfiles, hcells, -⟩ := unchanged_of_stop (.inl ⟨f, rfl⟩) h
  exact ⟨m, m', f, d, e, rfl,
    rfl, by decide +kernel, h, hfiles, hcells 1 (by decide), hcells 2 (by decide)⟩

end Machine

end AudLang
