import AudLang.Proofs.Requests

/-!
Who keeps track of which file.

A folder keeps a list of files, and a file remembers the folder it belongs to.  The two are written
down in different places and at different moments, and there are files that remember a folder which
keeps no track of them.  Yet no file is ever on two lists or twice on one, and whoever is on a list
remembers this folder and is not deleted.
-/

namespace AudLang

open Run Relation

variable {q : Ref} {v : Value} {p : Position} {args : List Ref}

namespace Registry

variable {tame : Prop} {fs : Files} {R R' : Registry} {g r : Ref} {f : FileObject}

/-- Lists have no duplicates, the files on them are not deleted and belong to the folder with the
list, and files that are deleted belong to no folder. -/
structure Owned (R : Registry) : Prop where
  nodup : ∀ g d, R.folder g = some d → d.files.Nodup
  tracked : ∀ g d r, R.folder g = some d → r ∈ d.files →
    ∃ f, R.file r = some f ∧ f.parent = some g ∧ f.isDeleted = false
  deleted : ∀ r f, R.file r = some f → f.isDeleted = true → f.parent = none

/-- The file is on no list but perhaps on that of one folder. -/
def TrackedOnly (R : Registry) (g : Option Ref) (r : Ref) : Prop :=
  ∀ h d, R.folder h = some d → r ∈ d.files → some h = g

/-! ## What things look like behind a change -/

@[simp] lemma file_leave (R : Registry) (parent : Option Ref) (r : Ref) :
    (R.leave parent r).file = R.file := by
  cases parent <;> rfl

lemma file_reviseFile_self (h : R.file r = some f) (change : FileObject → FileObject) :
    (R.reviseFile r change).file r = some (change f) := by
  simp [reviseFile, h]

lemma file_reviseFile_of_ne (h : q ≠ r) (change : FileObject → FileObject) :
    (R.reviseFile r change).file q = R.file q := by
  simp [reviseFile, h]

lemma file_set_of_ne (h : q ≠ r) : (R.set r v).file q = R.file q := by
  simp [set, h]

lemma file_track_of_ne (h : q ≠ r) : (R.track g r).file q = R.file q := by
  unfold track
  split
  · split
    · rfl
    · rw [file_reviseFile_of_ne h]
      rfl
  · rfl

lemma folder_set_of_isFree (hr : R.IsFree r) (hv : v.folder? = none) :
    (R.set r v).folder = R.folder := by
  funext q
  by_cases hq : q = r
  · simp [set, hq, hv, hr.2]
  · simp [set, hq]

lemma file_set_of_isFree (hr : R.IsFree r) (hv : v.file? = none) : (R.set r v).file = R.file := by
  funext q
  by_cases hq : q = r
  · simp [set, hq, hv, hr.1]
  · simp [set, hq]

/-- A folder behind a revision was there before. -/
lemma exists_of_folder_reviseFolder {change : FolderObject → FolderObject} {h : Ref}
    {d' : FolderObject} (hd : (R.reviseFolder g change).folder h = some d') :
    ∃ d, R.folder h = some d ∧ d' = if h = g then change d else d := by
  simp only [reviseFolder] at hd
  split at hd
  · rename_i hg
    obtain ⟨d, hd₁, rfl⟩ := Option.map_eq_some_iff.1 hd
    exact ⟨d, hd₁, by simp [hg]⟩
  · rename_i hg
    exact ⟨d', hd, by simp [hg]⟩

/-! ## Single changes -/

lemma Owned.trackedOnly (hR : R.Owned) (hf : R.file r = some f) : R.TrackedOnly f.parent r := by
  intro h d hd hr
  obtain ⟨f', hf', hparent, -⟩ := hR.tracked h d r hd hr
  cases hf.symm.trans hf'
  exact hparent.symm

lemma Owned.set_file (hR : R.Owned) (hr : R.IsFree r) (hf : f.isDeleted = false) :
    (R.set r (.file f)).Owned := by
  have hfolder : (R.set r (.file f)).folder = R.folder := folder_set_of_isFree hr rfl
  refine ⟨?_, ?_, ?_⟩
  · rw [hfolder]
    exact hR.nodup
  · intro g d q hg hq
    rw [hfolder] at hg
    obtain ⟨f', hf', hparent, hlive⟩ := hR.tracked g d q hg hq
    have hne : q ≠ r := by
      rintro rfl
      rw [hr.1] at hf'
      cases hf'
    exact ⟨f', (file_set_of_ne hne).trans hf', hparent, hlive⟩
  · intro q f' hf' hdeleted
    by_cases hq : q = r
    · subst hq
      simp only [set, if_true, Value.file?, Option.some.injEq] at hf'
      subst hf'
      rw [hf] at hdeleted
      cases hdeleted
    · rw [file_set_of_ne hq] at hf'
      exact hR.deleted q f' hf' hdeleted

lemma Owned.set_folder {d : FolderObject} (hR : R.Owned) (hr : R.IsFree r) (hd : d.files = []) :
    (R.set r (.folder d)).Owned := by
  have hfile : (R.set r (.folder d)).file = R.file := file_set_of_isFree hr rfl
  -- a new folder has nothing on its list, the others are the same
  have hfolder : ∀ g d', (R.set r (.folder d)).folder g = some d' → d'.files = [] ∨
    R.folder g = some d' := by
    intro g d' hg
    simp only [set] at hg
    split at hg
    · cases hg
      exact .inl hd
    · exact .inr hg
  refine ⟨fun g d' hg => ?_, fun g d' q hg hq => ?_, ?_⟩
  · rcases hfolder g d' hg with hnil | hg
    · rw [hnil]
      exact List.nodup_nil
    · exact hR.nodup g d' hg
  · rcases hfolder g d' hg with hnil | hg
    · rw [hnil] at hq
      cases hq
    · rw [hfile]
      exact hR.tracked g d' q hg hq
  · rw [hfile]
    exact hR.deleted

lemma Owned.untrack (hR : R.Owned) (g r : Ref) : (R.untrack g r).Owned := by
  refine ⟨fun h d' hd' => ?_, fun h d' q hd' hq => ?_, hR.deleted⟩
  · obtain ⟨d, hd, rfl⟩ := exists_of_folder_reviseFolder hd'
    split
    · exact (hR.nodup h d hd).erase r
    · exact hR.nodup h d hd
  · obtain ⟨d, hd, rfl⟩ := exists_of_folder_reviseFolder hd'
    refine hR.tracked h d q hd ?_
    split at hq
    · exact List.mem_of_mem_erase hq
    · exact hq

lemma Owned.leave (hR : R.Owned) (parent : Option Ref) (r : Ref) : (R.leave parent r).Owned := by
  cases parent with
  | none => exact hR
  | some g => exact hR.untrack g r

/-- A file that has left the folder it belongs to is on no list. -/
lemma Owned.trackedOnly_leave (hR : R.Owned) (hf : R.file r = some f) :
    (R.leave f.parent r).TrackedOnly none r := by
  intro h d' hd' hr
  have honly := hR.trackedOnly hf
  cases hparent : f.parent with
  | none =>
    rw [hparent] at hd' honly
    exact honly h d' hd' hr
  | some g =>
    rw [hparent] at hd' honly
    obtain ⟨d, hd, rfl⟩ := exists_of_folder_reviseFolder hd'
    split at hr
    · exact absurd hr (hR.nodup h d hd).not_mem_erase
    · rename_i hne
      exact absurd (Option.some.inj (honly h d hd hr)) hne

/-- A revision that leaves alone what a file belongs to and whether it is deleted. -/
lemma Owned.reviseFile {change : FileObject → FileObject} (hR : R.Owned) (r : Ref)
    (hparent : ∀ f, (change f).parent = f.parent)
    (hdeleted : ∀ f, (change f).isDeleted = f.isDeleted) : (R.reviseFile r change).Owned := by
  refine ⟨hR.nodup, fun g d q hd hq => ?_, fun q f' hf' hdel => ?_⟩
  · obtain ⟨f, hf, hp, hl⟩ := hR.tracked g d q hd hq
    by_cases hqr : q = r
    · subst hqr
      exact ⟨change f, file_reviseFile_self hf change, by rw [hparent, hp], by rw [hdeleted, hl]⟩
    · exact ⟨f, (file_reviseFile_of_ne hqr change).trans hf, hp, hl⟩
  · by_cases hqr : q = r
    · subst hqr
      simp only [Registry.reviseFile, if_true] at hf'
      obtain ⟨f, hf, rfl⟩ := Option.map_eq_some_iff.1 hf'
      rw [hdeleted] at hdel
      rw [hparent]
      exact hR.deleted q f hf hdel
    · rw [file_reviseFile_of_ne hqr] at hf'
      exact hR.deleted q f' hf' hdel

/-- Of a file that is on no list everything may be revised, as long as it belongs nowhere when it is
deleted. -/
lemma Owned.reviseFile_untracked {change : FileObject → FileObject} (hR : R.Owned)
    (hr : R.TrackedOnly none r)
    (h : ∀ f, R.file r = some f → (change f).isDeleted = true → (change f).parent = none) :
    (R.reviseFile r change).Owned := by
  refine ⟨hR.nodup, fun g d q hd hq => ?_, fun q f' hf' hdel => ?_⟩
  · have hqr : q ≠ r := by
      rintro rfl
      cases hr g d hd hq
    rw [file_reviseFile_of_ne hqr]
    exact hR.tracked g d q hd hq
  · by_cases hqr : q = r
    · subst hqr
      simp only [Registry.reviseFile, if_true] at hf'
      obtain ⟨f, hf, rfl⟩ := Option.map_eq_some_iff.1 hf'
      exact h f hf hdel
    · rw [file_reviseFile_of_ne hqr] at hf'
      exact hR.deleted q f' hf' hdel

/-- A folder takes a file that is on no other list. -/
lemma Owned.track (hR : R.Owned) (hf : R.file r = some f) (hr : R.TrackedOnly (some g) r) :
    (R.track g r).Owned := by
  unfold Registry.track
  cases hg : R.folder g with
  | none => exact hR
  | some d =>
    simp only
    split
    · exact hR
    · rename_i hnew
      refine ⟨fun h d' hd' => ?_, fun h d' q hd' hq => ?_, fun q f' hf' hdel => ?_⟩
      · obtain ⟨d₁, hd₁, rfl⟩ := exists_of_folder_reviseFolder hd'
        split
        · -- the list of the folder itself, with the new file at its end
          rename_i hh
          subst hh
          cases hg.symm.trans hd₁
          refine List.nodup_append.2 ⟨hR.nodup h d hg, by simp, ?_⟩
          intro a ha b hb hab
          rw [hab, List.mem_singleton.1 hb] at ha
          exact hnew ha
        · exact hR.nodup h d₁ hd₁
      · obtain ⟨d₁, hd₁, rfl⟩ := exists_of_folder_reviseFolder hd'
        by_cases hqr : q = r
        · -- the new file remembers the folder, and no other folder has it
          subst hqr
          refine ⟨_, file_reviseFile_self hf _, ?_, rfl⟩
          split at hq
          · rename_i hh
            rw [hh]
          · exact (hr h d₁ hd₁ hq).symm
        · rw [file_reviseFile_of_ne hqr]
          refine hR.tracked h d₁ q hd₁ ?_
          split at hq
          · exact (List.mem_append.1 hq).resolve_right fun hq => hqr (List.mem_singleton.1 hq)
          · exact hq
      · by_cases hqr : q = r
        · subst hqr
          cases (file_reviseFile_self hf _).symm.trans hf'
          cases hdel
        · rw [file_reviseFile_of_ne hqr] at hf'
          exact hR.deleted q f' hf' hdel

/-! ## Deeds -/

/-- Every deed keeps the lists and the files in accord. -/
lemma Deed.owned (h : R.Deed tame fs R') (hR : R.Owned) : R'.Owned := by
  cases h with
  | rests => exact hR
  | opens hr _ _ => exact hR.set_file hr rfl
  | opensFolder hr => exact hR.set_folder hr rfl
  | renames => exact hR.reviseFile _ (fun _ => rfl) fun _ => rfl
  | reformats => exact hR.reviseFile _ (fun _ => rfl) fun _ => rfl
  | @moves r g f d hf hlive hg =>
    have hleft := hR.trackedOnly_leave hf
    have hfile : (R.leave f.parent r).file r = some f := by rw [file_leave, hf]
    have howned : ((R.leave f.parent r).reviseFile r fun f' =>
      { f' with parent := some g }).Owned := by
      refine (hR.leave f.parent r).reviseFile_untracked hleft fun f' hf' hdel => ?_
      cases hfile.symm.trans hf'
      rw [hlive] at hdel
      cases hdel
    refine (howned.track (file_reviseFile_self hfile _) ?_).reviseFile _ (fun _ => rfl) fun _ => rfl
    intro h d' hd' hr
    cases hleft h d' hd' hr
  | @adds r g f d path hf hlive hg hpath =>
    have howned : (R.reviseFile r fun f' => { f' with path }).Owned :=
      hR.reviseFile _ (fun _ => rfl) fun _ => rfl
    have hfile := file_reviseFile_self hf fun f' => { f' with path }
    refine (howned.leave _ r).track (by rw [file_leave, hfile]) ?_
    split
    · rename_i hparent
      have honly := howned.trackedOnly hfile
      rwa [show ({ f with path } : FileObject).parent = some g from hparent] at honly
    · intro h d' hd' hr
      cases howned.trackedOnly_leave hfile h d' hd' hr
  | @drops r f hf hlive =>
    refine (hR.leave f.parent r).reviseFile_untracked (hR.trackedOnly_leave hf) ?_
    exact fun _ _ _ => rfl

/-- No deed touches a file that is deleted. -/
lemma Deed.file_of_deleted (h : R.Deed tame fs R') (hR : R.Owned) {f₀ : FileObject}
    (hq : R.file q = some f₀) (hdel : f₀.isDeleted = true) : R'.file q = some f₀ := by
  have hlive : ∀ {r f}, R.file r = some f → f.isDeleted = false → q ≠ r := by
    rintro r f hf hlive rfl
    cases hq.symm.trans hf
    rw [hlive] at hdel
    cases hdel
  have hfree : ∀ {r}, R.IsFree r → q ≠ r := by
    rintro r hr rfl
    rw [hr.1] at hq
    cases hq
  cases h with
  | rests => exact hq
  | opens hr _ _ => rw [file_set_of_ne (hfree hr), hq]
  | opensFolder hr => rw [file_set_of_ne (hfree hr), hq]
  | renames hf hl _ => rw [file_reviseFile_of_ne (hlive hf hl), hq]
  | reformats hf hl => rw [file_reviseFile_of_ne (hlive hf hl), hq]
  | moves hf hl _ =>
    have hne := hlive hf hl
    rw [file_reviseFile_of_ne hne, file_track_of_ne hne, file_reviseFile_of_ne hne, file_leave, hq]
  | adds hf hl _ _ =>
    have hne := hlive hf hl
    rw [file_track_of_ne hne, file_leave, file_reviseFile_of_ne hne, hq]
  | @drops r f hf hl =>
    have hne : q ≠ r := by
      rintro rfl
      cases hq.symm.trans hf
      rw [hl (hR.deleted q _ hq hdel)] at hdel
      cases hdel
    rw [file_reviseFile_of_ne hne, file_leave, hq]

end Registry

/-! ## Refusals -/

namespace Run

variable {α β : Type} {m : Machine}

/-- The step stops and changes nothing at all. -/
def Refused (x : Run α) (m : Machine) : Prop := ∃ e, x m = .error e m

namespace Refused

variable {x : Run α} {f : α → Run β}

lemma fail (e : RunError) (p : Position) : Refused (Run.fail e p : Run α) m := ⟨_, rfl⟩

lemma fault (e : Fault) : Refused (Run.fault e : Run α) m := ⟨_, rfl⟩

lemma bind (h : Refused x m) : Refused (x >>= f) m := by
  obtain ⟨e, he⟩ := h
  exact ⟨e, bind_of_error he⟩

lemma look (hx : OnlyLooks x) (hf : ∀ a, x m = .ok a m → Refused (f a) m) :
    Refused (x >>= f) m := by
  have hends := hx.ends m
  cases h : x m with
  | ok a m₁ =>
    rw [h] at hends
    cases hends
    obtain ⟨e, he⟩ := hf a h
    exact ⟨e, (bind_of_ok h).trans he⟩
  | error e m₁ =>
    rw [h] at hends
    cases hends
    exact ⟨e, bind_of_error h⟩

lemma tryCatch {handle : Stop → Run α} (hx : Refused x m) (hh : ∀ e, Refused (handle e) m) :
    Refused (tryCatch x handle) m := by
  obtain ⟨e, he⟩ := hx
  obtain ⟨e', he'⟩ := hh e
  refine ⟨e', ?_⟩
  rw [tryCatch_run, he]
  exact he'

end Refused

lemma refused_checkFile {f : FileObject} (hf : f.isDeleted = true) {operation : String} :
    Refused (checkFile f operation p) m := by
  refine .look looks_files fun fs _ => ?_
  rw [if_pos hf]
  exact .fail _ _

variable {r : Ref} {f : FileObject}

lemma refused_usableFile (hr : m.registry.file r = some f) (hf : f.isDeleted = true)
    {operation : String} : Refused (usableFile r operation p) m := by
  refine .look looks_value fun v hv => ?_
  cases hv
  have hr : (m.store.get r).file? = some f := hr
  split
  · rename_i g hg
    rw [hg] at hr
    cases hr
    exact (refused_checkFile hf).bind
  · rename_i g a hg
    rw [hg] at hr
    cases hr
    exact (refused_checkFile hf).bind
  · exact .look looks_checkFolder fun _ _ => .fault _
  · exact .fault _

lemma refused_callMethod (hr : m.registry.file r = some f) (hf : f.isDeleted = true)
    {name : String} : Refused (callMethod r name args p) m := by
  refine .look looks_value fun v hv => ?_
  cases hv
  have hr : (m.store.get r).file? = some f := hr
  cases hv : m.store.get r <;> rw [hv] at hr <;> cases hr
  all_goals exact (refused_checkFile hf).bind

lemma refused_getAttribute (hr : m.registry.file r = some f) (hf : f.isDeleted = true)
    {name : String} : Refused (getAttribute r name p) m := by
  refine .look looks_value fun v hv => ?_
  cases hv
  have hr : (m.store.get r).file? = some f := hr
  cases hv : m.store.get r <;> rw [hv] at hr <;> cases hr
  all_goals exact (refused_checkFile hf).bind

/-- Nobody takes a file that is deleted. -/
lemma refused_addFile (hr : m.registry.file r = some f) (hf : f.isDeleted = true) {g : Ref} :
    Refused (callMethod g "add_file" (r :: args) p) m := by
  refine .look looks_value fun v hv => ?_
  split
  · exact .fail _ _
  · exact .look looks_checkFile fun _ _ => .fail _ _
  · refine .look looks_checkFile fun _ _ => .look looks_load fun _ _ => ?_
    split
    · exact .fail _ _
    · exact .fault _
    · exact .look looks_checkFile fun _ _ => .fail _ _
  · exact .look looks_checkFolder fun _ _ => .look looks_argument fun added hadded => by
      cases hadded
      exact (refused_usableFile hr hf).bind
  · exact .fail _ _

lemma refused_ftoa (hr : m.registry.file r = some f) (hf : f.isDeleted = true) :
    Refused (callBuiltin .ftoa (r :: args) p) m := by
  have hperform : Refused (perform .ftoa (r :: args) p) m := by
    cases args with
    | nil => exact (refused_usableFile hr hf).bind
    | cons => exact .fault _
  refine hperform.tryCatch fun e => ?_
  split
  · exact .fail _ _
  · exact .fail _ _
  · exact ⟨_, rfl⟩

end Run

/-! ## Runs -/

namespace Machine

variable {m₀ m m' : Machine}

/-- One step of a run: a request, whether it succeeds or fails, or anything else that leaves alone
what is known of files and folders, such as other values, variables and output, and changes of the
files from outside. -/
inductive Step : Machine → Machine → Prop
  | request (q : Request) (p : Position) (m : Machine) : Step m (q.after p m)
  | elsewhere {m m' : Machine} (h : m'.registry = m.registry) : Step m m'

/-- The one machine leads to the other. -/
abbrev LeadsTo : Machine → Machine → Prop := ReflTransGen Step

/-- There are no files and no folders. -/
def KnowsNothing (m : Machine) : Prop := ∀ r, m.registry.IsFree r

/-- Whatever is asked of the file is refused, and nothing at all changes. -/
structure Refuses (m : Machine) (r : Ref) : Prop where
  method : ∀ name args p, Refused ((Request.method r name args).perform p) m
  access : ∀ name p, Refused ((Request.access r name).perform p) m
  assign : ∀ name p, Refused ((Request.assign r name).perform p) m
  addFile : ∀ g args p, Refused ((Request.method g "add_file" (r :: args)).perform p) m
  ftoa : ∀ args p, Refused ((Request.function .ftoa (r :: args)).perform p) m

/-- Lists and files are in accord, and files that are deleted are out of reach for ever. -/
structure InAccord (m : Machine) : Prop where
  nodup : ∀ g d, m.registry.folder g = some d → d.files.Nodup
  tracked : ∀ g d r, m.registry.folder g = some d → r ∈ d.files →
    (∃ f, m.registry.file r = some f ∧ f.parent = some g ∧ f.isDeleted = false) ∧
    ∀ g' d', m.registry.folder g' = some d' → r ∈ d'.files → g' = g
  deleted : ∀ r f, m.registry.file r = some f → f.isDeleted = true →
    f.parent = none ∧ (∀ g d, m.registry.folder g = some d → r ∉ d.files) ∧
    ∀ m', m.LeadsTo m' → m'.registry.file r = some f ∧ m'.Refuses r

lemma refuses_of_deleted {r : Ref} {f : FileObject} (hr : m.registry.file r = some f)
    (hf : f.isDeleted = true) : m.Refuses r where
  method _ _ _ := (refused_callMethod hr hf).bind
  access _ _ := (refused_getAttribute hr hf).bind
  assign _ _ := .look looks_value fun _ _ => .fail _ _
  addFile _ _ _ := (refused_addFile hr hf).bind
  ftoa _ _ := (refused_ftoa hr hf).bind

/-- A registry in accord, in which the files that were deleted are as they were. -/
structure Continues (m m' : Machine) : Prop where
  owned : m'.registry.Owned
  deleted : ∀ r f, m.registry.file r = some f → f.isDeleted = true → m'.registry.file r = some f

lemma Continues.trans {m'' : Machine} (h : m.Continues m') (h' : m'.Continues m'') :
    m.Continues m'' :=
  ⟨h'.owned, fun r f hr hf => h'.deleted r f (h.deleted r f hr hf) hf⟩

lemma continues_of_changes {tame : Prop} (hm : m.registry.Owned) (h : Changes tame m m') :
    m.Continues m' := by
  induction h with
  | refl => exact ⟨hm, fun _ _ hr _ => hr⟩
  | tail _ hchange ih =>
    exact ih.trans ⟨hchange.deed.owned ih.owned, fun _ _ hr hf =>
      hchange.deed.file_of_deleted ih.owned hr hf⟩

lemma continues_of_step (hm : m.registry.Owned) (h : m.Step m') : m.Continues m' := by
  cases h with
  | request q p => exact continues_of_changes hm (q.changes_after p False.elim)
  | elsewhere h => exact ⟨h ▸ hm, fun r f hr _ => by rw [h, hr]⟩

lemma continues_of_leadsTo (hm : m.registry.Owned) (h : m.LeadsTo m') : m.Continues m' := by
  induction h with
  | refl => exact ⟨hm, fun _ _ hr _ => hr⟩
  | tail _ hstep ih => exact ih.trans (continues_of_step ih.owned hstep)

lemma KnowsNothing.owned (h : m.KnowsNothing) : m.registry.Owned where
  nodup g _ hg := nomatch (h g).2.symm.trans hg
  tracked g _ _ hg := nomatch (h g).2.symm.trans hg
  deleted r _ hr := nomatch (h r).1.symm.trans hr

/-- Whatever a run leads to is in accord. -/
theorem inAccord_of_leadsTo (h₀ : m₀.KnowsNothing) (h : m₀.LeadsTo m) : m.InAccord := by
  have hm := (continues_of_leadsTo h₀.owned h).owned
  refine ⟨hm.nodup, fun g d r hg hr => ?_, fun r f hr hf => ?_⟩
  · obtain ⟨f, hfile, hparent, hlive⟩ := hm.tracked g d r hg hr
    refine ⟨⟨f, hfile, hparent, hlive⟩, fun g' d' hg' hr' => ?_⟩
    have hsame := (hm.trackedOnly hfile g' d' hg' hr').trans hparent
    exact Option.some.inj hsame
  · have hparent := hm.deleted r f hr hf
    refine ⟨hparent, fun g d hg hmem => ?_, fun m' hleads => ?_⟩
    · cases (hm.trackedOnly hr g d hg hmem).trans hparent
    · have hfile := (continues_of_leadsTo hm hleads).deleted r f hr hf
      exact ⟨hfile, refuses_of_deleted hfile hf⟩

/-- One request after the other, all from one place. -/
def requests (p : Position) (qs : List Request) (m : Machine) : Machine :=
  qs.foldl (fun m q => q.after p m) m

lemma leadsTo_requests (p : Position) (qs : List Request) (m : Machine) :
    m.LeadsTo (m.requests p qs) := by
  induction qs generalizing m with
  | nil => exact .refl
  | cons q qs ih => exact .head (.request q p m) (ih (q.after p m))

/-- A file is added to a folder, which copies it, and another file is deleted. -/
theorem inAccord_of_leadsTo_added_and_deleted : ∃ m₀ m : Machine, m₀.KnowsNothing ∧ m₀.LeadsTo m ∧
    (m.registry.folder 4).map (·.files) = some
    [5] ∧ (m.registry.file 5).map (·.path) = some "/d/a" ∧
    (m.registry.file 7).map (·.isDeleted) = some true ∧ m.InAccord := by
  let m₀ : Machine :=
    { store := ⟨#[.null, .text "/d", .text "/a", .text "/b"]⟩
      files := ⟨⟨[(["d"], .folder), (["a"], .file []), (["b"], .file [])]⟩, []⟩ }
  let qs : List Request :=
    [.construct "Folder" [1], .construct "File" [2], .method 4 "add_file" [5],
    .construct "File" [3], .method 7 "delete" []]
  have h₀ : m₀.KnowsNothing := by
    intro r
    rcases r with _ | _ | _ | _ | r <;> exact ⟨rfl, rfl⟩
  have h : m₀.LeadsTo (m₀.requests .start qs) := leadsTo_requests .start qs m₀
  exact ⟨m₀, m₀.requests .start qs, h₀, h, by decide +kernel, by decide +kernel, by decide +kernel,
    inAccord_of_leadsTo h₀ h⟩

end Machine

end AudLang
