import AudLang.Proofs.Quiet
import AudLang.Proofs.World

/-!
Plain steps.

What the language does with values, files, recordings and folders is plain: it is quiet, and it is a
step of the world.  Plain steps in sequence are plain, so each statement below follows the text of
the step that it is about.  What follows from either half is then known of all of them.
-/

namespace AudLang

variable {r : Ref} {v : Value} {args : List Ref} {d : FolderObject}
  {function name operation path type : String}
  {parent : Option Ref} {p : Position} {f : FileObject} {s : Segment} {a : Recording} {b : Builtin}

namespace Run

variable {α β : Type}

/-- The step leaves names alone, and the rest of the machine has no part in it. -/
structure Plain (x : Run α) : Prop where
  quiet : Quiet x
  worldly : Worldly x

namespace Plain

lemma pure (a : α) : Plain (Pure.pure a : Run α) := ⟨.pure a, .pure a⟩

lemma stop {e : Stop} (h : QuietStop e) : Plain (throw e : Run α) :=
  ⟨⟨fun m => ⟨.refl m, h⟩⟩, .stop e⟩

lemma fail {e : RunError} (p : Position) (h : (e.isAboutNames || e.isTooDeep) = false) :
    Plain (Run.fail e p : Run α) := stop (.failed h)

lemma failSomewhere {e : RunError} (h : (e.isAboutNames || e.isTooDeep) = false) :
    Plain (Run.failSomewhere e : Run α) := stop (.failed h)

lemma fault (f : Fault) (h : f ≠ .unbalanced) : Plain (Run.fault f : Run α) :=
  ⟨.fault f h, .fault f⟩

lemma ask {r : Except Fault α} (h : Balanced r) : Plain (Run.ask r) := ⟨.ask h, .ask r⟩

lemma bind {x : Run α} {f : α → Run β} (hx : Plain x) (hf : ∀ a, Plain (f a)) : Plain (x >>= f) :=
  ⟨hx.quiet.bind fun a => (hf a).quiet, hx.worldly.bind fun a => (hf a).worldly⟩

lemma ite {c : Prop} [Decidable c] {x y : Run α} (hx : Plain x) (hy : Plain y) :
    Plain (if c then x else y) := by
  split
  · exact hx
  · exact hy

/-- What is done about a stop may rely on the stop being that of a quiet step: no other gets
there. -/
lemma tryCatch {x : Run α} {handle : Stop → Run α} (hx : Plain x)
    (hh : ∀ e, QuietStop e → Plain (handle e)) : Plain (tryCatch x handle) := by
  classical
  obtain ⟨g, hg⟩ := hx.worldly.step
  choose h hhandle using fun e (he : QuietStop e) => (hh e he).worldly.step
  -- The handler is a step of the world at quiet stops only: elsewhere any other stands for it.
  refine ⟨hx.quiet.tryCatch fun e he => (hh e he).quiet,
    ⟨MonadExcept.tryCatch g fun e => if he : QuietStop e then h e he else throw e, fun m => ?_⟩⟩
  have hends := hx.quiet.ends m
  rw [hg] at hends
  rw [tryCatch_run, tryCatch_run, hg]
  cases hw : g m.world with
  | ok a w => rfl
  | error e w =>
    rw [hw] at hends
    have he : QuietStop e := hends.2
    show handle e (m.inWorld w) = m.result ((if he : QuietStop e then h e he else throw e) w)
    rw [dif_pos he]
    exact hhandle e he (m.inWorld w)

/-- Looking at the machine, for the sake of its world. -/
lemma look {f : Machine → Run α} (hf : ∀ m, Plain (f m))
    (hw : ∀ m m' : Machine, m.world = m'.world → f m = f m') : Plain (get >>= f) :=
  ⟨quiet_get.bind fun m => (hf m).quiet, .look (fun m => (hf m).worldly) hw⟩

end Plain

/-! ## Cells, files and input -/

lemma plain_value : Plain (value r) := ⟨⟨fun m => .refl m⟩, .view fun w => w.store.get r⟩

lemma plain_files : Plain files := ⟨⟨fun m => .refl m⟩, .view World.files⟩

lemma plain_last : Plain last := ⟨⟨fun m => .refl m⟩, .view World.last⟩

/-- Changing the world but for its cells. -/
lemma Plain.change {f : World → World} (h : ∀ w, (f w).store = w.store) :
    Plain (modify fun m : Machine => m.inWorld (f m.world) : Run Unit) := by
  refine ⟨⟨fun m => ⟨rfl, rfl, rfl, rfl, rfl, ?_⟩⟩, .change f⟩
  show m.store.Keeps (f m.world).store
  rw [h]
  exact .refl m.store

lemma plain_setLast : Plain (setLast r) := .change (f := fun w => { w with last := r }) fun _ => rfl

lemma plain_setFiles {fs : Files} : Plain (setFiles fs) :=
  .change (f := fun w => { w with files := fs }) fun _ => rfl

lemma plain_printLine {s : String} : Plain (printLine s) :=
  .change (f := fun w => { w with output := w.output ++ s ++ "\n" }) fun _ => rfl

lemma plain_readLine : Plain readLine := by
  have hread (i : Input) : Plain (modify fun m : Machine => { m with input := i } : Run Unit) :=
    .change (f := fun w => { w with input := i }) fun _ => rfl
  refine .look (fun m => ?_) fun m m' h => ?_
  · split
    · exact (hread _).bind fun _ => .pure _
    · exact .failSomewhere rfl
    · exact .failSomewhere rfl
    · exact (hread _).bind fun _ => .pure _
  · rw [show m.input = m'.input from congrArg World.input h]

lemma plain_alloc : Plain (alloc v) :=
  ⟨⟨fun m => ⟨rfl, rfl, rfl, rfl, rfl, m.store.keeps_push v⟩⟩,
    fun w => .ok w.store.next { w with store := w.store.push v }, fun _ => rfl⟩

lemma plain_updateFile {change : FileObject → FileObject} : Plain (updateFile r change) :=
  ⟨quiet_updateFile, worldly_updateFile⟩

lemma plain_updateFolder {change : FolderObject → FolderObject} : Plain (updateFolder r change) :=
  ⟨quiet_updateFolder, worldly_updateFolder⟩

lemma plain_updateRecording {change : Recording → Recording} : Plain (updateRecording r change) :=
  ⟨quiet_updateRecording, worldly_updateRecording⟩

lemma plain_track {folder file : Ref} : Plain (track folder file) :=
  ⟨quiet_track, worldly_track⟩

lemma plain_nothing : Plain nothing := plain_alloc

lemma plain_give : Plain (give v) := .bind plain_alloc fun _ => plain_setLast

lemma plain_datum : Plain (datum r) := by
  refine .bind plain_value fun v => ?_
  split
  · exact .pure _
  · exact .fault _ (by decide)

lemma plain_argument {i : Nat} : Plain (argument args i) := by
  unfold argument
  split
  · exact .pure _
  · exact .fault _ (by decide)

lemma plain_contentOf {i : Nat} : Plain (contentOf args i) :=
  .bind plain_argument fun _ => plain_datum

lemma plain_pathText {d : Datum} : Plain (pathText d) := by
  unfold pathText
  split
  · exact .pure _
  · exact .fault _ (by decide)

lemma plain_clone : Plain (clone r) := by
  refine .bind plain_value fun v => ?_
  split
  · exact plain_alloc
  · exact plain_alloc
  · exact plain_alloc
  · exact plain_alloc
  · exact plain_alloc
  · exact .pure _

lemma plain_untrack {folder file : Ref} : Plain (untrack folder file) := plain_updateFolder

/-! ## Files -/

lemma plain_findFile : Plain (findFile path parent p) :=
  .bind plain_files fun _ => .ite (.pure _) (.fail _ rfl)

lemma plain_openFile : Plain (openFile path parent p) :=
  .bind plain_findFile fun _ => plain_alloc

lemma plain_checkFile : Plain (checkFile f operation p) :=
  .bind plain_files fun _ =>
    .ite (.fail _ rfl) (.ite (.fail _ rfl) (.ite (.fail _ rfl) (.pure _)))

lemma plain_checkFolder : Plain (checkFolder d operation p) :=
  .bind plain_files fun _ =>
    .ite (.fail _ rfl) (.ite (.fail _ rfl) (.ite (.fail _ rfl) (.pure _)))

lemma plain_usableFile : Plain (usableFile r operation p) := by
  refine .bind plain_value fun v => ?_
  split
  · exact .bind plain_checkFile fun _ => .pure _
  · exact .bind plain_checkFile fun _ => .pure _
  · exact .bind plain_checkFolder fun _ => .fault _ (by decide)
  · exact .fault _ (by decide)

lemma plain_renameFile : Plain (renameFile r f args p) := by
  refine .bind plain_contentOf fun d => .bind plain_pathText fun name =>
    .bind plain_files fun fs => ?_
  split
  · exact .bind plain_setFiles fun _ => .bind plain_updateFile fun _ => plain_nothing
  · exact .fault _ (by decide)
  · exact .fail _ rfl

lemma plain_moveFile : Plain (moveFile r f args p) := by
  refine .bind plain_argument fun target => .bind plain_value fun v => ?_
  split
  · refine .bind plain_checkFolder fun _ => .bind plain_files fun fs => ?_
    have settled : ∀ path : String, Plain (do
        updateFile r fun f => { f with parent := some target }
        track target r
        updateFile r fun f => { f with path }
        nothing) := fun path =>
      .bind plain_updateFile fun _ => .bind plain_track fun _ =>
        .bind plain_updateFile fun _ => plain_nothing
    split
    · refine .bind plain_setFiles fun _ => ?_
      simp only
      split
      · exact .bind plain_untrack fun _ => settled _
      · exact settled _
    · exact .fault _ (Refusal.fault_ne_unbalanced _)
    · exact .fail _ rfl
  · exact .fault _ (by decide)

lemma plain_deleteFile : Plain (deleteFile r f) := by
  refine .bind plain_files fun fs => ?_
  extract_lets marked retired
  have hmarked : ∀ u, Plain (marked u) := fun _ => .bind plain_updateFile fun _ => plain_nothing
  have hretired : ∀ u, Plain (retired u) := by
    intro u
    simp only [retired]
    split
    · exact .bind plain_untrack hmarked
    · exact hmarked ()
  split
  · exact .bind plain_setFiles hretired
  · exact (Plain.fault _ (Refusal.fault_ne_unbalanced _)).bind hretired

lemma plain_callFile : Plain (callFile r v f name args p) := by
  refine .bind plain_checkFile fun _ => ?_
  split
  · exact .ite plain_alloc (.fail _ rfl)
  · exact plain_renameFile
  · exact plain_moveFile
  · exact plain_deleteFile
  · exact .fail _ rfl

lemma plain_fileAttribute : Plain (fileAttribute v f name p) := by
  refine .bind plain_checkFile fun _ => ?_
  split
  · exact plain_alloc
  · split
    · exact .pure _
    · exact plain_nothing
  · exact .fail _ rfl

/-! ## Recordings -/

lemma plain_load : Plain (load path) := by
  unfold load
  simp only
  split
  · refine .bind plain_files fun fs => ?_
    split
    · split
      · exact .pure _
      · exact .pure _
    · exact .fault _ (Refusal.fault_ne_unbalanced _)
  · exact .ite (.pure _) (.pure _)

lemma plain_openAudio : Plain (openAudio path parent p) := by
  refine .bind plain_findFile fun f => .bind plain_load fun loaded => ?_
  split
  · exact .fail _ rfl
  · split
    · exact .fail _ rfl
    · exact plain_alloc

lemma plain_save {format : String} : Plain (save s path format) := by
  refine .bind plain_files fun fs => ?_
  split
  · exact .fault _ (Refusal.fault_ne_unbalanced _)
  · refine .bind plain_setFiles fun _ => ?_
    split
    · rename_i f hf
      exact .fault f fun h => Wave.fault_writeAs_ne_unbalanced s format (by rw [hf, h])
    · exact .pure _

lemma plain_overwrite : Plain (overwrite r f s) :=
  .bind plain_save fun _ => (Plain.ask s.balanced_milliseconds).bind fun _ =>
    .bind plain_updateRecording fun _ => plain_nothing

lemma plain_cut : Plain (cut r f a s args p) := by
  refine .bind plain_contentOf fun start => .bind plain_contentOf fun stop =>
    (Plain.ask (balanced_inRange _ _ _)).bind fun inside => .ite ?_ ?_
  · exact (Plain.ask start.balanced_toFloat).bind fun _ => (Plain.ask stop.balanced_toFloat).bind
      fun _ =>
      (Plain.ask (s.balanced_slice _ _)).bind fun _ => plain_overwrite
  · exact (Plain.ask start.balanced_toText).bind fun _ => (Plain.ask stop.balanced_toText).bind
      fun _ =>
      .fail _ rfl

lemma plain_concat : Plain (concat r f s args p) := by
  refine .bind plain_argument fun other => .bind plain_usableFile fun g =>
    .bind plain_load fun loaded => ?_
  split
  · exact .fault _ (LoadFailure.fault_ne_unbalanced _)
  · exact (Plain.ask (s.balanced_append _)).bind fun _ => plain_overwrite

lemma plain_changeTitle : Plain (changeTitle r f s args) :=
  .bind plain_contentOf fun _ => .bind plain_updateRecording fun _ =>
    .bind plain_save fun _ => plain_nothing

lemma plain_changeFormat : Plain (changeFormat r f s args p) := by
  refine .bind plain_contentOf fun d => ?_
  split
  · extract_lets format path saved
    have hsaved : ∀ u, Plain (saved u) := by
      intro u
      refine .bind plain_save fun _ => .bind plain_files fun fs => ?_
      split
      · exact .fault _ (Refusal.fault_ne_unbalanced _)
      · exact .bind plain_setFiles fun _ => .bind plain_updateFile fun _ => plain_nothing
    exact .ite ((Plain.fail _ rfl).bind hsaved) (hsaved ())
  · exact .fault _ (by decide)

lemma plain_changeVolume : Plain (changeVolume f s args) :=
  .bind plain_contentOf fun d => (Plain.ask d.balanced_toFloat).bind fun _ =>
    (Plain.ask (s.balanced_gain _)).bind fun _ => .bind plain_save fun _ => plain_nothing

lemma plain_callAudio : Plain (callAudio r f a name args p) := by
  refine .bind plain_checkFile fun _ => .bind plain_load fun loaded => ?_
  split
  · exact .fail _ rfl
  · exact .fault _ (LoadFailure.fault_ne_unbalanced _)
  · split
    · exact plain_cut
    · exact plain_concat
    · exact plain_changeTitle
    · exact plain_changeFormat
    · exact plain_changeVolume
    · exact plain_callFile

lemma plain_audioAttribute : Plain (audioAttribute f a name p) := by
  refine .bind plain_checkFile fun _ => ?_
  split
  · exact plain_alloc
  · exact plain_alloc
  · exact plain_alloc
  · exact plain_fileAttribute

/-! ## Folders -/

lemma plain_openFolder : Plain (openFolder path p) :=
  .bind plain_files fun _ => .ite plain_alloc (.fail _ rfl)

lemma plain_orElseOnError {step other : Run Ref} (hs : Plain step) (ho : Plain other) :
    Plain (orElseOnError step other) := by
  refine hs.tryCatch fun e he => ?_
  split
  · exact ho
  · exact .stop he

lemma plain_openAudio? : Plain (openAudio? path parent p) := by
  refine Plain.tryCatch (.bind plain_openAudio fun _ => .pure _) fun e he => ?_
  split
  · exact .pure _
  · exact .stop he

lemma plain_getFile : Plain (getFile r d args p) :=
  .bind plain_contentOf fun _ => .bind plain_pathText fun _ => .bind plain_files fun _ =>
    .ite (plain_orElseOnError plain_openAudio plain_openFile) plain_nothing

lemma plain_addFile : Plain (addFile r d args p) := by
  refine .bind plain_argument fun added => .bind plain_usableFile fun f =>
    .bind plain_files fun fs => ?_
  extract_lets tracked handed path
  have htracked : ∀ u, Plain (tracked u) := fun _ => .bind plain_track fun _ => plain_nothing
  have hhanded : ∀ u, Plain (handed u) := by
    intro u
    simp only [handed]
    split
    · exact .ite (.bind plain_untrack htracked) (htracked ())
    · exact htracked ()
  refine .ite ?_ (hhanded ())
  split
  · exact .bind plain_setFiles fun _ => .bind plain_updateFile hhanded
  · exact (Plain.fault _ (Refusal.fault_ne_unbalanced _)).bind hhanded
  · exact (Plain.fail _ rfl).bind hhanded

lemma plain_ownedNamed {folder : Ref} {name : String} :
    ∀ rs : List Ref, Plain (ownedNamed folder name rs)
  | [] => .pure _
  | r :: rs => by
    refine .bind plain_value fun v => ?_
    split
    · exact .ite (.pure _) (plain_ownedNamed rs)
    · exact plain_ownedNamed rs

lemma plain_removeFile : Plain (removeFile r d args p) := by
  unfold removeFile
  extract_lets done removed
  have hremoved : ∀ content, Plain (removed content) := by
    intro content
    refine .bind plain_pathText fun name => .bind plain_files fun fs => .ite ?_ (.fail _ rfl)
    extract_lets retired
    have hretired : ∀ u, Plain (retired u) := by
      intro u
      refine (plain_ownedNamed _).bind fun owned => ?_
      split
      · exact .bind plain_untrack fun _ => .bind plain_updateFile fun _ => plain_nothing
      · exact plain_nothing
    split
    · exact .bind plain_setFiles hretired
    · exact (Plain.fault _ (Refusal.fault_ne_unbalanced _)).bind hretired
  split
  · refine .bind plain_value fun v => ?_
    split
    · exact (Plain.pure _).bind hremoved
    · exact (Plain.fail _ rfl).bind hremoved
  · exact (Plain.fail _ rfl).bind hremoved

lemma plain_mapM {f : α → Run β} (hf : ∀ a, Plain (f a)) :
    ∀ as : List α, Plain (as.mapM f)
  | [] => by simpa using Plain.pure _
  | a :: as => by
    rw [List.mapM_cons]
    exact (hf a).bind fun _ => (plain_mapM hf as).bind fun _ => .pure _

lemma plain_filterMapM {f : α → Run (Option β)} (hf : ∀ a, Plain (f a)) (as : List α) :
    Plain (as.filterMapM f) := by
  have loop : ∀ (as : List α) (bs : List β), Plain (List.filterMapM.loop f as bs) := by
    intro as
    induction as with
    | nil => exact fun _ => .pure _
    | cons a as ih =>
      intro bs
      refine (hf a).bind fun o => ?_
      split
      · exact ih _
      · exact ih _
  exact loop as []

lemma plain_pathsIn : Plain (pathsIn d) := .bind plain_files fun _ => .pure _

lemma plain_listFiles : Plain (listFiles r d p) :=
  .bind plain_files fun _ => .bind plain_pathsIn fun _ =>
    (plain_mapM (fun _ => plain_openFile) _).bind fun _ => plain_alloc

lemma plain_listFolders : Plain (listFolders d p) :=
  .bind plain_files fun _ => .bind plain_pathsIn fun _ =>
    (plain_mapM (fun _ => plain_openFolder) _).bind fun _ => plain_alloc

lemma plain_listAudio : Plain (listAudio r d p) :=
  .bind plain_files fun _ => .bind plain_pathsIn fun _ =>
    (plain_filterMapM (fun _ => plain_openAudio?) _).bind fun _ => plain_alloc

lemma plain_getFolder : Plain (getFolder d args p) :=
  .bind plain_contentOf fun _ => .bind plain_pathText fun _ => .bind plain_files fun _ =>
    .ite plain_openFolder plain_nothing

lemma plain_folderName : Plain (folderName d) :=
  .ite plain_nothing plain_alloc

lemma plain_callFolder : Plain (callFolder r d name args p) := by
  refine .bind plain_checkFolder fun _ => ?_
  split
  · exact plain_getFile
  · exact plain_addFile
  · exact plain_removeFile
  · exact plain_listFiles
  · exact plain_listFolders
  · exact plain_listAudio
  · exact plain_getFolder
  · exact plain_folderName
  · exact .fail _ rfl

lemma plain_folderAttribute : Plain (folderAttribute r d name p) := by
  refine .bind plain_checkFolder fun _ => ?_
  split
  · exact plain_alloc
  · exact plain_listFiles
  · exact plain_listFolders
  · exact plain_folderName
  · exact .fail _ rfl

/-! ## Members -/

lemma plain_getElement {elements : List Ref} : Plain (getElement elements args p) := by
  unfold getElement
  split
  · refine .bind plain_value fun v => ?_
    split
    · split
      · exact .pure _
      · exact (Plain.ask (Datum.balanced_toText _)).bind fun _ => .fail _ rfl
    · exact .fail _ rfl
  · exact .fail _ rfl

lemma plain_callList {elements : List Ref} : Plain (callList v elements name args p) := by
  unfold callList
  split
  · exact plain_getElement
  · exact .ite plain_alloc (.fail _ rfl)
  · exact .fail _ rfl

lemma plain_callMethod : Plain (callMethod r name args p) := by
  refine .bind plain_value fun v => ?_
  split
  · exact plain_callList
  · exact plain_callFile
  · exact plain_callAudio
  · exact plain_callFolder
  · exact .fail _ rfl

lemma plain_getAttribute : Plain (getAttribute r name p) := by
  refine .bind plain_value fun v => ?_
  split
  · exact plain_fileAttribute
  · exact plain_audioAttribute
  · exact plain_folderAttribute
  · exact .fail _ rfl

lemma plain_setAttribute : Plain (setAttribute r name p) := .bind plain_value fun _ => .fail _ rfl

/-! ## Functions that come with the language -/

lemma plain_converted {d : Datum} {answer : Except Fault α} (h : Balanced answer) :
    Plain (converted d type answer) := by
  unfold converted
  split
  · exact .pure _
  · exact (Plain.ask d.balanced_toText).bind fun _ => .failSomewhere rfl
  · rename_i f _
    exact .fault f fun hf => h (by rw [hf])

lemma plain_perform : Plain (perform b args p) := by
  unfold perform
  split
  · exact .bind plain_datum fun d => (Plain.ask d.balanced_toText).bind fun _ =>
      .bind plain_printLine fun _ => plain_nothing
  · exact .bind plain_readLine fun _ => plain_alloc
  · exact .bind plain_datum fun d => (plain_converted d.balanced_toInt).bind fun _ => plain_alloc
  · exact .bind plain_datum fun d => (Plain.ask d.balanced_toText).bind fun _ => plain_alloc
  · exact .bind plain_datum fun d => (plain_converted d.balanced_toFloat).bind fun _ => plain_alloc
  · exact .bind plain_datum fun d => (Plain.ask d.balanced_toText).bind fun _ => plain_alloc
  · exact .bind plain_datum fun d => (Plain.ask d.balanced_toFloat).bind fun _ => plain_alloc
  · exact .bind plain_datum fun d => (Plain.ask d.balanced_toInt).bind fun _ => plain_alloc
  · exact .bind plain_datum fun _ => plain_alloc
  · refine .bind plain_value fun v => ?_
    split
    · exact plain_openFile
    · exact .fault _ (by decide)
  · refine .bind plain_usableFile fun f => .bind plain_openAudio? fun o => ?_
    split
    · exact .pure _
    · exact plain_nothing
  · exact .fault _ (by decide)

lemma plain_guarded {body : Run α} (h : Plain body) : Plain (guarded function p body) := by
  refine h.tryCatch fun e he => ?_
  split
  · exact .fail _ (Bool.or_eq_false_iff.2 ⟨he.nameless, he.bounded⟩)
  · exact .fail _ (by split <;> rfl)
  · exact .stop he

lemma plain_callBuiltin : Plain (callBuiltin b args p) := plain_guarded plain_perform

/-! ## Operators -/

lemma plain_operate {op : BinaryOp} {left right : Ref} : Plain (operate op left right p) := by
  refine .bind plain_value fun l => .bind plain_value fun r => ?_
  extract_lets applied
  have happlied : ∀ u, Plain (applied u) := by
    intro u
    refine .look (fun m => (Plain.ask (m.store.balanced_operate _ _ _)).bind fun o => ?_)
      fun m m' h => ?_
    · split
      · exact plain_give
      · exact .fail _ rfl
    · rw [show m.store = m'.store from congrArg World.store h]
  refine .ite (.bind plain_datum fun d => ?_) (happlied ())
  exact .ite ((Plain.fail _ rfl).bind happlied) (happlied ())

lemma plain_negate : Plain (negate r p) := by
  refine .bind plain_value fun v => ?_
  split
  · exact plain_give
  · exact plain_give
  · exact .fail _ rfl

/-! ## Steps of the evaluator -/

lemma plain_requireObject {member : String} : Plain (requireObject r member p) :=
  .bind plain_value fun _ => .ite (.fail _ rfl) (.pure _)

lemma plain_construct : Plain (construct type args p) := by
  unfold construct
  split
  · exact .bind plain_contentOf fun _ => .bind plain_pathText fun _ =>
      .bind plain_openFile fun _ => plain_setLast
  · exact .bind plain_contentOf fun _ => .bind plain_pathText fun _ =>
      .bind plain_openFolder fun _ => plain_setLast
  · exact .bind plain_contentOf fun _ => .bind plain_pathText fun _ =>
      .bind plain_openAudio fun _ => plain_setLast
  · exact .fail _ rfl

lemma plain_takeReturned {returned : Option Ref} :
    Plain (takeReturned function type p returned) := by
  unfold takeReturned
  split
  · cases returned with
    | none => exact plain_give
    | some r =>
      refine .bind plain_value fun v => ?_
      split
      · exact plain_give
      · exact (Plain.fail _ rfl).bind fun _ => plain_give
  · cases returned with
    | none => exact .fail _ rfl
    | some r =>
      refine .bind plain_value fun v => ?_
      split
      · exact .bind plain_clone fun _ => plain_setLast
      · exact plain_setLast

end Run

end AudLang
