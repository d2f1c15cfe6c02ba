import AudLang.Proofs.Reformatting

/-!
What a call that stops leaves behind.

Most calls look first and then change everything at once, so that a call that stops has changed
nothing.  A recording is another matter: its sound is written over the file, and the file is there,
if only in part, even when the sound cannot be written.
-/

namespace AudLang

variable {r : Ref} {f : FileObject} {args : List Ref} {p : Position} {s' : Segment}

namespace Run

open AudLang.Path

variable {α β : Type}

/-! ## Steps -/

/-- A step that stops leaves the machine as it was. -/
structure StopsClean (x : Run α) : Prop where
  ends : ∀ m, Ends (x m) (fun _ _ => True) (fun _ m' => m' = m)

/-- The step always answers. -/
structure NeverStops (x : Run α) : Prop where
  ends : ∀ m, Ends (x m) (fun _ _ => True) (fun _ _ => False)

namespace NeverStops

variable {x : Run α} {f : α → Run β}

lemma pure (a : α) : NeverStops (Pure.pure a : Run α) := ⟨fun _ => trivial⟩

lemma bind (hx : NeverStops x) (hf : ∀ a, NeverStops (f a)) : NeverStops (x >>= f) :=
  ⟨fun m => Ends.bind (hx.ends m) fun a m₁ _ _ => (hf a).ends m₁⟩

lemma of_settles (h : ∀ R fs, ∃ R' fs', Settles R fs x R' fs') : NeverStops x := by
  refine ⟨fun m => ?_⟩
  obtain ⟨R', fs', hx⟩ := h m.registry m.files
  exact (hx.ends m rfl rfl).weaken (fun _ _ _ _ => trivial) (fun _ _ _ h => h)

lemma setFiles (fs : Files) : NeverStops (Run.setFiles fs) := ⟨fun _ => trivial⟩

lemma alloc (v : Value) : NeverStops (Run.alloc v) := ⟨fun _ => trivial⟩

lemma nothing : NeverStops Run.nothing := alloc .null

lemma updateFile (r : Ref) (change : FileObject → FileObject) :
    NeverStops (Run.updateFile r change) :=
  of_settles fun _ _ => ⟨_, _, settles_updateFile⟩

lemma updateRecording (r : Ref) (change : Recording → Recording) :
    NeverStops (Run.updateRecording r change) :=
  of_settles fun _ _ => ⟨_, _, settles_updateRecording⟩

lemma untrack (g r : Ref) : NeverStops (Run.untrack g r) :=
  of_settles fun _ _ => ⟨_, _, settles_untrack⟩

lemma track (g r : Ref) : NeverStops (Run.track g r) := of_settles fun _ _ => ⟨_, _, settles_track⟩

/-- First the file is forgotten by the folder that it belongs to. -/
lemma leave {parent : Option Ref} {y : Run β} (hy : NeverStops y) : NeverStops (do
      if let some g := parent then Run.untrack g r
      y) := by
  cases parent with
  | none => exact hy
  | some g => exact (untrack g r).bind fun _ => hy

end NeverStops

namespace StopsClean

variable {x : Run α} {f : α → Run β}

lemma of_onlyLooks (h : OnlyLooks x) : StopsClean x :=
  ⟨fun m => (h.ends m).weaken (fun _ _ _ _ => trivial) (fun _ _ _ h => h)⟩

lemma of_neverStops (h : NeverStops x) : StopsClean x :=
  ⟨fun m => (h.ends m).weaken (fun _ _ _ _ => trivial) (fun _ _ _ h => h.elim)⟩

lemma fail (e : RunError) (p : Position) : StopsClean (Run.fail e p : Run α) :=
  of_onlyLooks (.fail e p)

lemma fault (e : Fault) : StopsClean (Run.fault e : Run α) := of_onlyLooks (.fault e)

/-- Whatever is done behind a step that only looks. -/
lemma look (hx : OnlyLooks x) (hf : ∀ a, StopsClean (f a)) : StopsClean (x >>= f) := by
  refine ⟨fun m => Ends.bind (hx.ends m) fun a m₁ _ h₁ => ?_⟩
  subst h₁
  exact (hf a).ends m₁

/-- Behind a step that stops clean nothing stops. -/
lemma bind (hx : StopsClean x) (hf : ∀ a, NeverStops (f a)) : StopsClean (x >>= f) :=
  ⟨fun m => Ends.bind (hx.ends m) fun a m₁ _ _ => ((hf a).ends m₁).weaken (fun _ _ _ _ => trivial)
    (fun _ _ _ h => h.elim)⟩

end StopsClean

/-- From this machine on, the step answers, stops with the machine as it was, or stops with `Q`. -/
structure StopsWith (m : Machine) (x : Run α) (Q : Stop → Machine → Prop) : Prop where
  ends : Ends (x m) (fun _ _ => True) (fun e m' => m' = m ∨ Q e m')

namespace StopsWith

variable {m : Machine} {x y : Run α} {f : α → Run β} {Q : Stop → Machine → Prop}

lemma clean (h : StopsClean x) : StopsWith m x Q :=
  ⟨(h.ends m).weaken (fun _ _ _ _ => trivial) (fun _ _ _ h => .inl h)⟩

lemma look (hx : OnlyLooks x) (hf : ∀ a, x m = .ok a m → StopsWith m (f a) Q) :
    StopsWith m (x >>= f) Q := by
  refine ⟨Ends.bind ((hx.ends m).weaken (fun _ _ _ h => h) (fun _ _ _ h => .inl h)) fun a m₁ h h₁ =>
    ?_⟩
  subst h₁
  exact (hf a h).ends

/-- Behind a step nothing stops. -/
lemma bind (hx : StopsWith m x Q)
    (hf : ∀ a m₁, x m = .ok a m₁ → Ends (f a m₁) (fun _ _ => True) (fun _ _ => False)) :
    StopsWith m (x >>= f) Q :=
  ⟨Ends.bind hx.ends fun a m₁ h _ =>
    (hf a m₁ h).weaken (fun _ _ _ _ => trivial) (fun _ _ _ h => h.elim)⟩

lemma ite {c : Prop} [Decidable c] (hx : c → StopsWith m x Q) (hy : ¬c → StopsWith m y Q) :
    StopsWith m (if c then x else y) Q := by
  split
  · exact hx ‹_›
  · exact hy ‹_›

lemma weaken {Q' : Stop → Machine → Prop} (h : StopsWith m x Q) (hQ : ∀ e m', Q e m' → Q' e m') :
    StopsWith m x Q' :=
  ⟨h.ends.weaken (fun _ _ _ h => h) (fun _ _ _ h => h.imp id (hQ _ _))⟩

end StopsWith

/-! ## Files -/

lemma stopsClean_renameFile : StopsClean (renameFile r f args p) := by
  refine .look looks_contentOf fun d => .look looks_pathText fun name => .look looks_files fun fs =>
    ?_
  split
  · exact .of_neverStops ((NeverStops.setFiles _).bind fun _ =>
      (NeverStops.updateFile r _).bind fun _ => .nothing)
  · exact .fault _
  · exact .fail _ _

lemma stopsClean_moveFile : StopsClean (moveFile r f args p) := by
  refine .look looks_argument fun target => .look looks_value fun v => ?_
  split
  · refine .look looks_checkFolder fun _ => .look looks_files fun fs => ?_
    split
    · refine .of_neverStops ((NeverStops.setFiles _).bind fun _ => .leave ?_)
      exact (NeverStops.updateFile r _).bind fun _ => (NeverStops.track target r).bind fun _ =>
        (NeverStops.updateFile r _).bind fun _ => .nothing
    · exact .fault _
    · exact .fail _ _
  · exact .fault _

lemma stopsClean_deleteFile : StopsClean (deleteFile r f) := by
  refine .look looks_files fun fs => ?_
  extract_lets marked retired
  have hretired : ∀ u, NeverStops (retired u) := fun _ =>
    .leave ((NeverStops.updateFile r _).bind fun _ => .nothing)
  split
  · exact .of_neverStops ((NeverStops.setFiles _).bind hretired)
  · exact (StopsClean.fault _).bind hretired

lemma stopsClean_callFile {v : Value} {name : String} :
    StopsClean (callFile r v f name args p) := by
  refine .look looks_checkFile fun _ => ?_
  split
  · split
    · exact .of_neverStops (.alloc _)
    · exact .fail _ _
  · exact stopsClean_renameFile
  · exact stopsClean_moveFile
  · exact stopsClean_deleteFile
  · exact .fail _ _

end Run

open Run AudLang.Path

/-! ## Saving -/

namespace Machine

variable {m m' : Machine} {s : Segment} {path format : String} {e : Stop}

lemma files_run (m : Machine) : Run.files m = .ok m.files m := rfl

lemma value_run (m : Machine) (r : Ref) : value r m = .ok (m.store.get r) m := rfl

/-- Writing a sound stopped, with the file written in part and all else as it was. -/
structure SavesInPart (m : Machine) (s : Segment) (path format : String) (e : Stop) (m' : Machine) :
    Prop where
  stop : (Wave.writeAs s format).fault.map Stop.fault = some e
  written : m.files.write path (Wave.writeAs s format).bytes = .ok m'.files
  rest : m' = { m with files := m'.files }

lemma SavesInPart.run (h : m.SavesInPart s path format e m') :
    save s path format m = .error e m' := by
  obtain ⟨fault, hfault, rfl⟩ := Option.map_eq_some_iff.1 h.stop
  rw [h.rest, save, bind_of_ok m.files_run]
  simp only [h.written, hfault]
  rfl

/-- The part of the sound is what the file holds then.  So the tree is as it was exactly if the file
held this before. -/
lemma SavesInPart.unchanged_iff (h : m.SavesInPart s path format e m') :
    (∀ l, m'.files.tree.get? l = m.files.tree.get? l) ↔
      m.files.read path = .ok (Wave.writeAs s format).bytes := by
  obtain ⟨l, hl, hne, -, hfiles⟩ := Files.put_of_write h.written
  have hput : m'.files.tree.get? l = some (.file (Wave.writeAs s format).bytes) := by
    rw [hfiles]
    exact Tree.get?_put_self _ hne _
  constructor
  · intro hsame
    exact Files.read_of_locate hl ((hsame l).symm.trans hput)
  · intro hread k
    obtain ⟨l', hl', hget⟩ := Files.locate_of_read hread
    cases hl.symm.trans hl'
    by_cases hk : k = l
    · rw [hk, hput, hget]
    · rw [hfiles]
      exact Tree.get?_put_of_ne _ hk _

/-- Saving that is not refused stops only with the file written in part. -/
lemma save_ends_of_write {fs : Files}
    (h : m.files.write path (Wave.writeAs s format).bytes = .ok fs) :
    Ends (save s path format m) (fun _ _ => True) (m.SavesInPart s path format) := by
  rw [save, bind_of_ok m.files_run]
  simp only [h]
  cases hfault : (Wave.writeAs s format).fault with
  | none => trivial
  | some fault => exact ⟨by rw [hfault]; rfl, h, rfl⟩

/-- Saving stops when it is refused, and then nothing has changed, or with the file written in
part. -/
lemma stopsWith_save {s : Segment} {path format : String} :
    StopsWith m (save s path format) (m.SavesInPart s path format) := by
  cases hwrite : m.files.write path (Wave.writeAs s format).bytes with
  | ok fs => exact ⟨(save_ends_of_write hwrite).weaken (fun _ _ _ h => h) (fun _ _ _ h => .inr h)⟩
  | error refusal =>
    refine .look looks_files fun fs hfs => ?_
    cases hfs
    rw [hwrite]
    exact .clean (.fault _)

/-! ## Recordings -/

/-- The content of an argument, if it is a simple value. -/
def content? (m : Machine) (args : List Ref) (i : Nat) : Option Datum :=
  args[i]?.bind fun r => (m.store.get r).datum?

/-- A file that can be used, and the sound that is loaded from it. -/
structure Playable (m : Machine) (f : FileObject) (s : Segment) : Prop where
  live : f.isDeleted = false
  extension : (Text.lower f.path).endsWith ".wav" = true
  sound : m.files.sound? f.path = some s

/-- A text that may be asked for as a format. -/
structure IsFormat (format : String) : Prop where
  ne_empty : format ≠ ""
  plain : ∀ c ∈ format.toList, Text.isAlphanumeric c = true
  short : format.length ≤ 5

/-- What a call of a recording is about to write, and to which path in which format.  Only a change
of the title has changed something by then. -/
inductive Drafts (m : Machine) (r : Ref) (f : FileObject) (a : Recording) (s : Segment)
    (args : List Ref) : String → Machine → Segment → String → String → Prop
  | cut {start stop : Datum} {first last : Float} {s' : Segment}
      (hstart : m.content? args 0 = some start)
      (hstop : m.content? args 1 = some stop) (hrange : inRange start stop a.length = .ok true)
      (hfirst : start.toFloat = .ok first) (hlast : stop.toFloat = .ok last)
        (hslice : s.slice first last = .ok s') :
      Drafts m r f a s args "cut" m s' f.path (formatOf f.path)
  | concat {o : Ref} {other : FileObject} {t s' : Segment} (ho : args[0]? = some o)
      (hfile : (m.store.get o).file? = some other) (hother : m.Playable other t)
        (happend : s.append t = .ok s') :
      Drafts m r f a s args "concat" m s' f.path (formatOf f.path)
  | changeTitle {title : Datum} (htitle : m.content? args 0 = some title) :
      Drafts m r f a s args "change_title"
        { m with store := m.store.put r (.audio f { a with title }) } s f.path
        (formatOf f.path)
  | changeFormat {t : String} (ht : m.content? args 0 = some (.text t))
      (hformat : IsFormat (Text.lower t)) :
      Drafts m r f a s args "change_format" m s (withExtension f.path (Text.lower t)) (Text.lower t)
  | changeVolume {d : Datum} {db : Float} {s' : Segment} (hd : m.content? args 0 = some d)
      (hdb : d.toFloat = .ok db)
      (hgain : s.gain db = .ok s') :
        Drafts m r f a s args "change_volume" m s' f.path (formatOf f.path)

variable {o : Ref} {a : Recording} {name : String} {i : Nat} {d : Datum}

lemma content?_of_contentOf (h : contentOf args i m = .ok d m') : m.content? args i = some d := by
  obtain ⟨q, hq, h⟩ := looks_argument.ok_of_bind h
  obtain ⟨v, hv, h⟩ := looks_value.ok_of_bind h
  cases hv
  rw [content?, getElem?_of_argument hq, Option.bind_some]
  cases hdatum : (m.store.get q).datum? with
  | none =>
    simp only [hdatum] at h
    cases h
  | some d' =>
    simp only [hdatum] at h
    cases h
    rfl

lemma argument_of_getElem? (h : args[i]? = some o) : argument args i m = .ok o m := by
  simp only [argument, h]
  rfl

lemma contentOf_of_content? (h : m.content? args i = some d) : contentOf args i m = .ok d m := by
  obtain ⟨q, hq, hd⟩ := Option.bind_eq_some_iff.1 h
  rw [contentOf, bind_of_ok (argument_of_getElem? hq), datum, bind_of_ok (m.value_run q)]
  simp only [hd]
  rfl

lemma ask_of_ok {α : Type} {x : Except Fault α} {y : α} (h : x = .ok y) : ask x m = .ok y m := by
  rw [h]
  rfl

lemma updateRecording_run (hcell : m.store.get r = .audio f a) (change : Recording → Recording) :
    updateRecording r change m = .ok ()
      { m with store := m.store.put r (.audio f (change a)) } := by
  rw [updateRecording, bind_of_ok (m.value_run r), hcell]
  rfl

namespace Playable

lemma isFile (hm : m.Playable f s) : m.files.isFile f.path = true := by
  obtain ⟨b, hread, -⟩ := Files.read_of_sound? hm.sound
  exact Files.isFile_of_read hread

lemma check (hm : m.Playable f s) (operation : String) (p : Position) :
    checkFile f operation p m = .ok () m := by
  obtain ⟨b, hread, -⟩ := Files.read_of_sound? hm.sound
  obtain ⟨entry, hentry, -⟩ := answer_of_bind hread
  have hexists : m.files.doesExist f.path = true := by
    rw [Files.doesExist, hentry]
    rfl
  rw [checkFile, bind_of_ok m.files_run]
  simp only [hm.live, hexists, hm.isFile]
  rfl

lemma load (hm : m.Playable f s) : Run.load f.path m = .ok (.ok s) m :=
  load_of_sound? hm.extension hm.sound

/-- The file can be written anew, whatever is to be in it. -/
lemma exists_write (hm : m.Playable f s) (b : Bytes) : ∃ fs, m.files.write f.path b = .ok fs := by
  obtain ⟨b₀, hread, -⟩ := Files.read_of_sound? hm.sound
  obtain ⟨l, hl, hget⟩ := Files.locate_of_read hread
  obtain ⟨lead, before, hpath, hcomponents⟩ := exists_lead_of_base f.path
  have hlast : components f.path = before ++ [base f.path] := by
    rw [← hcomponents _ (no_slash_base f.path), ← hpath]
  exact ⟨_, Files.write_of_locate hlast (isName_base_of_sound hm.extension) hl (by simp [hget]) b⟩

end Playable

lemma playable_of_load (hlive : f.isDeleted = false) (hload : Run.load f.path m = .ok (.ok s) m') :
    m.Playable f s := by
  obtain ⟨hextension, hsound⟩ := sound?_of_load hload
  exact ⟨hlive, hextension, hsound⟩

/-- A call of a recording has stopped with its draft written in part. -/
def LeavesPart (m : Machine) (r : Ref) (f : FileObject) (a : Recording) (s : Segment)
    (args : List Ref) (name : String) (e : Stop) (m' : Machine) : Prop :=
  ∃ m₁ s' path format, m.Drafts r f a s args name m₁ s' path format ∧
    m₁.SavesInPart s' path format e m'

namespace Playable

/-- A sound that has been written into a sound file has a length. -/
lemma exists_length (hm : m.Playable f s) (h : (Wave.writeAs s' (formatOf f.path)).fault = none) :
    ∃ length, s'.milliseconds = .ok length := by
  have hwav : formatOf f.path = "wav" :=
    (format_of_writeAs h).resolve_right (formatOf_ne_raw hm.extension)
  rw [hwav, Wave.writeAs, if_pos rfl] at h
  exact Segment.exists_milliseconds (Wave.frameWidth_of_encode h)

/-- Writing over the file stops only at the writing. -/
lemma overwrite (hm : m.Playable f s) (r : Ref) (s' : Segment) :
    StopsWith m (Run.overwrite r f s') (m.SavesInPart s' f.path (formatOf f.path)) := by
  refine .bind stopsWith_save fun u m₁ hsave => ?_
  obtain ⟨fs, -, hfault, -⟩ := save_ok hsave
  obtain ⟨length, hlength⟩ := hm.exists_length hfault
  rw [hlength]
  exact ((NeverStops.pure length).bind fun length => (NeverStops.updateRecording r _).bind fun _ =>
    .nothing).ends m₁

lemma cut (hm : m.Playable f s) :
    StopsWith m (Run.cut r f a s args p) (m.LeavesPart r f a s args "cut") := by
  refine .look looks_contentOf fun start hstart => .look looks_contentOf fun stop hstop =>
    .look (.ask _) fun within hrange => .ite (fun hwithin => ?_) fun _ => ?_
  · refine .look (.ask _) fun first hfirst => .look (.ask _) fun last hlast =>
      .look (.ask _) fun s' hslice => ?_
    have hdraft : m.Drafts r f a s args "cut" m s' f.path (formatOf f.path) :=
      .cut (content?_of_contentOf hstart) (content?_of_contentOf hstop) (hwithin ▸ ask_ok hrange)
        (ask_ok hfirst)
        (ask_ok hlast) (ask_ok hslice)
    exact (hm.overwrite r s').weaken fun _ _ h => ⟨m, s', _, _, hdraft, h⟩
  · exact .look (.ask _) fun _ _ => .look (.ask _) fun _ _ => .clean (.fail _ _)

lemma concat (hm : m.Playable f s) :
    StopsWith m (Run.concat r f s args p) (m.LeavesPart r f a s args "concat") := by
  refine .look looks_argument fun o ho => .look looks_usableFile fun other husable =>
    .look looks_load fun loaded hload => ?_
  cases loaded with
  | error failure => exact .clean (.fault _)
  | ok t =>
    refine .look (.ask _) fun s' happend => ?_
    obtain ⟨hfile, hlive⟩ := file_of_usableFile husable
    have hdraft : m.Drafts r f a s args "concat" m s' f.path (formatOf f.path) :=
      .concat (getElem?_of_argument ho) hfile (playable_of_load hlive hload) (ask_ok happend)
    exact (hm.overwrite r s').weaken fun _ _ h => ⟨m, s', _, _, hdraft, h⟩

lemma changeTitle (hm : m.Playable f s) (hcell : m.store.get r = .audio f a) :
    StopsWith m (Run.changeTitle r f s args) (m.LeavesPart r f a s args "change_title") := by
  refine .look looks_contentOf fun title htitle => ⟨?_⟩
  let m₁ : Machine := { m with store := m.store.put r (.audio f { a with title }) }
  have hdraft : m.Drafts r f a s args "change_title" m₁ s f.path (formatOf f.path) :=
    .changeTitle (content?_of_contentOf htitle)
  obtain ⟨fs, hwrite⟩ := hm.exists_write (Wave.writeAs s (formatOf f.path)).bytes
  have hsave := save_ends_of_write (m := m₁) hwrite
  rw [bind_of_ok (updateRecording_run hcell _)]
  exact Ends.bind (hsave.mono_error fun _ _ h => .inr ⟨m₁, s, _, _, hdraft, h⟩)
    fun _ m₂ _ _ => trivial

lemma changeFormat (hm : m.Playable f s) :
    StopsWith m (Run.changeFormat r f s args p) (m.LeavesPart r f a s args "change_format") := by
  refine .look looks_contentOf fun d hd => ?_
  cases d with
  | text t =>
    dsimp only
    refine .ite (fun _ => ⟨.inl rfl⟩) fun hformat => ?_
    simp only [Bool.or_eq_true, Bool.not_eq_true', decide_eq_true_eq, not_or, Bool.not_eq_false,
      List.all_eq_true, String.isEmpty_iff, Nat.not_lt] at hformat
    have hdraft : m.Drafts r f a s args "change_format" m s (withExtension f.path (Text.lower t))
      (Text.lower t) :=
      .changeFormat (content?_of_contentOf hd) ⟨hformat.1.1, hformat.1.2, hformat.2⟩
    refine .bind (stopsWith_save.weaken fun _ _ h => ⟨m, s, _, _, hdraft, h⟩) fun _ m₁ hsave => ?_
    -- the file is still there, so that it can be removed
    obtain ⟨fs, hwrite, -, rfl⟩ := save_ok hsave
    obtain ⟨b₀, hread, -⟩ := Files.read_of_sound? hm.sound
    obtain ⟨b, hread'⟩ := Files.exists_read_write hwrite hread
    obtain ⟨fs', hremove⟩ := Files.exists_remove hread'
    rw [bind_of_ok (files_run _)]
    simp only [hremove]
    exact ((NeverStops.setFiles fs').bind fun _ => (NeverStops.updateFile r _).bind fun _ =>
      .nothing).ends _
  | _ => exact .clean (.fault _)

end Playable

lemma stopsWith_changeVolume :
    StopsWith m (Run.changeVolume f s args) (m.LeavesPart r f a s args "change_volume") := by
  refine .look looks_contentOf fun d hd => .look (.ask _) fun db hdb =>
    .look (.ask _) fun s' hgain => ?_
  have hdraft : m.Drafts r f a s args "change_volume" m s' f.path (formatOf f.path) :=
    .changeVolume (content?_of_contentOf hd) (ask_ok hdb) (ask_ok hgain)
  exact (stopsWith_save.bind fun _ m₁ _ => NeverStops.nothing.ends m₁).weaken
    fun _ _ h => ⟨m, s', _, _, hdraft, h⟩

lemma Playable.usable (hm : m.Playable f s) (hfile : (m.store.get o).file? = some f)
    (operation : String) (p : Position) : usableFile o operation p m = .ok f m := by
  rw [usableFile, bind_of_ok (m.value_run o)]
  cases hv : m.store.get o <;> rw [hv] at hfile <;> cases hfile <;> exact bind_of_ok
    (hm.check operation p)

/-- A call whose draft can be written only in part stops, with that part in the file. -/
lemma Drafts.stops {m₁ : Machine} {s' : Segment} (hd : m.Drafts r f a s args name m₁ s' path format)
    (hm : m.Playable f s) (hcell : m.store.get r = .audio f a)
    (hsave : m₁.SavesInPart s' path format e m')
    (p : Position) : callMethod r name args p m = .error e m' := by
  rw [callMethod, bind_of_ok (m.value_run r), hcell]
  change callAudio r f a name args p m = .error e m'
  rw [callAudio, bind_of_ok (hm.check name p), bind_of_ok hm.load]
  cases hd with
  | cut hstart hstop hrange hfirst hlast hslice =>
    change Run.cut r f a s args p m = .error e m'
    rw [Run.cut, bind_of_ok (contentOf_of_content? hstart),
      bind_of_ok (contentOf_of_content? hstop),
      bind_of_ok (ask_of_ok hrange), if_pos rfl, bind_of_ok (ask_of_ok hfirst),
        bind_of_ok (ask_of_ok hlast),
      bind_of_ok (ask_of_ok hslice)]
    exact bind_of_error hsave.run
  | concat ho hfile hother happend =>
    change Run.concat r f s args p m = .error e m'
    rw [Run.concat, bind_of_ok (argument_of_getElem? ho),
      bind_of_ok (hother.usable hfile "concat" p),
      bind_of_ok hother.load]
    change (ask _ >>= _) m = _
    rw [bind_of_ok (ask_of_ok happend)]
    exact bind_of_error hsave.run
  | changeTitle htitle =>
    change Run.changeTitle r f s args m = .error e m'
    rw [Run.changeTitle, bind_of_ok (contentOf_of_content? htitle),
      bind_of_ok (updateRecording_run hcell _)]
    exact bind_of_error hsave.run
  | changeFormat ht hformat =>
    change Run.changeFormat r f s args p m = .error e m'
    rw [Run.changeFormat, bind_of_ok (contentOf_of_content? ht)]
    dsimp only
    rw [if_neg (by simpa [hformat.ne_empty, Nat.not_lt, hformat.short] using hformat.plain)]
    exact bind_of_error hsave.run
  | changeVolume hd hdb hgain =>
    change Run.changeVolume f s args m = .error e m'
    rw [Run.changeVolume, bind_of_ok (contentOf_of_content? hd), bind_of_ok (ask_of_ok hdb),
      bind_of_ok (ask_of_ok hgain)]
    exact bind_of_error hsave.run

lemma Drafts.files_eq {m₁ : Machine} (hd : m.Drafts r f a s args name m₁ s' path format) :
    m₁.files = m.files := by
  cases hd <;> rfl

/-- A call of a recording stops with the machine as it was, or with what it leaves of its draft. -/
lemma stopsWith_callAudio (hcell : m.store.get r = .audio f a) :
    StopsWith m (callAudio r f a name args p) fun e m' => ∃ s, m.Playable f s ∧
      m.LeavesPart r f a s args name e m' := by
  refine .look looks_checkFile fun _ hcheck => .look looks_load fun loaded hload => ?_
  split
  · exact .clean (.fail _ _)
  · exact .clean (.fault _)
  · rename_i s
    have hm : m.Playable f s := playable_of_load (isDeleted_of_checkFile hcheck) hload
    have hpart : ∀ e m', m.LeavesPart r f a s args name e m' →
        ∃ s, m.Playable f s ∧ m.LeavesPart r f a s args name e m' := fun _ _ h => ⟨s, hm, h⟩
    split
    · exact hm.cut.weaken hpart
    · exact hm.concat.weaken hpart
    · exact (hm.changeTitle hcell).weaken hpart
    · exact hm.changeFormat.weaken hpart
    · exact stopsWith_changeVolume.weaken hpart
    · exact .clean stopsClean_callFile

/-- A call of a recording that stops leaves everything as it was, with one exception.  When the
sound that is to be written can be written only in part, then this part is what the file holds
afterwards, and a new title has been noted all the same.  Then the tree is as it was only if the
file held just this part before. -/
theorem stops_iff_of_recording (hcell : m.store.get r = .audio f a) :
    callMethod r name args p m = .error e m' ↔
      callMethod r name args p m = .error e m ∧ m' = m ∨
      ∃ s m₁ s' path format, m.Playable f s ∧ m.Drafts r f a s args name m₁ s' path format ∧
        m₁.SavesInPart s' path format e m' ∧
        ((∀ l, m'.files.tree.get? l = m.files.tree.get? l) ↔
          m.files.read path = .ok (Wave.writeAs s' format).bytes) := by
  have hcall : callMethod r name args p m = callAudio r f a name args p m := by
    rw [callMethod, bind_of_ok (m.value_run r), hcell]
  constructor
  · intro h
    rcases (stopsWith_callAudio hcell).ends.error (hcall.symm.trans h) with rfl | ⟨s, hm, m₁, s',
      path, format, hd, hs⟩
    · exact .inl ⟨h, rfl⟩
    · exact .inr ⟨s, m₁, s', path, format, hm, hd, hs, hd.files_eq ▸ hs.unchanged_iff⟩
  · rintro (⟨h, rfl⟩ | ⟨s, m₁, s', path, format, hm, hd, hs, -⟩)
    · exact h
    · exact hd.stops hm hcell hs p

/-- The extension of a sound file is written in capitals, which is no format that can be written. -/
theorem stops_iff_of_recording_capitals :
    ∃ (m m' : Machine) (f : FileObject) (a : Recording) (s : Segment),
    m.store.get 1 = .audio f a ∧ m.files.sound? "/a.WAV" = some s ∧ a.title = .text "a" ∧
    callMethod 1 "change_title" [2] .start m = .error (.fault .noFile) m' ∧
    m'.files.read "/a.WAV" = .ok [] ∧ m'.store.get 1 = .audio f { a with title := .text "b" } := by
  let f : FileObject := { path := "/a.WAV", name := "a.WAV", parent := none, isDeleted := false }
  let a : Recording := { length := 0, bitrate := 64, title := .text "a" }
  let s : Segment := ⟨1, 8000, 1, [0, 1]⟩
  let m : Machine :=
    { store := ⟨#[.null, .audio f a, .string (.text "b")]⟩
      files := ⟨⟨[(["a.WAV"], .file (Wave.encode s).bytes)]⟩, []⟩ }
  let m' : Machine :=
    { m with
      store := m.store.put 1 (.audio f { a with title := .text "b" })
      files := ⟨⟨[(["a.WAV"], .file [])]⟩, []⟩ }
  have hm : m.Playable f s := ⟨rfl, by decide +kernel, by decide +kernel⟩
  have hdraft : m.Drafts 1 f a s [2] "change_title" { m with store := m'.store } s f.path
    (formatOf f.path) :=
    .changeTitle rfl
  have hsave : SavesInPart { m with store := m'.store } s f.path (formatOf f.path) (.fault .noFile)
    m' :=
    ⟨by decide +kernel, by decide +kernel, rfl⟩
  have hstops := (stops_iff_of_recording (p := .start) rfl).2
    (.inr ⟨s, _, s, _, _, hm, hdraft, hsave, hsave.unchanged_iff⟩)
  exact ⟨m, m', f, a, s, rfl, hm.sound, rfl, hstops, by decide +kernel, rfl⟩

end Machine

end AudLang
