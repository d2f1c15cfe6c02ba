import AudLang.Proofs.Reports

/-!
Recordings in another format.

A recording gets another format in three steps: its sound is written beside the file, the file is
removed, and the recording goes on with the new path.  The first two steps go well together unless
the new path is the old one.  Then what has just been written is what is removed.
-/

namespace AudLang

open Run AudLang.Path

/-! ## Extensions -/

/-- The path at which a recording is written in another format. -/
def Path.withExtension (path extension : String) : String :=
  (splitExtension path).1 ++ "." ++ extension

namespace Path

variable {path extension : String}

/-- Another extension changes the last component and nothing before it. -/
lemma components_withExtension (path : String) (hempty : extension ≠ "")
    (hslash : '/' ∉ extension.toList)
    (hdot : '.' ∉ extension.toList) : ∃ (lead c : String) (before : List String), IsName c ∧
      path = lead ++ base path ∧ withExtension path extension = lead ++ c ∧
      components path = before ++ [base path] ∧
        components (withExtension path extension) = before ++ [c] := by
  obtain ⟨lead, before, hpath, hcomponents⟩ := exists_lead_of_base path
  have hbase : base (lead ++ base path) = base path := by rw [← hpath]
  obtain ⟨stem, hstem, heq⟩ := splitExtension_append hbase
  have hnew : withExtension path extension = lead ++ (stem ++ "." ++ extension) := by
    rw [withExtension, hpath, heq]
    simp [String.append_assoc]
  have hname : IsName (stem ++ "." ++ extension) := by
    rcases List.eq_nil_or_concat extension.toList with hnil | ⟨w, a, hw⟩
    · exact absurd (String.toList_eq_nil_iff.1 hnil) hempty
    · have hlast : (stem ++ "." ++ extension).toList = (stem ++ ".").toList ++ w ++ [a] := by
        rw [String.toList_append, hw, List.concat_eq_append, List.append_assoc]
      have ha : a ≠ '.' := by
        rintro rfl
        exact hdot (by simp [hw])
      have hno : '/' ∉ stem.toList := fun h => no_slash_base path (hstem h)
      exact isName_of_last hlast ha (by simp [hno, hslash])
  refine ⟨lead, stem ++ "." ++ extension, before, hname, hpath, hnew, ?_, ?_⟩
  · rw [← hcomponents _ (no_slash_base path), ← hpath]
  · rw [hnew, hcomponents _ hname.no_slash]

lemma withExtension_eq_iff (hne : extension ≠ "") : withExtension path extension = path ↔
    formatOf path = extension := by
  rcases splitExtension_cases path with h | ⟨stem, old, hpath, h⟩
  · have hlonger : path ++ "." ++ extension ≠ path := by
      intro heq
      have hlength := congrArg String.length heq
      rw [String.length_append, String.length_append, show ".".length = 1 from rfl] at hlength
      omega
    have hnone : formatOf path = "" := by
      rw [formatOf, h]
      rfl
    rw [withExtension, h, hnone]
    exact ⟨fun heq => absurd heq hlonger, fun heq => absurd heq.symm hne⟩
  · have hformat : formatOf path = old := by
      simp [formatOf, h]
    rw [hformat, withExtension, h, hpath]
    simp [← String.toList_inj, eq_comm]

lemma isName_base_of_sound (h : (Text.lower path).endsWith ".wav" = true) : IsName (base path) := by
  have hend : ".wav".toList <:+ (Text.lower path).toList := endsWith_iff.1 h
  rcases List.eq_nil_or_concat path.toList with hnil | ⟨w, a, hw⟩
  · rw [Text.lower, hnil] at hend
    exact absurd hend (by decide)
  · rw [List.concat_eq_append] at hw
    -- the last character stays the last in lower case, where that is `v`
    have hlast : ∀ c : Char, Text.lowerChar c = [c] → ¬[c] <:+ ".wav".toList → a ≠ c := by
      rintro c hsame hc rfl
      have hc' : [a] <:+ (Text.lower path).toList :=
        Text.suffix_lower ⟨w, hw.symm⟩ (by simpa using hsame)
      exact hc (List.suffix_of_suffix_length_le hc' hend (by simp))
    have hslash := hlast '/' (by decide) (by decide)
    have hdot := hlast '.' (by decide) (by decide)
    obtain ⟨v, hv⟩ := exists_last_base hw hslash
    exact isName_of_last hv hdot (no_slash_base path)

end Path

/-! ## Replacing -/

namespace Files

/-- A file with these bytes is at one place, the file at another is gone, and everything else is as
it was. -/
structure Replaces (fs fs' : Files) (old new : Location) (b : Bytes) : Prop where
  home : fs'.home = fs.home
  differ : new ≠ old
  holds : fs'.tree.get? new = some (.file b)
  gone : fs'.tree.get? old = none
  elsewhere : ∀ l, l ≠ old → l ≠ new → fs'.tree.get? l = fs.tree.get? l

/-- The file at a place is gone, and everything else is as it was. -/
structure Loses (fs fs' : Files) (old : Location) : Prop where
  home : fs'.home = fs.home
  was : ∃ b, fs.tree.get? old = some (.file b)
  gone : fs'.tree.get? old = none
  elsewhere : ∀ l, l ≠ old → fs'.tree.get? l = fs.tree.get? l

variable {fs fs₁ fs₂ : Files} {p q : String} {b b₀ : Bytes}

/-- What is left when a file has been written and then one that was there has been removed. -/
lemma replaces_or_loses (hread : fs.read p = .ok b₀) (hwrite : fs.write q b = .ok fs₁)
    (hremove : fs₁.remove p = .ok fs₂) : ∃ old new, fs.locate p = .ok old ∧ fs.locate q = .ok new ∧
      fs₂.locate q = .ok new ∧ (new ≠ old → fs.Replaces fs₂ old new b) ∧
        (new = old → fs.Loses fs₂ old) := by
  obtain ⟨old, hold, hgetOld⟩ := locate_of_read hread
  obtain ⟨new, hnew, hne, hfree, hfs₁⟩ := put_of_write hwrite
  obtain ⟨old', b', hold', hget', hfs₂⟩ := erase_of_remove hremove
  cases (locate_write hwrite hold).symm.trans hold'
  have holdNe : old ≠ [] := by
    rintro rfl
    cases hgetOld
  have hkeeps : KeepsFolders fs₁ fs₂ := hfs₂ ▸ keepsFolders_erase (by simp [hget'])
  refine ⟨old, new, hold, hnew, hkeeps.locate (locate_write hwrite hnew), fun hdiffer => ?_, ?_⟩
  · subst hfs₁ hfs₂
    refine ⟨rfl, hdiffer, ?_, Tree.get?_erase_self _ holdNe, fun l hl hl' => ?_⟩
    · show ((fs.tree.put new (.file b)).erase old).get? new = _
      rw [Tree.get?_erase_of_ne _ hdiffer, Tree.get?_put_self _ hne]
    · show ((fs.tree.put new (.file b)).erase old).get? l = _
      rw [Tree.get?_erase_of_ne _ hl, Tree.get?_put_of_ne _ hl']
  · rintro rfl
    subst hfs₁ hfs₂
    refine ⟨rfl, ⟨b₀, hgetOld⟩, Tree.get?_erase_self _ holdNe, fun l hl => ?_⟩
    show ((fs.tree.put new (.file b)).erase new).get? l = _
    rw [Tree.get?_erase_of_ne _ hl, Tree.get?_put_of_ne _ hl]

/-- Another extension leads to another place. -/
lemma locate_withExtension_ne {extension : String} {l l' : Location} (hempty : extension ≠ "")
    (hslash : '/' ∉ extension.toList) (hdot : '.' ∉ extension.toList) (hbase : IsName (base p))
    (hl : fs.locate p = .ok l) (hl' : fs.locate (withExtension p extension) = .ok l')
    (hne : withExtension p extension ≠ p) : l' ≠ l := by
  obtain ⟨lead, c, before, hc, hlead, hlead', hcomponents, hcomponents'⟩ :=
    components_withExtension p hempty hslash hdot
  obtain ⟨-, k, -, -, -, -, rfl⟩ := exists_folder_of_locate hcomponents hbase hl
  obtain ⟨-, k', -, -, -, -, rfl⟩ := exists_folder_of_locate hcomponents' hc hl'
  intro hsame
  have hlast : c = base p := List.singleton_inj.1 (List.append_inj' hsame rfl).2
  exact hne (by rw [hlead', hlast, ← hlead])

end Files

/-! ## Recordings -/

namespace Run

variable {m m' : Machine} {r b : Ref} {f : FileObject} {a : Recording} {s : Segment}
  {args : List Ref} {p : Position}

lemma get_of_updateFile (hcell : m.store.get r = .audio f a) (change : FileObject → FileObject)
    {u : Unit}
    (h : updateFile r change m = .ok u m') : m'.store.get r = .audio (change f) a ∧
      m'.files = m.files := by
  obtain ⟨v, hv, h⟩ := looks_value.ok_of_bind h
  cases hv
  rw [hcell] at h
  cases h
  have hlt : r < m.store.next := Store.lt_next_of_not_null (by simp [hcell, Value.isNull])
  exact ⟨Store.get_put_self hlt _, rfl⟩

/-- What it takes to change the format of a recording: the sound is saved beside the file, the file
is removed, and the recording takes over the new path. -/
lemma changeFormat_ok (hcell : m.store.get r = .audio f a)
    (h : changeFormat r f s args p m = .ok b m') :
    ∃ t format path fs, m.firstText? args = some t ∧ format = Text.lower t ∧
      path = withExtension f.path format ∧
      (Wave.writeAs s format).fault = none ∧
      m.files.write path (Wave.writeAs s format).bytes = .ok fs ∧
      fs.remove f.path = .ok m'.files ∧
        m'.store.get r = .audio { f with path, name := base path } a := by
  obtain ⟨d, hd, h⟩ := looks_contentOf.ok_of_bind h
  cases d with
  | text t =>
    have ht : m.firstText? args = some t := firstText?_of_pathText hd rfl
    dsimp only at h
    split at h
    · obtain ⟨u, m₁, hfail, h⟩ := ok_of_bind h
      cases hfail
    · obtain ⟨u, m₁, hsave, h⟩ := ok_of_bind h
      obtain ⟨fs, hwrite, hfault, rfl⟩ := save_ok hsave
      obtain ⟨fs', hfs', h⟩ := looks_files.ok_of_bind h
      cases hfs'
      cases hremove : fs.remove f.path with
      | error e =>
        rw [hremove] at h
        cases h
      | ok fs' =>
        rw [hremove] at h
        obtain ⟨u, m₂, hset, h⟩ := ok_of_bind h
        cases hset
        obtain ⟨u, m₃, hupdate, h⟩ := ok_of_bind h
        cases h
        obtain ⟨hget, hfiles⟩ := get_of_updateFile (m := { m with files := fs' }) hcell _ hupdate
        exact ⟨t, _, _, fs, ht, rfl, rfl, hfault, hwrite,
          hremove.trans (congrArg Except.ok hfiles.symm),
          (m₃.store.get_push_null r).trans hget⟩
  | _ => cases h

lemma format_of_writeAs {format : String} (h : (Wave.writeAs s format).fault = none) :
    format = "wav" ∨ format = "raw" := by
  by_contra hno
  rw [not_or] at hno
  rw [Wave.writeAs, if_neg hno.1, if_neg hno.2] at h
  split at h <;> cases h

end Run

namespace Machine

variable {m m' : Machine} {r b : Ref} {f : FileObject} {a : Recording} {args : List Ref}
  {p : Position}

/-- Behind a successful change of format the recording goes on with the path that has the new
extension.  If the file had another extension, then the sound is there in the new format, nothing
but the old file has disappeared, and nothing else has changed.  If the file had this extension
already, then there is nothing at the path: the only file with the sound is gone. -/
theorem replaces_iff_of_changeFormat (hcell : m.store.get r = .audio f a)
    (h : callMethod r "change_format" args p m = .ok b m') :
    ∃ t format path s old new, m.firstText? args = some t ∧ format = Text.lower t ∧
      (format = "wav" ∨ format = "raw") ∧ path = withExtension f.path format ∧
      m'.store.get r = .audio { f with path, name := base path } a ∧
        m.files.sound? f.path = some s ∧
      m.files.locate f.path = .ok old ∧ m'.files.locate path = .ok new ∧
      (path ≠ f.path ∧ m.files.Replaces m'.files old new (Wave.writeAs s format).bytes ↔
        formatOf f.path ≠ format) ∧
      (formatOf f.path ≠ format → format = "wav" → m'.files.sound? path = some s) ∧
      (formatOf f.path = format → path = f.path ∧ new = old ∧ m.files.Loses m'.files old) := by
  obtain ⟨v, hv, h⟩ := looks_value.ok_of_bind h
  cases hv
  rw [hcell] at h
  obtain ⟨u, -, h⟩ := looks_checkFile.ok_of_bind h
  obtain ⟨loaded, hload, h⟩ := looks_load.ok_of_bind h
  cases loaded with
  | error e => cases e <;> cases h
  | ok s =>
    obtain ⟨hextension, hsound⟩ := sound?_of_load hload
    obtain ⟨bytes, hread, hdecode⟩ := Files.read_of_sound? hsound
    obtain ⟨t, format, path, fs, ht, hlower, rfl, hfault, hwrite, hremove, hget⟩ :=
      changeFormat_ok hcell h
    obtain ⟨old, new, hold, hnew, hnew', hreplaces, hloses⟩ :=
      Files.replaces_or_loses hread hwrite hremove
    have hformat := format_of_writeAs hfault
    have hplain : format ≠ "" ∧ '/' ∉ format.toList ∧ '.' ∉ format.toList := by
      rcases hformat with rfl | rfl <;> decide
    have hsame : withExtension f.path format = f.path ↔ formatOf f.path = format :=
      withExtension_eq_iff hplain.1
    have hdiffer : formatOf f.path ≠ format → new ≠ old := fun hne =>
      Files.locate_withExtension_ne hplain.1 hplain.2.1 hplain.2.2 (isName_base_of_sound hextension)
        hold hnew
        (mt hsame.1 hne)
    refine ⟨t, format, _, s, old, new, ht, hlower, hformat, rfl, hget, hsound, hold, hnew', ?_, ?_,
      ?_⟩
    · constructor
      · rintro ⟨hne, -⟩ heq
        exact hne (hsame.2 heq)
      · intro hne
        exact ⟨mt hsame.1 hne, hreplaces (hdiffer hne)⟩
    · intro hne hwave
      have hholds := (hreplaces (hdiffer hne)).holds
      rw [Wave.writeAs, if_pos hwave] at hholds hfault
      rw [Files.sound?_of_read (Files.read_of_locate hnew' hholds),
        Wave.decode_encode hfault (Wave.width_of_decode hdecode)]
    · intro heq
      have hpath := hsame.2 heq
      rw [hpath, hold] at hnew
      cases hnew
      exact ⟨hpath, rfl, hloses rfl⟩

/-- A recording is written as bare samples, and as the sound file that it is already. -/
theorem replaces_iff_of_changeFormat_rawAndWave :
    ∃ (m m₁ m₂ : Machine) (f f₁ f₂ : FileObject) (a : Recording)
    (new : Location), m.store.get 1 = .audio f a ∧ f.path = "/a.wav" ∧
    callMethod 1 "change_format" [2] .start m = .ok 4 m₁ ∧ m₁.store.get 1 = .audio f₁ a ∧
    f₁.path = "/a.raw" ∧
    m₁.files.locate f₁.path = .ok new ∧ m.files.Replaces m₁.files ["a.wav"] new [0, 1] ∧
    callMethod 1 "change_format" [3] .start m = .ok 4 m₂ ∧ m₂.store.get 1 = .audio f₂ a ∧
    f₂.path = "/a.wav" ∧ m.files.Loses m₂.files ["a.wav"] := by
  let f : FileObject := { path := "/a.wav", name := "a.wav", parent := none, isDeleted := false }
  let a : Recording := { length := 0, bitrate := 64, title := .text "a" }
  let s : Segment := ⟨1, 8000, 1, [0, 1]⟩
  let m : Machine :=
    { store := ⟨#[.null, .audio f a, .string (.text "RAW"), .string (.text "wav")]⟩
      files := ⟨⟨[(["a.wav"], .file (Wave.encode s).bytes)]⟩, []⟩ }
  obtain ⟨m₁, h₁⟩ : ∃ m₁, callMethod 1 "change_format" [2] .start m = .ok 4 m₁ :=
    ok_of_run' (by decide +kernel)
  obtain ⟨m₂, h₂⟩ : ∃ m₂, callMethod 1 "change_format" [3] .start m = .ok 4 m₂ :=
    ok_of_run' (by decide +kernel)
  have hsound : m.files.sound? f.path = some s := by decide +kernel
  have hold : m.files.locate f.path = .ok ["a.wav"] := by decide +kernel
  have hraw : Text.lower "RAW" = "raw" := by decide +kernel
  have hwav : Text.lower "wav" = "wav" := by decide +kernel
  have hformat : formatOf "/a.wav" = "wav" := by decide +kernel
  obtain ⟨t₁, format₁, path₁, s₁, old₁, new₁, ht₁, hlower₁, -, hpath₁, hget₁, hsound₁, hold₁, hnew₁,
    hiff₁, -, -⟩ :=
    replaces_iff_of_changeFormat rfl h₁
  obtain ⟨t₂, format₂, path₂, s₂, old₂, new₂, ht₂, hlower₂, -, hpath₂, hget₂, -, hold₂, -, -, -,
    hloses⟩ :=
    replaces_iff_of_changeFormat rfl h₂
  cases ht₁
  cases ht₂
  rw [hraw] at hlower₁
  rw [hwav] at hlower₂
  subst hlower₁ hlower₂
  cases hsound.symm.trans hsound₁
  cases hold.symm.trans hold₁
  cases hold.symm.trans hold₂
  have hother : formatOf f.path ≠ "raw" := hformat ▸ by decide
  have hnew : withExtension f.path "raw" = "/a.raw" := by decide +kernel
  obtain ⟨hsame, -, hgone⟩ := hloses hformat
  exact ⟨m, m₁, m₂, f, _, _, a, new₁, rfl, rfl, h₁, hget₁, hpath₁.trans hnew, hnew₁,
    (hiff₁.2 hother).2, h₂, hget₂,
    hsame, hgone⟩

end Machine

end AudLang
