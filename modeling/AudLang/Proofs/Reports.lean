import AudLang.Proofs.Requests
import AudLang.Proofs.WaveFiles

/-!
What recordings report of their files.

A recording keeps the length and the bitrate that were read from its file once.  Cutting, appending,
a new title and another volume all write the file anew.  The length is noted again wherever it may
have changed, the bitrate never is.  So the length of a recording is always the one that a new
recording of the same file has, while the bitrates agree exactly as long as the bitrate of the
format has not changed, which appending sound of a larger format may bring about.
-/

namespace AudLang

open Run AudLang.Path

/-! ## Files -/

namespace Files

variable {fs : Files} {path : String} {b : Bytes} {s : Segment}

/-- The sound in the file at a path. -/
def sound? (fs : Files) (path : String) : Option Segment := (fs.read path).toOption.bind Wave.decode

lemma sound?_of_read (h : fs.read path = .ok b) : fs.sound? path = Wave.decode b := by
  rw [sound?, h]
  rfl

lemma read_of_sound? (h : fs.sound? path = some s) :
    ∃ b, fs.read path = .ok b ∧ Wave.decode b = some s := by
  cases hread : fs.read path with
  | error e => simp [sound?, hread, Except.toOption] at h
  | ok b => exact ⟨b, rfl, sound?_of_read hread ▸ h⟩

lemma isFile_of_read (h : fs.read path = .ok b) : fs.isFile path = true := by
  obtain ⟨entry, hentry, h⟩ := answer_of_bind h
  rw [isFile, hentry]
  cases entry with
  | file _ => rfl
  | folder => cases h

end Files

/-- The format that a path names is its end. -/
lemma Run.formatOf_suffix (path : String) : (formatOf path).toList <:+ path.toList := by
  unfold formatOf splitExtension
  extract_lets name before dots rest after
  have hname : name <:+ path.toList := by
    simp only [name, base, String.toList_ofList]
    rw [← List.reverse_prefix, List.reverse_reverse]
    exact List.takeWhile_prefix _
  have hrest : rest <:+ path.toList := (List.dropWhile_suffix _).trans hname
  have hafter : after <:+ path.toList := by
    refine .trans ?_ hrest
    rw [← List.reverse_prefix, List.reverse_reverse]
    exact List.takeWhile_prefix _
  split
  · simp
  · simpa using hafter

namespace Text

variable {cs ds before : List Char}

lemma lowerAfter_of_lower (h : ∀ c ∈ cs, lowerChar c = [c]) : lowerAfter before cs = cs := by
  induction cs generalizing before with
  | nil => rfl
  | cons c cs ih =>
    have hc : lowerChar c = [c] := h c List.mem_cons_self
    -- a sigma is not its own lower-case form, so what stands around `c` does not matter
    have hsigma : c ≠ 'Σ' := by
      rintro rfl
      exact absurd hc (by decide)
    rw [lowerAfter, lowerAt, if_neg hsigma, hc, ih fun d hd => h d (List.mem_cons_of_mem c hd)]
    rfl

lemma suffix_lowerAfter_append :
    lowerAfter (cs.reverse ++ before) ds <:+ lowerAfter before (cs ++ ds) := by
  induction cs generalizing before with
  | nil => exact List.suffix_refl _
  | cons c cs ih =>
    have h := @ih (c :: before)
    rw [List.reverse_cons, List.append_assoc]
    exact h.trans (List.suffix_append _ _)

/-- An end that is in lower case stays the end. -/
lemma suffix_lower {s : String} (h : ds <:+ s.toList) (hlow : ∀ c ∈ ds, lowerChar c = [c]) :
    ds <:+ (lower s).toList := by
  obtain ⟨cs, hs⟩ := h
  have hend : lowerAfter (cs.reverse ++ []) ds <:+ lowerAfter [] (cs ++ ds) :=
    suffix_lowerAfter_append
  rwa [lowerAfter_of_lower hlow, hs, ← String.toList_ofList (l := lowerAfter [] s.toList)] at hend

end Text

/-- A path that ends like a sound file does not end like bare samples. -/
lemma Run.formatOf_ne_raw {path : String} (h : (Text.lower path).endsWith ".wav" = true) :
    formatOf path ≠ "raw" := by
  intro hraw
  have hpath : "raw".toList <:+ path.toList := hraw ▸ formatOf_suffix path
  have hlower : "raw".toList <:+ (Text.lower path).toList :=
    Text.suffix_lower hpath (by simp [Text.lowerChar])
  have hwave : ".wav".toList <:+ (Text.lower path).toList := endsWith_iff.1 h
  -- of two ends of one text the shorter is an end of the longer
  exact absurd (List.suffix_of_suffix_length_le hlower hwave (by decide)) (by decide)

namespace Run

variable {m m' : Machine} {path : String} {s : Segment}

lemma ask_ok {α : Type} {x : Except Fault α} {y : α} (h : ask x m = .ok y m') : x = .ok y := by
  cases x with
  | error e => cases h
  | ok z =>
    cases h
    rfl

lemma save_ok {format : String} {u : Unit} (h : save s path format m = .ok u m') :
    ∃ fs, m.files.write path (Wave.writeAs s format).bytes = .ok fs ∧
      (Wave.writeAs s format).fault = none ∧ m' = { m with files := fs } := by
  obtain ⟨fs, hfs, h⟩ := looks_files.ok_of_bind h
  cases hfs
  cases hwrite : m.files.write path (Wave.writeAs s format).bytes with
  | error e =>
    rw [hwrite] at h
    cases h
  | ok fs =>
    rw [hwrite] at h
    cases hfault : (Wave.writeAs s format).fault with
    | some e =>
      simp only [hfault] at h
      cases h
    | none =>
      simp only [hfault] at h
      cases h
      exact ⟨fs, rfl, rfl, rfl⟩

lemma sound?_of_save (hpath : (Text.lower path).endsWith ".wav" = true) (hwidth : s.width ≠ 3)
    {u : Unit} (h : save s path (formatOf path) m = .ok u m') :
    m'.files.sound? path = some s ∧ m'.store = m.store := by
  obtain ⟨fs, hwrite, hfault, rfl⟩ := save_ok h
  refine ⟨?_, rfl⟩
  -- only the two formats that are known leave no fault
  have hwav : formatOf path = "wav" := by
    by_contra hne
    rw [Wave.writeAs, if_neg hne, if_neg (formatOf_ne_raw hpath)] at hfault
    split at hfault <;> cases hfault
  rw [hwav, Wave.writeAs, if_pos rfl] at hwrite hfault
  show fs.sound? path = some s
  rw [Files.sound?_of_read (Files.read_write hwrite), Wave.decode_encode hfault hwidth]

lemma load_of_sound? (hpath : (Text.lower path).endsWith ".wav" = true)
    (h : m.files.sound? path = some s) : load path m = .ok (.ok s) m := by
  obtain ⟨b, hread, hdecode⟩ := Files.read_of_sound? h
  simp only [load, hpath, if_true, files, bind_run, get_run, pure_run, hread, hdecode]

/-- A sound that could be loaded is in a file that ends like a sound file. -/
lemma sound?_of_load (h : load path m = .ok (.ok s) m') :
    (Text.lower path).endsWith ".wav" = true ∧ m.files.sound? path = some s := by
  unfold load at h
  split at h
  · rename_i hpath
    refine ⟨hpath, ?_⟩
    obtain ⟨fs, hfs, h⟩ := looks_files.ok_of_bind h
    cases hfs
    cases hread : m.files.read path with
    | error e =>
      rw [hread] at h
      cases h
    | ok b =>
      rw [hread] at h
      cases hdecode : Wave.decode b with
      | none =>
        simp only [hdecode] at h
        cases h
      | some s' =>
        simp only [hdecode] at h
        cases h
        exact (Files.sound?_of_read hread).trans hdecode
  · split at h <;> cases h

end Run

/-! ## Calls -/

namespace Machine

variable {m m' : Machine} {r b : Ref} {f : FileObject} {a : Recording} {s s' : Segment}
  {args : List Ref} {p : Position}

/-- The sound that a call appends to a recording. -/
def appended? (m : Machine) (name : String) (args : List Ref) : Option Segment := do
  guard (name = "concat")
  let other ← (m.store.get (← args[0]?)).file?
  m.files.sound? other.path

/-- A recording whose file holds a sound and which knows the length of it.  Its path is in normal
form, so that it names itself wherever the working folder is. -/
structure Tracks (m : Machine) (r : Ref) (f : FileObject) (a : Recording) (s : Segment) : Prop where
  cell : m.store.get r = .audio f a
  settled : ∀ fs : Files, fs.absolute f.path = f.path
  extension : (Text.lower f.path).endsWith ".wav" = true
  sound : m.files.sound? f.path = some s
  length : s.milliseconds = .ok a.length

namespace Tracks

lemma width (hm : m.Tracks r f a s) : s.width ≠ 3 := by
  obtain ⟨bytes, -, hdecode⟩ := Files.read_of_sound? hm.sound
  exact Wave.width_of_decode hdecode

/-- Whatever happens elsewhere. -/
lemma elsewhere (hm : m.Tracks r f a s) (hcell : m'.store.get r = m.store.get r)
    (hread : m'.files.read f.path = m.files.read f.path) : m'.Tracks r f a s := by
  refine ⟨hcell.trans hm.cell, hm.settled, hm.extension, ?_, hm.length⟩
  rw [Files.sound?, hread]
  exact hm.sound

lemma saved (hm : m.Tracks r f a s) (hwidth : s'.width ≠ 3)
    (hlength : s'.milliseconds = .ok a.length) {u : Unit}
    (h : save s' f.path (formatOf f.path) m = .ok u m') : m'.Tracks r f a s' := by
  obtain ⟨hsound, hstore⟩ := sound?_of_save hm.extension hwidth h
  exact ⟨hstore ▸ hm.cell, hm.settled, hm.extension, hsound, hlength⟩

lemma nothing (hm : m.Tracks r f a s) (h : Run.nothing m = .ok b m') : m'.Tracks r f a s := by
  cases h
  exact hm.elsewhere (m.store.get_push_null r) rfl

lemma get_of_updateRecording (hcell : m.store.get r = .audio f a) (change : Recording → Recording)
    {u : Unit} (h : Run.updateRecording r change m = .ok u m') :
    m'.store.get r = .audio f (change a) ∧ m'.files = m.files := by
  obtain ⟨v, hv, h⟩ := looks_value.ok_of_bind h
  cases hv
  rw [hcell] at h
  cases h
  have hlt : r < m.store.next := Store.lt_next_of_not_null (by simp [hcell, Value.isNull])
  exact ⟨Store.get_put_self hlt _, rfl⟩

lemma overwrite (hm : m.Tracks r f a s) (hwidth : s'.width ≠ 3)
    (h : Run.overwrite r f s' m = .ok b m') : ∃ length, m'.Tracks r f { a with length } s' := by
  obtain ⟨u, m₁, hsave, h⟩ := ok_of_bind h
  -- until the length is noted, the recording does not know the sound that was saved
  obtain ⟨hsound, hstore⟩ := sound?_of_save hm.extension hwidth hsave
  obtain ⟨length, hask, h⟩ := (OnlyLooks.ask _).ok_of_bind h
  obtain ⟨u, m₂, hupdate, h⟩ := ok_of_bind h
  obtain ⟨hcell, hfiles⟩ := get_of_updateRecording (hstore ▸ hm.cell) _ hupdate
  refine ⟨length, nothing ⟨hcell, hm.settled, hm.extension, hfiles ▸ hsound, ask_ok hask⟩ h⟩

lemma cut (hm : m.Tracks r f a s) (h : Run.cut r f a s args p m = .ok b m') :
    ∃ length s', m'.Tracks r f { a with length } s' ∧ s'.Alike s := by
  obtain ⟨start, -, h⟩ := looks_contentOf.ok_of_bind h
  obtain ⟨stop, -, h⟩ := looks_contentOf.ok_of_bind h
  obtain ⟨within, -, h⟩ := (OnlyLooks.ask _).ok_of_bind h
  split at h
  · obtain ⟨first, -, h⟩ := (OnlyLooks.ask _).ok_of_bind h
    obtain ⟨last, -, h⟩ := (OnlyLooks.ask _).ok_of_bind h
    obtain ⟨s', hslice, h⟩ := (OnlyLooks.ask _).ok_of_bind h
    have halike := Segment.alike_of_slice (ask_ok hslice)
    obtain ⟨length, hm'⟩ := hm.overwrite (halike.width ▸ hm.width) h
    exact ⟨length, s', hm', halike⟩
  · obtain ⟨first, -, h⟩ := (OnlyLooks.ask _).ok_of_bind h
    obtain ⟨last, -, h⟩ := (OnlyLooks.ask _).ok_of_bind h
    cases h

lemma changeTitle (hm : m.Tracks r f a s) (h : Run.changeTitle r f s args m = .ok b m') :
    ∃ title, m'.Tracks r f { a with title } s := by
  obtain ⟨title, -, h⟩ := looks_contentOf.ok_of_bind h
  obtain ⟨u, m₁, hupdate, h⟩ := ok_of_bind h
  obtain ⟨hcell, hfiles⟩ := get_of_updateRecording hm.cell _ hupdate
  obtain ⟨u, m₂, hsave, h⟩ := ok_of_bind h
  have hm₁ : m₁.Tracks r f { a with title } s :=
    ⟨hcell, hm.settled, hm.extension, hfiles ▸ hm.sound, hm.length⟩
  exact ⟨title, (hm₁.saved hm.width hm.length hsave).nothing h⟩

lemma changeVolume (hm : m.Tracks r f a s) (h : Run.changeVolume f s args m = .ok b m') :
    ∃ s', m'.Tracks r f a s' ∧ s'.Alike s := by
  obtain ⟨d, -, h⟩ := looks_contentOf.ok_of_bind h
  obtain ⟨db, -, h⟩ := (OnlyLooks.ask _).ok_of_bind h
  obtain ⟨s', hgain, h⟩ := (OnlyLooks.ask _).ok_of_bind h
  obtain ⟨u, m₁, hsave, h⟩ := ok_of_bind h
  obtain ⟨halike, hbytes⟩ := Segment.alike_of_gain (ask_ok hgain)
  have hlength : s'.milliseconds = .ok a.length := (halike.milliseconds hbytes).trans hm.length
  exact ⟨s', (hm.saved (halike.width ▸ hm.width) hlength hsave).nothing h, halike⟩

lemma concat (hm : m.Tracks r f a s) (h : Run.concat r f s args p m = .ok b m') :
    ∃ t length s', m.appended? "concat" args = some t ∧ m'.Tracks r f { a with length } s' ∧
      s'.Alike (s.widened t) := by
  obtain ⟨o, hargument, h⟩ := looks_argument.ok_of_bind h
  obtain ⟨other, husable, h⟩ := looks_usableFile.ok_of_bind h
  obtain ⟨loaded, hload, h⟩ := looks_load.ok_of_bind h
  cases loaded with
  | error e => cases h
  | ok t =>
    obtain ⟨s', happend, h⟩ := (OnlyLooks.ask _).ok_of_bind h
    obtain ⟨hext, hsound⟩ := sound?_of_load hload
    have hfile : (m.store.get o).file? = some other := file?_of_usableFile husable
    have happended : m.appended? "concat" args = some t := by
      simp [appended?, getElem?_of_argument hargument, hfile, hsound]
    have halike := Segment.alike_of_append (ask_ok happend)
    -- both parts were read from files, so the larger width is not three either
    have hwidth : s'.width ≠ 3 := by
      have hs := hm.width
      obtain ⟨bytes, -, hdecode⟩ := Files.read_of_sound? hsound
      have ht := Wave.width_of_decode hdecode
      have hmax : s'.width = max s.width t.width := halike.width
      omega
    obtain ⟨length, hm'⟩ := hm.overwrite hwidth h
    exact ⟨t, length, s', happended, hm', halike⟩

/-- Each of the four calls keeps up what is known of the length, and none touches the bitrate. -/
lemma callMethod {name : String} (hm : m.Tracks r f a s)
    (hname : name ∈ ["cut", "concat", "change_title", "change_volume"])
    (h : Run.callMethod r name args p m = .ok b m') :
    ∃ a' s', m'.Tracks r f a' s' ∧ a'.bitrate = a.bitrate ∧
      s'.Alike (s.joined (m.appended? name args).toList) := by
  obtain ⟨v, hv, h⟩ := looks_value.ok_of_bind h
  cases hv
  rw [hm.cell] at h
  obtain ⟨u, -, h⟩ := looks_checkFile.ok_of_bind h
  rw [bind_of_ok (load_of_sound? hm.extension hm.sound)] at h
  simp only [List.mem_cons, List.not_mem_nil, or_false] at hname
  rcases hname with rfl | rfl | rfl | rfl
  · obtain ⟨length, s', hm', halike⟩ := hm.cut h
    exact ⟨_, s', hm', rfl, halike⟩
  · obtain ⟨t, length, s', happended, hm', halike⟩ := hm.concat h
    exact ⟨_, s', hm', rfl, happended ▸ halike⟩
  · obtain ⟨title, hm'⟩ := hm.changeTitle h
    exact ⟨_, s, hm', rfl, .refl s⟩
  · obtain ⟨s', hm', halike⟩ := hm.changeVolume h
    exact ⟨_, s', hm', rfl, halike⟩

end Tracks

/-! ## Histories -/

/-- A new recording of a path, by whatever text the path is named, has a length and a bitrate. -/
structure Reports (m : Machine) (path : String) (length bitrate : Int) : Prop where
  settled : m.files.absolute path = path
  opens : ∀ (text : String) (parent : Option Ref) (p : Position), m.files.absolute text = path →
    ∃ r m' f a, openAudio text parent p m = .ok r m' ∧ m'.store.get r = .audio f a ∧ f.path = path ∧
      a.length = length ∧ a.bitrate = bitrate

/-- What happened to a recording: successful calls, with the sounds that were appended in this
order, and in between anything that leaves the recording and the file at its path alone. -/
inductive Edits (r : Ref) (path : String) (m : Machine) : List Segment → Machine → Prop
  | start : Edits r path m [] m
  | call {ts : List Segment} {m' m'' : Machine} {name : String} {args : List Ref} {p : Position}
      {b : Ref}
      (before : Edits r path m ts m')
        (hname : name ∈ ["cut", "concat", "change_title", "change_volume"])
      (h : callMethod r name args p m' = .ok b m'') :
      Edits r path m (ts ++ (m'.appended? name args).toList) m''
  | elsewhere {ts : List Segment} {m' m'' : Machine} (before : Edits r path m ts m')
      (hcell : m''.store.get r = m'.store.get r)
        (hread : m''.files.read path = m'.files.read path) :
      Edits r path m ts m''

variable {m₀ m₁ : Machine} {text : String} {parent : Option Ref} {ts : List Segment}

/-- A recording starts with what its file says. -/
lemma tracks_of_openAudio (h : openAudio text parent p m = .ok r m') :
    ∃ f a s, m'.Tracks r f a s ∧ m.files.sound? f.path = some s ∧ f.path = m.files.absolute text ∧
      a.bitrate = s.bitrate := by
  obtain ⟨f, hfind, h⟩ := looks_findFile.ok_of_bind h
  obtain ⟨-, hf, -⟩ := findFile_ok hfind
  obtain ⟨loaded, hload, h⟩ := looks_load.ok_of_bind h
  cases loaded with
  | error e => cases h
  | ok s =>
    obtain ⟨hext, hsound⟩ := sound?_of_load hload
    cases hlength : s.milliseconds with
    | error e =>
      simp only [hlength] at h
      cases h
    | ok length =>
      simp only [hlength] at h
      cases h
      have hpath : f.path = m.files.absolute text := by rw [hf, Files.object]
      obtain ⟨l, hl⟩ := m.files.exists_route_absolute text
      have hsettled : ∀ fs : Files, fs.absolute f.path = f.path := by
        intro fs
        rw [hpath, hl, fs.absolute_path l]
      exact ⟨f, _, s, ⟨m.store.get_push_next _, hsettled, hext, hsound, hlength⟩, hsound, hpath,
        rfl⟩

/-- A new recording of the same file says what there is to say. -/
lemma Tracks.reports (hm : m.Tracks r f a s) : m.Reports f.path a.length s.bitrate := by
  refine ⟨hm.settled _, fun text parent p htext => ?_⟩
  obtain ⟨bytes, hread, -⟩ := Files.read_of_sound? hm.sound
  have hfind := findFile_of_isFile parent p (htext ▸ Files.isFile_of_read hread)
  have hload : load (m.files.object text parent).path m = .ok (.ok s) m := by
    rw [Files.object, htext]
    exact load_of_sound? hm.extension hm.sound
  rw [openAudio, bind_of_ok hfind, bind_of_ok hload]
  simp only [hm.length]
  exact ⟨_, _, _, _, rfl, m.store.get_push_next _, htext, rfl, rfl⟩

lemma Reports.bitrate_eq {path : String} {length length' bitrate bitrate' : Int}
    (h : m.Reports path length bitrate) (h' : m.Reports path length' bitrate') :
    bitrate = bitrate' := by
  obtain ⟨r, m₁, f, a, hopen, hcell, -, -, hb⟩ := h.opens path none .start h.settled
  obtain ⟨r', m₁', f', a', hopen', hcell', -, -, hb'⟩ := h'.opens path none .start h.settled
  cases hopen.symm.trans hopen'
  cases hcell.symm.trans hcell'
  exact hb.symm.trans hb'

/-- Whatever happened, the recording knows the length, has the bitrate it started with, and the file
has room for all that was appended. -/
lemma Edits.tracks {s₀ : Segment} (h : m.Edits r f.path ts m') (hm : m.Tracks r f a s₀) :
    ∃ a' s, m'.Tracks r f a' s ∧ a'.bitrate = a.bitrate ∧ s.Alike (s₀.joined ts) := by
  induction h with
  | start => exact ⟨a, s₀, hm, rfl, .refl s₀⟩
  | call before hname hcall ih =>
    obtain ⟨a₁, s₁, hm₁, hb₁, halike₁⟩ := ih
    obtain ⟨a₂, s₂, hm₂, hb₂, halike₂⟩ := hm₁.callMethod hname hcall
    refine ⟨a₂, s₂, hm₂, hb₂.trans hb₁, ?_⟩
    rw [Segment.joined, List.foldl_append]
    exact halike₂.trans (halike₁.joined _)
  | elsewhere before hcell hread ih =>
    obtain ⟨a₁, s₁, hm₁, hb₁, halike₁⟩ := ih
    exact ⟨a₁, s₁, hm₁.elsewhere hcell hread, hb₁, halike₁⟩

/-- Behind any number of calls a new recording of the same file has the same length, and the bitrate
of the format that has room for the sound the file had at first and for all that was appended.  The
bitrate that the recording itself keeps is the same exactly if the bitrate of the format has not
changed, as it has not when nothing of a larger format was appended. -/
theorem reports_of_edits (hopen : openAudio text parent p m₀ = .ok r m₁)
    (h : m₁.Edits r (m₀.files.absolute text) ts m) :
    ∃ s₀ f a, m₀.files.sound? (m₀.files.absolute text) = some s₀ ∧ m.store.get r = .audio f a ∧
      f.path = m₀.files.absolute text ∧ a.bitrate = s₀.bitrate ∧
      m.Reports f.path a.length (s₀.joined ts).bitrate ∧
      (m.Reports f.path a.length a.bitrate ↔ (s₀.joined ts).bitrate = s₀.bitrate) ∧
      ((∀ t ∈ ts, t.channels ≤ s₀.channels ∧ t.rate ≤ s₀.rate ∧ t.width ≤ s₀.width) →
        m.Reports f.path a.length a.bitrate) := by
  obtain ⟨f, a₁, s₀, hm₁, hsound, hpath, hbitrate⟩ := tracks_of_openAudio hopen
  rw [← hpath] at h ⊢
  obtain ⟨a, s, hm, hsame, halike⟩ := h.tracks hm₁
  have hreports : m.Reports f.path a.length (s₀.joined ts).bitrate := halike.bitrate ▸ hm.reports
  have hiff : m.Reports f.path a.length a.bitrate ↔ (s₀.joined ts).bitrate = s₀.bitrate := by
    rw [← hbitrate, ← hsame]
    constructor
    · intro hold
      exact hreports.bitrate_eq hold
    · intro heq
      exact heq ▸ hreports
  exact ⟨s₀, f, a, hsound, hm.cell, rfl, hsame.trans hbitrate, hreports, hiff,
    fun hsmall => hiff.2 (Segment.alike_joined hsmall).bitrate⟩

/-- Sound of two channels and two bytes is appended to sound of one channel and one byte. -/
theorem reports_of_edits_appended :
    ∃ (m₀ m₁ m : Machine) (r : Ref) (ts : List Segment) (f : FileObject)
    (a : Recording), openAudio "/a.wav" none .start m₀ = .ok r m₁ ∧
    m₁.Edits r (m₀.files.absolute "/a.wav") ts m ∧
    m.store.get r = .audio f a ∧ a.bitrate = 64 ∧ m.Reports f.path a.length 256 ∧
    ¬m.Reports f.path a.length a.bitrate := by
  let narrow : Segment := ⟨1, 8000, 1, List.replicate 16 0⟩
  let wide : Segment := ⟨2, 8000, 2, List.replicate 8 1⟩
  let m₀ : Machine :=
    { store := ⟨#[.null,
        .file { path := "/b.wav", name := "b.wav", parent := none, isDeleted := false }]⟩
      files := ⟨⟨[(["a.wav"], .file (Wave.encode narrow).bytes),
        (["b.wav"], .file (Wave.encode wide).bytes)]⟩, []⟩ }
  obtain ⟨m, hrun⟩ : ∃ m,
    (openAudio "/a.wav" none .start >>= fun r => callMethod r "concat" [1] .start) m₀ =
      .ok 3 m := ok_of_run' (by decide +kernel)
  obtain ⟨m', hlook⟩ : ∃ m', (openAudio "/a.wav" none .start >>= fun _ => do
      return (← get).appended? "concat" [1]) m₀ = .ok (some wide) m' :=
        ok_of_run' (by decide +kernel)
  obtain ⟨r, m₁, hopen, hcall⟩ := ok_of_bind hrun
  have happended : m₁.appended? "concat" [1] = some wide := by
    rw [bind_of_ok hopen] at hlook
    injection hlook
  have hstart : m₁.Edits r (m₀.files.absolute "/a.wav") [] m₁ := .start
  have hedits : m₁.Edits r (m₀.files.absolute "/a.wav") [wide] m := by
    have h := hstart.call (by simp) hcall
    rwa [happended] at h
  obtain ⟨s₀, f, a, hsound, hcell, hpath, hbitrate, hreports, hiff, -⟩ :=
    reports_of_edits hopen hedits
  have hnarrow : m₀.files.sound? (m₀.files.absolute "/a.wav") = some narrow := by decide +kernel
  cases hnarrow.symm.trans hsound
  have hbefore : narrow.bitrate = 64 := by decide +kernel
  have hafter : (narrow.joined [wide]).bitrate = 256 := by decide +kernel
  rw [hbefore] at hbitrate
  rw [hbefore, hafter] at hiff
  exact ⟨m₀, m₁, m, r, [wide], f, a, hopen, hedits, hcell, hbitrate, hafter ▸ hreports,
    fun h => by cases hiff.1 h⟩

end Machine

end AudLang
