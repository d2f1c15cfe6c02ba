import AudLang.Proofs.Atomicity
import AudLang.Proofs.Ownership
import AudLang.Proofs.Reformatting

/-!
Files that are removed through a folder.

A folder removes a file by its name.  The file goes from the tree, and a value that the folder keeps
for it is retired: it leaves the list of the folder, belongs to no folder and counts as deleted.
The folder may keep several values under one name, since every value made for a file is a value of
its own.  The first of them is retired.  The others stay on the list and count as files that are
there.
-/

namespace AudLang

open Run

lemma Files.loses_of_remove {fs fs' : Files} {path : String} (h : fs.remove path = .ok fs') :
    ∃ l, fs.locate path = .ok l ∧ fs.Loses fs' l := by
  obtain ⟨l, b, hl, hget, rfl⟩ := erase_of_remove h
  have hne : l ≠ [] := by
    rintro rfl
    cases hget
  exact ⟨l, hl, rfl, ⟨b, hget⟩, Tree.get?_erase_self _ hne, fun k hk => Tree.get?_erase_of_ne _ hk⟩

/-- The value when it is retired, if it is a file. -/
def Value.retired : Value → Value
  | .file f => .file { f with parent := none, isDeleted := true }
  | .audio f a => .audio { f with parent := none, isDeleted := true } a
  | v => v

namespace Machine

variable {m₀ m m' : Machine} {g q a b : Ref} {d : FolderObject} {n : String} {rs : List Ref}
  {args : List Ref}
  {p : Position}

/-! ## Names -/

/-- Is there a file with this name in the cell? -/
def isNamed (m : Machine) (n : String) (q : Ref) : Bool := (m.store.get q).file?.any (·.name = n)

/-- Those of some values that are files with this name. -/
def named (m : Machine) (n : String) (rs : List Ref) : List Ref := rs.filter (m.isNamed n)

lemma isNamed_iff : m.isNamed n q = true ↔ ∃ f, m.registry.file q = some f ∧ f.name = n := by
  simp [isNamed, registry, Option.any_eq_true]

/-- Among files that all belong to a folder, the first with the name is found. -/
lemma ownedNamed_run (hrs : ∀ q ∈ rs, ∃ f, m.registry.file q = some f ∧ f.parent = some g) :
    ownedNamed g n rs m = .ok (m.named n rs).head? m := by
  induction rs with
  | nil => rfl
  | cons q rs ih =>
    obtain ⟨f, hf, hparent⟩ := hrs q (by simp)
    have hfile : (m.store.get q).file? = some f := hf
    have hrest := ih fun q' hq' => hrs q' (by simp [hq'])
    simp only [ownedNamed, value, bind_run, get_run, pure_run, hfile]
    by_cases hn : f.name = n
    · have hq : m.isNamed n q = true := isNamed_iff.2 ⟨f, hf, hn⟩
      simp only [hn, hparent, decide_true, Bool.and_self, if_true, named,
        List.filter_cons_of_pos hq, List.head?_cons,
        pure_run]
    · have hq : ¬m.isNamed n q = true := by simp [isNamed, hfile, hn]
      simp only [hn, decide_false, Bool.false_and, Bool.false_eq_true, if_false, named,
        List.filter_cons_of_neg hq]
      exact hrest

/-! ## Retiring -/

/-- Some files of a folder are retired and not on its list any more.  The rest of the list and all
other values are as they were. -/
structure Retires (m m' : Machine) (g : Ref) (d : FolderObject) (rs : List Ref) : Prop where
  folder : m'.store.get g = .folder { d with files := d.files.filter (· ∉ rs) }
  retired : ∀ q ∈ rs, m'.store.get q = (m.store.get q).retired
  elsewhere : ∀ q, q ≠ g → q ∉ rs → m'.store.get q = m.store.get q

/-- The machine in which a file of a folder is retired. -/
def retire (m : Machine) (g : Ref) (d : FolderObject) (q : Ref) : Machine :=
  { m with store :=
      (m.store.put g (.folder { d with files := d.files.erase q })).put q (m.store.get q).retired }

lemma retire_run {f : FileObject} (hg : m.store.get g = .folder d)
    (hq : m.registry.file q = some f) :
    (do untrack g q
        updateFile q fun f => { f with parent := none, isDeleted := true } : Run Unit) m
      = .ok () (m.retire g d q) := by
  have hfile : (m.store.get q).file? = some f := hq
  have hne : q ≠ g := by
    rintro rfl
    rw [hg] at hfile
    cases hfile
  have huntrack : untrack g q m =
      .ok () { m with store := m.store.put g (.folder { d with files := d.files.erase q }) } := by
    simp only [untrack, updateFolder, value, bind_run, get_run, pure_run, hg]
    rfl
  rw [bind_of_ok huntrack]
  simp only [updateFile, value, bind_run, get_run, pure_run, Store.get_put_of_ne hne, retire]
  cases hget : m.store.get q <;> rw [hget] at hfile <;> cases hfile <;> rfl

lemma retires_retire {f : FileObject} (hg : m.store.get g = .folder d)
    (hq : m.registry.file q = some f)
    (hnodup : d.files.Nodup) : m.Retires (m.retire g d q) g d [q] := by
  have hfile : (m.store.get q).file? = some f := hq
  have hne : g ≠ q := by
    rintro rfl
    rw [hg] at hfile
    cases hfile
  have hlt : q < m.store.next := by
    refine Store.lt_next_of_not_null ?_
    cases hget : m.store.get q <;> rw [hget] at hfile <;> cases hfile <;> rfl
  have hltg : g < m.store.next := Store.lt_next_of_not_null (by rw [hg]; rfl)
  refine ⟨?_, ?_, ?_⟩
  · rw [retire, Store.get_put_of_ne hne, Store.get_put_self hltg, hnodup.erase_eq_filter]
    simp [bne, beq_eq_decide]
  · intro q' hq'
    cases List.mem_singleton.1 hq'
    exact Store.get_put_self (by simpa using hlt) _
  · intro q' hg' hq'
    rw [retire, Store.get_put_of_ne (by simpa using hq'), Store.get_put_of_ne hg']

lemma retires_nil (hg : m.store.get g = .folder d) : m.Retires m g d [] :=
  ⟨by simp [hg], fun _ hq => absurd hq (by simp), fun _ _ _ => rfl⟩

lemma Retires.of_get {m'' : Machine} (h : m.Retires m' g d rs)
    (hget : ∀ q, m''.store.get q = m'.store.get q) : m.Retires m'' g d rs :=
  ⟨(hget g).trans h.folder, fun q hq => (hget q).trans (h.retired q hq),
    fun q hg hq => (hget q).trans (h.elsewhere q hg hq)⟩

/-- If the first of some files is retired, all of them are only if there are no others. -/
lemma Retires.take_one_iff (hnodup : d.files.Nodup)
    (h : m.Retires m' g d ((m.named n d.files).take 1)) :
    m.Retires m' g d (m.named n d.files) ↔ (m.named n d.files).length ≤ 1 := by
  constructor
  · intro hall
    by_contra hmany
    obtain ⟨q, q', rest, hnamed⟩ : ∃ q q' rest, m.named n d.files = q :: q' :: rest := by
      rcases hnamed : m.named n d.files with _ | ⟨q, _ | ⟨q', rest⟩⟩
      · simp [hnamed] at hmany
      · simp [hnamed] at hmany
      · exact ⟨q, q', rest, rfl⟩
    have hne : q' ≠ q := by
      have hsub : (m.named n d.files).Nodup := hnodup.filter _
      rw [hnamed] at hsub
      exact fun heq => by simp [heq] at hsub
    have hmem : q' ∈ d.files := by
      have hq' : q' ∈ m.named n d.files := by simp [hnamed]
      exact (List.mem_filter.1 hq').1
    -- the second file is still on the list, and it would have to be gone
    have hfiles := h.folder.symm.trans hall.folder
    simp only [Value.folder.injEq, FolderObject.mk.injEq, true_and, and_true, hnamed] at hfiles
    have hkept : q' ∈ d.files.filter (· ∉ (q :: q' :: rest).take 1) := by simp [hmem, hne]
    rw [hfiles] at hkept
    simp at hkept
  · intro hle
    rwa [List.take_of_length_le hle] at h

/-! ## Removal -/

/-- The machine in which the first file of a folder that has the name is retired, if there is
one. -/
def retireNamed (m : Machine) (g : Ref) (d : FolderObject) (n : String) : Machine :=
  (m.named n d.files).head?.elim m (m.retire g d)

lemma retires_retireNamed (hm : m.registry.Owned) (hg : m.store.get g = .folder d) (n : String) :
    m.Retires (m.retireNamed g d n) g d ((m.named n d.files).take 1) := by
  have hfolder : m.registry.folder g = some d := folder_registry_iff.2 hg
  rw [retireNamed]
  cases hnamed : m.named n d.files with
  | nil => exact retires_nil hg
  | cons q rest =>
    have hq : q ∈ m.named n d.files := by simp [hnamed]
    obtain ⟨f, hf, -⟩ := hm.tracked g d q hfolder (List.mem_filter.1 hq).1
    exact retires_retire hg hf (hm.nodup g d hfolder)

/-- A removal that succeeds is given a text.  It has removed the file at the path from the tree, and
then it has retired the first file with the name. -/
lemma ok_of_removeFile (hm : m.registry.Owned) (hg : m.store.get g = .folder d)
    (h : removeFile g d args p m = .ok b m') : ∃ a n fs, args = [a] ∧ m.store.get a = .text n ∧
      m.files.remove (Path.join d.path n) = .ok fs ∧
      m' = { m with store := (m.retireNamed g d n).store.push .null, files := fs } := by
  have hfolder : m.registry.folder g = some d := folder_registry_iff.2 hg
  have hfind : ∀ fs n, ownedNamed g n d.files { m with files := fs }
      = .ok (m.named n d.files).head? { m with files := fs } := by
    intro fs n
    refine ownedNamed_run fun q hq => ?_
    obtain ⟨f, hf, hparent, -⟩ := hm.tracked g d q hfolder hq
    exact ⟨f, hf, hparent⟩
  generalize hx : removeFile g d args p = x at h
  unfold removeFile at hx
  extract_lets done removed at hx
  subst hx
  have hremoved : ∀ content, removed content m = .ok b m' → ∃ n fs, content = .text n ∧
      m.files.remove (Path.join d.path n) = .ok fs ∧
      m' = { m with store := (m.retireNamed g d n).store.push .null, files := fs } := by
    intro content h
    obtain ⟨n, hn, h⟩ := looks_pathText.ok_of_bind h
    obtain ⟨fs, hfs, h⟩ := looks_files.ok_of_bind h
    cases hfs
    have hcontent : content = .text n := by
      cases content <;> cases hn
      rfl
    split at h
    · split at h
      · rename_i fs hremove
        refine ⟨n, fs, hcontent, hremove, ?_⟩
        obtain ⟨u, m₁, hset, h⟩ := ok_of_bind h
        cases hset
        obtain ⟨found, m₂, hfound, h⟩ := ok_of_bind h
        cases (hfind fs n).symm.trans hfound
        rw [retireNamed]
        cases hnamed : m.named n d.files with
        | nil =>
          rw [hnamed] at h
          cases h
          rfl
        | cons q rest =>
          rw [hnamed] at h
          have hq : q ∈ m.named n d.files := by simp [hnamed]
          obtain ⟨f, hf, -⟩ := hm.tracked g d q hfolder (List.mem_filter.1 hq).1
          have hretire := retire_run (m := { m with files := fs }) hg hf
          obtain ⟨u, m₁, huntrack, h⟩ := ok_of_bind h
          rw [bind_of_ok huntrack] at hretire
          rw [bind_of_ok hretire] at h
          cases h
          rfl
      · cases h
    · cases h
  rcases args with _ | ⟨a, _ | ⟨a', rest⟩⟩
  · cases h
  · obtain ⟨v, hv, h⟩ := looks_value.ok_of_bind h
    cases hv
    cases hget : m.store.get a with
    | string content =>
      rw [hget] at h
      obtain ⟨n, fs, rfl, hremove, heq⟩ := hremoved content h
      exact ⟨a, n, fs, rfl, hget, hremove, heq⟩
    | _ =>
      rw [hget] at h
      cases h
  · cases h

/-- A folder removes a file by its name.  The file goes from the tree and nothing else does.  Of the
values that the folder kept under this name the first is retired, and everything else is as it was.
So all of them are retired exactly if there was no second one. -/
theorem retires_first_of_remove (h₀ : m₀.KnowsNothing) (hm : m₀.LeadsTo m)
    (hg : m.store.get g = .folder d)
    (h : callMethod g "remove_file" args p m = .ok b m') :
    ∃ a n l, args = [a] ∧ m.store.get a = .text n ∧
      m.files.locate (Path.join d.path n) = .ok l ∧ m.files.Loses m'.files l ∧
      m' = { m with store := m'.store, files := m'.files } ∧
      m.Retires m' g d ((m.named n d.files).take 1) ∧
      (m.Retires m' g d (m.named n d.files) ↔ (m.named n d.files).length ≤ 1) := by
  have howned : m.registry.Owned := (continues_of_leadsTo h₀.owned hm).owned
  have hfolder : m.registry.folder g = some d := folder_registry_iff.2 hg
  rw [callMethod_folder hg] at h
  obtain ⟨u, -, h⟩ := looks_checkFolder.ok_of_bind h
  obtain ⟨a, n, fs, hargs, hn, hremove, heq⟩ := ok_of_removeFile howned hg h
  obtain ⟨l, hl, hloses⟩ := Files.loses_of_remove hremove
  have hretires : m.Retires m' g d ((m.named n d.files).take 1) := by
    refine (retires_retireNamed howned hg n).of_get fun q => ?_
    rw [heq]
    exact Store.get_push_null _ q
  refine ⟨a, n, l, hargs, hn, hl, ?_, ?_, hretires,
    hretires.take_one_iff (howned.nodup g d hfolder)⟩
  · rw [heq]
    exact hloses
  · rw [heq]

/-- Two values of one file are on the list of the folder when the file is removed: the second one
stays on the list and counts as a file that is there. -/
theorem retires_first_of_remove_twice : ∃ (m₀ m m' : Machine) (d : FolderObject), m₀.KnowsNothing ∧
    m₀.LeadsTo m ∧ m.store.get 4 = .folder d ∧ m.named "a" d.files = [5, 7] ∧
    callMethod 4 "remove_file"
    [3] .start m = .ok 9 m' ∧ m'.store.get 4 = .folder { d with files := [7] } ∧
    m'.store.get 5 = (m.store.get 5).retired ∧ m'.store.get 7 = m.store.get 7 ∧
    (m.registry.file 7).map (·.isDeleted) = some false ∧
      ¬m.Retires m' 4 d (m.named "a" d.files) := by
  let m₀ : Machine :=
    { store := ⟨#[.null, .text "/d", .text "/d/a", .text "a"]⟩
      files := ⟨⟨[(["d"], .folder), (["d", "a"], .file [])]⟩, []⟩ }
  let qs : List Request :=
    [.construct "Folder" [1], .construct "File" [2], .method 4 "add_file" [5],
    .construct "File" [2], .method 4 "add_file" [7]]
  have h₀ : m₀.KnowsNothing := by
    intro r
    rcases r with _ | _ | _ | _ | r <;> exact ⟨rfl, rfl⟩
  let m := m₀.requests .start qs
  have hm : m₀.LeadsTo m := leadsTo_requests .start qs m₀
  let d : FolderObject := { path := "/d", name := "d", files := [5, 7], isDeleted := false }
  have hfolder : m.registry.folder 4 = some d := by decide +kernel
  have hg : m.store.get 4 = .folder d := folder_registry_iff.1 hfolder
  obtain ⟨m', h⟩ : ∃ m', callMethod 4 "remove_file" [3] .start m = .ok 9 m' :=
    ok_of_run' (by decide +kernel)
  have hnamed : m.named "a" d.files = [5, 7] := by decide +kernel
  obtain ⟨a, n, l, hargs, hn, -, -, -, hretires, hiff⟩ := retires_first_of_remove h₀ hm hg h
  cases hargs
  have hname : m.firstText? [3] = some "a" := by decide +kernel
  have hfirst : m.firstText? [3] = some n := by simp [firstText?, hn]
  cases hname.symm.trans hfirst
  rw [hnamed] at hretires hiff
  refine ⟨m₀, m, m', d, h₀, hm, hg, hnamed, h, hretires.folder, hretires.retired 5 (by decide),
    hretires.elsewhere 7 (by decide) (by decide), by decide +kernel, ?_⟩
  rw [hnamed, hiff]
  decide

end Machine

end AudLang
