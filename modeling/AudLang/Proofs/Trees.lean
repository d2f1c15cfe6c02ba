import AudLang.Proofs.Outcome
import AudLang.Proofs.Routes

/-!
What operations on files do to the tree.
-/

namespace AudLang

open AudLang.Path

variable {l l' : Location} {c name : String} {cs : List String} {t : Target} {b : Bytes}

/-- The tree and the working folder are made of names. -/
structure Files.Proper (f : Files) : Prop where
  tree : ∀ x ∈ f.tree.entries, ∀ c ∈ x.1, IsName c
  home : ∀ c ∈ f.home, IsName c

namespace Tree

lemma get?_put_self (t : Tree) (hl : l ≠ []) (e : Entry) : (t.put l e).get? l = some e := by
  simp [get?, put, hl]

/-- Taking something away leaves what is elsewhere. -/
lemma get?_erase_of_ne (t : Tree) {k : Location} (h : k ≠ l) : (t.erase l).get? k = t.get? k := by
  have hkeep : ∀ es : List (Location × Entry), (es.filter (·.1 ≠ l)).lookup k = es.lookup k := by
    intro es
    induction es with
    | nil => rfl
    | cons x es ih =>
      obtain ⟨j, e'⟩ := x
      by_cases hj : j = l
      · have hkj : (k == j) = false := by simpa [hj] using h
        rw [List.filter_cons_of_neg (by simp [hj]), ih, List.lookup_cons, hkj]
      · rw [List.filter_cons_of_pos (by simp [hj]), List.lookup_cons, List.lookup_cons, ih]
  simp only [get?, erase, hkeep]

lemma get?_erase_self (t : Tree) (hl : l ≠ []) : (t.erase l).get? l = none := by
  have hnone : (t.entries.filter (·.1 ≠ l)).lookup l = none := by
    rw [List.lookup_eq_none_iff]
    intro x hx
    have hne : x.1 ≠ l := by simpa using (List.mem_filter.1 hx).2
    simpa using hne.symm
  simp only [get?, erase, hl, if_false, hnone]

lemma get?_put_of_ne (t : Tree) {k : Location} (h : k ≠ l) (e : Entry) :
    (t.put l e).get? k = t.get? k := by
  have hkl : (k == l) = false := by simpa using h
  rw [← t.get?_erase_of_ne h]
  simp only [get?, put, List.lookup_cons, hkl]

end Tree

namespace Files

variable {f f' : Files} {p q : String}

/-! ## Walking -/

lemma isName_step (hc : '/' ∉ c.toList) (hl : ∀ x ∈ l, IsName x) (h : f.step l c = .ok l') :
    ∀ x ∈ l', IsName x := by
  unfold step at h
  split at h
  · cases h
  · cases h
  · split at h
    · cases h
      exact hl
    · rename_i hblank
      split at h
      · cases h
        exact fun x hx => hl x (List.dropLast_subset _ hx)
      · rename_i hdots
        split at h
        · cases h
        · cases h
          simp only [Bool.or_eq_true, decide_eq_true_eq, not_or] at hblank
          intro x hx
          rcases List.mem_append.1 hx with hx | hx
          · exact hl x hx
          · rw [List.mem_singleton.1 hx]
            exact ⟨hblank.1, hblank.2, hdots, hc⟩

lemma isName_walk (hcs : ∀ c ∈ cs, '/' ∉ c.toList) (hl : ∀ x ∈ l, IsName x)
    (h : cs.foldlM f.step l = .ok l') : ∀ x ∈ l', IsName x := by
  induction cs generalizing l with
  | nil =>
    cases h
    exact hl
  | cons c cs ih =>
    rw [List.foldlM_cons] at h
    obtain ⟨l₁, h₁, h⟩ := answer_of_bind h
    exact ih (fun x hx => hcs x (by simp [hx])) (isName_step (hcs c (by simp)) hl h₁) h

lemma isName_start (hf : f.Proper) (h : f.start p = .ok l) : ∀ x ∈ l, IsName x := by
  unfold start at h
  split at h
  · cases h
  · split at h
    · cases h
    · split at h
      · cases h
      · cases h
        split
        · simp
        · exact hf.home

/-- A path to a target with a name: first come the components that lead to the folder, then the
name, and behind it no more than slashes. -/
lemma exists_walk_of_target (h : f.target p = .ok t) (hname : t.name = some name) :
    ∃ (before blanks : List String) (l : Location),
      components p = before ++ name :: blanks ∧ (t.hasSlash = false → blanks = []) ∧ IsName name ∧
      f.start p = .ok l ∧ before.foldlM f.step l = .ok t.folder ∧
        f.tree.get? t.folder = some .folder := by
  unfold target at h
  obtain ⟨l, hl, h⟩ := answer_of_bind h
  obtain ⟨folder, hfolder, h⟩ := answer_of_bind h
  split at h
  · cases h
  · cases h
  · rename_i hget
    cases h
    obtain ⟨hhead, hdots⟩ := Option.filter_eq_some_iff.1 hname
    obtain ⟨rest, hrest⟩ := List.head?_eq_some_iff.1 hhead
    let blanks := (components p).reverse.takeWhile (· = "")
    have hsplit : (components p).reverse = blanks ++ name :: rest := by
      rw [← hrest, List.takeWhile_append_dropWhile]
    have hcomponents : components p = rest.reverse ++ name :: blanks.reverse := by
      rw [← List.reverse_reverse (components p), hsplit]
      simp
    have hne : name ≠ "" := by
      have hnot := List.head?_dropWhile_not (· = "") (components p).reverse
      rw [hrest] at hnot
      simpa using hnot
    simp only [ne_eq, Bool.and_eq_true, decide_eq_true_eq] at hdots
    refine ⟨rest.reverse, blanks.reverse, l, hcomponents, ?_, ?_, hl, ?_, hget⟩
    · intro hslash
      have hlength := congrArg List.length hsplit
      simp only [hrest, decide_eq_false_iff_not, List.length_append,
        List.length_cons] at hslash hlength
      rw [List.reverse_eq_nil_iff, ← List.length_eq_zero_iff]
      omega
    · have hmem : name ∈ components p := by simp [hcomponents]
      exact isName_of_mem_components hmem hne hdots.1 hdots.2
    · rwa [hrest] at hfolder

lemma isName_target (hf : f.Proper) (h : f.target p = .ok t) (hname : t.name = some name) :
    ∀ c ∈ t.folder ++ [name], IsName c := by
  obtain ⟨before, blanks, l, hcomponents, -, hn, hstart, hwalk, -⟩ := exists_walk_of_target h hname
  have hbefore : ∀ c ∈ before, '/' ∉ c.toList := fun c hc =>
    no_slash_of_mem_components (p := p) (by simp [hcomponents, hc])
  intro c hc
  rcases List.mem_append.1 hc with hc | hc
  · exact isName_walk hbefore (isName_start hf hstart) hwalk c hc
  · rw [List.mem_singleton.1 hc]
    exact hn

/-! ## Proper trees -/

lemma Proper.put (hf : f.Proper) (hl : ∀ c ∈ l, IsName c) (e : Entry) :
    ({ f with tree := f.tree.put l e } : Files).Proper := by
  refine ⟨fun x hx => ?_, hf.home⟩
  rcases List.mem_cons.1 hx with rfl | hx
  · exact hl
  · exact hf.tree x ((List.mem_filter.1 hx).1)

lemma Proper.erase (hf : f.Proper) (l : Location) :
    ({ f with tree := f.tree.erase l } : Files).Proper :=
  ⟨fun x hx => hf.tree x ((List.mem_filter.1 hx).1), hf.home⟩

lemma targetLocation_ok (h : targetLocation t name = .ok l) :
    l = t.folder ++ [name] ∧ ¬name.utf8ByteSize > nameLimit := by
  unfold targetLocation at h
  split at h
  · cases h
  · rename_i hsize
    cases h
    exact ⟨rfl, hsize⟩

lemma write_ok (h : f.write p b = .ok f') : ∃ (t : Target) (name : String),
    f.target p = .ok t ∧ t.name = some name ∧ t.hasSlash = false ∧ ¬name.utf8ByteSize > nameLimit ∧
    f.tree.get? (t.folder ++ [name]) ≠ some .folder ∧
    f' = { f with tree := f.tree.put (t.folder ++ [name]) (.file b) } := by
  unfold write at h
  obtain ⟨t, ht, h⟩ := answer_of_bind h
  split at h
  · cases h
  · rename_i name hname
    obtain ⟨l, hl, h⟩ := answer_of_bind h
    obtain ⟨rfl, hsize⟩ := targetLocation_ok hl
    split at h
    · cases h
    · rename_i hfree
      cases h
      simp only [Bool.or_eq_true, decide_eq_true_eq, not_or, Bool.not_eq_true] at hfree
      exact ⟨t, name, ht, hname, hfree.1, hsize, hfree.2, rfl⟩

lemma Proper.write (hf : f.Proper) (h : f.write p b = .ok f') : f'.Proper := by
  obtain ⟨t, name, ht, hname, -, -, -, rfl⟩ := write_ok h
  exact hf.put (isName_target hf ht hname) _

lemma Proper.remove (hf : f.Proper) (h : f.remove p = .ok f') : f'.Proper := by
  unfold Files.remove at h
  obtain ⟨l, -, h⟩ := answer_of_bind h
  split at h
  · cases h
  · cases h
  · cases h
    exact hf.erase l

lemma rename_ok (h : f.rename p q = .ok f') : ∃ (d : Target) (name : String),
    f.target q = .ok d ∧ d.name = some name ∧ d.hasSlash = false ∧ (f.Proper → f'.Proper) := by
  unfold rename at h
  obtain ⟨s, hs, h⟩ := answer_of_bind h
  obtain ⟨d, hd, h⟩ := answer_of_bind h
  split at h
  · rename_i sn dn hsn hdn
    obtain ⟨sl, hsl, h⟩ := answer_of_bind h
    split at h
    · cases h
    · cases h
    · rename_i b hb
      obtain ⟨dl, hdl, h⟩ := answer_of_bind h
      obtain ⟨rfl, -⟩ := targetLocation_ok hdl
      split at h
      · cases h
      · rename_i hslash
        simp only [Bool.or_eq_true, not_or, Bool.not_eq_true] at hslash
        refine ⟨d, dn, hd, hdn, hslash.2, fun hf => ?_⟩
        split at h
        · cases h
          exact hf
        · split at h
          · cases h
          · split at h
            · cases h
            · cases h
              exact (hf.erase sl).put (isName_target hf hd hdn) _
  · cases h

lemma plainly_ok {α : Type} {x : Except Refusal α} {a : α} (h : plainly x = .ok a) : x = .ok a := by
  cases x with
  | ok b =>
    cases h
    rfl
  | error e => cases h

lemma Proper.copy (hf : f.Proper) (h : f.copy p q = .ok f') : f'.Proper := by
  unfold Files.copy at h
  extract_lets destination at h
  split at h
  · cases h
  · obtain ⟨b, -, h⟩ := answer_of_bind h
    split at h
    · rename_i f₁ hwrite
      cases h
      exact hf.write hwrite
    · cases h

lemma Proper.move (hf : f.Proper) (h : f.move p q = .ok f') : f'.Proper := by
  unfold Files.move at h
  extract_lets into destination at h
  split at h
  · cases h
  · split at h
    · rename_i f₁ hrename
      cases h
      obtain ⟨-, -, -, -, -, hproper⟩ := rename_ok hrename
      exact hproper hf
    · obtain ⟨f₁, hcopy, h⟩ := answer_of_bind h
      exact (hf.copy hcopy).remove (plainly_ok h)

lemma isName_of_mem_names (hf : f.Proper) {n : String} (h : n ∈ f.names p) : IsName n := by
  unfold names at h
  split at h
  · simp only [Tree.names, List.mem_mergeSort, List.mem_filterMap] at h
    obtain ⟨x, hx, h⟩ := h
    split at h
    · exact hf.tree x hx n (List.mem_of_getLast? h)
    · cases h
  · cases h

/-! ## Routes -/

lemma absolute_path (f : Files) (l : Route) : f.absolute l.path = l.path := by
  rw [absolute, Path.absolute, l.join_path, l.normal_path]

lemma exists_route_absolute (f : Files) (p : String) : ∃ l : Route, f.absolute p = l.path :=
  exists_route_normal _

lemma entry_of_locate {e : Entry} (h : f.locate p = .ok l) (he : f.tree.get? l = some e) :
    f.entry p = .ok e := by
  simp only [entry, h, bind, Except.bind, he]

lemma locate_of_start (h : f.start p = .ok l) : f.locate p = (components p).foldlM f.step l := by
  unfold locate
  rw [h]
  rfl

/-- Between slashes one stays at the root. -/
lemma walk_blanks (h : ∀ c ∈ cs, c = "") : cs.foldlM f.step [] = .ok [] := by
  induction cs with
  | nil => rfl
  | cons c cs ih =>
    have hstep : f.step [] c = .ok [] := by simp [step, Tree.get?, h c (by simp)]
    rw [List.foldlM_cons, hstep]
    exact ih fun x hx => h x (by simp [hx])

lemma names_ne_nil_of_isFile {l : Route} (h : f.isFile l.path = true) : l.names ≠ [] := by
  intro hnil
  have hpath := l.path_of_nil hnil
  have habsolute := l.isAbsolute_path
  rw [hpath] at h habsolute
  have hlocate : f.locate l.root = .ok [] := by
    rcases l.isRoot with hroot | hroot
    · rw [hroot] at habsolute ⊢
      have hstart : f.start "/" = .ok [] := by
        rw [start, if_neg (by decide), if_neg (by decide), if_neg (by decide), if_pos habsolute]
      rw [locate_of_start hstart, walk_blanks (by decide)]
    · rw [hroot] at habsolute ⊢
      have hstart : f.start "//" = .ok [] := by
        rw [start, if_neg (by decide), if_neg (by decide), if_neg (by decide), if_pos habsolute]
      rw [locate_of_start hstart, walk_blanks (by decide)]
  rw [isFile, entry_of_locate hlocate rfl] at h
  cases h

lemma isName_of_rename {start n : String} (h : f.rename p (join start n) = .ok f')
    (hn : '/' ∉ n.toList) : IsName n := by
  obtain ⟨d, name, hd, hname, hslash, -⟩ := rename_ok h
  obtain ⟨before, blanks, l, hcomponents, hblanks, hisName, -⟩ := exists_walk_of_target hd hname
  obtain ⟨cs, hcs⟩ := components_join start hn
  rw [hblanks hslash, hcs] at hcomponents
  obtain ⟨-, hsame⟩ := List.append_inj' hcomponents rfl
  rw [List.singleton_inj.1 hsame]
  exact hisName

/-! ## Writing and removing -/

/-- The folders of the one tree are folders of the other, and relative paths are read from the same
folder. -/
structure KeepsFolders (f f' : Files) : Prop where
  home : f'.home = f.home
  folder : ∀ l, f.tree.get? l = some .folder → f'.tree.get? l = some .folder

/-- A walk goes through folders only. -/
lemma KeepsFolders.walk (hf : KeepsFolders f f') (h : cs.foldlM f.step l = .ok l') :
    cs.foldlM f'.step l = .ok l' := by
  induction cs generalizing l with
  | nil => exact h
  | cons c cs ih =>
    rw [List.foldlM_cons] at h ⊢
    obtain ⟨l₁, h₁, h⟩ := answer_of_bind h
    have hstep : f'.step l c = f.step l c := by
      unfold step at h₁ ⊢
      split at h₁
      · cases h₁
      · cases h₁
      · rename_i hfolder
        rw [hf.folder l hfolder]
    rw [hstep, h₁]
    exact ih h

lemma KeepsFolders.start (hf : KeepsFolders f f') (p : String) : f'.start p = f.start p := by
  simp only [Files.start, hf.home]

lemma KeepsFolders.locate (hf : KeepsFolders f f') (h : f.locate p = .ok l) :
    f'.locate p = .ok l := by
  obtain ⟨l₀, hstart, hwalk⟩ := answer_of_bind h
  rw [locate_of_start ((hf.start p).trans hstart)]
  exact hf.walk hwalk

lemma keepsFolders_put (hl : f.tree.get? l ≠ some .folder) (b : Bytes) :
    KeepsFolders f { f with tree := f.tree.put l (.file b) } := by
  refine ⟨rfl, fun k hk => ?_⟩
  have hne : k ≠ l := by
    rintro rfl
    exact hl hk
  rw [Tree.get?_put_of_ne _ hne, hk]

lemma keepsFolders_erase (hl : f.tree.get? l ≠ some .folder) :
    KeepsFolders f { f with tree := f.tree.erase l } := by
  refine ⟨rfl, fun k hk => ?_⟩
  have hne : k ≠ l := by
    rintro rfl
    exact hl hk
  rw [Tree.get?_erase_of_ne _ hne, hk]

lemma step_name (hl : f.tree.get? l = some .folder) (hc : IsName c)
    (hsize : ¬c.utf8ByteSize > nameLimit) : f.step l c = .ok (l ++ [c]) := by
  simp only [step, hl, hc.ne_empty, hc.ne_dot, hc.ne_dots, hsize]
  rfl

/-- A path whose last component is a name leads from a folder on by this name. -/
lemma exists_folder_of_locate {before : List String} (hp : components p = before ++ [c])
    (hc : IsName c) (h : f.locate p = .ok l) : ∃ start k, f.start p = .ok start ∧
      before.foldlM f.step start = .ok k ∧ f.tree.get? k = some .folder ∧
      ¬c.utf8ByteSize > nameLimit ∧ l = k ++ [c] := by
  obtain ⟨start, hstart, h⟩ := answer_of_bind h
  rw [hp, List.foldlM_append] at h
  obtain ⟨k, hk, h⟩ := answer_of_bind h
  rw [List.foldlM_cons] at h
  obtain ⟨l', hl', h⟩ := answer_of_bind h
  cases h
  refine ⟨start, k, hstart, hk, ?_⟩
  unfold step at hl'
  split at hl'
  · cases hl'
  · cases hl'
  · rename_i hfolder
    rw [if_neg (by simp [hc.ne_empty, hc.ne_dot]), if_neg hc.ne_dots] at hl'
    split at hl'
    · cases hl'
    · rename_i hsize
      cases hl'
      exact ⟨hfolder, hsize, rfl⟩

/-- At the end of a path whose last component is a name a file can be written, unless there is a
folder. -/
lemma write_of_locate {before : List String} (hp : components p = before ++ [c]) (hc : IsName c)
    (h : f.locate p = .ok l) (hl : f.tree.get? l ≠ some .folder) (b : Bytes) :
    f.write p b = .ok { f with tree := f.tree.put l (.file b) } := by
  obtain ⟨start, k, hstart, hk, hfolder, hsize, rfl⟩ := exists_folder_of_locate hp hc h
  have hnamed : (components p).reverse.dropWhile (· = "") = c :: before.reverse := by
    rw [hp, List.reverse_append, List.reverse_singleton, List.singleton_append,
      List.dropWhile_cons_of_neg (by simp [hc.ne_empty])]
  have htarget : f.target p = .ok ⟨k, some c, false⟩ := by
    have hlength : ¬(c :: before.reverse).length < (components p).reverse.length := by simp [hp]
    have hname : (some c).filter (fun c => c ≠ "." && c ≠ "..") = some c := by
      simp [hc.ne_dot, hc.ne_dots]
    unfold target
    simp only [hnamed]
    rw [bind_of_answer hstart, List.tail_cons, List.reverse_reverse, bind_of_answer hk]
    simp only [hfolder, List.head?_cons, hname, hlength, decide_false]
  unfold write
  rw [bind_of_answer htarget]
  have hlocation : targetLocation ⟨k, some c, false⟩ c = .ok (k ++ [c]) := if_neg hsize
  simp only [bind_of_answer hlocation, hl, Bool.false_or, decide_false, Bool.false_eq_true,
    if_false]

/-- What is written is put at the location of the path, where there was no folder. -/
lemma put_of_write (h : f.write p b = .ok f') : ∃ l, f.locate p = .ok l ∧ l ≠ [] ∧
    f.tree.get? l ≠ some .folder ∧ f' = { f with tree := f.tree.put l (.file b) } := by
  obtain ⟨t, name, ht, hname, hslash, hsize, hfree, rfl⟩ := write_ok h
  obtain ⟨before, blanks, l, hcomponents, hblanks, hisName, hstart, hwalk, hfolder⟩ :=
    exists_walk_of_target ht hname
  rw [hblanks hslash] at hcomponents
  refine ⟨t.folder ++ [name], ?_, by simp, hfree, rfl⟩
  rw [locate_of_start hstart, hcomponents, List.foldlM_append, hwalk]
  exact bind_of_answer (step_name hfolder hisName hsize)

lemma locate_write (h : f.write p b = .ok f') (hl : f.locate q = .ok l) : f'.locate q = .ok l := by
  obtain ⟨k, -, -, hfree, rfl⟩ := put_of_write h
  exact (keepsFolders_put hfree b).locate hl

lemma locate_of_read (h : f.read p = .ok b) :
    ∃ l, f.locate p = .ok l ∧ f.tree.get? l = some (.file b) := by
  obtain ⟨e, hentry, h⟩ := answer_of_bind h
  obtain ⟨l, hl, hentry⟩ := answer_of_bind hentry
  cases hget : f.tree.get? l with
  | none =>
    rw [hget] at hentry
    cases hentry
  | some e' =>
    rw [hget] at hentry
    cases hentry
    cases e with
    | folder => cases h
    | file b' =>
      cases h
      exact ⟨l, hl, hget⟩

lemma read_of_locate (hl : f.locate p = .ok l) (hget : f.tree.get? l = some (.file b)) :
    f.read p = .ok b := by
  rw [read, bind_of_answer (entry_of_locate hl hget)]

lemma read_write (h : f.write p b = .ok f') : f'.read p = .ok b := by
  obtain ⟨l, hl, hne, -, hf'⟩ := put_of_write h
  refine read_of_locate (locate_write h hl) ?_
  rw [hf']
  exact Tree.get?_put_self _ hne _

/-- Where there was a file, there is one when another has been written. -/
lemma exists_read_write {b₀ : Bytes} (h : f.write p b = .ok f') (hread : f.read q = .ok b₀) :
    ∃ b', f'.read q = .ok b' := by
  obtain ⟨k, -, hne, -, hf'⟩ := put_of_write h
  obtain ⟨l, hl, hget⟩ := locate_of_read hread
  by_cases hlk : l = k
  · refine ⟨b, read_of_locate (locate_write h hl) ?_⟩
    rw [hf', hlk]
    exact Tree.get?_put_self _ hne _
  · refine ⟨b₀, read_of_locate (locate_write h hl) ?_⟩
    rw [hf']
    exact (Tree.get?_put_of_ne _ hlk _).trans hget

/-- What is removed is taken away from the location of the path, where there was a file. -/
lemma erase_of_remove (h : f.remove p = .ok f') :
    ∃ l b, f.locate p = .ok l ∧ f.tree.get? l = some (.file b) ∧
    f' = { f with tree := f.tree.erase l } := by
  obtain ⟨l, hl, h⟩ := answer_of_bind h
  cases hget : f.tree.get? l with
  | none =>
    rw [hget] at h
    cases h
  | some e =>
    rw [hget] at h
    cases e with
    | folder => cases h
    | file b =>
      cases h
      exact ⟨l, b, hl, hget, rfl⟩

lemma exists_remove (h : f.read p = .ok b) : ∃ f', f.remove p = .ok f' := by
  obtain ⟨l, hl, hget⟩ := locate_of_read h
  refine ⟨{ f with tree := f.tree.erase l }, ?_⟩
  rw [remove, bind_of_answer hl]
  simp only [hget]

end Files

end AudLang
