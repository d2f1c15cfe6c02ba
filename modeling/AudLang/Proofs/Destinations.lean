import AudLang.Proofs.Coherence
import AudLang.Proofs.Retiring

/-!
Where files go.

A file that is moved into a folder, or added to it, is known from then on by the path of the folder
and its own name.  This path is made from texts, and nobody looks where the file has gone.  If there
is a folder at this path already, then the file goes into that folder, and its value is left with
the path of a folder.
-/

namespace AudLang

open Run Relation AudLang.Path

variable {d : FolderObject} {operation : String}

/-! ## Paths -/

namespace Path

variable {p q c : String}

lemma isAbsolute_iff : isAbsolute p = true ↔ ['/'] <+: p.toList := by
  rw [isAbsolute, String.startsWith_string_iff]
  rfl

lemma isAbsolute_append (h : isAbsolute p = true) (q : String) : isAbsolute (p ++ q) = true := by
  rw [isAbsolute_iff] at h ⊢
  rw [String.toList_append]
  exact h.trans (List.prefix_append _ _)

lemma isAbsolute_front {front rest : String} (h : isAbsolute (front ++ rest) = true)
    (hne : front ≠ "") : isAbsolute front = true := by
  rw [isAbsolute_iff] at h ⊢
  obtain ⟨a, w, hw⟩ := List.exists_cons_of_ne_nil (mt String.toList_eq_nil_iff.1 hne)
  simpa [hw] using h

lemma isAbsolute_stem (h : isAbsolute p = true) : isAbsolute (splitExtension p).1 = true := by
  rcases splitExtension_cases p with hp | ⟨stem, extension, hp, hstem⟩
  · simp only [hp, h]
  · simp only [hstem]
    rw [hp, String.append_assoc] at h
    refine isAbsolute_front h ?_
    -- a path that starts with a dot is not absolute
    rintro rfl
    rw [isAbsolute_iff] at h
    simp at h

lemma isAbsolute_join (h : isAbsolute p = true) (q : String) : isAbsolute (join p q) = true := by
  unfold join
  split
  · assumption
  · split
    · exact isAbsolute_append h q
    · exact isAbsolute_append (isAbsolute_append h "/") q

/-- One more component is settled behind the others. -/
lemma settled_append_slash (p : String) (hc : '/' ∉ c.toList) :
    settled (p ++ "/" ++ c) = settle (settled p) c := by
  rw [settled, components_append_slash, components_of_no_slash hc, List.foldl_append]
  rfl

lemma settled_append_slashes (p : String) (n : Nat) :
    settled (p ++ String.ofList (List.replicate n '/')) = settled p := by
  induction n with
  | zero => simp
  | succ n ih =>
    have hend : p ++ String.ofList (List.replicate (n + 1) '/') =
        p ++ String.ofList (List.replicate n '/') ++ "/" ++ "" := by
      rw [← String.toList_inj]
      simp [List.replicate_succ']
    rw [hend, settled_append_slash _ (by simp), ih]
    simp [settle]

lemma settled_join (p : String) (hc : '/' ∉ c.toList) :
    settled (join p c) = settle (settled p) c := by
  rw [join, isAbsolute_of_no_slash hc]
  by_cases hempty : p = ""
  · simp [hempty, settled, components_of_no_slash hc, components_empty, settle]
  · by_cases hend : p.endsWith "/" = true
    · obtain ⟨w, hw⟩ := endsWith_iff.1 hend
      have hp : p = String.ofList w ++ String.ofList (List.replicate 1 '/') := by
        rw [← String.toList_inj, ← hw]
        simp
      simp only [hend, Bool.or_true, if_true, Bool.false_eq_true, if_false]
      rw [hp, settled_append_slashes]
      exact settled_append_slash _ hc
    · simp [hempty, hend, settled_append_slash _ hc]

lemma settled_normal (p : String) : settled (normal p) = settled p := by
  have hnames : ∀ c ∈ settled p, IsName c :=
    isName_settle (fun c hc => no_slash_of_mem_components hc) (by simp)
  have hslash : settled ("/" ++ "/".intercalate (settled p)) = settled p := by
    rw [settled_slash, settled_intercalate hnames]
  show settled ((if p.startsWith "//" && !p.startsWith "///" then "//" else "/") ++ "/".intercalate
    (settled p)) = _
  split
  · rw [show "//" = "/" ++ "/" from rfl, String.append_assoc, settled_slash, hslash]
  · exact hslash

/-- Behind the folder of an absolute path come slashes and the last component; and if the folder is
the root, it has these slashes for itself. -/
lemma exists_front_of_base (h : isAbsolute p = true) : ∃ (front : String) (k : Nat),
    p = front ++ String.ofList (List.replicate k '/') ++ "/" ++ base p ∧
    (front = "" ∧ folder p = String.ofList (List.replicate (k + 1) '/') ∨ front ≠ "" ∧
      folder p = front) := by
  let head := p.toList.reverse.dropWhile (· ≠ '/')
  let slashes := head.takeWhile (· = '/')
  let rest := head.dropWhile (· = '/')
  -- read from the end, the path is the last component, some slashes and the rest
  have hp : p.toList = rest.reverse ++ slashes.reverse ++ (base p).toList := by
    have hbase : p.toList.reverse.takeWhile (· ≠ '/') ++ (slashes ++ rest) = p.toList.reverse := by
      rw [List.takeWhile_append_dropWhile, List.takeWhile_append_dropWhile]
    rw [← List.reverse_reverse p.toList, ← hbase, base, String.toList_ofList]
    simp
  obtain ⟨k, hslashes⟩ : ∃ k, slashes = List.replicate (k + 1) '/' := by
    have hall : ∀ a ∈ slashes, a = '/' := fun a ha => by simpa using List.mem_takeWhile_imp ha
    have hsome : slashes ≠ [] := by
      have hmem : '/' ∈ p.toList.reverse :=
        List.mem_reverse.2 ((isAbsolute_iff.1 h).subset (by simp))
      have hhead : head ≠ [] := fun hnil => by simpa using List.dropWhile_eq_nil_iff.1 hnil '/' hmem
      obtain ⟨a, w, hw⟩ := List.exists_cons_of_ne_nil hhead
      have ha := List.head?_dropWhile_not (· ≠ '/') p.toList.reverse
      rw [show p.toList.reverse.dropWhile (· ≠ '/') = a :: w from hw] at ha
      have haslash : a = '/' := by simpa using ha
      simp only [slashes, hw, haslash]
      simp
    refine ⟨slashes.length - 1, List.eq_replicate_iff.2 ⟨?_, hall⟩⟩
    have hpos := List.length_pos_iff.2 hsome
    omega
  refine ⟨String.ofList rest.reverse, k, ?_, ?_⟩
  · rw [← String.toList_inj, hp, hslashes, List.reverse_replicate, List.replicate_succ']
    simp
  · have hhead : slashes ++ rest = head := List.takeWhile_append_dropWhile
    cases hrest : rest with
    | nil =>
      refine .inl ⟨by simp, ?_⟩
      have hroot : (p.toList.reverse.dropWhile (· ≠ '/')).dropWhile (· = '/') = [] := hrest
      have hall : p.toList.reverse.dropWhile (· ≠ '/') = List.replicate (k + 1) '/' := by
        rw [hrest, List.append_nil, hslashes] at hhead
        exact hhead.symm
      rw [folder]
      simp only [hroot]
      rw [hall, List.reverse_replicate]
    | cons a w =>
      refine .inr ⟨by simp, ?_⟩
      have hfront : (p.toList.reverse.dropWhile (· ≠ '/')).dropWhile (· = '/') = a :: w := hrest
      rw [folder]
      simp only [hfront]

lemma isAbsolute_folder (h : isAbsolute p = true) : isAbsolute (folder p) = true := by
  obtain ⟨front, k, hp, ⟨-, hfolder⟩ | ⟨hne, hfolder⟩⟩ := exists_front_of_base h
  · rw [hfolder, isAbsolute_iff]
    simp [List.replicate_succ]
  · rw [hp, String.append_assoc, String.append_assoc] at h
    rw [hfolder]
    exact isAbsolute_front h hne

/-- The last component of an absolute path is settled behind its folder. -/
lemma settled_folder (h : isAbsolute p = true) :
    settled p = settle (settled (folder p)) (base p) := by
  obtain ⟨front, k, hp, hfolder⟩ := exists_front_of_base h
  have hfront : settled (folder p) = settled front := by
    rcases hfolder with ⟨hfront, hfolder⟩ | ⟨-, hfolder⟩
    · rw [hfolder, hfront, ← settled_append_slashes "" (k + 1)]
      simp
    · rw [hfolder]
  calc settled p
      = settled (front ++ String.ofList (List.replicate k '/') ++ "/" ++ base p) := by rw [← hp]
    _ = settle (settled front)
      (base p) := by rw [settled_append_slash _ (no_slash_base p), settled_append_slashes]
    _ = settle (settled (folder p)) (base p) := by rw [hfront]

end Path

namespace Files

variable {f f' : Files} {p q c : String} {l old new : Location} {b : Bytes}

lemma step_ok (h : f.step l c = .ok new) : f.tree.get? l = some .folder ∧ new = settle l c := by
  unfold step at h
  unfold settle
  split at h
  · cases h
  · cases h
  · rename_i hfolder
    refine ⟨hfolder, ?_⟩
    split at h
    · cases h
      rw [if_pos ‹_›]
    · split at h
      · cases h
        rw [if_neg ‹_›, if_pos ‹_›]
      · split at h
        · cases h
        · cases h
          rw [if_neg ‹_›, if_neg ‹_›]

lemma walk_eq_settle {cs : List String} (h : cs.foldlM f.step l = .ok new) :
    new = cs.foldl settle l := by
  induction cs generalizing l with
  | nil =>
    cases h
    rfl
  | cons c cs ih =>
    rw [List.foldlM_cons] at h
    obtain ⟨l₁, h₁, h⟩ := answer_of_bind h
    obtain ⟨-, rfl⟩ := step_ok h₁
    exact ih h

lemma start_of_isAbsolute (hp : isAbsolute p = true) (h : f.start p = .ok l) : l = [] := by
  unfold start at h
  split at h
  · cases h
  · split at h
    · cases h
    · split at h
      · cases h
      · cases h
        rfl

/-- An absolute path leads, if anywhere, to the names that it comes down to. -/
lemma settled_of_locate (hp : isAbsolute p = true) (h : f.locate p = .ok l) : l = settled p := by
  obtain ⟨start, hstart, hwalk⟩ := answer_of_bind h
  cases start_of_isAbsolute hp hstart
  exact walk_eq_settle hwalk

lemma folder_of_walk {cs : List String} (h : cs.foldlM f.step l = .ok new)
    (hl : ∀ k, k <+: l → k ≠ l → f.tree.get? k = some .folder) :
    ∀ k, k <+: new → k ≠ new → f.tree.get? k = some .folder := by
  induction cs generalizing l with
  | nil =>
    cases h
    exact hl
  | cons c cs ih =>
    rw [List.foldlM_cons] at h
    obtain ⟨l₁, h₁, h⟩ := answer_of_bind h
    obtain ⟨hfolder, rfl⟩ := step_ok h₁
    have hall : ∀ k, k <+: l → f.tree.get? k = some .folder := by
      intro k hk
      by_cases hkl : k = l
      · rw [hkl, hfolder]
      · exact hl k hk hkl
    refine ih h fun k hk hne => hall k ?_
    unfold settle at hk hne
    split at hk
    · exact hk
    · split at hk
      · exact hk.trans (List.dropLast_prefix l)
      · rename_i hblank hdots
        rw [if_neg hblank, if_neg hdots] at hne
        exact (List.prefix_concat_iff.1 hk).resolve_left hne

/-- A file lies in the folder that its path names, under the last component of the path. -/
lemma eq_child_of_locate (hp : isAbsolute p = true) (h : f.locate p = .ok l)
    (hfile : f.tree.get? l = some (.file b)) : l = settled (folder p) ++ [base p] := by
  obtain ⟨lead, before, hlead, hcomponents⟩ := exists_lead_of_base p
  obtain ⟨start, hstart, hwalk⟩ := answer_of_bind h
  cases start_of_isAbsolute hp hstart
  rw [hlead, hcomponents _ (no_slash_base p), List.foldlM_append] at hwalk
  obtain ⟨k, hk, hwalk⟩ := answer_of_bind hwalk
  obtain ⟨l₁, hstep, hwalk⟩ := answer_of_bind hwalk
  cases hwalk
  obtain ⟨hfolder, hl⟩ := step_ok hstep
  -- the last component neither stays in a folder nor goes back to one
  have hall : ∀ j, j <+: k → j ≠ l := by
    rintro j hj rfl
    have hfolderj : f.tree.get? j = some .folder := by
      by_cases hjk : j = k
      · rw [hjk, hfolder]
      · exact folder_of_walk hk (fun i hi hne => absurd (List.prefix_nil.1 hi) hne) j hj hjk
    cases hfile.symm.trans hfolderj
  have hblank : ¬(base p = "" || base p = ".") = true := fun hblank =>
    hall k (List.prefix_refl k) (by rw [hl, settle, if_pos hblank])
  have hdots : base p ≠ ".." := fun hdots =>
    hall _ (List.dropLast_prefix k) (by rw [hl, settle, if_neg hblank, if_pos hdots])
  rw [settled_of_locate hp h, settled_folder hp, settle, if_neg hblank, if_neg hdots]

lemma isAbsolute_absolute (f : Files) (p : String) : isAbsolute (f.absolute p) = true := by
  obtain ⟨l, hl⟩ := f.exists_route_absolute p
  rw [hl, l.isAbsolute_path]

/-! ## Moving and copying -/

/-- The path leads to a place, and its last component is a name. -/
structure PointsTo (fs : Files) (p : String) (l : Location) : Prop where
  locate : fs.locate p = .ok l
  named : ∃ before name, components p = before ++ [name] ∧ IsName name

/-- A file with these bytes is at a place where there was no folder, and everything else is as it
was. -/
structure Gains (fs fs' : Files) (new : Location) (b : Bytes) : Prop where
  home : fs'.home = fs.home
  free : fs.tree.get? new ≠ some .folder
  holds : fs'.tree.get? new = some (.file b)
  elsewhere : ∀ k, k ≠ new → fs'.tree.get? k = fs.tree.get? k

/-- The file with these bytes has gone from one place to another where there was no folder, unless
this is the same place, and everything else is as it was. -/
structure Moves (fs fs' : Files) (old new : Location) (b : Bytes) : Prop where
  home : fs'.home = fs.home
  was : fs.tree.get? old = some (.file b)
  free : fs.tree.get? new ≠ some .folder
  holds : fs'.tree.get? new = some (.file b)
  gone : old ≠ new → fs'.tree.get? old = none
  elsewhere : ∀ k, k ≠ old → k ≠ new → fs'.tree.get? k = fs.tree.get? k

lemma Gains.keepsFolders (h : f.Gains f' new b) : KeepsFolders f f' := by
  refine ⟨h.home, fun k hk => ?_⟩
  have hne : k ≠ new := by
    rintro rfl
    exact h.free hk
  rw [h.elsewhere k hne, hk]

lemma Moves.keepsFolders (h : f.Moves f' old new b) : KeepsFolders f f' := by
  refine ⟨h.home, fun k hk => ?_⟩
  have hold : k ≠ old := by
    rintro rfl
    cases h.was.symm.trans hk
  have hnew : k ≠ new := by
    rintro rfl
    exact h.free hk
  rw [h.elsewhere k hold hnew, hk]

lemma pointsTo_of_target {t : Target} {name : String} (h : f.target p = .ok t)
    (hname : t.name = some name)
    (hslash : t.hasSlash = false) (hsize : ¬name.utf8ByteSize > nameLimit) :
    f.PointsTo p (t.folder ++ [name]) := by
  obtain ⟨before, blanks, l, hcomponents, hblanks, hisName, hstart, hwalk, hfolder⟩ :=
    exists_walk_of_target h hname
  rw [hblanks hslash] at hcomponents
  refine ⟨?_, before, name, hcomponents, hisName⟩
  rw [locate_of_start hstart, hcomponents, List.foldlM_append, hwalk]
  exact bind_of_answer (step_name hfolder hisName hsize)

lemma gains_of_write (h : f.write p b = .ok f') : ∃ new, f.PointsTo p new ∧ f.Gains f' new b := by
  obtain ⟨t, name, ht, hname, hslash, hsize, hfree, rfl⟩ := write_ok h
  exact ⟨_, pointsTo_of_target ht hname hslash hsize, rfl, hfree, Tree.get?_put_self _ (by simp) _,
    fun k hk => Tree.get?_put_of_ne _ hk _⟩

lemma moves_of_rename (h : f.rename p q = .ok f') : ∃ old new b, f.PointsTo p old ∧
    f.PointsTo q new ∧ f.Moves f' old new b := by
  unfold rename at h
  obtain ⟨s, hs, h⟩ := answer_of_bind h
  obtain ⟨d, hd, h⟩ := answer_of_bind h
  split at h
  · rename_i sn dn hsn hdn
    obtain ⟨sl, hsl, h⟩ := answer_of_bind h
    obtain ⟨rfl, hsize⟩ := targetLocation_ok hsl
    split at h
    · cases h
    · cases h
    · rename_i b hb
      obtain ⟨dl, hdl, h⟩ := answer_of_bind h
      obtain ⟨rfl, hsize'⟩ := targetLocation_ok hdl
      split at h
      · cases h
      · rename_i hslash
        simp only [Bool.or_eq_true, not_or, Bool.not_eq_true] at hslash
        refine ⟨s.folder ++ [sn], d.folder ++ [dn], b, pointsTo_of_target hs hsn hslash.1 hsize,
          pointsTo_of_target hd hdn hslash.2 hsize', ?_⟩
        split at h
        · -- the file stays where it is
          rename_i hsame
          cases h
          rw [hsame]
          exact ⟨rfl, hb, by simp [hb], hb, fun hne => absurd rfl hne, fun _ _ _ => rfl⟩
        · rename_i hdiffer
          split at h
          · cases h
          · split at h
            · cases h
            · rename_i hfree
              cases h
              refine ⟨rfl, hb, hfree, Tree.get?_put_self _ (by simp) _, fun hne => ?_,
                fun k hold hnew => ?_⟩
              · rw [Tree.get?_put_of_ne _ hne, Tree.get?_erase_self _ (by simp)]
              · rw [Tree.get?_put_of_ne _ hnew, Tree.get?_erase_of_ne _ hold]
  · cases h

lemma exists_of_isFolder (h : f.isFolder p = true) :
    ∃ l, f.locate p = .ok l ∧ f.tree.get? l = some .folder := by
  unfold isFolder at h
  split at h
  · rename_i hentry
    obtain ⟨l, hl, hentry⟩ := answer_of_bind hentry
    cases hget : f.tree.get? l with
    | none =>
      rw [hget] at hentry
      cases hentry
    | some e =>
      rw [hget] at hentry
      cases hentry
      exact ⟨l, hl, hget⟩
  · cases h

lemma exists_read_of_isFile (h : f.isFile p = true) : ∃ b, f.read p = .ok b := by
  unfold isFile at h
  split at h
  · rename_i b hentry
    exact ⟨b, bind_of_answer hentry⟩
  · cases h

lemma not_isFolder_of_file (hl : f.locate p = .ok l) (hget : f.tree.get? l = some (.file b)) :
    f.isFolder p = false := by
  rw [isFolder, entry_of_locate hl hget]

lemma not_isFolder_of_not_doesExist (h : f.doesExist p = false) : f.isFolder p = false := by
  rw [Bool.eq_false_iff]
  intro hfolder
  obtain ⟨l, hl, hget⟩ := exists_of_isFolder hfolder
  rw [doesExist, entry_of_locate hl hget] at h
  cases h

/-- Where a file with this name goes that is sent to a path: into the folder if there is one. -/
def landing (f : Files) (q c : String) : String := if f.isFolder q then join q c else q

/-- A copy goes to another place, and there it has what the file holds. -/
lemma gains_of_copy (h : f.copy p q = .ok f') : ∃ old new b, f.locate p = .ok old ∧
    f.tree.get? old = some (.file b) ∧ new ≠ old ∧ f.PointsTo (f.landing q (base p)) new ∧
      f.Gains f' new b := by
  unfold copy at h
  extract_lets destination at h
  split at h
  · cases h
  · rename_i hsame
    obtain ⟨b, hread, h⟩ := answer_of_bind h
    obtain ⟨old, hold, hget⟩ := locate_of_read (plainly_ok hread)
    split at h
    · rename_i f₁ hwrite
      cases h
      obtain ⟨new, hnew, hgains⟩ := gains_of_write hwrite
      refine ⟨old, new, b, hold, hget, ?_, hnew, hgains⟩
      rintro rfl
      exact hsame (by simp [same, hold, hnew.locate, hget])
    · cases h

/-- A file that is moved goes to the place where it is sent, whether it is renamed or copied and
removed. -/
lemma moves_of_move (h : f.move p q = .ok f') : ∃ old new b, f.locate p = .ok old ∧
    f.PointsTo (f.landing q (lastName p)) new ∧ f.Moves f' old new b := by
  unfold move at h
  extract_lets into destination at h
  split at h
  · cases h
  · rename_i hfree
    split at h
    · rename_i f₁ hrename
      cases h
      obtain ⟨old, new, b, hold, hnew, hmoves⟩ := moves_of_rename hrename
      exact ⟨old, new, b, hold.locate, hnew, hmoves⟩
    · obtain ⟨f₁, hcopy, h⟩ := answer_of_bind h
      obtain ⟨old, new, b, hold, hget, hne, hnew, hgains⟩ := gains_of_copy hcopy
      have hdestination : f.isFolder destination = false := by
        by_cases hinto : into = true
        · rw [hinto, Bool.true_and, Bool.not_eq_true] at hfree
          exact not_isFolder_of_not_doesExist hfree
        · simp only [destination, hinto]
          exact Bool.eq_false_iff.2 hinto
      rw [landing, hdestination] at hnew
      refine ⟨old, new, b, hold, hnew, ?_⟩
      obtain ⟨old', b', hold', hget', rfl⟩ := erase_of_remove (plainly_ok h)
      cases (hgains.keepsFolders.locate hold).symm.trans hold'
      have holdNe : old ≠ [] := by
        rintro rfl
        cases hget
      refine ⟨hgains.home, hget, hgains.free, ?_, fun _ => Tree.get?_erase_self _ holdNe,
        fun k hk hk' => ?_⟩
      · exact (Tree.get?_erase_of_ne _ hne).trans hgains.holds
      · exact (Tree.get?_erase_of_ne _ hk).trans (hgains.elsewhere k hk')

/-! ## Places in folders -/

lemma PointsTo.eq_child (h : f.PointsTo (join p c) new) (hp : isAbsolute p = true)
    (hl : f.locate p = .ok l) (hc : '/' ∉ c.toList) : new = l ++ [c] := by
  obtain ⟨before, name, hcomponents, hname⟩ := h.named
  obtain ⟨cs, hcs⟩ := components_join p hc
  rw [hcs] at hcomponents
  obtain ⟨-, hsame⟩ := List.append_inj' hcomponents rfl
  cases List.singleton_inj.1 hsame
  rw [settled_of_locate (isAbsolute_join hp c) h.locate, settled_join p hc, settle,
    settled_of_locate hp hl,
    if_neg (by simp [hname.ne_empty, hname.ne_dot]), if_neg hname.ne_dots]

/-- The path leads into the folder, to a place of which something is true. -/
def LeadsInto (f : Files) (folder path : String) (P : Location → Prop) : Prop :=
  ∃ l c, f.locate folder = .ok l ∧ f.locate path = .ok (l ++ [c]) ∧ P (l ++ [c])

/-- A file is sent to a path in a folder.  The path leads to it there exactly if there was no folder
at the path; and otherwise the file is in that folder. -/
lemma leadsInto_iff {c' : String} {P : Location → Prop} (hp : isAbsolute p = true)
    (hl : f.locate p = .ok l)
    (hc : '/' ∉ c.toList) (hc' : '/' ∉ c'.toList) (hnew : f.PointsTo (f.landing (join p c) c') new)
    (hkeeps : KeepsFolders f f') (hP : P new)
    (hfile : ∀ k, P k → ∃ b, f'.tree.get? k = some (.file b)) :
    (f'.LeadsInto p (join p c) P ↔ f.isFolder (join p c) = false) ∧
      (f.isFolder (join p c) = true → ∃ k, f'.locate (join p c) = .ok k ∧
        f'.tree.get? k = some .folder ∧
        P (k ++ [c'])) := by
  cases hfolder : f.isFolder (join p c) with
  | false =>
    rw [landing, hfolder] at hnew
    cases PointsTo.eq_child hnew hp hl hc
    exact ⟨iff_of_true ⟨l, c, hkeeps.locate hl, hkeeps.locate hnew.locate, hP⟩ rfl,
      fun h => absurd h Bool.false_ne_true⟩
  | true =>
    rw [landing, hfolder] at hnew
    obtain ⟨k, hk, hget⟩ := exists_of_isFolder hfolder
    cases PointsTo.eq_child hnew (isAbsolute_join hp c) hk hc'
    refine ⟨iff_of_false ?_ (by simp), fun _ => ⟨k, hkeeps.locate hk, hkeeps.folder k hget, hP⟩⟩
    -- the folder is still there, so there is no file at its path
    rintro ⟨l', c₁, -, hpath, hP'⟩
    cases (hkeeps.locate hk).symm.trans hpath
    obtain ⟨b, hfileb⟩ := hfile _ hP'
    cases (hkeeps.folder _ hget).symm.trans hfileb

/-- A file whose path has the folder before its last component lies in the folder. -/
lemma leadsInto_of_folder (hp : isAbsolute p = true) (hq : f.absolute (folder p) = q)
    (hl : f.locate q = .ok l)
    (hold : f.locate p = .ok old) (hget : f.tree.get? old = some (.file b)) :
    f.LeadsInto q p (f.Gains f · b) := by
  have hfolder : settled q = settled (folder p) := by
    rw [← hq, absolute, Path.absolute, settled_normal, join, if_pos (isAbsolute_folder hp)]
  have hchild : old = l ++ [base p] := by
    rw [eq_child_of_locate hp hold hget, ← hfolder,
      settled_of_locate (hq ▸ f.isAbsolute_absolute _) hl]
  subst hchild
  exact ⟨l, base p, hl, hold, rfl, by simp [hget], hget, fun _ _ => rfl⟩

end Files

/-! ## Registries -/

namespace Registry

variable {tame : Prop} {fs : Files} {R R' : Registry} {g r : Ref} {f : FileObject}

/-- All paths are absolute. -/
structure Rooted (R : Registry) : Prop where
  file : ∀ r f, R.file r = some f → isAbsolute f.path = true
  folder : ∀ g p, R.pathOf g = some p → isAbsolute p = true

/-- The paths of folders are the same, and no file but one has a new path. -/
lemma Rooted.of_file (hR : R.Rooted) (r : Ref) (hpath : R'.pathOf = R.pathOf)
    (hother : ∀ q, q ≠ r → R'.file q = R.file q)
    (hr : ∀ f, R'.file r = some f → isAbsolute f.path = true) : R'.Rooted := by
  refine ⟨fun q f hf => ?_, fun g p hg => hR.folder g p (hpath ▸ hg)⟩
  by_cases hq : q = r
  · exact hr f (hq ▸ hf)
  · exact hR.file q f (by rw [← hother q hq, hf])

lemma Rooted.reviseFile {change : FileObject → FileObject} (hR : R.Rooted) (r : Ref)
    (h : ∀ f, R.file r = some f → isAbsolute (change f).path = true) :
    (R.reviseFile r change).Rooted := by
  refine hR.of_file r rfl (fun q hq => file_reviseFile_of_ne hq _) fun f' hf' => ?_
  simp only [Registry.reviseFile, if_true] at hf'
  obtain ⟨f, hf, rfl⟩ := Option.map_eq_some_iff.1 hf'
  exact h f hf

lemma Rooted.leave (hR : R.Rooted) (parent : Option Ref) (r : Ref) : (R.leave parent r).Rooted :=
  ⟨by simpa using hR.file, by simpa using hR.folder⟩

lemma Rooted.track (hR : R.Rooted) (g r : Ref) : (R.track g r).Rooted := by
  refine hR.of_file r (pathOf_track R g r) (fun q hq => file_track_of_ne hq) fun f' hf' => ?_
  unfold Registry.track at hf'
  split at hf'
  · split at hf'
    · exact hR.file r f' hf'
    · simp only [Registry.reviseFile, if_true] at hf'
      obtain ⟨f, hf, rfl⟩ := Option.map_eq_some_iff.1 hf'
      exact hR.file r f hf
  · exact hR.file r f' hf'

lemma Rooted.set_folder (hR : R.Rooted) (hr : R.IsFree r) (hd : isAbsolute d.path = true) :
    (R.set r (.folder d)).Rooted := by
  refine ⟨fun q f hf => hR.file q f (by rwa [file_set_of_isFree hr rfl] at hf), fun g p hg => ?_⟩
  by_cases hgr : g = r
  · have hp : d.path = p := by simpa [pathOf, set, hgr, Value.folder?] using hg
    rwa [← hp]
  · exact hR.folder g p (by simpa [pathOf, set, hgr] using hg)

lemma Rooted.set_file (hR : R.Rooted) (hr : R.IsFree r) (hf : isAbsolute f.path = true) :
    (R.set r (.file f)).Rooted := by
  have hpath : (R.set r (.file f)).pathOf = R.pathOf := by
    unfold pathOf
    rw [folder_set_of_isFree hr rfl]
  refine hR.of_file r hpath (fun q hq => file_set_of_ne hq) fun f' hf' => ?_
  simp only [set, if_true, Value.file?, Option.some.injEq] at hf'
  rwa [← hf']

lemma Deed.rooted (h : R.Deed tame fs R') (hR : R.Rooted) : R'.Rooted := by
  cases h with
  | rests => exact hR
  | @opens r path parent hr ho hf => exact hR.set_file hr (fs.isAbsolute_absolute path)
  | @opensFolder r path name hr => exact hR.set_folder hr (fs.isAbsolute_absolute path)
  | @renames r f name hf hlive ht =>
    refine hR.reviseFile r fun _ _ => ?_
    exact isAbsolute_join (isAbsolute_folder (hR.file r f hf)) name
  | @reformats r f extension path hf hlive hempty hslash hdot hpath =>
    refine hR.reviseFile r fun _ _ => ?_
    show isAbsolute path = true
    rw [hpath, String.append_assoc]
    exact isAbsolute_append (isAbsolute_stem (hR.file r f hf)) _
  | @moves r g f d hf hlive hg =>
    refine (((hR.leave _ r).reviseFile r fun f' hf' => ?_).track g r).reviseFile r fun _ _ => ?_
    · exact hR.file r f' (by rwa [file_leave] at hf')
    · exact isAbsolute_join (hR.folder g d.path (pathOf_of_folder hg)) f.name
  | @adds r g f d path hf hlive hg hpath =>
    refine ((hR.reviseFile r fun _ _ => ?_).leave _ r).track g r
    show isAbsolute path = true
    rw [hpath]
    split
    · exact isAbsolute_join (hR.folder g d.path (pathOf_of_folder hg)) f.name
    · exact hR.file r f hf
  | @drops r f hf hlive =>
    refine (hR.leave _ r).reviseFile r fun f' hf' => ?_
    exact hR.file r f' (by rwa [file_leave] at hf')

end Registry

/-! ## Calls -/

namespace Machine

-- what is in the tree is never computed here
seal Files.isFile Files.isFolder Files.doesExist Files.move Files.copy Run.load

variable {m₀ m m' : Machine} {r g a : Ref} {f : FileObject} {args : List Ref} {p : Position}

lemma rooted_of_changes {tame : Prop} (h : Changes tame m m') (hm : m.registry.Rooted) :
    m'.registry.Rooted := by
  induction h with
  | refl => exact hm
  | tail _ hchange ih => exact hchange.deed.rooted ih

lemma rooted_of_leadsTo (h₀ : m₀.KnowsNothing) (h : m₀.LeadsTo m) : m.registry.Rooted := by
  induction h with
  | refl =>
    refine ⟨fun r f hr => ?_, fun g p hg => ?_⟩
    · cases (h₀ r).1.symm.trans hr
    · simp [Registry.pathOf, (h₀ g).2] at hg
  | tail _ hstep ih =>
    cases hstep with
    | request q p => exact rooted_of_changes (q.changes_after p False.elim) ih
    | elsewhere h => exact h ▸ ih

lemma isFolder_of_checkFolder (h : checkFolder d operation p m = .ok () m') :
    m.files.isFolder d.path = true := by
  simp only [checkFolder, Run.files, bind_run, get_run, pure_run] at h
  split at h
  · cases h
  · split at h
    · cases h
    · split at h
      · cases h
      · rename_i hfolder
        simpa using hfolder

lemma isFile_of_checkFile (h : checkFile f operation p m = .ok () m') :
    m.files.isFile f.path = true := by
  simp only [checkFile, Run.files, bind_run, get_run, pure_run] at h
  split at h
  · cases h
  · split at h
    · cases h
    · split at h
      · cases h
      · rename_i hfile
        simpa using hfile

lemma isFile_of_usableFile (hf : m.registry.file r = some f)
    (h : usableFile r operation p m = .ok f m') : m.files.isFile f.path = true := by
  obtain ⟨v, hv, h⟩ := looks_value.ok_of_bind h
  cases hv
  have hf : (m.store.get r).file? = some f := hf
  cases hget : m.store.get r <;> rw [hget] at hf h <;> cases hf
  all_goals
    obtain ⟨u, hcheck, -⟩ := looks_checkFile.ok_of_bind h
    exact isFile_of_checkFile hcheck

/-- A file that has been moved is on the list of the folder, and it has the new path. -/
lemma ok_of_moveFile (hg : m.registry.folder g = some d) (hargs : args[0]? = some g)
    (h : moveFile r f args p m = .ok a m') : m.files.isFolder d.path = true ∧
      m.files.move f.path (join d.path f.name) = .ok m'.files ∧
      m'.registry = (((m.registry.leave f.parent r).reviseFile r fun f' =>
        { f' with parent := some g }).track g
        r).reviseFile r fun f' => { f' with path := join d.path f.name } := by
  obtain ⟨target, htarget, h⟩ := looks_argument.ok_of_bind h
  cases (argument_of_getElem? hargs).symm.trans htarget
  obtain ⟨v, hv, h⟩ := looks_value.ok_of_bind h
  cases hv
  have hg' : (m.store.get g).folder? = some d := hg
  cases hget : m.store.get g <;> rw [hget] at hg' h <;> cases hg'
  obtain ⟨u, hcheck, h⟩ := looks_checkFolder.ok_of_bind h
  obtain ⟨fs, hfs, h⟩ := looks_files.ok_of_bind h
  cases hfs
  refine ⟨isFolder_of_checkFolder hcheck, ?_⟩
  cases hmove : m.files.move f.path (join d.path f.name) with
  | error e =>
    simp only [hmove] at h
    cases e <;> cases h
  | ok fs =>
    simp only [hmove] at h
    have hends := ((settles_setFiles.bind fun _ => settles_leave (settles_updateFile.bind fun _ =>
      settles_track.bind fun _ => settles_updateFile.bind fun _ => settles_nothing)).ends m rfl
        rfl).ok h
    exact ⟨by rw [hends.2], hends.1⟩

/-- A file that has been added is on the list of the folder.  Unless it lay in the folder, it has
been copied and has the path of the copy. -/
lemma ok_of_addFile (hargs : args[0]? = some r) (hf : m.registry.file r = some f)
    (h : addFile g d args p m = .ok a m') : m.files.isFile f.path = true ∧ ∃ path,
      path = (if m.files.absolute (folder f.path) ≠ d.path then join d.path f.name else f.path) ∧
      (if m.files.absolute (folder f.path) ≠ d.path then m.files.copy f.path
        (join d.path f.name) else .ok m.files) =
        .ok m'.files ∧
      m'.registry = (((m.registry.reviseFile r fun f' => { f' with path }).leave
        (if f.parent = some g then none else f.parent) r).track g r) := by
  obtain ⟨added, hadded, h⟩ := looks_argument.ok_of_bind h
  cases (argument_of_getElem? hargs).symm.trans hadded
  obtain ⟨f₁, hf₁, h⟩ := looks_usableFile.ok_of_bind h
  cases hf.symm.trans (file_of_usableFile hf₁).1
  obtain ⟨fs, hfs, h⟩ := looks_files.ok_of_bind h
  cases hfs
  refine ⟨isFile_of_usableFile hf hf₁, ?_⟩
  extract_lets tracked handed path at h
  have hhanded : ∀ u R fs, Settles R fs (handed u)
      ((R.leave (if f.parent = some g then none else f.parent) r).track g r) fs := by
    intro u R fs
    have htracked : ∀ R u, Settles R fs (tracked u) (R.track g r) fs := fun R _ =>
      settles_track.bind fun _ => settles_nothing
    simp only [handed]
    cases hparent : f.parent with
    | none => exact htracked R ()
    | some parent =>
      by_cases hg : parent = g
      · simpa [hg] using htracked R ()
      · simpa [hg] using settles_untrack.bind (htracked _)
  by_cases hpath : m.files.absolute (folder f.path) ≠ d.path
  · simp only [if_pos hpath] at h ⊢
    refine ⟨path, rfl, ?_⟩
    cases hcopy : m.files.copy f.path path with
    | error e =>
      simp only [hcopy] at h
      cases e <;> cases h
    | ok fs =>
      simp only [hcopy] at h
      have hends := ((settles_setFiles.bind fun _ => settles_updateFile.bind fun u =>
        hhanded u _ _).ends m rfl rfl).ok h
      exact ⟨by rw [hends.2], hends.1⟩
  · simp only [if_neg hpath] at h ⊢
    have hsame : (m.registry.reviseFile r fun f' => { f' with path := f.path }) = m.registry :=
      Registry.reviseFile_of_id fun f' hf' => by
        cases hf.symm.trans hf'
        rfl
    have hends := ((hhanded () _ _).ends m rfl rfl).ok h
    exact ⟨f.path, rfl, by rw [hends.2], by rw [hsame, hends.1]⟩

lemma moveFile_of_callMethod (hf : m.registry.file r = some f)
    (h : callMethod r "move" args p m = .ok a m') : moveFile r f args p m = .ok a m' := by
  obtain ⟨v, h⟩ := callFile_of_callMethod (.inr rfl) hf h
  obtain ⟨u, -, h⟩ := looks_checkFile.ok_of_bind h
  exact h

/-- A file is sent to a path in a folder.  Its value belongs to the folder and has this path.  The
path leads into the folder, to a place of which something is true, exactly if there was no folder at
it.  If there was one, then that is true of a place in there, and the path is still the path of a
folder. -/
structure SentTo (m m' : Machine) (r g : Ref) (d : FolderObject) (path c : String)
    (P : Location → Prop) : Prop where
  file : ∃ f, m'.registry.file r = some f ∧ f.path = path ∧ f.parent = some g
  inside : m'.files.LeadsInto d.path path P ↔ m.files.isFolder path = false
  astray : m.files.isFolder path = true → ∃ l, m'.files.locate path = .ok l ∧
    m'.files.tree.get? l = some .folder ∧
    P (l ++ [c])

lemma sentTo_of_move (h₀ : m₀.KnowsNothing) (hm : m₀.LeadsTo m) (hf : m.registry.file r = some f)
    (hname : '/' ∉ f.name.toList) (hg : m.registry.folder g = some d) (hargs : args[0]? = some g)
    (h : callMethod r "move" args p m = .ok a m') : ∃ old b, m.files.locate f.path = .ok old ∧
      m.files.read f.path = .ok b ∧ m.SentTo m' r g d (join d.path f.name) (lastName f.path)
        (m.files.Moves m'.files old · b) := by
  obtain ⟨hfolder, hmove, hregistry⟩ := ok_of_moveFile hg hargs (moveFile_of_callMethod hf h)
  obtain ⟨old, new, b, hold, hnew, hmoves⟩ := Files.moves_of_move hmove
  obtain ⟨l, hl, -⟩ := Files.exists_of_isFolder hfolder
  have habsolute := (rooted_of_leadsTo h₀ hm).folder g _ (Registry.pathOf_of_folder hg)
  obtain ⟨hinside, hastray⟩ :=
    Files.leadsInto_iff (P := (m.files.Moves m'.files old · b)) habsolute hl hname
    (no_slash_base _) hnew hmoves.keepsFolders hmoves fun k hk => ⟨b, hk.holds⟩
  refine ⟨old, b, hold, Files.read_of_locate hold hmoves.was, ?_, hinside, hastray⟩
  rw [hregistry]
  obtain ⟨f', hf', hpath, -, hparent⟩ := Registry.exists_file_moves hf hg (join d.path f.name)
  exact ⟨f', hf', hpath, hparent⟩

lemma sentTo_of_add (h₀ : m₀.KnowsNothing) (hm : m₀.LeadsTo m) (hf : m.registry.file r = some f)
    (hname : '/' ∉ f.name.toList) (hg : m.registry.folder g = some d) (hargs : args[0]? = some r)
    (h : callMethod g "add_file" args p m = .ok a m') : ∃ b, m.files.read f.path = .ok b ∧
      m.SentTo m' r g d (if m.files.absolute (folder f.path) ≠ d.path then join d.path
        f.name else f.path) (base f.path)
        (m.files.Gains m'.files · b) := by
  have hrooted := rooted_of_leadsTo h₀ hm
  have howned : m.registry.Owned := (continues_of_leadsTo h₀.owned hm).owned
  rw [callMethod_folder (folder_registry_iff.1 hg)] at h
  obtain ⟨u, hcheck, h⟩ := looks_checkFolder.ok_of_bind h
  obtain ⟨l, hl, -⟩ := Files.exists_of_isFolder (isFolder_of_checkFolder hcheck)
  obtain ⟨hfile, path, hpath, hfiles, hregistry⟩ := ok_of_addFile hargs hf h
  have hsent : ∃ f', m'.registry.file r = some f' ∧ f'.path = path ∧ f'.parent = some g := by
    obtain ⟨f', hf', hnew, -, hparent⟩ := Registry.exists_file_adds howned hf hg path
    exact ⟨f', hregistry ▸ hf', hnew, hparent⟩
  rw [← hpath]
  by_cases helse : m.files.absolute (folder f.path) ≠ d.path
  · rw [if_pos helse] at hpath hfiles
    obtain ⟨old, new, b, hold, hget, -, hnew, hgains⟩ := Files.gains_of_copy hfiles
    have habsolute := hrooted.folder g _ (Registry.pathOf_of_folder hg)
    obtain ⟨hinside, hastray⟩ :=
      Files.leadsInto_iff (P := (m.files.Gains m'.files · b)) habsolute hl hname
      (no_slash_base _) hnew hgains.keepsFolders hgains fun k hk => ⟨b, hk.holds⟩
    subst hpath
    exact ⟨b, Files.read_of_locate hold hget, hsent, hinside, hastray⟩
  · -- the file lies in the folder already and stays where it is
    rw [if_neg helse] at hpath hfiles
    rw [not_not] at helse
    have hsame : m.files = m'.files := Except.ok.inj hfiles
    obtain ⟨b, hread⟩ := Files.exists_read_of_isFile hfile
    obtain ⟨old, hold, hget⟩ := Files.locate_of_read hread
    subst hpath
    have hlies := Files.leadsInto_of_folder (hrooted.file r f hf) helse hl hold hget
    have hnot := Files.not_isFolder_of_file hold hget
    refine ⟨b, hread, hsent, ?_, fun hfolder => absurd (hfolder.symm.trans hnot) (by simp)⟩
    rw [← hsame]
    exact iff_of_true hlies hnot

/-- Behind a move the value of a file stands for it: its path leads to the file, which lies in the
folder, has the bytes it had and has left its place, while everything else is as it was.  Behind an
addition it stands for a copy in the folder, or for the file itself if that lies in the folder.
Both are so exactly if there was no folder at the path that the value has now; otherwise the file or
its copy is in that folder. -/
theorem sentTo_of_move_or_add (h₀ : m₀.KnowsNothing) (hm : m₀.LeadsTo m)
    (hf : m.registry.file r = some f)
    (hname : '/' ∉ f.name.toList) (hg : m.registry.folder g = some d) :
    (∀ args p a m', args[0]? = some g → callMethod r "move" args p m = .ok a m' →
      ∃ old b, m.files.locate f.path = .ok old ∧ m.files.read f.path = .ok b ∧
        m.SentTo m' r g d (join d.path f.name) (lastName f.path) (m.files.Moves m'.files old · b)) ∧
    (∀ args p a m', args[0]? = some r → callMethod g "add_file" args p m = .ok a m' →
      ∃ b, m.files.read f.path = .ok b ∧
        m.SentTo m' r g d (if m.files.absolute (folder f.path) ≠ d.path then join d.path
          f.name else f.path)
          (base f.path) (m.files.Gains m'.files · b)) := by
  constructor
  · intro args p a m' hargs h
    exact sentTo_of_move h₀ hm hf hname hg hargs h
  · intro args p a m' hargs h
    exact sentTo_of_add h₀ hm hf hname hg hargs h

/-- A file is moved to where there is a folder with its name, and then its value has the path of
that folder; and it is added to another folder, and then it has the path of the copy. -/
theorem sentTo_of_move_or_add_into_folder :
    ∃ (m₀ m m₁ m₂ : Machine) (f : FileObject) (g h : FolderObject)
    (old : Location) (b : Bytes), m₀.KnowsNothing ∧ m₀.LeadsTo m ∧ m.registry.file 4 = some f ∧
    '/' ∉ f.name.toList ∧ m.registry.folder 5 = some g ∧ m.registry.folder 6 = some h ∧
    callMethod 4 "move" [5] .start m = .ok 7 m₁ ∧ callMethod 6 "add_file" [4] .start m = .ok 7 m₂ ∧
    m.files.isFolder "/g/a" = true ∧
    ¬m₁.files.LeadsInto g.path "/g/a" (m.files.Moves m₁.files old · b) ∧
    m₂.files.LeadsInto h.path "/h/a" (m.files.Gains m₂.files · b) := by
  let m₀ : Machine :=
    { store := ⟨#[.null, .text "/a", .text "/g", .text "/h"]⟩
      files := ⟨⟨[(["a"], .file [1]), (["g"], .folder), (["g", "a"], .folder), (["h"], .folder)]⟩,
        []⟩ }
  let qs : List Request := [.construct "File" [1], .construct "Folder" [2], .construct "Folder" [3]]
  have h₀ : m₀.KnowsNothing := by
    intro r
    rcases r with _ | _ | _ | _ | r <;> exact ⟨rfl, rfl⟩
  let m := m₀.requests .start qs
  have hm : m₀.LeadsTo m := leadsTo_requests .start qs m₀
  let f : FileObject := { path := "/a", name := "a", parent := none, isDeleted := false }
  let g : FolderObject := { path := "/g", name := "g", files := [], isDeleted := false }
  let h : FolderObject := { path := "/h", name := "h", files := [], isDeleted := false }
  have hf : m.registry.file 4 = some f := by decide +kernel
  have hg : m.registry.folder 5 = some g := by decide +kernel
  have hh : m.registry.folder 6 = some h := by decide +kernel
  have hname : '/' ∉ f.name.toList := by decide
  obtain ⟨m₁, hmove⟩ : ∃ m₁, callMethod 4 "move" [5] .start m = .ok 7 m₁ :=
    ok_of_run' (by decide +kernel)
  obtain ⟨m₂, hadd⟩ : ∃ m₂, callMethod 6 "add_file" [4] .start m = .ok 7 m₂ :=
    ok_of_run' (by decide +kernel)
  obtain ⟨old, b, -, hread, hmoved⟩ :=
    (sentTo_of_move_or_add h₀ hm hf hname hg).1 [5] .start 7 m₁ rfl hmove
  obtain ⟨b', hread', hadded⟩ :=
    (sentTo_of_move_or_add h₀ hm hf hname hh).2 [4] .start 7 m₂ rfl hadd
  cases hread.symm.trans hread'
  have hfolder : m.files.isFolder "/g/a" = true := by decide +kernel
  have hfree : m.files.isFolder "/h/a" = false := by decide +kernel
  have hpath : (if m.files.absolute (folder f.path) ≠ h.path then join h.path f.name else f.path)
    = "/h/a" := by
    decide +kernel
  rw [hpath] at hadded
  refine ⟨m₀, m, m₁, m₂, f, g, h, old, b, h₀, hm, hf, hname, hg, hh, hmove, hadd, hfolder, ?_,
    hadded.inside.2 hfree⟩
  rw [show join g.path f.name = "/g/a" by decide +kernel] at hmoved
  rw [hmoved.inside, hfolder]
  simp

end Machine

end AudLang
