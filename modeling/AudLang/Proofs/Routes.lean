import AudLang.Files.Access
import Mathlib.Tactic.Lemma

/-!
Absolute paths in normal form.

Such a path is a root and the names that lead on from it, and nothing else: `Path.Route` keeps the
root and the names together with what makes them a root and names.
-/

namespace AudLang.Path

variable {c p : String} {cs : List String} {w : List Char} {a : Char}

/-- The text names something in a folder: it is no gap between slashes, and it does not say to stay
or to go back. -/
structure IsName (c : String) : Prop where
  ne_empty : c ≠ ""
  ne_dot : c ≠ "."
  ne_dots : c ≠ ".."
  no_slash : '/' ∉ c.toList

/-- The root, which is written with one slash or with two. -/
def IsRoot (root : String) : Prop := root = "/" ∨ root = "//"

/-- A way from the root through some names. -/
structure Route where
  root : String
  names : List String
  isRoot : IsRoot root
  isName : ∀ c ∈ names, IsName c

namespace Route

/-- The path that a route is written as. -/
def path (l : Route) : String := l.root ++ "/".intercalate l.names

/-- The route that goes on by one name. -/
def child (l : Route) (c : String) (hc : IsName c) : Route where
  root := l.root
  names := l.names ++ [c]
  isRoot := l.isRoot
  isName := by
    intro x hx
    rcases List.mem_append.1 hx with hx | hx
    · exact l.isName x hx
    · rw [List.mem_singleton.1 hx]
      exact hc

/-- A route ends at the root or goes on from another route by one name. -/
lemma root_or_child (l : Route) : l.names = [] ∨ ∃ (l' : Route) (c : String) (hc : IsName c),
    l = l'.child c hc := by
  rcases List.eq_nil_or_concat l.names with h | ⟨cs, c, h⟩
  · exact .inl h
  · refine .inr ⟨⟨l.root, cs, l.isRoot, fun x hx => l.isName x (by simp [h, hx])⟩, c,
      l.isName c (by simp [h]), ?_⟩
    obtain ⟨root, names, isRoot, isName⟩ := l
    simp only at h
    subst h
    simp [child]

end Route

/-! ## Components -/

lemma no_slash_of_mem_splitOn {p : List Char} : ∀ c ∈ p.splitOn '/', '/' ∉ c := by
  induction p with
  | nil => simp [List.splitOn_nil]
  | cons a p ih =>
    rw [List.splitOn_cons_eq_if_modifyHead]
    split
    · simpa using ih
    · rename_i ha
      cases hp : p.splitOn '/' with
      | nil => exact absurd hp (List.splitOn_ne_nil _ _)
      | cons d ds =>
        rw [hp] at ih
        simp only [List.modifyHead_cons, List.mem_cons, forall_eq_or_imp, not_or]
        refine ⟨⟨fun h => ha (by simp [← h]), ih d (by simp)⟩, fun c hc => ih c (by simp [hc])⟩

lemma no_slash_of_mem_components (h : c ∈ components p) : '/' ∉ c.toList := by
  obtain ⟨d, hd, rfl⟩ := List.mem_map.1 h
  rw [String.toList_ofList]
  exact no_slash_of_mem_splitOn d hd

/-- A component that is passed over by nothing is a name. -/
lemma isName_of_mem_components (h : c ∈ components p) (hne : c ≠ "") (hdot : c ≠ ".")
    (hdots : c ≠ "..") : IsName c := ⟨hne, hdot, hdots, no_slash_of_mem_components h⟩

lemma components_append_slash (p q : String) :
    components (p ++ "/" ++ q) = components p ++ components q := by
  have h : (p ++ "/" ++ q).toList = p.toList ++ '/' :: q.toList := by simp
  rw [components, h, List.splitOn_append_cons_self, List.map_append]
  rfl

lemma components_empty : components "" = [""] := by
  simp [components, List.splitOn_nil]

lemma components_of_no_slash (h : '/' ∉ c.toList) : components c = [c] := by
  rw [components, List.splitOn_eq_singleton h]
  simp

lemma components_intercalate (h : ∀ c ∈ cs, '/' ∉ c.toList) (hne : cs ≠ []) :
    components ("/".intercalate cs) = cs := by
  have hsplit : (['/'].intercalate (cs.map String.toList)).splitOn '/' = cs.map String.toList := by
    refine List.splitOn_intercalate '/' ?_ (by simpa using hne)
    simpa using h
  rw [components, String.toList_intercalate, show "/".toList = ['/'] from rfl, hsplit, List.map_map]
  simp

/-! ## Settling -/

lemma settle_names (h : ∀ c ∈ cs, IsName c) (done : List String) :
    cs.foldl settle done = done ++ cs := by
  induction cs generalizing done with
  | nil => simp
  | cons c cs ih =>
    have hc := h c (by simp)
    have hstep : settle done c = done ++ [c] := by
      simp [settle, hc.ne_empty, hc.ne_dot, hc.ne_dots]
    rw [List.foldl_cons, hstep, ih fun x hx => h x (by simp [hx])]
    simp

lemma isName_settle (h : ∀ c ∈ cs, '/' ∉ c.toList) {done : List String}
    (hdone : ∀ c ∈ done, IsName c) : ∀ c ∈ cs.foldl settle done, IsName c := by
  induction cs generalizing done with
  | nil => exact hdone
  | cons c cs ih =>
    refine ih (fun x hx => h x (by simp [hx])) ?_
    unfold settle
    split
    · exact hdone
    · rename_i hc
      split
      · exact fun x hx => hdone x (List.dropLast_subset _ hx)
      · rename_i hdots
        intro x hx
        rcases List.mem_append.1 hx with hx | hx
        · exact hdone x hx
        · simp only [Bool.or_eq_true, decide_eq_true_eq, not_or] at hc
          rw [List.mem_singleton.1 hx]
          exact ⟨hc.1, hc.2, hdots, h c (by simp)⟩

/-- The names that an absolute path comes down to. -/
def settled (p : String) : List String := (components p).foldl settle []

lemma settled_slash (p : String) : settled ("/" ++ p) = settled p := by
  have h : "/" ++ p = "" ++ "/" ++ p := by simp
  rw [settled, h, components_append_slash, components_empty, List.singleton_append, List.foldl_cons]
  simp [settle, settled]

lemma settled_intercalate (h : ∀ c ∈ cs, IsName c) : settled ("/".intercalate cs) = cs := by
  by_cases hne : cs = []
  · subst hne
    simp [settled, components_empty, settle]
  · rw [settled, components_intercalate (fun c hc => (h c hc).no_slash) hne, settle_names h]
    simp

/-! ## Normal forms -/

namespace Route

variable (l : Route)

lemma toList_path : l.path.toList = l.root.toList ++ ['/'].intercalate
    (l.names.map String.toList) := by
  simp [path, String.toList_intercalate]

/-- Behind the root comes no slash. -/
lemma not_slash_of_names : ¬['/'] <+: ['/'].intercalate (l.names.map String.toList) := by
  cases h : l.names with
  | nil => simp
  | cons c cs =>
    have hc := l.isName c (by simp [h])
    have hne : c.toList ≠ [] := fun hnil => hc.ne_empty (String.toList_eq_nil_iff.1 hnil)
    obtain ⟨a, w, hw⟩ := List.exists_cons_of_ne_nil hne
    have ha : '/' ≠ a := by
      rintro rfl
      exact hc.no_slash (by simp [hw])
    cases cs with
    | nil => simp [hw, ha]
    | cons d ds => simp [List.intercalate_cons_of_ne_nil, hw, ha]

lemma settled_path : settled l.path = l.names := by
  have h := settled_intercalate l.isName
  rw [path]
  rcases l.isRoot with hroot | hroot
  · rw [hroot, settled_slash, h]
  · rw [hroot, show "//" = "/" ++ "/" from rfl, String.append_assoc, settled_slash, settled_slash,
      h]

lemma normal_path : normal l.path = l.path := by
  have hroot : (if l.path.startsWith "//" && !l.path.startsWith "///" then "//" else "/")
    = l.root := by
    have hslash := l.not_slash_of_names
    simp only [Bool.and_eq_true, Bool.not_eq_true', String.startsWith_string_iff,
      String.startsWith_string_eq_false_iff, toList_path]
    rcases l.isRoot with hroot | hroot
    · simpa [hroot] using fun h => absurd h hslash
    · simpa [hroot] using hslash
  have hnames : (components l.path).foldl settle [] = l.names := l.settled_path
  simp only [normal, hroot, hnames]
  rfl

end Route

lemma exists_route_normal (p : String) : ∃ l : Route, normal p = l.path := by
  refine ⟨⟨if p.startsWith "//" && !p.startsWith "///" then "//" else "/", settled p, ?_, ?_⟩, rfl⟩
  · split
    · exact .inr rfl
    · exact .inl rfl
  · exact isName_settle (fun c hc => no_slash_of_mem_components hc) (by simp)

/-! ## One name more -/

lemma endsWith_iff {q : String} : p.endsWith q = true ↔ q.toList <:+ p.toList := by
  rw [← String.endsWith_toSlice, String.Slice.endsWith_string_iff]
  simp

lemma isAbsolute_of_no_slash (hc : '/' ∉ c.toList) : isAbsolute c = false := by
  rw [isAbsolute, String.startsWith_string_eq_false_iff]
  exact fun h => hc (h.subset (by simp))

/-- A text without slashes is the last component wherever it is read from. -/
lemma components_join (start : String) (hc : '/' ∉ c.toList) :
    ∃ cs, components (join start c) = cs ++ [c] := by
  have hrelative := isAbsolute_of_no_slash hc
  have hlast : ∀ p, components (p ++ "/" ++ c) = components p ++ [c] := by
    intro p
    rw [components_append_slash, components_of_no_slash hc]
  rw [join, hrelative]
  by_cases hempty : start = ""
  · exact ⟨[], by simp [hempty, components_of_no_slash hc]⟩
  · by_cases hend : start.endsWith "/" = true
    · obtain ⟨w, hw⟩ := endsWith_iff.1 hend
      have hstart : start = String.ofList w ++ "/" := by
        rw [← String.toList_inj, ← hw]
        simp
      refine ⟨components (String.ofList w), ?_⟩
      simp only [hend, Bool.or_true, if_true, Bool.false_eq_true, if_false]
      rw [hstart, hlast]
    · exact ⟨components start, by simp [hempty, hend, hlast]⟩

/-- A text without slashes, read from its end, is passed over up to the slash before it. -/
lemma reverse_append_slash (p c : String) :
    (p ++ "/" ++ c).toList.reverse = c.toList.reverse ++ '/' :: p.toList.reverse := by
  simp

lemma not_slash_of_mem_reverse (hc : '/' ∉ c.toList) :
    ∀ a ∈ c.toList.reverse, decide (a ≠ '/') = true := by
  intro a ha
  simp only [ne_eq, decide_eq_true_eq]
  rintro rfl
  exact hc (List.mem_reverse.1 ha)

lemma base_append_slash (p : String) (hc : '/' ∉ c.toList) : base (p ++ "/" ++ c) = c := by
  rw [base, reverse_append_slash, List.takeWhile_append_of_pos (not_slash_of_mem_reverse hc)]
  simp

lemma folder_slashes_append (n : Nat) (hc : '/' ∉ c.toList) :
    folder (String.ofList (List.replicate n '/') ++ "/" ++ c) = String.ofList
      (List.replicate (n + 1) '/') := by
  have hall : ('/' :: List.replicate n '/').dropWhile (· = '/') = [] := by simp
  rw [folder, reverse_append_slash, List.dropWhile_append_of_pos (not_slash_of_mem_reverse hc)]
  simp [List.replicate_succ']

lemma folder_append_slash (hp : p.toList = w ++ [a]) (ha : a ≠ '/') (hc : '/' ∉ c.toList) :
    folder (p ++ "/" ++ c) = p := by
  have hback : p = String.ofList (w ++ [a]) := by rw [← hp, String.ofList_toList]
  rw [folder, reverse_append_slash, List.dropWhile_append_of_pos (not_slash_of_mem_reverse hc), hp]
  simp [ha, hback]

/-- A path ends with its last component.  What stands before it is nothing or ends with a slash, so
that another text without slashes would be the last component there as well. -/
lemma exists_lead_of_base (p : String) :
    ∃ (lead : String) (before : List String), p = lead ++ base p ∧
    ∀ c : String, '/' ∉ c.toList → components (lead ++ c) = before ++ [c] := by
  have hsplit := List.takeWhile_append_dropWhile (p := (· ≠ '/')) (l := p.toList.reverse)
  have hp : p.toList = (p.toList.reverse.dropWhile (· ≠ '/')).reverse ++ (base p).toList := by
    rw [base, String.toList_ofList, ← List.reverse_append, hsplit, List.reverse_reverse]
  cases hrest : p.toList.reverse.dropWhile (· ≠ '/') with
  | nil =>
    refine ⟨"", [], ?_, fun c hc => ?_⟩
    · rw [← String.toList_inj, hp, hrest]
      simp
    · simpa using components_of_no_slash hc
  | cons a rest =>
    have ha : a = '/' := by
      have hnot := List.head?_dropWhile_not (· ≠ '/') p.toList.reverse
      rw [hrest] at hnot
      simpa using hnot
    refine ⟨String.ofList rest.reverse ++ "/", components (String.ofList rest.reverse), ?_,
      fun c hc => ?_⟩
    · rw [← String.toList_inj, hp, hrest, ha]
      simp
    · rw [components_append_slash, components_of_no_slash hc]

lemma no_slash_base (p : String) : '/' ∉ (base p).toList := by
  have hall := List.all_eq_true.1 (List.all_takeWhile (p := (· ≠ '/')) (l := p.toList.reverse))
  rw [base, String.toList_ofList, List.mem_reverse]
  intro h
  simpa using hall '/' h

lemma exists_last_base (hp : p.toList = w ++ [a]) (ha : a ≠ '/') :
    ∃ v, (base p).toList = v ++ [a] := by
  refine ⟨(w.reverse.takeWhile (· ≠ '/')).reverse, ?_⟩
  rw [base, String.toList_ofList, hp, List.reverse_append, List.reverse_singleton,
    List.singleton_append,
    List.takeWhile_cons_of_pos (by simpa using ha), List.reverse_cons]

lemma isName_of_last (hc : c.toList = w ++ [a]) (ha : a ≠ '.') (hslash : '/' ∉ c.toList) :
    IsName c := by
  have hne : ∀ d : String, d.toList.getLast? ≠ some a → c ≠ d := by
    rintro d hd rfl
    exact hd (by rw [hc, List.getLast?_concat])
  have hdot : some '.' ≠ some a := fun h => ha (Option.some.inj h).symm
  exact ⟨hne "" (by simp), hne "." hdot, hne ".." hdot, hslash⟩

/-- Where a text is cut off behind its last dot, that dot stands before the cut. -/
lemma exists_front_of_last_dot (h : (w.reverse.takeWhile (· ≠ '.')).reverse.length ≠ w.length) :
    ∃ front, w = front ++ '.' :: (w.reverse.takeWhile (· ≠ '.')).reverse := by
  have hsplit := List.takeWhile_append_dropWhile (p := (· ≠ '.')) (l := w.reverse)
  cases hrest : w.reverse.dropWhile (· ≠ '.') with
  | nil =>
    rw [hrest, List.append_nil] at hsplit
    rw [hsplit] at h
    simp at h
  | cons a rest =>
    have ha : a = '.' := by
      have hnot := List.head?_dropWhile_not (· ≠ '.') w.reverse
      rw [hrest] at hnot
      simpa using hnot
    refine ⟨rest.reverse, ?_⟩
    rw [hrest, ha] at hsplit
    simpa using (congrArg List.reverse hsplit).symm

/-- A path without an extension is its own stem; otherwise the extension starts with a dot and
stands behind the stem. -/
lemma splitExtension_cases (p : String) : splitExtension p = (p, "") ∨
    ∃ stem extension : String, p = stem ++ "." ++ extension ∧
      splitExtension p = (stem, "." ++ extension) := by
  unfold splitExtension
  extract_lets name before dots rest after
  split
  · exact .inl rfl
  · rename_i hlength
    have hname : p.toList = before ++ name := by
      obtain ⟨lead, -, hlead, -⟩ := exists_lead_of_base p
      have hp : p.toList = lead.toList ++ name := by rw [← String.toList_append, ← hlead]
      have hbefore : before = lead.toList := by
        simp only [before, ← String.length_toList, hp, List.length_append, Nat.add_sub_cancel,
          List.take_left]
      rw [hbefore, hp]
    obtain ⟨front, hrest⟩ : ∃ front, rest = front ++ '.' :: after :=
      exists_front_of_last_dot hlength
    have hfront : rest.take (rest.length - after.length - 1) = front := by
      have hlengths := congrArg List.length hrest
      rw [List.length_append, List.length_cons] at hlengths
      have hcount : rest.length - after.length - 1 = front.length := by omega
      rw [hcount, hrest, List.take_left]
    have hparts : dots ++ rest = name := List.takeWhile_append_dropWhile
    refine .inr ⟨String.ofList (before ++ dots ++ front), String.ofList after, ?_, ?_⟩
    · rw [← String.toList_inj, hname, ← hparts, hrest]
      simp
    · rw [hfront, String.ofList_cons]
      rfl

/-- The stem of a path keeps what stands before the last component, and a part of that component. -/
lemma splitExtension_append {lead : String} (h : base (lead ++ c) = c) :
    ∃ stem : String, stem.toList ⊆ c.toList ∧ (splitExtension (lead ++ c)).1 = lead ++ stem := by
  have hbefore : (lead ++ c).toList.take ((lead ++ c).length - c.toList.length) = lead.toList := by
    rw [← String.length_toList, String.toList_append, List.length_append, Nat.add_sub_cancel,
      List.take_left]
  unfold splitExtension
  simp only [h, hbefore]
  split
  · exact ⟨c, fun _ h => h, rfl⟩
  · let rest := c.toList.dropWhile (· = '.')
    let after := (rest.reverse.takeWhile (· ≠ '.')).reverse
    refine ⟨String.ofList (c.toList.takeWhile (· = '.') ++ rest.take
      (rest.length - after.length - 1)), ?_, ?_⟩
    · rw [String.toList_ofList]
      refine List.append_subset.2 ⟨(List.takeWhile_prefix _).subset, ?_⟩
      exact fun a ha => (List.dropWhile_suffix _).subset (List.take_subset _ _ ha)
    · show String.ofList (lead.toList ++ c.toList.takeWhile (· = '.') ++ rest.take _) = _
      rw [List.append_assoc, String.ofList_append, String.ofList_toList]

namespace Route

variable (l : Route) (hc : IsName c)

lemma path_of_nil (h : l.names = []) : l.path = l.root := by
  simp [path, h]

lemma path_child_of_nil (h : l.names = []) : (l.child c hc).path = l.root ++ c := by
  simp [path, child, h]

lemma path_child_of_ne_nil (h : l.names ≠ []) : (l.child c hc).path = l.path ++ "/" ++ c := by
  simp only [path, child]
  rw [String.intercalate_append_of_ne_nil h (by simp), String.intercalate_singleton]
  simp [String.append_assoc]

/-- The path of a route with names ends with a letter of the last of them. -/
lemma exists_last_path (h : l.names ≠ []) : ∃ w a, l.path.toList = w ++ [a] ∧ a ≠ '/' := by
  rcases l.root_or_child with hnil | ⟨l', d, hd, rfl⟩
  · exact absurd hnil h
  · have hend : ∃ p, (l'.child d hd).path = p ++ d := by
      by_cases hnil : l'.names = []
      · exact ⟨_, l'.path_child_of_nil hd hnil⟩
      · exact ⟨_, l'.path_child_of_ne_nil hd hnil⟩
    obtain ⟨p, hp⟩ := hend
    rcases List.eq_nil_or_concat d.toList with hnil | ⟨v, a, hv⟩
    · exact absurd (String.toList_eq_nil_iff.1 hnil) hd.ne_empty
    · refine ⟨p.toList ++ v, a, by simp [hp, hv], ?_⟩
      rintro rfl
      exact hd.no_slash (by simp [hv])

lemma endsWith_slash_path : l.path.endsWith "/" = true ↔ l.names = [] := by
  rw [endsWith_iff]
  by_cases h : l.names = []
  · rw [path_of_nil l h]
    rcases l.isRoot with hroot | hroot
    · simp [h, hroot]
    · simp [h, hroot]
  · obtain ⟨w, a, hw, ha⟩ := l.exists_last_path h
    have hlast : ¬['/'] <:+ w ++ [a] := by
      rintro ⟨v, hv⟩
      exact ha (List.append_inj' hv rfl |>.2 |> List.singleton_inj.1 |>.symm)
    simpa [h, hw] using hlast

lemma isAbsolute_path : isAbsolute l.path = true := by
  rw [isAbsolute, String.startsWith_string_iff, toList_path]
  rcases l.isRoot with hroot | hroot <;> simp [hroot]

lemma join_path (start : String) : join start l.path = l.path := by
  simp [join, isAbsolute_path]

lemma path_child : (l.child c hc).path = join l.path c := by
  have hrelative := isAbsolute_of_no_slash hc.no_slash
  have hsome : l.path.isEmpty = false := by
    rw [Bool.eq_false_iff, ne_eq, String.isEmpty_iff]
    intro h
    have habs := l.isAbsolute_path
    rw [h] at habs
    exact absurd habs (by decide)
  by_cases h : l.names = []
  · have hend := l.endsWith_slash_path.2 h
    rw [path_child_of_nil l hc h, ← path_of_nil l h]
    simp [join, hrelative, hend]
  · have hend : ¬l.path.endsWith "/" = true := fun h' => h (l.endsWith_slash_path.1 h')
    rw [path_child_of_ne_nil l hc h]
    simp [join, hrelative, hend, hsome]

lemma base_child : base (l.child c hc).path = c := by
  by_cases h : l.names = []
  · rw [path_child_of_nil l hc h]
    rcases l.isRoot with hroot | hroot
    · rw [hroot, show "/" = "" ++ "/" from rfl]
      exact base_append_slash "" hc.no_slash
    · rw [hroot, show "//" = "/" ++ "/" from rfl]
      exact base_append_slash "/" hc.no_slash
  · rw [path_child_of_ne_nil l hc h]
    exact base_append_slash _ hc.no_slash

lemma folder_child : folder (l.child c hc).path = l.path := by
  by_cases h : l.names = []
  · rw [path_child_of_nil l hc h, path_of_nil l h]
    rcases l.isRoot with hroot | hroot
    · rw [hroot]
      exact folder_slashes_append 0 hc.no_slash
    · rw [hroot]
      exact folder_slashes_append 1 hc.no_slash
  · obtain ⟨w, a, hw, ha⟩ := l.exists_last_path h
    rw [path_child_of_ne_nil l hc h]
    exact folder_append_slash hw ha hc.no_slash

/-- What stands before the last name does not depend on it. -/
lemma exists_lead : ∃ lead : String, ∀ (c : String) (hc : IsName c),
    (l.child c hc).path = lead ++ c := by
  by_cases h : l.names = []
  · exact ⟨l.root, fun c hc => l.path_child_of_nil hc h⟩
  · exact ⟨l.path ++ "/", fun c hc => l.path_child_of_ne_nil hc h⟩

/-- Taking away the extension leaves a stem of the last name, and what stands before it. -/
lemma exists_stem : ∃ stem : String, '/' ∉ stem.toList ∧
    ∀ (ending : String) (h : IsName (stem ++ ending)),
      (splitExtension (l.child c hc).path).1 ++ ending = (l.child (stem ++ ending) h).path := by
  obtain ⟨lead, hlead⟩ := l.exists_lead
  have hbase : base (lead ++ c) = c := by rw [← hlead c hc, base_child]
  obtain ⟨stem, hstem, heq⟩ := splitExtension_append hbase
  refine ⟨stem, fun h => hc.no_slash (hstem h), fun ending h => ?_⟩
  rw [hlead c hc, heq, hlead _ h, String.append_assoc]

end Route

end AudLang.Path
