import AudLang.Proofs.TypeSoundness

/-!
Kinds of values.

In a program that may use all of the language, null stands for many things and files change behind
the back of their variables.  Still the checker is right about the simple kinds: a variable of type
int, float or bool always holds a value of this kind, and a variable of type string a string or
null.  This is what `Store.Suits` says, and it says nothing of files, folders and audio.

The laws of a discipline hold for it without any condition on the program (`Discipline.kinds`).
-/

namespace AudLang

open Run

variable {v w z : Value} {b : Base} {f type : String} {s : Store} {op : BinaryOp} {o : FileObject}
  {args : List Ref}

/-! ## Cells -/

/-- Is nothing said of the cells of a type with this base? -/
def Base.isLoose : Base → Bool
  | .void | .file | .folder | .audio | .other _ => true
  | _ => false

/-- Is the value of the kind that the base names, or null where null may stand for it? -/
def Value.suits : Value → Base → Bool
  | .int _, .int | .float _, .float | .bool _, .bool | .string _, .string => true
  | .null, .string | .null, .list | .null, .null => true
  | _, _ => false

/-- The cell holds what a variable of the type may hold. -/
inductive Store.Suits (s : Store) : Ref → Ty → Prop
  | loose (r : Ref) {b : Base} (e : Ty) (hb : b.isLoose = true) : Suits s r (.of b e)
  | value {r : Ref} {b : Base} (e : Ty) (hr : r < s.next) (h : (s.get r).suits b = true) :
      Suits s r (.of b e)
  | list {r : Ref} {type : String} {rs : List Ref} {e : Ty} (hr : r < s.next)
      (h : s.get r = .list type rs) (hes : ∀ q ∈ rs, Suits s q e) : Suits s r (.list e)

/-- A value that is written over another of its kind suits the same bases. -/
lemma Value.suits_of_fits (h : v.fits w = true) (hv : v.suits b = true) : w.suits b = true := by
  cases v <;> cases w <;> first | exact absurd h Bool.false_ne_true | (cases b <;> exact hv)

/-- Two values of one kind fit, unless one of them is null. -/
lemma Value.fits_of_suits (hv : v.suits b = true) (hw : w.suits b = true) (hv' : v.isNull = false)
    (hw' : w.isNull = false) : v.fits w = true := by
  cases v <;> cases b <;> try first | (cases hv; done) | (cases hv'; done)
  all_goals cases w <;> first | rfl | (cases hw; done) | cases hw'

lemma Value.isFixed_of_suits (h : v.suits b = true) : v.isFixed = true := by
  cases v <;> first | rfl | cases h

namespace Store.Suits

variable {s' : Store} {r q : Ref} {t u : Ty}

/-- Cells go on to suit their types as long as the values in them stay what they are or are written
over by values of their kind. -/
lemma of_alike (h : s.Suits r t) (hn : s.next ≤ s'.next)
    (hv : ∀ r, r < s.next → (s.get r).isFixed = true → s'.get r = s.get r ∨
      (s.get r).fits (s'.get r) = true) :
    s'.Suits r t := by
  induction h with
  | loose r e hb => exact .loose r e hb
  | @value r b e hr h =>
    refine .value e (Nat.lt_of_lt_of_le hr hn) ?_
    rcases hv r hr (Value.isFixed_of_suits h) with heq | hfits
    · rw [heq]
      exact h
    · exact Value.suits_of_fits hfits h
  | list hr h hes ih =>
    rcases hv _ hr (by rw [h]; rfl) with heq | hfits
    · exact .list (Nat.lt_of_lt_of_le hr hn) (heq.trans h) ih
    · rw [h] at hfits
      cases hfits

lemma of_keeps (h : s.Suits r t) (hs : s.Keeps s') : s'.Suits r t :=
  h.of_alike hs.next fun r hr hfixed => .inl ((hs.get r hr).eq_of_isFixed hfixed)

lemma of_put (h : s.Suits r t) {target : Ref} (hfits : (s.get target).fits v = true) :
    (s.put target v).Suits r t := by
  refine h.of_alike (by simp) fun r hr _ => ?_
  by_cases hne : r = target
  · subst hne
    rw [Store.get_put_self hr]
    exact .inr hfits
  · exact .inl (Store.get_put_of_ne hne v)

lemma of_push (e : Ty) (h : v.suits b = true) : (s.push v).Suits s.next (.of b e) :=
  .value e (by simp) (by rw [Store.get_push_next]; exact h)

lemma of_literal (h : v.Literal t) : (s.push v).Suits s.next t := by
  cases h with
  | void => exact .loose _ _ rfl
  | _ => exact .of_push _ rfl

lemma of_elements {rs : List Ref} (h : ∀ r ∈ rs, s.Suits r t) :
    (s.push (.list type rs)).Suits s.next (.list t) :=
  .list (by simp) (s.get_push_next _) fun r hr => (h r hr).of_keeps (s.keeps_push _)

lemma of_loose (rs : List Ref) (hb : b.isLoose = true) :
    (s.push (.list type rs)).Suits s.next (.list (.plain b)) :=
  .of_elements fun r _ => .loose r _ hb

lemma push_copy (h : s.Suits r t) (hs : (s.get r).isSimple = true) :
    (s.push (s.get r)).Suits s.next t := by
  cases h with
  | loose e hb => exact .loose _ _ ‹_›
  | value e _ h => exact .of_push e h
  | list _ h => rw [h] at hs; cases hs

lemma value_of_base (h : s.Suits r t) (ht : t.hasBase b = true) (hb : b.isLoose = false)
    (hl : b ≠ .list) : r < s.next ∧ (s.get r).suits b = true := by
  obtain _ | ⟨a, e⟩ := t
  · cases ht
  · obtain rfl : a = b := by simpa [Ty.hasBase, Ty.base?] using ht
    cases h with
    | loose _ _ h => rw [hb] at h; cases h
    | value _ hr h => exact ⟨hr, h⟩
    | list => exact absurd rfl hl

lemma of_accepts (h : s.Suits r u) : ∀ {t : Ty}, t.accepts u = .ok true → s.Suits r t := by
  induction h with
  | @loose r b e hb =>
    intro t ht
    cases t with
    | absent => cases ht
    | of a f =>
      by_cases haudio : b = .audio
      · subst haudio
        have ha : a.isLoose = true := by
          cases a <;> first | rfl | simp [Ty.accepts, Base.isNullable] at ht
        exact .loose r f ha
      · have hnull : b ≠ .null := by rintro rfl; cases hb
        obtain ⟨rfl, -⟩ := Ty.base_of_accepts ht hnull haudio
        exact .loose r f hb
  | @value r b e hr h =>
    intro t ht
    cases t with
    | absent => cases ht
    | of a f =>
      by_cases hnull : b = .null
      · subst hnull
        have hget : s.get r = .null := by cases hv : s.get r <;> simp_all [Value.suits]
        cases a with
        | void | file | folder | audio | other => exact .loose r f rfl
        | string | null | list => exact .value f hr (by rw [hget]; rfl)
        | int | float | bool => simp [Ty.accepts, Base.isNullable] at ht
      · have haudio : b ≠ .audio := by rintro rfl; cases hv : s.get r <;> simp_all [Value.suits]
        obtain ⟨rfl, -⟩ := Ty.base_of_accepts ht hnull haudio
        exact .value f hr h
  | list hr h _ ih =>
    intro t ht
    cases t with
    | absent => cases ht
    | of a f =>
      obtain ⟨rfl, he⟩ := Ty.base_of_accepts ht (by simp) (by simp)
      exact .list hr h fun q hq => ih q hq (he rfl)

end Store.Suits

/-! ## Steps -/

namespace Run

variable {m : Machine} {r q p : Ref} {pos : Position} {t u : Ty}

lemma operate_compares (hop : op.isOrder = true ∨ op = .equals ∨ op = .notEquals)
    (h : s.operate op v w = .ok (some z)) : z.suits .bool = true := by
  have hints {a b : Int} (h : op.onInts a b = some z) : z.suits .bool = true := by
    cases op <;> simp [BinaryOp.isOrder] at hop <;> cases h <;> rfl
  have hfloats {x y : Float} (h : op.onFloats x y = some z) : z.suits .bool = true := by
    cases op <;> simp [BinaryOp.isOrder] at hop <;> cases h <;> rfl
  have hequality {equal : Bool} (h : op.onEquality equal = some z) : z.suits .bool = true := by
    cases op <;> cases h <;> rfl
  unfold Store.operate at h
  split at h
  · exact hints (Except.ok.inj h)
  · obtain ⟨x, -, h⟩ := answer_of_bind h
    exact hfloats (Except.ok.inj h)
  · obtain ⟨x, -, h⟩ := answer_of_bind h
    exact hfloats (Except.ok.inj h)
  · exact hfloats (Except.ok.inj h)
  · cases op <;> simp [BinaryOp.isOrder] at hop <;> cases h <;> rfl
  · exact hequality (Except.ok.inj h)
  · split at h
    · exact hequality (Except.ok.inj h)
    · cases h

lemma operate_computes (hop : op.isArithmetic = true) (hb : b = .int ∨ b = .float)
    (hv : v.suits b = true)
    (hw : w.suits b = true) (h : s.operate op v w = .ok (some z)) : z.suits b = true := by
  rcases hb with rfl | rfl
  · obtain ⟨n, rfl⟩ : ∃ n, v = .int n := by cases v <;> first | exact ⟨_, rfl⟩ | cases hv
    obtain ⟨k, rfl⟩ : ∃ k, w = .int k := by cases w <;> first | exact ⟨_, rfl⟩ | cases hw
    cases op <;> first | (cases h; rfl) | cases hop
  · obtain ⟨x, rfl⟩ : ∃ x, v = .float x := by cases v <;> first | exact ⟨_, rfl⟩ | cases hv
    obtain ⟨y, rfl⟩ : ∃ y, w = .float y := by cases w <;> first | exact ⟨_, rfl⟩ | cases hw
    cases op <;> first | (cases h; rfl) | cases hop

lemma operate_joins (hv : v.suits .string = true) (hw : w.suits .string = true)
    (h : s.operate .add v w = .ok (some z)) : z.suits .string = true := by
  have hcases {v : Value} (hv : v.suits .string = true) : (∃ d, v = .string d) ∨ v = .null := by
    cases v <;> first | exact .inl ⟨_, rfl⟩ | exact .inr rfl | cases hv
  rcases hcases hv with ⟨d, rfl⟩ | rfl
  · rcases hcases hw with ⟨d', rfl⟩ | rfl
    · obtain ⟨joined, -, h⟩ := answer_of_bind h
      obtain ⟨text, -, rfl⟩ := Option.map_eq_some_iff.1 (Except.ok.inj h)
      rfl
    · cases h
  · rcases hcases hw with ⟨d', rfl⟩ | rfl <;> cases h

lemma operate_suits {l : Ty} (hop : l.Operable u op t) (hq : m.store.Suits q l)
    (hp : m.store.Suits p u) :
    Ends (operate op q p pos m) (fun _ m' => m'.store.Suits m'.last t) fun _ _ => True := by
  -- whatever value comes out is of the kind that the type asks for
  have hresult (z : Value) (h : m.store.operate op (m.store.get q) (m.store.get p) = .ok (some z)) :
      (m.store.push z).Suits m.store.next t := by
    cases hop with
    | @arithmetic _ b hop hb hl hr =>
      have hloose : b.isLoose = false := by rcases hb with rfl | rfl <;> rfl
      have hlist : b ≠ .list := by rcases hb with rfl | rfl <;> simp
      exact .of_push _ (operate_computes hop hb (hq.value_of_base hl hloose hlist).2
        (hp.value_of_base hr hloose hlist).2 h)
    | join hl hr =>
      exact .of_push _ (operate_joins (hq.value_of_base hl rfl (by simp)).2
        (hp.value_of_base hr rfl (by simp)).2 h)
    | order hop => exact .of_push _ (operate_compares (.inl hop) h)
    | equality hop => exact .of_push _ (operate_compares (.inr hop) h)
  have hgive {k : Option Value → Run Unit} (hsome : ∀ z, k (some z) = give z)
      (hnone : k none = fail (.badOperands op (m.store.get q).typeName (m.store.get p).typeName)
        pos) :
      Ends ((ask (m.store.operate op (m.store.get q) (m.store.get p)) >>= k) m)
        (fun _ m' => m'.store.Suits m'.last t) fun _ _ => True := by
    cases hz : m.store.operate op (m.store.get q) (m.store.get p) with
    | error f => trivial
    | ok z =>
      rw [bind_run, ask, pure_run]
      dsimp only
      cases z with
      | none => rw [hnone]; trivial
      | some z => rw [hsome]; exact hresult z hz
  simp only [operate, value, bind_run, get_run, pure_run]
  split
  · simp only [datum, value, bind_run, get_run, pure_run]
    cases (m.store.get p).datum? with
    | none => trivial
    | some d =>
      simp only [pure_run]
      split
      · trivial
      · exact hgive (fun _ => rfl) rfl
  · exact hgive (fun _ => rfl) rfl

lemma negate_suits (h : t.hasBase .int = true ∧ u = .int ∨ t.hasBase .float = true ∧ u = .float)
    (hr : m.store.Suits r t) :
    Ends (negate r pos m) (fun _ m' => m'.store.Suits m'.last u) fun _ _ => True := by
  rcases h with ⟨ht, rfl⟩ | ⟨ht, rfl⟩
  · obtain ⟨-, hv⟩ := hr.value_of_base ht rfl (by simp)
    simp only [negate, value, bind_run, get_run, pure_run]
    cases h : m.store.get r with
    | int n => exact Store.Suits.of_push _ rfl
    | _ => rw [h] at hv; cases hv
  · obtain ⟨-, hv⟩ := hr.value_of_base ht rfl (by simp)
    simp only [negate, value, bind_run, get_run, pure_run]
    cases h : m.store.get r with
    | float x => exact Store.Suits.of_push _ rfl
    | _ => rw [h] at hv; cases hv

lemma alloc_suits (e : Ty) (h : v.suits b = true) (m : Machine) :
    Ends (alloc v m) (fun q m' => m'.store.Suits q (.of b e)) fun _ _ => True :=
  Store.Suits.of_push e h

lemma ends_loose (x : Run Ref) (e : Ty) (hb : b.isLoose = true) (m : Machine) :
    Ends (x m) (fun q m' => m'.store.Suits q (.of b e)) fun _ _ => True := by
  cases x m with
  | ok q m' => exact .loose q e hb
  | error => trivial

/-! ### Attributes -/

lemma listFiles_suits (r : Ref) (d : FolderObject) (p : Position) (m : Machine) :
    Ends (listFiles r d p m) (fun q m' => m'.store.Suits q (.list .file)) fun _ _ => True :=
  Ends.bind_last fun _ _ => Ends.bind_last fun _ _ => Ends.bind_last fun rs _ =>
    Store.Suits.of_loose rs rfl

lemma listFolders_suits (d : FolderObject) (p : Position) (m : Machine) :
    Ends (listFolders d p m) (fun q m' => m'.store.Suits q (.list .folder)) fun _ _ => True :=
  Ends.bind_last fun _ _ => Ends.bind_last fun _ _ => Ends.bind_last fun rs _ =>
    Store.Suits.of_loose rs rfl

lemma listAudio_suits (r : Ref) (d : FolderObject) (p : Position) (m : Machine) :
    Ends (listAudio r d p m) (fun q m' => m'.store.Suits q (.list .audio)) fun _ _ => True :=
  Ends.bind_last fun _ _ => Ends.bind_last fun _ _ => Ends.bind_last fun rs _ =>
    Store.Suits.of_loose rs rfl

lemma folderName_suits (d : FolderObject) (m : Machine) :
    Ends (folderName d m) (fun q m' => m'.store.Suits q .string) fun _ _ => True := by
  unfold folderName
  split
  · exact alloc_suits _ rfl m
  · exact alloc_suits _ rfl m

/-- The properties that there are, whatever has them. -/
inductive IsProperty : String → Ty → Prop
  | filename : IsProperty "filename" .string
  | parent : IsProperty "parent" .folder
  | isRoot : IsProperty "is_root" .bool
  | name : IsProperty "name" .string
  | files : IsProperty "files" (.list .file)
  | subfolders : IsProperty "subfolders" (.list .folder)
  | length : IsProperty "length" .int
  | bitrate : IsProperty "bitrate" .int
  | title : IsProperty "title" .string

lemma IsProperty.of_property (h : t.property? f = some u) : IsProperty f u := by
  have hfile (h : Ty.fileProperty? f = some u) : IsProperty f u := by
    unfold Ty.fileProperty? at h
    split at h <;> cases h <;> constructor
  unfold Ty.property? at h
  split at h
  · exact hfile h
  · unfold Ty.folderProperty? at h
    split at h <;> cases h <;> constructor
  · cases ha : Ty.audioProperty? f with
    | none =>
      rw [ha] at h
      exact hfile h
    | some u' =>
      rw [ha] at h
      cases h
      unfold Ty.audioProperty? at ha
      split at ha <;> cases ha <;> constructor
  · cases h

lemma fileAttribute_suits (h : IsProperty f u) (m : Machine) :
    Ends (fileAttribute v o f pos m) (fun q m' => m'.store.Suits q u) fun _ _ => True := by
  refine Ends.bind_last fun _ m => ?_
  cases h with
  | filename => exact alloc_suits _ rfl m
  | parent => exact ends_loose _ _ rfl m
  | _ => trivial

lemma audioAttribute_suits {a : Recording} (h : IsProperty f u) (m : Machine) :
    Ends (audioAttribute o a f pos m) (fun q m' => m'.store.Suits q u) fun _ _ => True := by
  refine Ends.bind_last fun _ m => ?_
  cases h with
  | length | bitrate | title => exact alloc_suits _ rfl m
  | _ => exact fileAttribute_suits (by constructor) m

lemma folderAttribute_suits {d : FolderObject} (h : IsProperty f u) (m : Machine) :
    Ends (folderAttribute r d f pos m) (fun q m' => m'.store.Suits q u) fun _ _ => True := by
  refine Ends.bind_last fun _ m => ?_
  cases h with
  | isRoot => exact alloc_suits _ rfl m
  | name => exact folderName_suits d m
  | files => exact listFiles_suits r d pos m
  | subfolders => exact listFolders_suits d pos m
  | _ => trivial

lemma getAttribute_suits (h : IsProperty f u) (m : Machine) :
    Ends (getAttribute r f pos m) (fun q m' => m'.store.Suits q u) fun _ _ => True := by
  refine Ends.bind_last fun v m => ?_
  cases v with
  | file o => exact fileAttribute_suits h m
  | audio o a => exact audioAttribute_suits h m
  | folder d => exact folderAttribute_suits h m
  | _ => trivial

/-! ### Methods -/

/-- The methods of files, folders and audio from which something follows for their results. -/
inductive IsMethod : String → Ty → Prop
  | filename : IsMethod "get_filename" .string
  | name : IsMethod "get_name" .string
  | files : IsMethod "list_files" (.list .file)
  | subfolders : IsMethod "list_subfolders" (.list .folder)
  | audio : IsMethod "list_audio" (.list .audio)

lemma callFile_suits (h : IsMethod f u) (m : Machine) :
    Ends (callFile r v o f args pos m) (fun q m' => m'.store.Suits q u) fun _ _ => True := by
  refine Ends.bind_last fun _ m => ?_
  cases h with
  | filename =>
    simp only
    split
    · exact alloc_suits _ rfl m
    · trivial
  | _ => trivial

lemma callAudio_suits {a : Recording} (h : IsMethod f u) (m : Machine) :
    Ends (callAudio r o a f args pos m) (fun q m' => m'.store.Suits q u) fun _ _ => True := by
  refine Ends.bind_last fun _ m => Ends.bind_last fun loaded m => ?_
  cases loaded with
  | error e => cases e <;> trivial
  | ok s =>
    cases h <;> exact callFile_suits (by constructor) m

lemma callFolder_suits {d : FolderObject} (h : IsMethod f u) (m : Machine) :
    Ends (callFolder r d f args pos m) (fun q m' => m'.store.Suits q u) fun _ _ => True := by
  refine Ends.bind_last fun _ m => ?_
  cases h with
  | filename => trivial
  | name => exact folderName_suits d m
  | files => exact listFiles_suits r d pos m
  | subfolders => exact listFolders_suits d pos m
  | audio => exact listAudio_suits r d pos m

lemma callMethod_suits (h : IsMethod f u) (m : Machine) :
    Ends (callMethod r f args pos m) (fun q m' => m'.store.Suits q u) fun _ _ => True := by
  refine Ends.bind_last fun v m => ?_
  cases v with
  | file o => exact callFile_suits h m
  | audio o a => exact callAudio_suits h m
  | folder d => exact callFolder_suits h m
  | list type es => cases h <;> trivial
  | _ => trivial

/-- An element of a list suits the type of the elements. -/
lemma getElement_suits {elements : List Ref} (hes : ∀ q ∈ elements, m.store.Suits q t) :
    Ends (getElement elements args pos m) (fun q m' => m'.store.Suits q t) fun _ _ => True := by
  unfold getElement
  split
  · rename_i a
    rw [bind_of_ok (show value a m = .ok (m.store.get a) m from rfl)]
    cases m.store.get a with
    | int i =>
      simp only
      cases hget : (if 0 ≤ i then elements[i.toNat]? else none) with
      | none =>
        simp only [bind_run]
        generalize ask (Datum.int i).toText m = shown
        cases shown <;> trivial
      | some q =>
        refine hes q ?_
        split at hget
        · exact List.mem_of_getElem? hget
        · cases hget
    | _ => trivial
  · trivial

lemma listMethod_suits {e : Ty} {g : Signature} {o : Position} (h : Ty.listMethod? e f = some g)
    (hr : m.store.Suits r (.list e)) :
    Ends ((do requireObject r f o; callMethod r f args pos) m)
      (fun q m' => m'.store.Suits q g.returns) fun _ _ => True := by
  cases hr with
  | loose _ _ hb => cases hb
  | value _ _ hv =>
    have hnull : m.store.get r = .null := by cases hv' : m.store.get r <;> simp_all [Value.suits]
    simp only [requireObject, value, bind_run, get_run, pure_run, hnull]
    trivial
  | list _ hget hes =>
    rw [bind_of_ok (requireObject_list hget f o)]
    simp only [callMethod, value, bind_run, get_run, pure_run, hget]
    unfold Ty.listMethod? at h
    split at h <;> cases h
    · exact getElement_suits hes
    · unfold callList
      simp only
      split
      · exact alloc_suits _ rfl m
      · trivial

lemma method_suits {g : Signature} {o : Position} (h : t.method? f = some g)
    (hr : m.store.Suits r t) :
    Ends ((do requireObject r f o; callMethod r f args pos) m)
      (fun q m' => m'.store.Suits q g.returns) fun _ _ => True := by
  have hfile (h : Ty.fileMethod? f = some g) :
      Ends ((do requireObject r f o; callMethod r f args pos) m)
        (fun q m' => m'.store.Suits q g.returns)
        fun _ _ => True := by
    unfold Ty.fileMethod? at h
    split at h <;> cases h
    · exact Ends.bind_last fun _ m => callMethod_suits .filename m
    all_goals exact ends_loose _ _ rfl m
  unfold Ty.method? at h
  split at h
  · rename_i hb
    obtain _ | ⟨b, e⟩ := t
    · cases hb
    · cases hb
      exact listMethod_suits h hr
  · exact hfile h
  · unfold Ty.folderMethod? at h
    split at h <;> cases h
    case h_4 => exact Ends.bind_last fun _ m => callMethod_suits .files m
    case h_5 => exact Ends.bind_last fun _ m => callMethod_suits .subfolders m
    case h_6 => exact Ends.bind_last fun _ m => callMethod_suits .audio m
    case h_8 => exact Ends.bind_last fun _ m => callMethod_suits .name m
    all_goals exact ends_loose _ _ rfl m
  · cases ha : Ty.audioMethod? f with
    | none =>
      rw [ha] at h
      exact hfile h
    | some g' =>
      rw [ha] at h
      cases h
      unfold Ty.audioMethod? at ha
      split at ha <;> cases ha <;> exact ends_loose _ _ rfl m
  · cases h

/-! ### Functions and returns -/

lemma guarded_suits {x : Run Ref}
    (hx : ∀ m, Ends (x m) (fun q m' => m'.store.Suits q t) fun _ _ => True)
    (m : Machine) : Ends (guarded f pos x m) (fun q m' => m'.store.Suits q t) fun _ _ => True := by
  have h := hx m
  rw [guarded, tryCatch_run]
  cases hr : x m with
  | ok q m' => rw [hr] at h; exact h
  | error e m' =>
    cases e with
    | failed e p => cases p <;> trivial
    | fault f => trivial
    | exhausted => trivial

lemma perform_suits (b : Builtin) (args : List Ref) (m : Machine) :
    Ends (perform b args pos m) (fun q m' => m'.store.Suits q b.signature.returns) fun _ _ =>
      True := by
  unfold perform
  split
  case h_1 | h_10 | h_11 => exact ends_loose _ _ rfl m
  case h_2 | h_9 => exact Ends.bind_last fun _ m => alloc_suits _ rfl m
  case h_12 => trivial
  all_goals exact Ends.bind_last fun _ m => Ends.bind_last fun _ m => alloc_suits _ rfl m

lemma construct_suits {id : String} (m : Machine) :
    Ends (construct id args pos m) (fun _ m' => m'.store.Suits m'.last (.named id .absent))
      fun _ _ => True := by
  have hloose (x : Run Unit) {b : Base} (hb : b.isLoose = true) :
      Ends (x m) (fun _ m' => m'.store.Suits m'.last (.plain b)) fun _ _ => True := by
    cases x m with
    | ok _ m' => exact .loose _ _ hb
    | error => trivial
  unfold construct
  split
  · exact hloose _ rfl
  · exact hloose _ rfl
  · exact hloose _ rfl
  · trivial

lemma takeReturned_suits {returns : Node} {id : String} {returned : Option Ref}
    (ht : returns.IsType)
    (htype : returns.returnTypeName = .ok type)
    (hr : ∀ r, returned = some r → m.store.Suits r returns.declaredType) :
    Ends (takeReturned id type pos returned m)
      (fun _ m' => m'.store.Suits m'.last returns.declaredType) fun _ _ => True := by
  by_cases hvoid : type = "void"
  · rw [Node.IsType.declaredType_of_void ht (hvoid ▸ htype)]
    cases takeReturned id type pos returned m with
    | ok _ m' => exact .loose _ _ rfl
    | error => trivial
  · cases returned with
    | none =>
      unfold takeReturned
      rw [if_neg hvoid]
      trivial
    | some r => exact takeReturned_some (D := (·.Suits · _)) hvoid (hr r rfl) (hr r rfl).push_copy

end Run

/-- Variables hold what suits their types, in all programs. -/
def Discipline.kinds (fuel : Nat) : Discipline fuel where
  describes := Store.Suits
  evolves := fun s s' => ∀ r t, s.Suits r t → s'.Suits r t
  allows := fun _ _ => True
  excuses := fun _ _ => True
  evolves_trans := fun h h' r t hr => h' r t (h r t hr)
  evolves_of_keeps := fun h _ _ hr => hr.of_keeps h
  evolves_put := fun _ hfits _ _ hr => hr.of_put hfits
  describes_of_evolves := fun h hr => h _ _ hr
  describes_of_accepts := fun h hr => hr.of_accepts h
  describes_literal := .of_literal
  describes_null := fun _ => .of_push _ rfl
  describes_list := .of_elements
  allows_below := fun _ _ => trivial
  operate := fun _ hand hor _ _ _ hop hq hp =>
    operate_suits (Ty.operable_of_operation hand hor hop) hq hp
  negate := fun h hr => negate_suits h hr
  member := fun h _ => Ends.bind_last fun _ m => getAttribute_suits (.of_property h) m
  excuses_readOnly := fun _ _ => trivial
  method := fun _ _ _ _ h hr _ => method_suits h hr
  construct := fun _ _ _ _ => construct_suits _
  builtin := fun _ => guarded_suits (fun m => perform_suits _ _ m) _
  takeReturned := fun ht htype hr => takeReturned_suits ht htype hr
  excuses_tooDeep := trivial
  excuses_exhausted := fun _ => trivial

end AudLang
