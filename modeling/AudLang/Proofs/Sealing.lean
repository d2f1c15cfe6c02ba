import AudLang.Proofs.Returning

/-!
Cells that are sealed off.

What an expression computes lives in a new cell, and nobody names this cell until a declaration, an
assignment, a list or a return does.  As long as nobody does, no part of a program can get at the
cell, whatever functions are called: it is sealed off.
-/

namespace AudLang

open Run Moment

variable {a : Recording} {r : Ref} {args : List Ref} {i : Nat} {name operation path : String}
  {p : Position}
  {f : FileObject} {d : FolderObject} {v : Value} {s : Segment} {promised : Prop} {m m' : Machine}
  {parent : Option Ref}

/-! ## Values and machines -/

/-- The cells that a program gets at through a value: the elements of a list and the folder of a
file.  The files that a folder keeps track of are not among them. -/
def Value.names : Value → List Ref
  | .list _ rs => rs
  | .file f | .audio f _ => f.parent.toList
  | _ => []

namespace Store

lemma get_push (s : Store) (v : Value) (q : Ref) :
    (s.push v).get q = if q = s.next then v else s.get q := by
  by_cases hq : q = s.next
  · rw [if_pos hq, hq, get_push_next]
  · have hne : q ≠ s.cells.size := hq
    simp [Store.get, Store.push, Array.getElem?_push, hne, hq]

/-- What a cell holds behind writing into a cell is what was written or what was there. -/
lemma get_put_cases (s : Store) (r : Ref) (v : Value) (q : Ref) :
    (s.put r v).get q = v ∨ (s.put r v).get q = s.get q := by
  by_cases hq : q = r
  · subst hq
    by_cases hlt : q < s.next
    · exact .inl (get_put_self hlt v)
    · have hsize : s.cells.size ≤ q := Nat.le_of_not_lt hlt
      right
      simp [Store.get, Store.put, Array.setIfInBounds, Nat.not_lt.2 hsize]
  · exact .inr (get_put_of_ne hq v)

end Store

namespace Machine

variable {H : Ref → Prop} {m'' : Machine}

/-- The cell is there and not sealed off. -/
structure Sees (H : Ref → Prop) (m : Machine) (r : Ref) : Prop where
  lt : r < m.store.next
  free : ¬H r

/-- A program gets at no sealed cell through the value. -/
def SeesValue (H : Ref → Prop) (m : Machine) (v : Value) : Prop := ∀ r ∈ v.names, m.Sees H r

/-- A program gets at no sealed cell through the file. -/
def SeesFile (H : Ref → Prop) (m : Machine) (f : FileObject) : Prop :=
  ∀ r, f.parent = some r → m.Sees H r

/-- A program gets at no sealed cell through a variable of the context. -/
def SeesContext (H : Ref → Prop) (m : Machine) (c : Context) : Prop :=
  ∀ s ∈ c.scopes, ∀ b ∈ s.bindings, m.Sees H b.2

/-- The cells of `H` are sealed off: no variable, value or return names any of them.  The functions
are put together as they should. -/
structure Seals (H : Ref → Prop) (m : Machine) : Prop where
  inside : ∀ r, H r → r < m.store.next
  bindings : ∀ c ∈ m.module :: m.calls, m.SeesContext H c
  values : ∀ q, m.SeesValue H (m.store.get q)
  returning : ∀ r, m.returning = some r → m.Sees H r
  functions : ∀ x n, (x, n) ∈ m.functions → n.isAction = true

/-- Cells may have been opened, and the simple values in sealed cells are as they were. -/
structure Spares (H : Ref → Prop) (m m' : Machine) : Prop where
  next : m.store.next ≤ m'.store.next
  get : ∀ r, H r → (m.store.get r).isSimple = true → m'.store.get r = m.store.get r

/-- The machine has no loose ends: nothing is sealed off, and all names are names of cells that are
there. -/
abbrev Closed (m : Machine) : Prop := m.Seals fun _ => False

lemma Spares.refl (m : Machine) : m.Spares H m := ⟨Nat.le_refl _, fun _ _ _ => rfl⟩

lemma Spares.trans (h : m.Spares H m') (h' : m'.Spares H m'') : m.Spares H m'' where
  next := Nat.le_trans h.next h'.next
  get r hr hs := by
    have hkept := h.get r hr hs
    exact (h'.get r hr (by rw [hkept]; exact hs)).trans hkept

lemma Sees.mono (h : m.Sees H r) (hs : m.Spares H m') : m'.Sees H r :=
  ⟨Nat.lt_of_lt_of_le h.lt hs.next, h.free⟩

lemma SeesFile.of_none (h : f.parent = none) : m.SeesFile H f := by
  intro r hr
  rw [h] at hr
  cases hr

lemma SeesFile.of_some (hr : m.Sees H r) (h : f.parent = some r) : m.SeesFile H f := by
  intro q hq
  cases h.symm.trans hq
  exact hr

lemma SeesValue.of_none (h : v.names = []) : m.SeesValue H v := by
  intro r hr
  rw [h] at hr
  cases hr

lemma seesValue_file : m.SeesValue H (.file f) ↔ m.SeesFile H f := by
  simp [SeesValue, SeesFile, Value.names]

lemma seesValue_audio : m.SeesValue H (.audio f a) ↔ m.SeesFile H f := by
  simp [SeesValue, SeesFile, Value.names]

lemma SeesValue.file? (h : m.SeesValue H v) (hf : v.file? = some f) : m.SeesFile H f := by
  cases v <;> cases hf
  · exact seesValue_file.1 h
  · exact seesValue_audio.1 h

/-- Opening a cell for a value through which no sealed cell is named. -/
lemma Seals.push (hm : m.Seals H) (hv : m.SeesValue H v) :
    ({ m with store := m.store.push v } : Machine).Seals H := by
  have hmono : ∀ {q}, m.Sees H q → ({ m with store := m.store.push v } : Machine).Sees H q :=
    fun h => ⟨by simpa using Nat.lt_succ_of_lt h.lt, h.free⟩
  refine ⟨fun q hq => ?_, fun c hc s hs b hb => hmono (hm.bindings c hc s hs b hb), fun q r hr =>
    ?_,
    fun r hr => hmono (hm.returning r hr), hm.functions⟩
  · simpa using Nat.lt_succ_of_lt (hm.inside q hq)
  · change r ∈ ((m.store.push v).get q).names at hr
    rw [Store.get_push] at hr
    split at hr
    · exact hmono (hv r hr)
    · exact hmono (hm.values q r hr)

/-- Sealing off one more cell, which nothing names. -/
lemma Seals.add (hm : m.Seals H) {q : Ref} (hq : q < m.store.next)
    (hbindings : ∀ c ∈ m.module :: m.calls, ∀ s ∈ c.scopes, ∀ b ∈ s.bindings, b.2 ≠ q)
    (hvalues : ∀ p, q ∉ (m.store.get p).names) (hreturning : m.returning ≠ some q) :
    m.Seals fun r => H r ∨ r = q := by
  have hadd : ∀ {r}, m.Sees H r → r ≠ q → m.Sees (fun r => H r ∨ r = q) r :=
    fun h hne => ⟨h.lt, fun hr => hr.elim h.free hne⟩
  refine ⟨?_, ?_, ?_, ?_, hm.functions⟩
  · rintro r (hr | rfl)
    · exact hm.inside r hr
    · exact hq
  · exact fun c hc s hs b hb => hadd (hm.bindings c hc s hs b hb) (hbindings c hc s hs b hb)
  · intro p r hr
    exact hadd (hm.values p r hr) fun h => hvalues p (h ▸ hr)
  · intro r hr
    exact hadd (hm.returning r hr) fun h => hreturning (h ▸ hr)

lemma Seals.put (hm : m.Seals H) (r : Ref) (hv : m.SeesValue H v) :
    ({ m with store := m.store.put r v } : Machine).Seals H := by
  have hmono : ∀ {q}, m.Sees H q → ({ m with store := m.store.put r v } : Machine).Sees H q :=
    fun h => ⟨by simpa using h.lt, h.free⟩
  refine ⟨fun q hq => by simpa using hm.inside q hq,
    fun c hc s hs b hb => hmono (hm.bindings c hc s hs b hb), fun q p hp => ?_,
    fun r hr => hmono (hm.returning r hr), hm.functions⟩
  change p ∈ ((m.store.put r v).get q).names at hp
  rcases m.store.get_put_cases r v q with h | h
  · exact hmono (hv p (h ▸ hp))
  · exact hmono (hm.values q p (h ▸ hp))

/-- Writing into a cell that is not sealed off, or over a value that is not simple. -/
lemma Spares.put (h : ¬H r ∨ (m.store.get r).isSimple = false) :
    m.Spares H { m with store := m.store.put r v } := by
  refine ⟨by simp, fun q hq hs => Store.get_put_of_ne ?_ v⟩
  rintro rfl
  rcases h with h | h
  · exact h hq
  · rw [h] at hs
    cases hs

/-- All but the store may differ as long as it names no sealed cell. -/
lemma Seals.of_store (hm : m.Seals H) (hstore : m'.store = m.store)
    (hbindings : ∀ c ∈ m'.module :: m'.calls, m.SeesContext H c)
    (hreturning : ∀ r, m'.returning = some r → m.Sees H r)
    (hfunctions : ∀ x n, (x, n) ∈ m'.functions → n.isAction = true) : m'.Seals H := by
  have hsame : ∀ {q}, m.Sees H q → m'.Sees H q := fun h => ⟨by rw [hstore]; exact h.lt, h.free⟩
  refine ⟨by rw [hstore]; exact hm.inside, fun c hc s hs b hb => hsame (hbindings c hc s hs b hb),
    ?_, fun r hr => hsame (hreturning r hr), hfunctions⟩
  rw [hstore]
  exact fun q r hr => hsame (hm.values q r hr)

lemma Spares.of_store (h : m'.store = m.store) : m.Spares H m' :=
  ⟨Nat.le_of_eq (by rw [h]), fun _ _ _ => by rw [h]⟩

end Machine

/-! ## Steps -/

namespace Run

variable {α β : Type} {H : Ref → Prop}

/-- From this machine on, the step keeps the cells of `H` sealed off and spares them, and `Q` holds
of an answer. -/
structure Sealed (H : Ref → Prop) (m : Machine) (x : Run α) (Q : α → Machine → Prop) : Prop where
  ends : Ends (x m) (fun a m' => m'.Seals H ∧ m.Spares H m' ∧ Q a m')
    (fun _ m' => m'.Seals H ∧ m.Spares H m')

/-- Nothing is asked of an answer. -/
abbrev Anything : α → Machine → Prop := fun _ _ => True

/-- The cell of an answer could be sealed off as well. -/
structure IsNew (H : Ref → Prop) (r : Ref) (m : Machine) : Prop where
  sealable : m.Seals fun q => H q ∨ q = r
  free : ¬H r

lemma IsNew.sees (h : IsNew H r m) : m.Sees H r := ⟨h.sealable.inside r (.inr rfl), h.free⟩

/-- The answer is a cell that programs can name, and a new one where this is promised. -/
structure Answers (H : Ref → Prop) (promised : Prop) (r : Ref) (m : Machine) : Prop where
  sees : m.Sees H r
  isNew : promised → IsNew H r m

lemma IsNew.answers (h : IsNew H r m) : Answers H promised r m :=
  ⟨h.sees, fun _ => h⟩

/-- The step looks at the machine and does not change it. -/
structure OnlyLooks (x : Run α) : Prop where
  ends : ∀ m, Ends (x m) (fun _ m' => m' = m) (fun _ m' => m' = m)

namespace OnlyLooks

lemma pure (a : α) : OnlyLooks (Pure.pure a : Run α) := ⟨fun _ => rfl⟩

lemma bind {x : Run α} {f : α → Run β} (hx : OnlyLooks x) (hf : ∀ a, OnlyLooks (f a)) :
    OnlyLooks (x >>= f) := by
  refine ⟨fun m => ?_⟩
  refine Ends.bind (hx.ends m) fun a m₁ _ h₁ => ?_
  subst h₁
  exact (hf a).ends m₁

lemma fail (e : RunError) (p : Position) : OnlyLooks (Run.fail e p : Run α) := ⟨fun _ => rfl⟩

lemma failSomewhere (e : RunError) : OnlyLooks (Run.failSomewhere e : Run α) := ⟨fun _ => rfl⟩

lemma fault (f : Fault) : OnlyLooks (Run.fault f : Run α) := ⟨fun _ => rfl⟩

lemma ask (r : Except Fault α) : OnlyLooks (Run.ask r) := by
  cases r with
  | ok a => exact pure a
  | error f => exact fault f

lemma ite {c : Prop} [Decidable c] {x y : Run α} (hx : OnlyLooks x) (hy : OnlyLooks y) :
    OnlyLooks (if c then x else y) := by
  split
  · exact hx
  · exact hy

lemma ok_of_bind {x : Run α} {f : α → Run β} {m m' : Machine} {b : β} (hx : OnlyLooks x)
    (h : (x >>= f) m = .ok b m') : ∃ a, x m = .ok a m ∧ f a m = .ok b m' := by
  obtain ⟨a, m₁, h₁, h₂⟩ := AudLang.ok_of_bind h
  cases (hx.ends m).ok h₁
  exact ⟨a, h₁, h₂⟩

end OnlyLooks

namespace Sealed

variable {Q Q' : α → Machine → Prop} {R : β → Machine → Prop} {x : Run α} {f : α → Run β}

lemma pure {a : α} (hm : m.Seals H) (hq : Q a m) : Sealed H m (Pure.pure a) Q := ⟨hm, .refl m, hq⟩

lemma fail (hm : m.Seals H) (e : RunError) (p : Position) : Sealed H m (Run.fail e p) Q :=
  ⟨hm, .refl m⟩

lemma fault (hm : m.Seals H) (f : Fault) : Sealed H m (Run.fault f) Q := ⟨hm, .refl m⟩

lemma weaken (h : Sealed H m x Q) (hq : ∀ a m', Q a m' → Q' a m') : Sealed H m x Q' :=
  ⟨h.ends.weaken (fun a m' _ h => ⟨h.1, h.2.1, hq a m' h.2.2⟩) (fun _ _ _ h => h)⟩

lemma answers {promised : Prop} {y : Run Ref} (h : Sealed H m y (IsNew H)) :
    Sealed H m y (Answers H promised) := h.weaken fun _ _ h => h.answers

lemma bind (hx : Sealed H m x Q)
    (hf : ∀ a m₁, m₁.Seals H → m.Spares H m₁ → Q a m₁ → Sealed H m₁ (f a) R) :
    Sealed H m (x >>= f) R := by
  refine ⟨Ends.bind hx.ends fun a m₁ _ h₁ => ?_⟩
  obtain ⟨hm₁, hs₁, hq⟩ := h₁
  exact (hf a m₁ hm₁ hs₁ hq).ends.weaken (fun _ _ _ h => ⟨h.1, hs₁.trans h.2.1, h.2.2⟩)
    (fun _ _ _ h => ⟨h.1, hs₁.trans h.2⟩)

/-- Looking at a cell. -/
lemma cell {g : Value → Run β} (h : Sealed H m (g (m.store.get r)) R) :
    Sealed H m (value r >>= g) R := ⟨h.ends⟩

lemma machine {g : Machine → Run β} (h : Sealed H m (g m) R) : Sealed H m (get >>= g) R := ⟨h.ends⟩

/-- Behind a step that only looks, the machine is the same. -/
lemma look (hm : m.Seals H) (hx : OnlyLooks x) (hf : ∀ a, x m = .ok a m → Sealed H m (f a) R) :
    Sealed H m (x >>= f) R := by
  refine ⟨?_⟩
  rw [bind_run]
  have hends := hx.ends m
  cases h : x m with
  | error e m₁ =>
    rw [h] at hends
    cases hends
    exact ⟨hm, .refl m⟩
  | ok a m₁ =>
    rw [h] at hends
    cases hends
    exact (hf a h).ends

lemma ite {c : Prop} [Decidable c] {y : Run α} (hx : Sealed H m x Q) (hy : Sealed H m y Q) :
    Sealed H m (if c then x else y) Q := by
  split
  · exact hx
  · exact hy

lemma tryCatch {handle : Stop → Run α} (hx : Sealed H m x Q)
    (hh : ∀ e m₁, m₁.Seals H → m.Spares H m₁ → Sealed H m₁ (handle e) Q) :
    Sealed H m (tryCatch x handle) Q := by
  have hends := hx.ends
  refine ⟨?_⟩
  rw [tryCatch_run]
  cases h : x m with
  | ok a m₁ =>
    rw [h] at hends
    exact hends
  | error e m₁ =>
    rw [h] at hends
    obtain ⟨hm₁, hs₁⟩ := hends
    exact (hh e m₁ hm₁ hs₁).ends.weaken (fun _ _ _ h' => ⟨h'.1, hs₁.trans h'.2.1, h'.2.2⟩)
      (fun _ _ _ h' => ⟨h'.1, hs₁.trans h'.2⟩)

end Sealed

/-! ## Looking -/

lemma looks_value : OnlyLooks (value r) := ⟨fun _ => rfl⟩

lemma looks_files : OnlyLooks files := ⟨fun _ => rfl⟩

lemma looks_get : OnlyLooks (get : Run Machine) := ⟨fun _ => rfl⟩

lemma looks_datum : OnlyLooks (datum r) := by
  refine .bind looks_value fun v => ?_
  split
  · exact .pure _
  · exact .fault _

lemma looks_argument : OnlyLooks (argument args i) := by
  unfold argument
  split
  · exact .pure _
  · exact .fault _

lemma getElem?_of_argument (h : argument args i m = .ok r m') : args[i]? = some r := by
  unfold argument at h
  cases hq : args[i]? with
  | none =>
    rw [hq] at h
    cases h
  | some q =>
    rw [hq] at h
    cases h
    rfl

lemma mem_of_argument (h : argument args i m = .ok r m') :
    r ∈ args := List.mem_of_getElem? (getElem?_of_argument h)

lemma looks_contentOf : OnlyLooks (contentOf args i) :=
  .bind looks_argument fun _ => looks_datum

lemma looks_pathText {d : Datum} : OnlyLooks (pathText d) := by
  unfold pathText
  split
  · exact .pure _
  · exact .fault _

lemma looks_findFile {parent : Option Ref} : OnlyLooks (findFile path parent p) :=
  .bind looks_files fun _ => .ite (.pure _) (.fail _ _)

lemma parent_of_findFile (h : findFile path parent p m = .ok f m') : f.parent = parent := by
  obtain ⟨fs, m₁, -, h⟩ := ok_of_bind h
  by_cases hf : fs.isFile (fs.absolute path) = true
  · simp only [hf, if_true] at h
    cases h
    rfl
  · simp only [hf] at h
    cases h

lemma looks_checkFile : OnlyLooks (checkFile f operation p) :=
  .bind looks_files fun _ => .ite (.fail _ _) (.ite (.fail _ _) (.ite (.fail _ _) (.pure _)))

lemma looks_checkFolder : OnlyLooks (checkFolder d operation p) :=
  .bind looks_files fun _ => .ite (.fail _ _) (.ite (.fail _ _) (.ite (.fail _ _) (.pure _)))

lemma looks_usableFile : OnlyLooks (usableFile r operation p) := by
  refine .bind looks_value fun v => ?_
  split
  · exact .bind looks_checkFile fun _ => .pure _
  · exact .bind looks_checkFile fun _ => .pure _
  · exact .bind looks_checkFolder fun _ => .fault _
  · exact .fault _

lemma file?_of_usableFile (h : usableFile r operation p m = .ok f m') :
    (m.store.get r).file? = some f := by
  simp only [usableFile, value, bind_run, get_run, pure_run] at h
  cases hv : m.store.get r with
  | file g | audio g a =>
    rw [hv] at h
    obtain ⟨u, m₁, -, h⟩ := ok_of_bind h
    cases h
    rfl
  | folder d =>
    rw [hv] at h
    obtain ⟨u, m₁, -, h⟩ := ok_of_bind h
    cases h
  | _ =>
    rw [hv] at h
    cases h

lemma looks_load : OnlyLooks (load path) := by
  unfold load
  simp only
  split
  · refine .bind looks_files fun fs => ?_
    split
    · split
      · exact .pure _
      · exact .pure _
    · exact .fault _
  · exact .ite (.pure _) (.pure _)

lemma looks_pathsIn : OnlyLooks (pathsIn d) := .bind looks_files fun _ => .pure _

lemma looks_ownedNamed {folder : Ref} {name : String} :
    ∀ rs : List Ref, OnlyLooks (ownedNamed folder name rs)
  | [] => .pure _
  | r :: rs => by
    refine .bind looks_value fun v => ?_
    split
    · exact .ite (.pure _) (looks_ownedNamed rs)
    · exact looks_ownedNamed rs

lemma looks_converted {d : Datum} {type : String} (answer : Except Fault α) :
    OnlyLooks (converted d type answer) := by
  unfold converted
  split
  · exact .pure _
  · exact (OnlyLooks.ask _).bind fun _ => .failSomewhere _
  · exact .fault _

lemma looks_requireObject {member : String} : OnlyLooks (requireObject r member p) :=
  .bind looks_value fun _ => .ite (.fail _ _) (.pure _)

lemma looks_cellOf : OnlyLooks (cellOf name p) := by
  refine .bind looks_get fun m => ?_
  split
  · exact .pure _
  · exact .fail _ _

lemma looks_callee : OnlyLooks (callee name p) := by
  unfold callee
  cases Builtin.ofName? name with
  | some b => exact .pure _
  | none =>
    refine .bind looks_get fun m => ?_
    cases m.functions.lookup name with
    | some n => exact .pure _
    | none => exact .fail _ _

/-! ## Single cells -/

/-- The last value is one that programs can name, and a new one where this is promised, if it is
simple. -/
structure Gives (H : Ref → Prop) (promised : Prop) (m : Machine) : Prop where
  sees : m.Sees H m.last
  isNew : promised → (m.store.get m.last).isSimple = true → IsNew H m.last m

section

variable (hm : m.Seals H)

include hm

lemma sealed_alloc (hv : m.SeesValue H v) : Sealed H m (alloc v) (IsNew H) := by
  -- whatever has a name lies below the new cell
  have hne : ∀ {q}, m.Sees H q → q ≠ m.store.next := fun h => Nat.ne_of_lt h.lt
  have hspares : m.Spares H { m with store := m.store.push v } :=
    ⟨by simp, fun r hr _ => Store.get_push_of_lt (hm.inside r hr) v⟩
  refine ⟨hm.push hv, hspares, ?_, fun h => Nat.lt_irrefl _ (hm.inside _ h)⟩
  refine (hm.push hv).add (by simp) ?_ ?_ ?_
  · exact fun c hc s hs b hb => hne (hm.bindings c hc s hs b hb)
  · intro p hp
    change m.store.next ∈ ((m.store.push v).get p).names at hp
    rw [Store.get_push] at hp
    split at hp
    · exact hne (hv _ hp) rfl
    · exact hne (hm.values p _ hp) rfl
  · exact fun h => hne (hm.returning _ h) rfl

lemma sealed_nothing : Sealed H m nothing (IsNew H) := sealed_alloc hm (.of_none rfl)

lemma sealed_setLast (hr : m.Sees H r)
    (hnew : promised → (m.store.get r).isSimple = true → IsNew H r m) :
    Sealed H m (setLast r) fun _ m' => Gives H promised m' := by
  refine ⟨hm.of_store rfl hm.bindings hm.returning hm.functions, .of_store rfl,
    hr.mono (.of_store rfl), ?_⟩
  intro hp hs
  obtain ⟨hsealable, hfree⟩ := hnew hp hs
  exact ⟨hsealable.of_store rfl hsealable.bindings hsealable.returning hsealable.functions, hfree⟩

lemma sealed_give (hv : m.SeesValue H v) : Sealed H m (give v) fun _ m' => Gives H promised m' :=
  (sealed_alloc hm hv).bind fun _ _ hm₁ _ hr => sealed_setLast hm₁ hr.sees fun _ _ => hr

lemma sealed_setFiles {fs : Files} : Sealed H m (setFiles fs) Anything :=
  ⟨hm.of_store rfl hm.bindings hm.returning hm.functions, .of_store rfl, trivial⟩

lemma sealed_printLine {s : String} : Sealed H m (printLine s) Anything :=
  ⟨hm.of_store rfl hm.bindings hm.returning hm.functions, .of_store rfl, trivial⟩

lemma sealed_updateFile {change : FileObject → FileObject}
    (hc : ∀ f, m.SeesFile H f → m.SeesFile H (change f)) :
    Sealed H m (updateFile r change) Anything := by
  have hv := hm.values r
  refine ⟨?_⟩
  simp only [updateFile, value, bind_run, get_run, pure_run]
  cases h : m.store.get r with
  | file f =>
    rw [h] at hv
    have hf := hc f (Machine.seesValue_file.1 hv)
    exact ⟨hm.put r (Machine.seesValue_file.2 hf), .put (.inr (by rw [h]; rfl)), trivial⟩
  | audio f a =>
    rw [h] at hv
    have hf := hc f (Machine.seesValue_audio.1 hv)
    exact ⟨hm.put r (Machine.seesValue_audio.2 hf), .put (.inr (by rw [h]; rfl)), trivial⟩
  | _ => exact ⟨hm, .refl m, trivial⟩

lemma sealed_updateFolder {change : FolderObject → FolderObject} :
    Sealed H m (updateFolder r change) Anything := by
  refine ⟨?_⟩
  simp only [updateFolder, value, bind_run, get_run, pure_run]
  cases h : m.store.get r with
  | folder d => exact ⟨hm.put r (.of_none rfl), .put (.inr (by rw [h]; rfl)), trivial⟩
  | _ => exact ⟨hm, .refl m, trivial⟩

lemma sealed_updateRecording {change : Recording → Recording} :
    Sealed H m (updateRecording r change) Anything := by
  have hv := hm.values r
  refine ⟨?_⟩
  simp only [updateRecording, value, bind_run, get_run, pure_run]
  cases h : m.store.get r with
  | audio f a =>
    rw [h] at hv
    have hf := Machine.seesValue_audio.1 hv
    exact ⟨hm.put r (Machine.seesValue_audio.2 hf), .put (.inr (by rw [h]; rfl)), trivial⟩
  | _ => exact ⟨hm, .refl m, trivial⟩

lemma sealed_untrack {folder file : Ref} : Sealed H m (untrack folder file) Anything :=
  sealed_updateFolder hm

lemma sealed_track {folder : Ref} (hfolder : m.Sees H folder) {file : Ref} :
    Sealed H m (track folder file) Anything := by
  refine .cell ?_
  split
  · rename_i d hd
    split
    · exact .pure hm trivial
    · have hput : Sealed H m (put folder (.folder { d with files := d.files ++ [file] }))
        Anything :=
        ⟨hm.put folder (.of_none rfl), .put (.inr (by rw [hd]; rfl)), trivial⟩
      exact hput.bind fun _ m₁ hm₁ hs₁ _ =>
        sealed_updateFile hm₁ fun _ _ => .of_some (hfolder.mono hs₁) rfl
  · exact .pure hm trivial

/-! ## Files -/

lemma sealed_openFile (hparent : ∀ r, parent = some r → m.Sees H r) :
    Sealed H m (openFile path parent p) (IsNew H) := by
  refine .look hm looks_findFile fun f hf => sealed_alloc hm (Machine.seesValue_file.2 ?_)
  intro r hr
  exact hparent r ((parent_of_findFile hf).symm.trans hr)

lemma sealed_renameFile : Sealed H m (renameFile r f args p) (IsNew H) := by
  refine .look hm looks_contentOf fun d _ => .look hm looks_pathText fun name _ =>
    .look hm looks_files fun fs _ => ?_
  split
  · exact (sealed_setFiles hm).bind fun _ _ hm₁ _ _ =>
      .bind (sealed_updateFile hm₁ fun _ hf => hf) fun _ _ hm₂ _ _ => sealed_nothing hm₂
  · exact .fault hm _
  · exact .fail hm _ _

lemma sealed_moveFile (hargs : ∀ a ∈ args, m.Sees H a) :
    Sealed H m (moveFile r f args p) (IsNew H) := by
  refine .look hm looks_argument fun target harg => .look hm looks_value fun v _ => ?_
  have htarget := hargs target (mem_of_argument harg)
  split
  · refine .look hm looks_checkFolder fun _ _ => .look hm looks_files fun fs _ => ?_
    have settled : ∀ (path : String) (m₁ : Machine), m₁.Seals H → m.Spares H m₁ → Sealed H m₁ (do
        updateFile r fun f => { f with parent := some target }
        track target r
        updateFile r fun f => { f with path }
        nothing) (IsNew H) := by
      intro path m₁ hm₁ hs₁
      have htarget₁ := htarget.mono hs₁
      exact (sealed_updateFile hm₁ fun _ _ => .of_some htarget₁ rfl).bind fun _ m₂ hm₂ hs₂ _ =>
        (sealed_track hm₂ (htarget₁.mono hs₂)).bind fun _ m₃ hm₃ _ _ =>
          .bind (sealed_updateFile hm₃ fun _ hf => hf) fun _ m₄ hm₄ _ _ => sealed_nothing hm₄
    split
    · refine (sealed_setFiles hm).bind fun _ m₁ hm₁ hs₁ _ => ?_
      simp only
      split
      · exact (sealed_untrack hm₁).bind fun _ m₂ hm₂ hs₂ _ => settled _ m₂ hm₂ (hs₁.trans hs₂)
      · exact settled _ m₁ hm₁ hs₁
    · exact .fault hm _
    · exact .fail hm _ _
  · exact .fault hm _

lemma sealed_deleteFile : Sealed H m (deleteFile r f) (IsNew H) := by
  refine .look hm looks_files fun fs _ => ?_
  extract_lets marked retired
  have hmarked : ∀ u (m₁ : Machine), m₁.Seals H → Sealed H m₁ (marked u) (IsNew H) :=
    fun _ m₁ hm₁ =>
    (sealed_updateFile hm₁ fun _ _ => .of_none rfl).bind fun _ _ hm₂ _ _ => sealed_nothing hm₂
  have hretired : ∀ u (m₁ : Machine), m₁.Seals H → Sealed H m₁ (retired u) (IsNew H) := by
    intro u m₁ hm₁
    simp only [retired]
    split
    · exact (sealed_untrack hm₁).bind fun u m₂ hm₂ _ _ => hmarked u m₂ hm₂
    · exact hmarked () m₁ hm₁
  split
  · exact (sealed_setFiles hm).bind fun u m₁ hm₁ _ _ => hretired u m₁ hm₁
  · exact .look hm (.fault _) fun u _ => hretired u m hm

lemma sealed_callFile (hargs : ∀ a ∈ args, m.Sees H a) :
    Sealed H m (callFile r v f name args p) (IsNew H) := by
  refine .look hm looks_checkFile fun _ _ => ?_
  split
  · exact .ite (sealed_alloc hm (.of_none rfl)) (.fail hm _ _)
  · exact sealed_renameFile hm
  · exact sealed_moveFile hm hargs
  · exact sealed_deleteFile hm
  · exact .fail hm _ _

/-- Only the folder of a file has a name already. -/
lemma sealed_fileAttribute (hf : m.SeesFile H f) :
    Sealed H m (fileAttribute v f name p) (Answers H (name ≠ "parent")) := by
  refine .look hm looks_checkFile fun _ _ => ?_
  split
  · exact (sealed_alloc hm (.of_none rfl)).answers
  · split
    · rename_i d hd
      -- the folder itself is the answer
      exact .pure hm ⟨hf d hd, fun h => absurd rfl h⟩
    · exact (sealed_nothing hm).answers
  · exact .fail hm _ _

/-! ## Recordings -/

lemma sealed_openAudio (hparent : ∀ r, parent = some r → m.Sees H r) :
    Sealed H m (openAudio path parent p) (IsNew H) := by
  refine .look hm looks_findFile fun f hf => .look hm looks_load fun loaded _ => ?_
  split
  · exact .fail hm _ _
  · split
    · exact .fail hm _ _
    · refine sealed_alloc hm (Machine.seesValue_audio.2 fun r hr => ?_)
      exact hparent r ((parent_of_findFile hf).symm.trans hr)

lemma sealed_save {format : String} : Sealed H m (save s path format) Anything := by
  refine .look hm looks_files fun fs _ => ?_
  split
  · exact .fault hm _
  · refine (sealed_setFiles hm).bind fun _ m₁ hm₁ _ _ => ?_
    split
    · exact .fault hm₁ _
    · exact .pure hm₁ trivial

lemma sealed_overwrite : Sealed H m (overwrite r f s) (IsNew H) :=
  (sealed_save hm).bind fun _ _ hm₁ _ _ => .look hm₁ (.ask _) fun _ _ =>
    (sealed_updateRecording hm₁).bind fun _ _ hm₂ _ _ => sealed_nothing hm₂

lemma sealed_cut : Sealed H m (cut r f a s args p) (IsNew H) := by
  refine .look hm looks_contentOf fun start _ => .look hm looks_contentOf fun stop _ =>
    .look hm (.ask _) fun inside _ => .ite ?_ ?_
  · exact .look hm (.ask _) fun _ _ => .look hm (.ask _) fun _ _ => .look hm (.ask _) fun _ _ =>
      sealed_overwrite hm
  · exact .look hm (.ask _) fun _ _ => .look hm (.ask _) fun _ _ => .fail hm _ _

lemma sealed_concat : Sealed H m (concat r f s args p) (IsNew H) := by
  refine .look hm looks_argument fun other _ => .look hm looks_usableFile fun g _ =>
    .look hm looks_load fun loaded _ => ?_
  split
  · exact .fault hm _
  · exact .look hm (.ask _) fun _ _ => sealed_overwrite hm

lemma sealed_changeTitle : Sealed H m (changeTitle r f s args) (IsNew H) :=
  .look hm looks_contentOf fun _ _ => (sealed_updateRecording hm).bind fun _ _ hm₁ _ _ =>
    (sealed_save hm₁).bind fun _ _ hm₂ _ _ => sealed_nothing hm₂

lemma sealed_changeFormat : Sealed H m (changeFormat r f s args p) (IsNew H) := by
  refine .look hm looks_contentOf fun d _ => ?_
  split
  · extract_lets format path saved
    clear_value path
    have hsaved : ∀ u, Sealed H m (saved u) (IsNew H) := by
      intro u
      refine (sealed_save hm).bind fun _ m₁ hm₁ _ _ => .look hm₁ looks_files fun fs _ => ?_
      split
      · exact .fault hm₁ _
      · exact (sealed_setFiles hm₁).bind fun _ _ hm₂ _ _ =>
          .bind (sealed_updateFile hm₂ fun _ hf => hf) fun _ _ hm₃ _ _ => sealed_nothing hm₃
    exact .ite (.look hm (.fail _ _) fun u _ => hsaved u) (hsaved ())
  · exact .fault hm _

lemma sealed_changeVolume : Sealed H m (changeVolume f s args) (IsNew H) :=
  .look hm looks_contentOf fun _ _ => .look hm (.ask _) fun _ _ => .look hm (.ask _) fun _ _ =>
    (sealed_save hm).bind fun _ _ hm₁ _ _ => sealed_nothing hm₁

lemma sealed_callAudio (hargs : ∀ a ∈ args, m.Sees H a) :
    Sealed H m (callAudio r f a name args p) (IsNew H) := by
  refine .look hm looks_checkFile fun _ _ => .look hm looks_load fun loaded _ => ?_
  split
  · exact .fail hm _ _
  · exact .fault hm _
  · split
    · exact sealed_cut hm
    · exact sealed_concat hm
    · exact sealed_changeTitle hm
    · exact sealed_changeFormat hm
    · exact sealed_changeVolume hm
    · exact sealed_callFile hm hargs

lemma sealed_audioAttribute (hf : m.SeesFile H f) :
    Sealed H m (audioAttribute f a name p) (Answers H (name ≠ "parent")) := by
  refine .look hm looks_checkFile fun _ _ => ?_
  split
  · exact (sealed_alloc hm (.of_none rfl)).answers
  · exact (sealed_alloc hm (.of_none rfl)).answers
  · exact (sealed_alloc hm (.of_none rfl)).answers
  · exact sealed_fileAttribute hm hf

/-! ## Folders -/

lemma sealed_openFolder : Sealed H m (openFolder path p) (IsNew H) :=
  .look hm looks_files fun _ _ => .ite (sealed_alloc hm (.of_none rfl)) (.fail hm _ _)

end

lemma sealed_orElseOnError {step other : Run Ref} {Q : Ref → Machine → Prop}
    (hs : Sealed H m step Q)
    (ho : ∀ m₁ : Machine, m₁.Seals H → m.Spares H m₁ → Sealed H m₁ other Q) :
    Sealed H m (orElseOnError step other) Q := by
  refine hs.tryCatch fun e m₁ hm₁ hs₁ => ?_
  split
  · exact ho m₁ hm₁ hs₁
  · exact ⟨hm₁, .refl m₁⟩

lemma sealed_openAudio? (hm : m.Seals H) (hparent : ∀ r, parent = some r → m.Sees H r) :
    Sealed H m (openAudio? path parent p) fun o m' => ∀ r, o = some r → IsNew H r m' := by
  refine Sealed.tryCatch ((sealed_openAudio hm hparent).bind fun r m₁ hm₁ _ hr =>
    .pure hm₁ fun q hq => ?_)
    fun e m₁ hm₁ _ => ?_
  · cases hq
    exact hr
  · split
    · exact .pure hm₁ fun _ h => nomatch h
    · exact ⟨hm₁, .refl m₁⟩

lemma sealed_getFile (hm : m.Seals H) (hr : m.Sees H r) :
    Sealed H m (getFile r d args p) (IsNew H) := by
  have hparent : ∀ {m₁ : Machine}, m.Spares H m₁ → ∀ q, some r = some q → m₁.Sees H q := by
    rintro m₁ hs₁ q ⟨⟩
    exact hr.mono hs₁
  exact .look hm looks_contentOf fun _ _ => .look hm looks_pathText fun _ _ =>
    .look hm looks_files fun _ _ => .ite
      (sealed_orElseOnError (sealed_openAudio hm (hparent (.refl m))) fun m₁ hm₁ hs₁ =>
        sealed_openFile hm₁ (hparent hs₁))
      (sealed_nothing hm)

lemma sealed_addFile (hm : m.Seals H) (hr : m.Sees H r) :
    Sealed H m (addFile r d args p) (IsNew H) := by
  refine .look hm looks_argument fun added _ => .look hm looks_usableFile fun f _ =>
    .look hm looks_files fun fs _ => ?_
  extract_lets tracked handed path
  have htracked : ∀ u (m₁ : Machine), m₁.Seals H → m.Spares H m₁ →
    Sealed H m₁ (tracked u) (IsNew H) :=
    fun _ m₁ hm₁ hs₁ =>
      (sealed_track hm₁ (hr.mono hs₁)).bind fun _ _ hm₂ _ _ => sealed_nothing hm₂
  have hhanded : ∀ u (m₁ : Machine), m₁.Seals H → m.Spares H m₁ →
    Sealed H m₁ (handed u) (IsNew H) := by
    intro u m₁ hm₁ hs₁
    simp only [handed]
    split
    · exact .ite
        ((sealed_untrack hm₁).bind fun u m₂ hm₂ hs₂ _ => htracked u m₂ hm₂ (hs₁.trans hs₂))
        (htracked () m₁ hm₁ hs₁)
    · exact htracked () m₁ hm₁ hs₁
  refine .ite ?_ (hhanded () m hm (.refl m))
  split
  · exact (sealed_setFiles hm).bind fun _ m₁ hm₁ hs₁ _ =>
      .bind (sealed_updateFile hm₁ fun _ hf => hf) fun u m₂ hm₂ hs₂ _ =>
        hhanded u m₂ hm₂ (hs₁.trans hs₂)
  · exact .look hm (.fault _) fun u _ => hhanded u m hm (.refl m)
  · exact .look hm (.fail _ _) fun u _ => hhanded u m hm (.refl m)

lemma sealed_removeFile (hm : m.Seals H) : Sealed H m (removeFile r d args p) (IsNew H) := by
  unfold removeFile
  extract_lets done removed
  have hremoved : ∀ content, Sealed H m (removed content) (IsNew H) := by
    intro content
    refine .look hm looks_pathText fun name _ => .look hm looks_files fun fs _ =>
      .ite ?_ (.fail hm _ _)
    extract_lets retired
    have hretired : ∀ u (m₁ : Machine), m₁.Seals H → Sealed H m₁ (retired u) (IsNew H) := by
      intro u m₁ hm₁
      -- a file that the folder keeps track of may have no other name; it is not handed out
      refine .look hm₁ (looks_ownedNamed _) fun owned _ => ?_
      split
      · exact (sealed_untrack hm₁).bind fun _ m₂ hm₂ _ _ =>
          (sealed_updateFile hm₂ fun _ _ => .of_none rfl).bind fun _ m₃ hm₃ _ _ =>
            sealed_nothing hm₃
      · exact sealed_nothing hm₁
    split
    · exact (sealed_setFiles hm).bind fun u m₁ hm₁ _ _ => hretired u m₁ hm₁
    · exact .look hm (.fault _) fun u _ => hretired u m hm
  split
  · refine .look hm looks_value fun v _ => ?_
    split
    · exact .look hm (.pure _) fun content _ => hremoved content
    · exact .look hm (.fail _ _) fun content _ => hremoved content
  · exact .look hm (.fail _ _) fun content _ => hremoved content

/-- The answers of a step that is taken for each of some things in turn. -/
lemma sealed_mapM {f : α → Run Ref} {m₀ : Machine}
    (hf : ∀ (a : α) (m₁ : Machine), m₁.Seals H → m₀.Spares H m₁ → Sealed H m₁ (f a) (IsNew H))
    (as : List α) : ∀ m : Machine, m.Seals H → m₀.Spares H m →
      Sealed H m (as.mapM f) fun rs m' => ∀ r ∈ rs, m'.Sees H r := by
  induction as with
  | nil =>
    intro m hm _
    rw [List.mapM_nil]
    exact .pure hm fun r hr => nomatch hr
  | cons a as ih =>
    intro m hm hs
    rw [List.mapM_cons]
    refine (hf a m hm hs).bind fun r m₁ hm₁ hs₁ hr => ?_
    refine (ih m₁ hm₁ (hs.trans hs₁)).bind fun rs m₂ hm₂ hs₂ hrs => ?_
    exact .pure hm₂ (List.forall_mem_cons.2 ⟨hr.sees.mono hs₂, hrs⟩)

/-- The answers, where there are any, of a step that is taken for each of some things in turn. -/
lemma sealed_filterMapM {f : α → Run (Option Ref)} {m₀ : Machine}
    (hf : ∀ (a : α) (m₁ : Machine), m₁.Seals H → m₀.Spares H m₁ →
      Sealed H m₁ (f a) fun o m' => ∀ r, o = some r → IsNew H r m') (as : List α) (hm : m.Seals H)
    (hs : m₀.Spares H m) : Sealed H m (as.filterMapM f) fun rs m' => ∀ r ∈ rs, m'.Sees H r := by
  have loop : ∀ (as : List α) (bs : List Ref) (m : Machine), m.Seals H → m₀.Spares H m →
      (∀ r ∈ bs, m.Sees H r) →
      Sealed H m (List.filterMapM.loop f as bs) fun rs m' => ∀ r ∈ rs, m'.Sees H r := by
    intro as
    induction as with
    | nil => exact fun bs m hm _ hbs => .pure hm fun r hr => hbs r (List.mem_reverse.1 hr)
    | cons a as ih =>
      intro bs m hm hs hbs
      refine (hf a m hm hs).bind fun o m₁ hm₁ hs₁ ho => ?_
      have hbs₁ : ∀ r ∈ bs, m₁.Sees H r := fun r hr => (hbs r hr).mono hs₁
      split
      · exact ih _ m₁ hm₁ (hs.trans hs₁) hbs₁
      · exact ih _ m₁ hm₁ (hs.trans hs₁) (List.forall_mem_cons.2 ⟨(ho _ rfl).sees, hbs₁⟩)
  exact loop as [] m hm hs fun r hr => nomatch hr

section

variable (hm : m.Seals H)

include hm

lemma sealed_newList {rs : List Ref} {type : String} (hrs : ∀ r ∈ rs, m.Sees H r) :
    Sealed H m (newList type rs) (IsNew H) := sealed_alloc hm hrs

lemma sealed_listFiles (hr : m.Sees H r) : Sealed H m (listFiles r d p) (IsNew H) := by
  refine .look hm looks_files fun _ _ => .look hm looks_pathsIn fun _ _ => ?_
  refine (sealed_mapM (fun path m₁ hm₁ hs₁ => sealed_openFile hm₁ ?_) _ m hm (.refl m)).bind
    fun rs m₁ hm₁ _ hrs => sealed_newList hm₁ hrs
  rintro q ⟨⟩
  exact hr.mono hs₁

lemma sealed_listFolders : Sealed H m (listFolders d p) (IsNew H) := by
  refine .look hm looks_files fun _ _ => .look hm looks_pathsIn fun _ _ => ?_
  exact (sealed_mapM (fun path m₁ hm₁ _ => sealed_openFolder hm₁) _ m hm (.refl m)).bind
    fun rs m₁ hm₁ _ hrs => sealed_newList hm₁ hrs

lemma sealed_listAudio (hr : m.Sees H r) : Sealed H m (listAudio r d p) (IsNew H) := by
  refine .look hm looks_files fun _ _ => .look hm looks_pathsIn fun _ _ => ?_
  refine (sealed_filterMapM (fun path m₁ hm₁ hs₁ => sealed_openAudio? hm₁ ?_) _ hm (.refl m)).bind
    fun rs m₁ hm₁ _ hrs => sealed_newList hm₁ hrs
  rintro q ⟨⟩
  exact hr.mono hs₁

lemma sealed_getFolder : Sealed H m (getFolder d args p) (IsNew H) :=
  .look hm looks_contentOf fun _ _ => .look hm looks_pathText fun _ _ =>
    .look hm looks_files fun _ _ => .ite (sealed_openFolder hm) (sealed_nothing hm)

lemma sealed_folderName : Sealed H m (folderName d) (IsNew H) :=
  .ite (sealed_nothing hm) (sealed_alloc hm (.of_none rfl))

lemma sealed_callFolder (hr : m.Sees H r) :
    Sealed H m (callFolder r d name args p) (IsNew H) := by
  refine .look hm looks_checkFolder fun _ _ => ?_
  split
  · exact sealed_getFile hm hr
  · exact sealed_addFile hm hr
  · exact sealed_removeFile hm
  · exact sealed_listFiles hm hr
  · exact sealed_listFolders hm
  · exact sealed_listAudio hm hr
  · exact sealed_getFolder hm
  · exact sealed_folderName hm
  · exact .fail hm _ _

lemma sealed_folderAttribute (hr : m.Sees H r) :
    Sealed H m (folderAttribute r d name p) (IsNew H) := by
  refine .look hm looks_checkFolder fun _ _ => ?_
  split
  · exact sealed_alloc hm (.of_none rfl)
  · exact sealed_listFiles hm hr
  · exact sealed_listFolders hm
  · exact sealed_folderName hm
  · exact .fail hm _ _

/-! ## Members -/

lemma sealed_getElement {elements : List Ref} (helements : ∀ e ∈ elements, m.Sees H e) :
    Sealed H m (getElement elements args p) fun r m' => m'.Sees H r := by
  unfold getElement
  split
  · refine .look hm looks_value fun v _ => ?_
    split
    · split
      · rename_i r hr
        refine .pure hm (helements r ?_)
        split at hr
        · exact List.mem_of_getElem? hr
        · cases hr
      · exact .look hm (.ask _) fun _ _ => .fail hm _ _
    · exact .fail hm _ _
  · exact .fail hm _ _

/-- Only an element of a list has a name already. -/
lemma sealed_callList {elements : List Ref} (helements : ∀ e ∈ elements, m.Sees H e) :
    Sealed H m (callList v elements name args p) (Answers H (name ≠ "get")) := by
  unfold callList
  split
  · exact (sealed_getElement hm helements).weaken fun _ _ h => ⟨h, fun hne => absurd rfl hne⟩
  · exact .ite ((sealed_alloc hm (.of_none rfl)).answers) (.fail hm _ _)
  · exact .fail hm _ _

lemma sealed_callMethod (hr : m.Sees H r) (hargs : ∀ a ∈ args, m.Sees H a) :
    Sealed H m (callMethod r name args p) (Answers H (name ≠ "get")) := by
  refine .cell ?_
  have hvalues := hm.values r
  split
  · rename_i t elements h
    rw [h] at hvalues
    exact sealed_callList hm hvalues
  · exact (sealed_callFile hm hargs).answers
  · exact (sealed_callAudio hm hargs).answers
  · exact (sealed_callFolder hm hr).answers
  · exact .fail hm _ _

lemma sealed_getAttribute (hr : m.Sees H r) :
    Sealed H m (getAttribute r name p) (Answers H (name ≠ "parent")) := by
  refine .cell ?_
  have hvalues := hm.values r
  split
  · rename_i f h
    rw [h] at hvalues
    exact sealed_fileAttribute hm (Machine.seesValue_file.1 hvalues)
  · rename_i f a h
    rw [h] at hvalues
    exact sealed_audioAttribute hm (Machine.seesValue_audio.1 hvalues)
  · exact (sealed_folderAttribute hm hr).answers
  · exact .fail hm _ _

end

lemma looks_setAttribute : OnlyLooks (setAttribute r name p) :=
  .bind looks_value fun _ => .fail _ _

lemma sealed_clone (hm : m.Seals H) (hr : m.Sees H r) :
    Sealed H m (clone r) (Answers H ((m.store.get r).isSimple = true)) := by
  refine .cell ?_
  have hvalues := hm.values r
  split
  · exact (sealed_alloc hm (.of_none rfl)).answers
  · exact (sealed_alloc hm (.of_none rfl)).answers
  · exact (sealed_alloc hm (.of_none rfl)).answers
  · exact (sealed_alloc hm (.of_none rfl)).answers
  · rename_i t es h
    rw [h] at hvalues
    exact (sealed_alloc hm hvalues).answers
  · rename_i hint hfloat hstring hbool hlist
    -- what is not copied is not simple
    refine .pure hm ⟨hr, fun hs => ?_⟩
    cases h : m.store.get r <;> simp_all [Value.isSimple]

/-! ## Functions that come with the language -/

lemma sealed_readLine (hm : m.Seals H) : Sealed H m readLine Anything := by
  refine .look hm looks_get fun m' _ => ?_
  split
  · exact ⟨hm.of_store rfl hm.bindings hm.returning hm.functions, .of_store rfl, trivial⟩
  · exact ⟨hm, .refl m⟩
  · exact ⟨hm, .refl m⟩
  · exact ⟨hm.of_store rfl hm.bindings hm.returning hm.functions, .of_store rfl, trivial⟩

lemma sealed_perform (hm : m.Seals H) {b : Builtin} : Sealed H m (perform b args p) (IsNew H) := by
  have hplain : ∀ {v : Value}, v.names = [] → Sealed H m (alloc v) (IsNew H) :=
    fun h => sealed_alloc hm (.of_none h)
  unfold perform
  split
  · exact .look hm looks_datum fun _ _ => .look hm (.ask _) fun _ _ =>
      (sealed_printLine hm).bind fun _ _ hm₁ _ _ => sealed_nothing hm₁
  · exact (sealed_readLine hm).bind fun _ _ hm₁ _ _ => sealed_alloc hm₁ (.of_none rfl)
  case h_3 | h_5 =>
    exact .look hm looks_datum fun _ _ => .look hm (looks_converted _) fun _ _ => hplain rfl
  case h_4 | h_6 | h_7 | h_8 =>
    exact .look hm looks_datum fun _ _ => .look hm (.ask _) fun _ _ => hplain rfl
  · exact .look hm looks_datum fun _ _ => hplain rfl
  · rename_i a
    refine .cell ?_
    split
    · rename_i f hf
      exact sealed_openFile hm ((hm.values a).file? hf)
    · exact .fault hm _
  · refine .look hm looks_usableFile fun f hf => ?_
    have hparent := (hm.values _).file? (file?_of_usableFile hf)
    refine (sealed_openAudio? hm hparent).bind fun o m₁ hm₁ _ ho => ?_
    split
    · exact .pure hm₁ (ho _ rfl)
    · exact sealed_nothing hm₁
  · exact .fault hm _

lemma sealed_guarded {function : String} {x : Run α} {Q : α → Machine → Prop} (h : Sealed H m x Q) :
    Sealed H m (guarded function p x) Q := by
  refine h.tryCatch fun e m₁ hm₁ _ => ?_
  split
  · exact .fail hm₁ _ _
  · exact .fail hm₁ _ _
  · exact ⟨hm₁, .refl m₁⟩

lemma sealed_callBuiltin (hm : m.Seals H) {b : Builtin} :
    Sealed H m (callBuiltin b args p) (IsNew H) := sealed_guarded (sealed_perform hm)

/-! ## Operators -/

lemma names_of_operate {s : Store} {op : BinaryOp} {l r : Value}
    (h : s.operate op l r = .ok (some v)) : v.names = [] := by
  have hints : ∀ a b, op.onInts a b = some v → v.names = [] := by
    intro a b h
    cases op <;> cases h <;> rfl
  have hfloats : ∀ a b, op.onFloats a b = some v → v.names = [] := by
    intro a b h
    cases op <;> cases h <;> rfl
  have hequality : ∀ b, op.onEquality b = some v → v.names = [] := by
    intro b h
    cases op <;> cases h <;> rfl
  unfold Store.operate at h
  split at h
  · injection h with h
    exact hints _ _ h
  · obtain ⟨x, -, h⟩ := answer_of_bind h
    injection h with h
    exact hfloats _ _ h
  · obtain ⟨x, -, h⟩ := answer_of_bind h
    injection h with h
    exact hfloats _ _ h
  · injection h with h
    exact hfloats _ _ h
  · cases op with
    | add =>
      obtain ⟨t, -, h⟩ := answer_of_bind h
      injection h with h
      obtain ⟨t', -, rfl⟩ := Option.map_eq_some_iff.1 h
      rfl
    | _ => cases h <;> rfl
  · injection h with h
    exact hequality _ h
  · split at h
    · injection h with h
      exact hequality _ h
    · cases h

lemma sealed_operate (hm : m.Seals H) {op : BinaryOp} {left right : Ref} :
    Sealed H m (operate op left right p) fun _ m' => Gives H promised m' := by
  refine .look hm looks_value fun l _ => .look hm looks_value fun r _ => ?_
  extract_lets applied
  have happlied : ∀ u, Sealed H m (applied u) fun _ m' => Gives H promised m' := by
    intro u
    refine .look hm looks_get fun m' _ => .look hm (.ask _) fun o ho => ?_
    split
    · rename_i v
      have hv : m'.store.operate op l r = .ok (some v) := by
        cases h : m'.store.operate op l r with
        | error f =>
          rw [h] at ho
          cases ho
        | ok v? =>
          rw [h] at ho
          cases ho
          rfl
      exact sealed_give hm (.of_none (names_of_operate hv))
    · exact .fail hm _ _
  refine .ite (.look hm looks_datum fun d _ => ?_) (happlied ())
  exact .ite (.look hm (.fail _ _) fun u _ => happlied u) (happlied ())

lemma sealed_negate (hm : m.Seals H) : Sealed H m (negate r p) fun _ m' => Gives H promised m' := by
  refine .look hm looks_value fun v _ => ?_
  split
  · exact sealed_give hm (.of_none rfl)
  · exact sealed_give hm (.of_none rfl)
  · exact .fail hm _ _

end Run

end AudLang
