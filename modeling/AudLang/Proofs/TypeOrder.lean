import AudLang.Proofs.Verdicts
import Mathlib.Data.List.Perm.Basic

/-!
The order of types, and what it makes of list literals.

One type is above another when a value of the second may stand where the first is expected.  Nothing
is above two types that cannot be compared: whatever a type accepts is a chain.  This is why a list
literal can be read from left to right with no more in hand than the widest type so far.  The
elements fit together exactly if one of their types is above all others, and then this type is
found, in whatever order the elements stand.
-/

namespace AudLang

/-! ## The order -/

/-- The bases that are types by themselves. -/
def Base.isSimple : Base → Bool
  | list | other _ => false
  | _ => true

lemma Base.ne_list_of_isSimple {b : Base} (h : b.isSimple = true) : b ≠ .list := by
  rintro rfl
  cases h

namespace Ty

variable {a b c t u g : Ty} {ts us : List Ty}

/-- The types of the language: those with a name of their own, and the lists of such types. -/
inductive IsProper : Ty → Prop
  | simple {b : Base} (h : b.isSimple = true) : IsProper (.plain b)
  | list {e : Ty} (h : IsProper e) : IsProper (.list e)

lemma IsProper.isFull (h : t.IsProper) : t.IsFull := by
  induction h with
  | simple h => exact fun hlist => absurd hlist (Base.ne_list_of_isSimple h)
  | list h ih => exact fun _ => ih

/-- A value of the second type may stand where the first is expected. -/
inductive Widens : Ty → Ty → Prop
  | same (t : Ty) : Widens t t
  | null {b : Base} {e : Ty} (h : b = .void ∨ b.isNullable = true) : Widens (.of b e) .null
  | audio : Widens .file .audio
  | list {a b : Ty} (h : Widens a b) : Widens (.list a) (.list b)

/-- Between types that are not both lists, only the bases matter. -/
lemma accepts_iff_of_ne {b b' : Base} (e e' : Ty) (h : b = .list → b' ≠ .list) :
    (of b e).accepts (of b' e') = .ok true ↔
      b = b' ∨ b = .void ∧ b' = .null ∨ b = .file ∧ b' = .audio ∨ b' = .null ∧
        b.isNullable = true := by
  rw [accepts]
  · simp [or_assoc]
  · exact fun hb hb' => h hb hb'

lemma Widens.accepts (h : t.Widens u) (ht : t.IsProper) : t.accepts u = .ok true := by
  induction h with
  | same t =>
    induction ht with
    | simple hb =>
      exact (accepts_iff_of_ne _ _ fun hlist => absurd hlist (Base.ne_list_of_isSimple hb)).2
        (.inl rfl)
    | list _ ih => exact ih
  | @null b e h =>
    refine (accepts_iff_of_ne _ _ fun _ hnull => by cases hnull).2 ?_
    rcases h with rfl | h
    · exact .inr (.inl ⟨rfl, rfl⟩)
    · exact .inr (.inr (.inr ⟨rfl, h⟩))
  | audio => rfl
  | list h ih =>
    cases ht with
    | simple hb => cases hb
    | list ht => exact ih ht

lemma widens_of_accepts (ht : t.IsProper) (hu : u.IsProper) (h : t.accepts u = .ok true) :
    t.Widens u := by
  induction ht generalizing u with
  | simple hb =>
    cases hu with
    | simple hb' =>
      rcases (accepts_iff_of_ne _ _ fun hlist => absurd hlist (Base.ne_list_of_isSimple hb)).1
        h with
        rfl | ⟨rfl, rfl⟩ | ⟨rfl, rfl⟩ | ⟨rfl, hnullable⟩
      · exact .same _
      · exact .null (.inl rfl)
      · exact .audio
      · exact .null (.inr hnullable)
    | list hu =>
      -- no type but a list is above a list
      rcases (accepts_iff_of_ne _ _ fun hlist => absurd hlist (Base.ne_list_of_isSimple hb)).1
        h with
        rfl | ⟨-, hlist⟩ | ⟨-, hlist⟩ | ⟨hlist, -⟩
      · cases hb
      all_goals cases hlist
  | list ht ih =>
    cases hu with
    | simple hb' =>
      -- of the types that are no lists only null is below one
      rcases (accepts_iff_of_ne _ _ fun _ => Base.ne_list_of_isSimple hb').1 h with
        rfl | ⟨hlist, -⟩ | ⟨hlist, -⟩ | ⟨rfl, -⟩
      · cases hb'
      · cases hlist
      · cases hlist
      · exact .null (.inr rfl)
    | list hu => exact .list (ih hu h)

/-- On the types of the language, `accepts` decides the order. -/
lemma accepts_iff_widens (ht : t.IsProper) (hu : u.IsProper) :
    t.accepts u = .ok true ↔ t.Widens u :=
  ⟨widens_of_accepts ht hu, fun h => h.accepts ht⟩

lemma not_widens_of_accepts (ht : t.IsProper) (h : t.accepts u = .ok false) : ¬ t.Widens u := by
  intro hwidens
  rw [hwidens.accepts ht] at h
  cases h

lemma Widens.eq_of_null (h : Ty.null.Widens t) : t = .null := by
  cases h with
  | same => rfl
  | null h => rfl

lemma Widens.trans (h : a.Widens b) (h' : b.Widens c) : a.Widens c := by
  induction h generalizing c with
  | same => exact h'
  | null h =>
    obtain rfl := h'.eq_of_null
    exact .null h
  | audio =>
    cases h' with
    | same => exact .audio
    | null => exact .null (.inr rfl)
  | list h ih =>
    cases h' with
    | same => exact .list h
    | null => exact .null (.inr rfl)
    | list h' => exact .list (ih h')

lemma Widens.antisymm (h : a.Widens b) (h' : b.Widens a) : a = b := by
  induction h with
  | same => rfl
  | null => exact h'.eq_of_null
  | audio => cases h'
  | list h ih =>
    cases h' with
    | same => rfl
    | list h' => rw [ih h']

lemma Widens.comparable (h : c.Widens a) (h' : c.Widens b) : a.Widens b ∨ b.Widens a := by
  induction h generalizing b with
  | same => exact .inl h'
  | null h =>
    -- whatever stands beside null below one type is above null
    cases h' with
    | same => exact .inr (.null h)
    | null => exact .inl (.same _)
    | audio => exact .inr (.null (.inr rfl))
    | list => exact .inr (.null (.inr rfl))
  | audio =>
    cases h' with
    | same => exact .inr .audio
    | null => exact .inl (.null (.inr rfl))
    | audio => exact .inl (.same _)
  | list h ih =>
    cases h' with
    | same => exact .inr (.list h)
    | null => exact .inl (.null (.inr rfl))
    | list h' => exact (ih h').imp .list .list

lemma widens_null_iff (ht : t.IsProper) :
    t.Widens .null ↔ t ∈ [null, void, string, file, folder, audio] ∨ ∃ e, t = .list e := by
  cases ht with
  | simple hb =>
    rename_i b
    rw [← accepts_iff_widens (.simple hb) (.simple rfl)]
    cases b with
    | list | other name => cases hb
    | _ => simp [accepts, Base.isNullable]
  | list h => exact ⟨fun _ => .inr ⟨_, rfl⟩, fun _ => .null (.inr rfl)⟩

/-- On the types of the language it is always decided whether one accepts another.  This is a
partial order, and the types that one accepts are a chain.  Lists are covariant, and null is
accepted by itself, by the types of nothing, texts and objects, and by every list. -/
theorem accepts_is_order (ha : a.IsProper) (hb : b.IsProper) (hc : c.IsProper) :
    (∃ answer, a.accepts b = .ok answer) ∧ a.accepts a = .ok true ∧
      (a.accepts b = .ok true → b.accepts c = .ok true → a.accepts c = .ok true) ∧
      (a.accepts b = .ok true → b.accepts a = .ok true → a = b) ∧
      (c.accepts a = .ok true → c.accepts b = .ok true → a.accepts b = .ok true ∨
        b.accepts a = .ok true) ∧
      (.list a : Ty).accepts (.list b) = a.accepts b ∧
      (a.accepts null = .ok true ↔ a ∈ [null, void, string, file, folder, audio] ∨
        ∃ e, a = .list e) := by
  refine ⟨ha.isFull.exists_accepts hb.isFull, (Widens.same a).accepts ha, ?_⟩
  rw [accepts_iff_widens ha hb, accepts_iff_widens hb hc, accepts_iff_widens ha hc,
    accepts_iff_widens hb ha,
    accepts_iff_widens hc ha, accepts_iff_widens hc hb, accepts_iff_widens ha (.simple rfl)]
  exact ⟨Widens.trans, Widens.antisymm, Widens.comparable, rfl, widens_null_iff ha⟩

/-- A list of lists of files is above one of recordings, which is above one of nulls. -/
theorem accepts_is_order_lists :
    (list (list file)).IsProper ∧ (list (list audio)).IsProper ∧ (list (list null)).IsProper ∧
      (list (list file)).accepts (list (list null)) = .ok true := by
  have hfile : (list (list file)).IsProper := .list (.list (.simple rfl))
  have haudio : (list (list audio)).IsProper := .list (.list (.simple rfl))
  have hnull : (list (list null)).IsProper := .list (.list (.simple rfl))
  exact ⟨hfile, haudio, hnull, (accepts_is_order hfile haudio hnull).2.2.1 rfl rfl⟩

/-! ## Greatest types -/

/-- One of the types is above all of them. -/
structure Tops (t : Ty) (ts : List Ty) : Prop where
  mem : t ∈ ts
  widens : ∀ u ∈ ts, t.Widens u

lemma tops_singleton (t : Ty) : t.Tops [t] := by
  refine ⟨List.mem_singleton_self t, fun u hu => ?_⟩
  rw [List.mem_singleton.1 hu]
  exact .same t

lemma Tops.eq (h : t.Tops ts) (h' : u.Tops ts) : t = u :=
  (h.widens u h'.mem).antisymm (h'.widens t h.mem)

lemma Tops.perm (h : t.Tops ts) (hp : ts.Perm us) : t.Tops us :=
  ⟨hp.mem_iff.1 h.mem, fun u hu => h.widens u (hp.mem_iff.2 hu)⟩

/-- A type below one of the others changes nothing. -/
lemma tops_cons_iff (h : t.Widens u) : g.Tops (t :: u :: ts) ↔ g.Tops (t :: ts) := by
  constructor
  · rintro ⟨hmem, hwidens⟩
    obtain ⟨hgt, hrest⟩ := List.forall_mem_cons.1 hwidens
    refine ⟨?_, List.forall_mem_cons.2 ⟨hgt, (List.forall_mem_cons.1 hrest).2⟩⟩
    rcases List.mem_cons.1 hmem with rfl | hmem
    · exact List.mem_cons_self
    rcases List.mem_cons.1 hmem with rfl | hmem
    · -- the greatest type is the one below, so it is the one above as well
      rw [hgt.antisymm h]
      exact List.mem_cons_self
    · exact List.mem_cons_of_mem _ hmem
  · rintro ⟨hmem, hwidens⟩
    obtain ⟨hgt, hrest⟩ := List.forall_mem_cons.1 hwidens
    refine ⟨?_, List.forall_mem_cons.2 ⟨hgt, List.forall_mem_cons.2 ⟨hgt.trans h, hrest⟩⟩⟩
    rcases List.mem_cons.1 hmem with rfl | hmem
    · exact List.mem_cons_self
    · exact List.mem_cons_of_mem _ (List.mem_cons_of_mem _ hmem)

lemma tops_cons_iff' (h : u.Widens t) : g.Tops (t :: u :: ts) ↔ g.Tops (u :: ts) :=
  ⟨fun hg => (tops_cons_iff h).1 (hg.perm (.swap _ _ _)),
    fun hg => ((tops_cons_iff h).2 hg).perm (.swap _ _ _)⟩

/-- Types that cannot be compared are not both below another. -/
lemma not_tops_of_incomparable (h : ¬ t.Widens u) (h' : ¬ u.Widens t) :
    ¬ g.Tops (t :: u :: ts) := by
  intro hg
  rcases (hg.widens t (by simp)).comparable (hg.widens u (by simp)) with hwidens | hwidens
  · exact h hwidens
  · exact h' hwidens

lemma tops_iff_accepts (hts : ∀ t ∈ ts, t.IsProper) :
    t.Tops ts ↔ t ∈ ts ∧ ∀ u ∈ ts, t.accepts u = .ok true := by
  constructor
  · exact fun h => ⟨h.mem, fun u hu => (h.widens u hu).accepts (hts t h.mem)⟩
  · exact fun h => ⟨h.1, fun u hu => (accepts_iff_widens (hts t h.1) (hts u hu)).1 (h.2 u hu)⟩

end Ty

/-! ## List literals -/

namespace Checker

/-- The checker gives some expressions these types. -/
def Gives (k : Checker) (es : List Node) (ts : List Ty) : Prop :=
  List.Forall₂ (fun e t => Check.typed e (Check.visit e) k = .ok t k) es ts

/-- The stop names one of the elements, with its type and that of those before it. -/
def MismatchIn (es : List Node) (stop : CheckStop) : Prop :=
  ∃ e ∈ es, ∃ i t soFar, stop = .flawed (.badElement i t soFar) e.start

lemma MismatchIn.tail {e : Node} {es : List Node} {stop : CheckStop} (h : MismatchIn es stop) :
    MismatchIn (e :: es) stop := by
  obtain ⟨e', he', h⟩ := h
  exact ⟨e', List.mem_cons_of_mem _ he', h⟩

end Checker

namespace Check

open Checker

variable {k : Checker} {n : Node} {es : List Node} {ts : List Ty} {soFar t : Ty}

lemma isPresent_of_typed (h : typed n (visit n) k = .ok t k) : n.isPresent = true := by
  cases n with
  | missing => cases h
  | _ => rfl

/-- Of two types the one above is kept, and two that cannot be compared are a flaw. -/
lemma join_settles (hs : soFar.IsProper) (ht : t.IsProper) (hn : n.isPresent = true) (i : Nat) :
    Ends (join n i soFar t k)
      (fun u k' => k' = k ∧ u.IsProper ∧ ∀ (g : Ty) ts, g.Tops (soFar :: t :: ts) ↔
        g.Tops (u :: ts))
      (fun stop k' => k' = k ∧ stop = .flawed (.badElement i t soFar) n.start ∧
        ∀ (g : Ty) ts, ¬ g.Tops (soFar :: t :: ts)) := by
  obtain ⟨b, hb⟩ := hs.isFull.exists_accepts ht.isFull
  obtain ⟨b', hb'⟩ := ht.isFull.exists_accepts hs.isFull
  rw [join, hb, hb']
  cases b with
  | true => exact ⟨rfl, hs, fun g ts => Ty.tops_cons_iff (Ty.widens_of_accepts hs ht hb)⟩
  | false =>
    cases b' with
    | true => exact ⟨rfl, ht, fun g ts => Ty.tops_cons_iff' (Ty.widens_of_accepts ht hs hb')⟩
    | false =>
      show Ends (flag (.badElement i t soFar) n k) _ _
      rw [flag_run _ hn]
      exact ⟨rfl, rfl, fun g ts => Ty.not_tops_of_incomparable (Ty.not_widens_of_accepts hs hb)
        (Ty.not_widens_of_accepts ht hb')⟩

/-- The elements behind a first one of type `soFar` come to the greatest type of all, if there is
one. -/
lemma elements_settle (h : k.Gives es ts) (hts : ∀ t ∈ ts, t.IsProper) :
    ∀ (i : Nat) {soFar : Ty}, soFar.IsProper → Ends (elements i soFar es k)
      (fun g k' => k' = k ∧ g.Tops (soFar :: ts))
      (fun stop k' => k' = k ∧ MismatchIn es stop ∧ ∀ g : Ty, ¬ g.Tops (soFar :: ts)) := by
  induction h with
  | nil => exact fun i soFar _ => ⟨rfl, Ty.tops_singleton soFar⟩
  | @cons e t es ts he _ ih =>
    intro i soFar hs
    obtain ⟨ht, hts⟩ := List.forall_mem_cons.1 hts
    rw [elements, bind_of_ok he]
    -- the wider of the two types takes the place of both
    refine Ends.bind ((join_settles hs ht (isPresent_of_typed he) i).weaken (fun _ _ _ h => h)
      fun stop k' _ h => ⟨h.1, ⟨e, List.mem_cons_self, i, t, soFar, h.2.1⟩, fun g => h.2.2 g ts⟩)
      fun u k₁ _ h₁ => ?_
    obtain ⟨rfl, hu, htops⟩ := h₁
    refine (ih hts (i + 1) hu).weaken (fun g _ _ h => ⟨h.1, (htops g ts).2 h.2⟩) fun stop _ _ h =>
      ?_
    exact ⟨h.1, h.2.1.tail, fun g hg => h.2.2 g ((htops g ts).1 hg)⟩

/-- A list literal is a list of the greatest type of its elements, and there is a flaw in it if they
have none. -/
lemma list_settles (hne : es ≠ []) (h : k.Gives es ts) (hts : ∀ t ∈ ts, t.IsProper) (s : Span) :
    Ends (visit (.list s es) k) (fun t k' => k' = k ∧ ∃ g : Ty, t = .list g ∧ g.Tops ts)
      (fun stop k' => k' = k ∧ MismatchIn es stop ∧ ∀ g : Ty, ¬ g.Tops ts) := by
  cases h with
  | nil => exact absurd rfl hne
  | @cons e t es ts he hes =>
    obtain ⟨ht, hts⟩ := List.forall_mem_cons.1 hts
    rw [visit, bind_of_ok he]
    refine Ends.bind ((elements_settle hes hts 2 ht).mono_error
      fun stop _ h => ⟨h.1, h.2.1.tail, h.2.2⟩) fun g k₁ _ h₁ => ?_
    exact ⟨h₁.1, g, rfl, h₁.2⟩

lemma list_ok_iff (hne : es ≠ []) (h : k.Gives es ts) (hts : ∀ t ∈ ts, t.IsProper) (s : Span)
    {t : Ty}
    {k' : Checker} : visit (.list s es) k = .ok t k' ↔ k' = k ∧ ∃ g : Ty, t = .list g ∧
      g.Tops ts := by
  have hsettles := list_settles hne h hts s
  refine ⟨hsettles.ok, ?_⟩
  rintro ⟨rfl, g, rfl, hg⟩
  cases hv : visit (.list s es) k' with
  | error stop k₁ => exact absurd hg ((hsettles.error hv).2.2 g)
  | ok t' k₁ =>
    obtain ⟨rfl, g', rfl, hg'⟩ := hsettles.ok hv
    rw [hg.eq hg']

end Check

namespace Checker

open Check

lemma Gives.perm {k : Checker} {es es' : List Node} {ts : List Ty} (h : k.Gives es ts)
    (hp : es'.Perm es) : ∃ ts', k.Gives es' ts' ∧ ts'.Perm ts := List.perm_comp_forall₂ hp h

/-- A literal with elements of types of the language is accepted if and only if one of these types
accepts all of them, and it is a list of this type, in whatever order the elements stand.  Otherwise
there is a flaw at one of its elements. -/
theorem list_literal_takes_greatest {k : Checker} {es : List Node} {ts : List Ty} (hne : es ≠ [])
    (h : k.Gives es ts) (hts : ∀ t ∈ ts, t.IsProper) (s : Span) :
    ((∃ t k', visit (.list s es) k = .ok t k') ↔ ∃ t ∈ ts, ∀ u ∈ ts, t.accepts u = .ok true) ∧
      (∀ t ∈ ts, (∀ u ∈ ts, t.accepts u = .ok true) → visit (.list s es) k = .ok (.list t) k) ∧
      (∀ es', es'.Perm es → ∀ s' t k', visit (.list s' es') k = .ok t k' ↔
        visit (.list s es) k = .ok t k') ∧
      (∀ stop k', visit (.list s es) k = .error stop k' → k' = k ∧ MismatchIn es stop) := by
  have htops (t : Ty) := Ty.tops_iff_accepts (t := t) hts
  refine ⟨⟨?_, ?_⟩, ?_, ?_, ?_⟩
  · rintro ⟨t, k', hv⟩
    obtain ⟨-, g, -, hg⟩ := (list_ok_iff hne h hts s).1 hv
    exact ⟨g, (htops g).1 hg⟩
  · rintro ⟨t, ht⟩
    exact ⟨.list t, k, (list_ok_iff hne h hts s).2 ⟨rfl, t, rfl, (htops t).2 ht⟩⟩
  · exact fun t ht hall => (list_ok_iff hne h hts s).2 ⟨rfl, t, rfl, (htops t).2 ⟨ht, hall⟩⟩
  · intro es' hperm s' t k'
    obtain ⟨ts', h', hperm'⟩ := h.perm hperm
    have hne' : es' ≠ [] := fun hnil => hne (by simpa [hnil] using hperm.symm)
    rw [list_ok_iff hne' h' (fun t ht => hts t (hperm'.mem_iff.1 ht)) s', list_ok_iff hne h hts s]
    constructor
    · rintro ⟨hk, g, ht, hg⟩
      exact ⟨hk, g, ht, hg.perm hperm'⟩
    · rintro ⟨hk, g, ht, hg⟩
      exact ⟨hk, g, ht, hg.perm hperm'.symm⟩
  · intro stop k' hv
    obtain ⟨hk, hmismatch, -⟩ := (list_settles hne h hts s).error hv
    exact ⟨hk, hmismatch⟩

end Checker

/-- A checker that knows a recording and a file. -/
def Checker.withFiles : Checker := { global := ⟨[("a", .audio), ("f", .file)]⟩ }

/-- `[a]`, `[]` and `[f]` -/
def Node.fileLists : List Node :=
  [.list (.columns 1 3) [.name (.columns 2 2) "a"], .list (.columns 5 6) [],
    .list (.columns 8 10) [.name (.columns 9 9) "f"]]

/-- Recordings, nothing at all and files make a list of lists of files, also the other way round. -/
theorem Checker.list_literal_takes_greatest_files :
    withFiles.Gives Node.fileLists [.list .audio, .list .null, .list .file] ∧
      Check.visit (.list (.columns 0 11) Node.fileLists) withFiles = .ok (.list (.list .file))
      withFiles ∧
      Check.visit (.list (.columns 0 11) Node.fileLists.reverse)
        withFiles = .ok (.list (.list .file)) withFiles := by
  have hgives : withFiles.Gives Node.fileLists [.list .audio, .list .null, .list .file] :=
    .cons rfl (.cons rfl (.cons rfl .nil))
  have hproper : ∀ t ∈ [Ty.list .audio, .list .null, .list .file], t.IsProper := by
    simp only [List.mem_cons, List.not_mem_nil, or_false, forall_eq_or_imp, forall_eq]
    exact ⟨.list (.simple rfl), .list (.simple rfl), .list (.simple rfl)⟩
  obtain ⟨-, hgreatest, hperm, -⟩ :=
    list_literal_takes_greatest (by simp [Node.fileLists]) hgives hproper (.columns 0 11)
  have hfiles := hgreatest (.list .file) (by simp) (by decide)
  exact ⟨hgives, hfiles, (hperm _ (List.reverse_perm _) _ _ _).2 hfiles⟩

end AudLang
