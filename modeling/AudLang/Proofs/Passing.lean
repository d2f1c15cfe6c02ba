import AudLang.Proofs.Frames
import AudLang.Proofs.Kinds
import AudLang.Proofs.Scoping
import AudLang.Proofs.Sharing

/-!
What calls do to the variables they are given.

A parameter names the very cell that its argument lives in.  An assignment writes into this cell,
and then the caller's variable changes with the parameter; but it makes the parameter name another
cell when null is assigned to a string or a string to null, and from there on the two go separate
ways.
-/

namespace AudLang

open Run Moment

variable {t : Ty} {ps : List Node}

/-! ## Cells -/

namespace Store

variable {s s' : Store} {q q' r : Ref} {v : Value} {u : Ty}

/-- One cell is as good as the other: it is the same, or both hold null. -/
inductive Alike (s : Store) : Ref → Ref → Prop
  | same (r : Ref) : Alike s r r
  | null {q r : Ref} (hq : q < s.next) (hr : r < s.next) (hq' : s.get q = .null)
      (hr' : s.get r = .null) : Alike s q r

namespace Alike

lemma symm (h : s.Alike q r) : s.Alike r q := by
  cases h with
  | same => exact .same _
  | null hq hr hq' hr' => exact .null hr hq hr' hq'

lemma trans (h : s.Alike q q') (h' : s.Alike q' r) : s.Alike q r := by
  cases h with
  | same => exact h'
  | null hq _ hq' _ =>
    cases h' with
    | same => exact .null hq ‹_› hq' ‹_›
    | null _ hr _ hr' => exact .null hq hr hq' hr'

lemma get_eq (h : s.Alike q r) : s.get q = s.get r := by
  cases h with
  | same => rfl
  | null _ _ hq hr => exact hq.trans hr.symm

lemma lt (h : s.Alike q r) (hr : r < s.next) : q < s.next := by
  cases h with
  | same => exact hr
  | null hq => exact hq

lemma of_keeps (h : s.Alike q r) (hs : s.Keeps s') : s'.Alike q r := by
  have hnull {r : Ref} (hr : r < s.next) (hr' : s.get r = .null) : s'.get r = .null := by
    rw [(hs.get r hr).eq_of_isFixed (by rw [hr']; rfl), hr']
  cases h with
  | same => exact .same _
  | null hq hr hq' hr' =>
    exact .null (Nat.lt_of_lt_of_le hq hs.next) (Nat.lt_of_lt_of_le hr hs.next) (hnull hq hq')
      (hnull hr hr')

/-- Null is not written over. -/
lemma of_put (h : s.Alike q r) {target : Ref} (hfits : (s.get target).fits v = true) :
    (s.put target v).Alike q r := by
  have hnull {r : Ref} (hr' : s.get r = .null) : (s.put target v).get r = .null := by
    have hne : r ≠ target := by
      rintro rfl
      rw [hr'] at hfits
      cases hfits
    rw [Store.get_put_of_ne hne, hr']
  cases h with
  | same => exact .same _
  | null hq hr hq' hr' =>
    exact .null (by simpa using hq) (by simpa using hr) (hnull hq') (hnull hr')

end Alike

end Store

/-- What a simple type accepts is of its kind, or null for a string. -/
lemma Ty.base_of_simple {u : Ty} (ht : t ∈ [Ty.int, .float, .bool, .string])
    (h : t.accepts u = .ok true) :
    ∃ b e, u = .of b e ∧
      (b ∈ [Base.int, .float, .bool] ∨ t = .string ∧ b ∈ [Base.string, .null]) := by
  simp only [List.mem_cons, List.not_mem_nil, or_false] at ht ⊢
  obtain _ | ⟨b, e⟩ := u
  · rcases ht with rfl | rfl | rfl | rfl <;> cases h
  · refine ⟨b, e, rfl, ?_⟩
    rcases ht with rfl | rfl | rfl | rfl <;> cases b <;> simp_all [Ty.accepts, Base.isNullable]

lemma Ty.accepts_self_of_simple (ht : t ∈ [Ty.int, .float, .bool, .string]) :
    t.accepts t = .ok true := by
  simp only [List.mem_cons, List.not_mem_nil, or_false] at ht
  rcases ht with rfl | rfl | rfl | rfl <;> rfl

namespace Store.Suits

variable {s s' : Store} {q r : Ref} {u : Ty}

lemma value_of_simple (ht : t ∈ [Ty.int, .float, .bool, .string]) (h : t.accepts u = .ok true) :
    ∃ b, (∀ {a}, s.Suits a u → a < s.next ∧ (s.get a).suits b = true) ∧
      (t = .string ∨ ∀ {v : Value}, v.suits b = true → v.isNull = false) := by
  obtain ⟨b, e, rfl, hb⟩ := Ty.base_of_simple ht h
  have hloose : b.isLoose = false ∧ b ≠ .list := by
    rcases hb with hb | ⟨-, hb⟩ <;> simp only [List.mem_cons, List.not_mem_nil, or_false] at hb
    · rcases hb with rfl | rfl | rfl <;> exact ⟨rfl, by simp⟩
    · rcases hb with rfl | rfl <;> exact ⟨rfl, by simp⟩
  refine ⟨b, fun ha => ha.value_of_base (by simp [Ty.hasBase, Ty.base?]) hloose.1 hloose.2, ?_⟩
  rcases hb with hb | ⟨rfl, -⟩
  · right
    intro v hv
    simp only [List.mem_cons, List.not_mem_nil, or_false] at hb
    cases v <;> first | rfl | (rcases hb with rfl | rfl | rfl <;> cases hv)
  · exact .inl rfl

/-- Of two cells of a simple type one is written over the other, unless null is among them. -/
lemma alike (ht : t ∈ [Ty.int, .float, .bool, .string]) (h : t.accepts u = .ok true)
    (hq : s.Suits q u) (hr : s.Suits r u) (hf : (s.get q).fits (s.get r) = false)
    (hnull : t = .string → (s.get q).isNull = (s.get r).isNull) : s.Alike q r := by
  obtain ⟨b, hvalue, hfull⟩ := value_of_simple (s := s) ht h
  obtain ⟨hq, hq'⟩ := hvalue hq
  obtain ⟨hr, hr'⟩ := hvalue hr
  have hnull' : (s.get q).isNull = (s.get r).isNull := by
    rcases hfull with hstring | hfull
    · exact hnull hstring
    · rw [hfull hq', hfull hr']
  cases hn : (s.get r).isNull with
  | false => rw [Value.fits_of_suits hq' hr' (hnull'.trans hn) hn] at hf; cases hf
  | true =>
    have heq {v : Value} (hv : v.isNull = true) : v = .null := by cases v <;> first | rfl | cases hv
    exact .null hq hr (heq (hnull'.trans hn)) (heq hn)

/-- What is in a cell of a simple type stays there, and with it what is in a cell as good as
this. -/
lemma get_eq (ht : t ∈ [Ty.int, .float, .bool, .string]) (h : s.Suits r t) (hq : s.Alike q r)
    (hs : s.Keeps s') : s'.get q = s.get r := by
  obtain ⟨b, hvalue, -⟩ := value_of_simple (s := s) ht (Ty.accepts_self_of_simple ht)
  obtain ⟨hr, hsuits⟩ := hvalue h
  rw [(hs.get q (hq.lt hr)).eq_of_isFixed (by rw [hq.get_eq]; exact Value.isFixed_of_suits hsuits),
    hq.get_eq]

end Store.Suits

/-! ## Scopes -/

namespace Context

variable {c c' : Context} {name p : String} {q r : Ref}

/-- What the base scope has, it goes on to have when a variable is added. -/
lemma get?_base_add (h : c.base.get? p = some q) : (c.add name r).base.get? p = some q := by
  unfold Context.add
  cases c.inner with
  | cons => exact h
  | nil =>
    have hfound : c.base.bindings.lookup p = some q := h
    simp [Scope.get?, Scope.add, List.lookup_append, hfound]

/-- A variable of the context is rebound in a block, or it is in none and is rebound in the base
scope. -/
lemma base_of_rebind (h : c.rebind name r = some c') :
    c'.base = c.base ∨ Scopes.get? c.inner name = none ∧ c'.base = c.base.rebind name r := by
  unfold Context.rebind at h
  split at h
  · cases h
    exact .inl rfl
  · rename_i hinner
    split at h
    · cases h
      exact .inr ⟨get?_of_rebindIn_none hinner, rfl⟩
    · cases h

end Context

namespace Machine

variable {m₀ m₁ m m' : Machine} {x p : String} {q r : Ref}

/-- The scopes that the current context has besides the base scope of the module. -/
def own (m : Machine) : List Scope :=
  match m.calls with
  | c :: _ => c.scopes
  | [] => m.module.inner

lemma lookup?_eq (m : Machine) (name : String) :
    m.lookup? name = (Scopes.get? m.own name).or (m.module.base.get? name) := by
  have hvisible : m.visible = m.own ++ [m.module.base] := by
    unfold Machine.visible own
    cases m.calls <;> rfl
  have hbase : Scopes.get? [m.module.base] name = m.module.base.get? name := by
    simp [Scopes.get?]
  rw [← hbase, ← Scopes.get?_append, ← hvisible]
  rfl

lemma Over.own_eq (h : m₀.Over m) (hcalls : m.calls = m₀.calls) : m.own = m₀.own := by
  obtain ⟨base, hmodule⟩ := h.module
  unfold own
  rw [hcalls, hmodule]

/-- If the variable is found at all, then in the base scope of the context that stands over so many
others. -/
inductive Means (m : Machine) (name : String) : Nat → Prop
  | current (h : Scopes.get? m.current.inner name = none) : Means m name m.calls.length
  | global (h : Scopes.get? m.own name = none) : Means m name 0

/-- What the variable is for the current context of the first machine, it still is on the second
one: a cell that is as good as this one. -/
structure Shows (m₀ : Machine) (x : String) (r : Ref) (m : Machine) : Prop where
  below : m₀.Over m
  cell : ∃ q, (Scopes.get? m₀.own x).or (m.module.base.get? x) = some q ∧ m.store.Alike q r

lemma Shows.undisturbed (h : m₀.Shows x r m) (hq : m.Undisturbed m') : m₀.Shows x r m' := by
  obtain ⟨hover, q, hcell, halike⟩ := h
  exact ⟨hover.undisturbed hq, q, by rw [hq.module]; exact hcell, halike.of_keeps hq.store⟩

/-- Deeds of calls change it only where they make the variable, one of the module's, name another
cell. -/
lemma Shows.makes (h : m₀.Shows x r m) {k : Deed} (hk : k.Makes m m')
    (hlt : k.isInner = true → m₀.calls.length < m.calls.length)
    (hassign : ∀ {q s pos}, k = .assign x s pos → Scopes.get? m₀.own x = none → m.Means x 0 →
      m.lookup? x = some q →
      (m.store.get q).fits (m.store.get s) = false → m.store.Alike q s) : m₀.Shows x r m' := by
  refine ⟨h.below.makes hk hlt, ?_⟩
  obtain ⟨q, hq, halike⟩ := h.cell
  have hupdate (hlt : m₀.calls.length < m.calls.length) (f : Context → Context) :
      (m.updateCurrent f).module = m.module := by
    obtain ⟨c, cs, hcalls, -⟩ := h.below.exists_cons hlt
    simp only [Machine.updateCurrent, hcalls]
  cases hk with
  | declare | enter | exit =>
    rw [hupdate (hlt rfl), Machine.updateCurrent_store]
    exact ⟨q, hq, halike⟩
  | put _ _ hf => exact ⟨q, hq, halike.of_put hf⟩
  | call | leave | note | register => exact ⟨q, hq, halike⟩
  | @rebind name q' s m pos hlookup hf =>
    obtain ⟨c, cs, hcalls, -⟩ := h.below.exists_cons (hlt rfl)
    simp only [Machine.rebind, hcalls]
    cases hc : c.rebind name s with
    | some c' => exact ⟨q, hq, halike⟩
    | none =>
      cases hown : Scopes.get? m₀.own x with
      | some a => exact ⟨q, by rw [hown] at hq; exact hq, halike⟩
      | none =>
        rw [hown, Option.none_or] at hq
        simp only [Option.none_or, Scope.get?_rebind, hq, Option.map_some]
        by_cases hx : x = name
        · subst hx
          have hmeans : Scopes.get? m.own x = none := by
            rw [own, hcalls]
            exact Context.get?_of_rebind_none hc
          have hq' : m.lookup? x = some q := by rw [lookup?_eq, hmeans, Option.none_or, hq]
          cases hlookup.symm.trans hq'
          exact ⟨s, by rw [if_pos rfl],
            (hassign rfl hown (.global hmeans) hq' hf).symm.trans halike⟩
        · exact ⟨q, by rw [if_neg hx], halike⟩

/-- Over the calls of the first machine there is one with a parameter that names, on the second
machine, a cell as good as this one. -/
def Lends (m₁ : Machine) (p : String) (r : Ref) (m : Machine) : Prop :=
  ∃ callee q, callee :: m₁.calls <:+ m.calls ∧ callee.base.get? p = some q ∧ m.store.Alike q r

namespace Lends

lemma undisturbed (h : m₁.Lends p r m) (hq : m.Undisturbed m') : m₁.Lends p r m' := by
  obtain ⟨callee, q, hcalls, hcell, halike⟩ := h
  exact ⟨callee, q, by rw [hq.calls]; exact hcalls, hcell, halike.of_keeps hq.store⟩

/-- The call with the parameter is the innermost, or it has called others. -/
lemma innermost (h : m₁.Lends p r m) : ∃ callee q c cs, m.calls = c :: cs ∧
    callee.base.get? p = some q ∧
    m.store.Alike q r ∧ (c = callee ∧ cs = m₁.calls ∨ callee :: m₁.calls <:+ cs) := by
  obtain ⟨callee, q, hcalls, hcell, halike⟩ := h
  cases hm : m.calls with
  | nil => rw [hm] at hcalls; cases List.suffix_nil.1 hcalls
  | cons c cs =>
    refine ⟨callee, q, c, cs, rfl, hcell, halike, ?_⟩
    rw [hm] at hcalls
    rcases List.suffix_cons_iff.1 hcalls with heq | hsuffix
    · cases heq
      exact .inl ⟨rfl, rfl⟩
    · exact .inr hsuffix

lemma updateCurrent (h : m₁.Lends p r m) {f : Context → Context}
    (hf : ∀ c q, c.base.get? p = some q → (f c).base.get? p = some q) :
    m₁.Lends p r (m.updateCurrent f) := by
  obtain ⟨callee, q, c, cs, hcalls, hcell, halike, hcase⟩ := h.innermost
  have heq : m.updateCurrent
    f = { m with calls := f c :: cs } := by simp only [Machine.updateCurrent, hcalls]
  rw [heq]
  rcases hcase with ⟨rfl, rfl⟩ | hsuffix
  · exact ⟨f c, q, List.suffix_refl _, hf c q hcell, halike⟩
  · exact ⟨callee, q, hsuffix.trans (List.suffix_cons _ _), hcell, halike⟩

/-- Deeds change it only where they make the parameter name another cell, or close the context of
its call. -/
lemma makes (h : m₁.Lends p r m) {k : Deed} (hk : k.Makes m m')
    (hleave : k = .leave → m₁.calls.length + 1 < m.calls.length)
    (hassign : ∀ {q s pos}, k = .assign p s pos → m.Means p (m₁.calls.length + 1) →
      m.lookup? p = some q →
      (m.store.get q).fits (m.store.get s) = false → m.store.Alike q s) : m₁.Lends p r m' := by
  obtain ⟨callee, q, c, cs, hcalls, hcell, halike, hcase⟩ := h.innermost
  cases hk with
  | declare => exact h.updateCurrent fun _ _ => Context.get?_base_add
  | enter | exit => exact h.updateCurrent fun _ _ hq => hq
  | put _ _ hf =>
    obtain ⟨callee, q, hsuffix, hcell, halike⟩ := h
    exact ⟨callee, q, hsuffix, hcell, halike.of_put hf⟩
  | note | register => exact h
  | call =>
    obtain ⟨callee, q, hsuffix, hcell, halike⟩ := h
    exact ⟨callee, q, hsuffix.trans (List.suffix_cons _ _), hcell, halike⟩
  | leave hm =>
    cases hcalls.symm.trans hm
    rcases hcase with ⟨-, rfl⟩ | hsuffix
    · have hlt := hleave rfl
      rw [hcalls, List.length_cons] at hlt
      exact absurd hlt (Nat.lt_irrefl _)
    · exact ⟨callee, q, hsuffix, hcell, halike⟩
  | @rebind name q' s m pos hlookup hf =>
    simp only [Machine.rebind, hcalls]
    cases hc : c.rebind name s with
    | none =>
      obtain ⟨callee, q, hsuffix, hcell, halike⟩ := h
      exact ⟨callee, q, hcalls ▸ hsuffix, hcell, halike⟩
    | some c' =>
      rcases hcase with ⟨rfl, rfl⟩ | hsuffix
      · rcases Context.base_of_rebind hc with hbase | ⟨hinner, hbase⟩
        · exact ⟨c', q, List.suffix_refl _, by rw [hbase]; exact hcell, halike⟩
        · have hcell' := hbase ▸ c.base.get?_rebind name s p
          rw [hcell, Option.map_some] at hcell'
          by_cases hp : p = name
          · subst hp
            have hcurrent : m.current = c := by rw [Machine.current, hcalls]; rfl
            have hmeans : m.Means p (m₁.calls.length + 1) := by
              have hlength : m.calls.length = m₁.calls.length + 1 := by rw [hcalls]; rfl
              exact hlength ▸ .current (by rw [hcurrent]; exact hinner)
            have hq' : m.lookup? p = some q := by
              rw [lookup?_eq, own, hcalls]
              simp only [Context.scopes, Scopes.get?_append, hinner]
              simp [Scopes.get?, hcell]
            cases hlookup.symm.trans hq'
            exact ⟨c', s, List.suffix_refl _, by rw [hcell', if_pos rfl],
              (hassign rfl hmeans hq' hf).symm.trans halike⟩
          · exact ⟨c', q, List.suffix_refl _, by rw [hcell', if_neg hp], halike⟩
      · exact ⟨callee, q, hsuffix.trans (List.suffix_cons _ _), hcell, halike⟩

end Lends

end Machine

/-! ## Types -/

section Types

variable {V : Ref → Ty → Prop} {Γ : Declared} {m : Machine} {name : String}

lemma Machine.Means.own_of_zero (h : m.Means name 0) : Scopes.get? m.own name = none := by
  generalize hn : 0 = n at h
  cases h with
  | global h => exact h
  | current h =>
    have hcalls : m.calls = [] := List.length_eq_zero_iff.1 hn.symm
    rw [Machine.current, hcalls] at h
    rw [Machine.own, hcalls]
    exact h

lemma Machine.Means.inner_of_succ {n : Nat} (h : m.Means name (n + 1)) :
    m.calls.length = n + 1 ∧ Scopes.get? m.current.inner name = none := by
  generalize hn : n + 1 = i at h
  cases h with
  | global => cases hn
  | current h => exact ⟨rfl, h⟩

/-- A variable of the module has the type that it has been declared with there. -/
lemma Machine.Fits.find?_global (hm : m.Fits V Γ) (h : Scopes.get? m.own name = none) :
    Tables.find? Γ.visible name = Γ.module.base.entries.lookup name := by
  have hnone {ts : List Table} {ss : List Scope} (hts : List.Forall₂ (Scope.Fits V) ts ss)
      (hss : Scopes.get? ss name = none) : Tables.find? (ts ++ [Γ.module.base]) name
        = Γ.module.base.entries.lookup name := by
    rcases Scopes.lookup hts name with ⟨-, hfind⟩ | ⟨r, t, hr, -⟩
    · rw [Tables.find?_append_single, hfind, Option.none_or]
    · cases hr.symm.trans hss
  unfold Machine.own at h
  unfold Declared.visible
  rcases hm.calls_cases with ⟨hΓ, hc⟩ | ⟨f, fs, c, cs, hΓ, hc, hf, -⟩
  · rw [hc] at h
    rw [hΓ]
    exact hnone hm.module.inner h
  · rw [hc] at h
    rw [hΓ]
    exact hnone hf.scopes h

lemma Machine.Fits.find?_parameter (hm : m.Fits V Γ) (h : Scopes.get? m.current.inner name = none)
    {f : Frame}
    {fs : List Frame} (hΓ : Γ.calls = f :: fs) (ht : f.base.entries.lookup name = some t) :
    Tables.find? Γ.visible name = some t := by
  have hcurrent := hm.current
  rw [Declared.current, hΓ] at hcurrent
  have hinner : Tables.find? f.inner name = none := by
    rcases Scopes.lookup hcurrent.inner name with ⟨-, hfind⟩ | ⟨r, t, hr, -⟩
    · exact hfind
    · cases hr.symm.trans h
  simp only [Declared.visible, hΓ]
  rw [Tables.find?_append_single, Frame.tables, Tables.find?_append_single, hinner, ht]
  rfl

/-- Where the body of a function has ended, a parameter names a cell of its type. -/
lemma Machine.Fits.parameter (hm : m.Fits V (Γ.call ps))
    (ht : (Node.parameterTable ps).entries.lookup name = some t) :
    ∃ callee cs q, m.calls = callee :: cs ∧ callee.base.get? name = some q ∧
      m.lookup? name = some q ∧ V q t := by
  rcases hm.calls_cases with ⟨hΓ, -⟩ | ⟨f, fs, callee, cs, hΓ, hcalls, hfits, -⟩
  · cases hΓ
  · cases hΓ
    have hinner : callee.inner = [] := List.forall₂_nil_left_iff.1 hfits.inner
    rcases hfits.base.lookup name with ⟨-, hnone⟩ | ⟨q, u, hq, hu, hd⟩
    · cases ht.symm.trans hnone
    · cases ht.symm.trans hu
      refine ⟨callee, cs, q, hcalls, hq, ?_, hd⟩
      rw [m.lookup?_eq, Machine.own, hcalls]
      simp [Context.scopes, hinner, Scopes.get?, hq]

end Types

/-- Inside of a statement the parameters of all calls stay declared. -/
lemma Moment.Enters.bases {fuel : Nat} {c c' : Moment} (h : Enters fuel c c')
    (hc : ∀ s is ns, c.node ≠ .program s is ns) :
    c.declared.calls.map Frame.base <:+ c'.declared.calls.map Frame.base := by
  cases h with
  | @statement d s n ns before after Γ =>
    show Γ.calls.map Frame.base <:+ (Γ.enter.afterAll before).calls.map Frame.base
    rw [Declared.afterAll_enter, Declared.updateCurrent]
    cases hΓ : Γ.calls with
    | nil => exact List.nil_suffix
    | cons f fs => exact List.suffix_refl _
  | body => exact List.suffix_cons _ _
  | top => exact absurd rfl (hc _ _ _)
  | _ => exact List.suffix_refl _

namespace Discipline.World

variable {fuel : Nat} {L : Discipline fuel} {W : L.World} {k : Checker} {c c' : Moment}
  {m : Machine}

lemma Ready.bases_of_reaches (h : Reaches fuel c c') :
    ∀ {k}, W.Ready k c → c.declared.calls.map Frame.base <:+ c'.declared.calls.map Frame.base := by
  induction h with
  | here => exact fun _ => List.suffix_refl _
  | step h _ ih =>
    intro k hk
    obtain ⟨k', hk'⟩ := ready_of_enters hk h
    exact (h.bases hk.ne_program).trans (ih hk')

lemma Ready.find? (hk : W.Ready k c) (hm : W.Kept c m) {name : String} {q : Ref}
    (hp : (k.typeOf name).isPresent = true) (hq : m.lookup? name = some q) :
    Tables.find? c.declared.visible name = some (k.typeOf name) ∧
      L.describes m.store q (k.typeOf name) := by
  rcases Scopes.lookup hm.steady.fits.visible name with ⟨hnone, -⟩ | ⟨r, t, hr, ht, hd⟩
  · cases hq.symm.trans hnone
  · cases hq.symm.trans hr
    rcases hk.placed.find? hp with hfind | ⟨hfind, -⟩
    · cases ht.symm.trans hfind
      exact ⟨ht, hd⟩
    · cases ht.symm.trans hfind

/-- Where a variable is assigned to, both what it names and what it is given are described by its
type. -/
lemma Ready.assigns {name : String} {q r : Ref} {p : Position} (hk : W.Ready k c)
    (hd : c.Does fuel (.assign name r p) m) (hq : m.lookup? name = some q) :
    ∃ t, L.Fits c.declared m ∧ Tables.find? c.declared.visible name = some t ∧
      L.describes m.store q t ∧ L.describes m.store r t := by
  cases hd with
  | assign hv =>
    cases hk.sanctioned with
    | expression h => cases h.expression
    | statement h =>
      cases h.rule with
      | assign _ _ hp hinfers haccepts =>
        have hyields := (((W.soundBelow _).expression hk hk.kept (Checker.comes_of_first rfl)
          hinfers
          (.first rfl)).ok hv).1
        obtain ⟨hfind, hdescribes⟩ := hk.find? hyields.toKept hp hq
        exact ⟨_, hyields.steady.fits, hfind, hdescribes,
          L.describes_of_accepts haccepts hyields.value⟩

end Discipline.World

/-! ## Calls -/

namespace Moment

variable {fuel i : Nat} {c c₁ c' : Moment} {k : UserCall} {m m₀ m₁ m₂ m₃ m' : Machine}
  {x p : String} {r : Ref}

/-- From the moment on it comes up that null is assigned to the variable in the base scope of the
context over so many others while it holds a value, or a value while it holds null. -/
def Exchanges (fuel : Nat) (c : Moment) (name : String) (i : Nat) : Prop :=
  ∃ c' m q r pos, Reaches fuel c c' ∧ c'.Does fuel (.assign name r pos) m ∧ m.Means name i ∧
    m.lookup? name = some q ∧ (m.store.get q).isNull ≠ (m.store.get r).isNull

/-- The moments to which a call leads directly once it has computed the argument with this
number. -/
inductive Later (fuel : Nat) (c : Moment) (i : Nat) : Moment → Prop
  | argument {before after : List Node} {e : Node} {rs : List Ref} {m : Machine}
      (h : c.node.items = before ++ e :: after) (hi : i < before.length)
      (hb : valuesAt fuel c.depth before c.machine = .ok rs m) :
        Later fuel c i ⟨c.depth, e, c.declared, m⟩
  | body {k : UserCall} {m₁ m₂ : Machine} (h : c.Starts fuel k m₁ m₂) :
      Later fuel c i (c.inside k m₂)

/-! ### Variables of the caller -/

section Invariants

variable {W : (Discipline.kinds fuel).World} {t : Ty}

/-- A variable of the caller goes on to name a cell as good as the one that was passed. -/
lemma invariant_shows {k₁ : Checker} (hk : W.Ready k₁ c) (habove : c.Above m₀.calls.length)
    (ht : t ∈ [Ty.int, .float, .bool, .string])
    (hx : Scopes.get? m₀.own x = none →
      ∃ u, c.declared.module.base.entries.lookup x = some u ∧ t.accepts u = .ok true)
    (hno : t = .string → Scopes.get? m₀.own x = none → ¬ c.Exchanges fuel x 0) :
    Invariant fuel c (m₀.Shows x r) where
  quiet hm hq := hm.undisturbed hq
  deed := by
    intro c' deed m m' hr _ hd hm hmakes
    refine hm.makes hmakes (hd.lt_length_calls (hr.above habove)) ?_
    rintro q s pos rfl hown hmeans hq hf
    obtain ⟨k', hk'⟩ := Discipline.World.ready_of_reaches hr hk
    obtain ⟨v, hfits, hfind, hsuits, hsuits'⟩ := hk'.assigns hd hq
    obtain ⟨u, hu, haccepts⟩ := hx hown
    rw [hfits.find?_global hmeans.own_of_zero, Discipline.World.Ready.base_of_reaches hr hk,
      hu] at hfind
    cases hfind
    refine Store.Suits.alike ht haccepts hsuits hsuits' hf fun hstring => ?_
    by_contra hne
    exact hno hstring hown ⟨c', m, q, s, pos, hr, hd, hmeans, hq, hne⟩

lemma invariant_lends {k₁ : Checker} (hk : W.Ready k₁ c) {f : Frame} {fs : List Frame}
    (hΓ : c.declared.calls = f :: fs)
    (hlength : c.machine.calls.length = m₁.calls.length + 1)
    (ht : t ∈ [Ty.int, .float, .bool, .string])
    (hp : f.base.entries.lookup p = some t)
    (hno : t = .string → ¬ c.Exchanges fuel p (m₁.calls.length + 1)) :
    Invariant fuel c (m₁.Lends p r) where
  quiet hm hq := hm.undisturbed hq
  deed := by
    intro c' deed m m' hr hc' hd hm hmakes
    refine hm.makes hmakes ?_ ?_
    · rintro rfl
      obtain ⟨callee, q, hsuffix, -⟩ := hc'
      have hle := hsuffix.length_le
      rw [hd.length_calls]
      exact Nat.lt_succ_of_le hle
    · rintro q s pos rfl hmeans hq hf
      obtain ⟨k', hk'⟩ := Discipline.World.ready_of_reaches hr hk
      obtain ⟨v, hfits, hfind, hsuits, hsuits'⟩ := hk'.assigns hd hq
      obtain ⟨hcalls, hinner⟩ := hmeans.inner_of_succ
      -- as many calls are under way as at the beginning, so the innermost has the parameter
      have hbases := Discipline.World.Ready.bases_of_reaches hr hk
      have heq : c.declared.calls.map Frame.base = c'.declared.calls.map Frame.base := by
        refine hbases.eq_of_length ?_
        rw [List.length_map, List.length_map, hk.steady.fits.calls.length_eq, hfits.calls.length_eq,
          hlength, hcalls]
      cases hΓ' : c'.declared.calls with
      | nil => rw [hΓ, hΓ'] at heq; cases heq
      | cons f' fs' =>
        rw [hΓ, hΓ', List.map_cons, List.map_cons, List.cons.injEq] at heq
        rw [hfits.find?_parameter hinner hΓ' (heq.1 ▸ hp)] at hfind
        cases hfind
        refine Store.Suits.alike ht (Ty.accepts_self_of_simple ht) hsuits hsuits' hf fun hstring =>
          ?_
        by_contra hne
        exact hno hstring ⟨c', m, q, s, pos, hr, hd, hmeans, hq, hne⟩

end Invariants

/-! ### Arguments and parameters -/

lemma Later.values {I : Machine → Prop}
    (hI : ∀ {c₁ m}, c.Later fuel i c₁ → I c₁.machine → c₁.run fuel = .ok () m → I m)
    {rest : List Node} :
    ∀ (done : List Node) {rs qs : List Ref} {m m' : Machine}, c.node.items = done ++ rest →
    i < done.length →
    valuesAt fuel c.depth done c.machine = .ok rs m → I m →
      valuesAt fuel c.depth rest m = .ok qs m' → I m' := by
  induction rest with
  | nil =>
    intro done rs qs m m' _ _ _ hm h
    cases h
    exact hm
  | cons e rest ih =>
    intro done rs qs m m' hitems hi hdone hm h
    obtain ⟨q, m₁, he, h⟩ := ok_of_bind h
    obtain ⟨qs', _, hrest, h⟩ := ok_of_bind h
    cases h
    have hdone₁ : valuesAt fuel c.depth (done ++ [e]) c.machine = .ok (rs ++ [q]) m₁ := by
      rw [valuesAt, values_append hdone, Run.values]
      simp only [bind_run] at he ⊢
      rw [he]
      rfl
    obtain ⟨_, _, hv, hlast⟩ := ok_of_bind he
    cases hlast
    exact ih (done ++ [e]) (by rw [hitems]; simp) (by rw [List.length_append]; omega) hdone₁
      (hI (.argument hitems hi hdone) hm hv) hrest

lemma values_between {e : Node} {after : List Node} {d : Nat} {before : List Node} :
    ∀ {rs : List Ref} {m : Machine},
    valuesAt fuel d (before ++ e :: after) m = .ok rs m' →
      ∃ rs₀ m₀ r m₁ rs₁, valuesAt fuel d before m = .ok rs₀ m₀ ∧
      visitAt fuel d e m₀ = .ok () m₁ ∧ r = m₁.last ∧ valuesAt fuel d after m₁ = .ok rs₁ m' ∧
      rs = rs₀ ++ r :: rs₁ ∧ rs₀.length = before.length := by
  induction before with
  | nil =>
    intro rs m h
    obtain ⟨r, m₁, he, h⟩ := ok_of_bind h
    obtain ⟨rs₁, _, hafter, h⟩ := ok_of_bind h
    cases h
    obtain ⟨_, _, hv, hlast⟩ := ok_of_bind he
    cases hlast
    exact ⟨[], m, _, _, rs₁, rfl, hv, rfl, hafter, rfl, rfl⟩
  | cons a before ih =>
    intro rs m h
    obtain ⟨q, m₂, ha, h⟩ := ok_of_bind h
    obtain ⟨qs, _, hrest, h⟩ := ok_of_bind h
    cases h
    obtain ⟨rs₀, m₀, r, m₁, rs₁, hbefore, hv, hr, hafter, rfl, hlength⟩ := ih hrest
    refine ⟨q :: rs₀, m₀, r, m₁, rs₁, ?_, hv, hr, hafter, rfl, congrArg Nat.succ hlength⟩
    have hbefore' : values (bodyAt fuel d) fuel before m₂ = .ok rs₀ m₀ := hbefore
    rw [valuesAt, Run.values, bind_of_ok ha, bind_of_ok hbefore']
    rfl

lemma visit_name {d : Nat} {s : Span} (h : visitAt fuel d (.name s x) m = .ok () m') :
    ∃ r, m.lookup? x = some r ∧ m' = { m with last := r } := by
  rw [visitAt, visit] at h
  obtain ⟨r, m₁, hcell, hlast⟩ := ok_of_bind h
  simp only [cellOf, bind_run, get_run] at hcell
  cases hlookup : m.lookup? x with
  | none => rw [hlookup] at hcell; cases hcell
  | some q =>
    rw [hlookup] at hcell
    cases hcell
    cases hlast
    exact ⟨r, rfl, rfl⟩

end Moment

/-- In a new context, the parameters come to name the cells of the arguments. -/
lemma Run.declareParameters_binds {rs : List Ref} {name : String} {cs : List Context}
    {m' : Machine} :
    ∀ {m : Machine} {base : Scope}, m.calls = ⟨name, [], base⟩ :: cs →
    declareParameters ps rs m = .ok () m' →
    ∃ base', m' = { m with calls := ⟨name, [], base'⟩ :: cs } ∧
      (∀ x q, base.get? x = some q → base'.get? x = some q) ∧
      ∀ (i : Nat) u type x r, ps[i]? = some (.parameter u type (.plain x)) → rs[i]? = some r →
        base'.get? x = some r := by
  fun_induction Run.declareParameters ps rs with
  | case1 s t x ps r rs ih =>
    intro m base hcalls h
    obtain ⟨_, m₁, hdeclare, h⟩ := ok_of_bind h
    cases (Deed.ends (.declare x r s.start) m).ok hdeclare with
    | declare _ _ hhas =>
      have hcurrent : m.current = ⟨name, [], base⟩ := by rw [Machine.current, hcalls]; rfl
      have hupdate : m.updateCurrent (·.add x r)
        = { m with calls := ⟨name, [], base.add x r⟩ :: cs } := by
        simp only [Machine.updateCurrent, hcalls]
        rfl
      rw [hcurrent] at hhas
      rw [hupdate] at h
      obtain ⟨base', rfl, hkeeps, hbinds⟩ := ih rfl h
      have hself : base'.get? x = some r := hkeeps x r (Scope.get?_add_self hhas)
      refine ⟨base', rfl, fun y q hq => ?_, fun i u type y q hp hq => ?_⟩
      · exact hkeeps y q (Context.get?_base_add (c := ⟨name, [], base⟩) hq)
      · cases i with
        | zero =>
          cases hp
          cases hq
          exact hself
        | succ i => exact hbinds i u type y q hp hq
  | case2 => intro m base _ h; cases h
  | case3 => intro m base _ h; cases h
  | case4 ps rs h₁ h₂ h₃ =>
    intro m base hcalls h
    cases h
    refine ⟨base, by rw [← hcalls], fun _ _ hq => hq, fun i u type x r hp hr => ?_⟩
    cases ps with
    | nil => cases hp
    | cons a ps =>
      cases rs with
      | nil => cases hr
      | cons b rs => exact absurd rfl (h₃ a ps b rs rfl)

lemma Node.getElem?_parameterTable {u : Span} {type : Node} {p : String} :
    ∀ {i : Nat}, (∀ q ∈ ps, q.IsParameter) → ps[i]? = some (.parameter u type (.plain p)) →
    (parameterTable ps).entries[i]? = some (p, type.declaredType) := by
  induction ps with
  | nil => intro i _ hp; cases hp
  | cons q ps ih =>
    intro i hps hp
    obtain ⟨v, y, hty⟩ := hps q List.mem_cons_self
    rename_i t
    have hentries : (parameterTable (.parameter v t (.plain y) :: ps)).entries
        = (y, t.declaredType) :: (parameterTable ps).entries := by
      simp [parameterTable, entry?]
    rw [hentries]
    cases i with
    | zero => cases hp; rfl
    | succ i => exact ih (fun q hq => hps q (List.mem_cons_of_mem _ hq)) hp

namespace Moment

variable {fuel i : Nat} {c c₁ : Moment} {k : UserCall} {m m₀ m₁ m₂ m₃ m' : Machine} {x p : String}
  {q r : Ref}

/-- At the moment a function is called, and the argument with this number is a variable, to be
passed for a parameter of a simple type. -/
structure Hands (fuel : Nat) (c : Moment) (k : UserCall) (m₁ : Machine) (i : Nat) (x p : String)
    (t : Ty) : Prop where
  calls : c.Calls fuel k m₁
  argument : ∃ s, c.node.items[i]? = some (.name s x)
  parameter : ∃ s type, k.parameters[i]? = some (.parameter s type (.plain p)) ∧
    type.declaredType = t
  simple : t ∈ [Ty.int, .float, .bool, .string]

lemma Starts.binds (h : c.Starts fuel k m₁ m₂) :
    ∃ base, m₂ = { m₁ with calls := ⟨k.name, [], base⟩ :: m₁.calls } ∧
    ∀ (i : Nat) u type x r, k.parameters[i]? = some (.parameter u type (.plain x)) →
      k.args[i]? = some r →
      base.get? x = some r := by
  obtain ⟨m, hpush, hparameters⟩ := h.begins
  cases (Deed.ends (.call k.name k.place) m₁).ok hpush with
  | call =>
    obtain ⟨base, heq, -, hbinds⟩ := declareParameters_binds rfl hparameters
    exact ⟨base, heq, hbinds⟩

lemma Calls.values (h : c.Calls fuel k m) :
    valuesAt fuel c.depth c.node.items c.machine = .ok k.args m := by
  cases h with
  | mk ha => exact ha

lemma Calls.isTerm (h : c.Calls fuel k m) (hc : c.Orderly) : c.node.isTerm = true := by
  have hn := hc.node
  cases h with
  | mk =>
    rcases hn with hn | hn | hn
    · exact hn
    · cases hn
    · cases hn

/-- Some arguments are computed, then the variable is looked up, and the rest is computed. -/
lemma Hands.evaluated (h : c.Hands fuel k m₁ i x p t) :
    ∃ before after s rs rs', ∃ m₀ : Machine, ∃ r, c.node.items = before ++ .name s x :: after ∧
      before.length = i ∧
      valuesAt fuel c.depth before c.machine = .ok rs m₀ ∧ m₀.lookup? x = some r ∧
      valuesAt fuel c.depth (before ++ [.name s x]) c.machine = .ok (rs ++ [r])
        { m₀ with last := r } ∧
      valuesAt fuel c.depth after { m₀ with last := r } = .ok rs' m₁ ∧ k.args[i]? = some r := by
  obtain ⟨s, hx⟩ := h.argument
  obtain ⟨before, after, hitems, rfl⟩ :
    ∃ before after, c.node.items = before ++ .name s x :: after ∧
      before.length = i := by
    obtain ⟨hi, hget⟩ := List.getElem?_eq_some_iff.1 hx
    refine ⟨c.node.items.take i, c.node.items.drop (i + 1), ?_,
      List.length_take_of_le (Nat.le_of_lt hi)⟩
    rw [← hget, List.getElem_cons_drop, List.take_append_drop]
  have hvalues := h.calls.values
  rw [hitems] at hvalues
  obtain ⟨rs, m₀, _, _, rs', hbefore, hname, rfl, hafter, hargs, hrs⟩ := values_between hvalues
  obtain ⟨r, hlookup, rfl⟩ := visit_name hname
  refine ⟨before, after, s, rs, rs', m₀, r, hitems, rfl, hbefore, hlookup, ?_, hafter, ?_⟩
  · have hname' : visit (bodyAt fuel c.depth) fuel (.name s x) m₀ = .ok () { m₀ with last := r } :=
      hname
    have hvalue : valueOf (visit (bodyAt fuel c.depth) fuel (.name s x)) m₀ = .ok r
      { m₀ with last := r } := by
      rw [valueOf, bind_of_ok hname']
      rfl
    rw [valuesAt, values_append hbefore, Run.values]
    simp only [bind_run, hvalue]
    rfl
  · rw [hargs, ← hrs, List.getElem?_append_right (Nat.le_refl _), Nat.sub_self]
    rfl

section

variable {W : (Discipline.kinds fuel).World} {k₁ : Checker}

/-- The checker has seen to it that the parameter accepts the variable. -/
lemma Hands.accepts (h : c.Hands fuel k m₁ i x p t) (hk : W.Ready k₁ c) :
    (k₁.typeOf x).isPresent = true ∧ t.accepts (k₁.typeOf x) = .ok true ∧
      (Node.parameterTable k.parameters).entries.lookup p = some t ∧
        ∃ b ns, k.body = .block b ns := by
  obtain ⟨hcalls, ⟨s, hx⟩, ⟨u, type, hp, rfl⟩, -⟩ := h
  cases hcalls with
  | mk ha hf =>
    obtain ⟨b', body, k₀, rfl, -, hcallable, -, hargs, -⟩ := hk.callable ha hf
    have hentry := Node.getElem?_parameterTable hcallable.parameters hp
    obtain ⟨hi, hname⟩ := List.getElem?_eq_some_iff.1 hx
    obtain ⟨hi', htype⟩ :=
      List.getElem?_eq_some_iff.1 ((List.getElem?_map ..).trans (congrArg _ hentry))
    have hget := hargs.get hi hi'
    rw [List.get_eq_getElem, List.get_eq_getElem, htype] at hget
    obtain ⟨v, hinfers, haccepts⟩ := hname ▸ hget
    cases hinfers.rule with
    | name _ _ hpresent =>
      exact ⟨hpresent, haccepts,
        Table.lookup_of_mem hcallable.distinct (List.mem_of_getElem? hentry), _, _, rfl⟩

lemma Hands.find? (h : c.Hands fuel k m₁ i x p t) (hk : W.Ready k₁ c) :
    ∃ u, Tables.find? c.declared.visible x = some u ∧ t.accepts u = .ok true := by
  obtain ⟨before, after, s, rs, rs', m₀, r, hitems, -, hbefore, hlookup, -⟩ := h.evaluated
  obtain ⟨hpresent, haccepts, -⟩ := h.accepts hk
  exact ⟨_, (hk.find? (hk.kept_of_values hitems hbefore) hpresent hlookup).1, haccepts⟩

/-- Whatever comes up behind the argument leaves the variable as good as the cell that was
passed. -/
lemma Later.shows (h : c.Later fuel i c₁) (hc : c.Orderly) (hcalls : c.Calls fuel k m₁)
    (hk : W.Ready k₁ c) (hd : 0 < c.depth) (hlength : m₀.calls.length = c.machine.calls.length)
    (ht : t ∈ [Ty.int, .float, .bool, .string])
    (hx : Scopes.get? m₀.own x = none →
      ∃ u, c.declared.module.base.entries.lookup x = some u ∧ t.accepts u = .ok true)
    (hno : t = .string → Scopes.get? m₀.own x = none → ¬ c₁.Exchanges fuel x 0)
    (hm : m₀.Shows x r c₁.machine) (hrun : c₁.run fuel = .ok () m) : m₀.Shows x r m := by
  obtain ⟨k₂, hk₂⟩ : ∃ k₂, W.Ready k₂ c₁ := by
    cases h with
    | argument hitems _ hb => exact Discipline.World.ready_of_enters hk (.item hitems hb)
    | body hstarts => exact Discipline.World.ready_of_enters hk (hstarts.enters hd)
  have hc₁ : c₁.Orderly := by
    cases h with
    | argument hitems _ hb => exact (Enters.item hitems hb).orderly hc
    | body hstarts => exact hstarts.orderly hc
  have habove : c₁.Above m₀.calls.length := by
    cases h with
    | argument hitems _ hb =>
      refine .inr ⟨hm.below.calls.length_le, ?_⟩
      exact Node.isTerm_of_mem_items (by rw [hitems]; simp) (.inl (hcalls.isTerm hc))
    | body hstarts =>
      left
      rw [hlength]
      exact Nat.lt_of_lt_of_eq (Nat.lt_succ_self _) hstarts.length_calls.symm
  have hx₁ : Scopes.get? m₀.own x = none →
      ∃ u, c₁.declared.module.base.entries.lookup x = some u ∧ t.accepts u = .ok true := by
    cases h <;> exact hx
  exact (invariant_shows hk₂ habove ht hx₁ hno).passes hc₁ hm (.answers (.here _) hrun)

/-- Once the variable has been passed, it stands for its cell until all arguments are computed and,
if the body is visited, until that ends. -/
lemma Hands.shows (h : c.Hands fuel k m₁ i x p t) (hc : c.Orderly) (hk : W.Ready k₁ c)
    (hd : 0 < c.depth)
    (hno : t = .string → c.machine.Means x 0 → ∀ c₁, c.Later fuel i c₁ → ¬ c₁.Exchanges fuel x 0) :
    ∃ m₀ : Machine, ∃ r, m₀.calls.length = c.machine.calls.length ∧ k.args[i]? = some r ∧
      m₀.Shows x r m₁ ∧
      ∀ {m₂ m₃}, c.Starts fuel k m₁ m₂ → m₀.Shows x r m₂ → (c.inside k m₂).run fuel = .ok () m₃ →
        m₀.Shows x r m₃ := by
  obtain ⟨before, after, s, rs, rs', m₀, r, hitems, rfl, hbefore, hlookup, hdone, hafter, hr⟩ :=
    h.evaluated
  have hlength : m₀.calls.length = c.machine.calls.length :=
    (grows_valuesAt _ _ _).length_calls hbefore
  have hover : c.machine.Over m₀ :=
    over_of_passes hc (.inr ⟨Nat.le_refl _, h.calls.isTerm hc⟩) (.refl _)
      (.comes (.step (.item hitems hbefore) (.here _)))
  have hown : m₀.own = c.machine.own := hover.own_eq (hover.calls_eq hlength)
  have htype (hnone : Scopes.get? m₀.own x = none) :
      ∃ u, c.declared.module.base.entries.lookup x = some u ∧ t.accepts u = .ok true := by
    obtain ⟨u, hu, haccepts⟩ := h.find? hk
    rw [(hk.kept_of_values hitems hbefore).steady.fits.find?_global hnone] at hu
    exact ⟨u, hu, haccepts⟩
  have hlater {c₁ : Moment} {m : Machine} (hl : c.Later fuel before.length c₁)
    (hm : m₀.Shows x r c₁.machine)
      (hrun : c₁.run fuel = .ok () m) : m₀.Shows x r m :=
    hl.shows hc h.calls hk hd hlength h.simple htype
      (fun hstring hnone => hno hstring (.global (hown ▸ hnone)) c₁ hl) hm hrun
  have hnamed : m₀.Shows x r { m₀ with last := r } :=
    ⟨⟨⟨_, rfl⟩, List.suffix_refl _⟩, r, (m₀.lookup?_eq x).symm.trans hlookup, .same r⟩
  refine ⟨m₀, r, hlength, hr, ?_, fun hstarts hm hrun => hlater (.body hstarts) hm hrun⟩
  exact Later.values hlater _ (by rw [hitems]; simp) (by simp) hdone hnamed hafter

/-- Where the body of a call is visited, its parameters stand for the cells of their arguments. -/
lemma Starts.lends (h : c.Starts fuel k m₁ m₂) {s : Span} {type : Node}
    (hp : k.parameters[i]? = some (.parameter s type (.plain p))) (hr : k.args[i]? = some r) :
    m₁.Lends p r m₂ := by
  obtain ⟨base, rfl, hbinds⟩ := h.binds
  exact ⟨⟨k.name, [], base⟩, r, List.suffix_refl _, hbinds i s type p r hp hr, .same r⟩

/-- And the variables of the caller stand for what they did. -/
lemma Starts.shows (h : c.Starts fuel k m₁ m₂) (hm : m₀.Shows x r m₁) : m₀.Shows x r m₂ := by
  have hover := h.over
  obtain ⟨base, rfl, -⟩ := h.binds
  exact ⟨hm.below.trans hover, hm.cell⟩

/-- What comes behind the body of a call leaves the module and what there is in the store. -/
lemma keeps_of_leave (ht : takes k m₃ = .ok () m) (hpop : popContext m = .ok () m') :
    m'.module = m₃.module ∧ m₃.store.Keeps m'.store := by
  have hquiet := ((quiet_takes k m₃.returning).ends { m₃ with returning := none }).ok ht
  cases (Deed.ends .leave m).ok hpop with
  | leave => exact ⟨hquiet.module, hquiet.store⟩

/-- Where the body ends, the variable and the parameter stand for one cell, or both hold null. -/
lemma Hands.alike (h : c.Hands fuel k m₁ i x p t) (hc : c.Orderly) (hk : W.Ready k₁ c)
    (hno : t = .string → ¬ (c.inside k m₂).Exchanges fuel p (m₁.calls.length + 1) ∧
      (c.machine.Means x 0 → ∀ c₁, c.Later fuel i c₁ → ¬ c₁.Exchanges fuel x 0))
    (hstarts : c.Starts fuel k m₁ m₂) (hb : bodyAt fuel c.depth k.body m₂ = .ok () m₃)
    {callee : Context}
    {cs : List Context} (hcalls : m₃.calls = callee :: cs) (hq : callee.base.get? p = some q)
    (hmodule : m'.module = m₃.module) (hrun : c.run fuel = .ok () m') :
    ∃ q', m'.lookup? x = some q' ∧ m₃.store.Alike q' q := by
  have hd := depth_pos_of_body hb
  have hbody : (c.inside k m₂).run fuel = .ok () m₃ := (inside_run hd).trans hb
  have hopened : m₂.calls.length = m₁.calls.length + 1 :=
    hstarts.length_calls.trans (by rw [h.calls.length_calls])
  obtain ⟨m₀, r, hlength, hargs, hshows, hinside⟩ := h.shows hc hk hd fun hstring => (hno hstring).2
  obtain ⟨s, type, hp, -⟩ := h.parameter
  obtain ⟨-, -, hparameter, -⟩ := h.accepts hk
  obtain ⟨k₂, hk₂⟩ := Discipline.World.ready_of_enters hk (hstarts.enters hd)
  have hlends : m₁.Lends p r m₃ :=
    (invariant_lends hk₂ rfl hopened h.simple hparameter fun hstring => (hno hstring).1).passes
      (hstarts.orderly hc)
      (hstarts.lends hp hargs) (.answers (.here _) hbody)
  -- the parameter
  obtain ⟨callee', q', hsuffix, hq', halike⟩ := hlends
  have hclosed : m₃.calls.length = m₁.calls.length + 1 :=
    ((grows_bodyAt fuel c.depth k.body).length_calls hb).trans hopened
  have hinnermost : callee' :: m₁.calls = callee :: cs :=
    hcalls ▸ hsuffix.eq_of_length (by rw [hclosed, List.length_cons])
  cases hinnermost
  cases hq'.symm.trans hq
  -- the variable
  obtain ⟨-, qx, hqx, halike'⟩ := hinside hstarts (hstarts.shows hshows) hbody
  obtain ⟨hover, hcalls'⟩ := h.calls.over hc hrun
  have hsame : m₁.calls = m₀.calls :=
    hshows.below.calls_eq (h.calls.length_calls.trans hlength.symm)
  have hown : m'.own = m₀.own := (hshows.below.trans hover).own_eq (hcalls'.trans hsame)
  exact ⟨qx, by rw [m'.lookup?_eq, hown, hmodule]; exact hqx, halike'.trans halike.symm⟩

end

end Moment

/-- A variable that is passed for a parameter of a simple type shares its cell with the parameter.

In a program that the checker has accepted, let a call answer.  Then the variable has the value that
the parameter had when the body ended, whatever was assigned in between; except that for strings
this holds as long as, in the body, no assignment to the parameter exchanges null and a string, and,
if the variable is one of the module's, no later argument and nothing in the body does so with the
variable. -/
theorem simple_arguments_are_shared {tokens : Tokens} {program : Node}
    (hp : Program.ofTokens tokens = .ok program)
    (hc : (({} : Checker).check program).1 = "") {limit : Int} {input : Input} {files : Files}
    {fuel i : Nat}
    {c : Moment}
    {k : UserCall} {m₁ m' : Machine} {x p : String} {t : Ty}
    (hr : Reaches fuel (start program (.fresh limit input files)) c) (h : c.Hands fuel k m₁ i x p t)
    (hrun : c.run fuel = .ok () m') :
    ∃ m₂ m₃ v w, c.Starts fuel k m₁ m₂ ∧ (c.inside k m₂).run fuel = .ok () m₃ ∧
      m'.read? x = some v ∧ m₃.read? p = some w ∧
      ((t = .string → ¬ (c.inside k m₂).Exchanges fuel p (m₁.calls.length + 1) ∧
        (c.machine.Means x 0 → ∀ c₁, c.Later fuel i c₁ → ¬ c₁.Exchanges fuel x 0)) → v = w) := by
  have hprogram := Program.isProgram_ofTokens hp
  have horderly : c.Orderly :=
    hr.orderly ⟨⟨rfl, fun _ _ h => by cases h⟩, .inr (.inr hprogram.isWhole)⟩
  obtain ⟨s, ns, rfl, hall⟩ := Discipline.Accepts.of_check (L := .kinds fuel) hprogram hc trivial
  obtain ⟨k₁, hk⟩ : ∃ k₁, hall.world.Ready k₁ c := by
    rcases hall.ready_of_reaches hr with rfl | hk
    · obtain ⟨hcalls, -⟩ := h
      cases hcalls
    · exact hk
  obtain ⟨-, -, hparameter, b, body, hblock⟩ := h.accepts hk
  obtain ⟨m₂, m₃, m₄, hstarts, hb, htakes, hpop⟩ := h.calls.answers hrun
  have hd := depth_pos_of_body hb
  have hbody : (c.inside k m₂).run fuel = .ok () m₃ := (inside_run hd).trans hb
  obtain ⟨k₂, hk₂⟩ := Discipline.World.ready_of_enters hk (hstarts.enters hd)
  have hfits : m₃.Fits m₃.store.Suits (c.declared.call k.parameters) := by
    have hintact := ((Discipline.World.sound hk₂).ok hbody).intact.fits
    have hafter : (c.inside k m₂).declared.after (c.inside k m₂).node = c.declared.call
      k.parameters := by
      show (c.declared.call k.parameters).after k.body = _
      rw [hblock]
      rfl
    rw [hafter] at hintact
    exact hintact
  obtain ⟨callee, cs, q, hcalls, hbase, hq, hsuits⟩ := hfits.parameter hparameter
  obtain ⟨r, hr⟩ : ∃ r, m'.lookup? x = some r := by
    have hintact := ((Discipline.World.sound hk).ok hrun).intact.fits
    have hafter : c.declared.after c.node = c.declared := by
      cases h.calls
      rfl
    rw [hafter] at hintact
    obtain ⟨u, hu, -⟩ := h.find? hk
    rcases Scopes.lookup hintact.visible x with ⟨-, hnone⟩ | ⟨r, _, hr, -⟩
    · cases hu.symm.trans hnone
    · exact ⟨r, hr⟩
  obtain ⟨hmodule, hkeeps⟩ := keeps_of_leave htakes hpop
  refine ⟨m₂, m₃, m'.store.get r, m₃.store.get q, hstarts, hbody, ?_, ?_, fun hno => ?_⟩
  · rw [Machine.read?, hr]
    rfl
  · rw [Machine.read?, hq]
    rfl
  · obtain ⟨q', hq', halike⟩ := h.alike horderly hk hno hstarts hb hcalls hbase hmodule hrun
    cases hr.symm.trans hq'
    exact hsuits.get_eq h.simple halike hkeeps

namespace Node

/-- `func void f(string s, int n) { s = null; n = 2; }` -/
def borrows : Node :=
  .define (.columns 0 19) (.type (.columns 1 1) "void") "f"
    [.parameter (.columns 4 5) (.type (.columns 4 4) "string") (.plain "s"),
     .parameter (.columns 7 8) (.type (.columns 7 7) "int") (.plain "n")]
    (.block (.columns 10 19)
      [.assign (.columns 11 14) (.name (.columns 11 11) "s") (.null (.columns 13 13)),
       .assign (.columns 15 18) (.name (.columns 15 15) "n") (.int (.columns 17 17) 2)])

/-- `func void f(string s, int n) { s = null; n = 2; } string t = "a"; int x = 1;` -/
def owns : List Node :=
  [.borrows,
   .declare (.columns 20 24) (.type (.columns 20 20) "string") "t" (.string (.columns 23 23) "a"),
   .declare (.columns 25 29) (.type (.columns 25 25) "int") "x" (.int (.columns 28 28) 1)]

/-- `f(t, x)` -/
def lends : Node :=
  .call (.columns 30 35) (.name (.columns 30 30) "f")
    [.name (.columns 32 32) "t", .name (.columns 34 34) "x"]

/-- `func void f(string s, int n) { s = null; n = 2; } string t = "a"; int x = 1; f(t, x);` -/
def lending : Node := .program (.columns 0 37)
    [0] (owns ++ [.callStatement (.columns 30 36) .lends])

end Node

lemma Program.ofTokens_lending :
    ofTokens (.onLine [.keyword .func, .keyword .void, .identifier "f", .symbol .lparen,
      .keyword .string,
      .identifier "s", .symbol .comma, .keyword .int, .identifier "n", .symbol .rparen,
      .symbol .lbrace, .identifier "s", .symbol .assign, .keyword .null, .symbol .semicolon,
      .identifier "n", .symbol .assign, .int 2, .symbol .semicolon, .symbol .rbrace,
      .keyword .string, .identifier "t", .symbol .assign, .string "a", .symbol .semicolon,
      .keyword .int, .identifier "x", .symbol .assign, .int 1, .symbol .semicolon,
      .identifier "f", .symbol .lparen, .identifier "t", .symbol .comma, .identifier "x",
      .symbol .rparen, .symbol .semicolon]) = .ok .lending := by
  cbv

/-- The machine in front of the call. -/
def Machine.lending : Machine where
  store := ⟨#[.null, .text "a", .null, .int 1, .null]⟩
  last := 4
  module := { name := "<module>", base := ⟨[("t", 1), ("x", 3)]⟩ }
  functions := [("f", .borrows)]
  input := .lines []

/-- The moment of the call. -/
def Moment.lending : Moment := ⟨50, .lends, Declared.afterAll {} Node.owns, .lending⟩

lemma Moment.reaches_lending : Reaches 1 (.start .lending (.fresh 50 (.lines []) {})) .lending :=
  have hsplit : Node.owns ++ [.callStatement (.columns 30 36) .lends]
      = Node.owns ++ .callStatement (.columns 30 36) .lends :: [] := rfl
  have hregister : Run.registerAll Node.lending.definitions (.fresh 50 (.lines []) {}) =
      .ok () { Machine.fresh 50 (.lines []) {} with functions := [("f", .borrows)] } := by cbv
  have hbefore : Run.visitTop (bodyAt 1 50) 1 Node.owns
      { Machine.fresh 50 (.lines []) {} with functions := [("f", .borrows)] } = .ok ()
        .lending := by cbv
  .step (.top hsplit rfl hregister hbefore) (.step (.first rfl) (.here _))

lemma Moment.run_lending : Moment.lending.run 1 = .ok () { Machine.lending with
    store := ⟨#[.null, .text "a", .null, .int 2, .null, .null, .null, .int 2, .null, .null]⟩,
      last := 9 } := by
  cbv

/-- The number is 2 behind the call, as the parameter was at its end. -/
theorem simple_arguments_are_shared_lending :
    Reaches 1 (.start .lending (.fresh 50 (.lines []) {})) .lending ∧
      Moment.lending.machine.read? "x" = some (.int 1) ∧
      ∃ k m₁ m₂ m₃ m', Moment.lending.Hands 1 k m₁ 1 "x" "n" .int ∧
        Moment.lending.run 1 = .ok () m' ∧
        Moment.lending.Starts 1 k m₁ m₂ ∧ (Moment.lending.inside k m₂).run 1 = .ok () m₃ ∧
        m'.read? "x" = some (.int 2) ∧ m₃.read? "n" = some (.int 2) := by
  obtain ⟨k, m₁, h⟩ : ∃ k m₁, Moment.lending.Hands 1 k m₁ 1 "x" "n" .int :=
    ⟨_, _, .mk rfl rfl, ⟨_, rfl⟩, ⟨_, _, rfl, rfl⟩, by simp⟩
  obtain ⟨m₂, m₃, v, w, hstarts, hbody, hv, hw, heq⟩ :=
    simple_arguments_are_shared Program.ofTokens_lending rfl reaches_lending h run_lending
  cases heq fun hstring => by cases hstring
  cases hv
  exact ⟨reaches_lending, rfl, k, m₁, m₂, m₃, _, h, run_lending, hstarts, hbody, rfl, hw⟩

/-- The call itself. -/
def UserCall.lending : UserCall where
  span := .columns 0 19
  returns := .type (.columns 1 1) "void"
  name := "f"
  parameters :=
    [.parameter (.columns 4 5) (.type (.columns 4 4) "string") (.plain "s"),
     .parameter (.columns 7 8) (.type (.columns 7 7) "int") (.plain "n")]
  body := .block (.columns 10 19)
    [.assign (.columns 11 14) (.name (.columns 11 11) "s") (.null (.columns 13 13)),
     .assign (.columns 15 18) (.name (.columns 15 15) "n") (.int (.columns 17 17) 2)]
  args := [1, 3]
  place := ⟨1, 30⟩

/-- The string is what it was, though the parameter was null at the end of the call. -/
theorem null_stays_in_the_call :
    Reaches 1 (.start .lending (.fresh 50 (.lines []) {})) .lending ∧
      ∃ m₁ m₂ m₃ m', Moment.lending.Hands 1 .lending m₁ 0 "t" "s" .string ∧
        Moment.lending.run 1 = .ok () m' ∧
        Moment.lending.Starts 1 .lending m₁ m₂ ∧
        (Moment.lending.inside .lending m₂).run 1 = .ok () m₃ ∧
        m'.read? "t" = some (.text "a") ∧ m₃.read? "s" = some .null := by
  have hcalls : Moment.lending.Calls 1 .lending { Machine.lending with last := 3 } := .mk rfl rfl
  have hstarts : Moment.lending.Starts 1 .lending { Machine.lending with last := 3 }
      { Machine.lending with
        last := 3, calls := [{ name := "f", base := ⟨[("s", 1), ("n", 3)]⟩ }] } :=
    ⟨hcalls, _, rfl, rfl⟩
  obtain ⟨m₃, hbody, hs⟩ : ∃ m₃, (Moment.lending.inside .lending
      { Machine.lending with
        last := 3, calls := [{ name := "f", base := ⟨[("s", 1), ("n", 3)]⟩ }] }).run 1 =
        .ok () m₃ ∧ m₃.read? "s" = some .null := ⟨_, rfl, rfl⟩
  exact ⟨reaches_lending, _, _, m₃, _, ⟨hcalls, ⟨_, rfl⟩, ⟨_, _, rfl, rfl⟩, by simp⟩, run_lending,
    hstarts, hbody,
    rfl, hs⟩

end AudLang
