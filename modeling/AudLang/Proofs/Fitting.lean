import AudLang.Proofs.Moments

/-!
Scopes that fit tables.

A scope fits a table when it has the declared variables, in the order of declaration, and each of
them names a cell that its type describes.  What it means that a type describes a cell is left open
here: `V` stands for it.  A machine fits what its variables were declared as when its scopes do,
context by context.

Looking a name up, declaring a variable, rebinding one, and entering and leaving scopes go the same
way on both sides; this is what the statements say.
-/

namespace AudLang

variable {t : Table} {name : String} {type : Ty} {r : Ref}

/-! ## Tables -/

/-- The type of a variable in the first of some tables that has it. -/
def Tables.find? (ts : List Table) (name : String) : Option Ty :=
  ts.findSome? (·.entries.lookup name)

lemma Table.mem_names_iff (t : Table) (name : String) :
    name ∈ t.names ↔ (t.entries.lookup name).isSome = true := by
  simp [Table.names, List.lookup_isSome_iff]

lemma Scopes.get_eq (ts : List Table) (name : String) :
    Scopes.get ts name = (Tables.find? ts name).getD .absent := by
  induction ts with
  | nil => rfl
  | cons t ts ih =>
    unfold Scopes.get Tables.find? at ih ⊢
    rw [List.find?_cons, List.findSome?_cons]
    cases h : t.entries.lookup name with
    | some type =>
      have hmem : name ∈ t.names := (t.mem_names_iff name).mpr (by simp [h])
      simp [hmem, Table.get, h]
    | none =>
      have hmem : name ∉ t.names := fun hn => by simpa [h] using (t.mem_names_iff name).mp hn
      simpa [hmem] using ih

/-- Where names are distinct, each entry is found under its name. -/
lemma Table.lookup_of_mem (ht : t.names.Nodup) (h : (name, type) ∈ t.entries) :
    t.entries.lookup name = some type := by
  obtain ⟨before, after, heq⟩ := List.append_of_mem h
  rw [List.lookup_eq_some_iff]
  refine ⟨before, after, heq, fun e he => ?_⟩
  rw [Table.names, heq, List.map_append, List.map_cons, List.nodup_append] at ht
  exact bne_iff_ne.mpr (ht.2.2 _ (List.mem_map_of_mem he) _ List.mem_cons_self).symm

lemma Tables.find?_append_single (ts : List Table) (t : Table) (name : String) :
    Tables.find? (ts ++ [t]) name = (Tables.find? ts name).or (t.entries.lookup name) := by
  simp [Tables.find?, List.findSome?_append]

lemma Tables.lookup_of_prefix {es ds : List (String × Ty)} (h : es <+: ds) {t : Ty}
    (hn : es.lookup name = some t) : ds.lookup name = some t := by
  obtain ⟨rest, rfl⟩ := h
  rw [List.lookup_append, hn]
  rfl

variable {V W : Ref → Ty → Prop}

/-! ## Single scopes -/

/-- The variables of a scope are those of a table, and the types describe the cells. -/
structure Scope.Fits (V : Ref → Ty → Prop) (t : Table) (s : Scope) : Prop where
  bindings : List.Forall₂ (fun e b => e.1 = b.1 ∧ V b.2 e.2) t.entries s.bindings
  distinct : t.names.Nodup

namespace Scope.Fits

lemma mono (h : ∀ r t, V r t → W r t) {s : Scope} (hs : s.Fits V t) : s.Fits W t :=
  ⟨hs.bindings.imp fun _ _ hb => ⟨hb.1, h _ _ hb.2⟩, hs.distinct⟩

lemma empty : ({} : Scope).Fits V {} := ⟨.nil, by simp [Table.names]⟩

lemma lookup {t : Table} {s : Scope} (hs : s.Fits V t) (name : String) :
    (s.get? name = none ∧ t.entries.lookup name = none) ∨
      ∃ r type, s.get? name = some r ∧ t.entries.lookup name = some type ∧ V r type := by
  obtain ⟨hb, -⟩ := hs
  unfold Scope.get?
  revert hb
  generalize s.bindings = bs
  generalize t.entries = es
  intro hb
  induction hb with
  | nil => exact .inl ⟨rfl, rfl⟩
  | @cons e b es bs heb _ ih =>
    obtain ⟨x, type⟩ := e
    obtain ⟨y, r⟩ := b
    obtain ⟨rfl, hv⟩ := heb
    by_cases hx : name = x
    · subst hx
      exact .inr ⟨r, type, by simp, by simp, hv⟩
    · have hne : (name == x) = false := by simpa using hx
      simpa [List.lookup_cons, hne] using ih

lemma has_iff {s : Scope} (hs : s.Fits V t) (name : String) :
    s.has name = true ↔ name ∈ t.names := by
  rw [t.mem_names_iff, Scope.has]
  rcases hs.lookup name with ⟨h, h'⟩ | ⟨r, type, h, h', -⟩ <;> simp [h, h']

lemma add {t : Table} {s : Scope} {name : String} {type : Ty} {r : Ref} (hs : s.Fits V t)
    (hn : name ∉ t.names) (hv : V r type) : (s.add name r).Fits V (t.add name type) := by
  refine ⟨List.rel_append hs.bindings (.cons ⟨rfl, hv⟩ .nil), ?_⟩
  rw [Table.names_add, ← List.concat_eq_append]
  exact List.Nodup.concat hn hs.distinct

/-- A variable can be made to name any cell that its type describes. -/
lemma rebind {t : Table} {s : Scope} {name : String} {type : Ty} {r : Ref} (hs : s.Fits V t)
    (ht : t.entries.lookup name = some type) (hv : V r type) : (s.rebind name r).Fits V t := by
  refine ⟨?_, hs.distinct⟩
  -- names are distinct, so no entry but the one that is found has the name
  have honly : ∀ e ∈ t.entries, e.1 = name → V r e.2 := by
    rintro ⟨x, u⟩ he rfl
    rw [Table.lookup_of_mem hs.distinct he] at ht
    cases ht
    exact hv
  unfold Scope.rebind
  rw [List.forall₂_map_right_iff]
  refine (List.forall₂_and_left (p := (· ∈ t.entries)) _ _).mpr ⟨fun _ h => h, hs.bindings⟩ |>.imp
    ?_
  rintro ⟨x, u⟩ ⟨y, q⟩ ⟨he, rfl, hq⟩
  by_cases hx : x = name
  · exact ⟨rfl, by simpa [hx] using honly _ he hx⟩
  · exact ⟨rfl, by simpa [hx] using hq⟩

end Scope.Fits

/-! ## Lists of scopes -/

namespace Scopes

variable {ts : List Table} {ss : List Scope}

/-- Both sides know the variable, or neither does. -/
lemma lookup (h : List.Forall₂ (Scope.Fits V) ts ss) (name : String) :
    (ss.findSome? (·.get? name) = none ∧ Tables.find? ts name = none) ∨
      ∃ r type, ss.findSome? (·.get? name) = some r ∧ Tables.find? ts name = some type ∧
        V r type := by
  induction h with
  | nil => exact .inl ⟨rfl, rfl⟩
  | @cons t s ts ss hs _ ih =>
    unfold Tables.find? at ih ⊢
    simp only [List.findSome?_cons]
    rcases hs.lookup name with ⟨h, h'⟩ | ⟨r, type, h, h', hv⟩
    · simpa [h, h'] using ih
    · exact .inr ⟨r, type, by simp [h], by simp [h'], hv⟩

lemma rebindIn_none (h : List.Forall₂ (Scope.Fits V) ts ss) (hn : Tables.find? ts name = none) :
    Context.rebindIn name r ss = none := by
  induction h with
  | nil => rfl
  | @cons t s ts ss hs _ ih =>
    unfold Tables.find? at ih hn
    rw [List.findSome?_cons] at hn
    rcases hs.lookup name with ⟨h, h'⟩ | ⟨q, type, h, h', -⟩
    · rw [h'] at hn
      simp [Context.rebindIn, Scope.has, h, ih hn]
    · rw [h'] at hn
      cases hn

lemma rebindIn_some (h : List.Forall₂ (Scope.Fits V) ts ss) (hn : Tables.find? ts name = some type)
    (hv : V r type) : ∃ ss', Context.rebindIn name r ss = some ss' ∧
      List.Forall₂ (Scope.Fits V) ts ss' := by
  induction h with
  | nil => cases hn
  | @cons t s ts ss hs hss ih =>
    unfold Tables.find? at ih hn
    rw [List.findSome?_cons] at hn
    rcases hs.lookup name with ⟨h, h'⟩ | ⟨q, type', h, h', -⟩
    · rw [h'] at hn
      obtain ⟨ss', hss', hfits⟩ := ih hn
      exact ⟨s :: ss', by simp [Context.rebindIn, Scope.has, h, hss'], .cons hs hfits⟩
    · rw [h'] at hn
      cases hn
      exact ⟨s.rebind name r :: ss, by simp [Context.rebindIn, Scope.has, h],
        .cons (hs.rebind h' hv) hss⟩

end Scopes

/-! ## Contexts -/

/-- The scopes of a context fit the tables of a frame. -/
structure Context.Fits (V : Ref → Ty → Prop) (f : Frame) (c : Context) : Prop where
  inner : List.Forall₂ (Scope.Fits V) f.inner c.inner
  base : c.base.Fits V f.base

namespace Context.Fits

variable {f : Frame} {c : Context}

lemma mono (h : ∀ r t, V r t → W r t) (hc : c.Fits V f) : c.Fits W f :=
  ⟨hc.inner.imp fun _ _ hs => hs.mono h, hc.base.mono h⟩

lemma scopes (hc : c.Fits V f) : List.Forall₂ (Scope.Fits V) f.tables c.scopes :=
  List.rel_append hc.inner (.cons hc.base .nil)

lemma current (hc : c.Fits V f) : c.current.Fits V f.current := by
  obtain ⟨name', inner, base⟩ := c
  obtain ⟨tables, table⟩ := f
  obtain ⟨hi, hb⟩ := hc
  cases hi with
  | nil => exact hb
  | cons h _ => exact h

lemma add {name : String} {type : Ty} {r : Ref} (hc : c.Fits V f)
    (hn : name ∉ f.current.names) (hv : V r type) : (c.add name r).Fits V (f.add name type) := by
  obtain ⟨name', inner, base⟩ := c
  obtain ⟨tables, table⟩ := f
  obtain ⟨hi, hb⟩ := hc
  cases hi with
  | nil => exact ⟨.nil, hb.add hn hv⟩
  | cons h hs => exact ⟨.cons (h.add hn hv) hs, hb⟩

lemma rebind_none (hc : c.Fits V f) (hn : Tables.find? f.tables name = none) :
    c.rebind name r = none := by
  unfold Tables.find? Frame.tables at hn
  rw [List.findSome?_append, Option.or_eq_none_iff] at hn
  have hbase : c.base.has name = false := by
    rcases hc.base.lookup name with ⟨h, -⟩ | ⟨q, type, h, h', -⟩
    · simp [Scope.has, h]
    · simp [h'] at hn
  simp [Context.rebind, Scopes.rebindIn_none hc.inner hn.1, hbase]

lemma rebind_some (hc : c.Fits V f) (hn : Tables.find? f.tables name = some type) (hv : V r type) :
    ∃ c', c.rebind name r = some c' ∧ c'.Fits V f := by
  unfold Tables.find? Frame.tables at hn
  rw [List.findSome?_append] at hn
  cases hi : f.inner.findSome? (·.entries.lookup name) with
  | some u =>
    rw [hi] at hn
    cases hn
    obtain ⟨inner, hinner, hfits⟩ := Scopes.rebindIn_some hc.inner hi hv
    exact ⟨{ c with inner }, by simp [Context.rebind, hinner], hfits, hc.base⟩
  | none =>
    rw [hi] at hn
    have hbase : f.base.entries.lookup name = some type := by
      simpa using hn
    have hhas : c.base.has name = true :=
      (hc.base.has_iff name).mpr ((f.base.mem_names_iff name).mpr (by simp [hbase]))
    refine ⟨{ c with base := c.base.rebind name r }, ?_, hc.inner, hc.base.rebind hbase hv⟩
    simp [Context.rebind, Scopes.rebindIn_none hc.inner hi, hhas]

end Context.Fits

/-! ## Machines -/

namespace Machine

variable (m : Machine) (h : Context → Context)

@[simp] lemma updateCurrent_store : (m.updateCurrent h).store = m.store := by
  unfold updateCurrent; split <;> rfl

@[simp] lemma updateCurrent_returning : (m.updateCurrent h).returning = m.returning := by
  unfold updateCurrent; split <;> rfl

@[simp] lemma updateCurrent_functions : (m.updateCurrent h).functions = m.functions := by
  unfold updateCurrent; split <;> rfl

@[simp] lemma updateCurrent_depthLimit : (m.updateCurrent h).depthLimit = m.depthLimit := by
  unfold updateCurrent; split <;> rfl

@[simp] lemma length_calls_updateCurrent :
    (m.updateCurrent h).calls.length = m.calls.length := by
  unfold updateCurrent; split <;> simp_all

variable (name : String) (r : Ref)

/-- Rebinding a variable changes contexts only. -/
lemma rebind_eq : ∃ mod cs, m.rebind name r = { m with module := mod, calls := cs } ∧
    cs.length = m.calls.length := by
  unfold rebind
  split
  · rename_i h
    exact ⟨_, m.calls, rfl, rfl⟩
  · rename_i c outer h
    split
    · exact ⟨m.module, _, rfl, by simp [h]⟩
    · exact ⟨_, m.calls, rfl, rfl⟩

end Machine

/-- The contexts of a machine fit what its variables were declared as. -/
structure Machine.Fits (V : Ref → Ty → Prop) (Γ : Declared) (m : Machine) : Prop where
  module : m.module.Fits V Γ.module
  calls : List.Forall₂ (Context.Fits V) Γ.calls m.calls

namespace Machine.Fits

variable {Γ : Declared} {m : Machine}

lemma mono (h : ∀ r t, V r t → W r t) (hm : m.Fits V Γ) : m.Fits W Γ :=
  ⟨hm.module.mono h, hm.calls.imp fun _ _ hc => hc.mono h⟩

/-- Calls are under way on both sides or on neither. -/
lemma calls_cases (hm : m.Fits V Γ) :
    (Γ.calls = [] ∧ m.calls = []) ∨
      ∃ f fs c cs, Γ.calls = f :: fs ∧ m.calls = c :: cs ∧ c.Fits V f ∧
        List.Forall₂ (Context.Fits V) fs cs := by
  have hcalls := hm.calls
  cases hΓ : Γ.calls with
  | nil =>
    rw [hΓ, List.forall₂_nil_left_iff] at hcalls
    exact .inl ⟨rfl, hcalls⟩
  | cons f fs =>
    rw [hΓ, List.forall₂_cons_left_iff] at hcalls
    obtain ⟨c, cs, hc, hcs, hm⟩ := hcalls
    exact .inr ⟨f, fs, c, cs, rfl, hm, hc, hcs⟩

lemma current (hm : m.Fits V Γ) : m.current.Fits V Γ.current := by
  unfold Machine.current Declared.current
  rcases hm.calls_cases with ⟨hΓ, hc⟩ | ⟨f, fs, c, cs, hΓ, hc, hf, -⟩
  · rw [hΓ, hc]
    exact hm.module
  · rw [hΓ, hc]
    exact hf

lemma visible (hm : m.Fits V Γ) : List.Forall₂ (Scope.Fits V) Γ.visible m.visible := by
  unfold Machine.visible Declared.visible
  rcases hm.calls_cases with ⟨hΓ, hc⟩ | ⟨f, fs, c, cs, hΓ, hc, hf, -⟩
  · rw [hΓ, hc]
    exact hm.module.scopes
  · rw [hΓ, hc]
    exact List.rel_append hf.scopes (.cons hm.module.base .nil)

/-- What is done to the current context and to its tables alike keeps them fitting. -/
lemma updateCurrent {g : Frame → Frame} {h : Context → Context} (hm : m.Fits V Γ)
    (hgh : (h m.current).Fits V (g Γ.current)) :
    (m.updateCurrent h).Fits V (Γ.updateCurrent g) := by
  unfold Machine.updateCurrent Declared.updateCurrent
  unfold Machine.current Declared.current at hgh
  rcases hm.calls_cases with ⟨hΓ, hc⟩ | ⟨f, fs, c, cs, hΓ, hc, -, hcs⟩
  · rw [hΓ, hc] at hgh
    rw [hΓ, hc]
    exact ⟨hgh, by simp⟩
  · rw [hΓ, hc] at hgh
    rw [hΓ, hc]
    exact ⟨hm.module, .cons hgh hcs⟩

lemma declare (hm : m.Fits V Γ) (hn : name ∉ Γ.current.current.names) (hv : V r type) :
    (m.updateCurrent (·.add name r)).Fits V (Γ.updateCurrent (·.add name type)) :=
  hm.updateCurrent (hm.current.add hn hv)

lemma enter (hm : m.Fits V Γ) :
    (m.updateCurrent fun c => { c with inner := {} :: c.inner }).Fits V Γ.enter :=
  hm.updateCurrent ⟨.cons .empty hm.current.inner, hm.current.base⟩

lemma exit (hm : m.Fits V (Γ.updateCurrent fun f => { f with inner := t :: f.inner })) :
    ∃ s outer, m.current.inner = s :: outer ∧
      (m.updateCurrent fun c => { c with inner := outer }).Fits V Γ := by
  unfold Declared.updateCurrent at hm
  unfold Machine.current Machine.updateCurrent
  cases hΓ : Γ.calls with
  | nil =>
    rw [hΓ] at hm
    obtain ⟨s, outer, -, houter, hinner⟩ := List.forall₂_cons_left_iff.mp hm.module.inner
    have hcalls : m.calls = [] := List.forall₂_nil_left_iff.mp hm.calls
    rw [hcalls]
    exact ⟨s, outer, hinner, ⟨houter, hm.module.base⟩, by rw [hΓ]; simp⟩
  | cons f fs =>
    rw [hΓ] at hm
    obtain ⟨c, cs, hc, hcs, hcalls⟩ := List.forall₂_cons_left_iff.mp hm.calls
    obtain ⟨s, outer, -, houter, hinner⟩ := List.forall₂_cons_left_iff.mp hc.inner
    rw [hcalls]
    exact ⟨s, outer, hinner, hm.module, by rw [hΓ]; exact .cons ⟨houter, hc.base⟩ hcs⟩

lemma call (hm : m.Fits V Γ) (name : String) :
    { m with calls := { name } :: m.calls }.Fits V (Γ.call []) :=
  ⟨hm.module, .cons ⟨.nil, .empty⟩ hm.calls⟩

/-- A visible variable can be made to name any cell that its type describes. -/
lemma rebind {name : String} {type : Ty} {r : Ref} (hm : m.Fits V Γ)
    (hn : Tables.find? Γ.visible name = some type) (hv : V r type) :
    (m.rebind name r).Fits V Γ := by
  unfold Machine.rebind
  unfold Declared.visible at hn
  rcases hm.calls_cases with ⟨hΓ, hc⟩ | ⟨f, fs, c, cs, hΓ, hc, hf, hcs⟩
  · rw [hΓ] at hn
    obtain ⟨c', hc', hfits⟩ := hm.module.rebind_some hn hv
    rw [hc]
    simp only [hc', Option.getD_some]
    exact ⟨hfits, by rw [hΓ]; exact .nil⟩
  · rw [hΓ] at hn
    rw [hc]
    unfold Tables.find? at hn
    rw [List.findSome?_append] at hn
    cases hf' : f.tables.findSome? (·.entries.lookup name) with
    | some u =>
      rw [hf'] at hn
      cases hn
      obtain ⟨c', hc', hfits⟩ := hf.rebind_some hf' hv
      simp only [hc']
      exact ⟨hm.module, by rw [hΓ]; exact .cons hfits hcs⟩
    | none =>
      -- inside a call, names that the call does not know are those of the module
      rw [hf'] at hn
      simp only [hf.rebind_none hf']
      exact ⟨⟨hm.module.inner, hm.module.base.rebind (by simpa using hn) hv⟩,
        by rw [hΓ]; exact .cons hf hcs⟩

end Machine.Fits

end AudLang
