import AudLang.Proofs.Discipline

/-!
Runs of accepted programs.

Every moment of a run of an accepted program ends well or stops for a cause, and leads only to
moments of which the same can be said.  The statements of this file follow the rules of the grammar:
for each rule, the parts of a node are visited when everything is ready for them, and the step that
puts their values together is one of the steps that a discipline has a law for.

A moment leads to nodes inside of its own or, with less depth left, into the body of a function, so
that one induction covers all of them (`World.sound`).
-/

namespace AudLang

open Run Moment

variable {field id : String} {a e n object returns value : Node} {u : Ty} {r : Ref}
  {args body ps : List Node}
  {f : Signature} {b : Span}

/-! ## Parts that are visited -/

namespace Checker

variable {k : Checker}

lemma comes_of_first (h : n.first? = some e) : Comes (k, n) (k, e) := by
  refine .single ?_
  unfold Node.first? at h
  split at h
  case h_9 =>
    split at h
    · cases h; simp [below, Node.parts]
    · cases h
  all_goals cases h
  all_goals simp [below, Node.parts]

lemma comes_of_items (h : e ∈ n.items) : Comes (k, n) (k, e) := by
  refine .single ?_
  unfold Node.items at h
  split at h
  · simpa [below, Node.parts] using h
  · simp [below, Node.parts, h]
  · simpa [below, Node.parts] using h
  · cases h

lemma comes_of_member {s : Span} (h : (k, .member s e field) ∈ k.below n) : Comes (k, n) (k, e) :=
  .tail (.single h) (by simp [below, Node.parts])

lemma Comes.within {p q : Checker × Node} (h : Comes p q) : q.2.Within p.2 := by
  induction h with
  | refl => exact .refl
  | tail _ hstep ih => exact .head (mem_parts_of_mem_below hstep) ih

end Checker

lemma Discipline.allows_of_comes {fuel : Nat} (L : Discipline fuel) {p q : Checker × Node}
    (h : Checker.Comes p q) (hp : L.allows p.1 p.2) : L.allows q.1 q.2 := by
  induction h with
  | refl => exact hp
  | tail _ hstep ih => exact L.allows_below ih hstep

lemma Checker.Infers.unique {k : Checker} {t : Ty} (ht : k.Infers n t) (hu : k.Infers n u) :
    t = u := by
  have h := ht.visit.symm.trans hu.visit
  injection h

lemma Declared.after_expression (h : n.IsExpression) (Γ : Declared) : Γ.after n = Γ := by
  cases h <;> rfl

namespace Discipline.World

variable {fuel : Nat} {L : Discipline fuel} (W : L.World)

/-- The moments that a moment leads to end as they should. -/
def SoundBelow (c : Moment) : Prop :=
  ∀ c', Enters fuel c c' → ∀ k', W.Ready k' c' → W.Sound k' c'

/-- The machine is kept, and what was computed last has this type. -/
structure Yields (c : Moment) (t : Ty) (m : Machine) : Prop extends W.Kept c m where
  value : L.describes m.store m.last t

variable {W} {k : Checker} {c : Moment} {t : Ty} {m m' : Machine}

lemma Yields.post (h : W.Yields c t m) (ht : k.Infers c.node t) : W.Post k c m where
  intact := by
    rw [Declared.after_expression ht.expression]
    exact h.steady.toIntact
  evolves := h.evolves
  value := fun u hu => ht.unique hu ▸ h.value
  returned := fun r hr => by rw [h.steady.returning] at hr; cases hr

lemma Post.yields (h : W.Post k c m) (ht : k.Infers c.node t) : W.Yields c t m where
  steady := by
    have hintact := h.intact
    rw [Declared.after_expression ht.expression] at hintact
    refine ⟨hintact, ?_⟩
    cases hr : m.returning with
    | none => rfl
    | some r => exact absurd ht.expression (h.returned r hr).1
  evolves := h.evolves
  value := h.value t ht

/-- A part of a node can be visited as long as the machine is kept. -/
lemma Ready.part (hk : W.Ready k c) (hm : W.Kept c m) (hn : Checker.Comes (k, c.node) (k, n))
    (hs : k.Sanctions n) : W.Ready k ⟨c.depth, n, c.declared, m⟩ where
  sanctioned := hs
  allowed := L.allows_of_comes hn hk.allowed
  placed := hk.placed
  steady := hm.steady
  inside := fun hcalls => by
    obtain ⟨s, returns, id, ps, body, hmem, hwithin⟩ := hk.inside hcalls
    exact ⟨s, returns, id, ps, body, hmem, hn.within.trans hwithin⟩

lemma Ready.kept (hk : W.Ready k c) : W.Kept c c.machine :=
  ⟨hk.steady, L.evolves_of_keeps (.refl _)⟩

lemma SoundBelow.expression (ih : W.SoundBelow c) (hk : W.Ready k c) (hm : W.Kept c m)
    (hn : Checker.Comes (k, c.node) (k, n)) (ht : k.Infers n t)
    (hc : Enters fuel c ⟨c.depth, n, c.declared, m⟩) :
    Ends (visitAt fuel c.depth n m)
      (fun _ m' => W.Yields c t m' ∧ L.evolves m.store m'.store) (W.Blame c) := by
  have hsound := ih _ hc k (hk.part hm hn (.expression ht))
  refine Ends.weaken hsound (fun _ m' _ h => ?_) (fun _ _ _ h => h.enters hc)
  have hy := h.yields ht
  exact ⟨⟨⟨hy.steady, L.evolves_trans hm.evolves hy.evolves⟩, hy.value⟩, hy.evolves⟩

lemma SoundBelow.valueOf (ih : W.SoundBelow c) (hk : W.Ready k c) (hm : W.Kept c m)
    (hn : Checker.Comes (k, c.node) (k, n)) (ht : k.Infers n t)
    (hc : Enters fuel c ⟨c.depth, n, c.declared, m⟩) :
    Ends (Run.valueOf (visitAt fuel c.depth n) m)
      (fun r m' => W.Kept c m' ∧ L.evolves m.store m'.store ∧ L.describes m'.store r t)
      (W.Blame c) := by
  refine Ends.bind (ih.expression hk hm hn ht hc) fun _ m' _ h => ?_
  exact ⟨h.1.toKept, h.2, h.1.value⟩

/-- The values of parts whose types are known, from where some of them have been visited. -/
lemma SoundBelow.values (ih : W.SoundBelow c) (hk : W.Ready k c) {rest : List Node} :
    ∀ (done after : List Node) {rs : List Ref} {m : Machine},
    c.node.items = done ++ (rest ++ after) →
    valuesAt fuel c.depth done c.machine = .ok rs m → W.Kept c m →
    (∀ a ∈ rest, ∃ t, k.Infers a t) →
    Ends (valuesAt fuel c.depth rest m)
      (fun qs m' => W.Kept c m' ∧ L.evolves m.store m'.store ∧
        List.Forall₂ (fun a q => ∀ t, k.Infers a t → L.describes m'.store q t) rest qs)
      (W.Blame c) := by
  induction rest with
  | nil =>
    intro done after rs m _ _ hm _
    exact ⟨hm, L.evolves_of_keeps (.refl _), .nil⟩
  | cons a rest ihrest =>
    intro done after rs m hitems hdone hm hrest
    obtain ⟨t, ht⟩ := hrest a List.mem_cons_self
    have hmem : a ∈ c.node.items := by rw [hitems]; simp
    refine Ends.bind (ih.valueOf hk hm (Checker.comes_of_items hmem) ht (.item hitems hdone)) ?_
    rintro r m₁ hr ⟨hm₁, he₁, hd₁⟩
    have hdone₁ : valuesAt fuel c.depth (done ++ [a]) c.machine = .ok (rs ++ [r]) m₁ := by
      rw [valuesAt, values_append hdone, Run.values]
      simp only [bind_run] at hr ⊢
      rw [hr]
      rfl
    refine Ends.bind (ihrest (done ++ [a]) after (by rw [hitems]; simp) hdone₁ hm₁
      fun b hb => hrest b (List.mem_cons_of_mem _ hb)) ?_
    rintro qs m₂ _ ⟨hm₂, he₂, hqs⟩
    refine ⟨hm₂, L.evolves_trans he₁ he₂, .cons (fun u hu => ?_) hqs⟩
    exact L.describes_of_evolves he₂ (ht.unique hu ▸ hd₁)

lemma SoundBelow.items (ih : W.SoundBelow c) (hk : W.Ready k c)
    (hitems : ∀ a ∈ c.node.items, ∃ t, k.Infers a t) :
    Ends (valuesAt fuel c.depth c.node.items c.machine)
      (fun qs m' => W.Kept c m' ∧
        List.Forall₂ (fun a q => ∀ t, k.Infers a t → L.describes m'.store q t) c.node.items qs)
      (W.Blame c) :=
  (ih.values hk [] [] (by simp) rfl hk.kept hitems).weaken
    (fun _ _ _ h => ⟨h.1, h.2.2⟩) (fun _ _ _ h => h)

/-! ## Expressions -/

lemma forall_mem_right {α β : Type} {R : α → β → Prop} {P : β → Prop} {as : List α}
    {bs : List β} (h : List.Forall₂ R as bs) (hP : ∀ a ∈ as, ∀ b, R a b → P b) : ∀ b ∈ bs, P b := by
  induction h with
  | nil => simp
  | cons hab _ ih =>
    intro b hb
    rcases List.mem_cons.mp hb with rfl | hb
    · exact hP _ List.mem_cons_self b hab
    · exact ih (fun a ha => hP a (List.mem_cons_of_mem _ ha)) b hb

lemma describes_of_covers {σ : Store} (h : t.Covers u) (hr : L.describes σ r u) :
    L.describes σ r t := by
  induction h with
  | refl => exact hr
  | tail _ hstep ih => exact L.describes_of_accepts hstep ih

lemma exists_of_suits {ps : List Ty} (h : k.Suits args ps) : ∀ a ∈ args, ∃ t, k.Infers a t := by
  refine forall_mem_right h.flip fun p _ a ⟨t, ht, _⟩ => ⟨t, ht⟩

/-- Arguments that suit some parameters have values that suit them. -/
lemma describes_of_suits {ps : List Ty} {σ : Store} (h : k.Suits args ps) : ∀ {rs : List Ref},
    List.Forall₂ (fun a q => ∀ t, k.Infers a t → L.describes σ q t) args rs →
    List.Forall₂ (L.describes σ) rs ps := by
  induction h with
  | nil => rintro _ (_ | _); exact .nil
  | cons hp _ ih =>
    rintro _ (_ | ⟨hq, hrest⟩)
    obtain ⟨t, ht, haccepts⟩ := hp
    exact .cons (L.describes_of_accepts haccepts (hq t ht)) (ih hrest)

/-- A new value. -/
lemma Kept.give {v : Value} (hm : W.Kept c m) (hv : L.describes (m.store.push v) m.store.next t) :
    Ends (Run.give v m) (fun _ m' => W.Yields c t m') (W.Blame c) :=
  (hm.quiet (Q := fun _ m' => L.describes m'.store m'.last t) plain_give.quiet hv).weaken
    (fun _ _ _ h => ⟨h.1.1, h.2⟩) (fun _ _ _ h => h)

/-- A value that a step finds. -/
lemma Kept.answer {x : Run Ref} (hm : W.Kept c m) (hq : Quiet x)
    (hx : Ends (x m) (fun q m' => L.describes m'.store q t) (fun e _ => L.excuses c e)) :
    Ends ((x >>= setLast) m) (fun _ m' => W.Yields c t m') (W.Blame c) := by
  refine Ends.bind (hm.quiet hq hx) fun q m' _ ⟨⟨hm', _⟩, hq'⟩ => ?_
  exact ⟨hm'.undisturbed ⟨rfl, rfl, rfl, rfl, rfl, .refl _⟩, hq'⟩

variable (W) in
/-- The moment computes a value of this type. -/
def Computes (c : Moment) (t : Ty) : Prop :=
  Ends (c.run fuel) (fun _ m => W.Yields c t m) (W.Blame c)

/-- A variable that the checker knows names a cell that its type describes, or it is late. -/
lemma Ready.cellOf {name : String} {p : Position} (hk : W.Ready k c) (hm : W.Kept c m)
    (href : c.LooksUp fuel name p m) (h : (k.typeOf name).isPresent = true) :
    Ends (Run.cellOf name p m)
      (fun r m' => m = m' ∧ L.describes m.store r (k.typeOf name) ∧
        Tables.find? c.declared.visible name = some (k.typeOf name))
      (W.Blame c) := by
  have hlookup := Scopes.lookup hm.steady.fits.visible name
  simp only [Run.cellOf, bind_run, get_run, Machine.lookup?]
  rcases hk.placed.find? h with hfind | ⟨hfind, hcalls, hknown, hmissing⟩
  · rcases hlookup with ⟨-, hnone⟩ | ⟨r, u, hr, hu, hd⟩
    · rw [hfind] at hnone
      cases hnone
    · rw [hfind] at hu
      cases hu
      rw [hr]
      exact ⟨rfl, hd, hfind⟩
  · rcases hlookup with ⟨hnone, -⟩ | ⟨r, u, -, hu, -⟩
    · rw [hnone]
      exact ⟨c, .here c, hm.steady.fits, .late ⟨href, hnone, hcalls, hknown, hmissing⟩⟩
    · rw [hfind] at hu
      cases hu

/-- Whether the value of a part counts as true. -/
lemma SoundBelow.holds (ih : W.SoundBelow c) (hk : W.Ready k c) (hm : W.Kept c m)
    (hn : Checker.Comes (k, c.node) (k, n)) (ht : k.Infers n t)
    (hc : Enters fuel c ⟨c.depth, n, c.declared, m⟩) :
    Ends (Run.holds (visitAt fuel c.depth n) m)
      (fun b m' => W.Kept c m' ∧ visitAt fuel c.depth n m = .ok () m' ∧
        b = (m'.store.get m'.last).isTrue)
      (W.Blame c) := by
  have h := ih.expression hk hm hn ht hc
  cases hr : visitAt fuel c.depth n m with
  | ok u m' =>
    rw [hr] at h
    rw [holds_of_ok hr]
    exact ⟨h.1.toKept, rfl, rfl⟩
  | error e m' =>
    rw [hr] at h
    rw [holds_of_error hr]
    exact h

section

variable {d : Nat} {Γ : Declared} {s p : Span}

lemma computes_literal {v : Value} (hk : W.Ready k c) (hv : Value.Literal v t)
    (hc : c.run fuel = Run.give v c.machine) : W.Computes c t := by
  unfold Computes
  rw [hc]
  exact hk.kept.give (L.describes_literal hv)

lemma computes_name (hk : W.Ready k ⟨d, .name s id, Γ, m⟩) (h : (k.typeOf id).isPresent = true) :
    W.Computes ⟨d, .name s id, Γ, m⟩ (k.typeOf id) := by
  unfold Computes Moment.run
  rw [visitAt, visit]
  refine Ends.bind (hk.cellOf hk.kept (.name d s id Γ m) h) ?_
  rintro r _ - ⟨rfl, hd, -⟩
  exact ⟨hk.kept.undisturbed ⟨rfl, rfl, rfl, rfl, rfl, .refl _⟩, hd⟩

lemma computes_list {es : List Node} (hk : W.Ready k ⟨d, .list s es, Γ, m⟩)
    (ih : W.SoundBelow ⟨d, .list s es, Γ, m⟩) (h : ∀ e ∈ es, ∃ u, k.Infers e u ∧ t.Covers u) :
    W.Computes ⟨d, .list s es, Γ, m⟩ (.list t) := by
  unfold Computes Moment.run
  rw [visitAt, visit]
  have hinfers : ∀ e ∈ es, ∃ u, k.Infers e u := fun e he => (h e he).imp fun _ hu => hu.1
  refine Ends.bind (ih.items hk hinfers) ?_
  rintro rs m₁ - ⟨hm₁, hrs⟩
  have hall : ∀ r ∈ rs, L.describes m₁.store r t :=
    forall_mem_right hrs fun e he r hr => by
      obtain ⟨u, hu, hcovers⟩ := h e he
      exact describes_of_covers hcovers (hr u hu)
  cases rs with
  | nil => exact hm₁.give (L.describes_list hall)
  | cons r rs => exact hm₁.give (L.describes_list hall)

lemma computes_logical {op : BinaryOp} {left right : Node} {l r : Ty}
    (hk : W.Ready k ⟨d, .binary s op left right, Γ, m⟩)
    (ih : W.SoundBelow ⟨d, .binary s op left right, Γ, m⟩) (ho : op = .and ∨ op = .or)
    (hl : k.Infers left l) (hr : k.Infers right r) :
    W.Computes ⟨d, .binary s op left right, Γ, m⟩ .bool := by
  have hleft := ih.holds hk hk.kept (Checker.comes_of_first rfl) hl (.first rfl)
  have hmem : Checker.Comes (k, .binary s op left right) (k, right) :=
    .single (by simp [Checker.below, Node.parts])
  unfold Computes Moment.run
  rcases ho with rfl | rfl
  · rw [visitAt, visit]
    refine Ends.bind hleft ?_
    rintro b m₁ _ ⟨hm₁, hv₁, hb⟩
    cases b with
    | false => exact hm₁.give (L.describes_literal (.bool _))
    | true =>
      have hc : Enters fuel ⟨d, .binary s .and left right, Γ, m⟩ ⟨d, right, Γ, m₁⟩ :=
        .right hv₁ (fun _ => hb.symm) (fun h => by cases h)
      exact Ends.bind (ih.holds hk hm₁ hmem hr hc) fun b m₂ _ h₂ =>
        h₂.1.give (L.describes_literal (.bool _))
  · rw [visitAt, visit]
    refine Ends.bind hleft ?_
    rintro b m₁ _ ⟨hm₁, hv₁, hb⟩
    cases b with
    | true => exact hm₁.give (L.describes_literal (.bool _))
    | false =>
      have hc : Enters fuel ⟨d, .binary s .or left right, Γ, m⟩ ⟨d, right, Γ, m₁⟩ :=
        .right hv₁ (fun h => by cases h) (fun _ => hb.symm)
      exact Ends.bind (ih.holds hk hm₁ hmem hr hc) fun b m₂ _ h₂ =>
        h₂.1.give (L.describes_literal (.bool _))

lemma computes_operation {op : BinaryOp} {left right : Node} {l r : Ty}
    (hk : W.Ready k ⟨d, .binary s op left right, Γ, m⟩)
    (ih : W.SoundBelow ⟨d, .binary s op left right, Γ, m⟩) (ha : op ≠ .and) (ho : op ≠ .or)
    (hl : k.Infers left l) (hr : k.Infers right r) (h : Check.operation op l r = .ok (some t)) :
    W.Computes ⟨d, .binary s op left right, Γ, m⟩ t := by
  have hmem : Checker.Comes (k, .binary s op left right) (k, right) :=
    .single (by simp [Checker.below, Node.parts])
  unfold Computes Moment.run
  rw [visitAt, visit_operation ha ho]
  refine Ends.bind (ih.valueOf hk hk.kept (Checker.comes_of_first rfl) hl (.first rfl)) ?_
  rintro a m₁ ha₁ ⟨hm₁, _, hd₁⟩
  obtain ⟨_, m₁', hv₁, hlast⟩ := ok_of_bind ha₁
  cases hlast
  refine Ends.bind (ih.valueOf hk hm₁ hmem hr
      (.right hv₁ (fun h => absurd h ha) (fun h => absurd h ho))) ?_
  rintro b m₂ _ ⟨hm₂, he₂, hd₂⟩
  exact (hm₂.quiet plain_operate.quiet (L.operate rfl ha ho hk.allowed hl hr h
    (L.describes_of_evolves he₂ hd₁) hd₂)).weaken (fun _ _ _ h => ⟨h.1.1, h.2⟩) (fun _ _ _ h => h)

lemma computes_negate (hk : W.Ready k ⟨d, .negate s e, Γ, m⟩)
    (ih : W.SoundBelow ⟨d, .negate s e, Γ, m⟩)
    (he : k.Infers e u) (h : u.hasBase .int = true ∧ t = .int ∨ u.hasBase .float = true ∧
      t = .float) :
    W.Computes ⟨d, .negate s e, Γ, m⟩ t := by
  unfold Computes Moment.run
  rw [visitAt, visit]
  refine Ends.bind (ih.valueOf hk hk.kept (Checker.comes_of_first rfl) he (.first rfl)) ?_
  rintro r m₁ _ ⟨hm₁, _, hd⟩
  exact (hm₁.quiet plain_negate.quiet (L.negate h hd)).weaken (fun _ _ _ h => ⟨h.1.1, h.2⟩)
    (fun _ _ _ h => h)

lemma computes_member (hk : W.Ready k ⟨d, .member s object field, Γ, m⟩)
    (ih : W.SoundBelow ⟨d, .member s object field, Γ, m⟩) (ho : k.Infers object u)
    (h : u.property? field = some t) : W.Computes ⟨d, .member s object field, Γ, m⟩ t := by
  unfold Computes Moment.run
  rw [visitAt, visit]
  refine Ends.bind (ih.valueOf hk hk.kept (Checker.comes_of_first rfl) ho (.first rfl)) ?_
  rintro r m₁ _ ⟨hm₁, _, hd⟩
  rw [← bind_assoc]
  exact hm₁.answer (plain_requireObject.quiet.bind fun _ => plain_getAttribute.quiet)
    (L.member h hd)

lemma computes_method (hk : W.Ready k ⟨d, .call s (.member p object field) args, Γ, m⟩)
    (ih : W.SoundBelow ⟨d, .call s (.member p object field) args, Γ, m⟩) (ho : k.Infers object u)
    (h : u.method? field = some f) (ha : k.Suits args f.parameters) :
    W.Computes ⟨d, .call s (.member p object field) args, Γ, m⟩ f.returns := by
  unfold Computes Moment.run
  rw [visitAt, visit]
  refine Ends.bind (ih.items hk (exists_of_suits ha)) ?_
  rintro rs m₁ hrs ⟨hm₁, hd₁⟩
  have hmem : Checker.Comes (k, .call s (.member p object field) args) (k, object) :=
    Checker.comes_of_member (List.mem_map_of_mem List.mem_cons_self)
  refine Ends.bind (ih.valueOf hk hm₁ hmem ho (.receiver hrs)) ?_
  rintro r m₂ hr ⟨hm₂, he₂, hd₂⟩
  have hargs := describes_of_suits ha hd₁
  rw [← bind_assoc]
  exact hm₂.answer (plain_requireObject.quiet.bind fun _ => plain_callMethod.quiet)
    (L.method rfl hk.allowed hrs hr h hd₂ (hargs.imp fun _ _ h => L.describes_of_evolves he₂ h))

lemma computes_construct (hk : W.Ready k ⟨d, .construct s id [a], Γ, m⟩)
    (ih : W.SoundBelow ⟨d, .construct s id [a], Γ, m⟩) (ha : k.Infers a u)
    (hu : Ty.string.accepts u = .ok true) :
    W.Computes ⟨d, .construct s id [a], Γ, m⟩ (.named id .absent) := by
  unfold Computes Moment.run
  rw [visitAt, visit]
  refine Ends.bind (ih.items hk fun e he => ⟨u, List.mem_singleton.mp he ▸ ha⟩) ?_
  rintro rs m₁ _ ⟨hm₁, hrs⟩
  obtain ⟨r, _, hr, hnil, rfl⟩ := List.forall₂_cons_left_iff.mp hrs
  obtain rfl := List.forall₂_nil_left_iff.mp hnil
  exact (hm₁.quiet plain_construct.quiet (L.construct rfl hk.allowed hu (hr u ha))).weaken
    (fun _ _ _ h => ⟨h.1.1, h.2⟩) (fun _ _ _ h => h)

/-! ## Calls -/

/-- Declaring a variable whose name is new in the innermost scope. -/
lemma declare_run {name : String} {q : Position} (hm : L.Fits Γ m)
    (hn : name ∉ Γ.current.current.names) :
    Run.declare name r q m = .ok () (m.updateCurrent (·.add name r)) := by
  have hhas : m.current.current.has name = false := by
    rw [Bool.eq_false_iff]
    exact fun h => hn ((hm.current.current.has_iff name).mp h)
  simp only [Run.declare, bind_run, get_run, hhas]
  rfl

/-- Parameters are bound to the arguments of a call one after the other. -/
lemma declareParameters_run : ∀ {rs : List Ref} {t : Table} {m : Machine},
    (∀ p ∈ ps, p.IsParameter) →
    List.Forall₂ (L.describes m.store) rs ((ps.filterMap Node.entry?).map Prod.snd) →
    (⟨t.entries ++ ps.filterMap Node.entry?⟩ : Table).names.Nodup →
    L.Fits { Γ with calls := { base := t } :: Γ.calls } m →
    ∃ cs, declareParameters ps rs m = .ok () { m with calls := cs } ∧
      L.Fits { Γ with calls := { base := ⟨t.entries ++ ps.filterMap Node.entry?⟩ } :: Γ.calls }
        { m with calls := cs } := by
  induction ps with
  | nil =>
    intro rs t m _ hrs _ hm
    obtain rfl := List.forall₂_nil_right_iff.mp hrs
    exact ⟨m.calls, rfl, by simpa using hm⟩
  | cons q ps ih =>
    intro rs t m hps hrs hnodup hm
    obtain ⟨s, id, hty⟩ := hps q List.mem_cons_self
    rename_i type
    obtain ⟨r, rs', hr, hrs', rfl⟩ := List.forall₂_cons_right_iff.mp hrs
    have hentries : t.entries ++ (Node.parameter s type (.plain id) :: ps).filterMap Node.entry?
        = (t.add id type.declaredType).entries ++ ps.filterMap Node.entry? := by
      simp [Table.add, Node.entry?]
    rw [hentries] at hnodup ⊢
    have hfresh : id ∉ t.names := by
      have hnames : ((t.add id type.declaredType).names).Nodup := by
        refine hnodup.sublist ?_
        exact List.Sublist.map _ (List.sublist_append_left _ _)
      rw [Table.names_add, ← List.concat_eq_append, List.nodup_concat] at hnames
      exact hnames.1
    -- the context of the call is the current one, so the module stays as it is
    rcases hm.calls_cases with ⟨h, -⟩ | ⟨f, fs, c, cs, hΓ, hcalls, hc, hcs⟩
    · cases h
    have hdeclare := declare_run (r := r) (q := s.start) hm hfresh
    have hfits := hm.declare hfresh hr
    have hupdate : m.updateCurrent (·.add id r) = { m with calls := c.add id r :: cs } := by
      simp [Machine.updateCurrent, hcalls]
    rw [hupdate] at hdeclare hfits
    obtain ⟨cs', hrun, hfits'⟩ := ih (m := { m with calls := c.add id r :: cs })
      (fun p hp => hps p (List.mem_cons_of_mem _ hp)) hrs' hnodup hfits
    exact ⟨cs', by rw [declareParameters, bind_of_ok hdeclare, hrun], hfits'⟩

variable (W) in
/-- What is known about a function that can be called: the checker has accepted its body, behind
some of the global declarations. -/
structure Callable (k : Checker) (returns : Node) (ps : List Node) (b : Span) (body : List Node) :
    Prop where
  type : returns.IsType
  parameters : ∀ p ∈ ps, p.IsParameter
  distinct : (Node.parameterTable ps).names.Nodup
  admits : (k.define returns ps).enter.AdmitsAll body
  allows : L.allows (k.define returns ps) (.block b body)
  inner : k.inner = []
  functions : k.functions = W.signatures
  global : k.global.entries <+: W.globals.entries

lemma callable_of_mem (hmem : (id, n) ∈ W.defined) (hf : n.namedSignature? = some (id, f)) :
    ∃ u returns ps b body k, n = .define u returns id ps (.block b body) ∧
      f = ⟨(Node.parameterTable ps).entries.map Prod.snd, returns.declaredType⟩ ∧
      W.Callable k returns ps b body := by
  obtain ⟨k, hinner, hfunctions, hglobal, hadmits, hallows⟩ := W.checked id n hmem
  obtain ⟨u, returns, ps, body, rfl⟩ := W.named id n hmem
  cases hf
  cases hadmits.rule with
  | define _ b ht hp hn hb =>
    refine ⟨u, returns, ps, b, _, k, rfl, rfl, ht, hp, hn, hb, ?_, hinner, hfunctions, hglobal⟩
    exact L.allows_below hallows (by simp [Checker.below])

/-- The body of a function that is called is ready to be visited. -/
lemma Callable.ready {k₀ : Checker} {u : Span} (hf : W.Callable k₀ returns ps b body)
    (hmem : (id, .define u returns id ps (.block b body)) ∈ W.defined) (hk : W.Placed k Γ)
    (hm : W.Steady d (Γ.call ps) m) :
    W.Ready (k₀.define returns ps) ⟨d, .block b body, Γ.call ps, m⟩ where
  sanctioned := .block b hf.admits
  allowed := hf.allows
  placed :=
    { functions := hf.functions
      global := hf.global
      base := hk.base
      outside := fun h => by cases h
      inside := fun f fs h => by
        cases h
        simp [Checker.define, hf.inner, Frame.tables] }
  steady := hm
  inside := fun _ => ⟨u, returns, id, ps, .block b body, hmem, .refl⟩

lemma Node.IsType.returnTypeName_eq (h : n.IsType) : ∃ type, n.returnTypeName = .ok type := by
  cases h with
  | simple s hk => exact ⟨_, rfl⟩
  | list s h => exact ⟨_, rfl⟩

/-- The context of a call is opened and its parameters are bound, or calls nest too deep. -/
lemma open_run {rs : List Ref} (id : String) (q : Position) (hm : W.Steady d Γ m)
    (hp : ∀ p ∈ ps, p.IsParameter) (hn : (Node.parameterTable ps).names.Nodup)
    (hrs : List.Forall₂ (L.describes m.store) rs ((Node.parameterTable ps).entries.map Prod.snd)) :
    pushContext id q m = .error (.failed (.tooDeep m.depthLimit) (some q)) m ∨
      ∃ d' m₁ m₂, d = d' + 1 ∧ pushContext id q m = .ok () m₁ ∧
        declareParameters ps rs m₁ = .ok () m₂ ∧ m₂.store = m.store ∧
        W.Steady d' (Γ.call ps) m₂ := by
  by_cases hdeep : m.depthLimit ≤ m.calls.length + 1
  · left
    simp only [pushContext, bind_run, get_run, if_pos hdeep]
    rfl
  · right
    have hpush : pushContext id q m = .ok () { m with calls := { name := id } :: m.calls } := by
      simp only [pushContext, bind_run, get_run, if_neg hdeep]
      rfl
    have hcall : L.Fits { Γ with calls := { base := {} } :: Γ.calls }
        { m with calls := { name := id } :: m.calls } := hm.fits.call id
    obtain ⟨cs, hdeclare, hfits⟩ := declareParameters_run (t := {})
      (m := { m with calls := { name := id } :: m.calls }) hp hrs
      (by simpa [Node.parameterTable] using hn) hcall
    have hlength : cs.length = m.calls.length + 1 := by
      have h₁ := hfits.calls.length_eq
      have h₂ := hm.fits.calls.length_eq
      simp only [List.length_cons] at h₁
      omega
    have hdepth := hm.depth
    obtain ⟨d', rfl⟩ : ∃ d', d = d' + 1 := ⟨d - 1, by omega⟩
    refine ⟨d', _, _, rfl, hpush, hdeclare, rfl, ⟨?_, hm.functions, ?_⟩, hm.returning⟩
    · simpa [Declared.call, Node.parameterTable] using hfits
    · show m.depthLimit.toNat ≤ d' + cs.length
      omega

/-- The value that the body of a function has returned is taken, and the context of the call is
closed. -/
lemma close_run {k₀ : Checker} {q : Position} (ht : returns.IsType)
    (hm : W.Post (k₀.define returns ps) ⟨d, .block b body, Γ.call ps, m⟩ m') : Ends ((do
        let returned := (← get).returning
        modify fun m => { m with returning := none }
        Run.takeReturned id (← ask returns.returnTypeName) q returned
        popContext : Run Unit) m')
      (fun _ m₁ => W.Steady (d + 1) Γ m₁ ∧ L.evolves m.store m₁.store ∧
        L.describes m₁.store m₁.last returns.declaredType)
      (W.Blame ⟨d, .block b body, Γ.call ps, m⟩) := by
  obtain ⟨type, htype⟩ := Node.IsType.returnTypeName_eq ht
  have hkept : W.Kept ⟨d, .block b body, Γ.call ps, m⟩ { m' with returning := none } :=
    ⟨⟨⟨⟨hm.intact.fits.module, hm.intact.fits.calls⟩, hm.intact.functions, hm.intact.depth⟩, rfl⟩,
      hm.evolves⟩
  simp only [bind_run, get_run, modify_run, htype, ask, pure_run]
  refine Ends.bind (hkept.quiet plain_takeReturned.quiet (L.takeReturned ht htype fun r hr =>
    (hm.returned r hr).2.2))
    fun _ m₁ _ ⟨⟨hm₁, _⟩, hd₁⟩ => ?_
  rcases hm₁.steady.fits.calls_cases with ⟨h, -⟩ | ⟨f, fs, c, cs, hΓ, hcalls, hc, hcs⟩
  · cases h
  cases hΓ
  simp only [popContext, bind_run, get_run, hcalls]
  refine ⟨⟨⟨⟨hm₁.steady.fits.module, hcs⟩, hm₁.steady.functions, ?_⟩, hm₁.steady.returning⟩,
    hm₁.evolves, hd₁⟩
  have hdepth : m₁.depthLimit.toNat ≤ d + m₁.calls.length := hm₁.steady.depth
  rw [hcalls, List.length_cons] at hdepth
  show m₁.depthLimit.toNat ≤ d + 1 + cs.length
  omega

lemma computes_call (hk : W.Ready k ⟨d, .call s (.name p id) args, Γ, m⟩)
    (ih : W.SoundBelow ⟨d, .call s (.name p id) args, Γ, m⟩) (h : k.functions.get? id = some f)
    (ha : k.Suits args f.parameters) :
    W.Computes ⟨d, .call s (.name p id) args, Γ, m⟩ f.returns := by
  unfold Computes Moment.run
  rw [visitAt, visit]
  refine Ends.bind (ih.items hk (exists_of_suits ha)) ?_
  rintro rs m₁ hrs ⟨hm₁, hd₁⟩
  have hargs := describes_of_suits ha hd₁
  rw [hk.placed.functions] at h
  rcases W.lookup h with ⟨b, hb, rfl⟩ | ⟨hb, n, hn, hmem, hentry⟩
  · -- a function that comes with the language
    have hcallee : callee id p.start m₁ = .ok (.builtin b) m₁ := by
      simp only [callee, hb]
      rfl
    rw [callNamed, bind_of_ok hcallee]
    exact hm₁.answer plain_callBuiltin.quiet (L.builtin hargs)
  · obtain ⟨u, returns, ps, b, body, k₀, rfl, rfl, hf⟩ := callable_of_mem hmem hentry
    have hcallee : callee id p.start m₁
        = .ok (.defined (.define u returns id ps (.block b body))) m₁ := by
      simp only [callee, hb, bind_run, get_run, hm₁.steady.functions, hn]
      rfl
    rw [callNamed, bind_of_ok hcallee]
    show Ends (invoke (bodyAt fuel d) (.define u returns id ps (.block b body)) rs s.start m₁) _ _
    rcases open_run id s.start hm₁.steady hf.parameters hf.distinct hargs with
      hdeep | ⟨d', m₂, m₃, rfl, hpush, hdeclare, hstore, hm₃⟩
    · rw [invoke, bind_of_error hdeep]
      exact ⟨_, .here _, hm₁.steady.fits, .excused L.excuses_tooDeep⟩
    · rw [invoke, bind_of_ok hpush, bind_of_ok hdeclare]
      have hc : Enters fuel ⟨d' + 1, .call s (.name p id) args, Γ, m⟩
          ⟨d', .block b body, Γ.call ps, m₃⟩ := .body hrs hcallee hpush hdeclare
      refine Ends.bind ((ih _ hc _ (hf.ready hmem hk.placed hm₃)).weaken (fun _ _ _ h => h)
        (fun _ _ _ h => h.enters hc)) fun _ m₄ _ h₄ => ?_
      exact (close_run hf.type h₄).weaken
        (fun _ m₅ _ h₅ => ⟨⟨h₅.1, L.evolves_trans hm₁.evolves (hstore ▸ h₅.2.1)⟩, h₅.2.2⟩)
        (fun _ _ _ h => h.enters hc)

/-! ## Statements -/

variable (W) in
/-- What holds once a statement has been visited. -/
structure Settled (k : Checker) (c : Moment) (m : Machine) : Prop where
  intact : W.Intact c.depth (c.declared.after c.node) m
  evolves : L.evolves c.machine.store m.store
  returned : ∀ r, m.returning = some r → k.returns.isPresent = true ∧
    L.describes m.store r k.returns

lemma Settled.post (h : W.Settled k c m) (hn : ¬ c.node.IsExpression) : W.Post k c m :=
  ⟨h.intact, h.evolves, fun _ ht => absurd ht.expression hn, fun r hr => ⟨hn, h.returned r hr⟩⟩

lemma Kept.settled (h : W.Kept c m) (hc : c.declared.after c.node = c.declared) :
    W.Settled k c m :=
  ⟨by rw [hc]; exact h.steady.toIntact, h.evolves, fun r hr => by
    rw [h.steady.returning] at hr; cases hr⟩

/-- Statements end with null as the last value. -/
lemma Settled.give (h : W.Settled k c m) :
    Ends (Run.give .null m) (fun _ m' => W.Settled k c m') (W.Blame c) := by
  have hu : m.Undisturbed { m with store := m.store.push .null, last := m.store.next } :=
    ⟨rfl, rfl, rfl, rfl, rfl, m.store.keeps_push .null⟩
  have he := L.evolves_of_keeps hu.store
  refine ⟨h.intact.undisturbed hu, L.evolves_trans h.evolves he, fun r hr => ?_⟩
  obtain ⟨hp, hd⟩ := h.returned r hr
  exact ⟨hp, L.describes_of_evolves he hd⟩

variable (W) in
/-- The moment performs a statement. -/
def Performs (k : Checker) (c : Moment) : Prop :=
  Ends (c.run fuel) (fun _ m => W.Settled k c m) (W.Blame c)

lemma performs_declare {type : Node} (hk : W.Ready k ⟨d, .declare s type id value, Γ, m⟩)
    (ih : W.SoundBelow ⟨d, .declare s type id value, Γ, m⟩) (hv : k.Infers value u)
    (ht : type.declaredType.accepts u = .ok true) (hn : id ∉ k.current.names) :
    W.Performs k ⟨d, .declare s type id value, Γ, m⟩ := by
  unfold Performs Moment.run
  rw [visitAt, visit]
  refine Ends.bind (ih.valueOf hk hk.kept (Checker.comes_of_first rfl) hv (.first rfl)) ?_
  rintro r m₁ _ ⟨hm₁, _, hd₁⟩
  rw [hk.placed.current] at hn
  rw [bind_of_ok (declare_run hm₁.steady.fits hn)]
  refine Settled.give ⟨?_, ?_, ?_⟩
  · exact hm₁.steady.toIntact.updateCurrent
      (hm₁.steady.fits.declare hn (L.describes_of_accepts ht hd₁))
  · rw [Machine.updateCurrent_store]
    exact hm₁.evolves
  · intro r hr
    rw [Machine.updateCurrent_returning, hm₁.steady.returning] at hr
    cases hr

lemma performs_assign (hk : W.Ready k ⟨d, .assign s (.name p id) value, Γ, m⟩)
    (ih : W.SoundBelow ⟨d, .assign s (.name p id) value, Γ, m⟩)
    (hi : (k.typeOf id).isPresent = true)
    (hv : k.Infers value u) (h : (k.typeOf id).accepts u = .ok true) :
    W.Performs k ⟨d, .assign s (.name p id) value, Γ, m⟩ := by
  unfold Performs Moment.run
  rw [visitAt, visit]
  refine Ends.bind (ih.valueOf hk hk.kept (Checker.comes_of_first rfl) hv (.first rfl)) ?_
  rintro r m₁ hr₁ ⟨hm₁, _, hd₁⟩
  have hv₁ : visitAt fuel d value m = .ok () m₁ := by
    obtain ⟨_, _, hv, hlast⟩ := ok_of_bind hr₁
    cases hlast
    exact hv
  have hassign : Ends (Run.assign id r p.start m₁)
      (fun _ m' => W.Settled k ⟨d, .assign s (.name p id) value, Γ, m⟩ m')
      (W.Blame ⟨d, .assign s (.name p id) value, Γ, m⟩) := by
    refine Ends.bind (hk.cellOf hm₁ (.target s p id Γ hv₁) hi) ?_
    rintro target _ - ⟨rfl, -, hfind⟩
    simp only [Run.value, bind_run, get_run, pure_run]
    split
    · -- the value is written into the cell, whose types stay
      rename_i hfits
      have he := L.evolves_put hd₁ hfits
      have hkeeps := hm₁.steady.fits.mono fun _ _ hd => L.describes_of_evolves he hd
      refine ⟨⟨⟨hkeeps.module, hkeeps.calls⟩, hm₁.steady.functions, hm₁.steady.depth⟩,
        L.evolves_trans hm₁.evolves he, fun q hq => ?_⟩
      exact absurd (hm₁.steady.returning.symm.trans hq) (by simp)
    · -- the variable names the cell of the value
      have hfits := hm₁.steady.fits.rebind hfind (L.describes_of_accepts h hd₁)
      obtain ⟨mod, cs, heq, hlength⟩ := m₁.rebind_eq id r
      simp only [modify_run]
      rw [heq] at hfits ⊢
      refine ⟨⟨hfits, hm₁.steady.functions, ?_⟩, hm₁.evolves, fun q hq => ?_⟩
      · show m₁.depthLimit.toNat ≤ d + cs.length
        rw [hlength]
        exact hm₁.steady.depth
      · exact absurd (hm₁.steady.returning.symm.trans hq) (by simp)
  exact Ends.bind hassign fun _ m₂ _ hm₂ => hm₂.give

/-- No value has members that can be assigned to. -/
lemma performs_assignMember {o v : Ty}
    (hk : W.Ready k ⟨d, .assign s (.member p object field) value, Γ, m⟩)
    (ih : W.SoundBelow ⟨d, .assign s (.member p object field) value, Γ, m⟩) (ho : k.Infers object o)
    (hp : o.property? field = some u) (hv : k.Infers value v) :
    W.Performs k ⟨d, .assign s (.member p object field) value, Γ, m⟩ := by
  unfold Performs Moment.run
  rw [visitAt, visit]
  refine Ends.bind (ih.expression hk hk.kept (Checker.comes_of_first rfl) hv (.first rfl)) ?_
  rintro _ m₁ hv₁ ⟨hm₁, _⟩
  have hmem : Checker.Comes (k, .assign s (.member p object field) value) (k, object) :=
    Checker.comes_of_member (List.mem_map_of_mem List.mem_cons_self)
  refine Ends.bind (ih.valueOf hk hm₁.toKept hmem ho (.owner hv₁)) ?_
  rintro r m₂ _ ⟨hm₂, _, hd₂⟩
  exact ⟨_, .here _, hm₂.steady.fits, .excused (L.excuses_readOnly hp hd₂)⟩

/-- A statement that is an expression leaves its value unused. -/
lemma performs_discard (hk : W.Ready k c) (ih : W.SoundBelow c)
    (hc : c.node = .callStatement s e ∨ c.node = .expressionStatement s e) (he : k.Infers e u) :
    W.Performs k c := by
  obtain ⟨d, n, Γ, m⟩ := c
  unfold Performs Moment.run
  rcases hc with rfl | rfl
  all_goals
    rw [visitAt, visit]
    exact Ends.bind (ih.expression hk hk.kept (Checker.comes_of_first rfl) he (.first rfl))
      fun _ m₁ _ h₁ => (h₁.1.toKept.settled rfl).give

/-- A return notes the value that is returned. -/
lemma Kept.giveBack (hm : W.Kept c m) (hc : c.declared.after c.node = c.declared)
    (hp : k.returns.isPresent = true) (hr : L.describes m.store r u)
    (h : k.returns.accepts u = .ok true) : W.Settled k c { m with returning := some r } := by
  have hfits := hm.steady.fits
  refine ⟨⟨?_, hm.steady.functions, hm.steady.depth⟩, hm.evolves, fun q hq => ?_⟩
  · rw [hc]
    exact ⟨hfits.module, hfits.calls⟩
  · cases hq
    exact ⟨hp, L.describes_of_accepts h hr⟩

lemma performs_giveBack (hk : W.Ready k ⟨d, .giveBack s .missing, Γ, m⟩)
    (hp : k.returns.isPresent = true) (h : k.returns.accepts .void = .ok true) :
    W.Performs k ⟨d, .giveBack s .missing, Γ, m⟩ := by
  have hm : W.Kept ⟨d, .giveBack s .missing, Γ, m⟩ { m with store := m.store.push .null } :=
    hk.kept.undisturbed ⟨rfl, rfl, rfl, rfl, rfl, m.store.keeps_push .null⟩
  exact hm.giveBack rfl hp (L.describes_literal .void) h

lemma performs_giveBackValue (hk : W.Ready k ⟨d, .giveBack s e, Γ, m⟩)
    (ih : W.SoundBelow ⟨d, .giveBack s e, Γ, m⟩) (hp : k.returns.isPresent = true)
    (he : k.Infers e u)
    (h : k.returns.accepts u = .ok true) : W.Performs k ⟨d, .giveBack s e, Γ, m⟩ := by
  have hfirst : (Node.giveBack s e).first? = some e := by
    simp [Node.first?, he.expression.isPresent]
  unfold Performs Moment.run
  rw [visitAt, visit]
  simp only [he.expression.isPresent, if_true]
  exact Ends.bind (ih.valueOf hk hk.kept (Checker.comes_of_first hfirst) he (.first hfirst))
    fun r m₁ _ h₁ => h₁.1.giveBack rfl hp h₁.2.2 h

/-- Visiting a block that belongs to a statement. -/
lemma SoundBelow.block {b : Span} {ns : List Node} (ih : W.SoundBelow c) (hk : W.Ready k c)
    (hm : W.Kept c m) (hc : c.declared.after c.node = c.declared)
    (hn : Checker.Comes (k, c.node) (k, .block b ns)) (h : k.enter.AdmitsAll ns)
    (he : Enters fuel c ⟨c.depth, .block b ns, c.declared, m⟩) :
    Ends (visitAt fuel c.depth (.block b ns) m) (fun _ m' => W.Settled k c m') (W.Blame c) := by
  refine Ends.weaken (ih _ he k (hk.part hm hn (.block b h))) (fun _ m' _ h => ?_)
    (fun _ _ _ h => h.enters he)
  refine ⟨?_, L.evolves_trans hm.evolves h.evolves, fun r hr => (h.returned r hr).2⟩
  rw [hc]
  exact h.intact

lemma performs_branch {other : Node} (hk : W.Ready k ⟨d, .branch s a (.block b body) other, Γ, m⟩)
    (ih : W.SoundBelow ⟨d, .branch s a (.block b body) other, Γ, m⟩) (ha : k.Infers a u)
    (hb : k.enter.AdmitsAll body)
    (ho : other = .missing ∨ ∃ b' ns, other = .block b' ns ∧ k.enter.AdmitsAll ns) :
    W.Performs k ⟨d, .branch s a (.block b body) other, Γ, m⟩ := by
  unfold Performs Moment.run
  rw [visitAt, visit]
  refine Ends.bind (ih.holds hk hk.kept (Checker.comes_of_first rfl) ha (.first rfl)) ?_
  rintro t m₁ _ ⟨hm₁, hv₁, ht⟩
  cases t with
  | true =>
    exact Ends.bind (ih.block hk hm₁ rfl (.single (by simp [Checker.below, Node.parts])) hb
      (.onTrue hv₁ ht.symm)) fun _ m₂ _ hm₂ => hm₂.give
  | false =>
    rcases ho with rfl | ⟨b', ns, rfl, hns⟩
    · exact (hm₁.settled rfl).give
    · exact Ends.bind (ih.block hk hm₁ rfl (.single (by simp [Checker.below, Node.parts])) hns
        (.onFalse hv₁ ht.symm rfl)) fun _ m₂ _ hm₂ => hm₂.give

lemma performs_define {body : Node} (hk : W.Ready k ⟨d, .define s returns id ps body, Γ, m⟩) :
    W.Performs k ⟨d, .define s returns id ps body, Γ, m⟩ := by
  unfold Performs Moment.run
  rw [visitAt, visit]
  exact (hk.kept.settled rfl).give

/-- Going on with a loop that has gone through some rounds. -/
lemma SoundBelow.iterate {a : Node} {b : Span} {body : List Node} {u : Ty}
    (ih : W.SoundBelow ⟨d, .loop s a (.block b body), Γ, m⟩)
    (hk : W.Ready k ⟨d, .loop s a (.block b body), Γ, m⟩) (ha : k.Infers a u)
    (hb : k.enter.AdmitsAll body) : ∀ (j i : Nat) {m₁ : Machine}, i + j = fuel →
    Rounds (Run.holds (visitAt fuel d a)) (visitAt fuel d (.block b body)) i m m₁ →
    W.Kept ⟨d, .loop s a (.block b body), Γ, m⟩ m₁ →
    Ends (Run.iterate (Run.holds (visitAt fuel d a)) (visitAt fuel d (.block b body)) j m₁)
      (fun _ m' => W.Settled k ⟨d, .loop s a (.block b body), Γ, m⟩ m')
      (W.Blame ⟨d, .loop s a (.block b body), Γ, m⟩) := by
  intro j
  induction j with
  | zero =>
    intro i m₁ hi hr hm₁
    obtain rfl : i = fuel := hi
    exact ⟨_, .here _, hm₁.steady.fits, .excused (L.excuses_exhausted hr)⟩
  | succ j ihj =>
    intro i m₁ hi hr hm₁
    have hlt : i < fuel := by omega
    refine Ends.bind (ih.holds hk hm₁ (.single (by simp [Checker.below, Node.parts])) ha
      (.condition hlt hr)) fun t m₂ hv₂ ⟨hm₂, _, _⟩ => ?_
    cases t with
    | false => exact hm₂.settled rfl
    | true =>
      refine Ends.bind (ih.block hk hm₂ rfl (.single (by simp [Checker.below, Node.parts])) hb
        (.round hlt hr hv₂)) fun _ m₃ hv₃ hm₃ => ?_
      simp only [bind_run, get_run]
      cases hreturn : m₃.returning with
      | some r => exact hm₃
      | none =>
        exact ihj (i + 1) (by omega) (.more hr hv₂ hv₃ hreturn)
          ⟨⟨hm₃.intact, hreturn⟩, hm₃.evolves⟩

lemma performs_loop (hk : W.Ready k ⟨d, .loop s a (.block b body), Γ, m⟩)
    (ih : W.SoundBelow ⟨d, .loop s a (.block b body), Γ, m⟩) (ha : k.Infers a u)
    (hb : k.enter.AdmitsAll body) : W.Performs k ⟨d, .loop s a (.block b body), Γ, m⟩ := by
  unfold Performs Moment.run
  rw [visitAt, visit]
  exact Ends.bind (ih.iterate hk ha hb fuel 0 (Nat.zero_add _) (.none m) hk.kept)
    fun _ m₁ _ hm₁ => hm₁.give

/-! ## Blocks -/

/-- The statement of a block behind those that have been visited. -/
lemma Ready.statement {ns before after : List Node} (hk : W.Ready k ⟨d, .block s ns, Γ, m⟩)
    (hns : ns = before ++ n :: after) (hn : (k.enter.afterAll before).Admits n)
    (hm : W.Steady d (Γ.enter.afterAll before) m') :
    W.Ready (k.enter.afterAll before) ⟨d, n, Γ.enter.afterAll before, m'⟩ where
  sanctioned := .statement hn
  allowed := L.allows_below hk.allowed (Checker.mem_along.mpr ⟨before, after, hns, rfl⟩)
  placed := hk.placed.block before
  steady := hm
  inside := fun hcalls => by
    have hcalls' : Γ.calls ≠ [] := by
      intro h
      apply hcalls
      show (Γ.enter.afterAll before).calls = []
      rw [Declared.afterAll_enter, Declared.updateCurrent, h]
    obtain ⟨s', returns, id, ps, body, hmem, hwithin⟩ := hk.inside hcalls'
    refine ⟨s', returns, id, ps, body, hmem, .head ?_ hwithin⟩
    show n ∈ ns
    rw [hns]
    simp

/-- Going on with a block of which some statements have been visited. -/
lemma SoundBelow.visitBlock {ns : List Node} {m₀ : Machine}
    (ih : W.SoundBelow ⟨d, .block s ns, Γ, m⟩) (hk : W.Ready k ⟨d, .block s ns, Γ, m⟩)
    (henter : enter m = .ok () m₀) {rest after : List Node} : ∀ (before : List Node) {m₁ : Machine},
    ns = before ++ (rest ++ after) → Run.visitBlock (bodyAt fuel d) fuel before m₀ = .ok () m₁ →
    W.Steady d (Γ.enter.afterAll before) m₁ → L.evolves m.store m₁.store →
    (k.enter.afterAll before).AdmitsAll rest →
    Ends (Run.visitBlock (bodyAt fuel d) fuel rest m₁)
      (fun _ m' => ∃ ns', W.Intact d (Γ.enter.afterAll ns') m' ∧ L.evolves m.store m'.store ∧
        (m'.returning = none → ns' = before ++ rest) ∧
        ∀ r, m'.returning = some r → k.returns.isPresent = true ∧ L.describes m'.store r k.returns)
      (W.Blame ⟨d, .block s ns, Γ, m⟩) := by
  induction rest with
  | nil =>
    intro before m₁ _ _ hm₁ he₁ _
    refine ⟨before, hm₁.toIntact, he₁, fun _ => (List.append_nil _).symm, fun r hr => ?_⟩
    rw [hm₁.returning] at hr
    cases hr
  | cons n rest ihrest =>
    intro before m₁ hns hbefore hm₁ he₁ hadmits
    have hc : Enters fuel ⟨d, .block s ns, Γ, m⟩ ⟨d, n, Γ.enter.afterAll before, m₁⟩ :=
      .statement hns henter hbefore hm₁.returning
    refine Ends.bind ((ih _ hc _ (hk.statement hns hadmits.1 hm₁)).weaken (fun _ _ _ h => h)
      (fun _ _ _ h => h.enters hc)) fun _ m₂ hv₂ h₂ => ?_
    have hafter : (Γ.enter.afterAll before).after n = Γ.enter.afterAll (before ++ [n]) := by
      simp [Declared.afterAll]
    have hintact : W.Intact d (Γ.enter.afterAll (before ++ [n])) m₂ := hafter ▸ h₂.intact
    have he₂ := L.evolves_trans he₁ h₂.evolves
    have hreturns : (k.enter.afterAll before).returns = k.returns := by
      rw [Checker.afterAll_inner before k.enter rfl]
      rfl
    simp only [bind_run, get_run]
    cases hreturn : m₂.returning with
    | some r =>
      refine ⟨before ++ [n], hintact, he₂, fun h => absurd (hreturn.symm.trans h) (by simp),
        fun q hq => ?_⟩
      obtain ⟨-, hpresent, hd⟩ := h₂.returned q hq
      rw [hreturns] at hpresent hd
      exact ⟨hpresent, hd⟩
    | none =>
      have hbefore' : Run.visitBlock (bodyAt fuel d) fuel (before ++ [n]) m₀ = .ok () m₂ := by
        rw [visitBlock_append hbefore hm₁.returning, Run.visitBlock, bind_of_ok hv₂]
        simp only [bind_run, get_run, hreturn]
        rfl
      have hrest := ihrest (before ++ [n]) (by simp [hns]) hbefore' ⟨hintact, hreturn⟩ he₂
        (by rw [Checker.afterAll_append]; exact hadmits.2)
      rwa [List.append_assoc] at hrest

lemma performs_block {ns : List Node} (hk : W.Ready k ⟨d, .block s ns, Γ, m⟩)
    (ih : W.SoundBelow ⟨d, .block s ns, Γ, m⟩) (h : k.enter.AdmitsAll ns) :
    W.Performs k ⟨d, .block s ns, Γ, m⟩ := by
  unfold Performs Moment.run
  rw [visitAt, visit]
  have henter : enter m = .ok () (m.updateCurrent fun c => { c with inner := {} :: c.inner }) := rfl
  have hevolves : L.evolves m.store
      (m.updateCurrent fun c => { c with inner := {} :: c.inner }).store := by
    rw [Machine.updateCurrent_store]
    exact L.evolves_of_keeps (.refl _)
  rw [bind_of_ok henter]
  refine Ends.bind (ih.visitBlock hk henter [] (List.append_nil ns).symm rfl hk.steady.enter
      hevolves h) ?_
  rintro _ m₁ _ ⟨ns', hm₁, he₁, _, hr₁⟩
  have hfits := hm₁.fits
  rw [Declared.afterAll_enter] at hfits
  obtain ⟨scope, outer, hinner, hexit⟩ := hfits.exit
  simp only [exit, bind_run, get_run, hinner, modify_run]
  refine ⟨hm₁.updateCurrent hexit, ?_, ?_⟩
  · rw [Machine.updateCurrent_store]
    exact he₁
  · rw [Machine.updateCurrent_returning, Machine.updateCurrent_store]
    exact hr₁

end

/-! ## All moments -/

lemma computes_of_rule (hk : W.Ready k c) (ih : W.SoundBelow c) (h : k.TypingRule c.node t) :
    W.Computes c t := by
  obtain ⟨d, n, Γ, m⟩ := c
  cases h with
  | int => exact computes_literal hk (.int _) (by rw [Moment.run, visitAt, visit])
  | float => exact computes_literal hk (.float _) (by rw [Moment.run, visitAt, visit])
  | string => exact computes_literal hk (.text _) (by rw [Moment.run, visitAt, visit])
  | bool => exact computes_literal hk (.bool _) (by rw [Moment.run, visitAt, visit])
  | null =>
    unfold Computes Moment.run
    rw [visitAt, visit]
    exact hk.kept.give (L.describes_null hk.allowed)
  | name s id h => exact computes_name hk h
  | list s es t h => exact computes_list hk ih h
  | logical s ho hl hr => exact computes_logical hk ih ho hl hr
  | operation s ha ho hl hr h => exact computes_operation hk ih ha ho hl hr h
  | negateInt s h ht => exact computes_negate hk ih h (.inl ⟨ht, rfl⟩)
  | negateFloat s h ht => exact computes_negate hk ih h (.inr ⟨ht, rfl⟩)
  | member s ho h => exact computes_member hk ih ho h
  | call s p h ha => exact computes_call hk ih h ha
  | method s p ho h ha => exact computes_method hk ih ho h ha
  | construct s hc h ht => exact computes_construct hk ih h ht

lemma performs_of_rule (hk : W.Ready k c) (ih : W.SoundBelow c) (h : k.StatementRule c.node) :
    W.Performs k c := by
  obtain ⟨d, n, Γ, m⟩ := c
  cases h with
  | declare s hv ht hn => exact performs_declare hk ih hv ht hn
  | assign s p hi hv h => exact performs_assign hk ih hi hv h
  | assignMember s p ho hp hv => exact performs_assignMember hk ih ho hp hv
  | call s h => exact performs_discard hk ih (.inl rfl) h
  | expression s h => exact performs_discard hk ih (.inr rfl) h
  | giveBack s hp h => exact performs_giveBack hk hp h
  | giveBackValue s hp he h => exact performs_giveBackValue hk ih hp he h
  | branch s b hc _ hb => exact performs_branch hk ih hc hb (.inl rfl)
  | branchElse s b b' hc _ hb ho => exact performs_branch hk ih hc hb (.inr ⟨b', _, rfl, ho⟩)
  | loop s b hc _ hb => exact performs_loop hk ih hc hb
  | define s b => exact performs_define hk

lemma Node.IsStatement.not_isExpression (h : n.IsStatement) : ¬ n.IsExpression := by
  intro he
  cases h <;> cases he

lemma sound_of_below (hk : W.Ready k c) (ih : W.SoundBelow c) : W.Sound k c := by
  obtain ⟨d, n, Γ, m⟩ := c
  have hs : k.Sanctions n := hk.sanctioned
  cases hs with
  | expression h =>
    exact (computes_of_rule hk ih h.rule).weaken (fun _ _ _ hm => hm.post h) (fun _ _ _ h => h)
  | statement h =>
    exact (performs_of_rule hk ih h.rule).weaken
      (fun _ _ _ hm => hm.post (Node.IsStatement.not_isExpression h.statement)) (fun _ _ _ h => h)
  | block s h =>
    exact (performs_block hk ih h).weaken (fun _ _ _ hm => hm.post (fun he => by cases he))
      (fun _ _ _ h => h)

/-- A moment that is ready ends as it should. -/
lemma sound {k : Checker} {c : Moment} (hk : W.Ready k c) : W.Sound k c :=
  sound_of_below hk fun _ _hc _ hk' => sound hk'
termination_by (c.depth, sizeOf c.node)
decreasing_by
  rcases _hc.decreases with h | ⟨h, h'⟩
  · exact Prod.Lex.left _ _ h
  · rw [h]
    exact Prod.Lex.right _ h'

end Discipline.World

end AudLang
