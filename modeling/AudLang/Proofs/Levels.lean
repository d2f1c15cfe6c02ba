import AudLang.Node.Outline
import AudLang.Proofs.Conversions
import AudLang.Proofs.Nesting

/-!
The levels of outlines.

A printer raises and lowers its level by hand.  Whatever tree it goes through, it comes back to the
level it has started at, and but for the indents it prints the same from every level.  So a node is
printed in a slot as it is printed on its own, moved by a constant.
-/

namespace AudLang

open Node Print

/-! ## Moving -/

/-- A line so many levels deeper. -/
def Line.moved (k : Int) (l : Line) : Line := { l with depth := k + l.depth }

lemma Line.moved_moved (j k : Int) : Line.moved j ∘ Line.moved k = Line.moved (j + k) :=
  funext fun l => by simp [moved, Int.add_assoc]

lemma Line.moved_zero : Line.moved 0 = id := funext fun l => by simp [moved]

lemma Line.render_moved (indent : String) {level : Int} {l : Line} (h : 0 ≤ level + l.depth)
    (k : Nat) :
    (l.moved (level + k)).render indent = String.join
      (List.replicate k indent) ++ (l.moved level).render indent := by
  have hdepth : (level + k + l.depth).toNat = k + (level + l.depth).toNat := by omega
  simp only [moved, render, hdepth, List.replicate_add, String.join_append, String.append_assoc]

/-- From `d` levels below any level, the action comes to `d'` levels below it and prints these lines
below it, or it ends in this fault behind them. -/
inductive Prints (d : Int) (x : Print Unit) (d' : Int) : Outline → Prop
  | returns {ls : List Line}
    (h : ∀ level done, x ⟨level + d, done⟩ = .ok () ⟨level + d',
      done ++ ls.map (Line.moved level)⟩) :
    Prints d x d' ⟨ls, none⟩
  | fails {ls : List Line} {f : Fault}
    (h : ∀ level done, ∃ level',
      x ⟨level + d, done⟩ = .error f ⟨level', done ++ ls.map (Line.moved level)⟩) :
    Prints d x d' ⟨ls, some f⟩

variable {n c : Node} {o : Outline}

lemma Prints.run {x : Print Unit} (h : Prints 0 x 0 o) (level : Int) (done : List Line) :
    o.fault = none ∧ x ⟨level, done⟩ = .ok () ⟨level, done ++ o.lines.map (Line.moved level)⟩ ∨
      ∃ f level', o.fault = some f ∧
        x ⟨level, done⟩ = .error f ⟨level', done ++ o.lines.map (Line.moved level)⟩ := by
  cases h with
  | returns h => exact .inl ⟨rfl, by simpa using h level done⟩
  | @fails ls f h =>
    obtain ⟨level', hrun⟩ := h level done
    exact .inr ⟨f, level', rfl, by simpa using hrun⟩

/-- The outline of a node at any depth is what it is at a fixed one, moved. -/
lemma Prints.outline (h : Prints 0 (visit n) 0 o) (level : Int) :
    n.outline (level + 1) = ⟨o.lines.map (Line.moved level), o.fault⟩ := by
  rw [Node.outline, Int.add_sub_cancel]
  rcases h.run level [] with ⟨hfault, hrun⟩ | ⟨f, level', hfault, hrun⟩
  all_goals
    rw [hrun, hfault]
    rfl

/-! ## Actions -/

variable {d d' d'' : Int} {x y : Print Unit} {cs ds : List (Int × Node)} {b b' : Bool}

/-- What an action prints that is started `d` levels below a node and ends `d'` below it: lines
below the node.  It returns if its own lines can be written, which is `b`, and those of the nodes
`cs` that it goes into.  Then the lines hold those of each of these nodes, so much deeper. -/
structure Traces (d : Int) (x : Print Unit) (d' : Int) (cs : List (Int × Node)) (b : Bool)
    (o : Outline) : Prop where
  prints : Prints d x d' o
  depth_pos : ∀ l ∈ o.lines, 0 < l.depth
  returns_iff : o.fault = none ↔ b = true ∧ ∀ c ∈ cs, (c.2.outline 1).fault = none
  holds : o.fault = none → ∀ c ∈ cs, (c.2.outline 1).lines.map (Line.moved c.1) <:+: o.lines

/-- The action prints such lines if the nodes are printed alike from every level. -/
def Lays (d : Int) (x : Print Unit) (d' : Int) (cs : List (Int × Node)) (b : Bool) : Prop :=
  (∀ c ∈ cs, Prints 0 (visit c.2) 0 (c.2.outline 1) ∧ ∀ l ∈ (c.2.outline 1).lines, 0 < l.depth) →
    ∃ o, Traces d x d' cs b o

namespace Lays

lemma silent (h : ∀ level done, x ⟨level + d, done⟩ = .ok () ⟨level + d', done⟩) :
    Lays d x d' [] true :=
  fun _ => ⟨⟨[], none⟩, .returns fun level done => by simp [h], by simp, by simp, by simp⟩

lemma raise : Lays d raise (d + 1) [] true := silent fun _ _ => by simp [Print.raise, Int.add_assoc]

lemma lower : Lays d lower (d - 1) [] true :=
  silent fun _ _ => by simp [Print.lower, Int.add_sub_assoc]

lemma line (text : String) (hd : 0 ≤ d := by decide) : Lays d (line text) d [] true := by
  refine fun _ =>
    ⟨⟨[⟨d + 1, text⟩], none⟩, .returns fun level done => ?_, by simp; omega, by simp, by simp⟩
  simp [Print.line, Print.raise, Print.lower, bind_run, Line.moved, Int.add_assoc]
  omega

lemma throw (f : Fault) : Lays d (throw f) d [] false :=
  fun _ => ⟨⟨[], some f⟩, .fails fun level done => ⟨_, by simp; rfl⟩, by simp, by simp, by simp⟩

lemma visit (n : Node) (hd : 0 ≤ d) : Lays d (visit n) d [(d, n)] true := by
  intro hcs
  obtain ⟨hprints, hdepth⟩ := hcs _ List.mem_cons_self
  refine ⟨⟨(n.outline 1).lines.map (Line.moved d), (n.outline 1).fault⟩, ?_, ?_, by simp, by simp⟩
  · generalize n.outline 1 = o at hprints
    cases hprints with
    | returns h =>
      exact .returns fun level done => by simpa [Line.moved_moved] using h (level + d) done
    | fails h => exact .fails fun level done => by simpa [Line.moved_moved] using h (level + d) done
  · refine List.forall_mem_map.2 fun l hl => ?_
    have hpos := hdepth l hl
    exact Int.add_pos_of_nonneg_of_pos hd hpos

lemma bind (hx : Lays d x d' cs b) (hy : Lays d' y d'' ds b') :
    Lays d (x >>= fun _ => y) d'' (cs ++ ds) (b && b') := by
  intro hcs
  obtain ⟨o, hprints, hdepth, hreturns, hholds⟩ := hx fun c hc => hcs c (List.mem_append_left _ hc)
  obtain ⟨o', hprints', hdepth', hreturns', hholds'⟩ :=
    hy fun c hc => hcs c (List.mem_append_right _ hc)
  cases hprints with
  | fails hx =>
    refine ⟨_, .fails fun level done => (hx level done).imp fun _ => bind_of_error, hdepth,
      ?_, by simp⟩
    simp only [reduceCtorEq, false_iff] at hreturns ⊢
    exact fun h =>
      hreturns ⟨(Bool.and_eq_true_iff.1 h.1).1, fun c hc => h.2 c (List.mem_append_left _ hc)⟩
  | @returns ls hx =>
    refine ⟨⟨ls ++ o'.lines, o'.fault⟩, ?_, List.forall_mem_append.2 ⟨hdepth, hdepth'⟩, ?_,
      fun h c hc => ?_⟩
    · cases hprints' with
      | returns hy => exact .returns fun level done => by rw [bind_of_ok (hx level done), hy]; simp
      | fails hy =>
        refine .fails fun level done => ?_
        obtain ⟨level', hrun⟩ := hy level (done ++ ls.map (Line.moved level))
        exact ⟨level', by rw [bind_of_ok (hx level done), hrun]; simp⟩
    · simp only [true_iff] at hreturns
      rw [hreturns', hreturns.1, Bool.true_and, List.forall_mem_append, and_iff_right hreturns.2]
    · rcases List.mem_append.1 hc with hc | hc
      · exact (hholds rfl c hc).trans (List.infix_append' [] ls _)
      · exact (hholds' h c hc).trans (List.suffix_append ls _).isInfix

lemma label (e : Except Fault String) (hd : 0 ≤ d := by decide) :
    Lays d (label e) d [] e.toBool := by
  cases e with
  | ok text => exact .line text hd
  | error f => exact .throw f

lemma ite {q : Bool} (hx : Lays d x d' cs b) (hy : Lays d y d' ds b) :
    Lays d (if q then x else y) d' (if q then cs else ds) b := by
  cases q with
  | true => exact hx
  | false => exact hy

lemma visitAll (ns : List Node) (hd : 0 ≤ d) : Lays d (visitAll ns) d (ns.map (d, ·)) true := by
  induction ns with
  | nil => exact silent fun _ _ => rfl
  | cons n ns ih => exact .bind (.visit n hd) ih

-- one lemma for each step of an action, with what is left of the action behind it

lemma text {text : String} (h : Lays d x d' cs b) (hd : 0 ≤ d := by decide) :
    Lays d (Print.line text >>= fun _ => x) d' cs b := (line text hd).bind h

lemma labelled {e : Except Fault String} (h : Lays d x d' cs true) (hd : 0 ≤ d := by decide) :
    Lays d (Print.label e >>= fun _ => x) d' cs e.toBool := by simpa using (label e hd).bind h

lemma down (h : Lays (d + 1) x d' cs b) : Lays d (Print.raise >>= fun _ => x) d' cs b :=
  raise.bind h

lemma up (h : Lays (d - 1) x d' cs b) : Lays d (Print.lower >>= fun _ => x) d' cs b := lower.bind h

lemma node (h : Lays d x d' cs b) (hd : 0 ≤ d := by decide) :
    Lays d (Print.visit n >>= fun _ => x) d' ((d, n) :: cs) b := (visit n hd).bind h

lemma nodes {ns : List Node} (hd : 0 ≤ d := by decide) :
    Lays d (Print.visitAll ns >>= fun _ => Print.lower) (d - 1) (ns.map (d, ·)) true := by
  simpa using (visitAll ns hd).bind lower

lemma listed {title none : String} {ns : List Node} (hd : 0 ≤ d := by decide) :
    Lays d (listed title none ns.isEmpty (Print.visitAll ns) >>= fun _ => Print.lower) (d - 1)
      (ns.map (d + 1, ·)) true := by
  cases ns with
  | nil => exact .text .lower hd
  | cons n ns =>
    have hlisted : Lays d (Print.listed title none false (Print.visitAll (n :: ns))) (d + 1 - 1)
        ((n :: ns).map (d + 1, ·)) true := text (down (nodes (by omega))) hd
    have h := hlisted.bind lower
    rw [Int.add_sub_cancel, List.append_nil] at h
    exact h

end Lays

/-! ## Nodes -/

/-- The nodes in the slots of a node that are printed, each so many levels deeper than the node. -/
def Node.shown : Node → List (Int × Node)
  | .list _ es | .construct _ _ es => es.map (2, ·)
  | .binary _ _ left right => [(2, left), (2, right)]
  | .negate _ e | .callStatement _ e
  | .expressionStatement _ e | .define _ _ _ _ e | .parameter _ e (.token _) => [(1, e)]
  | .call _ target args => (2, target) :: args.map (2, ·)
  | .member _ object _ => [(2, object)]
  | .block _ ns | .program _ _ ns => ns.map (1, ·)
  | .declare _ t _ e => [(2, t), (2, e)]
  | .branch _ c onTrue onFalse =>
    (2, c) :: (2, onTrue) :: if onFalse.isPresent then [(2, onFalse)] else []
  | .loop _ a e | .assign _ a e => [(1, a), (1, e)]
  | .giveBack _ e => if e.isPresent then [(1, e)] else []
  | _ => []

/-- Can the lines of the node itself be written? -/
def Node.isWritable : Node → Bool
  | .unknown .. | .parameter _ _ (.plain _) => false
  | .int _ v => (wholeLabel v).toBool
  | .listType _ _ e => (typeText e).toBool
  | .define _ returns id parameters _ => (definitionLabel returns id parameters).toBool
  | _ => true

lemma toBool_map (f : String → String) (e : Except Fault String) : (e.map f).toBool = e.toBool := by
  cases e <;> rfl

lemma lays_visit (n : Node) : Lays 0 (visit n) 0 n.shown n.isWritable := by
  cases n with
  | missing | float | string | bool | null | name | type => exact .line _
  | unknown => exact .throw _
  | int s v => exact .label _
  | listType s id e =>
    have hlabel : Lays 0 (visit (listType s id e)) 0 [] ((typeText e).map _).toBool := .label _
    rw [toBool_map] at hlabel
    exact hlabel
  | list | construct => exact .text <| .down .listed
  | binary | declare =>
    exact .text <| .down <| .text <| .down <| .node <| .up <| .text <| .down <| .node <| .up .lower
  | negate => exact .text <| .down <| .text <| .node .lower
  | call => exact .text <| .down <| .text <| .down <| .node <| .up .listed
  | member => exact .text <| .down <| .text <| .down <| .node <| .up .lower
  | block | program => exact .text <| .down .nodes
  | branch =>
    exact .text <| .down <| .text <| .down <| .node <| .up <| .text <| .down <| .node <| .up <|
      .ite (.text <| .down <| .node <| .up .lower) .lower
  | loop | assign => exact .text <| .down <| .text <| .node <| .text <| .node .lower
  | giveBack => exact .text <| .down <| .ite (.node .lower) (.text .lower)
  | callStatement | expressionStatement => exact .text <| .down <| .node .lower
  | parameter s t id =>
    cases id with
    | plain id => exact .throw _
    | token id => exact .text <| .down <| .node .lower
  | define => exact .labelled <| .down <| .node .lower

lemma mem_parts_of_mem_shown {j : Int} (h : (j, c) ∈ n.shown) : c ∈ n.parts := by
  cases n with
  | parameter s t id => cases id <;> simp_all [shown, parts]
  | _ => grind [shown, parts]

/-- A node is printed in the same way from every level. -/
lemma traces_visit (n : Node) : Traces 0 (visit n) 0 n.shown n.isWritable (n.outline 1) := by
  obtain ⟨o, ho⟩ := lays_visit n fun c hc =>
    have hlt : sizeOf c.2 < sizeOf n := sizeOf_parts (mem_parts_of_mem_shown hc)
    ⟨(traces_visit c.2).prints, (traces_visit c.2).depth_pos⟩
  have houtline := ho.prints.outline 0
  rw [Line.moved_zero, List.map_id] at houtline
  exact houtline ▸ ho
termination_by sizeOf n

/-- The outline of a node at any depth. -/
lemma outline_eq (n : Node) (level : Int) :
    n.outline (level + 1) = ⟨(n.outline 1).lines.map (Line.moved level), (n.outline 1).fault⟩ :=
  (traces_visit n).prints.outline level

/-- The first node is printed as a part of the second. -/
def Node.ShownIn : Node → Node → Prop := Relation.ReflTransGen fun c n => ∃ j, (j, c) ∈ n.shown

lemma fault_eq_none_iff (n : Node) : (n.outline 1).fault = none ↔ ∀ c : Node, c.ShownIn n →
    c.isWritable = true := by
  refine ⟨fun h c hc => ?_, fun h => (traces_visit n).returns_iff.2 ⟨h n .refl, fun c hc => ?_⟩⟩
  · have hnone : (c.outline 1).fault = none := by
      induction hc using Relation.ReflTransGen.head_induction_on with
      | refl => exact h
      | head hstep _ ih =>
        obtain ⟨j, hj⟩ := hstep
        exact ((traces_visit _).returns_iff.1 ih).2 _ hj
    exact ((traces_visit c).returns_iff.1 hnone).1
  · have hlt : sizeOf c.2 < sizeOf n := sizeOf_parts (mem_parts_of_mem_shown hc)
    exact (fault_eq_none_iff c.2).2 fun c' hc' => h c' (hc'.tail ⟨c.1, hc⟩)
termination_by sizeOf n

/-! ## Programs -/

namespace Node

lemma IsType.exists_typeText (h : n.IsType) : ∃ text, typeText n = .ok text := by
  induction h with
  | simple => exact ⟨_, rfl⟩
  | list s he ih =>
    obtain ⟨text, htext⟩ := ih
    exact ⟨_, by rw [typeText, htext]; rfl⟩

lemma exists_parameterLabels {ps : List Node} (h : ∀ p ∈ ps, p.IsParameter) :
    ∃ labels, ps.mapM parameterLabel = .ok labels := by
  induction ps with
  | nil => exact ⟨_, rfl⟩
  | cons p ps ih =>
    obtain ⟨⟨s, id, ht⟩, hps⟩ := List.forall_mem_cons.1 h
    obtain ⟨text, htext⟩ := ht.exists_typeText
    obtain ⟨labels, hlabels⟩ := ih hps
    exact ⟨_, by rw [List.mapM_cons, parameterLabel, htext, hlabels]; rfl⟩

/-- The nodes that are printed of programs: all but the parameters, which stand in the lines of the
functions. -/
structure IsPrinted (n : Node) : Prop where
  isPart : n.IsPart
  ne_parameter : ∀ s t id, n ≠ .parameter s t id

lemma IsPrinted.of_mem_shown {j : Int} (hn : n.IsPrinted) (h : (j, c) ∈ n.shown) : c.IsPrinted := by
  refine ⟨hn.isPart.of_mem (mem_parts_of_mem_shown h), ?_⟩
  rintro s t id rfl
  have hexpression : ¬(parameter s t id).IsExpression := fun h => by cases h
  have hstatement : ¬(parameter s t id).IsStatement := fun h => by cases h
  have htype : ¬(parameter s t id).IsType := fun h => by cases h
  cases hn.isPart with
  | missing => simp [shown] at h
  | type hn | parameter hn => cases hn <;> simp [shown] at h
  | expression hn | statement hn | program hn => cases hn <;> simp [shown] at h <;> grind
  | block s hns => simp [shown] at h; grind

lemma toBool_wholeLabel (v : Int) :
    (wholeLabel v).toBool = true ↔ (Nat.toDigits 10 v.natAbs).length ≤ Decimal.digitLimit := by
  unfold wholeLabel
  rw [Decimal.wholeText?_eq]
  by_cases h : (Nat.toDigits 10 v.natAbs).length ≤ Decimal.digitLimit <;> simp [h, Except.toBool]

/-- Everything in programs can be written but numbers with too many digits. -/
lemma IsPrinted.isWritable_iff (hn : n.IsPrinted) :
    n.isWritable = true ↔ ∀ s v, n = .int s v →
      (Nat.toDigits 10 v.natAbs).length ≤ Decimal.digitLimit := by
  obtain ⟨hpart, hne⟩ := hn
  cases n with
  | int s v =>
    exact (toBool_wholeLabel v).trans ⟨fun h a w heq => by cases heq; exact h, fun h => h s v rfl⟩
  | unknown => cases hpart <;> cases ‹_›
  | parameter s t id => exact absurd rfl (hne s t id)
  | listType s id e =>
    cases hpart with
    | type h =>
      obtain - | ⟨s, he⟩ := h
      obtain ⟨text, htext⟩ := he.exists_typeText
      simp [isWritable, htext, Except.toBool]
    | expression h | parameter h | statement h | program h => cases h
  | define s returns id parameters body =>
    cases hpart with
    | statement h =>
      cases h with
      | define s b id ht hp hb =>
        obtain ⟨text, htext⟩ := ht.exists_typeText
        obtain ⟨labels, hlabels⟩ := exists_parameterLabels hp
        obtain ⟨label, hlabel⟩ : ∃ label, definitionLabel returns id parameters = .ok label :=
          ⟨_, by rw [definitionLabel, htext, hlabels]; rfl⟩
        simp [isWritable, hlabel, Except.toBool]
    | type h | expression h | parameter h | program h => cases h
  | _ => simp [isWritable]

lemma IsProgram.isPrinted_of_shownIn (hn : n.IsProgram) (h : c.ShownIn n) : c.IsPrinted := by
  induction h using Relation.ReflTransGen.head_induction_on with
  | refl => exact ⟨.program hn, by cases hn; simp⟩
  | head hstep _ ih =>
    obtain ⟨j, hj⟩ := hstep
    exact ih.of_mem_shown hj

end Node

/-- **Printing is compositional.**  A printer returns from a program exactly if no number in it has
too many digits.  It is then at the level where it was, and has printed the outline of the tree
behind what it had printed.  From a deeper level it prints the same lines behind as many more
indents, and ends in the same fault, if any.  The outline of each node in a slot stands in the
outline of the tree, moved by a constant. -/
theorem printing_is_compositional (n : Node) (indent : String) (level : Int) (done : List Line) :
    (∀ tokens, Program.ofTokens tokens = .ok n → ((∃ p, visit n ⟨level, done⟩ = .ok () p) ↔
      ∀ s v, (Node.int s v).ShownIn n → (Nat.toDigits 10 v.natAbs).length ≤ 4300)) ∧
    (∀ p, visit n ⟨level, done⟩ = .ok () p → p = ⟨level, done ++ (n.outline (level + 1)).lines⟩) ∧
    (-1 ≤ level → ∀ k : Nat, (n.outline (level + k + 1)).fault = (n.outline (level + 1)).fault ∧
      (n.outline (level + k + 1)).lines.map (Line.render indent) =
        (n.outline (level + 1)).lines.map fun l =>
          String.join (List.replicate k indent) ++ l.render indent) ∧
    ∀ j c, (j, c) ∈ n.shown → (n.outline (level + 1)).fault = none →
      (c.outline (level + j + 1)).lines <:+: (n.outline (level + 1)).lines := by
  have htraces := traces_visit n
  refine ⟨fun tokens htokens => ?_, fun p hp => ?_, fun hlevel k => ?_, fun j c hc hnone => ?_⟩
  · have hreturns : (∃ p, visit n ⟨level, done⟩ = .ok () p) ↔ (n.outline 1).fault = none := by
      rcases htraces.prints.run level done with ⟨hfault, hrun⟩ | ⟨f, level', hfault, hrun⟩ <;>
        simp [hfault, hrun]
    have hprinted {c : Node} (hc : c.ShownIn n) :=
      (Program.isProgram_ofTokens htokens).isPrinted_of_shownIn hc
    rw [hreturns, fault_eq_none_iff]
    exact ⟨fun h s v hv => (hprinted hv).isWritable_iff.1 (h _ hv) s v rfl,
      fun h c hc => (hprinted hc).isWritable_iff.2 fun s v heq => h s v (heq ▸ hc)⟩
  · rw [outline_eq]
    rcases htraces.prints.run level done with ⟨-, hrun⟩ | ⟨f, level', -, hrun⟩
    · exact ((EStateM.Result.ok.inj (hrun.symm.trans hp)).2).symm
    · cases hrun.symm.trans hp
  · rw [outline_eq, outline_eq, List.map_map, List.map_map]
    refine ⟨rfl, List.map_congr_left fun l hl => Line.render_moved indent ?_ k⟩
    have hpos := htraces.depth_pos l hl
    omega
  · rw [outline_eq] at hnone
    rw [outline_eq, outline_eq, ← Line.moved_moved, ← List.map_map]
    exact (htraces.holds hnone _ hc).map _

/-- A number with one digit too many as a statement. -/
def Node.overlong : Node :=
  .program (.columns 0 2) []
    [.expressionStatement (.columns 0 1)
      (.int (.columns 0 0) (Nat.pow 10 Decimal.digitLimit : Nat))]

/-- The number stops the printer two levels deeper than it was. -/
theorem overlong_number_stops_printer :
    Program.ofTokens (.onLine [.int (Nat.pow 10 Decimal.digitLimit), .symbol .semicolon])
      = .ok .overlong ∧ visit .overlong ⟨-1, []⟩ =
        .error .badValue ⟨1, [⟨0, "ProgramNode:"⟩, ⟨1, "ExpressionStatementNode:"⟩]⟩ := by
  unfold overlong
  -- nothing is computed with the number itself
  generalize hv : Nat.pow 10 Decimal.digitLimit = v
  have hlabel : wholeLabel v = .error .badValue := by
    unfold wholeLabel
    rw [Decimal.wholeText?, Int.natAbs_natCast, hv, if_neg (Nat.lt_irrefl v)]
  refine ⟨by cbv, ?_⟩
  simp only [visit, visitAll, hlabel]
  rfl

end AudLang
