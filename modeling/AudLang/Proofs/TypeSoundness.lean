import AudLang.Proofs.Fuel
import AudLang.Proofs.Holding
import AudLang.Proofs.Programs

/-!
Soundness of types.

A program without null and without constructor calls has no values but numbers, strings, truth
values and lists of them.  For such programs the checker is right about every value, if numbers are
all that is compared by order: at each moment of a run, every variable holds a value of the type
that it was declared with, and nothing goes wrong but what no checker could know beforehand.

One thing more can happen.  An index that is out of bounds is shown in the message about it, and a
whole number of very many digits cannot be shown; then the run ends without a message about the
index (`Moment.AsksBeyond`).
-/

namespace AudLang

open Run Moment

variable {s : Store} {E : Stop → Machine → Prop} {type : String}

variable {α : Type} {t : Ty} {f : String} {elements : List Ref} {b : Builtin}

/-! ## Errors of sound programs -/

/-- Does a function convert its argument, or read what is typed? -/
def Builtin.converts : Builtin → Bool
  | stoi | itos | stof | ftos | itof | ftoi | input => true
  | _ => false

/-- Is the error one that a sound program can meet?  It comes from numbers, from missing returns,
from calls, or from a function that converts a value or reads input. -/
def RunError.isTolerable : RunError → Bool
  | .divisionByZero | .outOfBounds .. | .tooDeep _ | .returnsNothing .. | .undeclared _
  | .inputExhausted | .inputEnded | .notANumber .. => true
  | .operationFailed f _ | .internalFailed f _ => (Builtin.ofName? f).any Builtin.converts
  | _ => false

/-- At the moment an element of a list is asked for that is not there, with an index of more digits
than can be shown. -/
def Moment.AsksBeyond (fuel : Nat) (c : Moment) : Prop :=
  ∃ s p o args a m₁ r m₂ type elements i, c.node = .call s (.member p o "get") args ∧
    valuesAt fuel c.depth args c.machine = .ok [a] m₁ ∧
    valueOf (visitAt fuel c.depth o) m₁ = .ok r m₂ ∧
    m₂.store.get r = .list type elements ∧ m₂.store.get a = .int i ∧
    ¬ (0 ≤ i ∧ i < elements.length) ∧ Decimal.wholeText? i = none

/-- The ways in which a sound program may stop. -/
def Moment.Tolerates (fuel : Nat) (c : Moment) : Stop → Prop
  | .failed e _ => e.isTolerable = true
  | .fault f => f = .badValue ∧ c.AsksBeyond fuel
  | .exhausted => True

/-! ## Steps -/

lemma Node.IsType.declaredType_of_void {n : Node} (h : n.IsType)
    (hn : n.returnTypeName = .ok "void") : n.declaredType = .void := by
  cases h with
  | @simple s k hk =>
    have hspelling : k.spelling = "void" := by simpa [Node.returnTypeName] using hn
    show Ty.named k.spelling .absent = .void
    rw [hspelling]
    rfl
  | list => simp [Node.returnTypeName] at hn

namespace Run

variable {m : Machine} {op : BinaryOp} {q r p : Ref} {pos : Position}

lemma operate_ends {v : Value}
    (hv : m.store.operate op (m.store.get q) (m.store.get p) = .ok (some v))
    (hd : op = .divide → ∃ d, (m.store.get p).datum? = some d) :
    Ends (operate op q p pos m)
      (fun _ m' => m'.store = m.store.push v ∧ m'.last = m.store.next)
      (fun e _ => e = .failed .divisionByZero (some pos)) := by
  simp only [operate, value, bind_run, get_run, pure_run]
  by_cases hop : op = .divide
  · obtain ⟨d, hdatum⟩ := hd hop
    rw [if_pos hop]
    simp only [datum, value, bind_run, get_run, pure_run, hdatum]
    cases hzero : d.equals (.int 0) with
    | true => rfl
    | false =>
      simp only [Bool.false_eq_true, if_false, bind_run, get_run, ask, hv, pure_run]
      exact ⟨rfl, rfl⟩
  · simp only [if_neg hop, bind_run, get_run, ask, hv, pure_run]
    exact ⟨rfl, rfl⟩

lemma negate_ends {u : Ty} (hr : m.store.Holds r t)
    (h : t.hasBase .int = true ∧ u = .int ∨ t.hasBase .float = true ∧ u = .float) :
    Ends (negate r pos m) (fun _ m' => m'.store.Holds m'.last u) (fun _ _ => False) := by
  rcases h with ⟨ht, rfl⟩ | ⟨ht, rfl⟩
  · obtain ⟨n, hn⟩ := hr.int ht
    simp only [negate, value, bind_run, get_run, pure_run, hn]
    exact .of_literal (.int _)
  · obtain ⟨x, hx⟩ := hr.float ht
    simp only [negate, value, bind_run, get_run, pure_run, hx]
    exact .of_literal (.float _)

/-- No value is a file, a folder or a recording. -/
lemma not_object {b : Base} (h : t.base? = some b) (hb : b ∈ [Base.file, .folder, .audio]) :
    ¬ s.Holds r t := by
  intro hr
  have hcases := hr.base_cases (b := b) (by simp [Ty.hasBase, h])
  simp only [List.mem_cons, List.not_mem_nil, or_false] at hb
  rcases hb with rfl | rfl | rfl <;> simp at hcases

lemma not_property {u : Ty} (h : t.property? f = some u) : ¬ s.Holds r t := by
  unfold Ty.property? at h
  split at h
  case h_4 => cases h
  all_goals exact not_object ‹_› (by simp)

lemma hasBase_list_of_method {g : Signature} (h : t.method? f = some g) (hr : s.Holds r t) :
    t.hasBase .list = true ∧ Ty.listMethod? t.element f = some g := by
  unfold Ty.method? at h
  split at h
  · rename_i hb
    exact ⟨by simp [Ty.hasBase, hb], h⟩
  case h_5 => cases h
  all_goals exact absurd hr (not_object ‹_› (by simp))

-- the power of ten in the limit on digits is not to be computed
attribute [local irreducible] Decimal.wholeText?

lemma toText_int {i : Int} {text : Option String} (h : Decimal.wholeText? i = text) :
    (Datum.int i).toText = text.elim (.error .badValue) .ok := by
  delta Datum.toText
  dsimp only
  rw [h]
  cases text <;> rfl

lemma getElement_ends {a : Ref} {i : Int} (hi : m.store.get a = .int i)
    (hes : ∀ q ∈ elements, m.store.Holds q t) :
    Ends (getElement elements [a] pos m) (fun q m' => m'.store.Holds q t)
      (fun e _ => ¬ (0 ≤ i ∧ i < elements.length) ∧
        (e = .failed (.outOfBounds i elements.length) (some pos) ∨
          e = .fault .badValue ∧ Decimal.wholeText? i = none)) := by
  simp only [getElement, value, bind_run, get_run, pure_run, hi]
  cases hget : (if 0 ≤ i then elements[i.toNat]? else none) with
  | some q =>
    refine hes q ?_
    split at hget
    · exact List.mem_of_getElem? hget
    · cases hget
  | none =>
    have hbounds : ¬ (0 ≤ i ∧ i < elements.length) := by
      rintro ⟨hpos, hlt⟩
      rw [if_pos hpos, List.getElem?_eq_none_iff] at hget
      omega
    cases htext : Decimal.wholeText? i with
    | some s =>
      simp only [toText_int htext, Option.elim, ask, bind_run, pure_run]
      exact ⟨hbounds, .inl rfl⟩
    | none =>
      simp only [toText_int htext, Option.elim, ask, bind_run]
      exact ⟨hbounds, .inr ⟨rfl, trivial⟩⟩

/-- An index that is out of bounds and cannot be shown. -/
lemma getElement_beyond {a : Ref} {i : Int} (hi : m.store.get a = .int i)
    (hbounds : ¬ (0 ≤ i ∧ i < elements.length)) (hdigits : Decimal.wholeText? i = none) :
    getElement elements [a] pos m = .error (.fault .badValue) m := by
  have hnone : (if 0 ≤ i then elements[i.toNat]? else none) = none := by
    split
    · rw [List.getElem?_eq_none_iff]
      omega
    · rfl
  simp only [getElement, value, bind_run, get_run, pure_run, hi, hnone, toText_int hdigits, ask]
  rfl

/-! ## Functions that come with the language -/

/-- What may stop a function that comes with the language, seen from inside. -/
def MayStop (b : Builtin) : Stop → Prop
  | .failed e _ => e.isTolerable = true
  | .fault _ => b.converts = true
  | .exhausted => False

lemma guarded_ends {x : Run Ref} {Q : Ref → Machine → Prop}
    (hx : Ends (x m) Q (fun e _ => MayStop b e)) : Ends (guarded b.name pos x m) Q
      (fun e _ => ∃ err q, e = .failed err q ∧ err.isTolerable = true) := by
  have hname : Builtin.ofName? b.name = some b := by cases b <;> decide
  rw [guarded, tryCatch_run]
  cases hr : x m with
  | ok a m₁ => rw [hr] at hx; exact hx
  | error e m₁ =>
    rw [hr] at hx
    match e, hx with
    | .failed err none, hx => exact ⟨err, _, rfl, hx⟩
    | .failed err (some q), hx => exact ⟨err, _, rfl, hx⟩
    | .fault f, hx =>
      change b.converts = true at hx
      refine ⟨_, _, rfl, ?_⟩
      cases f.isOperational <;> simp [RunError.isTolerable, hname, hx]

lemma datum_ends (h : m.store.Holds r t) (ht : t.hasBase .list = false) :
    Ends (datum r m) (fun d m' => m = m' ∧ (m.store.get r).datum? = some d) E := by
  have hd : ∃ d, (m.store.get r).datum? = some d := by
    cases h with
    | simple _ _ h =>
      unfold Value.isOf at h
      split at h <;> simp_all [Value.datum?]
    | list => cases ht
  obtain ⟨d, hd⟩ := hd
  simp only [datum, value, bind_run, get_run, pure_run, hd]
  exact ⟨rfl, rfl⟩

lemma alloc_ends {v : Value} (hv : v.Literal t) :
    Ends (alloc v m) (fun q m' => m'.store.Holds q t) E := .of_literal hv

lemma ask_ends (hb : b.converts = true) (x : Except Fault α) :
    Ends (ask x m) (fun _ m' => m = m') (fun e _ => MayStop b e) := by
  cases x with
  | ok a => exact rfl
  | error f => exact hb

lemma converted_ends (hb : b.converts = true) (d : Datum) (type : String) (x : Except Fault α) :
    Ends (converted d type x m) (fun _ m' => m = m') (fun e _ => MayStop b e) := by
  unfold converted
  split
  · exact rfl
  · exact Ends.bind (ask_ends hb _) fun _ _ _ _ => rfl
  · exact hb

lemma readLine_ends : Ends (readLine m) (fun _ _ => True) (fun e _ => MayStop .input e) := by
  simp only [readLine, bind_run, get_run]
  cases m.input with
  | lines rest => cases rest <;> trivial
  | text rest => cases rest <;> trivial

/-- A function that comes with the language does what its signature says. -/
lemma perform_ends {rs : List Ref} (h : List.Forall₂ m.store.Holds rs b.signature.parameters) :
    Ends (perform b rs pos m) (fun q m' => m'.store.Holds q b.signature.returns)
      (fun e _ => MayStop b e) := by
  cases b with
  | input =>
    obtain rfl := List.forall₂_nil_right_iff.mp h
    exact Ends.bind readLine_ends fun s m' _ _ => alloc_ends (.text s)
  | atof =>
    obtain _ | ⟨ha, ⟨⟩⟩ := h
    have hcases := ha.base_cases (b := .audio) rfl
    simp at hcases
  | ftoa =>
    obtain _ | ⟨ha, ⟨⟩⟩ := h
    have hcases := ha.base_cases (b := .file) rfl
    simp at hcases
  | print =>
    obtain _ | ⟨ha, ⟨⟩⟩ := h
    obtain ⟨x, hx⟩ := ha.string rfl
    refine Ends.bind (datum_ends ha rfl) ?_
    rintro d _ - ⟨rfl, hd⟩
    rw [hx] at hd
    cases hd
    exact alloc_ends .void
  | btos =>
    obtain _ | ⟨ha, ⟨⟩⟩ := h
    exact Ends.bind (datum_ends ha rfl) fun d _ _ _ => alloc_ends (.text _)
  | stoi | stof =>
    obtain _ | ⟨ha, ⟨⟩⟩ := h
    exact Ends.bind (datum_ends ha rfl) fun d _ _ _ =>
      Ends.bind (converted_ends rfl d _ _) fun _ _ _ _ => alloc_ends (by constructor)
  | itos | ftos | itof | ftoi =>
    obtain _ | ⟨ha, ⟨⟩⟩ := h
    exact Ends.bind (datum_ends ha rfl) fun d _ _ _ =>
      Ends.bind (ask_ends rfl _) fun _ _ _ _ => alloc_ends (by constructor)

/-! ## Methods and returns -/

lemma requireObject_list (h : m.store.get r = .list type elements) (f : String) (o : Position) :
    requireObject r f o m = .ok () m := by
  simp only [requireObject, value, bind_run, get_run, pure_run, h]
  rfl

lemma callList_ends {g : Signature} {rs : List Ref} {o : Position} (hm : t.method? f = some g)
    (hr : m.store.Holds r t) (hrs : List.Forall₂ m.store.Holds rs g.parameters) :
    Ends ((do requireObject r f o; callMethod r f rs pos) m)
      (fun q m' => m'.store.Holds q g.returns)
      (fun e _ => ∃ type elements, m.store.get r = .list type elements ∧ f = "get" ∧
        ∃ a i, rs = [a] ∧ m.store.get a = .int i ∧ ¬ (0 ≤ i ∧ i < elements.length) ∧
          (e = .failed (.outOfBounds i elements.length) (some pos) ∨
            e = .fault .badValue ∧ Decimal.wholeText? i = none)) := by
  obtain ⟨hbase, hmethod⟩ := hasBase_list_of_method hm hr
  obtain ⟨type, elements, hget, hes⟩ := hr.elements hbase
  rw [bind_of_ok (requireObject_list hget f o)]
  simp only [callMethod, value, bind_run, get_run, pure_run, hget]
  unfold Ty.listMethod? at hmethod
  split at hmethod
  · cases hmethod
    obtain _ | @⟨a, _, _, _, ha, ⟨⟩⟩ := hrs
    obtain ⟨i, hi⟩ := ha.int rfl
    refine (getElement_ends hi hes).weaken (fun _ _ _ h => h) (fun e _ _ h => ?_)
    exact ⟨type, elements, rfl, rfl, a, i, rfl, hi, h⟩
  · cases hmethod
    obtain rfl := List.forall₂_nil_right_iff.mp hrs
    exact alloc_ends (.int _)
  · cases hmethod

/-- A function that returns a value gives that very value, or a copy of a simple one. -/
lemma takeReturned_some {D : Store → Ref → Prop} {id : String} (hvoid : type ≠ "void")
    (hr : D m.store r)
    (hcopy : (m.store.get r).isSimple = true → D (m.store.push (m.store.get r)) m.store.next) :
    Ends (takeReturned id type pos (some r) m) (fun _ m' => D m'.store m'.last) E := by
  unfold takeReturned
  rw [if_neg hvoid]
  simp only [value, bind_run, get_run, pure_run]
  cases hsimple : (m.store.get r).isSimple with
  | false => exact hr
  | true =>
    have hclone : clone r m = .ok m.store.next
      { m with store := m.store.push (m.store.get r) } := by
      simp only [clone, value, bind_run, get_run, pure_run]
      cases hv : m.store.get r <;> rw [hv] at hsimple <;> first | rfl | cases hsimple
    simp only [if_true]
    rw [bind_of_ok hclone]
    exact hcopy hsimple

lemma takeReturned_ends {returns : Node} {id : String} {returned : Option Ref} (ht : returns.IsType)
    (htype : returns.returnTypeName = .ok type)
    (hr : ∀ r, returned = some r → m.store.Holds r returns.declaredType) :
    Ends (takeReturned id type pos returned m)
      (fun _ m' => m'.store.Holds m'.last returns.declaredType)
      (fun e _ => e = .failed (.returnsNothing id type) (some pos)) := by
  by_cases hvoid : type = "void"
  · have hdeclared := Node.IsType.declaredType_of_void ht (hvoid ▸ htype)
    unfold takeReturned
    rw [if_pos hvoid, hdeclared]
    cases returned with
    | none => exact .of_literal .void
    | some r =>
      have hnull := (hdeclared ▸ hr r rfl).void rfl
      simp only [value, bind_run, get_run, pure_run, hnull]
      exact .of_literal .void
  · cases returned with
    | none =>
      unfold takeReturned
      rw [if_neg hvoid]
      exact rfl
    | some r => exact takeReturned_some (D := (·.Holds · _)) hvoid (hr r rfl) (hr r rfl).push_copy

end Run

/-! ## Plain programs -/

/-- The nodes that the checker comes to in a tree, each with the checker as it is there. -/
def Checker.places (k : Checker) (n : Node) : List (Checker × Node) :=
  (k, n) :: (k.below n).attach.flatMap fun p => places p.1.1 p.1.2
termination_by sizeOf n
decreasing_by exact Node.sizeOf_parts (mem_parts_of_mem_below p.2)

/-- Is the node neither the null literal nor the call of a constructor? -/
def Node.isPlain : Node → Bool
  | .null _ | .construct .. => false
  | _ => true

/-- Does the checker find that the node is a number? -/
def Checker.infersNumber (k : Checker) (n : Node) : Bool :=
  match Check.visit n k with
  | .ok t _ => t.hasBase .int || t.hasBase .float
  | .error .. => false

/-- If the node compares two values by order, are they numbers? -/
def Checker.ordersNumbers (k : Checker) : Node → Bool
  | .binary _ op left right => !op.isOrder || (k.infersNumber left && k.infersNumber right)
  | _ => true

namespace Checker

variable {k k' : Checker} {n n' : Node}

lemma mem_places (k : Checker) (n : Node) : (k, n) ∈ k.places n := by
  rw [places]
  exact List.mem_cons_self

lemma places_of_mem_below (h : (k', n') ∈ k.below n) {p : Checker × Node}
    (hp : p ∈ k'.places n') : p ∈ k.places n := by
  rw [places]
  exact List.mem_cons_of_mem _ (List.mem_flatMap.mpr ⟨⟨(k', n'), h⟩, List.mem_attach _ _, hp⟩)

lemma hasBase_of_infersNumber (h : k.infersNumber n = true) (ht : k.Infers n t) :
    t.hasBase .int = true ∨ t.hasBase .float = true := by
  unfold infersNumber at h
  rw [ht.visit] at h
  simpa using h

end Checker

/-- Cells hold values of their types, and programs are plain and compare nothing but numbers by
order. -/
def Discipline.typing (fuel : Nat) : Discipline fuel where
  describes := Store.Holds
  evolves := fun s s' => ∀ r t, s.Holds r t → s'.Holds r t
  allows := fun k n => ∀ p ∈ k.places n, p.2.isPlain = true ∧ p.1.ordersNumbers p.2 = true
  excuses := fun c e => c.Tolerates fuel e
  evolves_trans := fun h h' r t hr => h' r t (h r t hr)
  evolves_of_keeps := fun h _ _ hr => hr.of_keeps h
  evolves_put := fun hq hfits _ _ hr => hr.of_put hq hfits
  describes_of_evolves := fun h hr => h _ _ hr
  describes_of_accepts := fun h hr => hr.of_accepts h
  describes_literal := .of_literal
  describes_null := fun h => absurd (h _ (Checker.mem_places _ _)).1 Bool.false_ne_true
  describes_list := .of_elements
  allows_below := fun h hbelow p hp => h p (Checker.places_of_mem_below hbelow hp)
  operate := by
    intro k c s op a b l r t q p m hnode hand hor hallows ha hb hop hq hp
    rw [hnode] at hallows
    have horder : op.isOrder = true → l.hasBase .int = true ∨ l.hasBase .float = true := by
      intro hop
      have hnumbers := (hallows _ (Checker.mem_places _ _)).2
      simp only [Checker.ordersNumbers, hop, Bool.not_true, Bool.false_or, Bool.and_eq_true]
        at hnumbers
      exact Checker.hasBase_of_infersNumber hnumbers.1 ha
    have hoperable := Ty.operable_of_operation hand hor hop
    obtain ⟨v, hv, hliteral⟩ := hq.operate_literal hp hoperable horder
    refine (operate_ends hv fun hdivide => ?_).weaken (fun _ m' _ hm' => ?_) (fun e _ _ he => ?_)
    · exact hp.datum_of_divide (hdivide ▸ hoperable)
    · rw [hm'.1, hm'.2]
      exact .of_literal hliteral
    · rw [he]
      exact rfl
  negate := fun h hr => (negate_ends hr h).weaken (fun _ _ _ h => h) (fun _ _ _ h => h.elim)
  member := fun h hr => absurd hr (not_property h)
  excuses_readOnly := fun h hr => absurd hr (not_property h)
  method := by
    intro k c s p o f args t g rs r m₁ m₂ hnode _ hargs ho hm hr hrs
    refine (callList_ends hm hr hrs).weaken (fun _ _ _ h => h) (fun e _ _ h => ?_)
    obtain ⟨type, elements, hget, rfl, a, i, rfl, hi, hbounds, he⟩ := h
    cases he with
    | inl he => rw [he]; exact rfl
    | inr he =>
      rw [he.1]
      exact ⟨rfl, s, p, o, args, a, m₁, r, m₂, type, elements, i, hnode, hargs, ho, hget, hi,
        hbounds, he.2⟩
  construct := by
    intro k c s id args t r m hnode hallows
    rw [hnode] at hallows
    exact absurd (hallows _ (Checker.mem_places _ _)).1 Bool.false_ne_true
  builtin := fun h => (guarded_ends (perform_ends h)).weaken (fun _ _ _ h => h)
    (fun e _ _ ⟨err, q, he, htolerable⟩ => by rw [he]; exact htolerable)
  takeReturned := fun ht htype hr => (takeReturned_ends ht htype hr).weaken (fun _ _ _ h => h)
    (fun e _ _ he => by rw [he]; exact rfl)
  excuses_tooDeep := rfl
  excuses_exhausted := fun _ => trivial

/-! ## Runs of plain programs -/

/-- A run stops where an element is asked for with an index that cannot be shown. -/
lemma Moment.AsksBeyond.run_eq {fuel : Nat} {c : Moment} (h : c.AsksBeyond fuel) :
    ∃ m, c.run fuel = .error (.fault .badValue) m := by
  obtain ⟨s, p, o, args, a, m₁, r, m₂, type, elements, i, hnode, hargs, ho, hlist, hi, hbounds,
    hdigits⟩ := h
  refine ⟨m₂, ?_⟩
  obtain ⟨d, n, Γ, m⟩ := c
  cases hnode
  simp only [Moment.run, visitAt, valuesAt] at hargs ho ⊢
  rw [visit, bind_of_ok hargs, bind_of_ok ho, bind_of_ok (requireObject_list hlist "get" o.start)]
  refine bind_of_error ?_
  simp only [callMethod, value, bind_run, get_run, pure_run, hlist]
  exact getElement_beyond hi hbounds hdigits

/-- Every variable of every scope holds a value of the type that it was declared with. -/
abbrev Machine.WellTyped (Γ : Declared) (m : Machine) : Prop := m.Fits m.store.Holds Γ

/-- The variables behind a statement or behind a whole program. -/
def Declared.behind (Γ : Declared) : Node → Declared
  | .program _ _ ns => Γ.afterAll ns
  | n => Γ.after n

/-- Somewhere in the run of a program an element is asked for with an index that cannot be shown. -/
def Machine.AsksBeyond (m : Machine) (program : Node) : Prop :=
  ∃ fuel c, Reaches fuel (.start program m) c ∧ c.AsksBeyond fuel

namespace Discipline.Accepts

variable {fuel : Nat} {ns : List Node} {s : Span} {limit : Int} {input : Input} {files : Files}

/-- Variables hold values of their types whenever the run comes to a node, and when it is through
with it or stops there. -/
lemma wellTyped_of_reaches {c : Moment} (h : (typing fuel).Accepts ns)
    (hc : Reaches fuel (h.root s limit input files) c) :
    c.machine.WellTyped c.declared ∧
      Ends (c.run fuel) (fun _ m => m.WellTyped (c.declared.behind c.node))
        (fun _ m => ∃ c', Reaches fuel c c' ∧ m.WellTyped c'.declared) := by
  rcases h.ready_of_reaches hc with rfl | ⟨k, hk⟩
  · refine ⟨⟨⟨.nil, .empty⟩, .nil⟩, h.ends.weaken (fun _ _ _ hm => hm.fits) (fun _ _ _ hb => ?_)⟩
    obtain ⟨c', hreaches, hfits, -⟩ := hb
    exact ⟨c', hreaches, hfits⟩
  · refine ⟨hk.steady.fits, (World.sound hk).weaken (fun _ _ _ hm => ?_) (fun _ _ _ hb => ?_)⟩
    · have hbehind : c.declared.behind c.node = c.declared.after c.node := by
        have hne := hk.ne_program
        cases hn : c.node <;> first | rfl | exact absurd hn (hne _ _ _)
      rw [hbehind]
      exact hm.intact.fits
    · obtain ⟨c', hreaches, hfits, -⟩ := hb
      exact ⟨c', hreaches, hfits⟩

lemma tolerates_of_error {e : Stop} {m : Machine} (h : (typing fuel).Accepts ns)
    (hrun : (h.root s limit input files).run fuel = .error e m) :
    ∃ c, Reaches fuel (h.root s limit input files) c ∧ c.Tolerates fuel e := by
  obtain ⟨c, hreaches, -, hcause⟩ := h.ends.error hrun
  cases hcause with
  | late => exact ⟨c, hreaches, rfl⟩
  | excused hexcused => exact ⟨c, hreaches, hexcused⟩

end Discipline.Accepts

/-- How plain programs end.  Nothing but an index that cannot be shown leads to a fault. -/
def Ending.IsSound (ending : Ending) (asksBeyond : Prop) : Prop :=
  match ending with
  | .finished _ => True
  | .stopped (.failed e _) => e.isTolerable = true
  | .stopped (.fault f) => f = .badValue ∧ asksBeyond
  | .stopped .exhausted => False

/-- Programs that are plain and compare nothing but numbers by order, and that the checker accepts,
are sound. -/
theorem plain_programs_are_sound {tokens : Tokens} {program : Node}
    (hp : Program.ofTokens tokens = .ok program) (hc : (({} : Checker).check program).1 = "")
    (hplain : ∀ p ∈ Checker.places {} program, p.2.isPlain = true ∧ p.1.ordersNumbers p.2 = true)
    (limit : Int) (input : Input) (files : Files) :
    ((Machine.fresh limit input files).Diverges program ∨
      ∃ ending m, (Machine.fresh limit input files).EndsWith program ending m ∧
        ending.IsSound ((Machine.fresh limit input files).AsksBeyond program)) ∧
    ((Machine.fresh limit input files).AsksBeyond program →
      ∃ m, (Machine.fresh limit input files).EndsWith program (.stopped (.fault .badValue)) m) ∧
    ∀ fuel c, Reaches fuel (.start program (.fresh limit input files)) c →
      c.machine.WellTyped c.declared ∧
        Ends (c.run fuel) (fun _ m => m.WellTyped (c.declared.behind c.node))
          (fun _ m => ∃ c', Reaches fuel c c' ∧ m.WellTyped c'.declared) := by
  have haccepts := fun fuel => Discipline.Accepts.of_check (L := .typing fuel)
    (Program.isProgram_ofTokens hp) hc hplain
  refine ⟨?_, ?_, ?_⟩
  · rcases Machine.diverges_or_endsWith (.fresh limit input files) program with
      hdiverges | ⟨fuel, ending, m, hinterpret, hends⟩
    · exact .inl hdiverges
    · refine .inr ⟨ending, m, hends, ?_⟩
      obtain ⟨s, ns, rfl, h⟩ := haccepts fuel
      cases ending with
      | finished v => trivial
      | stopped e =>
        obtain ⟨m', hrun⟩ := Machine.tree_of_stopped (congrArg Prod.fst hinterpret)
        obtain ⟨c, hreaches, htolerates⟩ := h.tolerates_of_error hrun
        cases e with
        | failed e p => exact htolerates
        | fault f => exact ⟨htolerates.1, fuel, c, hreaches, htolerates.2⟩
        | exhausted => exact absurd rfl hends.1
  · rintro ⟨fuel, c, hreaches, hbeyond⟩
    obtain ⟨m, hrun⟩ := hbeyond.run_eq
    have htree : Run.tree fuel program (.fresh limit input files) = .error (.fault .badValue) m :=
      hreaches.error hrun
    exact ⟨_, Machine.endsWith_of_interpret (Machine.interpret_of_error htree) (by simp)⟩
  · intro fuel c hreaches
    obtain ⟨s, ns, rfl, h⟩ := haccepts fuel
    exact h.wellTyped_of_reaches hreaches

/-- A program that squares ten so often that the number has more digits than can be shown, and then
asks a list for the element with this index: `int x = 10; int i = 0; while (i < 13) { x = x * x; i =
i + 1; } List<int> xs = [1]; xs.get(x);`. -/
def Node.hugeIndex : Node :=
  .program (.columns 0 47) []
    [.declare (.columns 0 4) (.type (.columns 0 0) "int") "x" (.int (.columns 3 3) 10),
     .declare (.columns 5 9) (.type (.columns 5 5) "int") "i" (.int (.columns 8 8) 0),
     .loop (.columns 10 29)
       (.binary (.columns 12 14) .less (.name (.columns 12 12) "i") (.int (.columns 14 14) 13))
       (.block (.columns 16 29)
         [.assign (.columns 17 22) (.name (.columns 17 17) "x")
            (.binary (.columns 19 21) .multiply (.name (.columns 19 19) "x")
              (.name (.columns 21 21) "x")),
          .assign (.columns 23 28) (.name (.columns 23 23) "i")
            (.binary (.columns 25 27) .add (.name (.columns 25 25) "i")
              (.int (.columns 27 27) 1))]),
     .declare (.columns 30 39) (.listType (.columns 30 33) "List" (.type (.columns 32 32) "int"))
       "xs"
       (.list (.columns 36 38) [.int (.columns 37 37) 1]),
     .callStatement (.columns 40 46) (.call (.columns 40 45)
       (.member (.columns 40 42) (.name (.columns 40 40) "xs") "get") [.name (.columns 44 44) "x"])]

lemma Program.ofTokens_hugeIndex :
    ofTokens (.onLine [.keyword .int, .identifier "x", .symbol .assign, .int 10, .symbol .semicolon,
      .keyword .int, .identifier "i", .symbol .assign, .int 0, .symbol .semicolon,
      .keyword .while_, .symbol .lparen, .identifier "i", .symbol .lt, .int 13, .symbol .rparen,
      .symbol .lbrace, .identifier "x", .symbol .assign, .identifier "x", .symbol .times,
      .identifier "x", .symbol .semicolon, .identifier "i", .symbol .assign, .identifier "i",
      .symbol .plus, .int 1, .symbol .semicolon, .symbol .rbrace,
      .keyword .list, .symbol .lt, .keyword .int, .symbol .gt, .identifier "xs", .symbol .assign,
      .symbol .lbracket, .int 1, .symbol .rbracket, .symbol .semicolon,
      .identifier "xs", .symbol .dot, .identifier "get", .symbol .lparen, .identifier "x",
      .symbol .rparen, .symbol .semicolon]) = .ok .hugeIndex := by
  cbv

/-- The checker accepts the program, and its run ends with a fault, which has the one cause there
is. -/
theorem plain_programs_are_sound_hugeIndex :
    (({} : Checker).check .hugeIndex).1 = "" ∧
      (∀ p ∈ Checker.places {} .hugeIndex, p.2.isPlain = true ∧ p.1.ordersNumbers p.2 = true) ∧
      (∃ m, (Machine.fresh 50 (.lines []) {}).EndsWith .hugeIndex (.stopped (.fault .badValue)) m) ∧
      (Machine.fresh 50 (.lines []) {}).AsksBeyond .hugeIndex := by
  have hc : (({} : Checker).check .hugeIndex).1 = "" := rfl
  have hplain : ∀ p ∈ Checker.places {} .hugeIndex,
      p.2.isPlain = true ∧ p.1.ordersNumbers p.2 = true := by decide +kernel
  have hrun : ((Machine.fresh 50 (.lines []) {}).interpret 14 .hugeIndex).1
      = .stopped (.fault .badValue) := by decide +kernel
  obtain ⟨m, hends⟩ := Machine.exists_endsWith hrun (by simp)
  obtain ⟨hsound, -, -⟩ :=
    plain_programs_are_sound Program.ofTokens_hugeIndex hc hplain 50 (.lines []) {}
  refine ⟨hc, hplain, ⟨m, hends⟩, ?_⟩
  rcases hsound with hdiverges | ⟨ending, m', hends', hsound⟩
  · exact absurd (hrun.symm.trans (hdiverges 14)) (by simp)
  · rw [← (hends.unique hends').1] at hsound
    exact hsound.2

end AudLang
