import AudLang.Proofs.Grammar
import AudLang.Proofs.Places
import AudLang.Proofs.Rules
import Mathlib

/-!
Where nodes stand.

A node begins at the place of its first token and ends at that of its last one, parentheses that
group left out.  So a node lies around its children, and these lie apart, one behind the other.
-/

namespace AudLang

open AudLang.Parser

/-! ## Places in a tree -/

namespace Node

/-- The parts of a node that are there, in the order of the source. -/
def children : Node → List Node
  | .define _ returns _ parameters body => (returns :: (parameters ++ [body])).filter isPresent
  | n => n.parts.filter isPresent

lemma mem_children {n c : Node} : c ∈ n.children ↔ c ∈ n.parts ∧ c.isPresent = true := by
  cases n with
  | define s returns id ps body =>
    simp only [children, parts, List.mem_filter, List.mem_cons, List.mem_append, List.not_mem_nil,
      or_false]
    tauto
  | _ => exact List.mem_filter

/-- The node lies around its children, which lie apart and in order. -/
structure WellPlaced (n : Node) : Prop where
  ordered : n.start ≤ n.stop
  around : ∀ c ∈ n.children, n.start ≤ c.start ∧ c.stop ≤ n.stop
  apart : n.children.Pairwise fun c d => c.stop < d.start

/-- All nodes of a tree are well placed. -/
inductive Nested : Node → Prop
  | mk {n : Node} (placed : n.WellPlaced) (below : ∀ c ∈ n.children, Nested c) : Nested n

lemma Nested.placed {n : Node} (h : n.Nested) : n.WellPlaced := by
  cases h with
  | mk placed _ => exact placed

/-- Whatever stands in a nested tree is nested. -/
lemma Nested.within {n tree : Node} (h : tree.Nested) (hn : n.Within tree) :
    n.isPresent = true → n.Nested := by
  induction hn using Relation.ReflTransGen.head_induction_on with
  | refl => exact fun _ => h
  | head ha hb ih =>
    rename_i a b
    intro hpresent
    have hbpresent : b.isPresent = true := by
      cases b with
      | missing => cases ha
      | _ => rfl
    cases ih hbpresent with
    | mk _ below => exact below a (mem_children.2 ⟨ha, hpresent⟩)

end Node

namespace Parser

/-! ## Readings -/

/-- The tokens stand in the order of their places. -/
def Sorted (ts : List Token) : Prop := ts.Pairwise fun a b => a.position < b.position

/-- Between these tokens and the rest of them stand these nodes, apart and in order. -/
structure Spans (ts : List Token) (ns : List Node) (r : List Token) : Prop where
  sorted : Sorted ts
  rest : r <:+ ts
  present : ∀ n ∈ ns, n.isPresent = true
  nested : ∀ n ∈ ns, n.Nested
  within : ∀ n ∈ ns, n.start ∈ ts.map Token.position ∧ n.stop ∈ ts.map Token.position
  before : ∀ n ∈ ns, ∀ t ∈ r, n.stop < t.position
  apart : ns.Pairwise fun c d => c.stop < d.start

namespace Spans

variable {ts ts' r r' : List Token} {ns ms : List Node} {n c : Node} {t u : Token}

lemma sorted_rest (h : Spans ts ns r) : Sorted r := h.sorted.sublist h.rest.sublist

lemma nil (hs : Sorted ts) (hr : r <:+ ts) : Spans ts [] r where
  sorted := hs
  rest := hr
  present := by simp
  nested := by simp
  within := by simp
  before := by simp
  apart := .nil

lemma nothing (hs : Sorted ts) : Spans ts [] ts := nil hs (List.suffix_refl ts)

/-- What is read in two pieces. -/
lemma append (h : Spans ts ns r) (h' : Spans r ms r') : Spans ts (ns ++ ms) r' where
  sorted := h.sorted
  rest := h'.rest.trans h.rest
  present n hn := (List.mem_append.1 hn).elim (h.present n) (h'.present n)
  nested n hn := (List.mem_append.1 hn).elim (h.nested n) (h'.nested n)
  within n hn := by
    rcases List.mem_append.1 hn with hn | hn
    · exact h.within n hn
    · have hsub : ∀ p ∈ r.map Token.position, p ∈ ts.map Token.position :=
        fun p hp => (h.rest.sublist.map Token.position).mem hp
      exact ⟨hsub _ (h'.within n hn).1, hsub _ (h'.within n hn).2⟩
  before n hn t ht := by
    rcases List.mem_append.1 hn with hn | hn
    · exact h.before n hn t (h'.rest.mem ht)
    · exact h'.before n hn t ht
  apart := by
    refine List.pairwise_append.2 ⟨h.apart, h'.apart, fun c hc d hd => ?_⟩
    obtain ⟨t, ht, hstart⟩ := List.mem_map.1 (h'.within d hd).1
    exact hstart ▸ h.before c hc t ht

/-- A token that leaves no node. -/
lemma skip (hs : Sorted (t :: r)) : Spans (t :: r) [] r := .nil hs (List.suffix_cons t r)

/-- Tokens at the front that leave no node. -/
lemma after (h : Spans ts ns r) (hs : Sorted ts') (ht : ts <:+ ts') : Spans ts' ns r :=
  (nil hs ht).append h

/-- A token behind the nodes that leaves none. -/
lemma drop (h : Spans ts ns (t :: r)) : Spans ts ns r := by
  simpa using h.append (skip h.sorted_rest)

/-- A node is put around its children. -/
lemma node (h : Spans ts n.children r) (hp : n.isPresent = true)
    (hstart : n.start ∈ ts.map Token.position) (hstop : n.stop ∈ ts.map Token.position)
    (hordered : n.start ≤ n.stop) (hlow : ∀ c ∈ n.children, n.start ≤ c.start)
    (hhigh : ∀ c ∈ n.children, c.stop ≤ n.stop) (hbefore : ∀ t ∈ r, n.stop < t.position) :
    Spans ts [n] r where
  sorted := h.sorted
  rest := h.rest
  present := by simpa using hp
  nested := by
    intro m hm
    cases List.mem_singleton.1 hm
    exact .mk ⟨hordered, fun c hc => ⟨hlow c hc, hhigh c hc⟩, h.apart⟩ h.nested
  within m hm := by
    cases List.mem_singleton.1 hm
    exact ⟨hstart, hstop⟩
  before := by simpa using hbefore
  apart := List.pairwise_singleton _ _

lemma ordered (h : Spans ts ns r) (hn : n ∈ ns) : n.start ≤ n.stop := (h.nested n hn).placed.ordered

/-- A token in front of the nodes. -/
lemma lt_start (hs : Sorted (t :: ts)) (h : Spans ts ns r) (hn : n ∈ ns) :
    t.position < n.start := by
  obtain ⟨v, hv, hstart⟩ := List.mem_map.1 (h.within n hn).1
  exact hstart ▸ (List.pairwise_cons.1 hs).1 v hv

/-- The first node begins first. -/
lemma first_le (h : Spans ts (c :: ns) r) (hn : n ∈ c :: ns) : c.start ≤ n.start := by
  rcases List.mem_cons.1 hn with rfl | hn
  · exact le_refl _
  · have hordered := h.ordered (List.mem_cons_self ..)
    exact (hordered.trans_lt ((List.pairwise_cons.1 h.apart).1 n hn)).le

/-- The last node ends last. -/
lemma le_last (h : Spans ts (ns ++ [c]) r) (hn : n ∈ ns ++ [c]) : n.stop ≤ c.stop := by
  have hc : c ∈ ns ++ [c] := by simp
  rcases List.mem_append.1 hn with hn | hn
  · have hlt := (List.pairwise_append.1 h.apart).2.2 n hn c (by simp)
    exact (hlt.trans_le (h.ordered hc)).le
  · cases List.mem_singleton.1 hn
    exact le_refl _

lemma mem_rest (h : Spans ts ns (u :: r)) : u.position ∈ ts.map Token.position :=
  List.mem_map_of_mem (h.rest.mem (List.mem_cons_self ..))

lemma lt_rest (h : Spans ts ns (u :: r)) (ht : t ∈ r) : u.position < t.position :=
  (List.pairwise_cons.1 h.sorted_rest).1 t ht

/-- A node that is a single token. -/
lemma leaf (hs : Sorted (t :: r)) (hp : n.isPresent = true) (hc : n.children = [])
    (hstart : n.start = t.position) (hstop : n.stop = t.position) : Spans (t :: r) [n] r := by
  refine node (hc ▸ skip hs) hp ?_ ?_ ?_ (by simp [hc]) (by simp [hc]) ?_
  · simp [hstart]
  · simp [hstop]
  · rw [hstart, hstop]
  · exact fun v hv => hstop ▸ (List.pairwise_cons.1 hs).1 v hv

/-- A node from one token to another. -/
lemma enclosed (hs : Sorted (t :: ts)) (h : Spans ts ns (u :: r)) (hp : n.isPresent = true)
    (hc : n.children = ns) (hstart : n.start = t.position) (hstop : n.stop = u.position) :
    Spans (t :: ts) [n] r := by
  subst hc
  have hall : Spans (t :: ts) n.children (u :: r) := h.after hs (List.suffix_cons t ts)
  refine node hall.drop hp ?_ ?_ ?_ ?_ ?_ ?_
  · simp [hstart]
  · exact hstop ▸ hall.mem_rest
  · rw [hstart, hstop]
    exact ((List.pairwise_cons.1 hs).1 u (h.rest.mem (List.mem_cons_self ..))).le
  · exact fun c hc => hstart ▸ (lt_start hs h hc).le
  · exact fun c hc => hstop ▸ (h.before c hc u (List.mem_cons_self ..)).le
  · exact fun v hv => hstop ▸ h.lt_rest hv

/-- A node from its first child to a token. -/
lemma closed (h : Spans ts (c :: ns) (u :: r)) (hp : n.isPresent = true) (hc : n.children = c :: ns)
    (hstart : n.start = c.start) (hstop : n.stop = u.position) : Spans ts [n] r := by
  have hmem : c ∈ c :: ns := List.mem_cons_self ..
  have hlt : ∀ d ∈ c :: ns, d.stop < u.position :=
    fun d hd => h.before d hd u (List.mem_cons_self ..)
  refine node (hc ▸ h.drop) hp ?_ ?_ ?_ ?_ ?_ ?_
  · exact hstart ▸ (h.within c hmem).1
  · exact hstop ▸ h.mem_rest
  · rw [hstart, hstop]
    exact ((h.ordered hmem).trans_lt (hlt c hmem)).le
  · rw [hc, hstart]
    exact fun d hd => h.first_le hd
  · rw [hc, hstop]
    exact fun d hd => (hlt d hd).le
  · exact fun v hv => hstop ▸ h.lt_rest hv

/-- A node from a token to its last child. -/
lemma opened (hs : Sorted (t :: ts)) (h : Spans ts (ns ++ [c]) r) (hp : n.isPresent = true)
    (hc : n.children = ns ++ [c]) (hstart : n.start = t.position) (hstop : n.stop = c.stop) :
    Spans (t :: ts) [n] r := by
  have hall : Spans (t :: ts) (ns ++ [c]) r := h.after hs (List.suffix_cons t ts)
  have hmem : c ∈ ns ++ [c] := by simp
  refine node (hc ▸ hall) hp ?_ ?_ ?_ ?_ ?_ ?_
  · simp [hstart]
  · exact hstop ▸ (hall.within c hmem).2
  · rw [hstart, hstop]
    exact ((lt_start hs h hmem).trans_le (h.ordered hmem)).le
  · rw [hc, hstart]
    exact fun d hd => (lt_start hs h hd).le
  · rw [hc, hstop]
    exact fun d hd => h.le_last hd
  · exact hstop ▸ h.before c hmem

/-- A node from its first child to its last one. -/
lemma joined {d : Node} (h : Spans ts [c, d] r) (hp : n.isPresent = true) (hc : n.children = [c, d])
    (hstart : n.start = c.start) (hstop : n.stop = d.stop) : Spans ts [n] r := by
  have hlast : Spans ts ([c] ++ [d]) r := h
  have hlt : c.stop < d.start := (List.pairwise_cons.1 h.apart).1 d (by simp)
  refine node (hc ▸ h) hp ?_ ?_ ?_ ?_ ?_ ?_
  · exact hstart ▸ (h.within c (by simp)).1
  · exact hstop ▸ (h.within d (by simp)).2
  · rw [hstart, hstop]
    exact (((h.ordered (by simp)).trans_lt hlt).trans_le (h.ordered (by simp))).le
  · rw [hc, hstart]
    exact fun e he => h.first_le he
  · rw [hc, hstop]
    exact fun e he => hlast.le_last he
  · exact hstop ▸ h.before d (by simp)

/-- Nodes that are all there keep all of them. -/
lemma filter_present (h : Spans ts ns r) : ns.filter Node.isPresent = ns :=
  List.filter_eq_self.2 h.present

/-- What is read behind other nodes. -/
lemma next (h : Spans ts ns r) (h' : Sorted r → Spans r ms r') : Spans ts (ns ++ ms) r' :=
  h.append (h' h.sorted_rest)

lemma binary {left right : Node} (op : BinaryOp) (hleft : Spans ts [left] (t :: ts'))
    (hright : Sorted ts' → Spans ts' [right] r) : Spans ts [binaryNode op left right] r :=
  have hall := hleft.drop.next hright
  .joined hall rfl hall.filter_present rfl rfl

lemma member {object : Node} (h : Spans ts [object] (t :: u :: r)) :
    Spans ts [.member ⟨object.start, u.position⟩ object u.identifier] r :=
  .closed h.drop rfl h.filter_present rfl rfl

lemma call {target : Node} {args : List Node} (h : Spans ts [target] r')
    (hargs : Spans r' args (u :: r)) : Spans ts [.call ⟨target.start, u.position⟩ target args] r :=
  have hall := h.append hargs
  .closed hall rfl hall.filter_present rfl rfl

lemma literal (hs : Sorted (t :: r)) (h : literal? t.position t.lexeme = some n) : Spans (t :: r)
    [n] r := by
  unfold literal? at h
  split at h <;> cases h <;> exact .leaf hs rfl rfl rfl rfl

lemma standing {e : Node} (he : Spans ts [e] (u :: r)) : Spans ts [standing u.position e] r := by
  unfold Parser.standing
  split <;> exact .closed he rfl he.filter_present rfl rfl

end Spans

lemma Sorted.tail {t : Token} {ts : List Token} (hs : Sorted (t :: ts)) : Sorted ts :=
  (List.pairwise_cons.1 hs).2

/-! ## Expressions -/

/-- Where the nodes of a phrase stand, in tokens that stand in order.  The first operand of a chain
and the object of a member have been read before. -/
def Phrase.Placed (ts r : List Token) : Phrase → Prop
  | .level _ n | .operand _ n | .unary n | .factor n | .primary n => Sorted ts → Spans ts [n] r
  | .chain _ left n => ∀ ts₀, Spans ts₀ [left] ts → Spans ts₀ [n] r
  | .members object n => ∀ ts₀, Spans ts₀ [object] ts → Spans ts₀ [n] r
  | .arguments args close => Sorted ts → ∃ u : Token, close = u.position ∧ Spans ts args (u :: r)
  | .items _ es | .moreItems es => Sorted ts → Spans ts es r

/-- The rules of expressions put nodes where their tokens stand. -/
lemma Reading.placed {phrase : Phrase} {ts r : List Token} (h : Reading phrase ts r) :
    phrase.Placed ts r := by
  induction h with
  | level _ _ hleft hchain => exact fun hs => hchain _ (hleft hs)
  | operand _ _ h | tightest _ _ h | unary _ _ h => exact h
  | chainEnd | membersEnd => exact fun _ h => h
  | comparison _ _ hright => exact fun _ hleft => hleft.binary _ hright
  | chain _ _ _ _ hright hchain => exact fun _ hleft => hchain _ (hleft.binary _ hright)
  | minus _ _ h =>
    intro hs
    have hoperand := (Spans.nothing hs.tail).next h
    exact .opened hs hoperand rfl hoperand.filter_present rfl rfl
  | factor _ _ he hn => exact fun hs => hn _ (he hs)
  | property _ _ _ _ h => exact fun _ ho => h _ ho.member
  | method _ _ _ _ _ hargs h =>
    intro ts₀ ho
    obtain ⟨u, rfl, hu⟩ := hargs ho.member.sorted_rest
    exact h _ (ho.member.call hu)
  | literal h => exact fun hs => .literal hs h
  | name => exact fun hs => .leaf hs rfl rfl rfl rfl
  | @call id args close t ts r _ _ _ hargs =>
    intro hs
    obtain ⟨u, rfl, hu⟩ := hargs hs.tail
    have hname : Spans (t :: ts) [.name ⟨t.position, t.position⟩ id] ts := .leaf hs rfl rfl rfl rfl
    exact hname.call hu
  | construct _ _ _ _ hargs =>
    intro hs
    obtain ⟨u, rfl, hu⟩ := hargs hs.tail
    exact .enclosed hs hu rfl hu.filter_present rfl rfl
  | list _ _ _ h => exact fun hs => .enclosed hs (h hs.tail) rfl (h hs.tail).filter_present rfl rfl
  | group _ _ _ h => exact fun hs => (h hs.tail).drop.after hs (List.suffix_cons _ _)
  | @arguments es t u ts r _ _ _ h =>
    exact fun hs => ⟨u, rfl, (h hs.tail).after hs (List.suffix_cons _ _)⟩
  | noItems | itemsEnd => exact .nothing
  | items _ _ _ he hes => exact fun hs => (he hs).next hes
  | moreItems _ _ _ he hes =>
    exact fun hs => ((he hs.tail).next hes).after hs (List.suffix_cons _ _)

/-! ## Statements -/

/-- Where the nodes of a clause stand, in tokens that stand in order.  Behind a statement the text
goes on or has come to its end. -/
def Clause.Placed (stop : Stop) (ts r : List Token) : Clause → Prop
  | .type n | .parameter n | .condition n => Sorted ts → Spans ts [n] r
  | .parameters ns | .moreParameters ns | .statements ns => Sorted ts → Spans ts ns r
  | .statement n | .block n => reach stop r = .ok () ∧ (Sorted ts → Spans ts [n] r)
  | .topLevel ns => (ts ≠ [] → reach stop [] = .ok ()) ∧ (Sorted ts → Spans ts ns r)

/-- The rules of statements put nodes where their tokens stand. -/
lemma Stating.placed {stop : Stop} {clause : Clause} {ts r : List Token}
    (h : Stating stop clause ts r) : clause.Placed stop ts r := by
  induction h with
  | simpleType => exact fun hs => .leaf hs rfl rfl rfl rfl
  | listType _ _ _ _ he =>
    intro hs
    have hall := (Spans.skip hs.tail).next he
    exact .enclosed hs hall rfl hall.filter_present rfl rfl
  | parameter _ _ htype => exact fun hs => .closed (htype hs) rfl (htype hs).filter_present rfl rfl
  | noParameters | parametersEnd | noStatements => exact .nothing
  | parameters _ _ _ hp hps => exact fun hs => (hp hs).next hps
  | moreParameters _ _ _ hp hps =>
    exact fun hs => ((hp hs.tail).next hps).after hs (List.suffix_cons _ _)
  | condition _ he _ => exact fun hs => (he.placed hs.tail).drop.after hs (List.suffix_cons _ _)
  | declare _ _ _ _ _ he _ hr htype =>
    refine ⟨hr, fun hs => ?_⟩
    have hall := (htype hs).drop.drop.next he.placed
    exact .closed hall rfl hall.filter_present rfl rfl
  | giveBack _ _ hr => exact ⟨hr, fun hs => .enclosed hs (.nothing hs.tail) rfl rfl rfl rfl⟩
  | giveBackValue _ _ he _ hr =>
    exact ⟨hr, fun hs => .enclosed hs (he.placed hs.tail) rfl (he.placed hs.tail).filter_present rfl
      rfl⟩
  | assign _ htarget _ _ he _ hr =>
    refine ⟨hr, fun hs => ?_⟩
    have hall := (htarget.placed hs).drop.next he.placed
    exact .closed hall rfl hall.filter_present rfl rfl
  | standing _ he _ hr => exact ⟨hr, fun hs => (he.placed hs).standing⟩
  | other _ he _ hr =>
    exact ⟨hr, fun hs => .closed (he.placed hs) rfl (he.placed hs).filter_present rfl rfl⟩
  | branch _ _ _ _ hc hbody | loop _ _ _ hc hbody =>
    refine ⟨hbody.1, fun hs => ?_⟩
    have hall := (hc hs.tail).next hbody.2
    exact .opened hs hall rfl hall.filter_present rfl rfl
  | branchElse _ _ _ _ _ hc hbody hother =>
    refine ⟨hother.1, fun hs => ?_⟩
    have hall := ((hc hs.tail).next hbody.2).drop.next hother.2
    exact .opened hs hall rfl hall.filter_present rfl rfl
  | define _ _ _ _ _ _ _ hreturns hps hbody =>
    refine ⟨hbody.1, fun hs => ?_⟩
    have hall := ((hreturns hs.tail).drop.drop.next hps).drop.next hbody.2
    exact .opened hs hall rfl hall.filter_present rfl rfl
  | block _ _ _ hr hns =>
    exact ⟨hr, fun hs => .enclosed hs (hns hs.tail) rfl (hns hs.tail).filter_present rfl rfl⟩
  | statements _ _ _ hn hns => exact fun hs => (hn.2 hs).next hns
  | finish => exact ⟨fun h => absurd rfl h, .nothing⟩
  | @topLevel n ns t ts r _ _ hn hns =>
    refine ⟨fun _ => ?_, fun hs => (hn.2 hs).next hns.2⟩
    by_cases hr : r = []
    · exact hr ▸ hn.1
    · exact hns.1 hr

end Parser

namespace Program

/-- A program has come to the end of its text. -/
lemma stop_of_ofTokens {tokens : Tokens} {program : Node} (h : ofTokens tokens = .ok program) :
    ∃ p, tokens.stop = .ok p := by
  obtain ⟨ns, rfl, hreach, hns⟩ := (yields_ofTokens tokens).ok h
  have hend : reach tokens.stop [] = .ok () := by
    by_cases hempty : tokens.tokens = []
    · exact hempty ▸ hreach
    · exact hns.placed.1 hempty
  cases hstop : tokens.stop with
  | ok p => exact ⟨p, rfl⟩
  | error e =>
    rw [hstop] at hend
    cases hend

/-- The program that tokens in the order of their places spell is nested. -/
lemma nested_ofTokens {tokens : Tokens} {program : Node} (ht : tokens.InOrder)
    (h : ofTokens tokens = .ok program) : program.Nested := by
  obtain ⟨last, hlast⟩ := stop_of_ofTokens h
  obtain ⟨ns, rfl, -, hns⟩ := (yields_ofTokens tokens).ok h
  have hspans := hns.placed.2 ht.pairwise
  -- all places in the program are places of tokens
  have hle : ∀ p ∈ tokens.tokens.map Token.position, p ≤ last := by
    intro p hp
    obtain ⟨t, htoken, rfl⟩ := List.mem_map.1 hp
    exact ht.le_stop last hlast t htoken
  have hchildren : ∀ s is, (Node.program s is ns).children = ns := fun _ _ => hspans.filter_present
  have hposition : Parser.position tokens.stop [] = last := by rw [hlast]; rfl
  rw [hposition]
  refine .mk ⟨?_, fun c hc => ?_, ?_⟩ ?_
  · cases ns with
    | nil => exact le_refl last
    | cons n ns => exact hle _ (hspans.within n (List.mem_cons_self ..)).1
  · rw [hchildren] at hc
    refine ⟨?_, hle _ (hspans.within c hc).2⟩
    cases ns with
    | nil => cases hc
    | cons n ns => exact hspans.first_le hc
  · rw [hchildren]
    exact hspans.apart
  · rw [hchildren]
    exact hspans.nested

end Program

/-- Every node of the program that a text spells begins before it ends, lies around its children and
keeps them apart and in the order of the source; the definitions of the program are some of its
statements, in the same order. -/
theorem wellPlaced_of_parse {limits : Limits} {text : String} {program : Node}
    (h : Program.parse limits text = .ok program) :
    (∀ n : Node, n.Within program → n.isPresent = true → n.WellPlaced) ∧
      program.definitions.Sublist program.children := by
  have hnested := Program.nested_ofTokens (Tokens.inOrder_ofString limits text) h
  refine ⟨fun n hn hp => (hnested.within hn hp).placed, ?_⟩
  cases Program.isProgram_ofTokens h with
  | mk s hns =>
    have hdefinitions : ∀ n : Node, n.isDefinition = true → n.isPresent = true := by
      intro n hn
      cases n with
      | missing => cases hn
      | _ => rfl
    rw [Node.definitions_program]
    exact List.monotone_filter_right _ hdefinitions

/-- An assignment over two lines, with parentheses that group and a comment. -/
def overLines : String := "x = (a) + /* c */\r\n-b.d;"

/-- The tokens of this text. -/
def Tokens.overLines : Tokens where
  tokens := [⟨.identifier "x", ⟨1, 1⟩⟩, ⟨.symbol .assign, ⟨1, 3⟩⟩, ⟨.symbol .lparen, ⟨1, 5⟩⟩,
    ⟨.identifier "a", ⟨1, 6⟩⟩, ⟨.symbol .rparen, ⟨1, 7⟩⟩, ⟨.symbol .plus, ⟨1, 9⟩⟩,
      ⟨.symbol .minus, ⟨2, 1⟩⟩,
    ⟨.identifier "b", ⟨2, 2⟩⟩, ⟨.symbol .dot, ⟨2, 3⟩⟩, ⟨.identifier "d", ⟨2, 4⟩⟩,
      ⟨.symbol .semicolon, ⟨2, 5⟩⟩]
  stop := .ok ⟨2, 5⟩

/-- Its tree. -/
def Node.overLines : Node :=
  .program ⟨⟨1, 1⟩, ⟨2, 5⟩⟩ []
    [.assign ⟨⟨1, 1⟩, ⟨2, 5⟩⟩ (.name ⟨⟨1, 1⟩, ⟨1, 1⟩⟩ "x")
      (.binary ⟨⟨1, 6⟩, ⟨2, 4⟩⟩ .add (.name ⟨⟨1, 6⟩, ⟨1, 6⟩⟩ "a")
        (.negate ⟨⟨2, 1⟩, ⟨2, 4⟩⟩ (.member ⟨⟨2, 2⟩, ⟨2, 4⟩⟩ (.name ⟨⟨2, 2⟩, ⟨2, 2⟩⟩ "b") "d")))]

theorem wellPlaced_of_parse_overLines :
    Program.parse {} overLines = .ok .overLines ∧
      (∀ n : Node, n.Within .overLines → n.isPresent = true → n.WellPlaced) ∧
      Node.overLines.definitions.Sublist Node.overLines.children := by
  have htokens : Tokens.ofString {} overLines = .overLines := by with_unfolding_all rfl
  have hparse : Program.parse {} overLines = .ok .overLines := by
    rw [Program.parse, htokens]
    cbv
  exact ⟨hparse, wellPlaced_of_parse hparse⟩

end AudLang
