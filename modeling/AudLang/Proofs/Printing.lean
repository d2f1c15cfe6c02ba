import AudLang.Proofs.Grammar

/-!
Writing trees down.

`Node.lexemes` writes a tree with the words and symbols of the grammar.  How tightly a tree binds is
a number (`Node.precedence`), and an operand stands in parentheses exactly when it binds less
tightly than its place asks for: as tightly as the operator on its left side, more tightly on its
right side, and more tightly on both sides of a comparison.  The expression of a statement that is
nothing else always stands in parentheses.

`Node.bare` forgets where the nodes of a tree stand.  What is left says everything that can be read
from what is written.
-/

namespace AudLang

open AudLang.Parser

/-! ## Words and operators -/

namespace Lexeme

/-- The reserved word with this spelling; other texts are names. -/
def word (s : String) : Lexeme :=
  match Keyword.ofSpelling? s with
  | some k => .keyword k
  | none => .identifier s

@[simp] lemma word_spelling (k : Keyword) : word k.spelling = .keyword k := by cases k <;> rfl

/-- The lexemes, in parentheses where they are needed. -/
def enclosed (needed : Bool) (xs : List Lexeme) : List Lexeme :=
  if needed then .symbol .lparen :: (xs ++ [.symbol .rparen]) else xs

/-- Can an expression begin with the lexeme? -/
def opensExpression : Lexeme → Bool
  | .int _ | .float _ | .string _ | .identifier _ => true
  | .keyword k => k = .true_ ∨ k = .false_ ∨ k = .null ∨ isConstructor k
  | .symbol s => s = .minus ∨ s = .lparen ∨ s = .lbracket

end Lexeme

namespace BinaryOp

/-- The symbol that an operator is written with. -/
def mark : BinaryOp → Symbol
  | add => .plus | subtract => .minus | multiply => .times | divide => .divide
  | equals => .eq | notEquals => .ne | less => .lt | lessOrEqual => .le
  | greater => .gt | greaterOrEqual => .ge | and => .and_ | or => .or_

/-- How tightly an operator binds its operands. -/
def precedence : BinaryOp → Nat
  | or => 1
  | and => 2
  | equals | notEquals | less | lessOrEqual | greater | greaterOrEqual => 3
  | add | subtract => 4
  | multiply | divide => 5

/-- Comparisons associate to neither side, all other operators to the left. -/
def isAssociative : BinaryOp → Bool
  | equals | notEquals | less | lessOrEqual | greater | greaterOrEqual => false
  | _ => true

/-- How tightly an operand on the left side has to bind to stand without parentheses. -/
def onLeft (op : BinaryOp) : Nat := if op.isAssociative then op.precedence else op.precedence + 1

/-- How tightly an operand on the right side has to bind to stand without parentheses. -/
def onRight (op : BinaryOp) : Nat := op.precedence + 1

end BinaryOp

namespace Node

/-! ## Writing -/

/-- How tightly a tree binds: an operation as its operator, a unary minus more tightly than any of
them, and everything else holds together by itself. -/
def precedence : Node → Nat
  | .binary _ op _ _ => op.precedence
  | .negate .. => 6
  | _ => 7

section

variable (enclose : Bool → List Lexeme → List Lexeme := Lexeme.enclosed)

mutual

/-- The lexemes that a tree is written with.  Where parentheses may be needed around a part of it,
`enclose` is told whether they are. -/
def lexemes : Node → List Lexeme
  | .missing | .unknown .. => []
  | .int _ v => [.int v.toNat]
  | .float _ v => [.float v]
  | .string _ v => [.string v]
  | .bool _ v => [.keyword (if v then .true_ else .false_)]
  | .null _ => [.keyword .null]
  | .name _ id => [.identifier id]
  | .list _ es => .symbol .lbracket :: (listed es ++ [.symbol .rbracket])
  | .binary _ op l r =>
    enclose (l.precedence < op.onLeft) (lexemes l) ++
      .symbol op.mark :: enclose (r.precedence < op.onRight) (lexemes r)
  | .negate _ e => .symbol .minus :: enclose (e.precedence < 7) (lexemes e)
  | .member _ o field => enclose (o.precedence < 7) (lexemes o) ++ [.symbol .dot, .identifier field]
  | .call _ target args =>
    lexemes target ++ .symbol .lparen :: (listed args ++ [.symbol .rparen])
  | .construct _ kind args =>
    .word kind :: .symbol .lparen :: (listed args ++ [.symbol .rparen])
  | .type _ id => [.word id]
  | .listType _ id e => .word id :: .symbol .lt :: (lexemes e ++ [.symbol .gt])
  | .block _ ns => .symbol .lbrace :: (sequence ns ++ [.symbol .rbrace])
  | .declare _ t id v =>
    lexemes t ++ .identifier id :: .symbol .assign :: (lexemes v ++ [.symbol .semicolon])
  | .branch _ c onTrue onFalse =>
    .keyword .if_ :: .symbol .lparen :: (lexemes c ++ .symbol .rparen ::
      (lexemes onTrue ++ if onFalse.isPresent then .keyword .else_ :: lexemes onFalse else []))
  | .loop _ c body =>
    .keyword .while_ :: .symbol .lparen :: (lexemes c ++ .symbol .rparen :: lexemes body)
  | .assign _ target v =>
    lexemes target ++ .symbol .assign :: (lexemes v ++ [.symbol .semicolon])
  | .giveBack _ v => .keyword .return_ :: (lexemes v ++ [.symbol .semicolon])
  | .callStatement _ c => lexemes c ++ [.symbol .semicolon]
  | .expressionStatement _ e => enclose true (lexemes e) ++ [.symbol .semicolon]
  | .parameter _ t (.plain id) | .parameter _ t (.token id) => lexemes t ++ [.identifier id]
  | .define _ returns id ps body =>
    .keyword .func :: (lexemes returns ++ .identifier id :: .symbol .lparen ::
      (listed ps ++ .symbol .rparen :: lexemes body))
  | .program _ _ ns => sequence ns

/-- Trees with a comma between any two of them. -/
def listed : List Node → List Lexeme
  | [] => []
  | n :: ns => lexemes n ++ listedMore ns

/-- Trees with a comma in front of each of them. -/
def listedMore : List Node → List Lexeme
  | [] => []
  | n :: ns => .symbol .comma :: (lexemes n ++ listedMore ns)

/-- Trees one after the other. -/
def sequence : List Node → List Lexeme
  | [] => []
  | n :: ns => lexemes n ++ sequence ns

end

end

/-- A tree where something is expected that binds at least this tightly. -/
def operand (least : Nat) (n : Node) : List Lexeme :=
  Lexeme.enclosed (n.precedence < least) n.lexemes

/-! ## Forgetting places -/

mutual

/-- The tree with all places forgotten. -/
def bare : Node → Node
  | .missing => .missing
  | .unknown _ kind => .unknown default kind
  | .int _ v => .int default v
  | .float _ v => .float default v
  | .string _ v => .string default v
  | .bool _ v => .bool default v
  | .null _ => .null default
  | .name _ id => .name default id
  | .list _ es => .list default (bares es)
  | .binary _ op l r => .binary default op l.bare r.bare
  | .negate _ e => .negate default e.bare
  | .call _ target args => .call default target.bare (bares args)
  | .member _ o field => .member default o.bare field
  | .construct _ kind args => .construct default kind (bares args)
  | .type _ id => .type default id
  | .listType _ id e => .listType default id e.bare
  | .block _ ns => .block default (bares ns)
  | .declare _ t id v => .declare default t.bare id v.bare
  | .branch _ c onTrue onFalse => .branch default c.bare onTrue.bare onFalse.bare
  | .loop _ c body => .loop default c.bare body.bare
  | .assign _ target v => .assign default target.bare v.bare
  | .giveBack _ v => .giveBack default v.bare
  | .callStatement _ c => .callStatement default c.bare
  | .expressionStatement _ e => .expressionStatement default e.bare
  | .parameter _ t id => .parameter default t.bare id
  | .define _ returns id ps body => .define default returns.bare id (bares ps) body.bare
  | .program _ definitions ns => .program default definitions (bares ns)

/-- The trees with all places forgotten. -/
def bares : List Node → List Node
  | [] => []
  | n :: ns => n.bare :: bares ns

end

lemma isDefinition_bare (n : Node) : n.bare.isDefinition = n.isDefinition := by cases n <;> rfl

lemma bares_eq_map (ns : List Node) : bares ns = ns.map bare := by
  induction ns with
  | nil => rfl
  | cons n ns ih => rw [bares, ih, List.map_cons]

/-- Which statements of a program are definitions does not depend on places. -/
lemma definitionIndexes_congr {ns ns' : List Node} (h : bares ns = bares ns') :
    definitionIndexes ns = definitionIndexes ns' := by
  rw [bares_eq_map, bares_eq_map] at h
  have hlength : ns.length = ns'.length := by simpa using congrArg List.length h
  have hat : ∀ i : Nat, (ns[i]?).any isDefinition = (ns'[i]?).any isDefinition := by
    intro i
    have hi := congrArg (fun l => (l[i]?).any isDefinition) h
    simpa [Option.any_map, Function.comp_def, isDefinition_bare] using hi
  simp only [definitionIndexes, hlength, hat]

/-! ## How writing begins -/

/-- An expression in parentheses or without them begins as expressions do. -/
lemma opens_operand {n : Node} {least : Nat}
    (h : ∃ x xs, n.lexemes = x :: xs ∧ x.opensExpression = true) :
    ∃ x xs, n.operand least = x :: xs ∧ x.opensExpression = true := by
  unfold operand Lexeme.enclosed
  split
  · exact ⟨_, _, rfl, rfl⟩
  · exact h

lemma opens_append {l : List Lexeme} (ys : List Lexeme)
    (h : ∃ x xs, l = x :: xs ∧ x.opensExpression = true) :
    ∃ x xs, l ++ ys = x :: xs ∧ x.opensExpression = true := by
  obtain ⟨x, xs, rfl, hx⟩ := h
  exact ⟨x, xs ++ ys, rfl, hx⟩

lemma IsExpression.opens {n : Node} (h : n.IsExpression) :
    ∃ x xs, n.lexemes = x :: xs ∧ x.opensExpression = true := by
  induction h with
  | int | float | string | null | name | list | negate | call => exact ⟨_, _, rfl, rfl⟩
  | bool s v => cases v <;> exact ⟨_, _, rfl, rfl⟩
  | binary s op hl hr ihl ihr => exact opens_append _ (opens_operand ihl)
  | member s field h ih => exact opens_append _ (opens_operand ih)
  | method s t field ho h iho ih => exact opens_append _ (opens_append _ (opens_operand iho))
  | @construct s k args hk h ih =>
    refine ⟨.keyword k, _, by rw [lexemes, Lexeme.word_spelling], ?_⟩
    simp [Lexeme.opensExpression, hk]

lemma IsType.opens {n : Node} (h : n.IsType) : ∃ k xs, n.lexemes = .keyword k :: xs ∧
    k ≠ .else_ := by
  cases h with
  | @simple s k hk =>
    refine ⟨k, [], by rw [lexemes, Lexeme.word_spelling], ?_⟩
    rintro rfl
    exact absurd hk (by decide)
  | list s h => exact ⟨.list, _, by rw [lexemes, Lexeme.word_spelling], by decide⟩

lemma IsParameter.opens {n : Node} (h : n.IsParameter) : ∃ k xs, n.lexemes = .keyword k :: xs := by
  obtain ⟨s, id, ht⟩ := h
  obtain ⟨k, xs, heq, _⟩ := ht.opens
  exact ⟨k, _, by rw [lexemes, heq, List.cons_append]⟩

/-- No statement begins as something else goes on. -/
lemma IsStatement.opens {n : Node} (h : n.IsStatement) :
    ∃ x xs, n.lexemes = x :: xs ∧ x.kind ≠ .symbol .rbrace ∧ x.kind ≠ .keyword .else_ := by
  have hexpression : ∀ {e : Node} (ys : List Lexeme), e.IsExpression →
      ∃ x xs, e.lexemes ++ ys = x :: xs ∧ x.kind ≠ .symbol .rbrace ∧ x.kind ≠ .keyword .else_ := by
    intro e ys he
    obtain ⟨x, xs, heq, hx⟩ := opens_append ys he.opens
    refine ⟨x, xs, heq, ?_, ?_⟩ <;> cases x <;> simp [Lexeme.kind] <;> rintro rfl <;>
      exact absurd hx (by decide)
  cases h with
  | declare s id ht hv he =>
    obtain ⟨k, xs, heq, hk⟩ := ht.opens
    exact ⟨.keyword k, _, by rw [lexemes, heq, List.cons_append], by simp [Lexeme.kind],
      by simpa [Lexeme.kind] using hk⟩
  | assign s t id he => exact hexpression _ (.name t id)
  | assignMember s t field ho hn he => exact hexpression _ (.member t field ho)
  | call s t hc hn => exact hexpression _ hc
  | expression | giveBack | giveBackValue | branch | branchElse | loop | define =>
    exact ⟨_, _, rfl, by simp [Lexeme.kind], by simp [Lexeme.kind]⟩

end Node

end AudLang
