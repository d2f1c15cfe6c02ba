import AudLang.Parser.Basic

/-!
Types and expressions.

Binary operators stand on five levels, from the loosest: `||`, `&&`, comparisons, sums, products.
All but comparisons associate to the left; a comparison takes two operands and no more.  A unary
minus applies to a single factor.  Parentheses leave no trace in the tree.
-/

set_option linter.unusedVariables false

namespace AudLang.Parser

open Counted

/-! ## Types -/

/-- The keywords that name a type by themselves. -/
def isSimpleType : Keyword → Bool
  | .int | .float | .bool | .string | .void | .folder | .file | .audio => true
  | _ => false

/-- A type: a keyword, or a list of a type. -/
def typeName (stop : Stop) (ts : List Token) : Parsed Node ts :=
  match ts with
  | [] => fail stop .typeKeyword []
  | t :: r =>
    match t.lexeme with
    | .keyword .list => do
      reach stop r
      let (_, ⟨r₁, _⟩) ← expect stop (.symbol .lt) r
      let (element, ⟨r₂, _⟩) ← call (typeName stop r₁)
      let (close, ⟨r₃, _⟩) ← expect stop (.symbol .gt) r₂
      return (.listType ⟨t.position, close.position⟩ Keyword.list.spelling element,
        ⟨r₃, by simp only [List.length_cons]; omega⟩)
    | .keyword k => do
      if isSimpleType k then
        reach stop r
        return (.type ⟨t.position, t.position⟩ k.spelling, ⟨r, Nat.lt_succ_self _⟩)
      else fail stop .typeKeyword (t :: r)
    | _ => fail stop .typeKeyword (t :: r)
termination_by ts.length
decreasing_by simp only [List.length_cons]; omega

/-! ## Expressions -/

/-- The levels of binary operators, from the loosest to the tightest. -/
inductive Level where
  | disjunction | conjunction | comparison | sum | product
deriving DecidableEq, Repr

namespace Level

/-- The level of an operator's operands. -/
def tighter? : Level → Option Level
  | disjunction => some conjunction
  | conjunction => some comparison
  | comparison => some sum
  | sum => some product
  | product => none

/-- How many levels are at least as tight. -/
def height : Level → Nat
  | disjunction => 5
  | conjunction => 4
  | comparison => 3
  | sum => 2
  | product => 1

theorem height_tighter {l m : Level} (h : l.tighter? = some m) : m.height < l.height := by
  cases l <;> cases m <;> simp_all [tighter?, height]

/-- The operator of this level that a kind of token stands for. -/
def op? : Level → Kind → Option BinaryOp
  | disjunction, .symbol .or_ => some .or
  | conjunction, .symbol .and_ => some .and
  | comparison, .symbol .eq => some .equals
  | comparison, .symbol .ne => some .notEquals
  | comparison, .symbol .lt => some .less
  | comparison, .symbol .le => some .lessOrEqual
  | comparison, .symbol .gt => some .greater
  | comparison, .symbol .ge => some .greaterOrEqual
  | sum, .symbol .plus => some .add
  | sum, .symbol .minus => some .subtract
  | product, .symbol .times => some .multiply
  | product, .symbol .divide => some .divide
  | _, _ => none

end Level

/-- The literal that a lexeme is, standing at `p`. -/
def literal? (p : Position) : Lexeme → Option Node
  | .int n => some (.int ⟨p, p⟩ n)
  | .float x => some (.float ⟨p, p⟩ x)
  | .string s => some (.string ⟨p, p⟩ s)
  | .keyword .true_ => some (.bool ⟨p, p⟩ true)
  | .keyword .false_ => some (.bool ⟨p, p⟩ false)
  | .keyword .null => some (.null ⟨p, p⟩)
  | _ => none

/-- The keywords that construct a value when arguments follow. -/
def isConstructor : Keyword → Bool
  | .file | .folder | .audio => true
  | _ => false

/-- The tree of an operator between two operands. -/
def binaryNode (op : BinaryOp) (left right : Node) : Node :=
  .binary ⟨left.start, right.stop⟩ op left right

mutual

/-- Operands of a level, joined by its operators. -/
def level (stop : Stop) (l : Level) (ts : List Token) : Parsed Node ts := call do
  let (left, ⟨r₁, _⟩) ← operand stop l ts
  let (node, ⟨r₂, _⟩) ← chain stop l left r₁
  return (node, ⟨r₂, by omega⟩)
termination_by (ts.length, 2 * l.height + 5)

/-- An operand of a level. -/
def operand (stop : Stop) (l : Level) (ts : List Token) : Parsed Node ts :=
  match h : l.tighter? with
  | some m => level stop m ts
  | none => unary stop ts
termination_by (ts.length, 2 * l.height + 4)
decreasing_by
  · have := Level.height_tighter h
    exact Prod.Lex.right _ (by omega)
  · exact Prod.Lex.right _ (by omega)

/-- What follows a first operand: further operators of the level with their operands. -/
def chain (stop : Stop) (l : Level) (left : Node) (ts : List Token) : Tried Node ts :=
  match ts with
  | [] => pure (left, .all [])
  | t :: r =>
    match l.op? t.kind with
    | none => pure (left, .all (t :: r))
    | some op => do
      reach stop r
      let (right, ⟨r₁, _⟩) ← operand stop l r
      if l = .comparison then
        return (binaryNode op left right, ⟨r₁, by simp only [List.length_cons]; omega⟩)
      else
        let (node, ⟨r₂, _⟩) ← chain stop l (binaryNode op left right) r₁
        return (node, ⟨r₂, by simp only [List.length_cons]; omega⟩)
termination_by (ts.length, 0)

/-- A factor, perhaps behind a minus. -/
def unary (stop : Stop) (ts : List Token) : Parsed Node ts := call <|
  match ts with
  | [] => factor stop []
  | t :: r =>
    if t.kind = .symbol .minus then do
      reach stop r
      let (operand, ⟨r₁, _⟩) ← factor stop r
      return (.negate ⟨t.position, operand.stop⟩ operand,
        ⟨r₁, by simp only [List.length_cons]; omega⟩)
    else factor stop (t :: r)
termination_by (ts.length, 3)

/-- A primary with the members and calls behind it. -/
def factor (stop : Stop) (ts : List Token) : Parsed Node ts := call do
  let (node, ⟨r₁, _⟩) ← primary stop ts
  let (node, ⟨r₂, _⟩) ← members stop node r₁
  return (node, ⟨r₂, by omega⟩)
termination_by (ts.length, 2)

/-- Members and method calls behind a primary. -/
def members (stop : Stop) (object : Node) (ts : List Token) : Tried Node ts :=
  match ts with
  | [] => pure (object, .all [])
  | t :: r =>
    if t.kind = .symbol .dot then do
      reach stop r
      let (id, ⟨r₁, _⟩) ← expect stop .identifier r
      let access := Node.member ⟨object.start, id.position⟩ object id.identifier
      if kind r₁ = .symbol .lparen then
        let (args, close, ⟨r₂, _⟩) ← arguments stop r₁
        let (node, ⟨r₃, _⟩) ← members stop (.call ⟨access.start, close⟩ access args) r₂
        return (node, ⟨r₃, by simp only [List.length_cons]; omega⟩)
      else
        let (node, ⟨r₂, _⟩) ← members stop access r₁
        return (node, ⟨r₂, by simp only [List.length_cons]; omega⟩)
    else pure (object, .all (t :: r))
termination_by (ts.length, 0)

/-- A literal, a name, a call, a construction, a list or an expression in parentheses, each by a
call of its own. -/
def primary (stop : Stop) (ts : List Token) : Parsed Node ts := call <| call <|
  match ts with
  | [] => fail stop .factor []
  | t :: r =>
    match literal? t.position t.lexeme, t.lexeme with
    | some node, _ => do
      reach stop r
      return (node, ⟨r, Nat.lt_succ_self _⟩)
    | none, .identifier id => do
      reach stop r
      let name := Node.name ⟨t.position, t.position⟩ id
      if kind r = .symbol .lparen then
        let (args, close, ⟨r₁, _⟩) ← arguments stop r
        return (.call ⟨t.position, close⟩ name args, ⟨r₁, by simp only [List.length_cons]; omega⟩)
      else return (name, ⟨r, Nat.lt_succ_self _⟩)
    | none, .keyword k => do
      if isConstructor k then
        reach stop r
        if kind r = .symbol .lparen then
          let (args, close, ⟨r₁, _⟩) ← arguments stop r
          return (.construct ⟨t.position, close⟩ k.spelling args,
            ⟨r₁, by simp only [List.length_cons]; omega⟩)
        else fail stop .constructorArguments r
      else fail stop .factor (t :: r)
    | none, .symbol .lbracket => do
      reach stop r
      let (elements, ⟨r₁, _⟩) ← items stop .rbracket r
      let (close, ⟨r₂, _⟩) ← expect stop (.symbol .rbracket) r₁
      return (.list ⟨t.position, close.position⟩ elements,
        ⟨r₂, by simp only [List.length_cons]; omega⟩)
    | none, .symbol .lparen => do
      reach stop r
      let (node, ⟨r₁, _⟩) ← call (level stop .disjunction r)
      let (_, ⟨r₂, _⟩) ← expect stop (.symbol .rparen) r₁
      return (node, ⟨r₂, by simp only [List.length_cons]; omega⟩)
    | none, _ => fail stop .factor (t :: r)
termination_by (ts.length, 1)

/-- Arguments in parentheses, and the place of the closing one. -/
def arguments (stop : Stop) (ts : List Token) :
    Counted (List Node × Position × Rest ts) := call do
  let (_, ⟨r₁, h₁⟩) ← expect stop (.symbol .lparen) ts
  let (args, ⟨r₂, h₂⟩) ← call (items stop .rparen r₁)
  let (close, ⟨r₃, h₃⟩) ← expect stop (.symbol .rparen) r₂
  return (args, close.position, ⟨r₃, length_lt_of_enclosed h₁ h₂ h₃⟩)
termination_by (ts.length, 17)

/-- Expressions between commas, none at all in front of the closing symbol. -/
def items (stop : Stop) (closing : Symbol) (ts : List Token) : Tried (List Node) ts := do
  if kind ts = .symbol closing then return ([], .all ts)
  else
    let (first, ⟨r₁, h₁⟩) ← call (level stop .disjunction ts)
    let (more, ⟨r₂, h₂⟩) ← moreItems stop r₁
    return (first :: more, ⟨r₂, length_le_of_more h₁ h₂⟩)
termination_by (ts.length, 16)
decreasing_by
  · exact Prod.Lex.right _ (by decide)
  · exact Prod.Lex.left _ _ (by omega)

/-- Further expressions, each behind a comma. -/
def moreItems (stop : Stop) (ts : List Token) : Tried (List Node) ts :=
  match ts with
  | [] => pure ([], .all [])
  | t :: r =>
    if t.kind = .symbol .comma then do
      reach stop r
      let (next, ⟨r₁, h₁⟩) ← call (level stop .disjunction r)
      let (more, ⟨r₂, h₂⟩) ← moreItems stop r₁
      return (next :: more, ⟨r₂, length_le_cons_of_more h₁ h₂⟩)
    else pure ([], .all (t :: r))
termination_by (ts.length, 0)

end

/-- An expression. -/
def expression (stop : Stop) (ts : List Token) : Parsed Node ts := call (level stop .disjunction ts)

end AudLang.Parser
