import AudLang.Parser.Expression

/-!
Statements and programs.

The first token decides which rule a statement is read by.  Where it decides for nothing else, the
statement is an expression, and a fault in it is reported as an unexpected token at its place.

`Program.parse` is what the rules come to on a host with room for all their nested calls, and
`Program.parseWithin` on one that has room for so many.
-/

namespace AudLang.Parser

open Counted

/-- The keywords that open a declaration. -/
def opensDeclaration : Keyword → Bool
  | .int | .float | .bool | .string | .folder | .file | .audio | .list => true
  | _ => false

/-- `type name = expression ;` -/
def declaration (stop : Stop) (ts : List Token) : Parsed Node ts := do
  let (type, ⟨r₁, h₁⟩) ← call (typeName stop ts)
  let (id, ⟨r₂, h₂⟩) ← expect stop .identifier r₁
  let (_, ⟨r₃, h₃⟩) ← expect stop (.symbol .assign) r₂
  let (value, ⟨r₄, h₄⟩) ← expression stop r₃
  let (close, ⟨r₅, h₅⟩) ← expect stop (.symbol .semicolon) r₄
  return (.declare ⟨type.start, close.position⟩ type id.identifier value,
    ⟨r₅, Nat.lt_trans h₅ (Nat.lt_trans h₄ (Nat.lt_trans h₃ (Nat.lt_trans h₂ h₁)))⟩)

/-- `return ;` or `return expression ;` -/
def returnStatement (stop : Stop) (ts : List Token) : Parsed Node ts := do
  let (word, ⟨r₁, _⟩) ← expect stop (.keyword .return_) ts
  if kind r₁ = .symbol .semicolon then
    let (close, ⟨r₂, _⟩) ← expect stop (.symbol .semicolon) r₁
    return (.giveBack ⟨word.position, close.position⟩ .missing, ⟨r₂, by omega⟩)
  else
    let (value, ⟨r₂, _⟩) ← expression stop r₁
    let (close, ⟨r₃, _⟩) ← expect stop (.symbol .semicolon) r₂
    return (.giveBack ⟨word.position, close.position⟩ value, ⟨r₃, by omega⟩)

/-- Can something be assigned to the node? -/
def isTarget : Node → Bool
  | .name .. | .member .. => true
  | _ => false

/-- The statement that consists of an expression. -/
def standing (close : Position) (e : Node) : Node :=
  match e with
  | .call .. => .callStatement ⟨e.start, close⟩ e
  | _ => .expressionStatement ⟨e.start, close⟩ e

/-- A statement that opens with a name: an assignment, a call or another expression. -/
def nameStatement (stop : Stop) (ts : List Token) : Parsed Node ts := do
  let (e, ⟨r₁, _⟩) ← expression stop ts
  if kind r₁ = .symbol .assign then
    if isTarget e then
      let (_, ⟨r₂, _⟩) ← expect stop (.symbol .assign) r₁
      let (value, ⟨r₃, _⟩) ← expression stop r₂
      let (close, ⟨r₄, _⟩) ← expect stop (.symbol .semicolon) r₃
      return (.assign ⟨e.start, close.position⟩ e value, ⟨r₄, by omega⟩)
    else ⟨.error (.badTarget e.kindName e.stop), 0⟩
  else
    let (close, ⟨r₂, _⟩) ← expect stop (.symbol .semicolon) r₁
    return (standing close.position e, ⟨r₂, by omega⟩)

/-- Any other expression, as a statement. -/
def otherStatement (stop : Stop) (ts : List Token) : Parsed Node ts := mapError .forget do
  let (e, ⟨r₁, _⟩) ← expression stop ts
  let (close, ⟨r₂, _⟩) ← expect stop (.symbol .semicolon) r₁
  return (.expressionStatement ⟨e.start, close.position⟩ e, ⟨r₂, by omega⟩)

/-- A parameter: a type and a name. -/
def parameter (stop : Stop) (ts : List Token) : Parsed Node ts := do
  let (type, ⟨r₁, _⟩) ← call (typeName stop ts)
  let (id, ⟨r₂, _⟩) ← expect stop .identifier r₁
  return (.parameter ⟨type.start, id.position⟩ type (.plain id.identifier),
    ⟨r₂, by omega⟩)

/-- Further parameters, each behind a comma. -/
def moreParameters (stop : Stop) (ts : List Token) : Tried (List Node) ts :=
  match ts with
  | [] => pure ([], .all [])
  | t :: r =>
    if t.kind = .symbol .comma then do
      reach stop r
      let (next, ⟨r₁, h₁⟩) ← parameter stop r
      let (more, ⟨r₂, h₂⟩) ← moreParameters stop r₁
      return (next :: more, ⟨r₂, length_le_cons_of_more h₁ h₂⟩)
    else pure ([], .all (t :: r))
termination_by ts.length
decreasing_by simp only [List.length_cons]; omega

/-- The parameters of a function, none at all in front of the closing parenthesis. -/
def parameters (stop : Stop) (ts : List Token) : Tried (List Node) ts := call do
  if kind ts = .symbol .rparen then return ([], .all ts)
  else
    let (first, ⟨r₁, h₁⟩) ← parameter stop ts
    let (more, ⟨r₂, h₂⟩) ← moreParameters stop r₁
    return (first :: more, ⟨r₂, length_le_of_more h₁ h₂⟩)

/-- A condition in parentheses. -/
def condition (stop : Stop) (ts : List Token) : Parsed Node ts := do
  let (_, ⟨r₁, _⟩) ← expect stop (.symbol .lparen) ts
  let (node, ⟨r₂, _⟩) ← expression stop r₁
  let (_, ⟨r₃, _⟩) ← expect stop (.symbol .rparen) r₂
  return (node, ⟨r₃, by omega⟩)

mutual

/-- A statement, each kind of them by a call of its own. -/
def statement (stop : Stop) (ts : List Token) : Parsed Node ts := call <| call <|
  match kind ts with
  | .keyword .func => definition stop ts
  | .keyword .if_ => branch stop ts
  | .keyword .while_ => loop stop ts
  | .keyword .return_ => returnStatement stop ts
  | .keyword k => if opensDeclaration k then declaration stop ts else otherStatement stop ts
  | .identifier => nameStatement stop ts
  | _ => otherStatement stop ts
termination_by (ts.length, 1)

/-- `func type name ( parameters ) block` -/
def definition (stop : Stop) (ts : List Token) : Parsed Node ts := do
  let (word, ⟨r₁, _⟩) ← expect stop (.keyword .func) ts
  let (type, ⟨r₂, _⟩) ← call (typeName stop r₁)
  let (id, ⟨r₃, _⟩) ← expect stop .identifier r₂
  let (_, ⟨r₄, _⟩) ← expect stop (.symbol .lparen) r₃
  let (params, ⟨r₅, _⟩) ← parameters stop r₄
  let (_, ⟨r₆, _⟩) ← expect stop (.symbol .rparen) r₅
  let (body, ⟨r₇, _⟩) ← block stop r₆
  return (.define ⟨word.position, body.stop⟩ type id.identifier params body,
    ⟨r₇, by omega⟩)
termination_by (ts.length, 0)

/-- `if ( condition ) block`, perhaps with `else block` -/
def branch (stop : Stop) (ts : List Token) : Parsed Node ts := do
  let (word, ⟨r₁, _⟩) ← expect stop (.keyword .if_) ts
  let (cond, ⟨r₂, _⟩) ← condition stop r₁
  let (onTrue, ⟨r₃, _⟩) ← block stop r₂
  if kind r₃ = .keyword .else_ then
    let (_, ⟨r₄, _⟩) ← expect stop (.keyword .else_) r₃
    let (onFalse, ⟨r₅, _⟩) ← block stop r₄
    return (.branch ⟨word.position, onFalse.stop⟩ cond onTrue onFalse, ⟨r₅, by omega⟩)
  else return (.branch ⟨word.position, onTrue.stop⟩ cond onTrue .missing, ⟨r₃, by omega⟩)
termination_by (ts.length, 0)

/-- `while ( condition ) block` -/
def loop (stop : Stop) (ts : List Token) : Parsed Node ts := do
  let (word, ⟨r₁, _⟩) ← expect stop (.keyword .while_) ts
  let (cond, ⟨r₂, _⟩) ← condition stop r₁
  let (body, ⟨r₃, _⟩) ← block stop r₂
  return (.loop ⟨word.position, body.stop⟩ cond body, ⟨r₃, by omega⟩)
termination_by (ts.length, 0)

/-- Statements in braces. -/
def block (stop : Stop) (ts : List Token) : Parsed Node ts := call do
  let (opening, ⟨r₁, h₁⟩) ← expect stop (.symbol .lbrace) ts
  let (body, ⟨r₂, h₂⟩) ← statements stop r₁
  let (close, ⟨r₃, h₃⟩) ← expect stop (.symbol .rbrace) r₂
  return (.block ⟨opening.position, close.position⟩ body, ⟨r₃, length_lt_of_enclosed h₁ h₂ h₃⟩)
termination_by (ts.length, 3)

/-- Statements up to a closing brace. -/
def statements (stop : Stop) (ts : List Token) : Tried (List Node) ts := do
  if kind ts = .symbol .rbrace then return ([], .all ts)
  else
    let (first, ⟨r₁, h₁⟩) ← statement stop ts
    let (more, ⟨r₂, h₂⟩) ← statements stop r₁
    return (first :: more, ⟨r₂, length_le_of_more h₁ h₂⟩)
termination_by (ts.length, 2)

end

/-- Statements up to the end of the text. -/
def topLevel (stop : Stop) (ts : List Token) : Counted (List Node) :=
  match ts with
  | [] => pure []
  | t :: r => do
    let (first, ⟨r₁, _⟩) ← statement stop (t :: r)
    let more ← topLevel stop r₁
    return first :: more
termination_by ts.length
decreasing_by simp only [List.length_cons] at *; omega

/-- The places in a list of the statements that define functions. -/
def definitionIndexes (statements : List Node) : List Nat :=
  (List.range statements.length).filter fun i => (statements[i]?).any Node.isDefinition

end AudLang.Parser

open AudLang.Parser

namespace AudLang.Program

/-- The program that tokens spell, and how deep the rules of the grammar call one another for it. -/
def ofTokensCounted (tokens : Tokens) : Counted Node := do
  reach tokens.stop tokens.tokens
  let statements ← topLevel tokens.stop tokens.tokens
  let last := position tokens.stop []
  let first := (statements.head?.map Node.start).getD last
  return .program ⟨first, last⟩ (definitionIndexes statements) statements

/-- The program that tokens spell. -/
def ofTokens (tokens : Tokens) : Except ParseError Node := (ofTokensCounted tokens).result

/-- The program that a text spells, on a host with room for all calls. -/
def parse (limits : Limits) (text : String) : Except ParseError Node :=
  ofTokens (.ofString limits text)

end AudLang.Program
