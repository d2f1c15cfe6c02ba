import AudLang.Position

/-!
Syntax trees.

One type holds every node, because a tree handed in from outside may be incomplete or put together
wrongly: any node may stand in any slot, and `missing` marks a slot that is empty.  Printing,
checking and running are defined on all such trees.  The trees of the grammar are those that
`Program.parse` builds.
-/

namespace AudLang

/-- The operators between two operands. -/
inductive BinaryOp where
  | add | subtract | multiply | divide
  | equals | notEquals | less | lessOrEqual | greater | greaterOrEqual
  | and | or
deriving DecidableEq, Repr

namespace BinaryOp

/-- The spelling of an operator. -/
def symbol : BinaryOp → String
  | add => "+" | subtract => "-" | multiply => "*" | divide => "/"
  | equals => "==" | notEquals => "!=" | less => "<" | lessOrEqual => "<="
  | greater => ">" | greaterOrEqual => ">=" | and => "&&" | or => "||"

/-- The name of the operator's nodes. -/
def nodeName : BinaryOp → String
  | add => "AddNode" | subtract => "SubtractNode" | multiply => "MultiplyNode"
  | divide => "DivideNode" | equals => "EqualsNode" | notEquals => "NotEqualsNode"
  | less => "LessThanNode" | lessOrEqual => "LessThanOrEqualNode"
  | greater => "GreaterThanNode" | greaterOrEqual => "GreaterThanOrEqualNode"
  | and => "LogicalAndNode" | or => "LogicalOrNode"

end BinaryOp

/-- The name in a parameter: plain text in the trees of the grammar; a tree from outside may hold a
whole identifier token there. -/
inductive ParameterName where
  | plain (name : String)
  | token (name : String)
deriving DecidableEq, Repr

/-- A syntax tree. -/
inductive Node where
  /-- An empty slot. -/
  | missing
  /-- A node of a kind the language does not know. -/
  | unknown (span : Span) (kind : String)
  | int (span : Span) (value : Int)
  | float (span : Span) (value : Float)
  | string (span : Span) (value : String)
  | bool (span : Span) (value : Bool)
  | null (span : Span)
  | name (span : Span) (id : String)
  | list (span : Span) (elements : List Node)
  | binary (span : Span) (op : BinaryOp) (left right : Node)
  | negate (span : Span) (operand : Node)
  | call (span : Span) (target : Node) (arguments : List Node)
  | member (span : Span) (object : Node) (field : String)
  | construct (span : Span) (type : String) (arguments : List Node)
  | type (span : Span) (id : String)
  | listType (span : Span) (id : String) (element : Node)
  | block (span : Span) (statements : List Node)
  | declare (span : Span) (type : Node) (id : String) (value : Node)
  /-- The last slot is missing when there is no other branch. -/
  | branch (span : Span) (condition onTrue onFalse : Node)
  | loop (span : Span) (condition body : Node)
  | assign (span : Span) (target value : Node)
  /-- The slot is missing when nothing is returned. -/
  | giveBack (span : Span) (value : Node)
  | callStatement (span : Span) (call : Node)
  | expressionStatement (span : Span) (expression : Node)
  | parameter (span : Span) (type : Node) (id : ParameterName)
  | define (span : Span) (returns : Node) (id : String) (parameters : List Node) (body : Node)
  /-- The statements, and which of them are the definitions to be known from the start. -/
  | program (span : Span) (definitions : List Nat) (statements : List Node)
deriving Repr, Inhabited

namespace Node

/-- The name of a node's kind. -/
def kindName : Node → String
  | missing => "NoneType"
  | unknown _ kind => kind
  | int .. => "IntLiteralNode"
  | float .. => "FloatLiteralNode"
  | string .. => "StringLiteralNode"
  | bool .. => "BoolLiteralNode"
  | null .. => "NullLiteralNode"
  | name .. => "IdentifierNode"
  | list .. => "ListLiteralNode"
  | binary _ op .. => op.nodeName
  | negate .. => "UnaryMinusNode"
  | call .. => "FunctionCallNode"
  | member .. => "MemberAccessNode"
  | construct .. => "ConstructorCallNode"
  | type .. => "TypeNode"
  | listType .. => "ListTypeNode"
  | block .. => "CodeBlockNode"
  | declare .. => "VariableDeclarationNode"
  | branch .. => "IfStatementNode"
  | loop .. => "WhileLoopNode"
  | assign .. => "AssignmentNode"
  | giveBack .. => "ReturnStatementNode"
  | callStatement .. => "FunctionCallStatementNode"
  | expressionStatement .. => "ExpressionStatementNode"
  | parameter .. => "ParameterNode"
  | define .. => "FunctionDefinitionNode"
  | program .. => "ProgramNode"

/-- Where a node stands; an empty slot stands nowhere. -/
def span? : Node → Option Span
  | missing => none
  | unknown s _ | int s _ | float s _ | string s _ | bool s _ | null s | name s _ | list s _
  | binary s .. | negate s _ | call s .. | member s .. | construct s .. | type s _ | listType s ..
  | block s _ | declare s .. | branch s .. | loop s .. | assign s .. | giveBack s _
  | callStatement s _ | expressionStatement s _ | parameter s .. | define s .. | program s .. =>
    some s

/-- Where a node stands; the origin for an empty slot. -/
def span (n : Node) : Span := n.span?.getD ⟨⟨0, 0⟩, ⟨0, 0⟩⟩

/-- Where a node begins. -/
def start (n : Node) : Position := n.span.start

/-- Where a node ends. -/
def stop (n : Node) : Position := n.span.stop

/-- Is the slot filled? -/
def isPresent : Node → Bool
  | missing => false
  | _ => true

/-- The definitions of a program that are to be known from the start. -/
def definitions : Node → List Node
  | program _ indexes statements => indexes.filterMap (statements[·]?)
  | _ => []

/-- Is the node a function definition? -/
def isDefinition : Node → Bool
  | define .. => true
  | _ => false

end Node

end AudLang
