import AudLang.Decimal.Shortest
import AudLang.Decimal.Whole
import AudLang.Fault
import AudLang.Node
import AudLang.Text.Quoted

/-!
Trees as indented outlines.

A printer walks through a tree and prints a line for each node and for the slots of a node.  It
keeps the level it is at, which it raises before it goes into a slot and lowers behind it.  A tree
that is put together wrongly may have a node that cannot be written: the outline then ends in a
fault.  The host has room for the nested visits of any tree here.
-/

namespace AudLang

/-- A line of an outline. -/
structure Line where
  depth : Int
  text : String
deriving DecidableEq, Repr

/-- A line behind as many indents as its depth, none below zero. -/
def Line.render (indent : String) (l : Line) : String :=
  String.join (List.replicate l.depth.toNat indent) ++ l.text

/-- Lines, and the fault that ended them, if any. -/
structure Outline where
  lines : List Line
  fault : Option Fault := none
deriving Repr

/-- The text of an outline. -/
def Outline.render (indent : String) (o : Outline) : String :=
  String.join (o.lines.map fun l => l.render indent ++ "\n")

/-- A printer of trees: the level it is at, and the lines that it has printed. -/
structure Printer where
  level : Int
  lines : List Line

/-- Printing, which may end in a fault. -/
abbrev Print := EStateM Fault Printer

namespace Node

/-- The name of a type as it stands in the line of a function. -/
def typeText : Node → Except Fault String
  | type _ id => .ok id
  | listType _ _ element => (typeText element).map fun s => s!"List<{s}>"
  | unknown .. => .error .noMember
  | _ => .error .wrongKind

/-- A name in a parameter; a token shows as a token. -/
def parameterText : ParameterName → String
  | .plain s => s
  | .token s => s!"Token(IDENTIFIER, {Text.quoted s}, Ln 1, Col 1)"

/-- A parameter as it stands in the line of a function. -/
def parameterLabel : Node → Except Fault String
  | parameter _ t id => (typeText t).map fun shown => s!"{parameterText id}: {shown}"
  | _ => .error .noMember

/-- The line of a function. -/
def definitionLabel (returns : Node) (id : String) (parameters : List Node) :
    Except Fault String := do
  let params ← parameters.mapM parameterLabel
  let result ← typeText returns
  let shown := ", ".intercalate params
  return s!"FunctionDefinitionNode: {id}({shown}) -> {result}"

/-- A string literal is shown quoted, and cut when that is longer than thirty characters. -/
def literalText (s : String) : String :=
  let shown := (Text.quoted s).toList
  String.ofList (if 30 < shown.length then shown.take 27 ++ ['.', '.', '.', '\''] else shown)

/-- A whole number, unless its text would be too long. -/
def wholeLabel (n : Int) : Except Fault String :=
  match Decimal.wholeText? n with
  | some s => .ok s!"IntLiteralNode: {s}"
  | none => .error .badValue

/-- The spelling of truth values in outlines. -/
def boolText (b : Bool) : String := if b then "True" else "False"

end Node

namespace Print

/-- Goes one level deeper. -/
def raise : Print Unit := modify fun p => { p with level := p.level + 1 }

/-- Goes back by one level. -/
def lower : Print Unit := modify fun p => { p with level := p.level - 1 }

/-- Prints a line one level deeper than the printer is at. -/
def line (text : String) : Print Unit := do
  raise
  modify fun p => { p with lines := p.lines ++ [⟨p.level, text⟩] }
  lower

/-- A line whose text may fail. -/
def label : Except Fault String → Print Unit
  | .ok text => line text
  | .error f => throw f

/-- Prints the nodes of a slot that may hold any number of them, under a title. -/
def listed (title none : String) (isEmpty : Bool) (nodes : Print Unit) : Print Unit :=
  if isEmpty then line s!"{title}: ({none})"
  else do
    line s!"{title}:"
    raise
    nodes
    lower

mutual

/-- Prints a tree. -/
def visit : Node → Print Unit
  | .missing => line "(None)"
  | .unknown .. => throw .noMember
  | .int _ n => label (Node.wholeLabel n)
  | .float _ x => line s!"FloatLiteralNode: {Decimal.floatText x}"
  | .string _ s => line s!"StringLiteralNode: {Node.literalText s}"
  | .bool _ b => line s!"BoolLiteralNode: {Node.boolText b}"
  | .null _ => line "NullLiteralNode"
  | .name _ id => line s!"IdentifierNode: {id}"
  | .list _ elements => do
    line "ListLiteralNode:"
    raise
    listed "Elements" "empty" elements.isEmpty (visitAll elements)
    lower
  | .binary _ op left right => do
    line s!"{op.nodeName}: {op.symbol}"
    raise
    line "Left:"
    raise
    visit left
    lower
    line "Right:"
    raise
    visit right
    lower
    lower
  | .negate _ operand => do
    line "UnaryMinusNode: -"
    raise
    line "Operand:"
    visit operand
    lower
  | .call _ target arguments => do
    line "FunctionCallNode:"
    raise
    line "FunctionName/Access:"
    raise
    visit target
    lower
    listed "Arguments" "none" arguments.isEmpty (visitAll arguments)
    lower
  | .member _ object field => do
    line s!"MemberAccessNode: . {field}"
    raise
    line "Object:"
    raise
    visit object
    lower
    lower
  | .construct _ id arguments => do
    line s!"ConstructorCallNode: new {id}"
    raise
    listed "Arguments" "none" arguments.isEmpty (visitAll arguments)
    lower
  | .type _ id => line s!"TypeNode: {id}"
  | .listType _ _ element =>
    label ((Node.typeText element).map fun s => s!"ListTypeNode: List<{s}>")
  | .block _ statements => do
    line "CodeBlockNode:"
    raise
    visitAll statements
    lower
  | .declare _ t id value => do
    line s!"VariableDeclarationNode: {id}"
    raise
    line "Type:"
    raise
    visit t
    lower
    line "Value:"
    raise
    visit value
    lower
    lower
  | .branch _ condition onTrue onFalse => do
    line "IfStatementNode:"
    raise
    line "Condition:"
    raise
    visit condition
    lower
    line "IfBlock:"
    raise
    visit onTrue
    lower
    if onFalse.isPresent then
      line "ElseBlock:"
      raise
      visit onFalse
      lower
      lower
    else lower
  | .loop _ condition body => do
    line "WhileLoopNode:"
    raise
    line "Condition:"
    visit condition
    line "Body:"
    visit body
    lower
  | .assign _ target value => do
    line "AssignmentNode:"
    raise
    line "Target:"
    visit target
    line "Value:"
    visit value
    lower
  | .giveBack _ value => do
    line "ReturnStatementNode:"
    raise
    if value.isPresent then
      visit value
      lower
    else
      line " (no value)"
      lower
  | .callStatement _ e => do
    line "FunctionCallStatementNode:"
    raise
    visit e
    lower
  | .expressionStatement _ e => do
    line "ExpressionStatementNode:"
    raise
    visit e
    lower
  | .parameter _ t id =>
    match id with
    | .plain _ => throw .noMember
    | .token s => do
      line s!"ParameterNode: {s}"
      raise
      visit t
      lower
  | .define _ returns id parameters body => do
    label (Node.definitionLabel returns id parameters)
    raise
    visit body
    lower
  | .program _ _ statements => do
    line "ProgramNode:"
    raise
    visitAll statements
    lower

/-- Prints trees one after another. -/
def visitAll : List Node → Print Unit
  | [] => pure ()
  | n :: r => do
    visit n
    visitAll r

end

end Print

/-- The outline of a node at a depth: what a printer one level above prints. -/
def Node.outline (d : Int) (n : Node) : Outline :=
  match Print.visit n ⟨d - 1, []⟩ with
  | .ok _ p => ⟨p.lines, none⟩
  | .error f p => ⟨p.lines, some f⟩

end AudLang
