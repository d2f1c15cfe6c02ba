import AudLang.Node
import AudLang.Typing.Ty

/-!
What can be wrong with the types of a program, and how it is said.
-/

namespace AudLang

/-- The condition of which statement? -/
inductive Conditional where
  | branch
  | loop
deriving DecidableEq, Repr

/-- A flaw in the types of a program. -/
inductive TypeFlaw where
  /-- A variable is declared twice in one scope. -/
  | redeclared (name : String)
  /-- A function is defined twice. -/
  | redefined (name : String)
  /-- A node of a kind that cannot be checked stands for an expression. -/
  | strangeExpression (kind : String)
  /-- A node of a kind that cannot be checked stands for a statement. -/
  | strangeNode (kind : String)
  /-- A node that has no type stands for an expression. -/
  | untyped (kind : String)
  /-- A variable is declared with a value that it cannot hold. -/
  | badInitialiser (value : Ty) (name : String) (declared : Ty)
  /-- A variable that is not declared is assigned to. -/
  | undeclaredTarget (name : String)
  /-- Neither a variable nor a member is assigned to. -/
  | badTarget
  /-- A target is assigned a value that it cannot hold. -/
  | badAssignment (value target : Ty)
  /-- A condition is not a truth value. -/
  | badCondition (of : Conditional) (actual : Ty)
  /-- A return stands outside of every function. -/
  | strayReturn
  /-- A function returns what it does not promise. -/
  | badReturn (declared actual : Ty)
  /-- A variable that is not declared is used. -/
  | undeclared (name : String)
  /-- An element (counted from one) does not fit the elements before it. -/
  | badElement (index : Nat) (actual expected : Ty)
  /-- A constructor is given more or less than one argument. -/
  | constructorCount (type : String) (actual : Nat)
  /-- A constructor is given something that is not a string. -/
  | constructorArgument (type : String) (actual : Ty)
  /-- An operator is applied to operands that it does not take. -/
  | badOperands (op : BinaryOp) (left right : Ty)
  /-- The left operand of a logical operator is not a truth value. -/
  | badLeft (op : BinaryOp) (actual : Ty)
  /-- The right operand of a logical operator is not a truth value. -/
  | badRight (op : BinaryOp) (actual : Ty)
  /-- Something that is not a number is negated. -/
  | badNegation (actual : Ty)
  /-- A method of null is called. -/
  | nullMethod (method : String)
  /-- A type has no such method. -/
  | noMethod (type : Ty) (method : String)
  /-- A function that is not known is called. -/
  | undefined (name : String)
  /-- Neither a function nor a method is called. -/
  | uncallable (kind : String)
  /-- A call has too many or too few arguments. -/
  | argumentCount (name : String) (expected actual : Nat)
  /-- An argument (counted from one) is not what the function takes. -/
  | badArgument (index : Nat) (name : String) (expected actual : Ty)
  /-- A member of null is accessed. -/
  | nullMember (member : String)
  /-- A type has no such property. -/
  | noProperty (type : Ty) (member : String)
deriving DecidableEq, Repr

namespace TypeFlaw

/-- What is said about a flaw. -/
def message : TypeFlaw → String
  | redeclared x => s!"Variable '{x}' already declared in this scope."
  | redefined f => s!"Function '{f}' already defined."
  | strangeExpression k => s!"TypeChecker has no visitor method for expression type: {k}"
  | strangeNode k => s!"TypeChecker has no visitor method for AST node type: {k}"
  | untyped k => s!"Internal TypeChecker Error: Visitor for {k} did not return a TypeSignature."
  | badInitialiser v x t =>
    s!"Cannot assign expression of type '{v.text}' to variable '{x}' of type '{t.text}'."
  | undeclaredTarget x => s!"Undeclared variable '{x}' referenced."
  | badTarget => "Invalid left-hand side in assignment. Must be an identifier or member access."
  | badAssignment v t =>
    s!"Cannot assign expression of type '{v.text}' to target of type '{t.text}'."
  | badCondition .branch t => s!"If statement condition must be of type 'bool', got '{t.text}'."
  | badCondition .loop t => s!"While loop condition must be of type 'bool', got '{t.text}'."
  | strayReturn => "Return statement used outside of a function."
  | badReturn d t =>
    s!"Function declared to return '{d.text}', but attempting to return '{t.text}'."
  | undeclared x => s!"Undeclared identifier '{x}'."
  | badElement i t e =>
    "List literal elements must be of compatible types. " ++
      s!"Element {i} has type '{t.text}', expected compatible with '{e.text}'."
  | constructorCount c n => s!"Constructor '{c}' expects 1 argument, got {n}."
  | constructorArgument c t => s!"Constructor '{c}' expects a 'string' argument, got '{t.text}'."
  | badOperands op l r =>
    s!"Operator '{op.symbol}' not defined for types '{l.text}' and '{r.text}'."
  | badLeft op t => s!"Left operand of '{op.symbol}' must be 'bool', got '{t.text}'."
  | badRight op t => s!"Right operand of '{op.symbol}' must be 'bool', got '{t.text}'."
  | badNegation t => s!"Unary minus cannot be applied to type '{t.text}'."
  | nullMethod m => s!"Attempted to call method '{m}' on a null object."
  | noMethod t m => s!"Type '{t.text}' has no method '{m}'."
  | undefined f => s!"Undefined function '{f}' called."
  | uncallable k =>
    s!"Cannot call expression of type {k}. Must be an identifier or member access."
  | argumentCount f n k => s!"Function/method '{f}' expected {n} arguments, but got {k}."
  | badArgument i f e t =>
    s!"Argument {i} for function/method '{f}': expected type '{e.text}', got '{t.text}'."
  | nullMember m => s!"Attempted to access member '{m}' on a null object."
  | noProperty t m => s!"Type '{t.text}' has no accessible property '{m}'."

/-- The line that reports a message about types at a place. -/
def reportText (message : String) (p : Position) : String := p.report s!"Type checking: {message}"

/-- The line that reports a flaw at a place. -/
def report (flaw : TypeFlaw) (p : Position) : String := reportText flaw.message p

end TypeFlaw

end AudLang
