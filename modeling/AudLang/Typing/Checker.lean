import AudLang.Typing.Members

/-!
The type checker.

A checker remembers the declared variables, the known functions and the type that the function
being checked promises.  `visit` goes through a tree; for an expression it gives the type, for
anything else `absent`.  A check that fails leaves the checker where it was when it failed, and the
next check goes on from there; a check that succeeds ends outside of every scope and function.

Trees in which a slot is empty or filled with the wrong kind of node make a check end in a fault.

`visit` nests as deep as the tree.  Here the host has room for that, however deep the tree is; only
the parser counts its nested calls.
-/

namespace AudLang

/-- What a type checker remembers. -/
structure Checker where
  /-- The scopes that are open, from the innermost outward, without the global one. -/
  inner : List Table := []
  /-- The global scope. -/
  global : Table := {}
  functions : Functions := .builtin
  /-- What the function being checked promises to return; absent outside of functions. -/
  returns : Ty := .absent
deriving DecidableEq, Repr, Inhabited

/-- How a check stops before its end. -/
inductive CheckStop where
  | flawed (flaw : TypeFlaw) (position : Position)
  | fault (fault : Fault)
deriving DecidableEq, Repr

/-- The line that reports why a check stopped.  What the host says behind the label of a fault is
left out. -/
def CheckStop.report : CheckStop → String
  | flawed flaw p => flaw.report p
  | fault f => s!"[Type Checker Internal Error] {f.label}"

/-- A step of checking. -/
abbrev Check := EStateM CheckStop Checker

namespace Checker

/-- All scopes that are open, from the innermost outward. -/
def scopes (k : Checker) : List Table := k.inner ++ [k.global]

/-- The type of a variable; absent if it is not declared. -/
def typeOf (k : Checker) (name : String) : Ty := Scopes.get k.scopes name

end Checker

namespace Check

/-- Stops with a flaw at a node; there is no place to report at an empty slot. -/
def flag (flaw : TypeFlaw) (at_ : Node) : Check α :=
  match at_.span? with
  | some s => throw (.flawed flaw s.start)
  | none => throw (.fault .noMember)

/-- The answer to a question that may be a fault. -/
def ask : Except Fault α → Check α
  | .ok a => pure a
  | .error f => throw (.fault f)

/-- Opens a scope. -/
def enter : Check Unit := modify fun k => { k with inner := {} :: k.inner }

/-- Closes the innermost scope; the global one stays open. -/
def exit : Check Unit := do
  let k ← get
  match k.inner with
  | _ :: outer => set { k with inner := outer }
  | [] => throw (.fault .unbalanced)

/-- Declares a variable in the innermost scope. -/
def declare (name : String) (type : Ty) (p : Position) : Check Unit := do
  let k ← get
  let flagged (r : Except TypeFlaw Table) : Check Table :=
    match r with
    | .ok t => pure t
    | .error flaw => throw (.flawed flaw p)
  match k.inner with
  | t :: outer => set { k with inner := (← flagged (t.declare name type)) :: outer }
  | [] => set { k with global := ← flagged (k.global.declare name type) }

/-- Makes a function known. -/
def register (name : String) (s : Signature) (p : Position) : Check Unit := do
  let k ← get
  match k.functions.register name s with
  | .ok f => set { k with functions := f }
  | .error flaw => throw (.flawed flaw p)

/-- Requires that `expected` accepts `actual`, and flags the node otherwise. -/
def require (expected actual : Ty) (flaw : TypeFlaw) (at_ : Node) : Check Unit := do
  unless ← ask (expected.accepts actual) do flag flaw at_

end Check

open Check

/-- The type that a type node names. -/
def Node.denotedType : Node → Except Fault Ty
  | .listType _ _ e => do return .list (← e.denotedType)
  | .type _ id | .construct _ id _ => .ok (.named id .absent)
  | _ => .error .noMember

/-- The type of a parameter. -/
def Node.parameterType : Node → Except Fault Ty
  | .parameter _ t _ => t.denotedType
  | _ => .error .noMember

/-- The signature of a definition with its name and its place. -/
def Node.signature : Node → Except Fault (String × Signature × Position)
  | .define s returns id parameters _ => do
    let ps ← parameters.mapM Node.parameterType
    return (id, ⟨ps, ← returns.denotedType⟩, s.start)
  | _ => .error .noMember

namespace Check

/-- The type of the expression at a node, from what visiting the node gives. -/
def typed (n : Node) (visited : Check Ty) : Check Ty := do
  match n with
  | .unknown _ kind => flag (.strangeExpression kind) n
  | _ =>
    let t ← visited
    if t.isPresent then return t else flag (.untyped n.kindName) n

/-- The type of an operation between two types; `none` if there is no such operation. -/
def operation (op : BinaryOp) (l r : Ty) : Except Fault (Option Ty) := do
  let both (b : Base) : Bool := l.hasBase b && r.hasBase b
  match op with
  | .add | .subtract | .multiply | .divide =>
    if both .int then return some .int
    else if both .float then return some .float
    else if op == .add && both .string then return some .string
    else return none
  | .equals | .notEquals =>
    if both .int || both .float || both .string || both .bool then return some .bool
    else if ← l.accepts r then return some .bool
    else if ← r.accepts l then return some .bool
    else return none
  | .less | .lessOrEqual | .greater | .greaterOrEqual =>
    if both .int || both .float || both .string || both .bool then return some .bool
    else return none
  | .and | .or => return some .bool

/-- The type of a binary operation whose operands have these types. -/
def binary (n : Node) (op : BinaryOp) (left right : Node) (l r : Ty) : Check Ty := do
  match op with
  | .and | .or =>
    require .bool l (.badLeft op l) left
    require .bool r (.badRight op r) right
    return .bool
  | _ =>
    match ← ask (operation op l r) with
    | some t => return t
    | none => flag (.badOperands op l r) n

/-- The type of the negation of a value. -/
def negation (n : Node) (t : Ty) : Check Ty :=
  if t.hasBase .int then pure .int
  else if t.hasBase .float then pure .float
  else flag (.badNegation t) n

/-- The type of the elements of a list once an element of type `t` has come after elements of type
`soFar`: the one of the two that accepts the other. -/
def join (n : Node) (index : Nat) (soFar t : Ty) : Check Ty := do
  let keeps ← ask (soFar.accepts t)
  if keeps then return soFar
  else if ← ask (t.accepts soFar) then return t
  else flag (.badElement index t soFar) n

/-- The type of a member of an object of type `t`. -/
def property (n object : Node) (t : Ty) (field : String) : Check Ty :=
  if t.hasBase .null then flag (.nullMember field) object
  else match t.property? field with
    | some p => pure p
    | none => flag (.noProperty t field) n

/-- The signature of a method of an object of type `t`. -/
def method (target object : Node) (t : Ty) (name : String) : Check Signature :=
  if t.hasBase .null then flag (.nullMethod name) object
  else match t.method? name with
    | some s => pure s
    | none => flag (.noMethod t name) target

/-- The signature of a function that is called by its name. -/
def function (target : Node) (name : String) : Check Signature := do
  match (← get).functions.get? name with
  | some s => return s
  | none => flag (.undefined name) target

/-- The name by which the flaws of a call mention what is called. -/
def calledName : Node → Except Fault String
  | .name _ id => .ok id
  | _ => .error .noMember

mutual

/-- Goes through a tree and gives the type of an expression. -/
def visit : Node → Check Ty
  | .missing => throw (.fault .noMember)
  | n@(.unknown _ kind) => flag (.strangeNode kind) n
  | .int .. => pure .int
  | .float .. => pure .float
  | .string .. => pure .string
  | .bool .. => pure .bool
  | .null .. => pure .null
  | n@(.name _ id) => do
    let t := (← get).typeOf id
    if t.isPresent then return t else flag (.undeclared id) n
  | .list _ [] => pure (.list .null)
  | .list _ (e :: es) => do
    let first ← typed e (visit e)
    return .list (← elements 2 first es)
  | n@(.binary _ op left right) => do
    let l ← typed left (visit left)
    let r ← typed right (visit right)
    binary n op left right l r
  | n@(.negate _ e) => do negation n (← typed e (visit e))
  | n@(.call _ target args) => do
    let s ← callee target
    if args.length = s.parameters.length then
      arguments (calledName target) 1 args s.parameters
      return s.returns
    else
      flag (.argumentCount (← ask (calledName target)) s.parameters.length args.length) n
  | n@(.member _ object field) => do
    let t ← typed object (visit object)
    property n object t field
  | n@(.construct _ id args) =>
    match args with
    | [a] => do
      let t ← typed a (visit a)
      require .string t (.constructorArgument id t) a
      return .named id .absent
    | _ => flag (.constructorCount id args.length) n
  | .type .. | .listType .. | .parameter .. | .program .. => pure .absent
  | .block _ statements => do
    enter
    visitAll statements
    exit
    return .absent
  | .declare s type id value => do
    let declared ← ask type.denotedType
    let t ← typed value (visit value)
    require declared t (.badInitialiser t id declared) value
    declare id declared s.start
    return .absent
  | .branch _ condition onTrue onFalse => do
    let t ← typed condition (visit condition)
    require .bool t (.badCondition .branch t) condition
    discard (visit onTrue)
    if onFalse.isPresent then discard (visit onFalse)
    return .absent
  | .loop _ condition body => do
    let t ← typed condition (visit condition)
    require .bool t (.badCondition .loop t) condition
    discard (visit body)
    return .absent
  | .assign _ target value => do
    let expected ←
      match target with
      | .name _ id => do
        let t := (← get).typeOf id
        if t.isPresent then pure t else flag (.undeclaredTarget id) target
      | .member .. => typed target (visit target)
      | _ => flag .badTarget target
    let t ← typed value (visit value)
    require expected t (.badAssignment t expected) value
    return .absent
  | n@(.giveBack _ value) => do
    let promised := (← get).returns
    unless promised.isPresent do flag .strayReturn n
    let t ← if value.isPresent then typed value (visit value) else pure .void
    -- the promise is read again: what stands in the slot may have changed it
    let promised := (← get).returns
    require promised t (.badReturn promised t) n
    return .absent
  | .callStatement _ call =>
    match call with
    | .call .. => do
      discard (visit call)
      return .absent
    | _ => throw (.fault .noMember)
  | .expressionStatement _ e => do
    discard (typed e (visit e))
    return .absent
  | .define _ returns _ parameters body => do
    let before := (← get).returns
    let promised ← ask returns.denotedType
    modify fun k => { k with returns := promised }
    enter
    declareAll parameters
    discard (visit body)
    exit
    modify fun k => { k with returns := before }
    return .absent

/-- The signature of what a call calls. -/
def callee : Node → Check Signature
  | n@(.member _ object name) => do
    let t ← typed object (visit object)
    method n object t name
  | n@(.name _ id) => function n id
  | n => flag (.uncallable n.kindName) n

/-- Goes through statements in order. -/
def visitAll : List Node → Check Unit
  | [] => pure ()
  | n :: ns => do
    discard (visit n)
    visitAll ns

/-- The type of the elements of a list, given the type of those before and the number of the
next. -/
def elements (index : Nat) (soFar : Ty) : List Node → Check Ty
  | [] => pure soFar
  | n :: ns => do
    let t ← typed n (visit n)
    elements (index + 1) (← join n index soFar t) ns

/-- Goes through the arguments of a call, the next of which has the number `index`. -/
def arguments (called : Except Fault String) (index : Nat) : List Node → List Ty → Check Unit
  | a :: as, expected :: rest => do
    let t ← typed a (visit a)
    unless ← ask (expected.accepts t) do
      flag (.badArgument index (← ask called) expected t) a
    arguments called (index + 1) as rest
  | _, _ => pure ()

/-- Declares the parameters of a function. -/
def declareAll : List Node → Check Unit
  | [] => pure ()
  | p@(.parameter s _ id) :: ps => do
    let t ← ask p.parameterType
    match id with
    | .plain x => declare x t s.start
    | .token _ => throw (.fault .wrongKind)
    declareAll ps
  | _ :: _ => throw (.fault .noMember)

end

/-- Makes the definitions of a program known. -/
def registerAll : List Node → Check Unit
  | [] => pure ()
  | d :: ds => do
    let (name, s, p) ← ask d.signature
    register name s p
    registerAll ds

/-- Checks a program. -/
def program : Node → Check Unit
  | n@(.program _ _ statements) => do
    registerAll n.definitions
    visitAll statements
    modify fun k => { k with inner := [], returns := .absent }
  | _ => throw (.fault .noMember)

end Check

/-- Checks a program: what is printed, and the checker afterwards. -/
def Checker.check (k : Checker) (program : Node) : String × Checker :=
  match Check.program program k with
  | .ok _ k' => ("", k')
  | .error stop k' => (stop.report ++ "\n", k')

end AudLang
