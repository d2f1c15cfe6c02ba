import AudLang.Machine.Builtins
import AudLang.Machine.Operators
import AudLang.Node.Dump

/-!
Running programs.

`visit` goes through a tree: an expression makes its value the last one, a statement makes null the
last value.  A return statement only notes that a return is under way; the blocks and loops around
it then end, up to the call that takes the value.

Visiting is recursion on the tree.  Two things go beyond it and are handed in: `body`, which visits
the body of a function that is called, and `fuel`, the number of rounds that a single loop may take.
Calls nest at most as deep as the machine allows, so that `bodyAt` is recursion on that depth.  A
run can therefore be exhausted only by a loop.

The host has room for all nested visits here, however deep a tree is; of the calls that a program
makes, the machine allows only so many.
-/

namespace AudLang

/-- The name that a definition is known by. -/
def Node.definedName : Node → Except Fault String
  | .define _ _ id _ _ | .declare _ _ id _ => .ok id
  | _ => .error .noMember

/-- The name of the type that a function promises to return. -/
def Node.returnTypeName : Node → Except Fault String
  | .type _ id | .construct _ id _ => .ok id
  | .listType .. => .ok "List"
  | _ => .error .noMember

namespace Run

/-- Repeats a step as long as a condition holds and no return is under way. -/
def iterate (condition : Run Bool) (step : Run Unit) : Nat → Run Unit
  | 0 => throw .exhausted
  | fuel + 1 => do
    if ← condition then
      step
      if (← get).returning.isNone then iterate condition step fuel

/-- Does the value that a step computes count as true? -/
def holds (step : Run Unit) : Run Bool := do return (← value (← valueOf step)).isTrue

/-- Declares the parameters of a function with the arguments of a call.  What is left over on either
side is left alone. -/
def declareParameters : List Node → List Ref → Run Unit
  | .parameter s _ (.plain x) :: ps, r :: rs => do
    declare x r s.start
    declareParameters ps rs
  | .parameter _ _ (.token _) :: _, _ :: _ => fault .wrongKind
  | _ :: _, _ :: _ => fault .noMember
  | _, _ => return ()

/-- Takes the value that a call of a function has returned; a simple value is copied. -/
def takeReturned (function type : String) (p : Position) (returned : Option Ref) : Run Unit := do
  if type = "void" then
    if let some r := returned then
      unless (← value r).isNull do fail (.returnsValue function) p
    give .null
  else
    match returned with
    | none => fail (.returnsNothing function type) p
    | some r => setLast (← if (← value r).isSimple then clone r else pure r)

/-- Calls a function that a program has defined. -/
def invoke (body : Node → Run Unit) (n : Node) (args : List Ref) (p : Position) : Run Unit := do
  match n with
  | .define s returns id parameters block => do
    pushContext id p
    declareParameters parameters args
    body block
    let returned := (← get).returning
    modify fun m => { m with returning := none }
    takeReturned id (← ask returns.returnTypeName) s.start returned
    popContext
  | _ => fail (.notAFunction (← ask n.dump)) p

/-- Calls a function by its name. -/
def callNamed (body : Node → Run Unit) (name : String) (args : List Ref) (namePlace p : Position) :
    Run Unit := do
  match ← callee name namePlace with
  | .builtin b => setLast (← callBuiltin b args p)
  | .defined n => invoke body n args p

/-- Constructs a file, a folder or an audio value. -/
def construct (type : String) (args : List Ref) (p : Position) : Run Unit := do
  match type with
  | "File" => setLast (← openFile (← pathText (← contentOf args 0)) none p)
  | "Folder" => setLast (← openFolder (← pathText (← contentOf args 0)) p)
  | "Audio" => setLast (← openAudio (← pathText (← contentOf args 0)) none p)
  | _ => fail (.unknownConstructor type) p

/-- A member of a value that must not be null. -/
def requireObject (r : Ref) (member : String) (p : Position) : Run Unit := do
  if (← value r).isNull then fail (.nullMember member) p

/-- Makes the definitions of a program known. -/
def registerAll : List Node → Run Unit
  | [] => return ()
  | n :: ns => do
    register (← ask n.definedName) n
    registerAll ns

mutual

/-- Visits a tree. -/
def visit (body : Node → Run Unit) (fuel : Nat) : Node → Run Unit
  | .missing => fault .noMember
  | n@(.unknown _ kind) => fail (.strangeNode kind) n.start
  | .int _ v => give (.int v)
  | .float _ v => give (.float v)
  | .string _ v => give (.text v)
  | .bool _ v => give (.bool v)
  | .null _ => give .null
  | .name s id => do setLast (← cellOf id s.start)
  | .list _ es => do
    let rs ← values body fuel es
    let type ←
      match rs with
      | r :: _ => pure (← value r).typeName
      | [] => pure "unknown"
    give (.list type rs)
  | .binary _ .and left right => do
    if ← holds (visit body fuel left) then give (.bool (← holds (visit body fuel right)))
    else give (.bool false)
  | .binary _ .or left right => do
    if ← holds (visit body fuel left) then give (.bool true)
    else give (.bool (← holds (visit body fuel right)))
  | .binary s op left right => do
    let l ← valueOf (visit body fuel left)
    let r ← valueOf (visit body fuel right)
    operate op l r s.start
  | .negate s e => do negate (← valueOf (visit body fuel e)) s.start
  | .call s (.member _ object field) args => do
    let rs ← values body fuel args
    let o ← valueOf (visit body fuel object)
    requireObject o field object.start
    setLast (← callMethod o field rs s.start)
  | .call s (.name t id) args => do
    let rs ← values body fuel args
    callNamed body id rs t.start s.start
  | .call _ target args => do
    let _ ← values body fuel args
    fail (.uncallable target.kindName) target.start
  | .member s object field => do
    let o ← valueOf (visit body fuel object)
    requireObject o field object.start
    setLast (← getAttribute o field s.start)
  | .construct s type args => do construct type (← values body fuel args) s.start
  | .type .. | .listType .. | .parameter .. => return ()
  | .block _ statements => do
    enter
    visitBlock body fuel statements
    exit
  | .declare s _ id value => do
    declare id (← valueOf (visit body fuel value)) s.start
    give .null
  | .branch _ condition onTrue onFalse => do
    if ← holds (visit body fuel condition) then visit body fuel onTrue
    else if onFalse.isPresent then visit body fuel onFalse
    give .null
  | .loop _ condition step => do
    iterate (holds (visit body fuel condition)) (visit body fuel step) fuel
    give .null
  | .assign _ (.name s id) value => do
    assign id (← valueOf (visit body fuel value)) s.start
    give .null
  | .assign _ (.member s object field) value => do
    visit body fuel value
    setAttribute (← valueOf (visit body fuel object)) field s.start
    give .null
  | .assign _ target value => do
    visit body fuel value
    fail .badTarget target.start
  | .giveBack _ value => do
    let r ← if value.isPresent then valueOf (visit body fuel value) else nothing
    modify fun m => { m with returning := some r }
  | .callStatement _ e | .expressionStatement _ e => do
    visit body fuel e
    give .null
  | .define .. => give .null
  | n@(.program _ _ statements) => do
    registerAll n.definitions
    visitTop body fuel statements

/-- Visits expressions in order and collects their values. -/
def values (body : Node → Run Unit) (fuel : Nat) : List Node → Run (List Ref)
  | [] => return []
  | n :: ns => do
    let r ← valueOf (visit body fuel n)
    return r :: (← values body fuel ns)

/-- Visits the statements of a block in order, up to a return. -/
def visitBlock (body : Node → Run Unit) (fuel : Nat) : List Node → Run Unit
  | [] => return ()
  | n :: ns => do
    visit body fuel n
    if (← get).returning.isNone then visitBlock body fuel ns

/-- Visits the statements of a program in order, leaving out definitions.  A return has no place
here. -/
def visitTop (body : Node → Run Unit) (fuel : Nat) : List Node → Run Unit
  | [] => return ()
  | n :: ns => do
    unless n.isDefinition do
      visit body fuel n
      if (← get).returning.isSome then fail .strayReturn n.start
    visitTop body fuel ns

end

/-- Visits the body of a function from which calls may nest `depth` deep. -/
def bodyAt (fuel : Nat) : Nat → Node → Run Unit
  | 0, _ => throw .exhausted
  | depth + 1, n => visit (bodyAt fuel depth) fuel n

/-- Visits a tree on a machine that limits the depth of calls by itself. -/
def tree (fuel : Nat) (n : Node) : Run Unit := do
  visit (bodyAt fuel (← get).depthLimit.toNat) fuel n

end Run

/-- How a run ends. -/
inductive Ending where
  /-- At the end of the program, with the value that was computed last. -/
  | finished (value : Ref)
  | stopped (stop : Stop)
deriving DecidableEq, Repr

namespace Machine

/-- Runs a program.  The reason why it stops before its end is printed. -/
def interpret (fuel : Nat) (m : Machine) (program : Node) : Ending × Machine :=
  match Run.tree fuel program m with
  | .ok _ m' => (.finished m'.last, m')
  | .error stop m' => (.stopped stop, { m' with output := m'.output ++ stop.report ++ "\n" })

end Machine

end AudLang
