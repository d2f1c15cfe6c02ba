import AudLang.Files.Access
import AudLang.Limits
import AudLang.Machine.Error
import AudLang.Value.Basic

/-!
The machine that runs programs.

A machine has a store of values, a context for the module and one for each function call that has
not ended, the functions that programs have defined, and the world around it: input, output and
files.  It remembers the value that was computed last and the value that is being returned, if a
return is under way.

Scopes keep their variables in the order of declaration.  A name is looked up in the scopes of the
current context from the innermost outward and then, inside a call, in the base scope of the module.
-/

namespace AudLang

/-- The variables of a scope with their cells, in the order of declaration. -/
structure Scope where
  bindings : List (String × Ref) := []
deriving DecidableEq, Repr, Inhabited

namespace Scope

/-- The cell of a variable. -/
def get? (s : Scope) (name : String) : Option Ref := s.bindings.lookup name

/-- Is the variable declared here? -/
def has (s : Scope) (name : String) : Bool := (s.get? name).isSome

/-- Adds a variable. -/
def add (s : Scope) (name : String) (r : Ref) : Scope := ⟨s.bindings ++ [(name, r)]⟩

/-- Makes a variable name another cell. -/
def rebind (s : Scope) (name : String) (r : Ref) : Scope :=
  ⟨s.bindings.map fun (x, old) => (x, if x = name then r else old)⟩

end Scope

/-- The scopes of a function call or of the module. -/
structure Context where
  name : String
  /-- The scopes of the blocks that are open, from the innermost outward. -/
  inner : List Scope := []
  base : Scope := {}
deriving DecidableEq, Repr, Inhabited

namespace Context

/-- All scopes from the innermost outward. -/
def scopes (c : Context) : List Scope := c.inner ++ [c.base]

/-- The cell of a variable of this context. -/
def get? (c : Context) (name : String) : Option Ref := c.scopes.findSome? (·.get? name)

/-- The innermost scope. -/
def current (c : Context) : Scope := c.inner.headD c.base

/-- Adds a variable to the innermost scope. -/
def add (c : Context) (name : String) (r : Ref) : Context :=
  match c.inner with
  | s :: outer => { c with inner := s.add name r :: outer }
  | [] => { c with base := c.base.add name r }

/-- Rebinds a variable in the innermost of some scopes that declares it. -/
def rebindIn (name : String) (r : Ref) : List Scope → Option (List Scope)
  | [] => none
  | s :: outer =>
    if s.has name then some (s.rebind name r :: outer)
    else (rebindIn name r outer).map (s :: ·)

/-- Rebinds a variable of this context. -/
def rebind (c : Context) (name : String) (r : Ref) : Option Context :=
  match rebindIn name r c.inner with
  | some inner => some { c with inner }
  | none => if c.base.has name then some { c with base := c.base.rebind name r } else none

end Context

/-- Where lines of input come from. -/
inductive Input where
  /-- Lines that were handed over beforehand. -/
  | lines (rest : List String)
  /-- A text that is read line by line, as a stream hands it over: if the stream folds line ends,
  they are folded in it. -/
  | text (rest : List Char)
deriving DecidableEq, Repr, Inhabited

/-- A machine. -/
structure Machine where
  store : Store := ⟨#[.null]⟩
  /-- The value that was computed last. -/
  last : Ref := 0
  /-- The value of the return that is under way. -/
  returning : Option Ref := none
  module : Context := { name := "<module>" }
  /-- The calls that have not ended, from the innermost outward. -/
  calls : List Context := []
  /-- The functions that programs have defined, in the order of their definition. -/
  functions : List (String × Node) := []
  /-- How many contexts there may be. -/
  depthLimit : Int := 50
  input : Input := .text []
  output : String := ""
  files : Files := {}
deriving Inhabited

/-- A step of a machine. -/
abbrev Run := EStateM Stop Machine

namespace Machine

/-- The context of the innermost call, or of the module. -/
def current (m : Machine) : Context := m.calls.headD m.module

/-- Changes the current context. -/
def updateCurrent (m : Machine) (f : Context → Context) : Machine :=
  match m.calls with
  | c :: outer => { m with calls := f c :: outer }
  | [] => { m with module := f m.module }

/-- All contexts from the module inward. -/
def contexts (m : Machine) : List Context := m.module :: m.calls.reverse

/-- The scopes in which a name is looked up, in this order. -/
def visible (m : Machine) : List Scope :=
  match m.calls with
  | c :: _ => c.scopes ++ [m.module.base]
  | [] => m.module.scopes

/-- The cell of a variable. -/
def lookup? (m : Machine) (name : String) : Option Ref := m.visible.findSome? (·.get? name)

/-- Rebinds a variable in the first of the visible scopes that declares it. -/
def rebind (m : Machine) (name : String) (r : Ref) : Machine :=
  match m.calls with
  | [] => { m with module := (m.module.rebind name r).getD m.module }
  | c :: outer =>
    match c.rebind name r with
    | some c' => { m with calls := c' :: outer }
    | none => { m with module := { m.module with base := m.module.base.rebind name r } }

end Machine

namespace Run

/-- Stops with an error at a place. -/
def fail (e : RunError) (p : Position) : Run α := throw (.failed e (some p))

/-- Stops with an error whose place is not known here. -/
def failSomewhere (e : RunError) : Run α := throw (.failed e none)

/-- Stops with a fault. -/
def fault (f : Fault) : Run α := throw (.fault f)

/-- The answer to a question that may be a fault. -/
def ask : Except Fault α → Run α
  | .ok a => pure a
  | .error f => fault f

/-! ## Values -/

/-- The value in a cell. -/
def value (r : Ref) : Run Value := do return (← get).store.get r

/-- Writes a value into a cell. -/
def put (r : Ref) (v : Value) : Run Unit := modify fun m => { m with store := m.store.put r v }

/-- Opens a new cell for a value. -/
def alloc (v : Value) : Run Ref :=
  modifyGet fun m => (m.store.next, { m with store := m.store.push v })

/-- The content of a simple value. -/
def datum (r : Ref) : Run Datum := do
  match (← value r).datum? with
  | some d => return d
  | none => fault .noMember

/-- The value that was computed last. -/
def last : Run Ref := do return (← get).last

/-- Sets the value that was computed last. -/
def setLast (r : Ref) : Run Unit := modify fun m => { m with last := r }

/-- Makes a new value the one that was computed last. -/
def give (v : Value) : Run Unit := do setLast (← alloc v)

/-- What a step computes. -/
def valueOf (step : Run Unit) : Run Ref := do
  step
  last

/-! ## Names -/

/-- Declares a variable in the innermost scope of the current context. -/
def declare (name : String) (r : Ref) (p : Position) : Run Unit := do
  if (← get).current.current.has name then fail (.redeclared name) p
  else modify fun m => m.updateCurrent (·.add name r)

/-- The cell of a variable. -/
def cellOf (name : String) (p : Position) : Run Ref := do
  match (← get).lookup? name with
  | some r => return r
  | none => fail (.undeclared name) p

/-- Assigns to a variable.  A simple value of the same kind is written into the variable's cell,
where all who share the cell see it; anything else makes the variable name another cell. -/
def assign (name : String) (r : Ref) (p : Position) : Run Unit := do
  let target ← cellOf name p
  let v ← value r
  if (← value target).fits v then put target v
  else modify fun m => m.rebind name r

/-- Opens a scope in the current context. -/
def enter : Run Unit := modify fun m => m.updateCurrent fun c => { c with inner := {} :: c.inner }

/-- Closes the innermost scope of the current context; the base scope stays open. -/
def exit : Run Unit := do
  match (← get).current.inner with
  | _ :: outer => modify fun m => m.updateCurrent fun c => { c with inner := outer }
  | [] => fault .unbalanced

/-- Opens a context for a function call. -/
def pushContext (name : String) (p : Position) : Run Unit := do
  let m ← get
  if m.depthLimit ≤ m.calls.length + 1 then fail (.tooDeep m.depthLimit) p
  else modify fun m => { m with calls := { name } :: m.calls }

/-- Closes the context of the innermost call. -/
def popContext : Run Unit := do
  match (← get).calls with
  | _ :: outer => modify fun m => { m with calls := outer }
  | [] => fault .unbalanced

/-! ## The world -/

/-- The files around the machine. -/
def files : Run Files := do return (← get).files

/-- Replaces the files around the machine. -/
def setFiles (f : Files) : Run Unit := modify fun m => { m with files := f }

/-- Prints a line. -/
def printLine (s : String) : Run Unit := modify fun m => { m with output := m.output ++ s ++ "\n" }

end Run

end AudLang
