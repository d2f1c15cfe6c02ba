import AudLang.Text.Quoted
import AudLang.Typing.Flaw

/-!
Tables of declared names.

A table keeps its names in the order of their declaration, and no name twice.
-/

namespace AudLang

/-- What a function takes and gives back. -/
structure Signature where
  parameters : List Ty
  returns : Ty
deriving DecidableEq, Repr

/-- The variables of one scope with their types, in the order of declaration. -/
structure Table where
  entries : List (String × Ty) := []
deriving DecidableEq, Repr, Inhabited

namespace Table

/-- The declared names. -/
def names (t : Table) : List String := t.entries.map Prod.fst

/-- The type of a variable of this scope; absent if there is none. -/
def get (t : Table) (name : String) : Ty := (t.entries.lookup name).getD .absent

/-- Declares a variable; a name can be declared only once in a scope. -/
def declare (t : Table) (name : String) (type : Ty) : Except TypeFlaw Table :=
  if name ∈ t.names then .error (.redeclared name) else .ok ⟨t.entries ++ [(name, type)]⟩

/-- A line that shows which variables a table has, and whether it lies inside another. -/
def describe (t : Table) (isInner : Bool) : String :=
  let inner := if isInner then "Yes" else "No"
  s!"SymbolTable(vars={Text.bracketed (t.names.map Text.quoted)}, parent={inner})"

end Table

/-- The type of a variable in the innermost of some scopes that declares it. -/
def Scopes.get (scopes : List Table) (name : String) : Ty :=
  match scopes.find? (name ∈ ·.names) with
  | some t => t.get name
  | none => .absent

/-- The functions that are known, in the order in which they became known. -/
structure Functions where
  entries : List (String × Signature) := []
deriving DecidableEq, Repr, Inhabited

namespace Functions

/-- The signature of a function. -/
def get? (f : Functions) (name : String) : Option Signature := f.entries.lookup name

/-- Makes a function known; its name must be new. -/
def register (f : Functions) (name : String) (s : Signature) : Except TypeFlaw Functions :=
  if (f.get? name).isSome then .error (.redefined name) else .ok ⟨f.entries ++ [(name, s)]⟩

end Functions

end AudLang
