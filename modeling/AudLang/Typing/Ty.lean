import AudLang.Fault

/-!
Types.

A type is a base and, for a list, the type of the elements.  `absent` stands where there is no type:
as the element type of whatever is not a list, and as the result of looking up an unknown name.

`accepts` is the rule by which a value of one type may stand where another is expected.  Lists are
covariant, files accept audio, and everything that is an object accepts null.  Whether something is
accepted is a question about two types; asked about `absent` it is a fault.
-/

namespace AudLang

/-- What a type is called. -/
inductive Base where
  | int | float | bool | string | void | null | file | folder | audio | list
  /-- A name that is not one of the language's types. -/
  | other (name : String)
deriving DecidableEq, Repr

namespace Base

/-- The spelling of a base. -/
def name : Base → String
  | int => "int" | float => "float" | bool => "bool" | string => "string" | void => "void"
  | null => "null" | file => "File" | folder => "Folder" | audio => "Audio" | list => "List"
  | other n => n

/-- The base with this spelling. -/
def ofName (n : String) : Base :=
  match n with
  | "int" => int | "float" => float | "bool" => bool | "string" => string | "void" => void
  | "null" => null | "File" => file | "Folder" => folder | "Audio" => audio | "List" => list
  | _ => other n

/-- May null stand for a value of this base? -/
def isNullable : Base → Bool
  | file | folder | audio | list | string => true
  | _ => false

end Base

/-- A type, or the absence of one. -/
inductive Ty where
  | absent
  | of (base : Base) (element : Ty)
deriving DecidableEq, Repr, Inhabited

namespace Ty

/-- The type with this base that is not a list of anything. -/
abbrev plain (b : Base) : Ty := of b absent

abbrev int : Ty := plain .int
abbrev float : Ty := plain .float
abbrev bool : Ty := plain .bool
abbrev string : Ty := plain .string
abbrev void : Ty := plain .void
abbrev null : Ty := plain .null
abbrev file : Ty := plain .file
abbrev folder : Ty := plain .folder
abbrev audio : Ty := plain .audio

/-- The type of the lists of `element`. -/
abbrev list (element : Ty) : Ty := of .list element

/-- The base of a type. -/
def base? : Ty → Option Base
  | absent => none
  | of b _ => some b

/-- The type of the elements; absent for whatever is not a list. -/
def element : Ty → Ty
  | absent => absent
  | of _ e => e

/-- Is there a type? -/
def isPresent : Ty → Bool
  | absent => false
  | of .. => true

/-- Has the type this base? -/
def hasBase (t : Ty) (b : Base) : Bool := t.base? == some b

/-- The text of a type. -/
def text : Ty → String
  | absent => "None"
  | of .list absent => "List"
  | of .list e@(of ..) => s!"List<{e.text}>"
  | of b _ => b.name

/-- The type that a name stands for, given the type of the elements if it is a list. -/
def named (n : String) (element : Ty) : Ty :=
  match Base.ofName n with
  | .list => list element
  | .other _ => absent
  | b => plain b

/-- May a value of the second type stand where the first is expected? -/
def accepts : Ty → Ty → Except Fault Bool
  | absent, _ => .error .noMember
  | of .., absent => .error .noMember
  | of .list a, of .list b => accepts a b
  | of a _, of b _ =>
    .ok (a = b || (a = .void && b = .null) || (a = .file && b = .audio)
      || (b = .null && a.isNullable))

end Ty

end AudLang
