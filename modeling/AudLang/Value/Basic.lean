import AudLang.Value.Datum

/-!
Values and the store that holds them.

Every value lives in a cell of the store and is known by the number of its cell, so that it can be
shared: variables, elements of lists and owners of files name cells.  Cells are never given back.
-/

namespace AudLang

/-- The number of a cell. -/
abbrev Ref := Nat

/-- What a program knows of a file. -/
structure FileObject where
  path : String
  name : String
  /-- The folder that the file belongs to. -/
  parent : Option Ref
  isDeleted : Bool
deriving DecidableEq, Repr, Inhabited

/-- What a program knows of a folder. -/
structure FolderObject where
  path : String
  name : String
  /-- The files that are known to belong to the folder. -/
  files : List Ref
  isDeleted : Bool
deriving DecidableEq, Repr, Inhabited

/-- What a program knows of the sound in a file. -/
structure Recording where
  /-- In milliseconds. -/
  length : Int
  /-- In kilobits per second. -/
  bitrate : Int
  title : Datum
deriving Repr, Inhabited

/-- A value. -/
inductive Value where
  | int (n : Int)
  | float (x : Float)
  /-- A string holds a text, unless it is a title that was changed to something else. -/
  | string (d : Datum)
  | bool (b : Bool)
  | null
  | list (elementType : String) (elements : List Ref)
  | file (f : FileObject)
  | audio (f : FileObject) (r : Recording)
  | folder (d : FolderObject)
  /-- A value that programs can only pass around. -/
  | other (type : String)
deriving Repr, Inhabited

namespace Value

/-- The string with this text. -/
abbrev text (s : String) : Value := string (.text s)

/-- The name of a value's type. -/
def typeName : Value → String
  | int _ => "int"
  | float _ => "float"
  | string _ => "string"
  | bool _ => "bool"
  | null => "null"
  | list t _ => s!"List<{t}>"
  | file _ => "File"
  | audio .. => "Audio"
  | folder _ => "Folder"
  | other t => t

/-- The content of a simple value. -/
def datum? : Value → Option Datum
  | int n => some (.int n)
  | float x => some (.float x)
  | string d => some d
  | bool b => some (.bool b)
  | null => some .nothing
  | _ => none

/-- Does a value count as true?  All do but false and null. -/
def isTrue : Value → Bool
  | bool b => b
  | null => false
  | _ => true

/-- Is the value null? -/
def isNull : Value → Bool
  | null => true
  | _ => false

/-- The file that a value is, if it is one. -/
def file? : Value → Option FileObject
  | file f | audio f _ => some f
  | _ => none

/-- Is the value a number, a string or a truth value? -/
def isSimple : Value → Bool
  | int _ | float _ | string _ | bool _ => true
  | _ => false

/-- Are both values simple and of one kind, so that one can be written over the other? -/
def fits : Value → Value → Bool
  | int _, int _ | float _, float _ | string _, string _ | bool _, bool _ => true
  | _, _ => false

end Value

/-- The cells with the values in them. -/
structure Store where
  cells : Array Value := #[]
deriving Repr, Inhabited

namespace Store

/-- The value in a cell. -/
def get (s : Store) (r : Ref) : Value := s.cells.getD r .null

/-- Writes a value into a cell. -/
def put (s : Store) (r : Ref) (v : Value) : Store := ⟨s.cells.setIfInBounds r v⟩

/-- The number of the next new cell. -/
def next (s : Store) : Ref := s.cells.size

/-- Opens a new cell for a value. -/
def push (s : Store) (v : Value) : Store := ⟨s.cells.push v⟩

end Store

end AudLang
