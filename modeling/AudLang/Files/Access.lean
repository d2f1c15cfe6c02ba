import AudLang.Files.Error
import AudLang.Files.Tree

/-!
Reaching files by their paths.

A path is walked from the root, or from the working folder if it is relative, one component after
the other; every step needs a folder to go on from.  Operations either succeed or leave everything
as it was.
-/

namespace AudLang

/-- The tree of files, and the folder from which relative paths are read. -/
structure Files where
  tree : Tree := {}
  home : Location := []
deriving DecidableEq, Repr, Inhabited

/-- What a path that is to name a file leads to. -/
structure Target where
  /-- The folder that the last component is looked up in. -/
  folder : Location
  /-- The last component, if it is a name and not the root, a dot or two dots. -/
  name : Option String
  /-- Is there a slash after the last component? -/
  hasSlash : Bool
deriving DecidableEq, Repr

namespace Files

/-- The longest name of a file, and the longest path, in bytes. -/
def nameLimit : Nat := 255
def pathLimit : Nat := 4095

/-- The path of the working folder. -/
def homePath (f : Files) : String := "/" ++ "/".intercalate f.home

/-- The absolute path in normal form that a text names. -/
def absolute (f : Files) (p : String) : String := Path.absolute f.homePath p

/-- Goes on from a location by one component. -/
def step (f : Files) (l : Location) (c : String) : Except Refusal Location :=
  match f.tree.get? l with
  | none => .error .noEntry
  | some (.file _) => .error .notFolder
  | some .folder =>
    if c = "" || c = "." then .ok l
    else if c = ".." then .ok l.dropLast
    else if c.utf8ByteSize > nameLimit then .error .nameTooLong
    else .ok (l ++ [c])

/-- Where a path starts; some texts are no paths at all. -/
def start (f : Files) (p : String) : Except Refusal Location :=
  if p.toList.contains (Char.ofNat 0) then .error .unreadable
  else if p = "" then .error .noEntry
  else if p.utf8ByteSize > pathLimit then .error .nameTooLong
  else .ok (if Path.isAbsolute p then [] else f.home)

/-- Walks a path to its end, where there may be nothing. -/
def locate (f : Files) (p : String) : Except Refusal Location := do
  (Path.components p).foldlM f.step (← f.start p)

/-- What is at the end of a path. -/
def entry (f : Files) (p : String) : Except Refusal Entry := do
  match f.tree.get? (← f.locate p) with
  | some e => .ok e
  | none => .error .noEntry

/-- Is there anything at a path? -/
def doesExist (f : Files) (p : String) : Bool := (f.entry p).isOk

/-- Is there a file at a path? -/
def isFile (f : Files) (p : String) : Bool :=
  match f.entry p with
  | .ok (.file _) => true
  | _ => false

/-- Is there a folder at a path? -/
def isFolder (f : Files) (p : String) : Bool :=
  match f.entry p with
  | .ok .folder => true
  | _ => false

/-- The names in a folder, in order. -/
def names (f : Files) (p : String) : List String :=
  match f.locate p with
  | .ok l => f.tree.names l
  | .error _ => []

/-- Walks a path up to its last component. -/
def target (f : Files) (p : String) : Except Refusal Target := do
  let comps := (Path.components p).reverse
  let named := comps.dropWhile (· = "")
  let folder ← named.tail.reverse.foldlM f.step (← f.start p)
  match f.tree.get? folder with
  | none => .error .noEntry
  | some (.file _) => .error .notFolder
  | some .folder =>
    let name := named.head?.filter fun c => c ≠ "." && c ≠ ".."
    .ok ⟨folder, name, named.length < comps.length⟩

/-- The location that a target names. -/
def targetLocation (t : Target) (name : String) : Except Refusal Location :=
  if name.utf8ByteSize > nameLimit then .error .nameTooLong else .ok (t.folder ++ [name])

/-- What a file holds. -/
def read (f : Files) (p : String) : Except Refusal Bytes := do
  match ← f.entry p with
  | .file b => .ok b
  | .folder => .error .isFolder

/-- Writes a file, which is made if it is not there. -/
def write (f : Files) (p : String) (b : Bytes) : Except Refusal Files := do
  let t ← f.target p
  match t.name with
  | none => .error .isFolder
  | some name =>
    let l ← targetLocation t name
    if t.hasSlash || f.tree.get? l = some .folder then .error .isFolder
    else .ok { f with tree := f.tree.put l (.file b) }

/-- Takes away a file. -/
def remove (f : Files) (p : String) : Except Refusal Files := do
  let l ← f.locate p
  match f.tree.get? l with
  | none => .error .noEntry
  | some .folder => .error .isFolder
  | some (.file _) => .ok { f with tree := f.tree.erase l }

/-- Gives a file another path.  A file that is there already is replaced, a folder is not. -/
def rename (f : Files) (source destination : String) : Except Refusal Files := do
  let s ← f.target source
  let d ← f.target destination
  match s.name, d.name with
  | some sn, some dn =>
    let sl ← targetLocation s sn
    match f.tree.get? sl with
    | none => .error .noEntry
    | some .folder => .error .isFolder
    | some (.file b) =>
      let dl ← targetLocation d dn
      if s.hasSlash || d.hasSlash then .error .notFolder
      else if dl = sl then .ok f
      else if dl.isPrefixOf sl then .error .notEmpty
      else if f.tree.get? dl = some .folder then .error .isFolder
      else .ok { f with tree := (f.tree.erase sl).put dl (.file b) }
  | _, _ => .error .busy

/-- Do two paths lead to the same thing? -/
def same (f : Files) (p q : String) : Bool :=
  match f.locate p, f.locate q with
  | .ok a, .ok b => a = b && (f.tree.get? a).isSome
  | _, _ => false

/-- How copying or moving a file fails. -/
inductive Failure where
  | refused (refusal : Refusal)
  /-- A file cannot be copied onto itself. -/
  | same (source destination : String)
  /-- There is something already where a file is to be moved to. -/
  | occupied (path : String)
deriving DecidableEq, Repr

/-- The answer of an operation that is refused or not. -/
def plainly : Except Refusal α → Except Failure α
  | .ok a => .ok a
  | .error r => .error (.refused r)

/-- Copies a file; into the folder if the destination is one. -/
def copy (f : Files) (source destination : String) : Except Failure Files := do
  let destination :=
    if f.isFolder destination then Path.join destination (Path.base source) else destination
  if f.same source destination then .error (.same source destination)
  else
    let b ← plainly (f.read source)
    match f.write destination b with
    | .ok f' => .ok f'
    | .error r =>
      .error (.refused (if r = .isFolder && !f.doesExist destination then .noEntry else r))

/-- Moves a file; into the folder if the destination is one.  Where renaming does not do, the file
is copied and then taken away. -/
def move (f : Files) (source destination : String) : Except Failure Files := do
  let into := f.isFolder destination
  let destination := if into then Path.join destination (Path.lastName source) else destination
  if into && f.doesExist destination then .error (.occupied destination)
  else
    match f.rename source destination with
    | .ok f' => .ok f'
    | .error _ => do plainly ((← f.copy source destination).remove source)

namespace Failure

/-- What is said about a failure. -/
def message : Failure → String
  | refused r => r.message
  | same s d => s!"{Text.quoted s} and {Text.quoted d} are the same file"
  | occupied p => s!"Destination path '{p}' already exists"

end Failure

end Files

end AudLang
