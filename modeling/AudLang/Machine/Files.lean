import AudLang.Machine.Basic

/-!
Files as values.

A file value remembers the path of its file.  Before anything is done with it, the file must still
be there and must not have been deleted through the program.
-/

namespace AudLang.Run

/-! ## Arguments -/

/-- The argument with a number, counted from zero. -/
def argument (args : List Ref) (i : Nat) : Run Ref := do
  match args[i]? with
  | some r => return r
  | none => fault .noArgument

/-- The content of an argument, which must be a simple value. -/
def contentOf (args : List Ref) (i : Nat) : Run Datum := do datum (← argument args i)

/-- The text that is to be used in a path. -/
def pathText : Datum → Run String
  | .text s => pure s
  | _ => fault .wrongKind

/-! ## Access -/

/-- What is known of the file at a path, which must be there. -/
def findFile (path : String) (parent : Option Ref) (p : Position) : Run FileObject := do
  let fs ← files
  let absolute := fs.absolute path
  if fs.isFile absolute then
    return { path := absolute, name := Path.base absolute, parent, isDeleted := false }
  else fail (.fileNotFound path) p

/-- A new value for the file at a path. -/
def openFile (path : String) (parent : Option Ref) (p : Position) : Run Ref := do
  alloc (.file (← findFile path parent p))

/-- Requires that a file can still be used. -/
def checkFile (f : FileObject) (operation : String) (p : Position) : Run Unit := do
  let fs ← files
  if f.isDeleted then fail (.deletedFile operation f.name) p
  else if !fs.doesExist f.path then fail (.fileGone f.name f.path) p
  else if !fs.isFile f.path then fail (.noLongerFile f.name f.path) p

/-- Requires that a folder can still be used. -/
def checkFolder (d : FolderObject) (operation : String) (p : Position) : Run Unit := do
  let fs ← files
  if d.isDeleted then fail (.deletedFolder operation d.path) p
  else if !fs.doesExist d.path then fail (.folderGone d.path) p
  else if !fs.isFolder d.path then fail (.noLongerFolder d.path) p

/-- Requires that a value is a file that can still be used. -/
def usableFile (r : Ref) (operation : String) (p : Position) : Run FileObject := do
  match ← value r with
  | .file f | .audio f _ => do
    checkFile f operation p
    return f
  | .folder d => do
    checkFolder d operation p
    fault .noMember
  | _ => fault .noMember

/-! ## Changes -/

/-- Changes what is known of a file. -/
def updateFile (r : Ref) (change : FileObject → FileObject) : Run Unit := do
  match ← value r with
  | .file f => put r (.file (change f))
  | .audio f a => put r (.audio (change f) a)
  | _ => return ()

/-- Changes what is known of a folder. -/
def updateFolder (r : Ref) (change : FolderObject → FolderObject) : Run Unit := do
  match ← value r with
  | .folder d => put r (.folder (change d))
  | _ => return ()

/-- A folder forgets a file. -/
def untrack (folder file : Ref) : Run Unit :=
  updateFolder folder fun d => { d with files := d.files.erase file }

/-- A folder takes a file as its own, unless it has it already. -/
def track (folder file : Ref) : Run Unit := do
  match ← value folder with
  | .folder d =>
    unless d.files.contains file do
      put folder (.folder { d with files := d.files ++ [file] })
      updateFile file fun f => { f with parent := some folder, isDeleted := false }
  | _ => return ()

/-- A new null. -/
def nothing : Run Ref := alloc .null

/-! ## Methods -/

/-- Gives a file another name, which may lead into another folder. -/
def renameFile (r : Ref) (f : FileObject) (args : List Ref) (p : Position) : Run Ref := do
  let name ← pathText (← contentOf args 0)
  let path := Path.join (Path.folder f.path) name
  match (← files).rename f.path path with
  | .ok fs => do
    setFiles fs
    updateFile r fun f => { f with path, name }
    nothing
  | .error .unreadable => fault .badValue
  | .error e => fail (.renameFailed f.name name (e.reportBetween f.path path)) p

/-- Moves a file into a folder, to which it then belongs. -/
def moveFile (r : Ref) (f : FileObject) (args : List Ref) (p : Position) : Run Ref := do
  let target ← argument args 0
  match ← value target with
  | .folder d => do
    checkFolder d s!"move file into '{d.path}'" p
    let path := Path.join d.path f.name
    match (← files).move f.path path with
    | .ok fs => do
      setFiles fs
      if let some parent := f.parent then untrack parent r
      updateFile r fun f => { f with parent := some target }
      track target r
      updateFile r fun f => { f with path }
      nothing
    | .error (.refused e) => fault e.fault
    | .error e => fail (.moveFailed f.name d.path e.message) p
  | _ => fault .noMember

/-- Deletes a file. -/
def deleteFile (r : Ref) (f : FileObject) : Run Ref := do
  match (← files).remove f.path with
  | .ok fs => setFiles fs
  | .error e => fault e.fault
  if let some parent := f.parent then untrack parent r
  updateFile r fun f => { f with parent := none, isDeleted := true }
  nothing

/-- Calls a method that every file has. -/
def callFile (r : Ref) (v : Value) (f : FileObject) (name : String) (args : List Ref)
    (p : Position) : Run Ref := do
  checkFile f name p
  match name with
  | "get_filename" => if args.isEmpty then alloc (.text f.name) else fail .filenameArguments p
  | "change_filename" => renameFile r f args p
  | "move" => moveFile r f args p
  | "delete" => deleteFile r f
  | _ => fail (.noMethod v.typeName name) p

/-- The value of an attribute that every file has. -/
def fileAttribute (v : Value) (f : FileObject) (name : String) (p : Position) : Run Ref := do
  checkFile f s!"accessing attribute '{name}'" p
  match name with
  | "filename" => alloc (.text f.name)
  | "parent" =>
    match f.parent with
    | some d => return d
    | none => nothing
  | _ => fail (.noAttribute v.typeName name) p

end AudLang.Run
