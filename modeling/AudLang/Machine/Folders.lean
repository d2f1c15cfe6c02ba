import AudLang.Machine.Recordings

/-!
Folders as values.

A folder value keeps track of the file values that were added to it or moved into it; what is in the
folder on disk is looked up whenever it is asked for.
-/

namespace AudLang.Run

/-- A new value for the folder at a path. -/
def openFolder (path : String) (p : Position) : Run Ref := do
  let fs ← files
  let absolute := fs.absolute path
  if fs.isFolder absolute then
    alloc (.folder { path := absolute, name := Path.base path, files := [], isDeleted := false })
  else fail (.folderNotFound path) p

/-- Does something else when a step stops with an error of the program. -/
def orElseOnError (step other : Run Ref) : Run Ref :=
  tryCatch step fun
    | .failed .. => other
    | stop => throw stop

/-- The file with a name in a folder: audio if it can be loaded, null if there is none. -/
def getFile (r : Ref) (d : FolderObject) (args : List Ref) (p : Position) : Run Ref := do
  let path := Path.join d.path (← pathText (← contentOf args 0))
  if (← files).isFile path then orElseOnError (openAudio path (some r) p) (openFile path (some r) p)
  else nothing

/-- Adds a file to a folder.  A file that lies elsewhere is copied, and its value then stands for
the copy. -/
def addFile (r : Ref) (d : FolderObject) (args : List Ref) (p : Position) : Run Ref := do
  let added ← argument args 0
  let f ← usableFile added "add_file" p
  let fs ← files
  if fs.absolute (Path.folder f.path) ≠ d.path then
    let path := Path.join d.path f.name
    match fs.copy f.path path with
    | .ok fs => do
      setFiles fs
      updateFile added fun f => { f with path }
    | .error (.refused e) => fault e.fault
    | .error e => fail (.addFailed f.name d.path e.message) p
  if let some parent := f.parent then
    if parent ≠ r then untrack parent added
  track r added
  nothing

/-- The first of some files that has a name and belongs to a folder. -/
def ownedNamed (folder : Ref) (name : String) : List Ref → Run (Option Ref)
  | [] => return none
  | r :: rs => do
    match (← value r).file? with
    | some f => if f.name = name && f.parent = some folder then return some r
    | none => pure ()
    ownedNamed folder name rs

/-- Removes the file with a name from a folder, and marks the first value known for it as
deleted. -/
def removeFile (r : Ref) (d : FolderObject) (args : List Ref) (p : Position) : Run Ref := do
  let content ←
    match args with
    | [a] =>
      match ← value a with
      | .string content => pure content
      | _ => fail .removeArguments p
    | _ => fail .removeArguments p
  let name ← pathText content
  let path := Path.join d.path name
  let fs ← files
  if fs.isFile path then
    match fs.remove path with
    | .ok fs => setFiles fs
    | .error e => fault e.fault
    if let some file ← ownedNamed r name d.files then
      untrack r file
      updateFile file fun f => { f with parent := none, isDeleted := true }
    nothing
  else fail (.notInFolder name d.path) p

/-- A new list of values. -/
def newList (elementType : String) (elements : List Ref) : Run Ref :=
  alloc (.list elementType elements)

/-- The paths of what is in a folder, in order. -/
def pathsIn (d : FolderObject) : Run (List String) := do
  return ((← files).names d.path).map (Path.join d.path)

/-- Values for the files in a folder. -/
def listFiles (r : Ref) (d : FolderObject) (p : Position) : Run Ref := do
  let fs ← files
  let paths := (← pathsIn d).filter fs.isFile
  newList "File" (← paths.mapM fun path => openFile path (some r) p)

/-- Values for the folders in a folder. -/
def listFolders (d : FolderObject) (p : Position) : Run Ref := do
  let fs ← files
  let paths := (← pathsIn d).filter fs.isFolder
  newList "Folder" (← paths.mapM fun path => openFolder path p)

/-- The audio value for a path, if the sound can be loaded. -/
def openAudio? (path : String) (parent : Option Ref) (p : Position) : Run (Option Ref) :=
  tryCatch (do return some (← openAudio path parent p)) fun
    | .failed .. => return none
    | stop => throw stop

/-- Values for the audio files in a folder. -/
def listAudio (r : Ref) (d : FolderObject) (p : Position) : Run Ref := do
  let fs ← files
  let paths := (← pathsIn d).filter fs.isFile
  newList "Audio" (← paths.filterMapM fun path => openAudio? path (some r) p)

/-- The folder with a name in a folder; null if there is none. -/
def getFolder (d : FolderObject) (args : List Ref) (p : Position) : Run Ref := do
  let path := Path.join d.path (← pathText (← contentOf args 0))
  if (← files).isFolder path then openFolder path p else nothing

/-- The name of a folder; null if it has none. -/
def folderName (d : FolderObject) : Run Ref :=
  if d.name.isEmpty then nothing else alloc (.text d.name)

/-- Calls a method of a folder. -/
def callFolder (r : Ref) (d : FolderObject) (name : String) (args : List Ref) (p : Position) :
    Run Ref := do
  checkFolder d name p
  match name with
  | "get_file" => getFile r d args p
  | "add_file" => addFile r d args p
  | "remove_file" => removeFile r d args p
  | "list_files" => listFiles r d p
  | "list_subfolders" => listFolders d p
  | "list_audio" => listAudio r d p
  | "get_subfolder" => getFolder d args p
  | "get_name" => folderName d
  | _ => fail (.noMethod "Folder" name) p

/-- The value of an attribute of a folder.  No folder counts as a root. -/
def folderAttribute (r : Ref) (d : FolderObject) (name : String) (p : Position) : Run Ref := do
  checkFolder d s!"accessing attribute '{name}'" p
  match name with
  | "is_root" => alloc (.bool false)
  | "files" => listFiles r d p
  | "subfolders" => listFolders d p
  | "name" => folderName d
  | _ => fail (.noAttribute "Folder" name) p

end AudLang.Run
