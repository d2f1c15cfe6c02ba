import AudLang.CommandLine.Session

/-!
The command line.

The working folder is read into a tree of files, the session is computed, and what has changed in
the tree is written back.
-/

namespace AudLang.Main

/-- Reads the entries of a folder and what is below them. -/
partial def snapshot (location : Location) (tree : Tree) (entries : Array IO.FS.DirEntry) :
    IO Tree := do
  let mut tree := tree
  for e in entries do
    let inner := location ++ [e.fileName]
    if ← e.path.isDir then tree ← snapshot inner (tree.put inner .folder) (← e.path.readDir)
    else
      let bytes ← IO.FS.readBinFile e.path
      tree := tree.put inner (.file bytes.toList)
  return tree

/-- The path of a location. -/
def pathOf (l : Location) : String := "/" ++ "/".intercalate l

/-- Writes back what has changed. -/
def restore (old new : Tree) : IO Unit := do
  for (l, e) in old.entries do
    if e ≠ .folder && (new.get? l).isNone then IO.FS.removeFile (pathOf l)
  for (l, e) in new.entries do
    if let .file bytes := e then
      if old.get? l ≠ some e then IO.FS.writeBinFile (pathOf l) ⟨bytes.toArray⟩

end AudLang.Main

open AudLang AudLang.Main

/-- Runs a session in the working folder.  What is typed is read to its end before a program
runs. -/
def main (args : List String) : IO UInt32 := do
  let home ← IO.currentDir
  let location := (Path.components home.toString).filter (· ≠ "")
  let tree ← snapshot location (({} : Tree).makeFolders location) (← home.readDir)
  let typed ← if CommandLine.takesInput args then (← IO.getStdin).readToEnd else pure ""
  let outcome := CommandLine.session (Nat.pow 2 62) args { tree, home := location } typed
  restore tree outcome.files.tree
  IO.print outcome.output
  return outcome.status.toUInt32
