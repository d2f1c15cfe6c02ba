import AudLang.Files.Path

/-!
The tree of files.

A location is the list of the names that lead to it from the root.  The tree keeps what is at each
location; the root is always a folder.
-/

namespace AudLang

/-- What a file holds. -/
abbrev Bytes := List UInt8

/-- The names that lead from the root to a place in the tree. -/
abbrev Location := List String

/-- What can be at a location. -/
inductive Entry where
  | folder
  | file (bytes : Bytes)
deriving DecidableEq, Repr, Inhabited

/-- The entries of the tree with their locations, no location twice. -/
structure Tree where
  entries : List (Location × Entry) := []
deriving DecidableEq, Repr, Inhabited

namespace Tree

/-- What is at a location. -/
def get? (t : Tree) (l : Location) : Option Entry :=
  if l = [] then some .folder else t.entries.lookup l

/-- Takes away what is at a location. -/
def erase (t : Tree) (l : Location) : Tree := ⟨t.entries.filter (·.1 ≠ l)⟩

/-- Puts something at a location in place of what was there. -/
def put (t : Tree) (l : Location) (e : Entry) : Tree := ⟨(l, e) :: (t.erase l).entries⟩

/-- Takes away what is at a location and below it. -/
def prune (t : Tree) (l : Location) : Tree := ⟨t.entries.filter fun (k, _) => !l.isPrefixOf k⟩

/-- The names of what is directly below a location, in order. -/
def names (t : Tree) (l : Location) : List String :=
  let name? (k : Location) : Option String :=
    if k.dropLast = l then k.getLast? else none
  (t.entries.filterMap fun (k, _) => name? k).mergeSort fun a b => !decide (b < a)

/-- Makes folders of a location and of all that lead to it, where there is nothing yet. -/
def makeFolders (t : Tree) (l : Location) : Tree :=
  (List.range (l.length + 1)).foldl
    (fun t n => if (t.get? (l.take n)).isSome then t else t.put (l.take n) .folder) t

end Tree

end AudLang
