/-!
Paths as texts.

A path is a text whose components are divided by slashes.  These functions look at the text alone;
what is found at a path is the business of the file tree.
-/

namespace AudLang.Path

/-- The components of a path: the pieces between the slashes. -/
def components (p : String) : List String := (p.toList.splitOn '/').map String.ofList

/-- Does the path start at the root? -/
def isAbsolute (p : String) : Bool := p.startsWith "/"

/-- The text after the last slash. -/
def base (p : String) : String :=
  String.ofList (p.toList.reverse.takeWhile (· ≠ '/')).reverse

/-- The text before the last slash.  The slashes at its end go too, unless it is nothing but
slashes. -/
def folder (p : String) : String :=
  let head := p.toList.reverse.dropWhile (· ≠ '/')
  match head.dropWhile (· = '/') with
  | [] => String.ofList head.reverse
  | rest => String.ofList rest.reverse

/-- The path that `p` names when it is read from `start`. -/
def join (start p : String) : String :=
  if isAbsolute p then p
  else if start.isEmpty || start.endsWith "/" then start ++ p
  else start ++ "/" ++ p

/-- Divides a path before the last dot of its last component into the stem and the extension.  Dots
that the component starts with divide nothing. -/
def splitExtension (p : String) : String × String :=
  let name := (base p).toList
  let before := p.toList.take (p.length - name.length)
  let dots := name.takeWhile (· = '.')
  let rest := name.dropWhile (· = '.')
  let after := (rest.reverse.takeWhile (· ≠ '.')).reverse
  if after.length = rest.length then (p, "")
  else
    (String.ofList (before ++ dots ++ rest.take (rest.length - after.length - 1)),
      String.ofList ('.' :: after))

/-- The last component of a path once the slashes at its end are taken away. -/
def lastName (p : String) : String :=
  base (String.ofList (p.toList.reverse.dropWhile (· = '/')).reverse)

/-- Takes one more component of an absolute path: an empty one and a single dot stay, two dots go
back by one. -/
def settle (done : List String) (c : String) : List String :=
  if c = "" || c = "." then done
  else if c = ".." then done.dropLast
  else done ++ [c]

/-- The normal form of an absolute path: no empty components, no dots, no slash at the end.  Two
slashes at the start, and no more than two, are kept. -/
def normal (p : String) : String :=
  let root := if p.startsWith "//" && !p.startsWith "///" then "//" else "/"
  root ++ "/".intercalate ((components p).foldl settle [])

/-- The absolute path in normal form that `p` names when it is read from the absolute path
`start`. -/
def absolute (start p : String) : String := normal (join start p)

end AudLang.Path
