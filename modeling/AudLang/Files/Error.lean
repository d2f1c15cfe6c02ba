import AudLang.Fault
import AudLang.Text.Quoted

/-!
Refusals of the file system, and how they are worded.
-/

namespace AudLang

/-- Why the file system refuses something. -/
inductive Refusal where
  | noEntry
  | busy
  | notFolder
  | isFolder
  | nameTooLong
  | notEmpty
  /-- The text of the path holds a zero character, which no path does. -/
  | unreadable
deriving DecidableEq, Repr

namespace Refusal

/-- The number of a refusal. -/
def number : Refusal → Nat
  | noEntry => 2
  | busy => 16
  | notFolder => 20
  | isFolder => 21
  | nameTooLong => 36
  | notEmpty => 39
  | unreadable => 22

/-- What is said about a refusal. -/
def message : Refusal → String
  | noEntry => "No such file or directory"
  | busy => "Device or resource busy"
  | notFolder => "Not a directory"
  | isFolder => "Is a directory"
  | nameTooLong => "File name too long"
  | notEmpty => "Directory not empty"
  | unreadable => "Invalid argument"

/-- The fault that a refusal is where nobody expects it. -/
def fault : Refusal → Fault
  | noEntry => .noFile
  | notFolder => .notDirectory
  | isFolder => .isDirectory
  | busy | nameTooLong | notEmpty => .fileSystem
  | unreadable => .badValue

/-- A refusal that concerns one path. -/
def report (r : Refusal) (path : String) : String :=
  s!"[Errno {r.number}] {r.message}: {Text.quoted path}"

/-- A refusal that concerns the way from one path to another. -/
def reportBetween (r : Refusal) (source target : String) : String :=
  s!"[Errno {r.number}] {r.message}: {Text.quoted source} -> {Text.quoted target}"

end Refusal

end AudLang
