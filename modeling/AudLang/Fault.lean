/-!
Failures inside a computation.

A fault is not an error that the language defines: it says that some step could not be carried out
on what it was given.  It has no place in the source; where it is shown, it is shown by its label.
-/

namespace AudLang

/-- Why a step of a computation could not be carried out. -/
inductive Fault where
  /-- The thing at hand has no such part. -/
  | noMember
  /-- The thing at hand is of the wrong kind for the step. -/
  | wrongKind
  /-- There is no such argument. -/
  | noArgument
  /-- There is no such entry. -/
  | noEntry
  /-- Text or number without a meaning for the step. -/
  | badValue
  /-- A number beyond the range of floats. -/
  | outOfRange
  /-- A quotient by zero. -/
  | zeroDivisor
  /-- Leaving what was never entered. -/
  | unbalanced
  /-- No such file or directory, or a program that is not there. -/
  | noFile
  /-- A directory where a file is needed. -/
  | isDirectory
  /-- A file where a directory is needed. -/
  | notDirectory
  /-- Another refusal of the file system. -/
  | fileSystem
  /-- A file that would be copied onto itself. -/
  | sameFile
  /-- A refusal to write a sound file with impossible parameters. -/
  | badSound
  /-- A refusal to convert samples. -/
  | badSamples
  /-- Data that is not the notation it should be. -/
  | badNotation
  /-- Sound data that cannot be decoded. -/
  | undecodable
deriving DecidableEq, Repr

/-- The label a fault is shown by. -/
def Fault.label : Fault → String
  | noMember => "AttributeError"
  | wrongKind => "TypeError"
  | noArgument => "IndexError"
  | noEntry => "KeyError"
  | badValue => "ValueError"
  | outOfRange => "OverflowError"
  | zeroDivisor => "ZeroDivisionError"
  | unbalanced => "SystemError"
  | noFile => "FileNotFoundError"
  | isDirectory => "IsADirectoryError"
  | notDirectory => "NotADirectoryError"
  | fileSystem => "OSError"
  | sameFile => "SameFileError"
  | badSound => "Error"
  | badSamples => "error"
  | badNotation => "JSONDecodeError"
  | undecodable => "CouldntDecodeError"

end AudLang
