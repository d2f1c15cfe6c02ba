import AudLang.CommandLine.Arguments
import AudLang.Machine.Evaluate
import AudLang.Node.Outline
import AudLang.Parser.Statement
import AudLang.Settings.Limits
import AudLang.Text.LineEnds
import AudLang.Text.Utf8
import AudLang.Token.Listing
import AudLang.Typing.Checker

/-!
What the command line does.

A session reads the settings and the source, does what the mode asks for, and ends with a status:
zero if all went well or only the program failed, one if there was something wrong with the
settings or the source, two if the arguments make no sense.  Limits on a source come from the
settings; the depth of calls in a run does not.

What the host says about arguments that make no sense, about settings that cannot be read and on a
request for help is left out, and the host has room for all nested calls.
-/

namespace AudLang.CommandLine

/-- How a session ends. -/
structure Outcome where
  output : String
  status : Nat
  files : Files

/-- What is said about a whole number of too many digits. -/
def tooManyDigits : String :=
  "Exceeds the limit (4300 digits) for integer string conversion; " ++
    "use sys.set_int_max_str_digits() to increase the limit"

/-- What is printed, and the status it leads to. -/
abbrev Printed := String × Nat

/-- Lists the tokens of a source. -/
def listTokens (limits : Limits) (text : String) : Printed :=
  let l := Listing.ofSource limits text
  match l.stop with
  | none => (l.text, 0)
  | some (.lexical e) => (l.text ++ e.report ++ "\n", 1)
  | some (.fault _) => (l.text ++ tooManyDigits ++ "\n", 1)

/-- Shows the tree of a program. -/
def showOutline (program : Node) : Printed :=
  let o := program.outline 0
  let text := o.render "| "
  if o.fault.isSome then (text ++ tooManyDigits ++ "\n", 1) else (text, 0)

/-- Does what the mode asks for with a source. -/
def process (fuel : Nat) (mode : Mode) (limits : Limits) (text : String) (files : Files)
    (typed : String) : Printed × Files :=
  match mode with
  | .list => (listTokens limits text, files)
  | _ =>
    match Program.parse limits text with
    | .error e => ((e.report ++ "\n", 1), files)
    | .ok program =>
      let checked := (({} : Checker).check program).1
      match mode with
      | .check => ((checked, 0), files)
      | .run =>
        let m : Machine := { input := .text typed.toList, files }
        let m' := (m.interpret fuel program).2
        ((checked ++ m'.output, 0), m'.files)
      | _ => (showOutline program, files)

/-- The text of a file. -/
def readText (files : Files) (path : String) : Except String String :=
  match files.read path with
  | .error e => .error s!"Error reading file: {e.report path}"
  | .ok bytes =>
    match Text.decodeUtf8 bytes with
    | .error e => .error e.report
    | .ok text => .ok (String.ofList (Text.foldLines text.toList))

/-- The limits that a settings file gives, if they can be read. -/
def readSettings (files : Files) (path : String) : Option Limits := do
  let bytes ← (files.read path).toOption
  let text ← (Text.decodeUtf8 bytes).toOption
  (Settings.readLimits text).toOption

/-- Treats an empty value as none. -/
def given (v : Option String) : Option String := v.filter (· ≠ "")

/-- Does what the arguments ask for with the source they name. -/
def processSource (fuel : Nat) (a : Arguments) (limits : Limits) (files : Files) (typed : String) :
    Printed × Files :=
  match given a.file, given a.text with
  | some path, _ =>
    let banner := s!"Using source file: {path}\n"
    match readText files path with
    | .error e => ((banner ++ e ++ "\n", 1), files)
    | .ok text =>
      let ((output, status), files') := process fuel a.mode limits text files typed
      ((banner ++ output, status), files')
  | none, some text =>
    let ((output, status), files') := process fuel a.mode limits text files typed
    (("Using source code string.\n" ++ output, status), files')
  | none, none => (("", 2), files)

/-- Runs a session: what the command line prints, given its arguments, the files around it and what
is typed.  `fuel` bounds the rounds of a loop. -/
def session (fuel : Nat) (args : List String) (files : Files) (typed : String) : Outcome :=
  match Arguments.read args with
  | .error .usage => ⟨"", 2, files⟩
  | .error .help => ⟨"", 0, files⟩
  | .ok a =>
    match given a.config with
    | none =>
      let ((output, status), files') := processSource fuel a {} files typed
      ⟨output, status, files'⟩
    | some path =>
      let banner := s!"Using config file: {path}\n"
      match readSettings files path with
      | none => ⟨banner ++ "Failed to load config\n", 1, files⟩
      | some limits =>
        let ((output, status), files') := processSource fuel a limits files typed
        ⟨banner ++ output, status, files'⟩

end AudLang.CommandLine
