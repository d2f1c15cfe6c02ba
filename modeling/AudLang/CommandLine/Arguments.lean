import AudLang.Text.Digit

/-!
The arguments of the command line.

A source is given as a file or as text, not both; one mode can be chosen besides the usual one.  An
option is asked for by its letter behind one dash or by its name behind two, which may be cut short
where only one name begins so.  Letters may share a dash.  The value of an option is attached to it
or is the argument behind it, if that does not look like an option itself.

Every argument is first sorted by its `Shape`, the list of them is turned into `Deed`s, and these
are done one after the other.
-/

namespace AudLang.CommandLine

/-- What is done with a source. -/
inductive Mode where
  | list
  | outline
  | check
  | run
deriving DecidableEq, Repr

/-- The options that take a value. -/
inductive Slot where
  | config
  | file
  | text
deriving DecidableEq, Repr

/-- The options that take none. -/
inductive Flag where
  | mode (mode : Mode)
  | help
deriving DecidableEq, Repr

/-- What an option says. -/
inductive Meaning where
  | slot (s : Slot)
  | flag (f : Flag)
deriving DecidableEq, Repr

/-- The letters and the names of the options, with their meanings. -/
def options : List (Char × String × Meaning) :=
  [('h', "help", .flag .help), ('c', "config", .slot .config), ('f', "file", .slot .file),
   ('s', "string", .slot .text), ('l', "lex", .flag (.mode .list)),
   ('p', "parse", .flag (.mode .outline)), ('t', "type-check", .flag (.mode .check))]

/-- What is to be done because of an argument. -/
inductive Deed where
  | flag (f : Flag)
  | set (s : Slot) (v : String)
  /-- There is no option with this name, or no option in front of this value. -/
  | stray
  /-- The argument cannot be used in this way. -/
  | nonsense
deriving DecidableEq, Repr

/-! ## Single arguments -/

/-- What an argument is on its own. -/
inductive Shape where
  /-- It can be the value of an option. -/
  | value
  | deeds (ds : List Deed)
  /-- Some options without a value, and one that takes the next argument as its value. -/
  | awaiting (fs : List Flag) (s : Slot)
  /-- A value is attached to an option that takes none. -/
  | nonsense
  /-- Several names begin so. -/
  | ambiguous
deriving DecidableEq, Repr

/-- Another option in front of those of an argument. -/
def Shape.after (f : Flag) : Shape → Shape
  | .deeds ds => .deeds (.flag f :: ds)
  | .awaiting fs s => .awaiting (f :: fs) s
  | shape => shape

/-- An option that is asked for by its letter, with what stands behind the letter. -/
def cluster : Meaning → List Char → Shape
  | .slot s, [] => .awaiting [] s
  | .slot s, c :: rest => .deeds [.set s (String.ofList (if c = '=' then rest else c :: rest))]
  | .flag f, [] => .deeds [.flag f]
  | .flag f, c :: rest =>
    if c = '=' || c = '-' then .nonsense
    else
      match options.lookup c with
      | none => .deeds [.flag f, .stray]
      | some (_, meaning) => (cluster meaning rest).after f

/-- An option that is asked for by its name, with what stands behind the name. -/
def named : Meaning → List Char → Shape
  | .slot s, [] => .awaiting [] s
  | .slot s, _ :: v => .deeds [.set s (String.ofList v)]
  | .flag f, [] => .deeds [.flag f]
  | .flag _, _ :: _ => .nonsense

/-- Is this a number, whole or with a point?  There may be a line end behind it. -/
def isNumber (cs : List Char) : Bool :=
  let number := if cs.getLast? = some '\n' then cs.dropLast else cs
  match number.dropWhile Text.isDigit with
  | [] => !number.isEmpty
  | '.' :: fraction => !fraction.isEmpty && fraction.all Text.isDigit
  | _ => false

/-- What an argument is, by its characters.  Negative numbers and texts with a space are values
unless they start like an option. -/
def shapeOf : List Char → Shape
  | '-' :: '-' :: rest =>
    let name := rest.takeWhile (· ≠ '=')
    match options.filter fun o => name.isPrefixOf o.2.1.toList with
    | [] => if ' ' ∈ rest then .value else .deeds [.stray]
    | [o] => named o.2.2 (rest.drop name.length)
    | _ => .ambiguous
  | '-' :: c :: rest =>
    match options.lookup c with
    | some (_, meaning) => cluster meaning rest
    | none => if isNumber (c :: rest) || ' ' ∈ c :: rest then .value else .deeds [.stray]
  | _ => .value

/-- What an argument is on its own. -/
def shape (s : String) : Shape := shapeOf s.toList

/-- Can the text be a value behind an option? -/
def isValue (s : String) : Bool := shape s = .value

/-! ## All arguments -/

/-- What is to be done because of some arguments, up to the first that makes no sense. -/
def deeds : List String → List Deed
  | [] => []
  | o :: rest =>
    match shape o with
    | .value => .stray :: deeds rest
    | .deeds ds => ds ++ deeds rest
    | .awaiting fs s =>
      match rest with
      | v :: rest' =>
        if isValue v then fs.map .flag ++ .set s v :: deeds rest' else [.nonsense]
      | [] => [.nonsense]
    | .nonsense | .ambiguous => [.nonsense]

/-- What the arguments ask for. -/
structure Arguments where
  config : Option String := none
  file : Option String := none
  text : Option String := none
  mode : Mode := .run
deriving DecidableEq, Repr

/-- Why there is nothing to do. -/
inductive Refused where
  | usage
  | help
deriving DecidableEq, Repr

namespace Arguments

/-- Notes the value of an option.  A source cannot be both a file and a text. -/
def setValue (a : Arguments) (s : Slot) (v : String) : Except Refused Arguments :=
  match s with
  | .config => .ok { a with config := some v }
  | .file => if a.text.isSome then .error .usage else .ok { a with file := some v }
  | .text => if a.file.isSome then .error .usage else .ok { a with text := some v }

/-- Notes an option without a value.  Only one mode can be chosen. -/
def setFlag (a : Arguments) : Flag → Except Refused Arguments
  | .mode mode =>
    if a.mode = .run || a.mode = mode then .ok { a with mode } else .error .usage
  | .help => .error .help

/-- Does one deed after the other.  A stray argument spoils the rest, but for a request for help. -/
def perform (a : Arguments) : List Deed → Except Refused Arguments
  | [] => .ok a
  | .flag f :: ds => do (← a.setFlag f).perform ds
  | .set s v :: ds => do (← a.setValue s v).perform ds
  | .stray :: ds =>
    match a.perform ds with
    | .error .help => .error .help
    | _ => .error .usage
  | .nonsense :: _ => .error .usage

/-- Reads the arguments of the command line.  What is ambiguous in front of a bare `--` is refused
before anything is done. -/
def read (args : List String) : Except Refused Arguments :=
  if (args.takeWhile (· ≠ "--")).any (shape · = .ambiguous) then .error .usage
  else perform {} (deeds args)

end Arguments

/-- Do the arguments ask for a run, which may take input? -/
def takesInput (args : List String) : Bool :=
  match Arguments.read args with
  | .ok a => a.mode = .run
  | .error _ => false

end AudLang.CommandLine
