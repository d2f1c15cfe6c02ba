import AudLang.Machine.Members
import AudLang.Typing.Members

/-!
The functions that come with the language.

The types of arguments are not looked at when a function is called: it takes the content of whatever
simple value it is given.  What goes wrong inside a function is reported as an error at the call.
-/

namespace AudLang

/-- The functions that come with the language. -/
inductive Builtin where
  | print | input | stoi | itos | stof | ftos | itof | ftoi | btos | atof | ftoa
deriving DecidableEq, Repr

namespace Builtin

/-- The name of a function. -/
def name : Builtin → String
  | print => "print" | input => "input" | stoi => "stoi" | itos => "itos" | stof => "stof"
  | ftos => "ftos" | itof => "itof" | ftoi => "ftoi" | btos => "btos" | atof => "atof"
  | ftoa => "ftoa"

/-- All functions. -/
def all : List Builtin := [print, input, stoi, itos, stof, ftos, itof, ftoi, btos, atof, ftoa]

/-- The function with a name. -/
def ofName? (n : String) : Option Builtin := all.find? (·.name = n)

/-- What a function takes and gives back. -/
def signature (b : Builtin) : Signature := (Functions.builtin.get? b.name).getD ⟨[], .void⟩

/-- A description of a function. -/
def describe (b : Builtin) : String := s!"<BuiltInFunction {b.name}>"

/-- Does a function use the machine that calls it? -/
def needsMachine (b : Builtin) : Bool := b = input

/-- Does a function use the place of its call? -/
def needsPlace (b : Builtin) : Bool := b = atof || b = ftoa

end Builtin

/-- Is the fault of the kind that a function can meet in its operation, not in its working? -/
def Fault.isOperational : Fault → Bool
  | badValue | noFile | isDirectory | notDirectory | fileSystem | sameFile | badNotation
  | undecodable => true
  | _ => false

namespace Run

/-- Performs the body of a function that comes with the language.  An error gets the place of the
call if it has none; a fault becomes an error at that place. -/
def guarded (function : String) (p : Position) (body : Run α) : Run α :=
  tryCatch body fun
    | .failed e none => fail e p
    | .fault f =>
      fail (if f.isOperational then .operationFailed function f else .internalFailed function f) p
    | stop => throw stop

/-- The next line of input. -/
def readLine : Run String := do
  match (← get).input with
  | .lines (s :: rest) => do
    modify fun m => { m with input := .lines rest }
    return s
  | .lines [] => failSomewhere .inputExhausted
  | .text [] => failSomewhere .inputEnded
  | .text cs => do
    let line := cs.takeWhile (· ≠ '\n')
    modify fun m => { m with input := .text ((cs.dropWhile (· ≠ '\n')).drop 1) }
    return String.ofList line

/-- The answer of a conversion; text that does not convert is an error of its own. -/
def converted (d : Datum) (type : String) (answer : Except Fault α) : Run α := do
  match answer with
  | .ok a => return a
  | .error .badValue => do
    let shown ← ask d.toText
    failSomewhere (.notANumber shown type)
  | .error f => fault f

/-- The text of a float: it always shows a point. -/
def pointed (s : String) : String := if s.toList.contains '.' then s else s ++ ".0"

/-- What a function that comes with the language does. -/
def perform (b : Builtin) (args : List Ref) (p : Position) : Run Ref := do
  match b, args with
  | .print, [a] => do
    printLine (← ask (← datum a).toText)
    nothing
  | .input, [] => do alloc (.text (← readLine))
  | .stoi, [a] => do
    let d ← datum a
    alloc (.int (← converted d "int" d.toInt))
  | .itos, [a] => do alloc (.text (← ask (← datum a).toText))
  | .stof, [a] => do
    let d ← datum a
    alloc (.float (← converted d "float" d.toFloat))
  | .ftos, [a] => do alloc (.text (pointed (← ask (← datum a).toText)))
  | .itof, [a] => do alloc (.float (← ask (← datum a).toFloat))
  | .ftoi, [a] => do alloc (.int (← ask (← datum a).toInt))
  | .btos, [a] => do alloc (.text (if (← datum a).isTruthy then "true" else "false"))
  | .atof, [a] => do
    match (← value a).file? with
    | some f => openFile f.path f.parent p
    | none => fault .noMember
  | .ftoa, [a] => do
    let f ← usableFile a "ftoa" p
    match ← openAudio? f.path f.parent p with
    | some r => return r
    | none => nothing
  | _, _ => fault .wrongKind

/-- Calls a function that comes with the language. -/
def callBuiltin (b : Builtin) (args : List Ref) (p : Position) : Run Ref :=
  guarded b.name p (perform b args p)

/-- What a name of a function stands for. -/
inductive Callee where
  | builtin (function : Builtin)
  | defined (node : Node)

/-- Looks up a function. -/
def callee (name : String) (p : Position) : Run Callee := do
  match Builtin.ofName? name with
  | some b => return .builtin b
  | none =>
    match (← get).functions.lookup name with
    | some n => return .defined n
    | none => fail (.undefined name) p

/-- Makes a function known; its name must be new. -/
def register (name : String) (n : Node) : Run Unit := do
  if ((← get).functions.lookup name).isSome || (Builtin.ofName? name).isSome then
    if n.isPresent then fail (.redefined name) n.start else fault .noMember
  else modify fun m => { m with functions := m.functions ++ [(name, n)] }

end Run

end AudLang
