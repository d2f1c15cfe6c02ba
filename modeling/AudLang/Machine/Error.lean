import AudLang.Fault
import AudLang.Node

/-!
Errors of running programs, and how they are worded.
-/

namespace AudLang

/-- Why a run stops. -/
inductive RunError where
  -- names
  | undeclared (name : String)
  | redeclared (name : String)
  | redefined (name : String)
  | undefined (name : String)
  -- statements and calls
  | strayReturn
  | badTarget
  | tooDeep (limit : Int)
  | uncallable (kind : String)
  | notAFunction (dump : String)
  | returnsValue (function : String)
  | returnsNothing (function type : String)
  | strangeNode (kind : String)
  -- operators
  | badOperands (op : BinaryOp) (left right : String)
  | badNegation (type : String)
  | divisionByZero
  -- members
  | nullMember (member : String)
  | noAttribute (type member : String)
  | readOnly (member type : String)
  | noMethod (type member : String)
  | unknownConstructor (type : String)
  -- lists
  | badIndex
  | outOfBounds (index : Int) (size : Nat)
  | lengthArguments
  -- built-in functions
  | inputExhausted
  | inputEnded
  | notANumber (text type : String)
  | operationFailed (function : String) (fault : Fault)
  | internalFailed (function : String) (fault : Fault)
  | notAValue (function kind : String)
  | raised (message : String)
  -- files
  | fileNotFound (path : String)
  | deletedFile (operation name : String)
  | fileGone (name path : String)
  | noLongerFile (name path : String)
  | filenameArguments
  | renameFailed (old new reason : String)
  | moveFailed (name path reason : String)
  -- folders
  | folderNotFound (path : String)
  | deletedFolder (operation path : String)
  | folderGone (path : String)
  | noLongerFolder (path : String)
  | addFailed (name path reason : String)
  | removeArguments
  | notInFolder (name path : String)
  -- audio
  | loadFailed (name reason : String)
  | dataFailed (name reason : String)
  | cutRange (start stop : String) (length : Int)
  | badFormat (format : String)
deriving DecidableEq, Repr

namespace RunError

/-- What is said about an error. -/
def message : RunError → String
  | undeclared x => s!"Undeclared variable '{x}' referenced."
  | redeclared x => s!"Variable '{x}' already declared in this scope."
  | redefined f => s!"Function '{f}' already defined."
  | undefined f => s!"Undefined function '{f}' called."
  | strayReturn => "Return statement outside of function."
  | badTarget => "Invalid left-hand side in assignment."
  | tooDeep n => s!"Maximum function call depth ({n}) exceeded."
  | uncallable k => s!"Cannot call expression of type {k}."
  | notAFunction d => s!"Internal: Cannot execute call for target '{d}'."
  | returnsValue f => s!"Void function '{f}' cannot return a value."
  | returnsNothing f t => s!"Function '{f}' must return a '{t}'."
  | strangeNode k => s!"Interpreter has no visitor method for AST node type: {k}"
  | badOperands op l r => s!"Operator '{op.symbol}' cannot be applied to types '{l}' and '{r}'."
  | badNegation t => s!"Unary minus cannot be applied to type {t}."
  | divisionByZero => "Division by zero."
  | nullMember m => s!"Attempted to access member '{m}' on null object."
  | noAttribute t m => s!"Type '{t}' has no attribute '{m}'."
  | readOnly m t => s!"Cannot assign to attribute '{m}' of type '{t}'. Attributes are read-only."
  | noMethod t m => s!"Type '{t}' has no method '{m}'."
  | unknownConstructor t => s!"Unknown constructor type '{t}'."
  | badIndex => "List.get() expects 1 integer argument."
  | outOfBounds i n => s!"List index {i} out of bounds for list of size {n}."
  | lengthArguments => "List.len() takes no arguments."
  | inputExhausted => "Attempted to read past end of mock input."
  | inputEnded => "EOF encountered while reading input."
  | notANumber s t => s!"Cannot convert string '{s}' to {t}."
  | operationFailed f e => s!"Operation exception in '{f}': {e.label}"
  | internalFailed f e =>
    s!"Internal error during execution of built-in function '{f}': {e.label}"
  | notAValue f k =>
    s!"Internal error: Built-in function '{f}' did not return a Value object (got <class '{k}'>)."
  | raised m => m
  | fileNotFound p => s!"File '{p}' not found or is not a regular file."
  | deletedFile op n => s!"Operation '{op}' on deleted file '{n}' is not allowed."
  | fileGone n p => s!"File '{n}' ({p}) no longer exists on the file system."
  | noLongerFile n p => s!"Path '{n}' ({p}) is no longer a file."
  | filenameArguments => "File.get_filename() takes no arguments."
  | renameFailed old new e => s!"Failed to change filename from '{old}' to '{new}': {e}"
  | moveFailed n p e => s!"Failed to move file '{n}' to '{p}': {e}"
  | folderNotFound p => s!"Folder '{p}' not found or is not a directory."
  | deletedFolder op p => s!"Operation '{op}' on deleted folder '{p}' is not allowed."
  | folderGone p => s!"Folder '{p}' no longer exists on the file system."
  | noLongerFolder p => s!"Path '{p}' is no longer a directory."
  | addFailed n p e => s!"Failed to add file '{n}' to folder '{p}': {e}"
  | removeArguments => "Folder.remove_file() expects 1 string argument (filename)."
  | notInFolder n p => s!"File '{n}' not found in folder '{p}'."
  | loadFailed n e => s!"Failed to load audio file '{n}': {e}"
  | dataFailed n e => s!"Could not load audio data for '{n}': {e}"
  | cutRange s e n =>
    s!"Cut range [{s}, {e}] is out of bounds for audio of length {n}ms."
  | badFormat f =>
    s!"Invalid format '{f}'. Must be a short alphanumeric string (e.g., 'mp3', 'wav')."

/-- The line that reports an error, which may have no place. -/
def report (e : RunError) : Option Position → String
  | some p => p.report e.message
  | none => s!"[NO_POS] ERROR {e.message}"

end RunError

/-- How a run stops before its end. -/
inductive Stop where
  /-- An error of the program, with its place if it is known. -/
  | failed (error : RunError) (position : Option Position)
  | fault (fault : Fault)
  /-- The bound on the number of steps was reached. -/
  | exhausted
deriving DecidableEq, Repr

/-- The line that reports why a run stopped.  What the host says behind the label of a fault is left
out. -/
def Stop.report : Stop → String
  | failed e p => e.report p
  | fault f => s!"[Interpreter Internal Error] {f.label}"
  | exhausted => "[Interpreter Internal Error] exhausted"

end AudLang
