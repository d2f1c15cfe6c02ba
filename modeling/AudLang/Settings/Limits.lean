import AudLang.Limits
import AudLang.Settings.Json

/-!
Reading settings: the limits.

Settings are an object whose entries name limits; a limit that is not named keeps its default, and
of two entries for one limit the later one counts.  Limits are whole numbers here: settings that
give another value are refused when they are read, not when the limit is first looked at.
-/

namespace AudLang.Settings

/-- A limit as a whole number. -/
def limitOf : JsonValue → Except Fault Int
  | .whole n => .ok n
  | .bool b => .ok (if b then 1 else 0)
  | _ => .error .wrongKind

/-- Sets the limit that an entry names. -/
def setLimit (limits : Limits) (entry : String × JsonValue) : Except Fault Limits := do
  let (name, v) := entry
  match name with
  | "max_identifier_length" => return { limits with name := ← limitOf v }
  | "max_string_length" => return { limits with string := ← limitOf v }
  | "max_comment_length" => return { limits with comment := ← limitOf v }
  | "max_number_length" => return { limits with number := ← limitOf v }
  | "max_func_depth" => return { limits with callDepth := ← limitOf v }
  | _ => .error .wrongKind

/-- The entries that no later one overrides. -/
def lastEntries : List (String × JsonValue) → List (String × JsonValue)
  | [] => []
  | e :: es => if es.any (·.1 = e.1) then lastEntries es else e :: lastEntries es

/-- The limits that the text of a settings file gives. -/
def readLimits (text : String) : Except Fault Limits := do
  match ← JsonValue.read text with
  | .object entries => (lastEntries entries).foldlM setLimit {}
  | _ => .error .wrongKind

end AudLang.Settings
