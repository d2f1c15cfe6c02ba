import AudLang.Text.Quoted
import AudLang.Value.Basic

/-!
Descriptions of values, for looking at the state of a machine.
-/

namespace AudLang

/-- A description of the value in a cell.  Lists show the descriptions of their elements in quotes;
`depth` bounds how deep lists are shown. -/
def Store.describe (s : Store) : Nat → Ref → Except Fault String
  | 0, _ => .ok ""
  | depth + 1, r =>
    match s.get r with
    | .int n => do
      let shown ← (Datum.int n).toText
      return s!"IntValue({shown})"
    | .float x => .ok s!"FloatValue({Decimal.floatText x})"
    | .string d => do
      let shown ← d.toText
      return s!"StringValue('{shown}')"
    | .bool b => do
      let shown ← (Datum.bool b).toText
      return s!"BoolValue({shown})"
    | .null => .ok "NullValue()"
    | .list t es => do
      let shown ← es.mapM (s.describe depth)
      return s!"ListValue[{t}]({Text.bracketed (shown.map Text.quoted)})"
    | .file f => .ok s!"FileValue('{f.path}')"
    | .audio f r => do
      let title ← r.title.toText
      return s!"AudioValue('{f.path}', title='{title}')"
    | .folder d => .ok s!"FolderValue('{d.path}')"
    | .other t => .ok s!"<{t} Value>"

end AudLang
