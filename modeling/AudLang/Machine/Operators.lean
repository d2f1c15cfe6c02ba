import AudLang.Machine.Basic

/-!
Operators on values.

Whole numbers stay whole and are divided downward; a whole number beside a float becomes a float.
Strings can be joined and compared for equality, truth values and objects only be compared for
equality.
-/

namespace AudLang

namespace BinaryOp

/-- The operation on whole numbers. -/
def onInts (op : BinaryOp) (a b : Int) : Option Value :=
  match op with
  | add => some (.int (a + b))
  | subtract => some (.int (a - b))
  | multiply => some (.int (a * b))
  | divide => some (.int (a.fdiv b))
  | equals => some (.bool (a == b))
  | notEquals => some (.bool (a != b))
  | less => some (.bool (a < b))
  | lessOrEqual => some (.bool (a ≤ b))
  | greater => some (.bool (b < a))
  | greaterOrEqual => some (.bool (b ≤ a))
  | and | or => none

/-- The operation on floats. -/
def onFloats (op : BinaryOp) (a b : Float) : Option Value :=
  match op with
  | add => some (.float (a + b))
  | subtract => some (.float (a - b))
  | multiply => some (.float (a * b))
  | divide => some (.float (a / b))
  | equals => some (.bool (a == b))
  | notEquals => some (.bool (a != b))
  | less => some (.bool (a < b))
  | lessOrEqual => some (.bool (a ≤ b))
  | greater => some (.bool (b < a))
  | greaterOrEqual => some (.bool (b ≤ a))
  | and | or => none

/-- The operation on strings. -/
def onStrings (op : BinaryOp) (a b : Datum) : Except Fault (Option Value) :=
  match op with
  | add => do return (← a.join b).map Value.text
  | equals => .ok (some (.bool (a.equals b)))
  | notEquals => .ok (some (.bool (!a.equals b)))
  | _ => .ok none

/-- The operation on things that can only be equal or not. -/
def onEquality (op : BinaryOp) (equal : Bool) : Option Value :=
  match op with
  | equals => some (.bool equal)
  | notEquals => some (.bool (!equal))
  | _ => none

end BinaryOp

/-- Is the value one that objects are compared with: a file, a folder, a list or null? -/
def Value.isObject : Value → Bool
  | file _ | audio .. | folder _ | null | list .. => true
  | _ => false

namespace Store

/-- The path of a folder that a file belongs to. -/
def parentPath (s : Store) (f : FileObject) : Option String :=
  match f.parent with
  | none => none
  | some r =>
    match s.get r with
    | .folder d => some d.path
    | _ => none

/-- Are two objects equal?  Null equals null; files are equal when their paths and the paths of
their folders are, folders when their paths are; nothing else is. -/
def sameObject (s : Store) (left right : Value) : Bool :=
  match left, right with
  | .null, .null => true
  | .folder a, .folder b => a.path == b.path
  | _, _ =>
    match left.file?, right.file? with
    | some a, some b => a.path == b.path && s.parentPath a == s.parentPath b
    | _, _ => false

/-- The result of an operation between two values, if there is such an operation. -/
def operate (s : Store) (op : BinaryOp) (left right : Value) : Except Fault (Option Value) :=
  match left, right with
  | .int a, .int b => .ok (op.onInts a b)
  | .int a, .float y => do return op.onFloats (← Datum.floatOfInt a) y
  | .float x, .int b => do return op.onFloats x (← Datum.floatOfInt b)
  | .float x, .float y => .ok (op.onFloats x y)
  | .string a, .string b => op.onStrings a b
  | .bool a, .bool b => .ok (op.onEquality (a == b))
  | _, _ =>
    if left.isObject || right.isObject then .ok (op.onEquality (s.sameObject left right))
    else .ok none

end Store

namespace Run

/-- Applies an operator to two values. -/
def operate (op : BinaryOp) (left right : Ref) (p : Position) : Run Unit := do
  let l ← value left
  let r ← value right
  if op = .divide then
    if (← datum right).equals (.int 0) then fail .divisionByZero p
  match ← ask ((← get).store.operate op l r) with
  | some v => give v
  | none => fail (.badOperands op l.typeName r.typeName) p

/-- Negates a number. -/
def negate (r : Ref) (p : Position) : Run Unit := do
  match ← value r with
  | .int n => give (.int (-n))
  | .float x => give (.float (-x))
  | v => fail (.badNegation v.typeName) p

end Run

end AudLang
