import AudLang.Node
import AudLang.Token.Description

/-!
Full descriptions of syntax trees on one line, with all places.
-/

namespace AudLang

/-- A description of a place. -/
def Position.describe (p : Position) : String := s!"Position(line={p.line}, column={p.column})"

namespace Node

/-- The line for a node with some more fields than its places. -/
def dumpFields (n : Node) (fields : List (String × String)) : String :=
  let places :=
    [("start_position", n.start.describe), ("end_position", n.stop.describe)]
  let shown := (places ++ fields).map fun (field, text) => field ++ "=" ++ text
  n.kindName ++ "(" ++ ", ".intercalate shown ++ ")"

/-- A description of the name in a parameter. -/
def dumpName : ParameterName → String
  | .plain x => Text.quoted x
  | .token x => Kind.line .identifier (Text.quoted x) ⟨1, 1⟩

mutual

/-- A description of a tree. -/
def dump : Node → Except Fault String
  | missing => .ok "None"
  | n@(unknown ..) | n@(null _) => .ok (n.dumpFields [])
  | n@(int _ v) =>
    match Decimal.wholeText? v with
    | some text => .ok (n.dumpFields [("value", text)])
    | none => .error .badValue
  | n@(float _ v) => .ok (n.dumpFields [("value", Decimal.floatText v)])
  | n@(string _ v) => .ok (n.dumpFields [("value", Text.quoted v)])
  | n@(bool _ v) => .ok (n.dumpFields [("value", if v then "True" else "False")])
  | n@(name _ x) => .ok (n.dumpFields [("name", Text.quoted x)])
  | n@(list _ es) => do return n.dumpFields [("elements", Text.bracketed (← dumpAll es))]
  | n@(binary _ _ l r) => do return n.dumpFields [("left", ← l.dump), ("right", ← r.dump)]
  | n@(negate _ e) => do return n.dumpFields [("operand", ← e.dump)]
  | n@(call _ f as) => do
    return n.dumpFields [("function_name", ← f.dump), ("arguments", Text.bracketed (← dumpAll as))]
  | n@(member _ o x) => do
    return n.dumpFields [("object_expr", ← o.dump), ("member_name", Text.quoted x)]
  | n@(construct _ t as) => do
    return n.dumpFields
      [("type_name", Text.quoted t), ("arguments", Text.bracketed (← dumpAll as))]
  | n@(type _ t) => .ok (n.dumpFields [("type_name", Text.quoted t)])
  | n@(listType _ t e) => do
    return n.dumpFields [("type_name", Text.quoted t), ("child_type_node", ← e.dump)]
  | n@(block _ ss) => do return n.dumpFields [("statements", Text.bracketed (← dumpAll ss))]
  | n@(declare _ t x v) => do
    return n.dumpFields
      [("var_type", ← t.dump), ("identifier_name", Text.quoted x), ("value", ← v.dump)]
  | n@(branch _ c t e) => do
    return n.dumpFields
      [("condition", ← c.dump), ("if_block", ← t.dump), ("else_block", ← e.dump)]
  | n@(loop _ c b) => do return n.dumpFields [("condition", ← c.dump), ("body", ← b.dump)]
  | n@(assign _ t v) => do return n.dumpFields [("identifier", ← t.dump), ("value", ← v.dump)]
  | n@(giveBack _ v) => do return n.dumpFields [("value", ← v.dump)]
  | n@(callStatement _ c) => do return n.dumpFields [("call_expression", ← c.dump)]
  | n@(expressionStatement _ e) => do return n.dumpFields [("expression", ← e.dump)]
  | n@(parameter _ t x) => do
    return n.dumpFields [("param_type", ← t.dump), ("param_name", dumpName x)]
  | n@(define _ r x ps b) => do
    return n.dumpFields
      [("return_type", ← r.dump), ("identifier_name", Text.quoted x),
       ("parameters", Text.bracketed (← dumpAll ps)), ("body", ← b.dump)]
  | n@(program _ ds ss) => do
    let shown ← dumpAll ss
    return n.dumpFields
      [("definitions", Text.bracketed (ds.filterMap (shown[·]?))),
       ("statements", Text.bracketed shown)]

/-- Descriptions of trees. -/
def dumpAll : List Node → Except Fault (List String)
  | [] => .ok []
  | n :: ns => do return (← n.dump) :: (← dumpAll ns)

end

end Node

end AudLang
