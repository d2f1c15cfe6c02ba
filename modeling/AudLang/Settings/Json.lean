import AudLang.Decimal.Whole
import AudLang.Fault

/-!
Reading settings: the notation.

Settings are written as one value of nulls, truth values, numbers, strings, lists and objects.
White space may stand between the parts and nowhere else; nothing may follow the value.  A whole
number with too many digits is no breach of the notation, but cannot be read either.
-/

namespace AudLang.Settings

/-- A value of the notation. -/
inductive JsonValue where
  | null
  | bool (b : Bool)
  | whole (n : Int)
  /-- A number that is not written as a whole one. -/
  | real
  | string (s : String)
  | list (items : List JsonValue)
  | object (entries : List (String × JsonValue))
deriving Repr, Inhabited

/-! ## Pieces -/

/-- Passes the white space at the front. -/
def skipBlank (cs : List Char) : List Char :=
  cs.dropWhile fun c => c = ' ' || c = '\t' || c = '\n' || c = '\r'

/-- What follows a word at the front. -/
def after? (word : String) (cs : List Char) : Option (List Char) :=
  if word.toList.isPrefixOf cs then some (cs.drop word.length) else none

/-- The value of a hexadecimal digit. -/
def hexValue? (c : Char) : Option Nat :=
  if c.isDigit then some (c.toNat - 48)
  else if 'a' ≤ c && c ≤ 'f' then some (c.toNat - 87)
  else if 'A' ≤ c && c ≤ 'F' then some (c.toNat - 55)
  else none

/-- The code that a letter behind a backslash stands for. -/
def escaped? (c : Char) : Option Nat :=
  match c with
  | '"' => some 34
  | '\\' => some 92
  | '/' => some 47
  | 'b' => some 8
  | 'f' => some 12
  | 'n' => some 10
  | 'r' => some 13
  | 't' => some 9
  | _ => none

/-- Asks for what the notation asks for. -/
def need : Option α → Except Fault α
  | some a => .ok a
  | none => .error .badNotation

/-- The codes of a string up to its closing quote. -/
def readCodes : List Char → Except Fault (List Nat × List Char)
  | '"' :: r => .ok ([], r)
  | '\\' :: 'u' :: a :: b :: c :: d :: r => do
    let high := 16 * (← need (hexValue? a)) + (← need (hexValue? b))
    let low := 16 * (← need (hexValue? c)) + (← need (hexValue? d))
    let (codes, rest) ← readCodes r
    return ((256 * high + low) :: codes, rest)
  | '\\' :: c :: r => do
    let code ← need (escaped? c)
    let (codes, rest) ← readCodes r
    return (code :: codes, rest)
  | c :: r => do
    if c.toNat < 32 then .error .badNotation
    else
      let (codes, rest) ← readCodes r
      return (c.toNat :: codes, rest)
  | [] => .error .badNotation

/-- Joins the pairs of codes that stand for one character. -/
def joinPairs : List Nat → List Char
  | [] => []
  | [a] => [Char.ofNat a]
  | a :: b :: r =>
    if 0xD800 ≤ a && a < 0xDC00 && 0xDC00 ≤ b && b < 0xE000 then
      Char.ofNat (0x10000 + 1024 * (a - 0xD800) + (b - 0xDC00)) :: joinPairs r
    else Char.ofNat a :: joinPairs (b :: r)

/-- A string whose opening quote has been read. -/
def readString (cs : List Char) : Except Fault (String × List Char) := do
  let (codes, rest) ← readCodes cs
  return (String.ofList (joinPairs codes), rest)

/-- Passes a fraction, if one is there. -/
def skipFraction : List Char → List Char
  | cs@('.' :: r) => if (r.head?.map Char.isDigit).getD false then r.dropWhile Char.isDigit else cs
  | cs => cs

/-- Passes an exponent, if one is there. -/
def skipExponent : List Char → List Char
  | [] => []
  | cs@(c :: r) =>
    if c = 'e' || c = 'E' then
      let digits :=
        match r with
        | '+' :: r' | '-' :: r' => r'
        | _ => r
      if (digits.head?.map Char.isDigit).getD false then digits.dropWhile Char.isDigit else cs
    else cs

/-- A number without its sign. -/
def readNumber (negative : Bool) (cs : List Char) : Except Fault (JsonValue × List Char) :=
  let digits := cs.takeWhile Char.isDigit
  let digits := if digits.head? = some '0' then ['0'] else digits
  let rest := cs.drop digits.length
  let rest' := skipExponent (skipFraction rest)
  if digits.isEmpty then .error .badNotation
  else if rest'.length < rest.length then .ok (.real, rest')
  else if Decimal.digitLimit < digits.length then .error .badValue
  else
    let n : Nat := digits.foldl (fun n c => 10 * n + (c.toNat - 48)) 0
    .ok (.whole (if negative then -n else n), rest)

/-- The words that stand for a value. -/
def words : List (String × JsonValue) :=
  [("null", .null), ("true", .bool true), ("false", .bool false), ("NaN", .real),
   ("Infinity", .real), ("-Infinity", .real)]

/-! ## Values -/

mutual

/-- A value at the front; `fuel` bounds the number of steps. -/
def readValue : Nat → List Char → Except Fault (JsonValue × List Char)
  | 0, _ => .error .badNotation
  | fuel + 1, cs =>
    match cs with
    | '"' :: r => do
      let (s, rest) ← readString r
      return (.string s, rest)
    | '[' :: r =>
      match skipBlank r with
      | ']' :: rest => .ok (.list [], rest)
      | r' => do
        let (items, rest) ← readItems fuel r'
        return (.list items, rest)
    | '\x7b' :: r =>
      match skipBlank r with
      | '\x7d' :: rest => .ok (.object [], rest)
      | r' => do
        let (entries, rest) ← readEntries fuel r'
        return (.object entries, rest)
    | _ =>
      match words.findSome? fun w => (after? w.1 cs).map fun rest => (w.2, rest) with
      | some read => .ok read
      | none =>
        match cs with
        | '-' :: r => readNumber true r
        | _ => readNumber false cs

/-- The items of a list up to its end. -/
def readItems : Nat → List Char → Except Fault (List JsonValue × List Char)
  | 0, _ => .error .badNotation
  | fuel + 1, cs => do
    let (v, r) ← readValue fuel cs
    match skipBlank r with
    | ',' :: r' => do
      let (vs, rest) ← readItems fuel (skipBlank r')
      return (v :: vs, rest)
    | ']' :: rest => return ([v], rest)
    | _ => .error .badNotation

/-- The entries of an object up to its end. -/
def readEntries : Nat → List Char → Except Fault (List (String × JsonValue) × List Char)
  | 0, _ => .error .badNotation
  | fuel + 1, cs => do
    match cs with
    | '"' :: r => do
      let (key, r) ← readString r
      match skipBlank r with
      | ':' :: r' => do
        let (v, r'') ← readValue fuel (skipBlank r')
        match skipBlank r'' with
        | ',' :: more => do
          let (es, rest) ← readEntries fuel (skipBlank more)
          return ((key, v) :: es, rest)
        | '\x7d' :: rest => return ([(key, v)], rest)
        | _ => .error .badNotation
      | _ => .error .badNotation
    | _ => .error .badNotation

end

/-- The value that a text writes down.  Each step passes a character, so the length of the text is
fuel enough. -/
def JsonValue.read (text : String) : Except Fault JsonValue := do
  let cs := skipBlank text.toList
  let (v, rest) ← readValue (2 * cs.length + 1) cs
  if (skipBlank rest).isEmpty then return v else .error .badNotation

end AudLang.Settings
