import AudLang.Decimal.Exact
import AudLang.Decimal.Reading
import AudLang.Decimal.Shortest
import AudLang.Fault

/-!
What simple values hold.

A datum is a number, a text, a truth value or nothing.  Texts and numbers turn into each other by
the rules of decimal notation; truth values count as zero and one.
-/

namespace AudLang

/-- The content of a simple value. -/
inductive Datum where
  | int (n : Int)
  | float (x : Float)
  | text (s : String)
  | bool (b : Bool)
  | nothing
deriving Repr, Inhabited

namespace Datum

/-- One for true and zero for false. -/
def bit (b : Bool) : Int := if b then 1 else 0

/-- The text of a datum; a whole number of too many digits has none. -/
def toText : Datum → Except Fault String
  | int n =>
    match Decimal.wholeText? n with
    | some s => .ok s
    | none => .error .badValue
  | float x => .ok (Decimal.floatText x)
  | text s => .ok s
  | bool b => .ok (if b then "True" else "False")
  | nothing => .ok "None"

/-- Does a datum count as true? -/
def isTruthy : Datum → Bool
  | int n => n != 0
  | float x => x != 0.0
  | text s => !s.isEmpty
  | bool b => b
  | nothing => false

/-- The whole number that a datum stands for; a float loses its fraction. -/
def toInt : Datum → Except Fault Int
  | int n => .ok n
  | float x =>
    match Decimal.truncate? x with
    | some n => .ok n
    | none => .error (if x.isNaN then .badValue else .outOfRange)
  | text s =>
    match Decimal.readWhole? s with
    | some n => .ok n
    | none => .error .badValue
  | bool b => .ok (bit b)
  | nothing => .error .wrongKind

/-- The float nearest to a whole number. -/
def floatOfInt (n : Int) : Except Fault Float :=
  match Decimal.ofInt? n with
  | some x => .ok x
  | none => .error .outOfRange

/-- The float that a datum stands for. -/
def toFloat : Datum → Except Fault Float
  | int n => floatOfInt n
  | float x => .ok x
  | text s =>
    match Decimal.readFloat? s with
    | some x => .ok x
    | none => .error .badValue
  | bool b => floatOfInt (bit b)
  | nothing => .error .wrongKind

/-- A datum as a number: truth values count, texts do not. -/
def number? : Datum → Option Datum
  | int n => some (int n)
  | float x => some (float x)
  | bool b => some (int (bit b))
  | _ => none

/-- Are two data equal?  Numbers are equal when their values are, whatever they are written as. -/
def equals (a b : Datum) : Bool :=
  match a.number?, b.number? with
  | some (int m), some (int n) => m == n
  | some (int m), some (float y) => Decimal.compareWith m y == some .eq
  | some (float x), some (int n) => Decimal.compareWith n x == some .eq
  | some (float x), some (float y) => x == y
  | _, _ =>
    match a, b with
    | text s, text t => s == t
    | nothing, nothing => true
    | _, _ => false

/-- Is the first number at most the second? -/
def atMost (a b : Datum) : Except Fault Bool :=
  match a.number?, b.number? with
  | some (int m), some (int n) => .ok (m ≤ n)
  | some (int m), some (float y) =>
    .ok (Decimal.compareWith m y == some .lt || Decimal.compareWith m y == some .eq)
  | some (float x), some (int n) =>
    .ok (Decimal.compareWith n x == some .gt || Decimal.compareWith n x == some .eq)
  | some (float x), some (float y) => .ok (x ≤ y)
  | _, _ => .error .wrongKind

/-- The sum of two data as far as texts are concerned: two texts are joined, two numbers give no
text. -/
def join (a b : Datum) : Except Fault (Option String) :=
  match a, b with
  | text s, text t => .ok (some (s ++ t))
  | _, _ =>
    match a.number?, b.number? with
    | some (int m), some (float _) => do let _ ← floatOfInt m; return none
    | some (float _), some (int n) => do let _ ← floatOfInt n; return none
    | some _, some _ => .ok none
    | _, _ => .error .wrongKind

end Datum

end AudLang
