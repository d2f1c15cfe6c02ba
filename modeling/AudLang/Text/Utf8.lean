/-!
Texts as bytes.

A character takes one to four bytes.  The first says how many follow and, for some, bounds the
second, so that every character has only its shortest form and no surrogate has any.
-/

namespace AudLang.Text

/-- Why bytes are not a text. -/
inductive Utf8Flaw where
  | badStart
  | badContinuation
  | endOfData
deriving DecidableEq, Repr

/-- A flaw in bytes: its place, the bytes it spans, and the first of them. -/
structure Utf8Error where
  flaw : Utf8Flaw
  place : Nat
  size : Nat
  first : UInt8
deriving DecidableEq, Repr

/-- What is said about a flaw. -/
def Utf8Flaw.message : Utf8Flaw → String
  | badStart => "invalid start byte"
  | badContinuation => "invalid continuation byte"
  | endOfData => "unexpected end of data"

/-- The line that reports bytes that are not a text. -/
def Utf8Error.report (e : Utf8Error) : String :=
  let last := e.place + e.size - 1
  let hex := String.ofList ((Nat.toDigits 16 e.first.toNat))
  if e.size = 1 then
    s!"'utf-8' codec can't decode byte 0x{hex} in position {e.place}: {e.flaw.message}"
  else s!"'utf-8' codec can't decode bytes in position {e.place}-{last}: {e.flaw.message}"

/-- How many bytes follow the first one, and the bounds of the next of them; none if no character
starts like this. -/
def continuation? (first : UInt8) : Option (Nat × Nat × Nat) :=
  let n := first.toNat
  if n < 0x80 then some (0, 0, 0)
  else if n < 0xC2 then none
  else if n < 0xE0 then some (1, 0x80, 0xBF)
  else if n = 0xE0 then some (2, 0xA0, 0xBF)
  else if n = 0xED then some (2, 0x80, 0x9F)
  else if n < 0xF0 then some (2, 0x80, 0xBF)
  else if n = 0xF0 then some (3, 0x90, 0xBF)
  else if n < 0xF4 then some (3, 0x80, 0xBF)
  else if n = 0xF4 then some (3, 0x80, 0x8F)
  else none

/-- How many of the bytes can continue a character, of the `count` that must; `none` if the bytes
end before. -/
def continued : Nat → Nat → Nat → List UInt8 → Nat × Option Utf8Flaw
  | 0, _, _, _ => (0, none)
  | _ + 1, _, _, [] => (0, some .endOfData)
  | count + 1, low, high, b :: bs =>
    if low ≤ b.toNat && b.toNat ≤ high then
      let (n, flaw) := continued count 0x80 0xBF bs
      (n + 1, flaw)
    else (0, some .badContinuation)

/-- The first flaw in bytes from a place on, where `skip` bytes belong to the character before. -/
def flawFrom? (place skip : Nat) : List UInt8 → Option Utf8Error
  | [] => none
  | b :: bs =>
    match skip with
    | skip + 1 => flawFrom? (place + 1) skip bs
    | 0 =>
      match continuation? b with
      | none => some ⟨.badStart, place, 1, b⟩
      | some (count, low, high) =>
        match continued count low high bs with
        | (n, some flaw) => some ⟨flaw, place, n + 1, b⟩
        | (n, none) => flawFrom? (place + 1) n bs

/-- The text that bytes hold. -/
def decodeUtf8 (bytes : List UInt8) : Except Utf8Error String :=
  match flawFrom? 0 0 bytes with
  | some e => .error e
  | none => .ok ((String.fromUTF8? ⟨bytes.toArray⟩).getD "")

end AudLang.Text
