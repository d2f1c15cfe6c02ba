import AudLang.Audio.Segment

/-!
Sound files.

A file is a head of twelve bytes and a list of chunks, each with a name of four bytes, a size and a
body.  The chunk named `fmt ` says what the samples are, the chunk named `data` comes last and holds
them.  Samples of one byte are unsigned in files.
-/

namespace AudLang.Wave

open Segment

/-- A part of a sound file. -/
structure Chunk where
  name : Bytes
  size : Nat
  /-- The body and whatever comes after it. -/
  rest : Bytes

/-- The bytes of a name. -/
def nameOf (s : String) : Bytes := s.toList.map fun c => UInt8.ofNat c.toNat

/-- The first chunks, at most `count`; none comes after the samples. -/
def chunks : Nat → Bytes → List Chunk
  | 0, _ => []
  | count + 1, b =>
    if b.length < 8 then []
    else
      let c : Chunk := ⟨b.take 4, unsigned ((b.drop 4).take 4), b.drop 8⟩
      if c.name = nameOf "data" then [c] else c :: chunks count (c.rest.drop c.size)

/-- The number in the `size` bytes at a place. -/
def number (b : Bytes) (place size : Nat) : Nat := unsigned ((b.drop place).take size)

/-- Moves the samples of one byte between their unsigned and their signed form. -/
def bias (b : Bytes) : Bytes := b.map (· + 128)

/-- Widens a sample of three bytes by one byte below. -/
def widen (b : Bytes) : Bytes :=
  (if (b.getLast?.getD 0).toNat > 127 then 255 else 0) :: b

/-- The segment that a sound file holds, if it can be read. -/
def decode (file : Bytes) : Option Segment := do
  let cs := chunks 10 (file.drop 12)
  let format ← cs.find? (·.name = nameOf "fmt ")
  let last ← cs.getLast?
  let coding := number format.rest 0 2
  guard (16 ≤ format.size)
  guard (coding = 1 || coding = 65534)
  guard (last.name = nameOf "data")
  let channels := number format.rest 2 2
  let rate := number format.rest 4 4
  let width := number format.rest 14 2 / 8
  let data := last.rest.take last.size
  if width = 1 then return ⟨channels, rate, 1, bias data⟩
  else if width = 3 then
    guard (!data.isEmpty)
    return ⟨channels, rate, 4, (groups 3 data).flatMap widen⟩
  else return ⟨channels, rate, width, data⟩

/-- The head of a sound file for `size` bytes of samples. -/
def header (s : Segment) (size : Nat) : Bytes :=
  nameOf "RIFF" ++ bytes 4 (36 + size) ++ nameOf "WAVE" ++ nameOf "fmt " ++ bytes 4 16 ++ bytes 2 1
    ++ bytes 2 s.channels ++ bytes 4 s.rate ++ bytes 4 (s.channels * s.rate * s.width)
    ++ bytes 2 s.frameWidth ++ bytes 2 (8 * s.width) ++ nameOf "data" ++ bytes 4 size

/-- What comes of writing a segment into a file: the bytes that are in the file in the end, and why
they are not the whole, if they are not. -/
structure Written where
  bytes : Bytes
  fault : Option Fault
deriving DecidableEq, Repr

/-- Writes a segment as a sound file.  A segment without channels or rate or with samples of
impossible width leaves an empty file; numbers too large for the head leave its beginning.  The
size of the whole frames is written first and made right at the end, where it may have become too
large. -/
def encode (s : Segment) : Written :=
  let body := if s.width = 1 then bias s.data else s.data
  let whole := s.data.length / s.frameWidth * s.frameWidth
  if s.channels = 0 || s.width = 0 || 4 < s.width || s.rate = 0 then ⟨[], some .badSound⟩
  else if Nat.pow 2 32 ≤ s.channels * s.rate * s.width || Nat.pow 2 16 ≤ s.frameWidth
      || Nat.pow 2 32 ≤ 36 + whole then
    ⟨nameOf "RIFFRIFF", some .badSamples⟩
  else if Nat.pow 2 32 ≤ 36 + s.data.length then ⟨header s whole ++ body, some .badSamples⟩
  else ⟨header s s.data.length ++ body, none⟩

/-- Writes a segment in a format.  The two formats known are the sound file and the bare samples;
another needs a program that is not there. -/
def writeAs (s : Segment) (format : String) : Written :=
  if format = "wav" then encode s
  else if format = "raw" then ⟨s.data, none⟩
  else
    match (encode s).fault with
    | some f => ⟨[], some f⟩
    | none => ⟨[], some .noFile⟩

end AudLang.Wave
