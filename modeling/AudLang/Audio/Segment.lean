import AudLang.Decimal.Exact
import AudLang.Fault
import AudLang.Files.Tree

/-!
Pieces of sound.

A segment is a run of samples.  A frame holds one sample for each channel; a sample is a signed
number in little-endian bytes.  What a segment says about its length is computed in floats, as the
length is a quotient of two whole numbers.
-/

namespace AudLang

/-- A piece of sound. -/
structure Segment where
  channels : Nat
  /-- Frames per second. -/
  rate : Nat
  /-- Bytes per sample. -/
  width : Nat
  data : Bytes
deriving DecidableEq, Repr, Inhabited

namespace Segment

/-- A whole number in floats. -/
def real (n : Nat) : Float := Float.ofScientific n false 0

/-! ## Length -/

/-- Bytes per frame. -/
def frameWidth (s : Segment) : Nat := s.channels * s.width

/-- The number of frames. -/
def frames (s : Segment) : Except Fault Nat :=
  if s.frameWidth = 0 then .error .zeroDivisor else .ok (s.data.length / s.frameWidth)

/-- The length in seconds; zero if the rate is. -/
def seconds (s : Segment) : Except Fault Float := do
  if s.rate = 0 then return 0.0 else return real (← s.frames) / real s.rate

/-- The length in whole milliseconds. -/
def milliseconds (s : Segment) : Except Fault Int := do
  return (Decimal.truncate? ((← s.seconds) * 1000.0)).getD 0

/-- The number of kilobits per second. -/
def bitrate (s : Segment) : Int :=
  (Decimal.truncate? (real (s.rate * s.frameWidth * 8) / 1000.0)).getD 0

/-- The length in milliseconds to the nearest. -/
def extent (s : Segment) : Except Fault Int := do
  let frames ← s.frames
  if s.rate = 0 then .error .zeroDivisor
  else return (Decimal.round? (1000.0 * (real frames / real s.rate))).getD 0

/-! ## Samples -/

/-- The first `count` groups of `n` bytes. -/
def takeGroups (n : Nat) : Nat → Bytes → List Bytes
  | 0, _ => []
  | count + 1, b => b.take n :: takeGroups n count (b.drop n)

/-- Divides bytes into groups of `n`, leaving out an incomplete group at the end. -/
def groups (n : Nat) (b : Bytes) : List Bytes := takeGroups n (b.length / n) b

/-- The number that little-endian bytes hold. -/
def unsigned : Bytes → Nat
  | [] => 0
  | b :: bs => b.toNat + 256 * unsigned bs

/-- The signed number that little-endian bytes hold. -/
def sample (b : Bytes) : Int :=
  let n := unsigned b
  if 2 * n < Nat.pow 256 b.length then n else (n : Int) - Nat.pow 256 b.length

/-- The `width` little-endian bytes of a number, modulo their range. -/
def bytes : Nat → Int → Bytes
  | 0, _ => []
  | width + 1, n => UInt8.ofNat (n % 256).toNat :: bytes width (n / 256)

/-- The samples, if their width is one that can be worked on and none is incomplete. -/
def samples (s : Segment) : Except Fault (List Bytes) :=
  if s.width = 0 || 4 < s.width || s.data.length % s.width ≠ 0 then .error .badSamples
  else .ok (groups s.width s.data)

/-! ## Cutting -/

/-- The number of frames up to a time in milliseconds. -/
def framesUntil (s : Segment) (ms : Float) : Nat :=
  ((Decimal.truncate? (ms * (real s.rate / 1000.0))).getD 0).toNat

/-- The part between two times in milliseconds.  A time past the end counts as the end; frames that
the end lacks are filled with silence. -/
def slice (s : Segment) (start stop : Float) : Except Fault Segment := do
  let stopLimit := real (← s.extent).toNat
  let limited (ms : Float) : Float := if stopLimit < ms then stopLimit else ms
  let first := s.framesUntil (limited start) * s.frameWidth
  let last := s.framesUntil (limited stop) * s.frameWidth
  let data := (s.data.take last).drop first
  let missing := (last - first - data.length) / s.frameWidth
  if missing = 0 then return { s with data }
  else
    let frame := data.take s.frameWidth
    let _ ← { s with data := frame }.samples
    return { s with data := data ++ List.replicate (missing * frame.length) 0 }

/-! ## Joining -/

/-- Brings a segment to more channels, which only one with a single channel can be: each channel
gets the same samples. -/
def setChannels (s : Segment) (n : Nat) : Except Fault Segment := do
  if n = s.channels then return s
  else if s.channels = 1 then
    if n = 2 then
      return { s with channels := n, data := (← s.samples).flatMap fun b => b ++ b }
    else
      let _ ← s.frames
      if s.width ≠ 1 && s.width ≠ 2 && s.width ≠ 4 then .error .noEntry
      else if s.data.length % s.width ≠ 0 then .error .badValue
      else
        let data := (groups s.width s.data).flatMap fun b => (List.replicate n b).flatten
        return { s with channels := n, data }
  else if n = 1 then .error .zeroDivisor
  else .error .badValue

/-- A sample between two others that are `width` bytes wide: `d` of `n` parts of the first and the
rest of the second, computed on samples scaled to four bytes. -/
def blend (width d n : Nat) (first second : Int) : Int :=
  let unit := Nat.pow 256 (4 - width)
  let scaled (x : Int) : Float := (if x < 0 then -1.0 else 1.0) * real (x.natAbs * unit)
  let x := (scaled first * real d + scaled second * real (n - d)) / real n
  ((Decimal.truncate? x).getD 0) / unit

/-- Frames at another rate, by straight lines between neighbours.  `inRate` and `outRate` are
without a common divisor; `behind` says how far the next output lies behind the frame before. -/
def resample (width inRate outRate : Nat) (before : List Int) (behind : Int) :
    List (List Int) → List (List Int)
  | [] => []
  | frame :: rest =>
    let ahead := behind + outRate
    if ahead < 0 then resample width inRate outRate frame ahead rest
    else
      let count := ahead.toNat / inRate + 1
      let output := (List.range count).map fun i =>
        List.zipWith (blend width (ahead.toNat - i * inRate) outRate) before frame
      output ++ resample width inRate outRate frame (ahead - count * inRate) rest

/-- Brings a segment to another rate.  Without samples that is only a matter of its label. -/
def setRate (s : Segment) (rate : Nat) : Except Fault Segment :=
  if rate = s.rate then .ok s
  else if s.data.isEmpty then .ok { s with rate }
  else if Nat.pow 2 31 ≤ s.rate || Nat.pow 2 31 ≤ rate then .error .outOfRange
  else if s.frameWidth = 0 || 4 < s.width || s.data.length % s.frameWidth ≠ 0 || s.rate = 0
      || rate = 0 then .error .badSamples
  else
    let common := Nat.gcd s.rate rate
    let frames := (groups s.frameWidth s.data).map fun f => (groups s.width f).map sample
    let silent := List.replicate s.channels 0
    let output :=
      resample s.width (s.rate / common) (rate / common) silent (-(rate / common : Nat)) frames
    .ok { s with rate, data := output.flatten.flatMap (bytes s.width) }

/-- Brings a segment to wider samples: each is shifted up by the added bytes. -/
def setWidth (s : Segment) (width : Nat) : Except Fault Segment := do
  if width = s.width then return s
  else if 4 < width then .error .badSamples
  else
    let low := List.replicate (width - s.width) (0 : UInt8)
    return { s with width, data := (← s.samples).flatMap (low ++ ·) }

/-- One segment after the other, both brought to the larger number of channels, the larger rate and
the larger width. -/
def append (s t : Segment) : Except Fault Segment := do
  let channels := max s.channels t.channels
  let rate := max s.rate t.rate
  let width := max s.width t.width
  let s ← (← (← s.setChannels channels).setRate rate).setWidth width
  let t ← (← (← t.setChannels channels).setRate rate).setWidth width
  return { s with data := s.data ++ t.data }

/-! ## Loudness -/

/-- The factor of a gain in decibels. -/
def gainFactor (db : Float) : Except Fault Float :=
  let x := db / 20.0
  let y := Float.pow 10.0 x
  if y.isInf && !x.isInf then .error .outOfRange else .ok y

/-- A sample of `width` bytes made louder by a factor, held within the range and rounded down.  A
product that is no number gives the least 32-bit number. -/
def scale (width : Nat) (factor : Float) (x : Int) : Int :=
  let top := Nat.pow 256 width / 2
  let v := (if x < 0 then -real x.natAbs else real x.natAbs) * factor
  let v := if v > real (top - 1) then real (top - 1) else if v < 1.0 - real top then -real
    top else v
  (Decimal.truncate? v.floor).getD (-Nat.pow 2 31)

/-- The segment made louder by some decibels. -/
def gain (s : Segment) (db : Float) : Except Fault Segment := do
  let factor ← gainFactor db
  let louder := (← s.samples).flatMap fun b => bytes s.width (scale s.width factor (sample b))
  return { s with data := louder }

end Segment

end AudLang
