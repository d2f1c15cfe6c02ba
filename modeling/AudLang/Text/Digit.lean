import AudLang.Text.Letter

/-!
Decimal digits and other number characters.

The decimal digits of a script stand in ten consecutive code points in the order of their values,
so the table holds one code point per script: that of its zero (Unicode 14).  Characters that have
a numeric value without being decimal digits (`²`, `½`, `①`, `ⅷ`) may continue a word but do not
build numbers; those that are not letters either are listed in `numericRanges`.
-/

namespace AudLang.Text

/-- The zeros of the scripts above ASCII. -/
def zeros : List Nat :=
  [1632,1776,1984,2406,2534,2662,2790,2918,3046,3174,3302,3430,3558,3664,3792,3872,4160,4240,6112,
  6160,6470,6608,6784,6800,6992,7088,7232,7248,42528,43216,43264,43472,43504,43600,44016,65296,
  66720,68912,69734,69872,69942,70096,70384,70736,70864,71248,71360,71472,71904,72016,72784,73040,
  73120,92768,92864,93008,120782,120792,120802,120812,120822,123200,123632,125264,130032]

/-- The value of a decimal digit of any script. -/
def digitValue? (c : Char) : Option Nat :=
  if c.val < 128 then if c.isDigit then some (c.toNat - 48) else none
  else (zeros.find? fun z => z ≤ c.toNat && c.toNat ≤ z + 9).map (c.toNat - ·)

/-- Is `c` a decimal digit of some script? -/
def isDigit (c : Char) : Bool := (digitValue? c).isSome

/-- Characters with a numeric value that are neither letters nor decimal digits. -/
def numericRanges : List (Nat × Nat) :=
  rangesOf 0 [178,2,5,1,2,3,2357,6,376,6,120,3,133,7,217,7,17,9,433,10,1077,20,881,3,255,10,480,1,
    1685,1,3,6,6,10,198,51,2,5,726,60,78,22,630,30,1385,1,777,1,25,9,14,3,343,4,138,10,30,8,1,15,32,
    10,39,15,29734,10,320,6,22737,45,12,57,17,2,341,27,36,4,29,1,8,1,134,5,1154,8,25,7,39,9,75,5,22,
    6,160,2,2,16,2,46,64,9,52,2,30,3,75,5,104,8,24,8,41,7,330,6,352,31,158,10,42,4,112,7,134,20,379,
    20,1349,2,430,9,871,19,851,21,1067,111,18156,7,798,23,25673,20,108,25,5454,9,929,59,1,3,1,4,76,
    45,1,15,962,13]

/-- Is `c` a letter, a decimal digit or another character with a numeric value? -/
def isAlphanumeric (c : Char) : Bool :=
  if c.val < 128 then c.isAlphanum
  else isLetter c || isDigit c || inRanges numericRanges c.toNat

end AudLang.Text
