import LuaFront.Text.Cut

/-!
# Numerals

A numeral is cut out of a program text by `Numeral.cut`, which takes every name character and point
that touches it along, and read by `Numeral.value?`, which refuses a text that is no numeral.

A run of decimal digits is an integer while it fits into 64 bits, and a float beyond. Hexadecimal
digits are an integer modulo 2 to the 64. Decimal floats are rounded once, to the nearest double.
Hexadecimal floats gather their digits in a double and are scaled by a power of two.
-/

namespace LuaFront

/-- The value of a numeral. -/
inductive Number where
  | integer (value : Int64)
  | float (value : Float)
deriving Repr

namespace Numeral

open Text

/-! ## Where a numeral ends -/

def isSign (c : Char) : Bool := c = '+' || c = '-'

def isPoint (c : Char) : Bool := c = '.'

def isDecimalMark (c : Char) : Bool := c = 'e' || c = 'E'

def isBinaryMark (c : Char) : Bool := c = 'p' || c = 'P'

def isHexMark (c : Char) : Bool := c = 'x' || c = 'X'

theorem isSign_iff {c : Char} : isSign c ↔ c = '+' ∨ c = '-' := by simp [isSign]

theorem isPoint_iff {c : Char} : isPoint c ↔ c = '.' := decide_eq_true_iff

theorem isDecimalMark_iff {c : Char} : isDecimalMark c ↔ c = 'e' ∨ c = 'E' := by
  simp [isDecimalMark]

theorem isBinaryMark_iff {c : Char} : isBinaryMark c ↔ c = 'p' ∨ c = 'P' := by
  simp [isBinaryMark]

theorem isHexMark_iff {c : Char} : isHexMark c ↔ c = 'x' ∨ c = 'X' := by simp [isHexMark]

theorem not_isSign_of_isDigit {c : Char} (h : isDigit c) : !isSign c := by
  rw [Bool.not_eq_true', Bool.eq_false_iff, Ne, isSign_iff]
  rintro (rfl | rfl) <;> exact nomatch h

/-- Digits, digits behind a point, and an exponent of decimal digits behind a mark; any of them may
be missing. -/
def cutBody (digit mark : Char → Bool) : Cut :=
  (Cut.many digit).andThen <|
    (Cut.led isPoint (Cut.many digit)).andThen <|
      Cut.led mark ((Cut.one isSign).andThen (Cut.many isDigit))

/-- The numeral proper, decimal or hexadecimal. -/
def cutNumeral : Cut
  | '0' :: x :: text =>
    if isHexMark x then
      let (front, rest) := cutBody isHexDigit isBinaryMark text
      ('0' :: x :: front, rest)
    else cutBody isDigit isDecimalMark ('0' :: x :: text)
  | text => cutBody isDigit isDecimalMark text

/-- The numeral at the start of a text, with all name characters and points that touch its end. -/
def cut : Cut := cutNumeral.andThen (Cut.many fun c => isNameChar c || isPoint c)

theorem lossless_cutBody (digit mark : Char → Bool) : (cutBody digit mark).Lossless :=
  (Cut.lossless_many _).andThen <| ((Cut.lossless_many _).led _).andThen <|
    ((Cut.lossless_one _).andThen (Cut.lossless_many _)).led _

theorem lossless_cutNumeral : cutNumeral.Lossless := fun text => by
  unfold cutNumeral
  split
  · split
    · simp [lossless_cutBody isHexDigit isBinaryMark _]
    · exact lossless_cutBody ..
  · exact lossless_cutBody ..

theorem lossless_cut : cut.Lossless := lossless_cutNumeral.andThen (Cut.lossless_many _)

/-! ## What a numeral is worth -/

/-- The value of a decimal or hexadecimal digit. -/
def digitValue (c : Char) : Nat :=
  if isDigit c then c.toNat - '0'.toNat
  else if 'a' ≤ c then c.toNat - 'a'.toNat + 10
  else c.toNat - 'A'.toNat + 10

/-- The natural number written with the given digits. -/
def ofDigits (base : Nat) (digits : Chars) : Nat :=
  digits.foldl (fun n c => n * base + digitValue c) 0

/-- The double nearest to `m` times 10 to the `e`. -/
def nearest (m : Nat) (e : Int) : Float :=
  let magnitude := (Nat.toDigits 10 m).length + e
  if m = 0 ∨ magnitude < -330 then 0.0
  else if 310 < magnitude then 1.0 / 0.0
  else Float.ofScientific m (e < 0) e.natAbs

/-- Takes a sign off a text: whether it is a minus, and the rest. -/
def splitSign : Chars → Bool × Chars
  | '-' :: text => (true, text)
  | '+' :: text => (false, text)
  | text => (false, text)

/-- The exponent behind a mark: an optional sign, and digits to the end of the text. -/
def exponent? (text : Chars) : Option Int :=
  let (negative, digits) := splitSign text
  if digits ≠ [] ∧ digits.all isDigit then
    let e : Int := ofDigits 10 digits
    some (if negative then -e else e)
  else none

/-- The exponent part of a numeral, zero if it is missing. -/
def exponentPart? (mark : Char → Bool) : Chars → Option Int
  | [] => some 0
  | c :: text => if mark c then exponent? text else none

/-- The digits behind a point, none if there is no point, and the text behind them. -/
def fraction (digit : Char → Bool) : Chars → Chars × Chars
  | '.' :: text => Cut.many digit text
  | text => ([], text)

/-- The value of a decimal float with an optional sign. -/
def decimal? (text : Chars) : Option Float :=
  let (negative, text) := splitSign text
  let (whole, text) := Cut.many isDigit text
  let (part, text) := fraction isDigit text
  if whole = [] ∧ part = [] then none
  else (exponentPart? isDecimalMark text).map fun e =>
    let value := nearest (ofDigits 10 (whole ++ part)) (e - part.length)
    if negative then -value else value

/-- Two to the power of `e`; a negative power is the reciprocal of the positive one. -/
def powerOfTwo (e : Int) : Float :=
  if e < 0 then 1.0 / Float.ofNat (Nat.pow 2 e.natAbs) else Float.ofNat (Nat.pow 2 e.natAbs)

/-- `value` times 2 to the `e`, in steps of at most 1000 binary places, and from 2200 places on as
for 2200. -/
def scale (value : Float) (e : Int) : Float :=
  let e := min (max e (-2200)) 2200
  if e < -1000 then value * powerOfTwo (-1000) * powerOfTwo (e + 1000)
  else if 1000 < e then value * powerOfTwo 1000 * powerOfTwo (e - 1000)
  else value * powerOfTwo e

/-- Hexadecimal digits gathered in a double, rounded after every digit. -/
def hexMantissa (digits : Chars) : Float :=
  digits.foldl (fun m c => m * 16.0 + Float.ofNat (digitValue c)) 0.0

/-- The value of what follows the mark of a hexadecimal numeral. -/
def hexadecimal? (text : Chars) : Option Number :=
  let (whole, text) := Cut.many isHexDigit text
  let (part, rest) := fraction isHexDigit text
  if whole = [] ∧ part = [] then none
  else if text = [] then some (.integer (Int64.ofNat (ofDigits 16 whole)))
  else (exponentPart? isBinaryMark rest).map fun e =>
    .float (scale (hexMantissa (whole ++ part)) (e - 4 * part.length))

/-- The value of a numeral, if the text is one. -/
def value? : Chars → Option Number
  | '0' :: x :: text =>
    if isHexMark x then hexadecimal? text else decimalValue? ('0' :: x :: text)
  | text => decimalValue? text
where
  /-- The value of a decimal numeral: an integer if it is a run of digits that fits. -/
  decimalValue? (text : Chars) : Option Number :=
    if text ≠ [] ∧ text.all isDigit then
      let n := ofDigits 10 text
      if 2 * n < UInt64.size then some (.integer (Int64.ofNat n)) else some (.float (nearest n 0))
    else (decimal? text).map .float

end Numeral

end LuaFront
