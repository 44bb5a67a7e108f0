import LuaFront.Text.Class

/-!
# Decoding bytes

UTF-8 is decoded one byte at a time. Between two bytes the decoder is `Decoder.idle` or in the
middle of a character, and then it knows what the next byte may be. A byte that cannot go on with
the character gives up what was read of it as one replacement character and is read afresh, so
every maximal ill-formed part of the input becomes one replacement character.
-/

namespace LuaFront.Text

/-- What stands for bytes that are no character. -/
def replacement : Char := '\ufffd'

/-- Where the decoder stands between two bytes. -/
inductive Decoder where
  /-- Between two characters. -/
  | idle
  /-- Inside a character whose bits so far are `bits`, with `owed + 1` bytes to come, the next of
  them between `low` and `high`. -/
  | inside (bits owed : Nat) (low high : UInt8)
deriving DecidableEq, Repr

namespace Decoder

/-- Reads the first byte of a character: what it completes, and the state behind it. -/
def lead (b : UInt8) : Chars × Decoder :=
  if b < 0x80 then ([Char.ofNat b.toNat], .idle)
  else if b < 0xC2 then ([replacement], .idle)
  else if b < 0xE0 then ([], .inside (b.toNat - 0xC0) 0 0x80 0xBF)
  else if b < 0xF0 then
    let low := if b = 0xE0 then 0xA0 else 0x80
    let high := if b = 0xED then 0x9F else 0xBF
    ([], .inside (b.toNat - 0xE0) 1 low high)
  else if b < 0xF5 then
    let low := if b = 0xF0 then 0x90 else 0x80
    let high := if b = 0xF4 then 0x8F else 0xBF
    ([], .inside (b.toNat - 0xF0) 2 low high)
  else ([replacement], .idle)

/-- Reads one byte: the characters it completes, and the state behind it. -/
def step : Decoder → UInt8 → Chars × Decoder
  | .idle, b => lead b
  | .inside bits owed low high, b =>
    if low ≤ b && b ≤ high then
      let bits := bits * 64 + (b.toNat - 0x80)
      match owed with
      | 0 => ([Char.ofNat bits], .idle)
      | owed + 1 => ([], .inside bits owed 0x80 0xBF)
    else
      let (cs, d) := lead b
      (replacement :: cs, d)

/-- Reads all bytes. What is left of a character at the end becomes one replacement character. -/
def run : Decoder → List UInt8 → Chars
  | .idle, [] => []
  | .inside .., [] => [replacement]
  | d, b :: bytes =>
    let (cs, d) := d.step b
    cs ++ d.run bytes

end Decoder

/-- The characters of a byte sequence, well-formed or not. -/
def decode (bytes : List UInt8) : Chars := Decoder.idle.run bytes

end LuaFront.Text
