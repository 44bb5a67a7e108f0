import LuaFront.Decimal.Shortest

/-!
# Float texts

A float is written with the fewest digits that read back. A `Style` says when an exponent is used
and how whole numbers end; `Style.render` writes a float in a style.
-/

namespace LuaFront.Decimal

/-- How floats are laid out. -/
structure Style where
  /-- From which and below which power of the leading digit no exponent is used; `none` if it never
  is. -/
  plain : Option (Int × Int)
  /-- Whether a whole number ends in a point and a zero. -/
  pointZero : Bool
deriving DecidableEq, Repr

namespace Style

/-- Digits with the point behind the first `k` of them; zeros fill what is missing. -/
def positional (s : Style) (digits : List Char) (k : Int) : List Char :=
  if k ≤ 0 then '0' :: '.' :: (List.replicate k.natAbs '0' ++ digits)
  else if k < digits.length then digits.take k.toNat ++ '.' :: digits.drop k.toNat
  else
    digits ++ List.replicate (k.toNat - digits.length) '0' ++
      if s.pointZero then ['.', '0'] else []

/-- Digits with the point behind the first of them, and the power of ten of that digit. -/
def scientific (digits : List Char) (power : Int) : List Char :=
  digits.take 1 ++ (if digits.length = 1 then [] else '.' :: digits.drop 1) ++
    'e' :: (toString power).toList

/-- The text of a decimal. -/
def layout (s : Style) (d : Decimal) : List Char :=
  let digits := Nat.toDigits 10 d.digits
  let power := digits.length + d.exponent - 1
  if s.plain.all fun (low, high) => low ≤ power && power < high then s.positional digits (power + 1)
  else scientific digits power

/-- The text of a float. -/
def render (s : Style) (x : Float) : List Char :=
  let bits := x.toBits
  let magnitude := bits &&& 0x7FFFFFFFFFFFFFFF
  let sign := if bits = magnitude then [] else ['-']
  if magnitude > 0x7FF0000000000000 then ['N', 'a', 'N']
  else if magnitude = 0x7FF0000000000000 then sign ++ ['i', 'n', 'f']
  else if magnitude = 0 then sign ++ s.positional ['0'] 1
  else sign ++ s.layout (Binary.ofBits magnitude).shortest

/-- Floats in trees have a point or an exponent, and use an exponent below 10 to the -4 and from 10
to the 16 on. -/
def literal : Style := ⟨some (-4, 16), true⟩

/-- Floats in types are written without exponent, and whole numbers without a point. -/
def bare : Style := ⟨none, false⟩

example : literal.render 1e16 = "1e16".toList ∧ literal.render 0.0001 = "0.0001".toList ∧
    literal.render (-1.5e-5) = "-1.5e-5".toList := by
  decide +kernel

example : bare.render 1e21 = '1' :: List.replicate 21 '0' := by decide +kernel

/-- Of the two decimals that are equally near to 2 to the -25, the greater one is written. -/
example : literal.render 2.98023223876953125e-8 = "2.9802322387695313e-8".toList := by
  decide +kernel

end Style

end LuaFront.Decimal
