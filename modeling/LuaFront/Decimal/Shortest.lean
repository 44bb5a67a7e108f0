/-!
# Shortest decimals

A positive double stands for all reals that round to it. `Binary.shortest` is a decimal among them
with as few digits as possible, and of those the nearest to the double. All of it is exact
arithmetic on natural numbers.

* `Binary.readsBack` says which decimals round to a double.
* `Binary.readsBack_of_pick?`: what is picked on a grid rounds to the double.
-/

namespace LuaFront

/-- A decimal, `digits` times 10 to the `exponent`. -/
structure Decimal where
  digits : Nat
  exponent : Int
deriving DecidableEq, Repr

namespace Decimal

/-- A positive double, `mantissa` times 2 to the `exponent`. -/
structure Binary where
  mantissa : Nat
  exponent : Int
  /-- Whether the double below is half as far away as the double above. -/
  narrow : Bool
deriving DecidableEq, Repr

namespace Binary

/-- The double with the given bits, leaving its sign out of account. -/
def ofBits (bits : UInt64) : Binary :=
  let power := ((bits >>> 52) &&& 0x7FF).toNat
  let part := (bits &&& 0xFFFFFFFFFFFFF).toNat
  if power = 0 then ⟨part, -1074, false⟩
  else ⟨Nat.pow 2 52 + part, power - 1075, part = 0 ∧ 1 < power⟩

/-- Compares `a` times 10 to the `i` with `n` times 2 to the `j`. -/
def compareScaled (a : Nat) (i : Int) (n : Nat) (j : Int) : Ordering :=
  compare (a * Nat.pow 10 i.toNat * Nat.pow 2 (-j).toNat)
    (n * Nat.pow 2 j.toNat * Nat.pow 10 (-i).toNat)

/-- Whether a decimal rounds to the double: it lies no further from it than half the way to the
doubles beside it, and only an even mantissa takes in the ends of that range. -/
def readsBack (x : Binary) (d : Decimal) : Bool :=
  let low := 4 * x.mantissa - if x.narrow then 1 else 2
  let high := 4 * x.mantissa + 2
  let even := x.mantissa % 2 = 0
  let fromLow := compareScaled d.digits d.exponent low (x.exponent - 2)
  let fromHigh := compareScaled d.digits d.exponent high (x.exponent - 2)
  (fromLow = .gt ∨ even ∧ fromLow = .eq) ∧ (fromHigh = .lt ∨ even ∧ fromHigh = .eq)

/-- How often 10 to the `grid` goes into the double. -/
def floor (x : Binary) (grid : Int) : Nat :=
  x.mantissa * Nat.pow 2 x.exponent.toNat * Nat.pow 10 (-grid).toNat /
    (Nat.pow 2 (-x.exponent).toNat * Nat.pow 10 grid.toNat)

/-- The multiple of 10 to the `grid` that rounds to the double and is nearest to it. Of two that are
equally near it is the greater. -/
def pick? (x : Binary) (grid : Int) : Option Decimal :=
  let n := x.floor grid
  let nearBelow := compareScaled (2 * n + 1) grid (2 * x.mantissa) x.exponent = .gt
  if x.readsBack ⟨n, grid⟩ ∧ (nearBelow ∨ ¬ x.readsBack ⟨n + 1, grid⟩) then some ⟨n, grid⟩
  else if x.readsBack ⟨n + 1, grid⟩ then some ⟨n + 1, grid⟩
  else none

theorem readsBack_of_pick? {x : Binary} {grid : Int} {d : Decimal} (h : x.pick? grid = some d) :
    x.readsBack d := by
  simp only [pick?] at h
  split at h
  · rename_i hb
    obtain rfl := Option.some.inj h
    exact hb.1
  · split at h
    · rename_i ha
      obtain rfl := Option.some.inj h
      exact ha
    · cases h

/-- The number of decimal digits of a natural number. -/
def width (n : Nat) : Nat := (Nat.toDigits 10 n).length

/-- The least `k` such that the double is less than 10 to the `k`. -/
def magnitude (x : Binary) : Int := width (x.floor (-400)) - 400

/-- The double as a decimal, to the last digit. -/
def exact (x : Binary) : Decimal :=
  ⟨x.mantissa * Nat.pow 2 x.exponent.toNat * Nat.pow 5 (-x.exponent).toNat, min x.exponent 0⟩

end Binary

/-- The same decimal without up to `n` zeros at the end of its digits. -/
def strip : Nat → Decimal → Decimal
  | 0, d => d
  | n + 1, d => if d.digits % 10 = 0 then strip n ⟨d.digits / 10, d.exponent + 1⟩ else d

/-- The nearest of the shortest decimals that round to the double. Seventeen digits are enough. -/
def Binary.shortest (x : Binary) : Decimal :=
  let d := ((List.range 17).findSome? fun (n : Nat) => x.pick? (x.magnitude - 1 - n)).getD x.exact
  d.strip (width d.digits - 1)

end Decimal

end LuaFront
