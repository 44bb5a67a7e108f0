import LuaFront.Decimal.Shortest
import Mathlib.Algebra.Order.Field.Power
import Mathlib.Data.Rat.Cast.Order
import Mathlib.Tactic.FieldSimp
import Mathlib.Tactic.Positivity
import Mathlib.Tactic.Ring

/-!
# Decimals that round to a double

The reals that round to a double lie between two ends, halfway to the doubles beside it
(`Binary.Takes`). In the order of their bits, one double ends where the next one begins
(`Binary.high_nth`), and of two neighbours only one has an even mantissa and takes in the end
between them. So no real rounds to two doubles.

* `Binary.readsBack_iff`: the test on natural numbers is the one on rationals.
* `Binary.takes_shortest`: the shortest decimal rounds to its double.
* `Binary.nth_inj_of_takes`: what rounds to two doubles rounds to one.
-/

namespace LuaFront.Decimal

/-- The number that a decimal stands for. -/
def value (d : Decimal) : ℚ := d.digits * 10 ^ d.exponent

/-- Zeros at the end of the digits can go over to the exponent. -/
theorem value_strip (n : Nat) (d : Decimal) : (d.strip n).value = d.value := by
  induction n generalizing d with
  | zero => rfl
  | succ n ih =>
    rw [strip]
    split
    · next zero =>
      obtain ⟨k, eq⟩ := Nat.dvd_of_mod_eq_zero zero
      have part : d.digits / 10 = k := by omega
      rw [ih, value, value, part, eq, zpow_add_one₀ (by decide)]
      push_cast
      ring
    · rfl

namespace Binary

/-! ## Comparisons -/

/-- Natural numbers are compared in place of rationals, both multiplied by the same. -/
theorem exists_scale (a : Nat) (i : Int) (n : Nat) (j : Int) : ∃ c : ℚ, 0 < c ∧
    ((a * Nat.pow 10 i.toNat * Nat.pow 2 (-j).toNat : Nat) : ℚ) = a * 10 ^ i * c ∧
    ((n * Nat.pow 2 j.toNat * Nat.pow 10 (-i).toNat : Nat) : ℚ) = n * 2 ^ j * c := by
  have split {b : ℚ} (hb : b ≠ 0) (k : Int) : b ^ k * b ^ (-k).toNat = b ^ k.toNat := by
    rw [← zpow_natCast, ← zpow_natCast, ← zpow_add₀ hb]
    congr 1
    omega
  refine ⟨10 ^ (-i).toNat * 2 ^ (-j).toNat, by positivity, ?_, ?_⟩
  · rw [← mul_assoc, mul_assoc (a : ℚ), split (by decide)]
    simp only [Nat.pow_eq]
    push_cast
    rfl
  · rw [mul_comm (10 ^ _), ← mul_assoc, mul_assoc (n : ℚ), split (by decide)]
    simp only [Nat.pow_eq]
    push_cast
    rfl

variable (a : Nat) (i : Int) (n : Nat) (j : Int)

theorem compareScaled_eq_lt : compareScaled a i n j = .lt ↔ (a * 10 ^ i : ℚ) < n * 2 ^ j := by
  obtain ⟨c, pos, left, right⟩ := exists_scale a i n j
  rw [compareScaled, compare_lt_iff_lt, ← Nat.cast_lt (α := ℚ), left, right,
    mul_lt_mul_iff_left₀ pos]

theorem compareScaled_eq_gt : compareScaled a i n j = .gt ↔ (n * 2 ^ j : ℚ) < a * 10 ^ i := by
  obtain ⟨c, pos, left, right⟩ := exists_scale a i n j
  rw [compareScaled, compare_gt_iff_gt, ← Nat.cast_lt (α := ℚ), left, right,
    mul_lt_mul_iff_left₀ pos]

theorem compareScaled_eq_eq : compareScaled a i n j = .eq ↔ (a * 10 ^ i : ℚ) = n * 2 ^ j := by
  obtain ⟨c, pos, left, right⟩ := exists_scale a i n j
  rw [compareScaled, compare_eq_iff_eq, ← Nat.cast_inj (R := ℚ), left, right,
    mul_left_inj' pos.ne']

/-! ## The reals around a double -/

/-- The number that a double stands for. -/
def value (x : Binary) : ℚ := x.mantissa * 2 ^ x.exponent

/-- The end halfway to the double below. -/
def low (x : Binary) : ℚ :=
  (4 * x.mantissa - (if x.narrow then 1 else 2) : Nat) * 2 ^ (x.exponent - 2)

/-- The end halfway to the double above. -/
def high (x : Binary) : ℚ := (4 * x.mantissa + 2 : Nat) * 2 ^ (x.exponent - 2)

/-- A number rounds to the double. Only an even mantissa takes in the ends. -/
structure Takes (x : Binary) (v : ℚ) : Prop where
  low_le : x.low ≤ v
  le_high : v ≤ x.high
  apart : x.mantissa % 2 ≠ 0 → v ≠ x.low ∧ v ≠ x.high

theorem readsBack_iff {x : Binary} {d : Decimal} : x.readsBack d ↔ x.Takes d.value := by
  simp only [readsBack, decide_eq_true_eq, compareScaled_eq_gt, compareScaled_eq_lt,
    compareScaled_eq_eq]
  rw [← Decimal.value, ← low, ← high]
  constructor
  · rintro ⟨above, below⟩
    refine ⟨?_, ?_, fun odd => ?_⟩
    · exact above.elim le_of_lt fun h => h.2.ge
    · exact below.elim le_of_lt fun h => h.2.le
    · exact ⟨(above.resolve_right fun h => odd h.1).ne', (below.resolve_right fun h => odd h.1).ne⟩
  · rintro ⟨above, below, apart⟩
    by_cases even : x.mantissa % 2 = 0
    · exact ⟨above.lt_or_eq.imp_right fun h => ⟨even, h.symm⟩,
        below.lt_or_eq.imp_right fun h => ⟨even, h⟩⟩
    · obtain ⟨first, second⟩ := apart even
      exact ⟨.inl (above.lt_of_ne first.symm), .inl (below.lt_of_ne second)⟩

theorem value_eq (x : Binary) : x.value = (4 * x.mantissa : Nat) * 2 ^ (x.exponent - 2) := by
  rw [value, zpow_sub₀ (by decide)]
  push_cast
  ring

theorem low_lt_value {x : Binary} (pos : 0 < x.mantissa) : x.low < x.value := by
  rw [low, value_eq]
  refine mul_lt_mul_of_pos_right (Nat.cast_lt.2 ?_) (by positivity)
  split <;> omega

theorem value_lt_high (x : Binary) : x.value < x.high := by
  rw [high, value_eq]
  exact mul_lt_mul_of_pos_right (Nat.cast_lt.2 (by omega)) (by positivity)

theorem low_lt_high (x : Binary) : x.low < x.high := by
  rw [low, high]
  exact mul_lt_mul_of_pos_right (Nat.cast_lt.2 (by omega)) (by positivity)

theorem value_exact (x : Binary) : x.exact.value = x.value := by
  rw [exact, Decimal.value, value]
  simp only [Nat.pow_eq]
  push_cast
  rcases Int.le_total 0 x.exponent with nonneg | nonpos
  · obtain ⟨n, eq⟩ := Int.eq_ofNat_of_zero_le nonneg
    have zero : (-(n : Int)).toNat = 0 := by omega
    simp [eq, zero]
  · obtain ⟨n, eq⟩ := Int.eq_ofNat_of_zero_le (Int.neg_nonneg_of_nonpos nonpos)
    have power : x.exponent = -(n : Int) := by omega
    have none : (-(n : Int)).toNat = 0 := by omega
    have ten : (10 : ℚ) ^ n = 2 ^ n * 5 ^ n := by rw [← mul_pow]; norm_num
    rw [power, none, Int.neg_neg, Int.toNat_natCast, Int.min_eq_left (by omega), zpow_neg, zpow_neg,
      zpow_natCast, zpow_natCast, ten]
    field_simp

theorem takes_value {x : Binary} (pos : 0 < x.mantissa) : x.Takes x.value :=
  ⟨(low_lt_value pos).le, x.value_lt_high.le, fun _ =>
    ⟨(low_lt_value pos).ne', x.value_lt_high.ne⟩⟩

/-- The shortest decimal rounds to its double. -/
theorem takes_shortest {x : Binary} (pos : 0 < x.mantissa) : x.Takes x.shortest.value := by
  rw [shortest, value_strip]
  cases found : (List.range 17).findSome? fun (n : Nat) => x.pick? (x.magnitude - 1 - n) with
  | none =>
    rw [Option.getD_none, value_exact]
    exact takes_value pos
  | some d =>
    obtain ⟨n, -, picked⟩ := List.exists_of_findSome?_eq_some found
    exact readsBack_iff.1 (readsBack_of_pick? picked)

/-! ## Doubles in the order of their bits -/

/-- The double with the given number of doubles in front of it. -/
def nth (n : Nat) : Binary :=
  if n / 2 ^ 52 = 0 then ⟨n % 2 ^ 52, -1074, false⟩
  else ⟨2 ^ 52 + n % 2 ^ 52, (n / 2 ^ 52 : Nat) - 1075, n % 2 ^ 52 = 0 ∧ 1 < n / 2 ^ 52⟩

theorem nth_of_lt {r : Nat} (h : r < 2 ^ 52) : nth r = ⟨r, -1074, false⟩ := by
  rw [nth, Nat.div_eq_of_lt h, if_pos rfl, Nat.mod_eq_of_lt h]

theorem nth_add {r : Nat} (p : Nat) (h : r < 2 ^ 52) :
    nth (2 ^ 52 * (p + 1) + r) = ⟨2 ^ 52 + r, p - 1074, r = 0 ∧ 0 < p⟩ := by
  have power : (2 ^ 52 * (p + 1) + r) / 2 ^ 52 = p + 1 := by omega
  have part : (2 ^ 52 * (p + 1) + r) % 2 ^ 52 = r := by omega
  have exponent : ((p + 1 : Nat) : Int) - 1075 = p - 1074 := by omega
  rw [nth, power, part, if_neg (Nat.succ_ne_zero p), exponent]
  simp

theorem takes_zero : (nth 0).Takes 0 := by
  rw [nth_of_lt (by decide)]
  refine ⟨?_, ?_, fun odd => absurd rfl odd⟩
  · simp [low]
  · rw [high]
    positivity

theorem ofBits_eq_nth {bits : UInt64} (h : bits.toNat < 2 ^ 63) : ofBits bits = nth bits.toNat := by
  have power : ((bits >>> 52) &&& 0x7FF).toNat = bits.toNat / 2 ^ 52 := by
    have field : ((bits >>> 52) &&& 0x7FF).toNat = bits.toNat / 2 ^ 52 % 2 ^ 11 := by
      rw [← Nat.and_two_pow_sub_one_eq_mod, ← Nat.shiftRight_eq_div_pow]
      rfl
    omega
  have part : (bits &&& 0xFFFFFFFFFFFFF).toNat = bits.toNat % 2 ^ 52 := by
    rw [← Nat.and_two_pow_sub_one_eq_mod]
    rfl
  simp only [ofBits, power, part, nth, Nat.pow_eq]

theorem mantissa_nth_pos {n : Nat} (h : 0 < n) : 0 < (nth n).mantissa := by
  rw [nth]
  split
  · show 0 < n % 2 ^ 52
    omega
  · exact Nat.add_pos_left (by decide) _

theorem mantissa_nth_mod_two (n : Nat) : (nth n).mantissa % 2 = n % 2 := by
  rw [nth]
  split
  · show n % 2 ^ 52 % 2 = n % 2
    omega
  · show (2 ^ 52 + n % 2 ^ 52) % 2 = n % 2
    omega

/-- Equally spaced doubles. -/
theorem high_eq_low (m : Nat) (e : Int) (narrow : Bool) :
    high ⟨m, e, narrow⟩ = low ⟨m + 1, e, false⟩ := by
  have digits : 4 * (m + 1) - 2 = 4 * m + 2 := by omega
  rw [high, low, if_neg Bool.false_ne_true, digits]

/-- The first double of a power of two is twice as far from the next as from the one before. -/
theorem high_eq_low_double {m : Nat} (pos : 0 < m) (e : Int) (narrow : Bool) :
    high ⟨2 * m - 1, e, narrow⟩ = low ⟨m, e + 1, true⟩ := by
  have digits : 4 * (2 * m - 1) + 2 = (4 * m - 1) * 2 := by omega
  have exponent : e + 1 - 2 = e - 2 + 1 := by omega
  rw [high, low, if_pos rfl, digits, exponent, zpow_add_one₀ (by decide)]
  push_cast
  ring

/-- Where one double ends, the next one begins. -/
theorem high_nth (n : Nat) : (nth n).high = (nth (n + 1)).low := by
  have bound := Nat.mod_lt n (by decide : 0 < 2 ^ 52)
  obtain ⟨p, r, small, rfl⟩ : ∃ p r, r < 2 ^ 52 ∧ n = 2 ^ 52 * p + r :=
    ⟨n / 2 ^ 52, n % 2 ^ 52, bound, (Nat.div_add_mod n _).symm⟩
  rcases Nat.lt_or_ge (r + 1) (2 ^ 52) with more | last
  · cases p with
    | zero =>
      rw [Nat.mul_zero, Nat.zero_add, nth_of_lt small, nth_of_lt more]
      exact high_eq_low r _ _
    | succ p =>
      have wide : decide (r + 1 = 0 ∧ 0 < p) = false := by simp
      rw [Nat.add_assoc, nth_add p small, nth_add p more, wide]
      exact high_eq_low (2 ^ 52 + r) _ _
  · obtain rfl : r = 2 ^ 52 - 1 := by omega
    have next : 2 ^ 52 * p + (2 ^ 52 - 1) + 1 = 2 ^ 52 * (p + 1) + 0 := by omega
    rw [next, nth_add p (by decide)]
    cases p with
    | zero =>
      rw [Nat.mul_zero, Nat.zero_add, nth_of_lt small]
      exact high_eq_low (2 ^ 52 - 1) (-1074) false
    | succ p =>
      have narrow : decide (0 = 0 ∧ 0 < p + 1) = true := by simp
      have exponent : ((p + 1 : Nat) : Int) - 1074 = p - 1074 + 1 := by omega
      rw [nth_add p small, narrow, exponent]
      exact high_eq_low_double (Nat.two_pow_pos 52) _ _

theorem high_nth_le_low {m n : Nat} (lt : m < n) : (nth m).high ≤ (nth n).low := by
  induction n, lt using Nat.le_induction with
  | base => exact (high_nth m).le
  | succ n _ ih => exact ih.trans ((low_lt_high _).le.trans (high_nth n).le)

/-- A number rounds to one double at most. -/
theorem not_takes_of_lt {m n : Nat} (lt : m < n) {v : ℚ} (hm : (nth m).Takes v)
    (hn : (nth n).Takes v) : False := by
  have low := hn.low_le
  have high := hm.le_high
  rcases Nat.eq_or_lt_of_le (Nat.succ_le_of_lt lt) with rfl | far
  · -- The number is the end between two neighbours.
    have ends := high_nth m
    have same : v = (nth m).high := le_antisymm high (ends.le.trans low)
    have first : (nth m).mantissa % 2 = 0 := by
      by_contra odd
      exact (hm.apart odd).2 same
    have second : (nth (m + 1)).mantissa % 2 = 0 := by
      by_contra odd
      exact (hn.apart odd).1 (same.trans ends)
    rw [mantissa_nth_mod_two] at first second
    omega
  · have between := (high_nth m).le.trans_lt (low_lt_high (nth (m + 1)))
    exact absurd (between.trans_le (high_nth_le_low far)) (not_lt.2 (low.trans high))

theorem nth_inj_of_takes {m n : Nat} {v : ℚ} (hm : (nth m).Takes v) (hn : (nth n).Takes v) :
    m = n := by
  rcases Nat.lt_trichotomy m n with lt | eq | lt
  · exact (not_takes_of_lt lt hm hn).elim
  · exact eq
  · exact (not_takes_of_lt lt hn hm).elim

end Binary

end LuaFront.Decimal
