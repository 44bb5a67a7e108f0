import LuaFront.Decimal.Style
import LuaFront.Proofs.Numerals
import LuaFront.Proofs.Quoting
import LuaFront.Proofs.Rounding

/-!
# Floats are told apart by their texts

The text of a float stands for a decimal that rounds to it, whatever the style: digits, zeros and an
exponent can be laid out in several ways, but the decimal is read back from all of them. No decimal
rounds to two floats, and the sign stands in front. So finite floats with the same text are the
same, and zeros differ by their signs.

* `Decimal.Style.shows_layout`: the text of a decimal stands for the decimal.
* `Decimal.Style.render_of_isFinite`: the text of a float stands for a decimal that rounds to it.
* `Decimal.Style.render_inj`: finite floats with the same text are the same.
-/

namespace LuaFront

open Text Numeral

/-! ## Digits -/

namespace Numeral

theorem ofDigits_append (b : Nat) (u v : Chars) :
    ofDigits b (u ++ v) = ofDigits b u * b ^ v.length + ofDigits b v := by
  induction v using List.reverseRecOn with
  | nil => simp [ofDigits]
  | append_singleton v c ih =>
    rw [← List.append_assoc, ofDigits_concat, ofDigits_concat, ih, List.length_append,
      List.length_singleton, Nat.pow_succ, Nat.add_mul, Nat.mul_assoc, Nat.add_assoc]

theorem ofDigits_zeros (b n : Nat) : ofDigits b (List.replicate n '0') = 0 := by
  induction n with
  | zero => rfl
  | succ n ih =>
    rw [List.replicate_succ', ofDigits_concat, ih, Nat.zero_mul]
    rfl

theorem isDigit_of_mem_toDigits {n : Nat} {c : Char} (h : c ∈ Nat.toDigits 10 n) : isDigit c := by
  have digit := Nat.isDigit_of_mem_toDigits (by decide) (by decide) h
  simpa [isDigit, Char.isDigit, Char.le_def] using digit

/-- An integer is read back behind the mark of an exponent. -/
theorem exponent?_toString (n : Int) : exponent? (toString n).toList = some n := by
  have digits (k : Nat) : Nat.toDigits 10 k ≠ [] ∧ (Nat.toDigits 10 k).all isDigit :=
    ⟨Nat.toDigits_ne_nil, List.all_eq_true.2 fun _ => isDigit_of_mem_toDigits⟩
  have value (k : Nat) : ofDigits 10 (Nat.toDigits 10 k) = k :=
    ofDigits_toDigits (by decide) (by decide) k
  rw [Int.toString_eq_repr]
  cases n with
  | ofNat k =>
    have unsigned : splitSign (Nat.toDigits 10 k) = (false, Nat.toDigits 10 k) := by
      cases eq : Nat.toDigits 10 k with
      | nil => exact absurd eq Nat.toDigits_ne_nil
      | cons c text =>
        have digit := isDigit_of_mem_toDigits (eq ▸ List.mem_cons_self)
        exact splitSign_of_unsigned (by simpa using not_isSign_of_isDigit digit) text
    rw [Int.repr, Nat.toList_repr, exponent?]
    simp only [unsigned, value]
    rw [if_pos (digits k)]
    rfl
  | negSucc k =>
    have text : (Int.negSucc k).repr.toList = '-' :: Nat.toDigits 10 (k + 1) := by
      rw [Int.repr, String.toList_append, Nat.toList_repr]
      rfl
    have signed (w : Chars) : splitSign ('-' :: w) = (true, w) := rfl
    rw [text, exponent?]
    simp only [signed, value]
    rw [if_pos (digits (k + 1))]
    rfl

end Numeral

namespace Decimal

/-! ## Decimals are read back -/

/-- The decimal that a text without a sign stands for. -/
def read? (text : Chars) : Option Decimal :=
  let (whole, rest) := Cut.many isDigit text
  let (part, rest) := fraction isDigit rest
  (exponentPart? isDecimalMark rest).map fun e => ⟨ofDigits 10 (whole ++ part), e - part.length⟩

section

variable {whole part rest : Chars} {e : Int} (hw : ∀ c ∈ whole, isDigit c)
  (exponent : exponentPart? isDecimalMark rest = some e)

include exponent in
/-- An exponent is no part of the digits in front of it. -/
theorem apart_of_exponentPart? : ∀ c ∈ rest.head?, ¬ isDigit c ∧ c ≠ '.' := by
  rintro c hc
  obtain ⟨more, rfl⟩ := List.head?_eq_some_iff.1 hc
  rw [exponentPart?] at exponent
  by_cases mark : isDecimalMark c
  · exact apart_of_isDecimalMark mark
  · rw [if_neg mark] at exponent
    exact absurd exponent.symm (Option.some_ne_none e)

include hw exponent

theorem read?_whole : read? (whole ++ rest) = some ⟨ofDigits 10 whole, e⟩ := by
  have apart := apart_of_exponentPart? exponent
  have cut := Cut.many_append hw fun c hc => (apart c hc).1
  have none : fraction isDigit rest = ([], rest) := fraction_of_ne fun c hc => (apart c hc).2
  simp only [read?, cut, none, exponent, Option.map_some, List.append_nil, List.length_nil,
    Nat.cast_zero, sub_zero]

theorem read?_point (hp : ∀ c ∈ part, isDigit c) :
    read? (whole ++ '.' :: (part ++ rest)) =
      some ⟨ofDigits 10 (whole ++ part), e - part.length⟩ := by
  have apart := apart_of_exponentPart? exponent
  have pointed : ∀ c ∈ ('.' :: (part ++ rest)).head?, ¬ isDigit c := by
    rintro c ⟨⟩
    decide
  have cut := Cut.many_append hw pointed
  have digits : fraction isDigit ('.' :: (part ++ rest)) = (part, rest) := by
    rw [fraction_point]
    exact Cut.many_append hp fun c hc => (apart c hc).1
  simp only [read?, cut, digits, exponent, Option.map_some]

end

namespace Style

/-- A text stands for a number, and starts with a digit. -/
structure Shows (text : Chars) (v : ℚ) : Prop where
  starts : text.head?.any isDigit
  read : ∃ d, read? text = some d ∧ d.value = v

theorem isDigit_of_mem_zeros {n : Nat} : ∀ c ∈ List.replicate n '0', isDigit c := by
  intro c hc
  rw [List.eq_of_mem_replicate hc]
  rfl

theorem exponentPart?_nil : exponentPart? isDecimalMark [] = some 0 := rfl

section

variable {digits : Chars} (ne : digits ≠ []) (all : ∀ c ∈ digits, isDigit c)
include ne all

theorem head?_append_any (more : Chars) : (digits ++ more).head?.any isDigit := by
  obtain ⟨c, rest, rfl⟩ := List.exists_cons_of_ne_nil ne
  exact all c List.mem_cons_self

omit ne in
/-- Zeros between the point and the digits. -/
theorem shows_small (n : Nat) : Shows ('0' :: '.' :: (List.replicate n '0' ++ digits))
    (ofDigits 10 digits * 10 ^ (-n - digits.length : Int)) := by
  have zero : ∀ c ∈ ['0'], isDigit c := List.forall_mem_singleton.2 rfl
  have read := read?_point zero exponentPart?_nil
    (List.forall_mem_append.2 ⟨@isDigit_of_mem_zeros n, all⟩)
  have leading : ofDigits 10 (['0'] ++ (List.replicate n '0' ++ digits)) = ofDigits 10 digits := by
    rw [ofDigits_append, ofDigits_append, ofDigits_zeros, Nat.zero_mul, Nat.zero_add]
    exact (congrArg (· + _) (Nat.zero_mul _)).trans (Nat.zero_add _)
  have exponent : 0 - ((List.replicate n '0' ++ digits).length : Int) = -n - digits.length := by
    rw [List.length_append, List.length_replicate]
    omega
  rw [List.append_nil] at read
  exact ⟨rfl, _, read, by rw [value, leading, exponent]⟩

/-- The point among the digits. -/
theorem shows_middle {n : Nat} (pos : 0 < n) (le : n ≤ digits.length) :
    Shows (digits.take n ++ '.' :: digits.drop n)
      (ofDigits 10 digits * 10 ^ (n - digits.length : Int)) := by
  have front : ∀ c ∈ digits.take n, isDigit c := fun c hc => all c (List.mem_of_mem_take hc)
  have back : ∀ c ∈ digits.drop n, isDigit c := fun c hc => all c (List.mem_of_mem_drop hc)
  have some : digits.take n ≠ [] := by
    simp [ne, Nat.pos_iff_ne_zero.1 pos]
  have read := read?_point front exponentPart?_nil back
  have exponent : 0 - ((digits.drop n).length : Int) = n - digits.length := by
    rw [List.length_drop]
    omega
  rw [List.append_nil] at read
  exact ⟨head?_append_any some front _, _, read, by rw [value, List.take_append_drop, exponent]⟩

/-- Zeros between the digits and the point, which may be missing. -/
theorem shows_large (n : Nat) (pointZero : Bool) :
    Shows (digits ++ List.replicate n '0' ++ if pointZero then ['.', '0'] else [])
      (ofDigits 10 digits * 10 ^ n) := by
  have front := List.forall_mem_append.2 ⟨all, @isDigit_of_mem_zeros n⟩
  have whole : ofDigits 10 (digits ++ List.replicate n '0') = ofDigits 10 digits * 10 ^ n := by
    rw [ofDigits_append, ofDigits_zeros, List.length_replicate, Nat.add_zero]
  refine ⟨?_, ?_⟩
  · rw [List.append_assoc]
    exact head?_append_any ne all _
  cases pointZero with
  | true =>
    have zero : ∀ c ∈ ['0'], isDigit c := List.forall_mem_singleton.2 rfl
    have last : ofDigits 10 ['0'] = 0 := rfl
    have tenth : (10 : ℚ) ^ (0 - (['0'].length : Int)) = 1 / 10 := by norm_num
    refine ⟨_, read?_point front exponentPart?_nil zero, ?_⟩
    rw [value, ofDigits_append, whole, last, tenth, List.length_singleton]
    push_cast
    ring
  | false =>
    refine ⟨_, read?_whole front exponentPart?_nil, ?_⟩
    rw [value, whole, zpow_zero]
    push_cast
    ring

/-- Digits with the point behind the first `k` of them. -/
theorem shows_positional (s : Style) (k : Int) :
    Shows (s.positional digits k) (ofDigits 10 digits * 10 ^ (k - digits.length)) := by
  rw [positional]
  split
  · next small =>
    have same : -(k.natAbs : Int) = k := by omega
    have shows := shows_small all k.natAbs
    rwa [same] at shows
  split
  · next large inside =>
    have same : (k.toNat : Int) = k := by omega
    have shows := shows_middle ne all (n := k.toNat) (by omega) (by omega)
    rwa [same] at shows
  · next large outside =>
    have power : (10 : ℚ) ^ (k - digits.length) = 10 ^ (k.toNat - digits.length) := by
      rw [← zpow_natCast]
      congr 1
      omega
    rw [power]
    exact shows_large ne all _ _

/-- Digits with the point behind the first of them, and the power of ten of that digit. -/
theorem shows_scientific (power : Int) :
    Shows (scientific digits power) (ofDigits 10 digits * 10 ^ (power + 1 - digits.length)) := by
  have exponent : exponentPart? isDecimalMark ('e' :: (toString power).toList) = some power :=
    exponent?_toString power
  obtain ⟨c, more, rfl⟩ := List.exists_cons_of_ne_nil ne
  have first : ∀ d ∈ [c], isDigit d := List.forall_mem_singleton.2 (all c List.mem_cons_self)
  have length : ((c :: more).length : Int) = more.length + 1 := rfl
  refine ⟨by rw [scientific]; exact all c List.mem_cons_self, ?_⟩
  cases more with
  | nil =>
    refine ⟨_, read?_whole first exponent, ?_⟩
    rw [value]
    simp
  | cons d more =>
    have hp : ∀ x ∈ d :: more, isDigit x := fun x hx => all x (List.mem_cons_of_mem c hx)
    refine ⟨_, read?_point first exponent hp, ?_⟩
    have power : power - ((d :: more).length : Int) =
        power + 1 - (((d :: more).length : Int) + 1) := by omega
    rw [length, ← power]
    rfl

end

/-- The text of a decimal stands for the decimal. -/
theorem shows_layout (s : Style) (d : Decimal) : Shows (s.layout d) d.value := by
  have all : ∀ c ∈ Nat.toDigits 10 d.digits, isDigit c := fun _ => isDigit_of_mem_toDigits
  have ne : Nat.toDigits 10 d.digits ≠ [] := Nat.toDigits_ne_nil
  have digits := ofDigits_toDigits (b := 10) (by decide) (by decide) d.digits
  have same (k : Int) (h : k = (Nat.toDigits 10 d.digits).length + d.exponent) :
      (ofDigits 10 (Nat.toDigits 10 d.digits) : ℚ) * 10 ^ (k - (Nat.toDigits 10 d.digits).length) =
        d.value := by
    rw [digits, value, h, add_sub_cancel_left]
  simp only [layout]
  split
  · have shows := shows_positional ne all s ((Nat.toDigits 10 d.digits).length + d.exponent - 1 + 1)
    rwa [same _ (by omega)] at shows
  · have shows := shows_scientific ne all ((Nat.toDigits 10 d.digits).length + d.exponent - 1)
    rwa [same _ (by omega)] at shows

/-! ## Floats -/

theorem eq_of_toBits {x y : Float} (h : x.toBits = y.toBits) : x = y := by
  obtain ⟨⟨a, valid⟩⟩ := x
  obtain ⟨⟨b, valid'⟩⟩ := y
  obtain rfl : a = b := h
  rfl

/-- The bits of a finite float without the sign are less than those of infinity. -/
theorem toBits_of_isFinite {x : Float} (h : x.isFinite) :
    x.toBits.toNat % 2 ^ 63 < 0x7FF0000000000000 := by
  by_contra large
  have exponent : @Float.Model.UnpackedFloat.unpackExponent .binary64
      x.toModel.toBits.toBitVec = -1#_ := by
    refine BitVec.eq_of_toNat_eq ?_
    have field : (@Float.Model.UnpackedFloat.unpackExponent .binary64
        x.toModel.toBits.toBitVec).toNat = x.toBits.toNat >>> 52 % 2 ^ 11 := rfl
    rw [field, Nat.shiftRight_eq_div_pow]
    show _ = 2047
    omega
  unfold Float.isFinite Float.Model.isFinite Float.Model.unpack
    Float.Model.UnpackedFloat.unpack at h
  rw [if_pos exponent] at h
  split at h <;> exact absurd h Bool.false_ne_true

theorem toNat_magnitude (bits : UInt64) :
    (bits &&& 0x7FFFFFFFFFFFFFFF).toNat = bits.toNat % 2 ^ 63 := by
  rw [← Nat.and_two_pow_sub_one_eq_mod]
  rfl

/-- The text of a float is a sign and a decimal that rounds to the float. -/
theorem render_of_isFinite (s : Style) {x : Float} (h : x.isFinite) : ∃ text v,
    s.render x = (if x.toBits.toNat < 2 ^ 63 then [] else ['-']) ++ text ∧ Shows text v ∧
      (Binary.nth (x.toBits.toNat % 2 ^ 63)).Takes v := by
  have finite := toBits_of_isFinite h
  have magnitude := toNat_magnitude x.toBits
  have sign : x.toBits = x.toBits &&& 0x7FFFFFFFFFFFFFFF ↔ x.toBits.toNat < 2 ^ 63 := by
    rw [← UInt64.toNat_inj, magnitude]
    omega
  simp only [render, sign]
  generalize x.toBits &&& 0x7FFFFFFFFFFFFFFF = bits at magnitude
  rw [← magnitude] at finite ⊢
  have number : ¬ bits > 0x7FF0000000000000 := fun large =>
    absurd (UInt64.lt_iff_toNat_lt.1 large) (Nat.not_lt_of_lt finite)
  have bounded : bits ≠ 0x7FF0000000000000 := by
    rintro rfl
    exact Nat.lt_irrefl _ finite
  rw [if_neg number, if_neg bounded]
  split
  · next zero =>
    have shows := shows_positional (List.cons_ne_nil '0' []) (List.forall_mem_singleton.2 rfl) s 1
    have nothing : ofDigits 10 ['0'] = 0 := rfl
    rw [nothing, Nat.cast_zero, zero_mul] at shows
    subst zero
    exact ⟨_, _, rfl, shows, Binary.takes_zero⟩
  · next nonzero =>
    have pos : 0 < bits.toNat := Nat.pos_of_ne_zero fun zero =>
      nonzero (UInt64.toNat_inj.1 zero)
    have takes := Binary.takes_shortest (Binary.mantissa_nth_pos pos)
    rw [← Binary.ofBits_eq_nth (by omega)] at takes ⊢
    exact ⟨_, _, rfl, shows_layout s _, takes⟩

/-- Finite floats with the same text are the same. -/
theorem render_inj (s : Style) {x y : Float} (hx : x.isFinite) (hy : y.isFinite)
    (same : s.render x = s.render y) : x = y := by
  obtain ⟨text, v, render, ⟨start, d, read, rfl⟩, takes⟩ := s.render_of_isFinite hx
  obtain ⟨text', v', render', ⟨start', d', read', rfl⟩, takes'⟩ := s.render_of_isFinite hy
  rw [render, render'] at same
  have bound (z : Float) : z.toBits.toNat < 2 ^ 64 := z.toBits.toNat_lt
  -- A minus is no digit, so it belongs to the sign.
  have signs : (x.toBits.toNat < 2 ^ 63 ↔ y.toBits.toNat < 2 ^ 63) ∧ text = text' := by
    split at same <;> split at same
    · next hx hy => exact ⟨iff_of_true hx hy, same⟩
    · obtain rfl : text = '-' :: text' := same
      exact nomatch start
    · obtain rfl : '-' :: text = text' := same
      exact nomatch start'
    · next hx hy => exact ⟨iff_of_false hx hy, (List.cons.inj same).2⟩
  obtain ⟨sign, rfl⟩ := signs
  obtain rfl : d = d' := Option.some.inj (read.symm.trans read')
  have magnitude := Binary.nth_inj_of_takes takes takes'
  have bits : x.toBits.toNat = y.toBits.toNat := by
    have := bound x
    have := bound y
    omega
  exact eq_of_toBits (UInt64.toNat_inj.1 bits)

end Style

end Decimal

end LuaFront
