import LuaFront.Numeral
import LuaFront.Proofs.Regular
import Mathlib.Data.Int.ModEq
import Mathlib.Data.Nat.Digits.Defs

/-!
# The language of numerals

Which texts are numerals is said by regular languages, and what an integer is worth by its digits. A
run of decimal digits is an integer while it fits into 63 bits, and a run of hexadecimal digits is
one at any length, modulo 2 to the 64. All other numerals are floats.

* `Numeral.mem_mantissa_mul_exponent`: reading digits, a fraction and an exponent one after the
  other, and never going back, finds out whether a text is made of them.
* `Numeral.ofDigits_eq`: the left fold over digits is the sum of their places.
* `Numeral.value?_iff`: the texts that are integers, those that are floats, and all others.
-/

namespace LuaFront

open scoped Computability

open Text Pattern

/-! ## Runs of characters -/

namespace Pattern

variable {p : Char → Bool} {w : Chars}

theorem mem_kstar_oneOf : w ∈ (oneOf p)∗ ↔ ∀ c ∈ w, p c := by
  induction w with
  | nil => exact iff_of_true (Language.nil_mem_kstar _) (List.forall_mem_nil _)
  | cons c w ih =>
    rw [← Language.one_add_self_mul_kstar_eq_kstar, Language.mem_add, Language.mem_one,
      cons_mem_oneOf_mul, ih, List.forall_mem_cons]
    simp

end Pattern

namespace Numeral

/-! ## Languages -/

/-- Digits, at least one. -/
def run (digit : Char → Bool) : Language Char := oneOf digit * (oneOf digit)∗

/-- Digits with at most one point among them or at their ends, and at least one digit. -/
def mantissa (digit : Char → Bool) : Language Char :=
  run digit + run digit * oneOf isPoint * (oneOf digit)∗ +
    (oneOf digit)∗ * oneOf isPoint * run digit

/-- A mark with decimal digits behind it, which may have a sign, or nothing. -/
def exponent (mark : Char → Bool) : Language Char :=
  1 + oneOf mark * ((1 + oneOf isSign) * run isDigit)

/-- Decimal numerals that need not be integers. A sign may stand in front. -/
def decimals : Language Char :=
  (1 + oneOf isSign) * (mantissa isDigit * exponent isDecimalMark)

/-- Hexadecimal numerals that need not be integers. -/
def hexadecimals : Language Char :=
  oneOf (· = '0') * (oneOf isHexMark * (mantissa isHexDigit * exponent isBinaryMark))

/-- How many digits are less than a digit. -/
def rank (c : Char) : Nat := "0123456789abcdef".toList.idxOf c.toLower

/-- The number that digits stand for, the last of them in the lowest place. -/
def worth (base : Nat) (digits : Chars) : Nat := Nat.ofDigits base (digits.reverse.map rank)

/-- The numerals of an integer. Decimal digits stand for it as they are, hexadecimal ones modulo two
to the 64. -/
inductive Spells (n : Int64) : Chars → Prop
  | decimal {text : Chars} (digits : text ∈ run isDigit) (small : worth 10 text ≤ 2 ^ 63 - 1)
      (value : n.toInt = worth 10 text) : Spells n text
  | hexadecimal {x : Char} {text : Chars} (mark : isHexMark x) (digits : text ∈ run isHexDigit)
      (value : n.toInt ≡ worth 16 text [ZMOD 2 ^ 64]) : Spells n ('0' :: x :: text)

variable {digit mark : Char → Bool} {w text : Chars} {l : Language Char}

theorem mem_run : w ∈ run digit ↔ w ≠ [] ∧ ∀ c ∈ w, digit c := by
  cases w with
  | nil => exact iff_of_false nil_notMem_oneOf_mul fun h => h.1 rfl
  | cons c w =>
    rw [run, cons_mem_oneOf_mul, mem_kstar_oneOf, List.forall_mem_cons]
    simp

/-- A mantissa is a run of digits, or digits with a point among them or at one of their ends. -/
theorem mem_mantissa : w ∈ mantissa digit ↔ w ∈ run digit ∨ ∃ u v, w = u ++ '.' :: v ∧
    (∀ c ∈ u, digit c) ∧ (∀ c ∈ v, digit c) ∧ ¬ (u = [] ∧ v = []) := by
  rw [mantissa, Language.mem_add, Language.mem_add, or_assoc]
  refine or_congr_right ?_
  rw [mul_assoc, mul_assoc, Language.mem_mul, Language.mem_mul]
  constructor
  · rintro (⟨u, hu, z, hz, rfl⟩ | ⟨u, hu, z, hz, rfl⟩)
    · obtain ⟨c, v, rfl, point, hv⟩ := mem_oneOf_mul.1 hz
      obtain rfl := isPoint_iff.1 point
      obtain ⟨nonempty, hu⟩ := mem_run.1 hu
      exact ⟨u, v, rfl, hu, mem_kstar_oneOf.1 hv, fun none => nonempty none.1⟩
    · obtain ⟨c, v, rfl, point, hv⟩ := mem_oneOf_mul.1 hz
      obtain rfl := isPoint_iff.1 point
      obtain ⟨nonempty, hv⟩ := mem_run.1 hv
      exact ⟨u, v, rfl, mem_kstar_oneOf.1 hu, hv, fun none => nonempty none.2⟩
  · rintro ⟨u, v, rfl, hu, hv, some⟩
    by_cases none : u = []
    · refine .inr ⟨u, mem_kstar_oneOf.2 hu, _, cons_mem_oneOf_mul.2 ⟨rfl, ?_⟩, rfl⟩
      exact mem_run.2 ⟨fun none' => some ⟨none, none'⟩, hv⟩
    · exact .inl ⟨u, mem_run.2 ⟨none, hu⟩, _,
        cons_mem_oneOf_mul.2 ⟨rfl, mem_kstar_oneOf.2 hv⟩, rfl⟩

theorem nil_notMem_mantissa : [] ∉ mantissa digit := by
  rw [mem_mantissa]
  rintro (none | ⟨u, v, eq, -⟩)
  · exact nil_notMem_oneOf_mul none
  · simp at eq

theorem starts_mantissa : Starts (fun c => digit c || isPoint c) (mantissa digit) := by
  intro c w mem
  rw [Bool.or_eq_true]
  rcases mem_mantissa.1 mem with mem | ⟨u, v, eq, hu, -, -⟩
  · exact .inl (starts_oneOf_mul _ _ c w mem)
  · cases u with
    | nil => exact .inr (isPoint_iff.2 (List.cons.inj eq).1)
    | cons d u => exact .inl ((List.cons.inj eq).1 ▸ hu d List.mem_cons_self)

/-! ## Signs and exponents -/

theorem splitSign_of_unsigned {c : Char} (h : ¬ isSign c) (text : Chars) :
    splitSign (c :: text) = (false, c :: text) := by
  unfold splitSign
  split
  · next eq => exact absurd ((List.cons.inj eq).1 ▸ rfl) h
  · next eq => exact absurd ((List.cons.inj eq).1 ▸ rfl) h
  · rfl

/-- A sign is taken off a text if what stands behind it cannot start with one. -/
theorem mem_signed (unsigned : Starts (fun c => !isSign c) l) :
    text ∈ (1 + oneOf isSign) * l ↔ (splitSign text).2 ∈ l := by
  rw [add_mul, one_mul, Language.mem_add]
  cases text with
  | nil => exact or_iff_left nil_notMem_oneOf_mul
  | cons c text =>
    rw [cons_mem_oneOf_mul]
    by_cases sign : isSign c
    · have other : c :: text ∉ l := fun mem => by simpa [sign] using unsigned c text mem
      have split : (splitSign (c :: text)).2 = text := by
        rcases isSign_iff.1 sign with rfl | rfl <;> rfl
      rw [split]
      simp [other, sign]
    · rw [splitSign_of_unsigned sign]
      simp [sign]

theorem isSome_exponent? (text : Chars) :
    (exponent? text).isSome ↔ text ∈ (1 + oneOf isSign) * run isDigit := by
  have unsigned : Starts (fun c => !isSign c) (run isDigit) :=
    (starts_oneOf_mul _ _).mono fun _ => not_isSign_of_isDigit
  rw [mem_signed unsigned, mem_run, ← List.all_eq_true]
  simp only [exponent?]
  split
  · next digits => exact iff_of_true rfl digits
  · next other => exact iff_of_false Bool.false_ne_true other

theorem isSome_exponentPart? (text : Chars) :
    (exponentPart? mark text).isSome ↔ text ∈ exponent mark := by
  rw [exponent, Language.mem_add, Language.mem_one]
  cases text with
  | nil => exact iff_of_true rfl (.inl rfl)
  | cons c text =>
    rw [exponentPart?, cons_mem_oneOf_mul, ← isSome_exponent?]
    split
    · next marked => simp [marked]
    · next unmarked => simp [unmarked]

theorem starts_exponent : Starts mark (exponent mark) := (starts_oneOf_mul _ _).optional

/-! ## Digits, a fraction and an exponent -/

theorem fraction_point (digit : Char → Bool) (text : Chars) :
    fraction digit ('.' :: text) = Cut.many digit text := rfl

theorem fraction_of_ne (h : ∀ c ∈ text.head?, c ≠ '.') : fraction digit text = ([], text) := by
  unfold fraction
  split
  · exact absurd rfl (h '.' rfl)
  · rfl

/-- Digits, a fraction and an exponent are read off a text one after the other. Nothing that starts
one of them can stand in the part in front of it, so each part takes as much as it can. -/
theorem mem_mantissa_mul_exponent (point : ¬ digit '.')
    (apart : ∀ c, mark c → ¬ digit c ∧ c ≠ '.') :
    text ∈ mantissa digit * exponent mark ↔
      ¬ ((Cut.many digit text).1 = [] ∧ (fraction digit (Cut.many digit text).2).1 = []) ∧
        (fraction digit (Cut.many digit text).2).2 ∈ exponent mark := by
  constructor
  · intro mem
    obtain ⟨m, hm, e, he, rfl⟩ := Language.mem_mul.1 mem
    have marked : ∀ c ∈ e.head?, mark c := by
      intro c hc
      obtain ⟨w, rfl⟩ := List.head?_eq_some_iff.1 hc
      exact starts_exponent c w he
    have stops : ∀ c ∈ e.head?, ¬ digit c := fun c hc => (apart c (marked c hc)).1
    rcases mem_mantissa.1 hm with digits | ⟨u, v, rfl, hu, hv, some⟩
    · obtain ⟨nonempty, all⟩ := mem_run.1 digits
      rw [Cut.many_append all stops, fraction_of_ne fun c hc => (apart c (marked c hc)).2]
      exact ⟨fun none => nonempty none.1, he⟩
    · have pointed : ∀ c ∈ ('.' :: (v ++ e)).head?, ¬ digit c := by
        rintro c ⟨⟩
        exact point
      rw [List.append_assoc, List.cons_append, Cut.many_append hu pointed, fraction_point,
        Cut.many_append hv stops]
      exact ⟨some, he⟩
  · have all (text : Chars) : ∀ c ∈ (Cut.many digit text).1, digit c :=
      List.all_eq_true.1 List.all_takeWhile
    have whole := Cut.lossless_many digit text
    have digits := all text
    generalize Cut.many digit text = cut at whole digits
    obtain ⟨u, rest⟩ := cut
    obtain rfl : u ++ rest = text := whole
    rintro ⟨some, he⟩
    by_cases pointed : ∃ more, rest = '.' :: more
    · obtain ⟨more, rfl⟩ := pointed
      rw [fraction_point] at some he
      refine Language.mem_mul.2 ⟨u ++ '.' :: (Cut.many digit more).1, ?_, _, he, ?_⟩
      · exact mem_mantissa.2 (.inr ⟨u, _, rfl, digits, all more, some⟩)
      · rw [List.append_assoc, List.cons_append, Cut.lossless_many digit more]
    · have other : ∀ c ∈ rest.head?, c ≠ '.' := by
        rintro c hc rfl
        exact pointed ((List.head?_eq_some_iff.1 hc).imp fun _ eq => eq)
      rw [fraction_of_ne other] at some he
      have nonempty : u ≠ [] := fun none => some ⟨none, rfl⟩
      exact Language.mem_mul.2 ⟨u, mem_mantissa.2 (.inl (mem_run.2 ⟨nonempty, digits⟩)), rest, he,
        rfl⟩

/-! ## What digits are worth -/

theorem digitValue_eq_rank {c : Char} (h : isHexDigit c) : digitValue c = rank c := by
  have ascii : ∀ n < 128, isHexDigit (Char.ofNat n) →
      digitValue (Char.ofNat n) = rank (Char.ofNat n) := by decide +kernel
  have small : c.toNat < 128 := by
    have le {d : Char} (hd : d.toNat < 128) (le : c ≤ d) : c.toNat < 128 :=
      Nat.lt_of_le_of_lt (UInt32.le_iff_toNat_le.1 le) hd
    simp only [isHexDigit, isDigit, Bool.or_eq_true, Bool.and_eq_true, decide_eq_true_iff] at h
    rcases h with (⟨-, h⟩ | ⟨-, h⟩) | ⟨-, h⟩ <;> exact le (by decide) h
  have back : Char.ofNat c.toNat = c := c.ofNat_toNat
  have value := ascii c.toNat small
  rw [back] at value
  exact value h

theorem ofDigits_eq {base : Nat} {digits : Chars} (h : ∀ c ∈ digits, isHexDigit c) :
    ofDigits base digits = worth base digits := by
  induction digits using List.reverseRecOn with
  | nil => rfl
  | append_singleton digits c ih =>
    obtain ⟨front, last⟩ := List.forall_mem_append.1 h
    have more := ih front
    rw [ofDigits] at more
    have step : worth base (digits ++ [c]) = rank c + base * worth base digits := by
      rw [worth, List.reverse_append, List.reverse_singleton, List.singleton_append, List.map_cons,
        Nat.ofDigits_cons, worth]
    rw [ofDigits, List.foldl_append, List.foldl_cons, List.foldl_nil, more, step,
      digitValue_eq_rank (last c List.mem_cons_self), Nat.mul_comm, Nat.add_comm]

theorem isHexDigit_of_isDigit {c : Char} (h : isDigit c) : isHexDigit c := by simp [isHexDigit, h]

/-! ## Integers -/

theorem value?_of_marked {x : Char} (h : isHexMark x) (text : Chars) :
    value? ('0' :: x :: text) = hexadecimal? text := by
  rw [value?, if_pos h]

theorem value?_of_unmarked (h : ∀ x rest, text = '0' :: x :: rest → ¬ isHexMark x) :
    value? text = value?.decimalValue? text := by
  unfold value?
  split
  · exact if_neg (h _ _ rfl)
  · rfl

/-- Hexadecimal digits alone are an integer. -/
theorem hexadecimal?_of_run (h : text ∈ run isHexDigit) :
    hexadecimal? text = some (.integer (.ofNat (worth 16 text))) := by
  obtain ⟨nonempty, all⟩ := mem_run.1 h
  simp only [hexadecimal?, Cut.many_of_all all, nonempty, false_and, if_false, if_true,
    ofDigits_eq all]

theorem decimalValue?_of_small (h : text ∈ run isDigit) (small : worth 10 text ≤ 2 ^ 63 - 1) :
    value?.decimalValue? text = some (.integer (.ofNat (worth 10 text))) := by
  obtain ⟨nonempty, all⟩ := mem_run.1 h
  have fits : 2 * worth 10 text < UInt64.size := by
    rw [UInt64.size]
    omega
  rw [value?.decimalValue?, if_pos ⟨nonempty, List.all_eq_true.2 all⟩,
    ofDigits_eq fun c hc => isHexDigit_of_isDigit (all c hc)]
  exact if_pos fits

theorem not_isDigit_of_isHexMark {x : Char} (h : isHexMark x) : ¬ isDigit x := by
  rcases isHexMark_iff.1 h with rfl | rfl <;> decide

theorem unmarked_of_run (h : text ∈ run isDigit) (x : Char) (rest : Chars)
    (eq : text = '0' :: x :: rest) : ¬ isHexMark x := fun mark =>
  not_isDigit_of_isHexMark mark ((mem_run.1 h).2 x (by simp [eq]))

theorem toInt_ofNat_modEq (m : Nat) : (Int64.ofNat m).toInt ≡ m [ZMOD 2 ^ 64] := by
  rw [Int64.toInt_ofNat']
  exact Int.bmod_emod

theorem eq_ofNat_of_modEq {n : Int64} {m : Nat} (h : n.toInt ≡ m [ZMOD 2 ^ 64]) :
    n = .ofNat m := by
  rw [← Int64.toInt_inj, Int64.toInt_ofNat', ← Int64.toInt_bmod_size n, ← Int.emod_bmod n.toInt,
    ← Int.emod_bmod m]
  exact congrArg (Int.bmod · Int64.size) h

theorem value?_of_spells {n : Int64} (h : Spells n text) : value? text = some (.integer n) := by
  cases h with
  | decimal digits small value =>
    rw [value?_of_unmarked (unmarked_of_run digits), decimalValue?_of_small digits small,
      eq_ofNat_of_modEq (n := n) (by rw [value])]
  | hexadecimal mark digits value =>
    rw [value?_of_marked mark, hexadecimal?_of_run digits, eq_ofNat_of_modEq value]

/-! ## Floats -/

/-- What is read is a float under a condition, and nothing otherwise. -/
def FloatIf (p : Prop) (read : Option Number) : Prop :=
  p ∧ (∃ value, read = some (.float value)) ∨ ¬ p ∧ read = none

theorem floatIf_map {α : Type} {p : Prop} {read : Option α} (h : read.isSome ↔ p) (f : α → Float) :
    FloatIf p (read.map fun a => .float (f a)) := by
  cases read with
  | none => exact .inr ⟨h.not.1 Bool.false_ne_true, rfl⟩
  | some a => exact .inl ⟨h.1 rfl, f a, rfl⟩

theorem apart_of_isDecimalMark {c : Char} (h : isDecimalMark c) : ¬ isDigit c ∧ c ≠ '.' := by
  rcases isDecimalMark_iff.1 h with rfl | rfl <;> decide

theorem apart_of_isBinaryMark {c : Char} (h : isBinaryMark c) : ¬ isHexDigit c ∧ c ≠ '.' := by
  rcases isBinaryMark_iff.1 h with rfl | rfl <;> decide

/-- No decimal numeral has a second sign in front. -/
theorem mem_decimals :
    text ∈ decimals ↔ (splitSign text).2 ∈ mantissa isDigit * exponent isDecimalMark := by
  refine mem_signed fun c w mem => ?_
  obtain ⟨m, hm, e, -, eq⟩ := Language.mem_mul.1 mem
  cases m with
  | nil => exact absurd hm nil_notMem_mantissa
  | cons d m =>
    obtain ⟨rfl, -⟩ := List.cons.inj eq
    rcases Bool.or_eq_true .. ▸ starts_mantissa d m hm with digit | point
    · exact not_isSign_of_isDigit digit
    · obtain rfl := isPoint_iff.1 point
      rfl

theorem isSome_decimal? (text : Chars) : (decimal? text).isSome ↔ text ∈ decimals := by
  rw [mem_decimals, mem_mantissa_mul_exponent (by decide) fun _ => apart_of_isDecimalMark,
    ← isSome_exponentPart?]
  simp only [decimal?]
  split
  · next none => simp [none]
  · next some => simp [some]

/-- Digits alone are a mantissa with no exponent. -/
theorem mem_of_run (h : text ∈ run digit) : text ∈ mantissa digit * exponent mark :=
  Language.mem_mul.2 ⟨text, mem_mantissa.2 (.inl h), [], .inl rfl, List.append_nil text⟩

theorem mem_decimals_of_run (h : text ∈ run isDigit) : text ∈ decimals :=
  Language.mem_mul.2 ⟨[], .inl rfl, text, mem_of_run h, rfl⟩

/-- Decimal numerals are floats, but for the integers. -/
theorem floatIf_decimalValue? (large : ¬ (text ∈ run isDigit ∧ worth 10 text ≤ 2 ^ 63 - 1)) :
    FloatIf (text ∈ decimals) (value?.decimalValue? text) := by
  unfold value?.decimalValue?
  split
  · next digits =>
    have all := List.all_eq_true.1 digits.2
    have digits := mem_run.2 ⟨digits.1, all⟩
    have beyond : ¬ 2 * ofDigits 10 text < UInt64.size := by
      rw [ofDigits_eq fun c hc => isHexDigit_of_isDigit (all c hc), UInt64.size]
      intro fits
      exact large ⟨digits, by omega⟩
    exact .inl ⟨mem_decimals_of_run digits, _, if_neg beyond⟩
  · exact floatIf_map (isSome_decimal? text) id

/-- Hexadecimal numerals are floats, but for the integers. -/
theorem floatIf_hexadecimal? (other : text ∉ run isHexDigit) :
    FloatIf (text ∈ mantissa isHexDigit * exponent isBinaryMark) (hexadecimal? text) := by
  rw [mem_mantissa_mul_exponent (by decide) fun _ => apart_of_isBinaryMark]
  simp only [hexadecimal?]
  split
  · next none => exact .inr ⟨fun h => h.1 none, rfl⟩
  · next some =>
    split
    · next stop =>
      -- Nothing stands behind the digits, so the text is a run of them, or empty.
      have whole := Cut.lossless_many isHexDigit text
      rw [stop, List.append_nil] at whole
      have all : ∀ c ∈ text, isHexDigit c := by
        rw [← whole]
        exact List.all_eq_true.1 List.all_takeWhile
      have empty : text = [] := by
        by_contra nonempty
        exact other (mem_run.2 ⟨nonempty, all⟩)
      subst empty
      exact absurd ⟨rfl, rfl⟩ some
    · rw [and_iff_right some]
      exact floatIf_map (isSome_exponentPart? _) _

theorem notMem_decimals_of_marked {x : Char} (h : isHexMark x) (text : Chars) :
    '0' :: x :: text ∉ decimals := by
  rw [← isSome_decimal?]
  rcases isHexMark_iff.1 h with rfl | rfl <;>
    simp [decimal?, splitSign, fraction, Cut.many, exponentPart?, isDecimalMark, isDigit]

theorem marked_of_mem_hexadecimals (h : text ∈ hexadecimals) :
    ∃ x rest, text = '0' :: x :: rest ∧ isHexMark x := by
  obtain ⟨c, v, rfl, zero, mem⟩ := mem_oneOf_mul.1 h
  obtain ⟨x, rest, rfl, mark, -⟩ := mem_oneOf_mul.1 mem
  obtain rfl := of_decide_eq_true zero
  exact ⟨x, rest, rfl, mark⟩

theorem mem_hexadecimals {x : Char} (h : isHexMark x) : '0' :: x :: text ∈ hexadecimals ↔
    text ∈ mantissa isHexDigit * exponent isBinaryMark := by
  rw [hexadecimals, cons_mem_oneOf_mul, cons_mem_oneOf_mul]
  simp [h]

/-- What spells no integer is a float or nothing. -/
theorem floatIf_value? (other : ∀ n, ¬ Spells n text) :
    FloatIf (text ∈ decimals + hexadecimals) (value? text) := by
  rw [Language.mem_add]
  by_cases marked : ∃ x rest, text = '0' :: x :: rest ∧ isHexMark x
  · obtain ⟨x, rest, rfl, mark⟩ := marked
    have digits : rest ∉ run isHexDigit := fun digits =>
      other (.ofNat (worth 16 rest)) (.hexadecimal mark digits (toInt_ofNat_modEq _))
    rw [or_iff_right (notMem_decimals_of_marked mark rest), mem_hexadecimals mark,
      value?_of_marked mark]
    exact floatIf_hexadecimal? digits
  · have unmarked (x : Char) (rest : Chars) (eq : text = '0' :: x :: rest) : ¬ isHexMark x :=
      fun mark => marked ⟨x, rest, eq, mark⟩
    have decimal : text ∉ hexadecimals := by
      intro mem
      obtain ⟨x, rest, rfl, mark⟩ := marked_of_mem_hexadecimals mem
      exact unmarked x rest rfl mark
    rw [or_iff_left decimal, value?_of_unmarked unmarked]
    refine floatIf_decimalValue? fun ⟨digits, small⟩ => ?_
    have value := Int64.toInt_ofNat_of_lt (n := worth 10 text) (by omega)
    exact other (.ofNat (worth 10 text)) (.decimal digits small value)

/-- Reading a text gives an integer if and only if the text spells it, and a float if and only if
the text spells no integer and is a decimal or hexadecimal numeral. All other texts are refused. -/
theorem value?_iff (text : Chars) :
    (∀ n, value? text = some (.integer n) ↔ Spells n text) ∧
    ((∃ x, value? text = some (.float x)) ↔
      (∀ n, ¬ Spells n text) ∧ text ∈ decimals + hexadecimals) ∧
    (value? text = none ↔ (∀ n, ¬ Spells n text) ∧ text ∉ decimals + hexadecimals) := by
  by_cases integer : ∃ n, Spells n text
  · obtain ⟨n, spelled⟩ := integer
    have read := value?_of_spells spelled
    refine ⟨fun k => ⟨fun h => ?_, value?_of_spells⟩, ?_, ?_⟩
    · rw [read] at h
      obtain rfl : n = k := by simpa using h
      exact spelled
    · exact iff_of_false (by simp [read]) fun h => h.1 n spelled
    · exact iff_of_false (by simp [read]) fun h => h.1 n spelled
  · have other : ∀ n, ¬ Spells n text := fun n h => integer ⟨n, h⟩
    rcases floatIf_value? other with ⟨mem, x, read⟩ | ⟨notMem, read⟩
    · refine ⟨fun k => ?_, ?_, ?_⟩
      · exact iff_of_false (by simp [read]) (other k)
      · exact iff_of_true ⟨x, read⟩ ⟨other, mem⟩
      · exact iff_of_false (by simp [read]) fun h => h.2 mem
    · refine ⟨fun k => ?_, ?_, ?_⟩
      · exact iff_of_false (by simp [read]) (other k)
      · exact iff_of_false (by simp [read]) fun h => notMem h.2
      · exact iff_of_true read ⟨other, notMem⟩

end Numeral

end LuaFront
