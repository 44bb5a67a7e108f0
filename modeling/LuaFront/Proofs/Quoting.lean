import LuaFront.Numeral
import LuaFront.Text.Quote

/-!
# Quoted texts are read back

What is written between quotes is read back by one pass over the characters, and the closing quote
is the first one without a backslash in front of it. So the quoted text decides what it was made of
and where it ends, whatever stands behind it.

* `Numeral.ofDigits_toDigits`: digits are read back.
* `Text.unquote_flatMap_escape`: so are the characters between quotes.
-/

namespace LuaFront

/-! ## Digits -/

namespace Numeral

open Text

theorem ofDigits_concat (b : Nat) (digits : Chars) (c : Char) :
    ofDigits b (digits ++ [c]) = ofDigits b digits * b + digitValue c := by
  rw [ofDigits, List.foldl_append]
  rfl

theorem digitValue_digitChar {d : Nat} (h : d < 16) : digitValue d.digitChar = d := by
  have all : ∀ d < 16, digitValue d.digitChar = d := by decide
  exact all d h

theorem isHexDigit_digitChar {d : Nat} (h : d < 16) : isHexDigit d.digitChar := by
  have all : ∀ d < 16, isHexDigit d.digitChar := by decide
  exact all d h

variable {b : Nat} (one : 1 < b) (sixteen : b ≤ 16)
include one sixteen

theorem ofDigits_toDigits (n : Nat) : ofDigits b (Nat.toDigits b n) = n := by
  induction n using Nat.strongRecOn with
  | ind n ih =>
    rw [Nat.toDigits_eq_if one]
    split
    · next small =>
      rw [← List.nil_append [n.digitChar], ofDigits_concat, digitValue_digitChar (by omega)]
      exact (congrArg (· + n) (Nat.zero_mul b)).trans (Nat.zero_add n)
    · next large =>
      have less : n / b < n := Nat.div_lt_self (by omega) one
      have last := Nat.mod_lt n (Nat.zero_lt_of_lt one)
      rw [ofDigits_concat, ih _ less, digitValue_digitChar (by omega), Nat.mul_comm,
        Nat.div_add_mod]

theorem isHexDigit_of_mem_toDigits {n : Nat} {c : Char} (h : c ∈ Nat.toDigits b n) :
    isHexDigit c := by
  induction n using Nat.strongRecOn with
  | ind n ih =>
    rw [Nat.toDigits_eq_if one] at h
    split at h
    · next small =>
      obtain rfl := List.mem_singleton.1 h
      exact isHexDigit_digitChar (by omega)
    · next large =>
      have less : n / b < n := Nat.div_lt_self (by omega) one
      have last := Nat.mod_lt n (Nat.zero_lt_of_lt one)
      rcases List.mem_append.1 h with h | h
      · exact ih _ less h
      · obtain rfl := List.mem_singleton.1 h
        exact isHexDigit_digitChar (by omega)

end Numeral

/-! ## Characters between quotes -/

namespace Text

/-- The character that a letter behind a backslash stands for. -/
def ofLetter : Char → Char
  | 'n' => '\n'
  | 'r' => '\r'
  | 't' => '\t'
  | '0' => '\x00'
  | c => c

/-- Reads the characters up to the closing quote, and what stands behind it. Within the braces of a
number, `number` is what its digits come to so far. -/
def unquote : Option Nat → Chars → Option (Chars × Chars)
  | _, [] => none
  | some n, c :: text =>
    if c = '\x7d' then (unquote none text).map fun (s, rest) => (Char.ofNat n :: s, rest)
    else unquote (some (n * 16 + Numeral.digitValue c)) text
  | none, '\\' :: 'u' :: '\x7b' :: text => unquote (some 0) text
  | none, '\\' :: d :: text => (unquote none text).map fun (s, rest) => (ofLetter d :: s, rest)
  | none, c :: text =>
    if c = '\x22' then some ([], text)
    else (unquote none text).map fun (s, rest) => (c :: s, rest)

theorem unquote_digits {digits : Chars} (h : ∀ c ∈ digits, isHexDigit c) (n : Nat) (text : Chars) :
    unquote (some n) (digits ++ '\x7d' :: text) =
      (unquote none text).map fun (s, rest) =>
        (Char.ofNat (digits.foldl (fun n c => n * 16 + Numeral.digitValue c) n) :: s, rest) := by
  induction digits generalizing n with
  | nil => rfl
  | cons c digits ih =>
    have brace : c ≠ '\x7d' := by
      rintro rfl
      exact nomatch h _ List.mem_cons_self
    rw [List.cons_append, unquote, if_neg brace, ih fun d hd => h d (List.mem_cons_of_mem c hd)]
    rfl

/-- A character is read back in front of any text. -/
theorem unquote_escape (c : Char) (text : Chars) :
    unquote none (escape c ++ text) = (unquote none text).map fun (s, rest) => (c :: s, rest) := by
  unfold escape
  split
  · next eq => rw [eq]; rfl
  split
  · next eq => rw [eq]; rfl
  split
  · next eq => rw [eq]; rfl
  split
  · next eq => rw [eq]; rfl
  split
  · next eq => rw [eq]; rfl
  split
  · next eq => rw [eq]; rfl
  split
  · have digits : ∀ d ∈ Nat.toDigits 16 c.toNat, isHexDigit d := fun d =>
      Numeral.isHexDigit_of_mem_toDigits (by decide) (by decide)
    have read := unquote_digits digits 0 text
    have value := Numeral.ofDigits_toDigits (b := 16) (by decide) (by decide) c.toNat
    rw [Numeral.ofDigits] at value
    rw [value, Char.ofNat_toNat] at read
    rw [List.append_assoc, List.append_assoc]
    exact read
  · next quote backslash _ _ _ _ _ =>
    simp [unquote, quote, backslash]

theorem unquote_flatMap_escape (s rest : Chars) :
    unquote none (s.flatMap escape ++ '\x22' :: rest) = some (s, rest) := by
  induction s with
  | nil => simp [unquote]
  | cons c s ih => rw [List.flatMap_cons, List.append_assoc, unquote_escape, ih, Option.map_some]

end Text

end LuaFront
