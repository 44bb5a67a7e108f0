import LuaFront.Proofs.Encoding
import Mathlib.Algebra.Group.Nat.Defs

/-!
# Line breaks between bytes

A line feed ends whatever character is being read, well-formed or not, and no other byte is read as
a line break. So the bytes in front of a line feed and those behind it are decoded apart from each
other, and lie on different lines.

* `Text.decode_break`: bytes on both sides of a line feed.
* `Text.count_decode`: the number of line breaks.
* `Source.text_ofBytes_break`: the text of a source made of bytes on both sides of a line feed.
-/

namespace LuaFront

namespace Text

/-! ## Decoding -/

namespace Decoder

/-- Only a byte beyond ASCII goes on with a character, and what it can complete is beyond ASCII. -/
def Proper : Decoder → Prop
  | idle => True
  | inside bits owed low _ => 0x80 ≤ low ∧ 0x80 ≤ (bits * 64 + (low.toNat - 0x80)) * 64 ^ owed

instance : (d : Decoder) → Decidable d.Proper
  | idle => isTrue trivial
  | inside .. => inferInstanceAs (Decidable (_ ∧ _))

/-- What reading a byte beyond ASCII leads to: no ASCII character is complete, and if none is at
all, one has been begun. The first character of all stands for numbers that are no character. -/
structure Beyond (r : Chars × Decoder) : Prop where
  proper : r.2.Proper
  foreign : ∀ c ∈ r.1, c.toNat = 0 ∨ 0x80 ≤ c.toNat
  begun : r.1 = [] → r.2 ≠ idle

theorem lead_ascii {b : UInt8} (hb : b < 0x80) : lead b = ([Char.ofNat b.toNat], idle) := if_pos hb

theorem beyond_lead {b : UInt8} (hb : 0x80 ≤ b) : Beyond (lead b) := by
  have all : ∀ u < 256, 0x80 ≤ u →
      (lead (.ofNat u)).2.Proper ∧
        (lead (.ofNat u) = ([replacement], idle) ∨
          (lead (.ofNat u)).1 = [] ∧ (lead (.ofNat u)).2 ≠ idle) := by decide +kernel
  obtain ⟨proper, given⟩ := all b.toNat b.toNat_lt (UInt8.le_iff_toNat_le.1 hb)
  rw [UInt8.ofNat_toNat] at proper given
  rcases given with given | ⟨none, begun⟩
  · rw [given]
    refine ⟨trivial, fun c hc => .inr ?_, nofun⟩
    obtain rfl := List.mem_singleton.1 hc
    decide
  · exact ⟨proper, by simp [none], fun _ => begun⟩

theorem toNat_ofNat_of_le {n : Nat} (h : 0x80 ≤ n) :
    (Char.ofNat n).toNat = 0 ∨ 0x80 ≤ (Char.ofNat n).toNat := by
  by_cases valid : n.isValidChar
  · rw [Char.ofNat, dif_pos valid]
    exact .inr h
  · rw [Char.ofNat, dif_neg valid]
    exact .inl rfl

variable {d : Decoder} (hd : d.Proper)
include hd

/-- An ASCII byte stands for itself, and gives up what was begun. -/
theorem step_ascii {b : UInt8} (hb : b < 0x80) :
    d.step b = (d.run [] ++ [Char.ofNat b.toNat], idle) := by
  cases d with
  | idle => exact lead_ascii hb
  | inside bits owed low high =>
    have outside : ¬ ((low ≤ b && b ≤ high) = true) := by
      rw [Bool.and_eq_true, decide_eq_true_iff]
      exact fun within => absurd (UInt8.le_trans hd.1 within.1) (UInt8.not_le.2 hb)
    rw [step, if_neg outside, lead_ascii hb]
    rfl

theorem beyond_step {b : UInt8} (hb : 0x80 ≤ b) : Beyond (d.step b) := by
  cases d with
  | idle => exact beyond_lead hb
  | inside bits owed low high =>
    simp only [step]
    split
    · next within =>
      rw [Bool.and_eq_true, decide_eq_true_iff, UInt8.le_iff_toNat_le] at within
      have more : bits * 64 + (low.toNat - 0x80) ≤ bits * 64 + (b.toNat - 0x80) :=
        Nat.add_le_add_left (Nat.sub_le_sub_right within.1 _) _
      have enough := Nat.le_trans hd.2 (Nat.mul_le_mul_right (64 ^ owed) more)
      cases owed with
      | zero =>
        rw [Nat.pow_zero, Nat.mul_one] at enough
        refine ⟨trivial, by simpa using toNat_ofNat_of_le enough, fun none => ?_⟩
        cases none
      | succ owed =>
        have lowest : (0x80 : UInt8).toNat - 0x80 = 0 := rfl
        rw [Nat.pow_succ', ← Nat.mul_assoc] at enough
        refine ⟨⟨UInt8.le_refl _, ?_⟩, fun c hc => ?_, fun _ idle => ?_⟩
        · rwa [lowest, Nat.add_zero]
        · cases hc
        · cases idle
    · have led := beyond_lead hb
      refine ⟨led.proper, ?_, fun none => ?_⟩
      · simpa [replacement] using led.foreign
      · cases none

theorem proper_step (b : UInt8) : (d.step b).2.Proper := by
  by_cases hb : b < 0x80
  · rw [step_ascii hd hb]
    trivial
  · exact (beyond_step hd (UInt8.not_lt.1 hb)).proper

/-- Bytes in front of a line feed are decoded as if nothing stood behind them. -/
theorem run_break (u v : List UInt8) : d.run (u ++ 0x0A :: v) = d.run u ++ '\n' :: decode v := by
  induction u generalizing d with
  | nil =>
    rw [List.nil_append, run_cons, step_ascii hd (by decide), List.append_assoc]
    rfl
  | cons b u ih =>
    rw [List.cons_append, run_cons, run_cons, ih (proper_step hd b), List.append_assoc]

theorem count_run (bytes : List UInt8) : (d.run bytes).count '\n' = bytes.count 0x0A := by
  induction bytes generalizing d with
  | nil => cases d <;> rfl
  | cons b bytes ih =>
    rw [run_cons, List.count_append, ih (proper_step hd b), List.count_cons, Nat.add_comm]
    refine congrArg (bytes.count 0x0A + ·) ?_
    by_cases hb : b < 0x80
    · have own : ∀ u < 128, [Char.ofNat u].count '\n' = if UInt8.ofNat u == 0x0A then 1 else 0 := by
        decide +kernel
      have begun : (d.run []).count '\n' = 0 := by cases d <;> rfl
      rw [step_ascii hd hb, List.count_append, begun, own _ (UInt8.lt_iff_toNat_lt.1 hb),
        UInt8.ofNat_toNat, Nat.zero_add]
    · have hb := UInt8.not_lt.1 hb
      have none : '\n' ∉ (d.step b).1 :=
        fun mem => absurd ((beyond_step hd hb).foreign _ mem) (by decide)
      have other : ¬ ((b == 0x0A) = true) := by
        rintro eq
        rw [beq_iff_eq.1 eq] at hb
        exact absurd hb (by decide)
      rw [List.count_eq_zero_of_not_mem none, if_neg other]

/-- What starts with a byte sign starts with its byte, unless the decoder is inside a character. -/
theorem head?_run {bytes : List UInt8} (h : d = idle → bytes.head? ≠ some 0x23) :
    (d.run bytes).head? ≠ some '#' := by
  induction bytes generalizing d with
  | nil => cases d <;> exact nofun
  | cons b bytes ih =>
    rw [run_cons]
    by_cases hb : b < 0x80
    · have own : ∀ u < 128, Char.ofNat u = '#' → UInt8.ofNat u = 0x23 := by decide +kernel
      rw [step_ascii hd hb]
      cases d with
      | inside => exact nofun
      | idle =>
        intro eq
        have sign := own _ (UInt8.lt_iff_toNat_lt.1 hb) (Option.some.inj eq)
        rw [UInt8.ofNat_toNat] at sign
        exact h rfl (congrArg some sign)
    · have beyond := beyond_step hd (UInt8.not_lt.1 hb)
      cases chars : (d.step b).1 with
      | nil => exact ih beyond.proper fun idle => absurd idle (beyond.begun chars)
      | cons c cs =>
        intro eq
        have foreign := beyond.foreign c (chars ▸ List.mem_cons_self)
        rw [Option.some.inj eq] at foreign
        exact absurd foreign (by decide)

end Decoder

/-- Bytes on both sides of a line feed are decoded apart from each other. -/
theorem decode_break (u v : List UInt8) : decode (u ++ 0x0A :: v) = decode u ++ '\n' :: decode v :=
  Decoder.run_break (d := .idle) trivial u v

/-- A text has as many line breaks as its bytes have line feeds. -/
theorem count_decode (bytes : List UInt8) : (decode bytes).count '\n' = bytes.count 0x0A :=
  Decoder.count_run (d := .idle) trivial bytes

theorem head?_decode {bytes : List UInt8} (h : bytes.head? ≠ some 0x23) :
    (decode bytes).head? ≠ some '#' :=
  Decoder.head?_run (d := .idle) trivial fun _ => h

/-! ## Lines -/

theorem splitLines_break (s t : Chars) :
    splitLines (s ++ '\n' :: t) = splitLines s ++ splitLines t := by
  induction s with
  | nil => rfl
  | cons c s ih =>
    simp only [List.cons_append, splitLines, ih]
    split
    · rfl
    · cases h : splitLines s with
      | nil => exact absurd h (splitLines_ne_nil s)
      | cons l ls => rfl

theorem length_splitLines (text : Chars) : (splitLines text).length = text.count '\n' + 1 := by
  induction text with
  | nil => rfl
  | cons c text ih =>
    simp only [splitLines, List.count_cons, beq_iff_eq]
    split
    · rw [List.length_cons, ih]
    · cases h : splitLines text with
      | nil => exact absurd h (splitLines_ne_nil text)
      | cons l ls =>
        rw [h] at ih
        exact ih

end Text

/-! ## Sources -/

namespace Source

open Text

theorem blankDirective_cons (l : Chars) (ls : List Chars) :
    blankDirective (l :: ls) = (if l.head? = some '#' then [] else l) :: ls := by
  unfold blankDirective
  split
  · next eq =>
    obtain ⟨rfl, rfl⟩ := List.cons.inj eq
    rfl
  · next other =>
    rw [if_neg]
    intro sign
    obtain ⟨rest, rfl⟩ := List.head?_eq_some_iff.1 sign
    exact other rest ls rfl

theorem blankDirective_append {ls : List Chars} (h : ls ≠ []) (ms : List Chars) :
    blankDirective (ls ++ ms) = blankDirective ls ++ ms := by
  obtain ⟨l, ls, rfl⟩ := List.exists_cons_of_ne_nil h
  rw [List.cons_append, blankDirective_cons, blankDirective_cons, List.cons_append]

theorem length_blankDirective (ls : List Chars) : (blankDirective ls).length = ls.length := by
  cases ls with
  | nil => rfl
  | cons l ls => rw [blankDirective_cons, List.length_cons, List.length_cons]

theorem blankDirective_ne_nil {ls : List Chars} (h : ls ≠ []) : blankDirective ls ≠ [] := by
  rwa [← List.length_pos_iff, length_blankDirective, List.length_pos_iff]

theorem withoutMark_eq_self {bytes : List UInt8} (h : ¬ [0xEF, 0xBB, 0xBF] <+: bytes) :
    withoutMark bytes = bytes := by
  unfold withoutMark
  split
  · next bytes => exact absurd ⟨bytes, rfl⟩ h
  · rfl

/-- The lines of a source, also if no byte is left behind the mark. -/
theorem text_ofBytes (name : String) (bytes : List UInt8) :
    (ofBytes name bytes).text =
      joinLines (blankDirective (splitLines
        (decode ((withoutMark bytes).filter (· != 0x0D))))) := by
  unfold ofBytes
  split
  · next none =>
    rw [none]
    rfl
  · rfl

theorem withoutMark_break (u v : List UInt8) :
    withoutMark (u ++ 0x0A :: v) = withoutMark u ++ 0x0A :: v := by
  by_cases marked : [0xEF, 0xBB, 0xBF] <+: u
  · obtain ⟨rest, rfl⟩ := marked
    rfl
  · -- No line feed is in a mark, so none is completed by it.
    have unmarked : ¬ [0xEF, 0xBB, 0xBF] <+: u ++ 0x0A :: v := by
      intro h
      match u with
      | [] => exact absurd h (by simp)
      | [_] => exact absurd h (by simp)
      | [_, _] => exact absurd h (by simp)
      | x :: y :: z :: u =>
        refine marked ?_
        simpa using h
    rw [withoutMark_eq_self marked, withoutMark_eq_self unmarked]

/-- The text of bytes on both sides of a line feed is the texts of both, if what stands behind it
starts neither like a mark nor like a directive. -/
theorem text_ofBytes_break (name : String) (a : List UInt8) {b : List UInt8}
    (marked : ¬ [0xEF, 0xBB, 0xBF] <+: b)
    (directive : (b.filter (· != 0x0D)).head? ≠ some 0x23) :
    (ofBytes name (a ++ 0x0A :: b)).text =
      (ofBytes name a).text ++ '\n' :: (ofBytes name b).text := by
  have front := splitLines_ne_nil (decode ((withoutMark a).filter (· != 0x0D)))
  have back := splitLines_ne_nil (decode (b.filter (· != 0x0D)))
  rw [text_ofBytes, text_ofBytes, text_ofBytes, withoutMark_break, withoutMark_eq_self marked,
    List.filter_append, List.filter_cons_of_pos (by decide), decode_break, splitLines_break,
    blankDirective_append front, blankDirective_splitLines (head?_decode directive),
    joinLines_append (blankDirective_ne_nil front) back]

theorem count_withoutMark (bytes : List UInt8) :
    (withoutMark bytes).count 0x0A = bytes.count 0x0A := by
  unfold withoutMark
  split
  · simp
  · rfl

/-- The last line of a source is numbered by the line feeds in its bytes. -/
theorem line_endPosition_ofBytes (name : String) (bytes : List UInt8) :
    (ofBytes name bytes).endPosition.line = bytes.count 0x0A := by
  rw [← count_withoutMark]
  unfold ofBytes
  split
  · next none =>
    rw [none]
    rfl
  · simp only [endPosition, count, length_blankDirective, length_splitLines, count_decode,
      Nat.add_sub_cancel]
    exact List.count_filter rfl

end Source

end LuaFront
