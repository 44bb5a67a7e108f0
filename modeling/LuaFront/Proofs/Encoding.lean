import LuaFront.Source

/-!
# Encoded texts

A text written in UTF-8 is read back as it is, and a source made of its bytes has that text again if
nothing in it is dropped or blanked.

* `Text.decode_encode`: decoding undoes encoding.
* `Source.text_ofBytes_encode`: a source keeps a text without carriage returns, unless it starts
  with a byte order mark or with `#`.
-/

namespace LuaFront

namespace Text

/-- The bytes of a text. -/
def encode (text : Chars) : List UInt8 := text.flatMap String.utf8EncodeChar

@[simp] theorem encode_nil : encode [] = [] := rfl

@[simp] theorem encode_cons (c : Char) (text : Chars) :
    encode (c :: text) = String.utf8EncodeChar c ++ encode text := rfl

theorem encode_append (front back : Chars) : encode (front ++ back) = encode front ++ encode back :=
  List.flatMap_append

namespace Decoder

/-- A byte that goes on with a character adds six bits to it. -/
theorem step_inside {bits owed t : Nat} {low high : UInt8} (ht : t < 64)
    (hl : low.toNat ≤ t + 0x80) (hh : t + 0x80 ≤ high.toNat) :
    (inside bits owed low high).step (.ofNat (t + 0x80)) =
      match owed with
      | 0 => ([Char.ofNat (bits * 64 + t)], idle)
      | owed + 1 => ([], inside (bits * 64 + t) owed 0x80 0xBF) := by
  have value : (UInt8.ofNat (t + 0x80)).toNat = t + 0x80 := by
    rw [UInt8.toNat_ofNat', Nat.mod_eq_of_lt (by omega)]
  have within : (low ≤ .ofNat (t + 0x80) && UInt8.ofNat (t + 0x80) ≤ high) = true := by
    rw [Bool.and_eq_true, decide_eq_true_iff, decide_eq_true_iff, UInt8.le_iff_toNat_le,
      UInt8.le_iff_toNat_le, value]
    exact ⟨hl, hh⟩
  cases owed <;> simp only [step, if_pos within, value, Nat.add_sub_cancel]

/-- Behind the second byte of a character, the range of the bytes that go on with it is whole. -/
theorem step_tail {bits owed t : Nat} (ht : t < 64) :
    (inside bits owed 0x80 0xBF).step (.ofNat (t + 0x80)) =
      match owed with
      | 0 => ([Char.ofNat (bits * 64 + t)], idle)
      | owed + 1 => ([], inside (bits * 64 + t) owed 0x80 0xBF) := by
  have high : t + 0x80 ≤ 0xBF := by omega
  exact step_inside ht (Nat.le_add_left 0x80 t) high

theorem run_cons (d : Decoder) (b : UInt8) (bytes : List UInt8) :
    d.run (b :: bytes) = (d.step b).1 ++ (d.step b).2.run bytes := by
  cases d <;> rfl

variable {u t₁ t₂ t₃ : Nat} (bytes : List UInt8)

theorem run_one (hu : u < 0x80) :
    idle.run (.ofNat u :: bytes) = Char.ofNat u :: idle.run bytes := by
  have lead : ∀ u < 0x80, lead (.ofNat u) = ([Char.ofNat u], idle) := by decide
  rw [run_cons, step, lead u hu]
  rfl

theorem run_two (hl : 2 ≤ u) (hu : u < 32) (h₁ : t₁ < 64) :
    idle.run (.ofNat (u + 0xC0) :: .ofNat (t₁ + 0x80) :: bytes) =
      Char.ofNat (u * 64 + t₁) :: idle.run bytes := by
  have lead : ∀ u < 32, 2 ≤ u → lead (.ofNat (u + 0xC0)) = ([], inside u 0 0x80 0xBF) := by decide
  rw [run_cons, step, lead u hu hl, run_cons, step_tail h₁]
  rfl

theorem run_three (hu : u < 16) (h₁ : t₁ < 64) (h₂ : t₂ < 64) (shortest : u = 0 → 0x20 ≤ t₁)
    (surrogate : u = 13 → t₁ ≤ 0x1F) :
    idle.run (.ofNat (u + 0xE0) :: .ofNat (t₁ + 0x80) :: .ofNat (t₂ + 0x80) :: bytes) =
      Char.ofNat ((u * 64 + t₁) * 64 + t₂) :: idle.run bytes := by
  have lead : ∀ u < 16, lead (.ofNat (u + 0xE0)) =
      ([], inside u 1 (if u = 0 then 0xA0 else 0x80) (if u = 13 then 0x9F else 0xBF)) := by decide
  have low : (if u = 0 then 0xA0 else 0x80 : UInt8).toNat ≤ t₁ + 0x80 := by
    split
    · next zero => exact Nat.add_le_add_right (shortest zero) 0x80
    · exact Nat.le_add_left 0x80 t₁
  have high : t₁ + 0x80 ≤ (if u = 13 then 0x9F else 0xBF : UInt8).toNat := by
    split
    · next last => exact Nat.add_le_add_right (surrogate last) 0x80
    · exact Nat.add_le_add_right (Nat.le_of_lt_succ h₁) 0x80
  rw [run_cons, step, lead u hu, run_cons, step_inside h₁ low high, run_cons, step_tail h₂]
  rfl

theorem run_four (hu : u < 5) (h₁ : t₁ < 64) (h₂ : t₂ < 64) (h₃ : t₃ < 64)
    (shortest : u = 0 → 0x10 ≤ t₁) (last : u = 4 → t₁ ≤ 0xF) :
    idle.run (.ofNat (u + 0xF0) :: .ofNat (t₁ + 0x80) :: .ofNat (t₂ + 0x80) ::
        .ofNat (t₃ + 0x80) :: bytes) =
      Char.ofNat (((u * 64 + t₁) * 64 + t₂) * 64 + t₃) :: idle.run bytes := by
  have lead : ∀ u < 5, lead (.ofNat (u + 0xF0)) =
      ([], inside u 2 (if u = 0 then 0x90 else 0x80) (if u = 4 then 0x8F else 0xBF)) := by decide
  have low : (if u = 0 then 0x90 else 0x80 : UInt8).toNat ≤ t₁ + 0x80 := by
    split
    · next zero => exact Nat.add_le_add_right (shortest zero) 0x80
    · exact Nat.le_add_left 0x80 t₁
  have high : t₁ + 0x80 ≤ (if u = 4 then 0x8F else 0xBF : UInt8).toNat := by
    split
    · next four => exact Nat.add_le_add_right (last four) 0x80
    · exact Nat.add_le_add_right (Nat.le_of_lt_succ h₁) 0x80
  rw [run_cons, step, lead u hu, run_cons, step_inside h₁ low high, run_cons, step_tail h₂,
    run_cons, step_tail h₃]
  rfl

/-- The bytes of a character are read as the character. -/
theorem run_encodeChar (c : Char) :
    idle.run (String.utf8EncodeChar c ++ bytes) = c :: idle.run bytes := by
  have valid : c.val.toNat < 0xD800 ∨ 0xDFFF < c.val.toNat ∧ c.val.toNat < 0x110000 := c.valid
  have back : Char.ofNat c.val.toNat = c := c.ofNat_toNat
  simp only [String.utf8EncodeChar]
  generalize c.val.toNat = v at valid back ⊢
  -- One case for each number of bytes. Put together again, the bits of the bytes are those of `v`.
  split
  · next one => rw [← back, ← run_one bytes (Nat.lt_succ_of_le one), List.singleton_append]
  split
  · next two =>
    have value : v / 64 % 32 * 64 + v % 64 = v := by omega
    have read := @run_two (v / 64 % 32) (v % 64) bytes (by omega) (by omega) (by omega)
    rwa [value, back] at read
  split
  · next three =>
    have value : (v / 4096 % 16 * 64 + v / 64 % 64) * 64 + v % 64 = v := by omega
    have read := @run_three (v / 4096 % 16) (v / 64 % 64) (v % 64) bytes (by omega)
      (by omega) (by omega) (by omega) (by omega)
    rwa [value, back] at read
  · have value : ((v / 262144 % 8 * 64 + v / 4096 % 64) * 64 + v / 64 % 64) * 64 + v % 64 = v := by
      omega
    have read := @run_four (v / 262144 % 8) (v / 4096 % 64) (v / 64 % 64) (v % 64) bytes
      (by omega) (by omega) (by omega) (by omega) (by omega) (by omega)
    rwa [value, back] at read

end Decoder

theorem decode_encode (text : Chars) : decode (encode text) = text := by
  induction text with
  | nil => rfl
  | cons c text ih =>
    rw [encode_cons, decode, Decoder.run_encodeChar]
    exact congrArg (c :: ·) ih

/-- A byte below `0x80` is a character of its own, and is part of no other one. -/
theorem eq_of_mem_encodeChar {c : Char} {b : UInt8} (mem : b ∈ String.utf8EncodeChar c)
    (small : b.toNat < 0x80) : c = Char.ofNat b.toNat ∧ String.utf8EncodeChar c = [b] := by
  have valid : c.val.toNat < 0xD800 ∨ 0xDFFF < c.val.toNat ∧ c.val.toNat < 0x110000 := c.valid
  have back : Char.ofNat c.val.toNat = c := c.ofNat_toNat
  -- A byte that stands alone is the character itself, and in a longer row each is at least `0x80`.
  have large {n : Nat} (hn : n < 256) (le : 0x80 ≤ n) : b ≠ UInt8.ofNat n := by
    rintro rfl
    rw [UInt8.toNat_ofNat', Nat.mod_eq_of_lt hn] at small
    omega
  simp only [String.utf8EncodeChar] at mem ⊢
  generalize c.val.toNat = v at valid back mem ⊢
  split at mem
  · next one =>
    obtain rfl := List.mem_singleton.1 mem
    rw [UInt8.toNat_ofNat', Nat.mod_eq_of_lt (by omega), back]
    exact ⟨rfl, if_pos one⟩
  split at mem
  · simp only [List.mem_cons, List.not_mem_nil, or_false] at mem
    rcases mem with rfl | rfl <;> exact absurd rfl (large (by omega) (by omega))
  split at mem
  · simp only [List.mem_cons, List.not_mem_nil, or_false] at mem
    rcases mem with rfl | rfl | rfl <;> exact absurd rfl (large (by omega) (by omega))
  · simp only [List.mem_cons, List.not_mem_nil, or_false] at mem
    rcases mem with rfl | rfl | rfl | rfl <;> exact absurd rfl (large (by omega) (by omega))

theorem toUInt8_notMem_encodeChar {c d : Char} (small : d.toNat < 0x80) (h : c ≠ d) :
    d.toUInt8 ∉ String.utf8EncodeChar c := by
  intro mem
  have value : d.toUInt8.toNat = d.toNat := by
    show d.toNat % 256 = d.toNat
    omega
  have eq := (eq_of_mem_encodeChar mem (by rwa [value])).1
  rw [value, Char.ofNat_toNat] at eq
  exact h eq

/-- The bytes of a line have no line break among them. -/
theorem break_notMem_encode {text : Chars} (h : '\n' ∉ text) : 0x0A ∉ encode text := by
  intro mem
  obtain ⟨c, hc, mem⟩ := List.mem_flatMap.1 mem
  have other : c ≠ '\n' := fun eq => h (eq ▸ hc)
  exact toUInt8_notMem_encodeChar (d := '\n') (by decide) other mem

theorem encode_joinLines (ls : List Chars) :
    encode (joinLines ls) = [0x0A].intercalate (ls.map encode) := by
  induction ls with
  | nil => rfl
  | cons l ls ih =>
    cases ls with
    | nil => simp
    | cons next ls =>
      rw [joinLines_cons_cons, encode_append, encode_cons, ih]
      rfl

theorem filter_encode {text : Chars} (h : '\r' ∉ text) :
    (encode text).filter (· != 0x0D) = encode text := by
  rw [List.filter_eq_self]
  intro b hb
  obtain ⟨c, hc, hb⟩ := List.mem_flatMap.1 hb
  have other : c ≠ '\r' := fun eq => h (eq ▸ hc)
  refine bne_iff_ne.2 ?_
  rintro rfl
  exact toUInt8_notMem_encodeChar (d := '\r') (by decide) other hb

theorem encode_ne_nil {text : Chars} (h : text ≠ []) : encode text ≠ [] := by
  cases text with
  | nil => exact absurd rfl h
  | cons c text =>
    rw [encode_cons]
    exact List.append_ne_nil_of_left_ne_nil String.utf8EncodeChar_ne_nil _

end Text

namespace Source

open Text

/-- The character that a byte order mark is. -/
def mark : Char := '\ufeff'

theorem withoutMark_encode {text : Chars} (h : text.head? ≠ some mark) :
    withoutMark (encode text) = encode text := by
  unfold withoutMark
  split
  · next bytes eq =>
    have read : text = mark :: decode bytes := by
      rw [← decode_encode text, eq]
      rfl
    exact absurd (congrArg List.head? read) h
  · rfl

theorem blankDirective_splitLines {text : Chars} (h : text.head? ≠ some '#') :
    blankDirective (splitLines text) = splitLines text := by
  unfold blankDirective
  split
  · next line ls eq =>
    have joined : text = '#' :: joinLines (line :: ls) := by
      rw [← joinLines_splitLines text, eq, joinLines_cons_char]
    exact absurd (congrArg List.head? joined) h
  · rfl

/-- A text without carriage returns is kept, unless it starts like a mark or like a directive. -/
theorem text_ofBytes_encode (name : String) {text : Chars} (returns : '\r' ∉ text)
    (marked : text.head? ≠ some mark) (directive : text.head? ≠ some '#') :
    (ofBytes name (encode text)).text = text := by
  unfold ofBytes
  rw [withoutMark_encode marked]
  split
  · next eq =>
    by_cases empty : text = []
    · rw [empty]
      rfl
    · exact absurd eq (encode_ne_nil empty)
  · rw [filter_encode returns, decode_encode, blankDirective_splitLines directive]
    exact joinLines_splitLines text

end Source

end LuaFront
