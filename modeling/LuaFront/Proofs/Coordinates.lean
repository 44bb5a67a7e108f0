import LuaFront.Proofs.Breaks
import LuaFront.Proofs.Offsets
import Mathlib.Data.List.DropRight

/-!
# Positions and offsets are the same coordinates

A position in a source and a byte offset in its text name the same place. `Position.ofBytes` goes
back from bytes to a position: it counts line feeds, and the bytes behind the last of them. So no
two positions of a source have the same offset, and the bytes between two columns of a line are
those between the offsets.

Columns count bytes, so a position may stand inside a character. It does so in the line if its
offset does so in the text.

* `Source.offsetOf_mono`, `Source.offsetOf_le_byteSize`: offsets of all positions, whether the
  source has them or not.
* `Source.position_of_offset`: from the offset back to the position.
* `Source.slice_line`: the bytes between two columns.
* `Source.measured_ofBytes`: the sources made of the bytes of files.
-/

namespace LuaFront

/-! ## Bytes in front of a place -/

namespace Text

@[simp] theorem length_encode (text : Chars) : (encode text).length = byteSize text := by
  induction text with
  | nil => rfl
  | cons c text ih =>
    rw [encode_cons, List.length_append, String.length_utf8EncodeChar, ih, byteSize_cons]

/-- An offset in a text does not stand inside a character. -/
def IsBoundary (text : Chars) (n : Nat) : Prop := ∃ front, front <+: text ∧ byteSize front = n

/-- Of two fronts of a text, the one that has no more bytes is a front of the other one. -/
theorem prefix_of_byteSize_le {u v text : Chars} (hu : u <+: text) (hv : v <+: text)
    (le : byteSize u ≤ byteSize v) : u <+: v := by
  rcases List.prefix_or_prefix_of_prefix hu hv with h | ⟨more, rfl⟩
  · exact h
  · cases more with
    | nil => exact ⟨[], by simp⟩
    | cons c more =>
      have := c.utf8Size_pos
      rw [byteSize_append, byteSize_cons] at le
      omega

/-- What a part of a text has for characters, it has in the text. -/
theorem isBoundary_append_iff {front middle rest : Chars} {n : Nat} (h : n ≤ byteSize middle) :
    IsBoundary (front ++ (middle ++ rest)) (byteSize front + n) ↔ IsBoundary middle n := by
  constructor
  · rintro ⟨u, hu, size⟩
    obtain ⟨part, rfl⟩ : front <+: u :=
      prefix_of_byteSize_le (List.prefix_append front _) hu (size ▸ Nat.le_add_right _ n)
    rw [byteSize_append, Nat.add_left_cancel_iff] at size
    have hpart := (List.prefix_append_right_inj front).1 hu
    exact ⟨part, prefix_of_byteSize_le hpart (List.prefix_append middle rest) (size ▸ h), size⟩
  · rintro ⟨part, ⟨more, rfl⟩, rfl⟩
    exact ⟨front ++ part, ⟨more ++ rest, by simp⟩, byteSize_append front part⟩

/-- Lines with their line breaks have a line feed for each. -/
theorem count_encode_lines {ls : List Chars} (h : ∀ l ∈ ls, '\n' ∉ l) :
    (encode (ls.flatMap (· ++ ['\n']))).count 0x0A = ls.length := by
  induction ls with
  | nil => rfl
  | cons l ls ih =>
    have none := List.count_eq_zero_of_not_mem (break_notMem_encode (h l List.mem_cons_self))
    have newline : (encode ['\n']).count 0x0A = 1 := rfl
    rw [List.flatMap_cons, encode_append, encode_append, List.count_append, List.count_append, none,
      newline, ih fun k hk => h k (List.mem_cons_of_mem l hk), List.length_cons]
    omega

end Text

/-- The position to which bytes lead: the number of line feeds among them, and the number of bytes
behind the last line feed. -/
def Position.ofBytes (bytes : List UInt8) : Position :=
  ⟨bytes.count 0x0A, (bytes.rtakeWhile (· ≠ 0x0A)).length⟩

open Text

/-- Whatever stands in front of the last line feed is not reached from the end. -/
theorem rtakeWhile_break (before : List UInt8) {part : List UInt8} (h : 0x0A ∉ part) :
    (before ++ 0x0A :: part).rtakeWhile (· ≠ 0x0A) = part := by
  have all : ∀ b ∈ part.reverse, decide (b ≠ 0x0A) := fun b hb =>
    decide_eq_true fun eq => h (eq ▸ List.mem_reverse.1 hb)
  rw [List.rtakeWhile, List.reverse_append, List.reverse_cons, List.append_assoc,
    List.takeWhile_append_of_pos all]
  simp

/-- Behind whole lines, the bytes of a part of a line lead to the next line. -/
theorem Position.ofBytes_lines {ls : List Chars} (h : ∀ l ∈ ls, '\n' ∉ l) {part : List UInt8}
    (hp : 0x0A ∉ part) :
    ofBytes (encode (ls.flatMap (· ++ ['\n'])) ++ part) = ⟨ls.length, part.length⟩ := by
  have column : (encode (ls.flatMap (· ++ ['\n'])) ++ part).rtakeWhile (· ≠ 0x0A) = part := by
    rcases List.eq_nil_or_concat' ls with rfl | ⟨above, l, rfl⟩
    · exact List.rtakeWhile_eq_self_iff.2 fun b hb => decide_eq_true fun eq => hp (eq ▸ hb)
    · have newline : encode ['\n'] = [0x0A] := rfl
      rw [List.flatMap_append, List.flatMap_singleton, ← List.append_assoc, encode_append, newline,
        List.append_assoc, List.singleton_append, rtakeWhile_break _ hp]
  rw [ofBytes, column, List.count_append, count_encode_lines h, List.count_eq_zero_of_not_mem hp,
    Nat.add_zero]

namespace Source

/-! ## Offsets of positions -/

variable {s : Source}

theorem lineStart_succ {i : Nat} (h : i < s.count) :
    s.lineStart (i + 1) = s.lineStart i + byteSize (s.line i) + 1 := by
  have newline : Char.utf8Size '\n' = 1 := rfl
  have line : s.lines[i]? = some (s.line i) := by
    rw [line, List.getD_eq_getElem?_getD, List.getElem?_eq_getElem h, Option.getD_some]
  rw [← byteSize_above, ← byteSize_above, above, above, List.take_add_one, line,
    List.flatMap_append, byteSize_append]
  simp [newline, Nat.add_assoc]

theorem lineStart_mono {i j : Nat} (le : i ≤ j) (h : j ≤ s.count) :
    s.lineStart i ≤ s.lineStart j := by
  induction j, le using Nat.le_induction with
  | base => exact Nat.le_refl _
  | succ j _ ih =>
    have := ih (Nat.le_of_lt h)
    rw [lineStart_succ h]
    omega

/-- The text of a source goes on at least to the end of each of its lines. -/
theorem lineEnd_le {i : Nat} (h : i < s.count) :
    s.lineStart i + byteSize (s.line i) ≤ byteSize s.text := by
  rw [text_eq_above_append h, byteSize_append, byteSize_above]
  refine Nat.add_le_add_left ?_ _
  cases s.lines.drop (i + 1) with
  | nil => rw [joinLines_singleton]
  | cons next below =>
    rw [joinLines_cons_cons, byteSize_append]
    exact Nat.le_add_right _ _

/-- An offset lies within the line of its position. -/
theorem offsetOf_bounds {p : Position} (h : p.line < s.count) :
    s.lineStart p.line ≤ s.offsetOf p ∧
      s.offsetOf p ≤ s.lineStart p.line + byteSize (s.line p.line) := by
  rw [offsetOf, if_pos h]
  exact ⟨Nat.le_add_right _ _, Nat.add_le_add_left (Nat.min_le_right _ _) _⟩

theorem offsetOf_le_byteSize (s : Source) (p : Position) : s.offsetOf p ≤ byteSize s.text := by
  by_cases h : p.line < s.count
  · exact Nat.le_trans (offsetOf_bounds h).2 (lineEnd_le h)
  · rw [offsetOf, if_neg h]

/-- Moving on never brings an offset back. -/
theorem offsetOf_mono {p q : Position} (le : p ≤ q) : s.offsetOf p ≤ s.offsetOf q := by
  by_cases hq : q.line < s.count
  · rcases (Position.le_def p q).1 le with lt | ⟨same, columns⟩
    · -- The line of `q` starts behind the end of the line of `p`.
      have hp := Nat.lt_trans lt hq
      have first := (offsetOf_bounds hp).2
      have second := (offsetOf_bounds hq).1
      have between := lineStart_mono (Nat.succ_le_of_lt lt) (Nat.le_of_lt hq)
      rw [Nat.succ_eq_add_one, lineStart_succ hp] at between
      omega
    · rw [offsetOf, offsetOf, same, if_pos hq, if_pos hq]
      omega
  · rw [offsetOf.eq_1 s q, if_neg hq]
    exact offsetOf_le_byteSize s p

/-! ## Positions of a source -/

/-- A source has the line of a position, and the line has as many bytes as the column counts. -/
structure Covers (s : Source) (p : Position) : Prop where
  line : p.line < s.count
  column : p.column ≤ byteSize (s.line p.line)

theorem offsetOf_of_covers {p : Position} (h : s.Covers p) :
    s.offsetOf p = s.lineStart p.line + p.column := by
  rw [offsetOf, if_pos h.line, Nat.min_eq_left h.column]

/-- A text is what stands above a line, the line itself, and a rest. -/
theorem exists_text_eq {i : Nat} (h : i < s.count) :
    ∃ rest, s.text = s.above i ++ (s.line i ++ rest) := by
  rw [text_eq_above_append h]
  cases s.lines.drop (i + 1) with
  | nil => exact ⟨[], by rw [joinLines_singleton, List.append_nil]⟩
  | cons next below => exact ⟨_, by rw [joinLines_cons_cons]⟩

/-- The bytes in front of the offset of a position are those of the lines above it, and those of its
line in front of its column. -/
theorem take_offsetOf {p : Position} (h : s.Covers p) :
    (encode s.text).take (s.offsetOf p) =
      encode (s.above p.line) ++ (encode (s.line p.line)).take p.column := by
  obtain ⟨rest, eq⟩ := exists_text_eq h.line
  have start : (encode (s.above p.line)).length = s.lineStart p.line := by
    rw [length_encode, byteSize_above]
  rw [offsetOf_of_covers h, eq, encode_append, encode_append, ← start, List.take_length_add_append,
    List.take_append_of_le_length (by rw [length_encode]; exact h.column)]

/-- The bytes in front of the offset of a position lead to this position. -/
theorem position_of_offset (split : s.IsSplit) {p : Position} (h : s.Covers p) :
    Position.ofBytes ((encode s.text).take (s.offsetOf p)) = p := by
  have above : ∀ l ∈ s.lines.take p.line, '\n' ∉ l := fun l hl => split l (List.mem_of_mem_take hl)
  have part : 0x0A ∉ (encode (s.line p.line)).take p.column := fun mem =>
    break_notMem_encode (notMem_line split p.line) (List.mem_of_mem_take mem)
  rw [take_offsetOf h, Source.above, Position.ofBytes_lines above part,
    List.length_take_of_le (Nat.le_of_lt h.line),
    List.length_take_of_le (by rw [length_encode]; exact h.column)]

/-- The bytes between the offsets of two columns of a line are those of the line between the
columns. -/
theorem slice_line {i a b : Nat} (h : i < s.count) (ha : a ≤ b) (hb : b ≤ byteSize (s.line i)) :
    ((encode s.text).take (s.offsetOf ⟨i, b⟩)).drop (s.offsetOf ⟨i, a⟩) =
      ((encode (s.line i)).take b).drop a := by
  have start : (encode (s.above i)).length = s.lineStart i := by rw [length_encode, byteSize_above]
  rw [take_offsetOf ⟨h, hb⟩, offsetOf_of_covers ⟨h, Nat.le_trans ha hb⟩, ← start,
    List.drop_length_add_append]

/-- The offset of a position stands between two characters of the text if and only if its column
does so in its line. -/
theorem isBoundary_offsetOf_iff {p : Position} (h : s.Covers p) :
    IsBoundary s.text (s.offsetOf p) ↔ IsBoundary (s.line p.line) p.column := by
  obtain ⟨rest, eq⟩ := exists_text_eq h.line
  rw [offsetOf_of_covers h, eq, ← byteSize_above, isBoundary_append_iff h.column]

/-- Positions and byte offsets of a source are the same coordinates. The first two are about all
positions, whether the source has them or not. -/
structure Measured (s : Source) : Prop where
  ordered : ∀ p q, p ≤ q → s.offsetOf p ≤ s.offsetOf q
  within : ∀ p, s.offsetOf p ≤ (encode s.text).length
  /-- In front of the offset are as many line breaks as the line counts, and behind the last of them
  as many bytes as the column counts. -/
  leads : ∀ p, s.Covers p → Position.ofBytes ((encode s.text).take (s.offsetOf p)) = p
  injective : ∀ p q, s.Covers p → s.Covers q → s.offsetOf p = s.offsetOf q → p = q
  /-- The bytes between two columns of a line. -/
  slice : ∀ i a b, i < s.count → a ≤ b → b ≤ byteSize (s.line i) →
    ((encode s.text).take (s.offsetOf ⟨i, b⟩)).drop (s.offsetOf ⟨i, a⟩) =
      ((encode (s.line i)).take b).drop a
  boundary : ∀ p, s.Covers p →
    (IsBoundary s.text (s.offsetOf p) ↔ IsBoundary (s.line p.line) p.column)

theorem measured (split : s.IsSplit) : s.Measured where
  ordered _ _ le := offsetOf_mono le
  within p := by
    rw [length_encode]
    exact s.offsetOf_le_byteSize p
  leads _ h := position_of_offset split h
  injective p q hp hq same := by
    rw [← position_of_offset split hp, same, position_of_offset split hq]
  slice _ _ _ h ha hb := slice_line h ha hb
  boundary _ h := isBoundary_offsetOf_iff h

/-- The sources made of any bytes, well-formed or not, have coordinates. The bytes of a text are
kept as they are if there is nothing among them to be dropped, and nothing in front to be removed
or blanked. -/
theorem measured_ofBytes (name : String) (bytes : List UInt8) :
    (ofBytes name bytes).Measured ∧
      ∀ input : Chars, bytes = encode input → 0x0D ∉ bytes → ¬ [0xEF, 0xBB, 0xBF] <+: bytes →
        bytes.head? ≠ some 0x23 → encode (ofBytes name bytes).text = bytes := by
  refine ⟨measured (isSplit_ofBytes name bytes), ?_⟩
  rintro input rfl returns marked directive
  have kept : (ofBytes name (encode input)).text = input := by
    refine text_ofBytes_encode name ?_ ?_ ?_
    · exact fun mem => returns (List.mem_flatMap.2 ⟨'\r', mem, List.mem_singleton.2 rfl⟩)
    · intro first
      obtain ⟨rest, rfl⟩ := List.head?_eq_some_iff.1 first
      exact marked ⟨encode rest, rfl⟩
    · intro first
      obtain ⟨rest, rfl⟩ := List.head?_eq_some_iff.1 first
      exact directive rfl
  rw [kept]

/-- A file with a byte order mark, a first line that is blanked, a carriage return and an ill-formed
byte, and a text of two lines that is kept. Column 1 of the second line stands inside a
character. -/
theorem measured_ofBytes_directive :
    let s := ofBytes "a" ([0xEF, 0xBB, 0xBF] ++ "#!\r\né".toUTF8.toList ++ [0xFF])
    let input := "é\n#".toList
    s.offsetOf ⟨1, 1⟩ ≤ s.offsetOf ⟨3, 0⟩ ∧ s.Covers ⟨1, 1⟩ ∧
      Position.ofBytes ((encode s.text).take (s.offsetOf ⟨1, 1⟩)) = ⟨1, 1⟩ ∧
      ((encode s.text).take (s.offsetOf ⟨1, 5⟩)).drop (s.offsetOf ⟨1, 2⟩) = [0xEF, 0xBF, 0xBD] ∧
      encode (ofBytes "b" (encode input)).text = encode input := by
  intro s input
  have measured : s.Measured := (measured_ofBytes "a" _).1
  have covers : s.Covers ⟨1, 1⟩ := ⟨by decide +kernel, by decide +kernel⟩
  refine ⟨measured.ordered _ _ (by decide), covers, measured.leads _ covers, ?_, ?_⟩
  · rw [measured.slice 1 2 5 (by decide +kernel) (by decide) (by decide +kernel)]
    decide +kernel
  · exact (measured_ofBytes "b" (encode input)).2 input rfl (by decide) (by decide) (by decide)

end Source

end LuaFront
