import LuaFront.Proofs.Encoding
import LuaFront.Proofs.Flaws

/-!
# Quoted strings, byte by byte

What a quoted string is worth is said of the bytes behind its opening quote, from left to right and
without lines (`Quoted.Scans`). Whoever reads line by line and cuts what is kept as it is out of the
lines in segments comes to the same (`Quoted.scan`), and so does whoever reads characters: the bytes
of a character beyond ASCII are never taken for a quote, a backslash or a line break, even if a
backslash stands in front and only the first of them goes with it.

* `Quoted.Scans.unique`: the bytes decide what is found.
* `Quoted.follows_scan`: reading line by line.
* `Quoted.scans_read`: reading characters.
* `Source.reads_quoted`: content, end and error of every quoted string of a source.
-/

namespace LuaFront

open Text

namespace Quoted

/-! ## Bytes from left to right -/

/-- The blanks of a program text. -/
def isBlankByte (b : UInt8) : Bool := b = 0x20 || b = 0x09 || b = 0x0B || b = 0x0C

/-- What is skipped behind a backslash and a `z`: blanks and line breaks. -/
def isSkipped (b : UInt8) : Bool := isBlankByte b || b = 0x0A

/-- What is found behind an opening quote: the content of the string, the bytes left, and whether
the closing quote is there. -/
structure Outcome where
  content : List UInt8
  rest : List UInt8
  closed : Bool
deriving DecidableEq, Repr

/-- Puts bytes in front of the content. -/
def Outcome.keep (out : Outcome) (front : List UInt8) : Outcome :=
  { out with content := front ++ out.content }

/-- What the bytes behind an opening quote come to. A line break is `0x0A`, a backslash is `0x5C`,
and `z` is `0x7A`. -/
inductive Scans (quote : UInt8) : List UInt8 → Outcome → Prop
  | closed (rest : List UInt8) : Scans quote (quote :: rest) ⟨[], rest, true⟩
  /-- The text ends, and the string is unfinished. -/
  | ended : Scans quote [] ⟨[], [], false⟩
  /-- A bare line break leaves the string unfinished. -/
  | broken (text : List UInt8) : Scans quote (0x0A :: text) ⟨[], 0x0A :: text, false⟩
  /-- A backslash at the very end of the text stands for a line break. -/
  | last : Scans quote [0x5C] ⟨[0x0A], [], false⟩
  | continued {text : List UInt8} {out : Outcome} (more : Scans quote text out) :
      Scans quote (0x5C :: 0x0A :: text) (out.keep [0x0A])
  | skip {text : List UInt8} {out : Outcome} (more : Scans quote (text.dropWhile isSkipped) out) :
      Scans quote (0x5C :: 0x7A :: text) out
  | escape {b : UInt8} {text : List UInt8} {out : Outcome} (other : b ≠ 0x0A ∧ b ≠ 0x7A)
      (more : Scans quote text out) : Scans quote (0x5C :: b :: text) (out.keep [0x5C, b])
  | byte {b : UInt8} {text : List UInt8} {out : Outcome}
      (plain : b ≠ quote ∧ b ≠ 0x0A ∧ b ≠ 0x5C) (more : Scans quote text out) :
      Scans quote (b :: text) (out.keep [b])

section

variable {quote : UInt8} {text : List UInt8} {out other : Outcome}

/-- No two rules are about the same bytes. -/
theorem Scans.unique (quotes : quote = 0x22 ∨ quote = 0x27) (h : Scans quote text out)
    (h' : Scans quote text other) : out = other := by
  induction h generalizing other with
  | closed rest =>
    cases h' with
    | closed => rfl
    | byte plain => exact absurd rfl plain.1
    | _ => simp at quotes
  | ended =>
    cases h'
    rfl
  | broken text =>
    cases h' with
    | closed => simp at quotes
    | broken => rfl
    | byte plain => exact absurd rfl plain.2.1
  | last =>
    cases h' with
    | closed => simp at quotes
    | last => rfl
    | byte plain => exact absurd rfl plain.2.2
  | continued more ih =>
    cases h' with
    | closed => simp at quotes
    | continued more' => rw [ih more']
    | escape other => exact absurd rfl other.1
    | byte plain => exact absurd rfl plain.2.2
  | skip more ih =>
    cases h' with
    | closed => simp at quotes
    | skip more' => rw [ih more']
    | escape other => exact absurd rfl other.2
    | byte plain => exact absurd rfl plain.2.2
  | escape kept more ih =>
    cases h' with
    | closed => simp at quotes
    | continued => exact absurd rfl kept.1
    | skip => exact absurd rfl kept.2
    | escape _ more' => rw [ih more']
    | byte plain => exact absurd rfl plain.2.2
  | byte plain more ih =>
    cases h' with
    | closed => exact absurd rfl plain.1
    | broken => exact absurd rfl plain.2.1
    | byte _ more' => rw [ih more']
    | _ => exact absurd rfl plain.2.2

/-- Bytes that are neither quotes nor backslashes nor line breaks are kept. -/
theorem Scans.append {front : List UInt8} (h : Scans quote text out)
    (plain : ∀ b ∈ front, b ≠ quote ∧ b ≠ 0x0A ∧ b ≠ 0x5C) :
    Scans quote (front ++ text) (out.keep front) := by
  induction front with
  | nil => exact h
  | cons b front ih =>
    obtain ⟨here, later⟩ := List.forall_mem_cons.1 plain
    exact .byte here (ih later)

end

/-! ## Line by line -/

/-- What is left of a line, and the lines below. -/
structure Cursor where
  line : List UInt8
  below : List (List UInt8)
deriving DecidableEq, Repr

namespace Cursor

/-- All bytes that are left, with a line break between each two lines. -/
def text (c : Cursor) : List UInt8 := [0x0A].intercalate (c.line :: c.below)

/-- No line has a line break in it. -/
def IsSplit (c : Cursor) : Prop := ∀ line ∈ c.line :: c.below, 0x0A ∉ line

/-- How many bytes and lines are left. -/
def size (c : Cursor) : Nat := c.line.length + (c.below.map (·.length + 1)).sum

/-- Skips blanks, and goes on in the next line where one ends. -/
def skip (line : List UInt8) : List (List UInt8) → Cursor
  | [] => ⟨line.dropWhile isBlankByte, []⟩
  | next :: below =>
    if (line.dropWhile isBlankByte).isEmpty then skip next below
    else ⟨line.dropWhile isBlankByte, next :: below⟩

variable {b : UInt8} {line next : List UInt8} {below : List (List UInt8)}

theorem text_nil : (⟨[], []⟩ : Cursor).text = [] := rfl

theorem text_cons (b : UInt8) (line : List UInt8) (below : List (List UInt8)) :
    (⟨b :: line, below⟩ : Cursor).text = b :: (⟨line, below⟩ : Cursor).text :=
  intercalate_cons_first ..

theorem text_break (next : List UInt8) (below : List (List UInt8)) :
    (⟨[], next :: below⟩ : Cursor).text = 0x0A :: (⟨next, below⟩ : Cursor).text := by
  rw [text, List.intercalate_cons_cons]
  rfl

theorem text_eq_append (line : List UInt8) (below : List (List UInt8)) :
    (⟨line, below⟩ : Cursor).text = line ++ (⟨[], below⟩ : Cursor).text := by
  induction line with
  | nil => rfl
  | cons b line ih => rw [text_cons, ih, List.cons_append]

theorem IsSplit.tail (h : (⟨b :: line, below⟩ : Cursor).IsSplit) :
    (⟨line, below⟩ : Cursor).IsSplit := by
  obtain ⟨first, more⟩ := List.forall_mem_cons.1 h
  exact List.forall_mem_cons.2 ⟨fun mem => first (List.mem_cons_of_mem b mem), more⟩

theorem IsSplit.ne (h : (⟨b :: line, below⟩ : Cursor).IsSplit) : b ≠ 0x0A := by
  rintro rfl
  exact h _ List.mem_cons_self List.mem_cons_self

theorem IsSplit.lower (h : (⟨line, next :: below⟩ : Cursor).IsSplit) :
    (⟨next, below⟩ : Cursor).IsSplit := (List.forall_mem_cons.1 h).2

theorem IsSplit.blank (h : (⟨line, below⟩ : Cursor).IsSplit) :
    (⟨line.dropWhile isBlankByte, below⟩ : Cursor).IsSplit := by
  obtain ⟨first, more⟩ := List.forall_mem_cons.1 h
  exact List.forall_mem_cons.2 ⟨fun mem => first ((List.dropWhile_suffix _).subset mem), more⟩

theorem IsSplit.skip (h : (⟨line, below⟩ : Cursor).IsSplit) : (skip line below).IsSplit := by
  induction below generalizing line with
  | nil => exact h.blank
  | cons next below ih =>
    rw [Cursor.skip]
    split
    · exact ih h.lower
    · exact h.blank

theorem dropWhile_isSkipped (oneLine : 0x0A ∉ line) :
    line.dropWhile isSkipped = line.dropWhile isBlankByte := by
  induction line with
  | nil => rfl
  | cons b line ih =>
    have same : isSkipped b = isBlankByte b := by
      have other : b ≠ 0x0A := fun eq => oneLine (eq ▸ List.mem_cons_self)
      simp [isSkipped, other]
    rw [List.dropWhile_cons, List.dropWhile_cons, same, ih fun mem => oneLine (.tail b mem)]

/-- Skipping goes over all blanks and line breaks that are left in front. -/
theorem text_skip (h : (⟨line, below⟩ : Cursor).IsSplit) :
    (skip line below).text = (⟨line, below⟩ : Cursor).text.dropWhile isSkipped := by
  have here := dropWhile_isSkipped (h line List.mem_cons_self)
  induction below generalizing line with
  | nil =>
    rw [skip, text_eq_append line, text_nil, List.append_nil, here, text_eq_append, text_nil,
      List.append_nil]
  | cons next below ih =>
    rw [skip, text_eq_append line, text_break, List.dropWhile_append, here]
    split
    · rw [List.dropWhile_cons_of_pos (by decide)]
      exact ih h.lower (dropWhile_isSkipped (h.lower next List.mem_cons_self))
    · rw [text_eq_append, text_break]

theorem size_skip_le (line : List UInt8) (below : List (List UInt8)) :
    (skip line below).size ≤ (⟨line, below⟩ : Cursor).size := by
  induction below generalizing line with
  | nil => exact (List.dropWhile_suffix _).length_le
  | cons next below ih =>
    rw [skip]
    split
    · have le := ih next
      simp only [size, List.map_cons, List.sum_cons] at le ⊢
      omega
    · exact Nat.add_le_add_right (List.dropWhile_suffix _).length_le _

end Cursor

/-- What reading line by line comes to: the content, whether the closing quote is there, and where
reading stops. -/
structure Stop where
  content : List UInt8
  closed : Bool
  cursor : Cursor
deriving DecidableEq, Repr

/-- Reads line by line. What is kept as it is stays in a segment of its line, and joins the gathered
content where the segment ends: at the closing quote, at the end of the line, and in front of a
backslash with `z`. -/
def scan (quote : UInt8) (gathered segment : List UInt8) : Cursor → Stop
  | ⟨[], below⟩ => ⟨gathered ++ segment, false, ⟨[], below⟩⟩
  | ⟨[b], below⟩ =>
    if b = quote then ⟨gathered ++ segment, true, ⟨[], below⟩⟩
    else if b = 0x5C then
      match below with
      | [] => ⟨gathered ++ segment ++ [0x0A], false, ⟨[], []⟩⟩
      | next :: below => scan quote (gathered ++ segment ++ [0x0A]) [] ⟨next, below⟩
    else scan quote gathered (segment ++ [b]) ⟨[], below⟩
  | ⟨b :: d :: line, below⟩ =>
    if b = quote then ⟨gathered ++ segment, true, ⟨d :: line, below⟩⟩
    else if b = 0x5C then
      if d = 0x7A then scan quote (gathered ++ segment) [] (Cursor.skip line below)
      else scan quote gathered (segment ++ [b, d]) ⟨line, below⟩
    else scan quote gathered (segment ++ [b]) ⟨d :: line, below⟩
termination_by c => c.size
decreasing_by
  · simp only [Cursor.size, List.length_cons, List.map_cons, List.sum_cons]
    omega
  · simp only [Cursor.size, List.length_cons]
    omega
  · have le := Cursor.size_skip_le line below
    simp only [Cursor.size, List.length_cons] at le ⊢
    omega
  · simp only [Cursor.size, List.length_cons]
    omega
  · simp only [Cursor.size, List.length_cons]
    omega

/-- Reading line by line, with some content gathered, comes to what the bytes come to. -/
structure Stop.Follows (quote : UInt8) (gathered text : List UInt8) (stop : Stop) : Prop where
  split : stop.cursor.IsSplit
  scans : ∃ content, stop.content = gathered ++ content ∧
    Scans quote text ⟨content, stop.cursor.text, stop.closed⟩

section

variable {quote : UInt8} {gathered kept text text' : List UInt8} {stop : Stop} {c : Cursor}

theorem Stop.Follows.keep (h : stop.Follows quote (gathered ++ kept) text)
    (rule : ∀ out, Scans quote text out → Scans quote text' (out.keep kept)) :
    stop.Follows quote gathered text' := by
  obtain ⟨content, eq, scans⟩ := h.scans
  exact ⟨h.split, kept ++ content, by rw [eq, List.append_assoc], rule _ scans⟩

theorem Stop.follows_nil (split : c.IsSplit) {closed : Bool}
    (h : Scans quote text ⟨[], c.text, closed⟩) (gathered : List UInt8) :
    (⟨gathered, closed, c⟩ : Stop).Follows quote gathered text :=
  ⟨split, [], (List.append_nil _).symm, h⟩

/-- Reading line by line comes to what the bytes come to: each step is one rule. -/
theorem follows_scan (gathered segment : List UInt8) (split : c.IsSplit) :
    (scan quote gathered segment c).Follows quote (gathered ++ segment) c.text := by
  fun_induction scan quote gathered segment c with
  | case1 gathered segment below =>
    refine Stop.follows_nil split ?_ _
    cases below with
    | nil => exact .ended
    | cons next below =>
      rw [Cursor.text_break]
      exact .broken _
  | case2 gathered segment below =>
    refine Stop.follows_nil split.tail ?_ _
    rw [Cursor.text_cons]
    exact .closed _
  | case3 gathered segment next =>
    exact ⟨split.tail, [0x0A], rfl, .last⟩
  | case4 gathered segment next below _ ih =>
    have more := ih split.lower
    rw [List.append_nil] at more
    refine more.keep fun out more => ?_
    rw [Cursor.text_cons, Cursor.text_break]
    exact .continued more
  | case5 gathered segment b below other plain ih =>
    have more := ih split.tail
    rw [← List.append_assoc] at more
    refine more.keep fun out more => ?_
    rw [Cursor.text_cons]
    exact .byte ⟨other, split.ne, plain⟩ more
  | case6 gathered segment d line below =>
    refine Stop.follows_nil split.tail ?_ _
    rw [Cursor.text_cons]
    exact .closed _
  | case7 gathered segment line below _ ih =>
    have more := ih split.tail.tail.skip
    refine more.keep fun out more => ?_
    rw [Cursor.text_skip split.tail.tail] at more
    rw [Cursor.text_cons, Cursor.text_cons]
    exact .skip more
  | case8 gathered segment d line below other _ ih =>
    have more := ih split.tail.tail
    rw [← List.append_assoc] at more
    refine more.keep fun out more => ?_
    rw [Cursor.text_cons, Cursor.text_cons]
    exact .escape ⟨split.tail.ne, other⟩ more
  | case9 gathered segment b d line below other plain ih =>
    have more := ih split.tail
    rw [← List.append_assoc] at more
    refine more.keep fun out more => ?_
    rw [Cursor.text_cons]
    exact .byte ⟨other, split.ne, plain⟩ more

end

/-! ## Characters -/

/-- What is found of a string, in bytes. -/
def outcome (q : Quoted) : Outcome := ⟨encode q.text, encode q.rest, q.closed⟩

theorem outcome_behind (q : Quoted) (raw text : Chars) :
    (q.behind raw text).outcome = q.outcome.keep (encode text) := by
  rw [outcome, behind, encode_append]
  rfl

section

variable {quote c : Char} {cs text : Chars} {bytes : List UInt8} {out : Outcome}

theorem isSkipped_of_blank (h : isBlank c ∨ c = '\n') :
    ∃ b, String.utf8EncodeChar c = [b] ∧ isSkipped b := by
  simp only [isBlank, Bool.or_eq_true, beq_iff_eq] at h
  rcases h with (((rfl | rfl) | rfl) | rfl) | rfl
  · exact ⟨0x20, by decide⟩
  · exact ⟨0x09, by decide⟩
  · exact ⟨0x0B, by decide⟩
  · exact ⟨0x0C, by decide⟩
  · exact ⟨0x0A, by decide⟩

theorem not_isSkipped_of_mem (h : ¬ (isBlank c ∨ c = '\n')) {b : UInt8}
    (mem : b ∈ String.utf8EncodeChar c) : ¬ isSkipped b := by
  intro skipped
  simp only [isSkipped, isBlankByte, Bool.or_eq_true, decide_eq_true_iff] at skipped
  rcases skipped with (((rfl | rfl) | rfl) | rfl) | rfl
  all_goals
    obtain ⟨rfl, -⟩ := eq_of_mem_encodeChar mem (by decide)
    exact h (by decide)

/-- A character that is not skipped has no byte that is. -/
theorem dropWhile_encode (h : ¬ (isBlank c ∨ c = '\n')) (cs : Chars) :
    (encode (c :: cs)).dropWhile isSkipped = encode (c :: cs) := by
  obtain ⟨b, bytes, eq⟩ := List.exists_cons_of_ne_nil (String.utf8EncodeChar_ne_nil (c := c))
  have kept : ¬ isSkipped b := not_isSkipped_of_mem h (eq ▸ List.mem_cons_self)
  rw [encode_cons, eq, List.cons_append, List.dropWhile_cons_of_neg kept]

variable (quotes : quote = '\x22' ∨ quote = '\x27')
include quotes

theorem toNat_quote_lt : quote.toNat < 0x80 ∧ quote.toUInt8.toNat < 0x80 := by
  rcases quotes with rfl | rfl <;> decide

/-- The bytes of a character that ends nothing are kept. -/
theorem Scans.char (plain : c ≠ quote ∧ c ≠ '\n' ∧ c ≠ '\\')
    (h : Scans quote.toUInt8 bytes out) :
    Scans quote.toUInt8 (String.utf8EncodeChar c ++ bytes)
      (out.keep (String.utf8EncodeChar c)) := by
  refine h.append fun b hb => ⟨?_, ?_, ?_⟩
  · rintro rfl
    exact toUInt8_notMem_encodeChar (toNat_quote_lt quotes).1 plain.1 hb
  · rintro rfl
    exact toUInt8_notMem_encodeChar (d := '\n') (by decide) plain.2.1 hb
  · rintro rfl
    exact toUInt8_notMem_encodeChar (d := '\\') (by decide) plain.2.2 hb

/-- Only the first byte of a character goes with a backslash. The others are kept on their own. -/
theorem Scans.escapedChar (kept : c ≠ '\n' ∧ c ≠ 'z') (h : Scans quote.toUInt8 bytes out) :
    Scans quote.toUInt8 (0x5C :: (String.utf8EncodeChar c ++ bytes))
      (out.keep (0x5C :: String.utf8EncodeChar c)) := by
  have newline := toUInt8_notMem_encodeChar (d := '\n') (by decide) kept.1
  have skip := toUInt8_notMem_encodeChar (d := 'z') (by decide) kept.2
  obtain ⟨b, tail, eq⟩ := List.exists_cons_of_ne_nil (String.utf8EncodeChar_ne_nil (c := c))
  have large : ∀ t ∈ tail, 0x80 ≤ t.toNat := by
    intro t ht
    by_contra small
    have alone := (eq_of_mem_encodeChar (eq ▸ List.mem_cons_of_mem b ht) (Nat.lt_of_not_le small)).2
    rw [eq] at alone
    obtain ⟨-, rfl⟩ := List.cons.inj alone
    exact nomatch ht
  have inner : Scans quote.toUInt8 (tail ++ bytes) (out.keep tail) := by
    refine h.append fun t ht => ⟨?_, ?_, ?_⟩
    · rintro rfl
      exact absurd (large _ ht) (Nat.not_le.2 (toNat_quote_lt quotes).2)
    · rintro rfl
      exact absurd (large _ ht) (by decide)
    · rintro rfl
      exact absurd (large _ ht) (by decide)
  rw [eq] at newline skip ⊢
  refine .escape ⟨?_, ?_⟩ inner
  · rintro rfl
    exact newline List.mem_cons_self
  · rintro rfl
    exact skip List.mem_cons_self

/-- Reading characters comes to what their bytes come to. -/
theorem scans_read (skipping : Bool) (cs : Chars) :
    Scans quote.toUInt8 (if skipping then (encode cs).dropWhile isSkipped else encode cs)
      (read quote skipping cs).outcome := by
  have whole {skipping : Bool} {c : Char} {cs : Chars}
      (h : ¬ (skipping ∧ (isBlank c ∨ c = '\n'))) :
      (if skipping then (encode (c :: cs)).dropWhile isSkipped else encode (c :: cs)) =
        encode (c :: cs) := by
    split
    · next skipping => exact dropWhile_encode (fun blank => h ⟨skipping, blank⟩) cs
    · rfl
  fun_induction read quote skipping cs with
  | case1 skipping =>
    have none : (if skipping then (encode []).dropWhile isSkipped else encode []) = [] := by
      cases skipping <;> rfl
    rw [none]
    exact .ended
  | case2 skipping c cs blank ih =>
    obtain ⟨b, bytes, skipped⟩ := isSkipped_of_blank blank.2
    rw [if_pos blank.1, encode_cons, bytes, List.singleton_append,
      List.dropWhile_cons_of_pos skipped, outcome_behind]
    rw [if_pos rfl] at ih
    exact ih
  | case3 skipping cs kept =>
    have byte : String.utf8EncodeChar quote = [quote.toUInt8] := by
      rcases quotes with rfl | rfl <;> decide
    rw [whole kept, encode_cons, byte]
    exact .closed _
  | case4 skipping cs kept =>
    rw [whole kept]
    exact .broken _
  | case5 skipping kept =>
    rw [whole kept]
    exact .last
  | case6 skipping cs kept _ _ ih =>
    rw [whole kept, outcome_behind]
    exact .continued ih
  | case7 skipping cs kept _ _ _ ih =>
    rw [whole kept, outcome_behind]
    exact .skip ih
  | case8 skipping d cs newline z kept _ _ ih =>
    have backslash : String.utf8EncodeChar '\\' = [0x5C] := by decide
    rw [whole kept, outcome_behind]
    simp only [encode_cons, encode_nil, List.append_nil, backslash]
    exact Scans.escapedChar quotes ⟨newline, z⟩ ih
  | case9 skipping c cs kept other newline backslash ih =>
    rw [whole kept, outcome_behind, encode_cons, encode_cons, encode_nil, List.append_nil]
    exact Scans.char quotes ⟨other, newline, backslash⟩ ih

end

/-! ## Lines of characters -/

namespace Cursor

variable {line : Chars} {below : List Chars} {c c' : Cursor}

/-- The bytes of a line, and those of the lines below. -/
def ofLines (line : Chars) (below : List Chars) : Cursor := ⟨encode line, below.map encode⟩

theorem text_ofLines (line : Chars) (below : List Chars) :
    (ofLines line below).text = encode (joinLines (line :: below)) :=
  (encode_joinLines (line :: below)).symm

theorem isSplit_ofLines (h : ∀ l ∈ line :: below, '\n' ∉ l) : (ofLines line below).IsSplit := by
  show ∀ bytes ∈ (line :: below).map encode, 0x0A ∉ bytes
  intro bytes mem
  obtain ⟨l, hl, rfl⟩ := List.mem_map.1 mem
  exact break_notMem_encode (h l hl)

theorem eq_of_text (h : c.IsSplit) (h' : c'.IsSplit) (same : c.text = c'.text) : c = c' := by
  have lines := congrArg (List.splitOn 0x0A) same
  rw [text, text, List.splitOn_intercalate _ h (List.cons_ne_nil _ _),
    List.splitOn_intercalate _ h' (List.cons_ne_nil _ _)] at lines
  obtain ⟨line, below⟩ := List.cons.inj lines
  cases c
  cases c'
  exact congr (congrArg mk line) below

end Cursor

/-- Reading lines of characters line by line, in bytes, comes to what reading characters does. -/
theorem scan_ofLines {quote : Char} (quotes : quote = '\x22' ∨ quote = '\x27') {back : Chars}
    {below : List Chars} (split : ∀ l ∈ back :: below, '\n' ∉ l) :
    let found := (read quote false (joinLines (back :: below))).outcome
    let stop := scan quote.toUInt8 [] [] (.ofLines back below)
    stop.cursor.IsSplit ∧
      found = ⟨stop.content, stop.cursor.text, stop.closed⟩ := by
  have follows := @follows_scan quote.toUInt8 _ [] [] (Cursor.isSplit_ofLines split)
  obtain ⟨content, eq, scans⟩ := follows.scans
  rw [Cursor.text_ofLines] at scans
  have bytes : quote.toUInt8 = 0x22 ∨ quote.toUInt8 = 0x27 := by
    rcases quotes with rfl | rfl <;> decide
  refine ⟨follows.split, ?_⟩
  rw [eq]
  exact (scans_read quotes false _).unique bytes scans

end Quoted

/-! ## Strings of a source -/

/-- A cursor stands at a place of a source if the rest of the line and all lines below are left. -/
def Source.CursorAt (s : Source) (p : Position) (c : Quoted.Cursor) : Prop :=
  ∃ lead tail, s.line p.line = lead ++ tail ∧ byteSize lead = p.column ∧
    c = .ofLines tail (s.lines.drop (p.line + 1))

/-- A lexeme is a quoted string that reading its bytes comes to. It stops where they are left, and
brings up an error if and only if it is unfinished, at the end of the line where it stops. -/
structure Lexeme.QuotedAs (s : Source) (quote : Char) (found : Quoted.Outcome)
    (cursor : Quoted.Cursor) (x : Lexeme) : Prop where
  kind : x.token.kind = .string
  content : encode x.token.text.toList = found.content
  valid : x.token.valid = found.closed
  left : encode (s.slice ⟨x.token.location.stop, s.endPosition⟩) = found.rest
  cursor : s.CursorAt x.token.location.stop cursor
  fault : x.fault = if found.closed then none
    else some ⟨.unfinishedString quote, .point x.token.location.stop⟩
  lineEnd : found.closed = false →
    x.token.location.stop.column = byteSize (s.line x.token.location.stop.line)

theorem Piece.first_of_quote {quote : Char} (quotes : quote = '\x22' ∨ quote = '\x27')
    (text : Chars) :
    first quote text = (.token (quoted quote text).1, (quoted quote text).2) := by
  have blank : ¬ (isBlank quote ∨ quote = '\n') := by rcases quotes with rfl | rfl <;> decide
  have dashes : strip? ['-', '-'] (quote :: text) = none :=
    if_neg (by rcases quotes with rfl | rfl <;> decide)
  rw [first, if_neg blank, dashes, lexical, if_pos quotes]

/-- A cursor that holds what is left of a source stands where the text in front of it leads. -/
theorem Source.cursorAt_after {s : Source} (split : s.IsSplit) {front rest : Chars}
    (eq : s.text = front ++ rest) {c : Quoted.Cursor} (separate : c.IsSplit)
    (left : c.text = encode rest) : s.CursorAt (({} : Position).after front) c := by
  obtain ⟨lead, tail, line, column, rfl⟩ := rest_after split eq
  refine ⟨lead, tail, line, column, Quoted.Cursor.eq_of_text separate ?_ ?_⟩
  · refine Quoted.Cursor.isSplit_ofLines (List.forall_mem_cons.2 ⟨?_, fun l hl => ?_⟩)
    · exact fun mem => notMem_line split _ (line ▸ List.mem_append_right lead mem)
    · exact split l (List.mem_of_mem_drop hl)
  · rw [left, Quoted.Cursor.text_ofLines]

/-- A string that starts at a place is what its bytes come to. -/
theorem Margin.quotedAs {s : Source} (split : s.IsSplit) {m : Margin} {before text : Chars}
    {quote : Char} (eq : s.text = before ++ quote :: text)
    (hm : m.position = ({} : Position).after before) {cursor : Quoted.Cursor}
    (separate : cursor.IsSplit) (left : cursor.text = encode (Quoted.read quote false text).rest) :
    (m.lexeme (Piece.quoted quote text).1).QuotedAs s quote
      (Quoted.read quote false text).outcome cursor := by
  have spelled := Piece.append_quoted quote text
  rw [← spelled, ← List.append_assoc] at eq
  have stop : m.position.after (Piece.quoted quote text).1.spelling =
      ({} : Position).after (before ++ (Piece.quoted quote text).1.spelling) := by
    rw [hm, Position.after_append]
  constructor
  case kind => rfl
  case content => exact congrArg encode String.toList_ofList
  case valid =>
    have isNone (b : Bool) : (if b then none else some (Flaw.unfinished quote)).isNone = b := by
      cases b <;> rfl
    exact isNone _
  case left =>
    show encode (s.slice ⟨m.position.after _, s.endPosition⟩) = _
    rw [stop, Source.slice_behind split eq]
    rfl
  case cursor =>
    show s.CursorAt (m.position.after _) cursor
    rw [stop]
    exact Source.cursorAt_after split eq separate left
  case fault =>
    have map (b : Bool) (f : Flaw → SyntaxError) :
        (if b then none else some (Flaw.unfinished quote)).map f =
          if b then none else some (f (.unfinished quote)) := by
      cases b <;> rfl
    exact map _ _
  case lineEnd =>
    intro opened
    show (m.position.after _).column = byteSize (s.line (m.position.after _).line)
    rw [stop]
    exact Source.column_after split eq (Quoted.stops_of_open opened)

/-- What stands behind an opening quote of a source, read in bytes from left to right, comes to
exactly one thing, and reading line by line comes to it too. A string that starts at the quote has
that content, is valid if and only if a closing quote was found, and stops where the bytes are left.
If it is unfinished, one error stands at the end of the line where it stops. -/
theorem Source.reads_quoted (name : String) (bytes : List UInt8) {i : Nat} {quote : Char}
    {front back : Chars} (quotes : quote = '\x22' ∨ quote = '\x27')
    (line : (ofBytes name bytes).line i = front ++ quote :: back) :
    let s := ofBytes name bytes
    let text := joinLines (back :: s.lines.drop (i + 1))
    let stop := Quoted.scan quote.toUInt8 [] [] (.ofLines back (s.lines.drop (i + 1)))
    ∃ found : Quoted.Outcome,
      (∀ other, Quoted.Scans quote.toUInt8 (encode text) other ↔ other = found) ∧
      found = ⟨stop.content, stop.cursor.text, stop.closed⟩ ∧
      (∀ m : Margin, m.position = ⟨i, byteSize front⟩ →
        ∃ t rest, Piece.first quote text = (.token t, rest) ∧
          (m.lexeme t).QuotedAs s quote found stop.cursor) ∧
      ∀ x ∈ s.lexemes, x.token.location.start = ⟨i, byteSize front⟩ →
        x.QuotedAs s quote found stop.cursor := by
  intro s text stop
  have split : s.IsSplit := isSplit_ofBytes name bytes
  have part : s.line i = front ++ [quote] ++ back := by
    rw [List.append_assoc]
    exact line
  obtain ⟨whole, after⟩ := text_of_line (List.cons_ne_nil _ _) part split
  rw [List.append_assoc _ [quote]] at whole
  have lines : ∀ l ∈ back :: s.lines.drop (i + 1), '\n' ∉ l := by
    refine List.forall_mem_cons.2 ⟨fun mem => ?_, fun l hl => split l (List.mem_of_mem_drop hl)⟩
    exact notMem_line split i (part ▸ List.mem_append_right _ mem)
  obtain ⟨separate, same⟩ := Quoted.scan_ofLines quotes lines
  have left := congrArg Quoted.Outcome.rest same
  have bytes : quote.toUInt8 = 0x22 ∨ quote.toUInt8 = 0x27 := by
    rcases quotes with rfl | rfl <;> decide
  have scans := Quoted.scans_read quotes false text
  refine ⟨_, fun other => ⟨fun h => h.unique bytes scans, ?_⟩, same, fun m hm => ?_, ?_⟩
  · rintro rfl
    exact scans
  · exact ⟨_, _, Piece.first_of_quote quotes text,
      Margin.quotedAs split whole (hm.trans after.symm) separate left.symm⟩
  · intro x hx start
    obtain ⟨m, hm, rfl⟩ := eq_lexeme_of_start split hx whole (start.trans after.symm)
      (Piece.first_of_quote quotes text)
    exact Margin.quotedAs split whole hm separate left.symm

/-- A string over four lines. A backslash in it stands at the end of a line, others in front of `z`,
of a character of two bytes and of a backslash. -/
theorem Source.reads_quoted_fourLines :
    let s := ofBytes "" "s = 'a\\\nb\\z \n\n \\é\\\\' --".toUTF8.toList
    ∃ (found : Quoted.Outcome) (cursor : Quoted.Cursor),
      Quoted.Scans 0x27 (encode "a\\\nb\\z \n\n \\é\\\\' --".toList) found ∧
      found.content = encode "a\nb\\é\\\\".toList ∧ found.closed ∧
      ∃ x ∈ s.lexemes, x.token.location = ⟨⟨0, 4⟩, ⟨3, 7⟩⟩ ∧ x.QuotedAs s '\x27' found cursor := by
  intro s
  have line : s.line 0 = "s = ".toList ++ '\x27' :: "a\\".toList := by decide +kernel
  have text : joinLines ("a\\".toList :: s.lines.drop 1) = "a\\\nb\\z \n\n \\é\\\\' --".toList := by
    decide +kernel
  have lexeme : ∃ x ∈ s.lexemes, x.token.location = ⟨⟨0, 4⟩, ⟨3, 7⟩⟩ ∧ x.token.valid ∧
      x.token.text = "a\nb\\é\\\\" := by
    decide +kernel
  obtain ⟨x, hx, place, valid, content⟩ := lexeme
  obtain ⟨found, scans, -, -, strings⟩ :=
    reads_quoted "" "s = 'a\\\nb\\z \n\n \\é\\\\' --".toUTF8.toList (.inr rfl) line
  rw [text] at scans
  have quoted := strings x hx (congrArg Location.start place)
  refine ⟨found, _, (scans found).2 rfl, ?_, ?_, x, hx, place, quoted⟩
  · rw [← quoted.content, content]
  · rw [← quoted.valid, valid]

end LuaFront
