import LuaFront.Proofs.Order

/-!
# Positions and byte offsets

A position counts lines and bytes within a line, an offset counts the bytes of the whole text. The
place to which a text leads from the start of a source has the length of that text as its offset, so
a location of a source cuts out of its text what was read there.

* `Source.holds_after`: what is read of a source leads to a place in it.
* `Source.offsetOf_after`: the offset of that place is the number of bytes read.
* `Source.slice_between`, `Source.slice_behind`: between two places stands what was read from one to
  the other, and behind a place what is left.
-/

namespace LuaFront

namespace Text

/-- The characters that end within the first `n` bytes of a text. -/
def takeBytes : Nat → Chars → Chars
  | _, [] => []
  | n, c :: text => if c.utf8Size ≤ n then c :: takeBytes (n - c.utf8Size) text else []

/-- The characters that start behind the first `n` bytes of a text. -/
def dropBytes : Nat → Chars → Chars
  | 0, text => text
  | _ + 1, [] => []
  | n + 1, c :: text => dropBytes (n + 1 - c.utf8Size) text

/-- The characters of a text between two byte offsets. -/
def slice (start stop : Nat) (text : Chars) : Chars := dropBytes start (takeBytes stop text)

theorem takeBytes_append (front rest : Chars) :
    takeBytes (byteSize front) (front ++ rest) = front := by
  induction front with
  | nil =>
    cases rest with
    | nil => rfl
    | cons c rest => simp [takeBytes, Nat.ne_of_gt c.utf8Size_pos]
  | cons c front ih => simp [takeBytes, ih]

theorem dropBytes_append (front rest : Chars) :
    dropBytes (byteSize front) (front ++ rest) = rest := by
  induction front with
  | nil => simp [dropBytes]
  | cons c front ih =>
    obtain ⟨n, hn⟩ := Nat.exists_eq_add_one.2 (Nat.add_pos_left c.utf8Size_pos (byteSize front))
    rw [byteSize_cons, List.cons_append, hn, dropBytes, ← hn, Nat.add_sub_cancel_left, ih]

theorem slice_append (front middle rest : Chars) :
    slice (byteSize front) (byteSize (front ++ middle)) (front ++ middle ++ rest) = middle := by
  rw [slice, takeBytes_append, dropBytes_append]

/-- Nothing is left of a line in front of a line break, and at the end of the text. -/
theorem takeWhile_of_stops {text : Chars} (h : ∀ c ∈ text.head?, c = '\n') :
    text.takeWhile (· ≠ '\n') = [] := by
  cases text with
  | nil => rfl
  | cons c text => exact List.takeWhile_cons_of_neg (by simp [h c rfl])

/-- Some lines up to the first line break are the first of them. -/
theorem takeWhile_joinLines {line : Chars} (h : '\n' ∉ line) (below : List Chars) :
    (joinLines (line :: below)).takeWhile (· ≠ '\n') = line := by
  have all : ∀ c ∈ line, decide (c ≠ '\n') := fun c hc => decide_eq_true fun eq => h (eq ▸ hc)
  cases below with
  | nil => simpa using @List.takeWhile_append_of_pos _ _ line [] all
  | cons next below =>
    rw [joinLines_cons_cons, List.takeWhile_append_of_pos all]
    simp

end Text

theorem Position.after_flatMap_lines {ls : List Chars} (h : ∀ l ∈ ls, '\n' ∉ l) (n : Nat) :
    (⟨n, 0⟩ : Position).after (ls.flatMap (· ++ ['\n'])) = ⟨n + ls.length, 0⟩ := by
  induction ls generalizing n with
  | nil => rfl
  | cons l ls ih =>
    rw [List.flatMap_cons, after_append, after_append, after_of_not_mem (h l List.mem_cons_self),
      after_cons, after_nil, advance, if_pos rfl, ih fun k hk => h k (List.mem_cons_of_mem l hk)]
    simp [Nat.add_assoc, Nat.add_comm 1]

namespace Source

/-- A source has a position if it has the line, or has no line at all, and if the column is the size
of a front of that line. So no position stands inside a character. -/
structure Holds (s : Source) (p : Position) : Prop where
  line : s.lines ≠ [] → p.line < s.count
  column : ∃ front, front <+: s.line p.line ∧ Text.byteSize front = p.column

/-- What a source holds at a location. -/
def slice (s : Source) (l : Location) : Chars :=
  Text.slice (s.offsetOf l.start) (s.offsetOf l.stop) s.text

/-- The lines above a line, with their line breaks. -/
def above (s : Source) (i : Nat) : Chars := (s.lines.take i).flatMap (· ++ ['\n'])

theorem byteSize_above (s : Source) (i : Nat) : Text.byteSize (s.above i) = s.lineStart i := by
  have newline : Char.utf8Size '\n' = 1 := rfl
  rw [above, lineStart]
  induction s.lines.take i with
  | nil => rfl
  | cons l ls ih => simp [ih, newline, Nat.add_assoc]

variable {s : Source}

theorem after_above (h : s.IsSplit) {i : Nat} (hi : i ≤ s.count) :
    ({} : Position).after (s.above i) = ⟨i, 0⟩ := by
  have split : ∀ l ∈ s.lines.take i, '\n' ∉ l := fun l hl => h l (List.mem_of_mem_take hl)
  have leads := Position.after_flatMap_lines split 0
  rwa [List.length_take_of_le hi, Nat.zero_add] at leads

/-- The text of a source is made of the lines above a line, this line, and those below. -/
theorem text_eq_above_append {i : Nat} (hi : i < s.count) :
    s.text = s.above i ++ Text.joinLines (s.line i :: s.lines.drop (i + 1)) := by
  obtain ⟨name, lines⟩ := s
  simp only [text, above, line, count] at hi ⊢
  induction lines generalizing i with
  | nil => exact absurd hi (Nat.not_lt_zero i)
  | cons l ls ih =>
    cases i with
    | zero => simp
    | succ i =>
      have lt : i < ls.length := Nat.lt_of_succ_lt_succ hi
      obtain ⟨next, below, rfl⟩ := List.exists_cons_of_length_pos (Nat.zero_lt_of_lt lt)
      rw [Text.joinLines_cons_cons, ih lt]
      simp

/-- A front of joined lines is made of whole lines and of a front of the next line. -/
theorem exists_line_of_prefix {front : Chars} {ls : List Chars} (hls : ls ≠ [])
    (h : front <+: Text.joinLines ls) :
    ∃ i line, ls[i]? = some line ∧ ∃ part, part <+: line ∧
      front = (ls.take i).flatMap (· ++ ['\n']) ++ part := by
  induction ls generalizing front with
  | nil => exact absurd rfl hls
  | cons l ls ih =>
    cases ls with
    | nil => exact ⟨0, l, rfl, front, by simpa using h, rfl⟩
    | cons next ls =>
      obtain ⟨rest, eq⟩ := h
      rw [Text.joinLines_cons_cons] at eq
      -- The front ends either within the first line or behind its line break.
      rcases List.append_eq_append_iff.1 eq with ⟨mid, hl, -⟩ | ⟨mid, hfront, hmid⟩
      · exact ⟨0, l, rfl, front, ⟨mid, hl.symm⟩, rfl⟩
      · cases mid with
        | nil => exact ⟨0, l, rfl, front, by simp [hfront], rfl⟩
        | cons c mid =>
          obtain ⟨rfl, hrest⟩ := List.cons.inj hmid
          obtain ⟨i, line, hi, part, hpart, rfl⟩ := ih (List.cons_ne_nil _ _) ⟨rest, hrest.symm⟩
          exact ⟨i + 1, line, hi, part, hpart, by simp [hfront]⟩

/-- A front of the text of a source leads into a line of it, if there is any. -/
theorem exists_after (h : s.IsSplit) (hs : s.lines ≠ []) {front : Chars} (hf : front <+: s.text) :
    ∃ i part, i < s.count ∧ part <+: s.line i ∧ front = s.above i ++ part ∧
      ({} : Position).after front = ⟨i, Text.byteSize part⟩ := by
  obtain ⟨i, line, hi, part, hpart, rfl⟩ := exists_line_of_prefix hs hf
  obtain ⟨lt, rfl⟩ := List.getElem?_eq_some_iff.1 hi
  have eq : s.line i = s.lines[i] := by simp [Source.line, hi]
  have notMem : '\n' ∉ part := fun mem => h _ (List.getElem_mem lt) (hpart.subset mem)
  refine ⟨i, part, lt, eq ▸ hpart, rfl, ?_⟩
  rw [← above, Position.after_append, after_above h (Nat.le_of_lt lt),
    Position.after_of_not_mem notMem, Nat.zero_add]

theorem holds_after (h : s.IsSplit) {front : Chars} (hf : front <+: s.text) :
    s.Holds (({} : Position).after front) := by
  by_cases hs : s.lines = []
  · have nil : s.text = [] := by rw [text, hs, Text.joinLines_nil]
    obtain rfl := List.prefix_nil.1 (nil ▸ hf)
    exact ⟨fun ne => absurd hs ne, [], List.nil_prefix, rfl⟩
  · obtain ⟨i, part, lt, hpart, -, eq⟩ := exists_after h hs hf
    rw [eq]
    exact ⟨fun _ => lt, part, hpart, rfl⟩

/-- Behind a place of a source stands the rest of its line, and then all lines below. -/
theorem rest_after (h : s.IsSplit) {front rest : Chars} (eq : s.text = front ++ rest) :
    let p := ({} : Position).after front
    ∃ lead tail, s.line p.line = lead ++ tail ∧ Text.byteSize lead = p.column ∧
      rest = Text.joinLines (tail :: s.lines.drop (p.line + 1)) := by
  by_cases hs : s.lines = []
  · have nil : front ++ rest = [] := by rw [← eq, text, hs, Text.joinLines_nil]
    obtain ⟨rfl, rfl⟩ := List.append_eq_nil_iff.1 nil
    exact ⟨[], [], by simp [line, hs], rfl, by simp [hs]⟩
  · obtain ⟨i, part, lt, ⟨more, cut⟩, rfl, after⟩ := exists_after h hs ⟨rest, eq.symm⟩
    rw [after]
    refine ⟨part, more, cut.symm, rfl, ?_⟩
    have whole := text_eq_above_append lt
    rw [eq, List.append_assoc, List.append_cancel_left_eq, ← cut] at whole
    cases below : s.lines.drop (i + 1) with
    | nil => simpa [below] using whole
    | cons next below' => simpa [below] using whole

theorem notMem_line (h : s.IsSplit) (i : Nat) : '\n' ∉ s.line i := by
  rw [line, List.getD_eq_getElem?_getD]
  cases line : s.lines[i]? with
  | none => exact List.not_mem_nil
  | some l => exact h l (List.mem_of_getElem? line)

theorem line_after (h : s.IsSplit) {front rest : Chars} (eq : s.text = front ++ rest) :
    ∃ lead, s.line (({} : Position).after front).line = lead ++ rest.takeWhile (· ≠ '\n') ∧
      Text.byteSize lead = (({} : Position).after front).column := by
  obtain ⟨lead, tail, line, column, rfl⟩ := rest_after h eq
  have oneLine : '\n' ∉ tail := fun newline =>
    notMem_line h _ (line ▸ List.mem_append_right lead newline)
  exact ⟨lead, by rw [line, Text.takeWhile_joinLines oneLine], column⟩

theorem offsetOf_after (h : s.IsSplit) {front : Chars} (hf : front <+: s.text) :
    s.offsetOf (({} : Position).after front) = Text.byteSize front := by
  by_cases hs : s.lines = []
  · have nil : s.text = [] := by rw [text, hs, Text.joinLines_nil]
    obtain rfl := List.prefix_nil.1 (nil ▸ hf)
    simp [offsetOf, count, hs, nil]
  · obtain ⟨i, part, lt, ⟨rest, hrest⟩, rfl, eq⟩ := exists_after h hs hf
    have le : Text.byteSize part ≤ Text.byteSize (s.line i) := by simp [← hrest]
    rw [eq, offsetOf, if_pos lt, Text.byteSize_append, byteSize_above, Nat.min_eq_left le]

/-- Only one front of a source leads to a place. -/
theorem front_unique (h : s.IsSplit) {front front' rest rest' : Chars}
    (eq : s.text = front ++ rest) (eq' : s.text = front' ++ rest')
    (same : ({} : Position).after front = ({} : Position).after front') : front = front' := by
  have size : Text.byteSize front = Text.byteSize front' := by
    rw [← offsetOf_after h ⟨rest, eq.symm⟩, same, offsetOf_after h ⟨rest', eq'.symm⟩]
  rw [← Text.takeBytes_append front rest, ← eq, size, eq', Text.takeBytes_append]

theorem slice_between (h : s.IsSplit) {front middle rest : Chars}
    (hs : s.text = front ++ middle ++ rest) :
    s.slice ⟨({} : Position).after front, ({} : Position).after (front ++ middle)⟩ = middle := by
  have hfront : front <+: s.text := ⟨middle ++ rest, by simp [hs]⟩
  have hmiddle : front ++ middle <+: s.text := ⟨rest, hs.symm⟩
  rw [slice, offsetOf_after h hfront, offsetOf_after h hmiddle, hs, Text.slice_append]

/-- Behind a place stands all of the text that is left. -/
theorem slice_behind (h : s.IsSplit) {front rest : Chars} (hs : s.text = front ++ rest) :
    s.slice ⟨({} : Position).after front, s.endPosition⟩ = rest := by
  have whole : s.text = front ++ rest ++ [] := by rw [hs, List.append_nil]
  have between := slice_between h whole
  rwa [← hs, after_text h] at between

end Source

end LuaFront
