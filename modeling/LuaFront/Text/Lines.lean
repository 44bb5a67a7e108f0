import LuaFront.Text.Class

/-!
# Lines of a text

Two readings of line breaks. `splitLines` takes a break as a separator, so a text with `n` breaks
has `n + 1` lines, and `joinLines` undoes it. `lines` takes a break as the end of a line, so a
trailing break opens no further line, and a carriage return in front of it belongs to the break.

* `joinLines_append`: there is a line break between the last line of some and the first of others.
* `joinLines_splitLines`: joining the lines of a text gives the text.
* `splitLines_ne_nil`: every text has a line.
-/

namespace LuaFront.Text

/-- The pieces of a text between its line breaks. -/
def splitLines : Chars → List Chars
  | [] => [[]]
  | c :: text =>
    if c = '\n' then [] :: splitLines text
    else match splitLines text with
      | [] => [[c]]
      | l :: ls => (c :: l) :: ls

/-- The lines of a text with a line break between each two of them. -/
def joinLines (ls : List Chars) : Chars := ['\n'].intercalate ls

theorem splitLines_ne_nil (text : Chars) : splitLines text ≠ [] := by
  cases text with
  | nil => simp [splitLines]
  | cons c text => unfold splitLines; split <;> (try split) <;> simp

@[simp] theorem joinLines_nil : joinLines [] = [] := rfl

@[simp] theorem joinLines_singleton (l : Chars) : joinLines [l] = l := by simp [joinLines]

@[simp] theorem joinLines_cons_cons (l m : Chars) (ls : List Chars) :
    joinLines (l :: m :: ls) = l ++ '\n' :: joinLines (m :: ls) := by
  simp [joinLines, List.intercalate]

section

variable {α : Type} (sep : List α)

/-- The first character of all is the first one of the first text. -/
theorem intercalate_cons_first (c : α) (x : List α) (xs : List (List α)) :
    sep.intercalate ((c :: x) :: xs) = c :: sep.intercalate (x :: xs) := by
  cases xs <;> simp

theorem intercalate_append {xs ys : List (List α)} (hx : xs ≠ []) (hy : ys ≠ []) :
    sep.intercalate (xs ++ ys) = sep.intercalate xs ++ sep ++ sep.intercalate ys := by
  induction xs with
  | nil => exact absurd rfl hx
  | cons x xs ih =>
    cases xs with
    | nil =>
      rw [List.singleton_append, List.intercalate_cons_of_ne_nil hy, List.intercalate_singleton]
    | cons x' xs =>
      have more := ih (List.cons_ne_nil x' xs)
      rw [List.cons_append] at more
      rw [List.cons_append, List.cons_append, List.intercalate_cons_cons, more,
        List.intercalate_cons_cons]
      simp only [List.append_assoc]

end

theorem joinLines_cons_char (c : Char) (l : Chars) (ls : List Chars) :
    joinLines ((c :: l) :: ls) = c :: joinLines (l :: ls) := intercalate_cons_first ..

theorem joinLines_append {ls ms : List Chars} (hl : ls ≠ []) (hm : ms ≠ []) :
    joinLines (ls ++ ms) = joinLines ls ++ '\n' :: joinLines ms := by
  rw [joinLines, intercalate_append _ hl hm, List.append_assoc, List.singleton_append]
  rfl

theorem joinLines_splitLines (text : Chars) : joinLines (splitLines text) = text := by
  induction text with
  | nil => simp [splitLines]
  | cons c text ih =>
    unfold splitLines
    cases h : splitLines text with
    | nil => exact absurd h (splitLines_ne_nil text)
    | cons l ls =>
      rw [h] at ih
      split
      · simp_all
      · simp [joinLines_cons_char, ih]

/-- The lines of a text, each ended by a line break or by the end of the text. -/
def lines : Chars → List Chars
  | [] => []
  | '\n' :: text => [] :: lines text
  | '\r' :: '\n' :: text => [] :: lines text
  | c :: text => match lines text with
    | [] => [[c]]
    | l :: ls => (c :: l) :: ls

example : lines "a\r\n\nb".toList = ["a".toList, [], "b".toList] := by decide +kernel

example : lines "a\n".toList = ["a".toList] := by decide +kernel

end LuaFront.Text
