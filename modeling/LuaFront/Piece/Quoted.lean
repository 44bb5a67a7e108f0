import LuaFront.Text.Class

/-!
# Quoted strings

A quoted string ends at the quote that opened it. A backslash makes the next character part of the
string, whatever it is, and both are kept as written, with two exceptions: a backslash at the end of
a line lets the string go on in the next line and stands for a line break, and a backslash with `z`
stands for nothing and skips all blanks and line breaks behind it. Any other line break leaves the
string unfinished.

* `Quoted.raw_append_rest`: reading loses nothing of the text.
-/

namespace LuaFront

/-- What reading a quoted string finds behind its opening quote. -/
structure Quoted where
  /-- The content of the string. -/
  text : Chars
  /-- The characters read, the closing quote included. -/
  raw : Chars
  /-- The characters left. -/
  rest : Chars
  /-- Whether the closing quote was found. -/
  closed : Bool
deriving DecidableEq, Repr

namespace Quoted

/-- Puts characters in front: `raw` as they were read, standing for `text`. -/
def behind (q : Quoted) (raw text : Chars) : Quoted :=
  { q with raw := raw ++ q.raw, text := text ++ q.text }

/-- Reads a string behind its opening quote. While `skipping`, blanks and line breaks are passed
over. -/
def read (quote : Char) : (skipping : Bool) → Chars → Quoted
  | _, [] => ⟨[], [], [], false⟩
  | skipping, c :: cs =>
    if skipping ∧ (Text.isBlank c ∨ c = '\n') then (read quote true cs).behind [c] []
    else if c = quote then ⟨[], [c], cs, true⟩
    else if c = '\n' then ⟨[], [], c :: cs, false⟩
    else if c = '\\' then
      match cs with
      -- The text ends where the next line would start: the line break counts, the quote is missing.
      | [] => ⟨['\n'], [c], [], false⟩
      | d :: cs =>
        if d = '\n' then (read quote false cs).behind [c, d] [d]
        else if d = 'z' then (read quote true cs).behind [c, d] []
        else (read quote false cs).behind [c, d] [c, d]
    else (read quote false cs).behind [c] [c]

@[simp] theorem raw_behind (q : Quoted) (raw text : Chars) :
    (q.behind raw text).raw = raw ++ q.raw := rfl

@[simp] theorem rest_behind (q : Quoted) (raw text : Chars) :
    (q.behind raw text).rest = q.rest := rfl

theorem raw_append_rest (quote : Char) (skipping : Bool) (cs : Chars) :
    (read quote skipping cs).raw ++ (read quote skipping cs).rest = cs := by
  fun_induction read quote skipping cs <;> simp [*]

example : (read '\x22' false "a\\z \n b\\\"\" c".toList).text = "ab\\\"".toList := by
  decide +kernel

end Quoted

end LuaFront
