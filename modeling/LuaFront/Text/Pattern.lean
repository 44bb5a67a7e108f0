import LuaFront.Text.Class

/-!
# Patterns

A `Pattern` says how many characters at the start of a text belong to it, if the text starts with
one at all. Repetitions and optional parts take as much as they can.
-/

namespace LuaFront

/-- How many characters at the start of a text belong to something, if it is there. -/
abbrev Pattern := Chars → Option Nat

namespace Pattern

/-- One character of a class. -/
def char (p : Char → Bool) : Pattern := fun text =>
  if text.head?.any p then some 1 else none

/-- All characters up to the first that is not in the class. -/
def many (p : Char → Bool) : Pattern := fun text => some (text.takeWhile p).length

/-- One pattern and another one behind it. -/
def andThen (f g : Pattern) : Pattern := fun text =>
  (f text).bind fun n => (g (text.drop n)).map (n + ·)

/-- A pattern that may be missing. -/
def optional (f : Pattern) : Pattern := fun text => some ((f text).getD 0)

/-- At least one character of a class. -/
def many1 (p : Char → Bool) : Pattern := (char p).andThen (many p)

/-- A fixed text. -/
def literal (word : Chars) : Pattern := fun text =>
  if word.isPrefixOf text then some word.length else none

end Pattern

end LuaFront
