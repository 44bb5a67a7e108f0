import LuaFront.Position
import LuaFront.Text.Lines
import LuaFront.Text.Utf8

/-!
# Source files

A `Source` is the content of a file as lines of characters. `Source.ofBytes` makes it from bytes: a
leading byte order mark is removed, carriage returns are dropped wherever they stand, lines end at
line feeds, ill-formed bytes are replaced, and a first line that starts with `#` is blanked, so that
the lines below keep their numbers. The empty file has no line at all.

Positions in a source count lines and bytes within a line; `Source.offsetOf` turns them into byte
offsets of `Source.text`.
-/

namespace LuaFront

/-- The content of a file as lines, and the name under which it is reported. -/
structure Source where
  name : String
  lines : List Chars
deriving DecidableEq, Repr

namespace Source

/-- The bytes without a leading byte order mark. -/
def withoutMark : List UInt8 → List UInt8
  | 0xEF :: 0xBB :: 0xBF :: bytes => bytes
  | bytes => bytes

/-- The lines with a first line that starts with `#` made empty. -/
def blankDirective : List Chars → List Chars
  | ('#' :: _) :: ls => [] :: ls
  | ls => ls

/-- The source made of the bytes of a file. -/
def ofBytes (name : String) (bytes : List UInt8) : Source :=
  match withoutMark bytes with
  | [] => ⟨name, []⟩
  | bytes => ⟨name, blankDirective (Text.splitLines (Text.decode (bytes.filter (· != 0x0D))))⟩

/-- The number of lines. -/
def count (s : Source) : Nat := s.lines.length

/-- The line of the given number, empty if there is none. -/
def line (s : Source) (i : Nat) : Chars := s.lines.getD i []

/-- All lines, with a line break between each two of them. -/
def text (s : Source) : Chars := Text.joinLines s.lines

/-- The end of the last line. -/
def endPosition (s : Source) : Position :=
  ⟨s.count - 1, Text.byteSize (s.line (s.count - 1))⟩

/-- The empty location at the end of the last line. -/
def endLocation (s : Source) : Location := .point s.endPosition

/-- The byte offset in `text` of the start of a line. -/
def lineStart (s : Source) (i : Nat) : Nat :=
  (s.lines.take i).foldr (fun line n => Text.byteSize line + 1 + n) 0

/-- The byte offset in `text` of a position. A column beyond the end of its line means that end, and
a line beyond the last means the end of the text. -/
def offsetOf (s : Source) (p : Position) : Nat :=
  if p.line < s.count then s.lineStart p.line + min p.column (Text.byteSize (s.line p.line))
  else Text.byteSize s.text

example : (ofBytes "" "ab\r\ncd\nef".toUTF8.toList).offsetOf ⟨2, 9⟩ = 8 := by decide +kernel

end Source

end LuaFront
