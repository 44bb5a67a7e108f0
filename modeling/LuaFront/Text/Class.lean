/-!
# Character classes of program text

Names, numerals and blanks of a program are made of ASCII characters only, so these classes hold no
character beyond ASCII.
-/

namespace LuaFront

/-- Program text is handled as a list of characters; its columns count bytes. -/
abbrev Chars := List Char

namespace Text

/-- Space, tabulator, vertical tabulator and form feed. A line break is no blank. -/
def isBlank (c : Char) : Bool := c == ' ' || c == '\t' || c == '\x0b' || c == '\x0c'

/-- The decimal digits. -/
def isDigit (c : Char) : Bool := '0' ≤ c && c ≤ '9'

/-- The hexadecimal digits, in both cases. -/
def isHexDigit (c : Char) : Bool := isDigit c || ('a' ≤ c && c ≤ 'f') || ('A' ≤ c && c ≤ 'F')

/-- The ASCII letters. -/
def isLetter (c : Char) : Bool := ('a' ≤ c && c ≤ 'z') || ('A' ≤ c && c ≤ 'Z')

/-- What a name can start with. -/
def isNameStart (c : Char) : Bool := isLetter c || c == '_'

/-- What a name can go on with. -/
def isNameChar (c : Char) : Bool := isNameStart c || isDigit c

/-- The number of bytes a text takes. -/
def byteSize : Chars → Nat
  | [] => 0
  | c :: text => c.utf8Size + byteSize text

@[simp] theorem byteSize_nil : byteSize [] = 0 := rfl

@[simp] theorem byteSize_cons (c : Char) (text : Chars) :
    byteSize (c :: text) = c.utf8Size + byteSize text := rfl

@[simp] theorem byteSize_append (s t : Chars) : byteSize (s ++ t) = byteSize s + byteSize t := by
  induction s with
  | nil => simp
  | cons c s ih => simp [ih, Nat.add_assoc]

end Text

end LuaFront
