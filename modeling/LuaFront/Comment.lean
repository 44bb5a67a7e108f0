import LuaFront.Position
import LuaFront.Text.Class

/-!
# Comments

Comments of adjoining lines form a block, and a block is found by the line on which it ends, so the
documentation of a statement that starts on line `n` is the block that ends on line `n - 1`.

A `CommentRun` gathers the comments between two tokens into blocks. A comment joins the block before
it if it starts on the line below the end of that block. A comment behind a token on its line stands
alone.
-/

namespace LuaFront

/-- One comment. -/
structure CommentLine where
  /-- What follows the dashes to the end of the line, or what the long brackets hold. -/
  text : Chars
  /-- Where the dashes stand. -/
  start : Position
  /-- Whether the comment runs to the end of its line. -/
  isShort : Bool
  /-- Whether no token stands in front of the comment on its line. -/
  isHead : Bool
deriving DecidableEq, Repr

namespace CommentLine

/-- The text behind `---@`, if the comment is a tag line. -/
def tagText? (c : CommentLine) : Option Chars :=
  match c.isShort, c.text with
  | true, '-' :: '@' :: text => some text
  | _, _ => none

end CommentLine

/-- Comments of adjoining lines. -/
structure CommentBlock where
  lines : List CommentLine
  /-- The line on which the last comment ends. -/
  lastLine : Nat
deriving DecidableEq, Repr

namespace CommentBlock

/-- The line on which the first comment starts. -/
def firstLine (b : CommentBlock) : Nat := (b.lines.head?.map (·.start.line)).getD 0

/-- Whether the block stands on lines of its own. -/
def isHead (b : CommentBlock) : Bool := b.lines.head?.any (·.isHead)

/-- The texts of all comments, with a line break between each two of them. -/
def text (b : CommentBlock) : Chars := ['\n'].intercalate (b.lines.map (·.text))

/-- The comments that are tag lines. -/
def tagLines (b : CommentBlock) : List CommentLine := b.lines.filter (·.tagText?.isSome)

end CommentBlock

/-- Comment blocks in the order of the lines on which they end, one for each line at most. -/
structure CommentMap where
  blocks : List CommentBlock := []
deriving DecidableEq, Repr

namespace CommentMap

/-- Puts a block at its place in the order, instead of a block that ends on the same line. -/
def insertInto (b : CommentBlock) : List CommentBlock → List CommentBlock
  | [] => [b]
  | a :: bs =>
    if a.lastLine < b.lastLine then a :: insertInto b bs
    else if a.lastLine = b.lastLine then b :: bs
    else b :: a :: bs

/-- The map with a further block. -/
def insert (m : CommentMap) (b : CommentBlock) : CommentMap := ⟨insertInto b m.blocks⟩

/-- The map with further blocks. -/
def insertAll (m : CommentMap) (bs : List CommentBlock) : CommentMap := bs.foldl insert m

/-- The number of blocks. -/
def size (m : CommentMap) : Nat := m.blocks.length

/-- The block that ends on the given line. -/
def get? (m : CommentMap) (line : Nat) : Option CommentBlock :=
  m.blocks.find? (·.lastLine = line)

/-- The block that stands on the lines right above the given line. -/
def before? (m : CommentMap) : Nat → Option CommentBlock
  | 0 => none
  | line + 1 => (m.get? line).filter (·.isHead)

end CommentMap

/-- Comments between two tokens. -/
structure CommentRun where
  /-- The blocks that are complete. -/
  closed : List CommentBlock := []
  /-- The block that the next comment may join. -/
  current : Option CommentBlock := none
deriving DecidableEq, Repr

namespace CommentRun

/-- Completes the current block. -/
def close (r : CommentRun) : CommentRun := ⟨r.closed ++ r.current.toList, none⟩

/-- Completes the current block unless it ends right above the given line. -/
def closeUnlessAbove (r : CommentRun) (line : Nat) : CommentRun :=
  if r.current.all (·.lastLine + 1 = line) then r else r.close

/-- Adds a comment that ends on the given line. -/
def add (r : CommentRun) (c : CommentLine) (lastLine : Nat) : CommentRun :=
  let r := r.closeUnlessAbove c.start.line
  let joined : CommentRun :=
    { r with current := some ⟨(r.current.map (·.lines)).getD [] ++ [c], lastLine⟩ }
  if c.isHead then joined else joined.close

end CommentRun

end LuaFront
