import LuaFront.Doc.Token
import LuaFront.Program
import LuaFront.Tree.Dump

/-!
# Reports

A `Tool` shows one side of a program: its errors alone, its tree, or its comments with the tokens of
their tags. A `Report` is what a tool comes to on a file, and its `verdict` whether the file could
be read and is free of errors.
-/

namespace LuaFront

/-- The tools. -/
inductive Tool where
  | check | tree | comments
deriving DecidableEq, Repr

/-- How a file was found to be. -/
inductive Verdict where
  | ok | syntaxError | unreadable
deriving DecidableEq, Repr

/-- What a tool comes to on a file. -/
structure Report where
  verdict : Verdict
  output : Chars := []
  errors : List SyntaxError := []

/-- A text on a line of its own. -/
def ownLine (text : Chars) : Chars := text ++ ['\n']

namespace Doc.Token

/-- A token with its location in brackets. -/
def located (t : Token) : Chars := t.text.toList ++ '[' :: (t.location.toString.toList ++ [']'])

end Doc.Token

namespace CommentLine

/-- A comment as it is listed: with its tokens if it is a tag line, with its text otherwise. -/
def listing (c : CommentLine) : Chars :=
  match c.tagTokens? with
  | some tokens => "  @ ".toList ++ [' '].intercalate (tokens.map Doc.Token.located)
  | none => "  ".toList ++ c.text

end CommentLine

namespace CommentBlock

/-- The lines on which a block stands, counted from one, and its comments below. -/
def listing (b : CommentBlock) : Chars :=
  let range := toString (b.firstLine + 1) ++ "-" ++ toString (b.lastLine + 1)
  ownLine ("lines " ++ range ++ ":").toList ++ b.lines.flatMap fun c => ownLine c.listing

end CommentBlock

namespace Tool

/-- The width that trees are written for. -/
def treeWidth : Nat := 100

/-- What a tool shows of a program, if it can be laid out. -/
def output? (t : Tool) (p : Program) : Option Chars :=
  match t with
  | .check => some []
  | .tree => match p.tree with
    | some block => (block.toSexp.pretty? treeWidth).map ownLine
    | none => some []
  | .comments => some (p.comments.blocks.flatMap CommentBlock.listing)

/-- The report on a file with the given content, if it could be read. -/
def report? (t : Tool) (limit : Nat) (name : String) (content : Option (List UInt8)) :
    Option Report :=
  match content with
  | none => some { verdict := .unreadable }
  | some bytes =>
    let p := (Source.ofBytes name bytes).program limit
    (t.output? p).map fun output =>
      ⟨if p.errors.isEmpty then .ok else .syntaxError, output, p.errors⟩

end Tool

namespace Report

/-- The errors, each on a line. -/
def errorLines (r : Report) : Chars := r.errors.flatMap fun e => ownLine e.toString.toList

end Report

end LuaFront
