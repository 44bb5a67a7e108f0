import LuaFront.Position
import LuaFront.Text.Class
import LuaFront.Text.Utf8
import LuaFront.Text.Lines
import LuaFront.Source
import LuaFront.Token
import LuaFront.SyntaxError
import LuaFront.ErrorLog
import LuaFront.Text.Cut
import LuaFront.Piece.Quoted
import LuaFront.Piece.Bracket
import LuaFront.Numeral
import LuaFront.Piece
import LuaFront.Comment
import LuaFront.Lexeme
import LuaFront.Decimal.Shortest
import LuaFront.Decimal.Style
import LuaFront.Text.Word
import LuaFront.Text.Quote
import LuaFront.Sexp
import LuaFront.Tree
import LuaFront.Tree.Node
import LuaFront.Tree.Dump
import LuaFront.Parse.State
import LuaFront.Parse.Expression
import LuaFront.Parse.Statement
import LuaFront.Program
import LuaFront.Tree.Arena
import LuaFront.Build.State
import LuaFront.Build.Expression
import LuaFront.Build.Statement
import LuaFront.Build.Program
import LuaFront.Text.Pattern
import LuaFront.Doc.Token
import LuaFront.Doc.Ty
import LuaFront.Doc.Tag
import LuaFront.Report
import LuaFront.CommandLine
import LuaFront.Main
import LuaFront.Proofs.Step
import LuaFront.Proofs.Composed
import LuaFront.Proofs.Lexemes
import LuaFront.Proofs.Loops
import LuaFront.Proofs.Limit
import LuaFront.Proofs.Nodes
import LuaFront.Proofs.Order
import LuaFront.Proofs.Spans
import LuaFront.Proofs.Placed
import LuaFront.Proofs.Containment
import LuaFront.Proofs.Cells
import LuaFront.Proofs.Ownership
import LuaFront.Proofs.Tracking
import LuaFront.Proofs.Walks
import LuaFront.Proofs.Located
import LuaFront.Proofs.Entries
import LuaFront.Proofs.Shapes
import LuaFront.Proofs.Grammar
import LuaFront.Proofs.Strict
import LuaFront.Proofs.Spent
import LuaFront.Proofs.Phrases
import LuaFront.Proofs.Soundness
import LuaFront.Proofs.Completeness
import LuaFront.Proofs.Acceptance
import LuaFront.Proofs.Layout
import LuaFront.Proofs.Offsets
import LuaFront.Proofs.Trivia
import LuaFront.Proofs.Tiling
import LuaFront.Proofs.Marks
import LuaFront.Proofs.Harvest
import LuaFront.Proofs.Encoding
import LuaFront.Proofs.Boundary
import LuaFront.Proofs.Numerals
import LuaFront.Proofs.NumeralCut
import LuaFront.Proofs.Spellings
import LuaFront.Proofs.Faults
import LuaFront.Proofs.Reports
import LuaFront.Proofs.Diagnostics
import LuaFront.Proofs.Frames
import LuaFront.Proofs.Extents
import LuaFront.Proofs.Wording
import LuaFront.Proofs.Fetching
import LuaFront.Proofs.Holes
import LuaFront.Proofs.Forms
import LuaFront.Proofs.Recovery
import LuaFront.Proofs.Moved
import LuaFront.Proofs.Breaks
import LuaFront.Proofs.Joined
import LuaFront.Proofs.Lined
import LuaFront.Proofs.Siblings
import LuaFront.Proofs.Bends
import LuaFront.Proofs.Routines
import LuaFront.Proofs.Machine
import LuaFront.Proofs.Brackets
import LuaFront.Proofs.Flaws
import LuaFront.Proofs.Regular
import LuaFront.Proofs.Tags
import LuaFront.Proofs.Separable
import LuaFront.Proofs.Precedence
import LuaFront.Proofs.Wrapping
import LuaFront.Proofs.NumberTokens
import LuaFront.Proofs.Quotes
import LuaFront.Proofs.Coordinates
import LuaFront.Proofs.Quoting
import LuaFront.Proofs.TypeReading
import LuaFront.Proofs.TypeTexts
import LuaFront.Proofs.Rounding
import LuaFront.Proofs.Decimals
import LuaFront.Proofs.Dumps
import LuaFront.Proofs.Faithful
