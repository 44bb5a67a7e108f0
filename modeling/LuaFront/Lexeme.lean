import LuaFront.Comment
import LuaFront.ErrorLog
import LuaFront.Piece

/-!
# Lexemes

A `Lexeme` is a token at its place in a source, with the comment blocks in front of it and the error
that reading them brought up. The lexemes of a source follow from the pieces of its text
(`Lexeme.ofPieces`): positions are what the pieces before add up to, and the last lexeme is the end
of input.

`LexemeStream` hands lexemes out one by one, with a look at the next one. Once the end of input is
reached it stays there.
-/

namespace LuaFront

/-- A token with what comes before it and what is wrong with it. -/
structure Lexeme where
  /-- The comment blocks between the token before and this one. -/
  comments : List CommentBlock
  token : Token
  /-- The error in the token, or in the comments in front of it. -/
  fault : Option SyntaxError
deriving DecidableEq, Repr

namespace Flaw

/-- The error that a flaw of a token is, and where it is. -/
def error (flaw : Flaw) (text : String) (place : Location) : SyntaxError :=
  match flaw with
  | .illegal => ⟨.illegalToken text, place⟩
  | .unfinished quote => ⟨.unfinishedString quote, .point place.stop⟩
  | .unclosed level =>
    ⟨.unfinishedBracket level ⟨place.start, place.start.after (Bracket.opening level)⟩,
      .point place.stop⟩
  | .halfOpen => ⟨.invalidBracket, place⟩

end Flaw

/-- Where reading stands between two pieces. -/
structure Margin where
  position : Position := {}
  /-- The line on which the last token ended. -/
  tokenLine : Option Nat := none
  /-- The comments since the last token. -/
  run : CommentRun := {}
  /-- The error in the comments since the last token. -/
  fault : Option SyntaxError := none
deriving DecidableEq, Repr

namespace Margin

/-- A comment that starts here. -/
def line (m : Margin) (text : Chars) (isShort : Bool) : CommentLine :=
  ⟨text, m.position, isShort, m.tokenLine ≠ some m.position.line⟩

/-- Moves over a blank or a line break. -/
def space (m : Margin) (c : Char) : Margin := { m with position := m.position.advance c }

/-- Moves over a comment that runs to the end of its line. -/
def lineComment (m : Margin) (text : Chars) : Margin :=
  { m with
    position := m.position.after (Piece.lineComment text).spelling
    run := m.run.add (m.line text true) m.position.line }

/-- The content of a comment in long brackets without a closing line that repeats the dashes. -/
def trimDashes (text : Chars) : Chars :=
  if ['\n', '-', '-'].isSuffixOf text then text.take (text.length - 3) else text

/-- Moves over a comment in long brackets. If the program goes on behind it on the same line, it is
no documentation, and nothing joins the comments before it to those behind. -/
def blockComment (m : Margin) (level : Nat) (text : Chars) (closed alone : Bool) : Margin :=
  let stop := m.position.after (Piece.blockComment level text closed alone).spelling
  let opener : Location :=
    ⟨m.position, (m.position.after ['-', '-']).after (Bracket.opening level)⟩
  { m with
    position := stop
    run := if alone then m.run.add (m.line (trimDashes text) false) stop.line else m.run.close
    fault := if closed then m.fault else some ⟨.unfinishedBracket level opener, .point stop⟩ }

/-- The place of a token that starts here. -/
def place (m : Margin) (t : Lexical) : Location := ⟨m.position, m.position.after t.spelling⟩

/-- The token that starts here, with the comments before it. -/
def lexeme (m : Margin) (t : Lexical) : Lexeme :=
  let text := String.ofList t.text
  let place := m.place t
  ⟨m.run.close.closed, ⟨t.kind, text, place, t.flaw.isNone⟩, t.flaw.map (·.error text place)⟩

/-- Moves over a token. -/
def token (m : Margin) (t : Lexical) : Margin :=
  let stop := (m.place t).stop
  { position := stop, tokenLine := some stop.line }

/-- The end of input, with the comments before it. -/
def endOfInput (m : Margin) : Lexeme :=
  ⟨m.run.close.closed, ⟨.eof, "", .point m.position, true⟩, m.fault⟩

end Margin

namespace Lexeme

/-- The lexemes that the pieces make up from a margin on, the end of input last. -/
def ofPieces (m : Margin) : List Piece → List Lexeme
  | [] => [m.endOfInput]
  | .space c :: ps => ofPieces (m.space c) ps
  | .lineComment text :: ps => ofPieces (m.lineComment text) ps
  | .blockComment level text closed alone :: ps =>
    ofPieces (m.blockComment level text closed alone) ps
  | .token t :: ps => m.lexeme t :: ofPieces (m.token t) ps

/-- The lexeme once its comments and its error are known. -/
def settled (x : Lexeme) : Lexeme := { x with comments := [], fault := none }

end Lexeme

/-- All lexemes of a source, the end of input last. -/
def Source.lexemes (s : Source) : List Lexeme := Lexeme.ofPieces {} (Piece.ofText s.text)

/-- Lexemes to be handed out one by one. -/
structure LexemeStream where
  /-- What is still to come. -/
  upcoming : List Lexeme
  /-- What comes when nothing else is left. -/
  final : Lexeme
deriving DecidableEq, Repr

namespace LexemeStream

/-- The end of input at the end of a source. -/
def endOfInput (s : Source) : Lexeme := ⟨[], ⟨.eof, "", s.endLocation, true⟩, none⟩

/-- All lexemes of a source, and then its end for ever. -/
def ofSource (s : Source) : LexemeStream := ⟨s.lexemes, endOfInput s⟩

/-- The next lexeme, and the stream behind it. -/
def next (s : LexemeStream) : Lexeme × LexemeStream :=
  match s.upcoming with
  | [] => (s.final, s)
  | x :: xs => (x, { s with upcoming := xs })

/-- The next lexeme, and the stream in which it is settled but still to come. -/
def peek (s : LexemeStream) : Lexeme × LexemeStream :=
  match s.upcoming with
  | [] => (s.final, s)
  | x :: xs => (x, { s with upcoming := x.settled :: xs })

end LexemeStream

/-- Reads lexemes, and keeps the comments and errors that they bring. -/
structure LexemeReader where
  stream : LexemeStream
  comments : CommentMap := {}
  log : ErrorLog

namespace LexemeReader

/-- A reader at the start of a source that keeps at most `limit` errors. -/
def ofSource (s : Source) (limit : Nat) : LexemeReader := ⟨.ofSource s, {}, ⟨limit, [], false⟩⟩

/-- Keeps what a lexeme brings, and goes on with the given stream. -/
def keep (r : LexemeReader) (x : Lexeme × LexemeStream) : Token × LexemeReader :=
  (x.1.token, ⟨x.2, r.comments.insertAll x.1.comments, r.log.report? x.1.fault⟩)

/-- Takes the next token. -/
def next (r : LexemeReader) : Token × LexemeReader := r.keep r.stream.next

/-- Looks at the next token. -/
def peek (r : LexemeReader) : Token × LexemeReader := r.keep r.stream.peek

/-- Takes tokens up to the end of input; `n` bounds their number. -/
def drain : Nat → LexemeReader → List Token × LexemeReader
  | 0, r => ([], r)
  | n + 1, r =>
    let (t, r) := r.next
    if t.kind = .eof then ([t], r)
    else
      let (ts, r) := drain n r
      (t :: ts, r)

/-- Takes all tokens, the end of input included. -/
def all (r : LexemeReader) : List Token × LexemeReader := r.drain (r.stream.upcoming.length + 1)

end LexemeReader

end LuaFront
