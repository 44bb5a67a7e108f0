import LuaFront.Lexeme
import LuaFront.Tree

/-!
# Reading a program

A `Parse` goes over the tokens of a source and reports errors as it comes upon them. It goes on
after every error, with two exceptions: it stops when there are more errors than are wanted, and at
a program that nests too deeply. Errors of tokens come up when the tokens are fetched, so whether
any more are wanted is checked after each report and after each fetch.

What nests is a block in a statement or function, and a subexpression. Both are read through
`Nested`, the pair of readers for one level further down.
-/

namespace LuaFront

namespace Parse

/-- What reading has come to. -/
structure State where
  /-- The token that is looked at. -/
  current : Token
  /-- The location of the token that was taken last. -/
  previous : Location := {}
  /-- What follows the current token, and the comments and errors so far. -/
  lexer : LexemeReader
  /-- How many errors are not errors of single tokens. -/
  reports : Nat := 0
  /-- The location of the latest of these. -/
  reported : Location := {}

namespace State

/-- In front of the first token of a source, of which at most `limit` errors are wanted. -/
def ofSource (source : Source) (limit : Nat) : State :=
  let (t, lexer) := (LexemeReader.ofSource source limit).next
  { current := t, lexer := lexer }

/-- The tokens behind the current one. -/
def stream (s : State) : LexemeStream := s.lexer.stream

/-- The errors so far. -/
def log (s : State) : ErrorLog := s.lexer.log

end State

/-- The signal that reading stops. The last error tells the reason. -/
inductive Stop where
  | stop

end Parse

/-- A reader that answers a value, or stops. -/
abbrev Parse := EStateM Parse.Stop Parse.State

namespace Parse

/-! ## Errors -/

/-- Goes on only if more errors are wanted. -/
def check : Parse Unit := do
  if (← get).log.exhausted then throw .stop

/-- Reports an error in the order of tokens. -/
def report (cause : Cause) (place : Location) : Parse Unit := do
  modify fun s =>
    { s with
      lexer := { s.lexer with log := s.lexer.log.report ⟨cause, place⟩ }
      reports := s.reports + 1
      reported := place }
  check

/-- How deep blocks and subexpressions can nest. -/
def maxLevels : Nat := 200

/-- Stops at a current token that is too deep. -/
def tooDeep {α : Type} : Parse α := do
  modify fun s =>
    { s with
      lexer := { s.lexer with
        log := s.lexer.log.abort ⟨.tooManyLevels maxLevels, s.current.location⟩ } }
  throw .stop

/-! ## Tokens -/

/-- The current token. -/
def current : Parse Token := return (← get).current

/-- Whether the current token is of the given kind. -/
def at? (k : Kind) : Parse Bool := return (← current).kind = k

/-- How messages call the current token. -/
def found : Parse String := return (← current).describe

/-- The number of errors that are not errors of single tokens. -/
def reports : Parse Nat := return (← get).reports

/-- The location of the latest of these errors. -/
def reported : Parse Location := return (← get).reported

/-- The location of the token that was taken last. -/
def previous : Parse Location := return (← get).previous

/-- The lexemes behind the current token, with one more for what is behind the end of input. -/
def behind : Parse (List Lexeme) := return (← get).stream.final :: (← get).stream.upcoming

/-- Takes the current token. -/
def advance : Parse Token := do
  let t ← current
  let next ← modifyGet fun s =>
    let (next, lexer) := s.lexer.next
    (next, { s with lexer := lexer })
  check
  modify fun s => { s with current := next, previous := t.location }
  pure t

/-- The kind of the token behind the current one. -/
def peek : Parse Kind := do
  let next ← modifyGet fun s =>
    let (next, lexer) := s.lexer.peek
    (next, { s with lexer := lexer })
  check
  pure next.kind

/-- Takes the current token if it is of the given kind. -/
def accept (k : Kind) : Parse (Option Token) := do
  if ← at? k then some <$> advance else pure none

/-- Takes a token that should be of the given kind, and reports it if it is not. -/
def expect (k : Kind) : Parse Token := do
  unless ← at? k do
    report (.unexpectedToken k.toString (← found)) (← current).location
  advance

/-- Takes the token that should end what began with `opener`, and reports it if it does not. -/
def expectEnd (k opener : Kind) (place : Location) : Parse Token := do
  unless ← at? k do
    report (.unclosed k.toString (← found) opener.toString place) (← current).location
  advance

/-- Takes a name. If there is none, it reports the current token, leaves it where it is, and answers
a missing name in its place. -/
def expectName (after : Kind) : Parse Ident := do
  if ← at? .ident then
    let t ← advance
    pure ⟨t.text, t.location, t.valid, none⟩
  else
    let place := (← current).location
    report (.missingName after.toString (← found)) place
    pure ⟨"", place, false, none⟩

/-! ## Repetition -/

/-- What one round of a loop comes to. -/
inductive Round (α : Type) where
  | again (a : α)
  | done (a : α)

/-- At most one round for each of the given lexemes. -/
def rounds {α : Type} (body : α → Parse (Round α)) : List Lexeme → α → Parse α
  | [], a => pure a
  | _ :: xs, a => do
    match ← body a with
    | .again a => rounds body xs a
    | .done a => pure a

/-- Repeats a body until it is done. Every round that asks for another one takes a token in front of
the end of input, so the lexemes still to come bound the rounds. The end of input stands for the one
round that takes nothing. -/
def loop {α : Type} (body : α → Parse (Round α)) (a : α) : Parse α := do
  rounds body (← behind) a

/-- One more item, if the separator is in front of it. -/
def furtherRound {α : Type} (separator : Kind) (item : Parse α) (xs : List α) :
    Parse (Round (List α)) := do
  if (← accept separator).isSome then
    let x ← item
    pure (.again (xs ++ [x]))
  else pure (.done xs)

/-- Further items with a separator in front of each, behind those that are read already. -/
def further {α : Type} (separator : Kind) (item : Parse α) : List α → Parse (List α) :=
  loop (furtherRound separator item)

/-- One item, and further ones behind commas. -/
def commaList {α : Type} (item : Parse α) : Parse (List α) := do
  let first ← item
  further .comma item [first]

/-! ## Nesting -/

/-- The readers for one level further down: expressions whose operators bind more tightly than a
limit, and blocks. -/
structure Nested where
  exp : Nat → Parse Exp
  block : Parse Block

namespace Nested

/-- Below the last level nothing can be read. -/
def bottom : Nested := ⟨fun _ => tooDeep, tooDeep⟩

/-- A full expression. -/
def fullExp (deeper : Nested) : Parse Exp := deeper.exp 0

/-- Expressions between commas. -/
def expList (deeper : Nested) : Parse (List Exp) := commaList deeper.fullExp

end Nested

end Parse

end LuaFront
