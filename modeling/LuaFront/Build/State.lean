import LuaFront.Parse.State
import LuaFront.Tree.Arena

/-!
# Reading into an arena

A `Build` reads like a `Parse`, and puts the nodes into an arena as soon as they are complete. It
answers their ids. What only looks at tokens or reports errors is taken over from `Parse`.

Beside the arena stands a record of the tokens at which blocks have ended. No reader looks at it,
and it is no part of the chunk.
-/

namespace LuaFront

/-- What has been built. -/
structure Built where
  arena : Arena := {}
  /-- The token that was current when a block ended, for each block in the order of ids. -/
  ends : Array Token := #[]

/-- A reader that puts nodes into an arena, and answers a value or stops. -/
abbrev Build := StateT Built Parse

namespace Build

open Parse (Round)

/-! ## Nodes -/

/-- Adds a block that ended in front of the token `t`. -/
def addBlock (x : BlockCell StatId) (t : Token) : Build BlockId := do
  let b ← get
  let (i, arena) := b.arena.addBlock x
  set ({ arena := arena, ends := b.ends.push t } : Built)
  pure i

/-- Adds a statement. -/
def addStat (x : StatCell ExpId BlockId) : Build StatId := do
  let b ← get
  let (i, arena) := b.arena.addStat x
  set { b with arena := arena }
  pure i

/-- Adds an expression. -/
def addExp (x : ExpCell ExpId BlockId) : Build ExpId := do
  let b ← get
  let (i, arena) := b.arena.addExp x
  set { b with arena := arena }
  pure i

/-- An expression that has been built. -/
def exp (i : ExpId) : Build (ExpCell ExpId BlockId) := return (← get).arena.exp i

/-- The location of an expression that has been built. -/
def expPlace (i : ExpId) : Build Location := return (← exp i).place

/-- The location of a statement that has been built. -/
def statPlace (i : StatId) : Build Location := return ((← get).arena.stat i).place

/-! ## Repetition -/

/-- At most one round for each of the given lexemes. -/
def rounds {α : Type} (body : α → Build (Round α)) : List Lexeme → α → Build α
  | [], a => pure a
  | _ :: xs, a => do
    match ← body a with
    | .again a => rounds body xs a
    | .done a => pure a

/-- Repeats a body until it is done, bounded by the lexemes still to come. -/
def loop {α : Type} (body : α → Build (Round α)) (a : α) : Build α := do
  rounds body (← Parse.behind) a

/-- One more item, if the separator is in front of it. -/
def furtherRound {α : Type} (separator : Kind) (item : Build α) (xs : List α) :
    Build (Round (List α)) := do
  if (← Parse.accept separator).isSome then
    let x ← item
    pure (.again (xs ++ [x]))
  else pure (.done xs)

/-- Further items with a separator in front of each, behind those that are read already. -/
def further {α : Type} (separator : Kind) (item : Build α) : List α → Build (List α) :=
  loop (furtherRound separator item)

/-- One item, and further ones behind commas. -/
def commaList {α : Type} (item : Build α) : Build (List α) := do
  let first ← item
  further .comma item [first]

/-! ## Nesting -/

/-- The readers for one level further down. -/
structure Nested where
  exp : Nat → Build ExpId
  block : Build BlockId

namespace Nested

/-- Below the last level nothing can be read. -/
def bottom : Nested := ⟨fun _ => Parse.tooDeep, Parse.tooDeep⟩

/-- A full expression. -/
def fullExp (deeper : Nested) : Build ExpId := deeper.exp 0

/-- Expressions between commas. -/
def expList (deeper : Nested) : Build (List ExpId) := commaList deeper.fullExp

end Nested

end Build

end LuaFront
