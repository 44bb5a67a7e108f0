import LuaFront.Build.Statement
import LuaFront.Program

/-!
# Programs in an arena

What reading a source comes to, with the tree in an arena.
-/

namespace LuaFront.Source

/-- Reads the statements of a source into an empty arena, of which at most `limit` errors are
wanted. -/
def build (s : Source) (limit : Nat) : EStateM.Result Parse.Stop Parse.State (BlockId × Built) :=
  ((Build.chunk (Build.nested Parse.maxLevels)).run {}).run (.ofSource s limit)

/-- The root of a source and what has been built below it, if the source is read to its end. -/
def built? (s : Source) (limit : Nat := defaultLimit) : Option (BlockId × Built) :=
  match s.build limit with
  | .ok built _ => some built
  | .error _ _ => none

/-- The arena of a source with its root, if the source is read to its end. -/
def chunk (s : Source) (limit : Nat := defaultLimit) : Option Chunk := do
  let (root, b) ← s.built? limit
  pure { b.arena with root := root }

end LuaFront.Source
