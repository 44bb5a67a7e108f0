import LuaFront.Parse.Statement

/-!
# Programs

A `Program` is what reading a source comes to: a tree, the comments, and the errors. A source with
errors has a tree all the same, as long as they are no more than a limit and nothing nests too
deeply. Without a tree there are no comments either, and the last error says why.
-/

namespace LuaFront

/-- How many errors are kept if nothing else is asked for. -/
def defaultLimit : Nat := 30

/-- What reading a source comes to. -/
structure Program where
  tree : Option Block
  comments : CommentMap
  errors : List SyntaxError

namespace Program

/-- Whether the source has a tree and no errors. -/
def isOk (p : Program) : Bool := p.tree.isSome && p.errors.isEmpty

end Program

namespace Source

/-- Reads the statements of a source, of which at most `limit` errors are wanted. -/
def parse (s : Source) (limit : Nat) : EStateM.Result Parse.Stop Parse.State Block :=
  (Parse.chunk (Parse.nested Parse.maxLevels)).run (.ofSource s limit)

/-- Reads a source, and keeps at most `limit` errors. -/
def program (s : Source) (limit : Nat := defaultLimit) : Program :=
  match s.parse limit with
  | .ok tree st => ⟨some tree, st.lexer.comments, st.log.entries⟩
  | .error _ st => ⟨none, {}, st.log.entries⟩

/-- A source has a tree only if it is read to its end. -/
theorem exists_parse_of_tree {s : Source} {limit : Nat} {tree : Block}
    (h : (s.program limit).tree = some tree) :
    ∃ st, s.parse limit = .ok tree st ∧
      s.program limit = ⟨some tree, st.lexer.comments, st.log.entries⟩ := by
  unfold program at h ⊢
  cases run : s.parse limit with
  | ok b st =>
    rw [run] at h
    obtain rfl := Option.some.inj h
    exact ⟨st, rfl, rfl⟩
  | error e st =>
    rw [run] at h
    exact nomatch h

end Source

end LuaFront
