import LuaFront.Source
import LuaFront.Token

/-!
# Errors

A `SyntaxError` is a `Cause` at a location. Everything that is shown of an error follows from these
two: its stable code, its message, a subtitle for the place in the source, notes that point at
other places, and notes that stand alone. `SyntaxError.labels` places the parts of an error in the
bytes of a source.
-/

namespace LuaFront

/-- What can be wrong with a program text. Texts of tokens are kept as messages write them. -/
inductive Cause where
  /-- A run of characters that no token starts with. -/
  | illegalToken (text : String)
  /-- A quoted string that stops at the end of a line. -/
  | unfinishedString (quote : Char)
  /-- A long string or comment that nothing closes, with the place of its opening bracket. -/
  | unfinishedBracket (level : Nat) (opener : Location)
  /-- An opening bracket with equals signs but no second bracket. -/
  | invalidBracket
  | unexpectedToken (expected found : String)
  /-- A missing end of what began at the opener. -/
  | unclosed (expected found opener : String) (place : Location)
  | missingName (after found : String)
  | unknownAttribute (name : String)
  | unexpectedSymbol (found : String)
  | invalidTarget
  | malformedNumber (text : String)
  /-- Stands for `next`, the first error beyond the limit. -/
  | tooManyErrors (limit : Nat) (next : Cause)
  | tooManyLevels (limit : Nat)
deriving DecidableEq, Repr, Inhabited

namespace Cause

/-- The stable code of a kind of error. -/
def code : Cause → String
  | illegalToken .. => "E0001"
  | unfinishedString .. => "E0002"
  | unfinishedBracket .. => "E0003"
  | invalidBracket => "E0004"
  | unexpectedToken .. => "E0005"
  | unclosed .. => "E0006"
  | missingName .. => "E0007"
  | unknownAttribute .. => "E0008"
  | unexpectedSymbol .. => "E0009"
  | invalidTarget => "E0010"
  | malformedNumber .. => "E0011"
  | tooManyErrors .. => "E0012"
  | tooManyLevels .. => "E0013"

/-- The closing bracket of a level. -/
def closer (level : Nat) : String := "]" ++ String.ofList (List.replicate level '=') ++ "]"

/-- One line that says what is wrong. -/
def message : Cause → String
  | illegalToken text => "unexpected token: `" ++ text ++ "`"
  | unfinishedString quote => "unfinished string, missing " ++ quote.toString
  | unfinishedBracket level _ => "reached end of file, missing `" ++ closer level ++ "`"
  | invalidBracket => "invalid long string delimiter"
  | unexpectedToken expected found => "expected " ++ expected ++ ", found " ++ found
  | unclosed expected found opener _ =>
    "expected " ++ expected ++ " (to close " ++ opener ++ "), found " ++ found
  | missingName after found => "expected a name after " ++ after ++ ", found " ++ found
  | unknownAttribute name => "unknown attribute `" ++ name ++ "`"
  | unexpectedSymbol found => "unexpected symbol " ++ found
  | invalidTarget => "cannot assign to this expression"
  | malformedNumber text => "malformed number near `" ++ text ++ "`"
  | tooManyErrors limit _ =>
    "too many errors (more than " ++ toString limit ++ "), parsing aborted"
  | tooManyLevels limit =>
    "chunk has too many syntax levels (limit is " ++ toString limit ++ ")"

/-- A remark for the place of the error. -/
def subtitle : Cause → Option String
  | illegalToken _ => some "not a valid Lua token"
  | unfinishedString quote =>
    some ("expected closing " ++ quote.toString ++ " before the end of line")
  | unfinishedBracket level _ => some ("expected `" ++ closer level ++ "` before the end of file")
  | unexpectedToken expected _ => some ("expected " ++ expected ++ " here")
  | unclosed expected _ _ _ => some ("expected " ++ expected ++ " here")
  | missingName .. => some "expected a name here"
  | unknownAttribute _ => some "local attributes are `const` and `close`"
  | unexpectedSymbol _ => some "expected an expression"
  | invalidTarget => some "only names and indexed fields can be assigned to"
  | tooManyLevels _ => some "nesting is too deep here"
  | invalidBracket | malformedNumber _ | tooManyErrors .. => none

/-- Remarks for other places. -/
def boundNotes : Cause → List (Location × String)
  | unfinishedBracket _ opener => [(opener, "long bracket opened here")]
  | unclosed _ _ opener place => [(place, opener ++ " opened here")]
  | _ => []

/-- Remarks for no place. -/
def freeNotes : Cause → List String
  | invalidBracket => ["long brackets look like `[[`, `[=[`, `[==[` and so on"]
  | tooManyErrors _ next => ["next error was: " ++ next.message]
  | _ => []

end Cause

/-- An error in a program text. -/
structure SyntaxError where
  cause : Cause
  location : Location
deriving DecidableEq, Repr, Inhabited

namespace SyntaxError

/-- The marker that takes the place of the first error beyond the limit. -/
def overflow (limit : Nat) (e : SyntaxError) : SyntaxError :=
  ⟨.tooManyErrors limit e.cause, e.location⟩

/-- An error in one line: place, message and code. -/
protected def toString (e : SyntaxError) : String :=
  e.location.toString ++ ": " ++ e.cause.message ++ " [" ++ e.cause.code ++ "]"

/-- A marked range of bytes of a source, with what is said about it. -/
structure Label where
  /-- Whether this is the place of the error itself. -/
  primary : Bool
  start : Nat
  stop : Nat
  message : String
deriving DecidableEq, Repr

/-- What an error marks in a source: its own place first, then the places of its notes. -/
def labels (e : SyntaxError) (s : Source) : List Label :=
  let label (primary : Bool) (l : Location) (message : String) : Label :=
    ⟨primary, s.offsetOf l.start, s.offsetOf l.stop, message⟩
  label true e.location (e.cause.subtitle.getD "") ::
    e.cause.boundNotes.map fun (l, note) => label false l note

end SyntaxError

end LuaFront
