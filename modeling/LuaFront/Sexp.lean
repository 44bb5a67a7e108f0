import LuaFront.Text.Lines

/-!
# S-expressions

An `Sexp` is an atom or a list of s-expressions. `Sexp.pretty?` writes one within a line width: a
list that is too long, or that has an element of several lines, gets a line for each element, and
the lines behind the first are moved in by one column. `Sexp.flat?` writes it on one line.

The layout of a broken list starts with its first line, whose leading blank makes room for the
opening parenthesis. If all lines are empty there is no such blank, and the list has no layout.
-/

namespace LuaFront

/-- A tree of atoms. -/
inductive Sexp where
  | int (value : Int64)
  | atom (text : Chars)
  | list (elements : List Sexp)
deriving Repr, Inhabited

namespace Sexp

mutual

/-- Whether two s-expressions are the same. -/
def decEq : (a b : Sexp) → Decidable (a = b)
  | .int v, .int w => decidable_of_iff' (v = w) (.of_eq (int.injEq v w))
  | .atom v, .atom w => decidable_of_iff' (v = w) (.of_eq (atom.injEq v w))
  | .list es, .list fs =>
    have := decEqAll es fs
    decidable_of_iff' (es = fs) (.of_eq (list.injEq es fs))
  | .int _, .atom _ | .int _, .list _ | .atom _, .int _ | .atom _, .list _ | .list _, .int _
  | .list _, .atom _ => .isFalse nofun

/-- Whether two lists of s-expressions are the same. -/
def decEqAll : (es fs : List Sexp) → Decidable (es = fs)
  | [], [] => .isTrue rfl
  | [], _ :: _ | _ :: _, [] => .isFalse nofun
  | e :: es, f :: fs =>
    have := decEq e f
    have := decEqAll es fs
    decidable_of_iff' (e = f ∧ es = fs) List.cons_eq_cons

end

instance : DecidableEq Sexp := decEq

/-- A list that starts with an atom. -/
def tagged (tag : String) (elements : List Sexp) : Sexp := .list (.atom tag.toList :: elements)

/-- The greatest line width. -/
def maxWidth : Nat := UInt64.size - 1

/-- The lines of a text moved in by one column; empty lines stay empty. -/
def indent (text : Chars) : Chars :=
  Text.joinLines <| (Text.lines text).map fun line => if line = [] then [] else ' ' :: line

/-- The length of a list on one line. -/
def flatLength (elements : List Chars) : Nat :=
  min maxWidth (elements.length + 1 + Text.byteSize elements.flatten)

/-- Whether a list with the given elements gets a line for each of them. -/
def breaks (width : Nat) (elements : List Chars) : Bool :=
  elements ≠ [] && (elements.any (·.contains '\n') || width < flatLength elements)

/-- A list on one line. -/
def onOneLine (elements : List Chars) : Chars := '(' :: ([' '].intercalate elements ++ [')'])

/-- A list with a line for each element, whose first blank gives way to the parenthesis. -/
def onManyLines? (elements : List Chars) : Option Chars :=
  match Text.joinLines (elements.map indent) with
  | [] => none
  | _ :: text => some ('(' :: (text ++ [')']))

/-- A list of elements that are written already. -/
def layout? (width : Nat) (elements : List Chars) : Option Chars :=
  if breaks width elements then onManyLines? elements else some (onOneLine elements)

mutual
/-- An s-expression within a line width, if it has a layout there. -/
def pretty? (width : Nat) : Sexp → Option Chars
  | .int value => some (toString value.toInt).toList
  | .atom text => some text
  | .list elements => (prettyAll? (max width 2 - 2) elements).bind (layout? width)

/-- S-expressions within a line width, if all of them have a layout there. -/
def prettyAll? (width : Nat) : List Sexp → Option (List Chars)
  | [] => some []
  | e :: es => (pretty? width e).bind fun text => (prettyAll? width es).map (text :: ·)
end

/-- An s-expression on one line. -/
def flat? (e : Sexp) : Option Chars := e.pretty? maxWidth

example : (tagged "block" [tagged "break" []]).pretty? 8 = some "(block\n (break))".toList := by
  decide +kernel

end Sexp

end LuaFront
