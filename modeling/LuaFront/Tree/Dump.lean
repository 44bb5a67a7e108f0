import LuaFront.Decimal.Style
import LuaFront.Sexp
import LuaFront.Text.Quote
import LuaFront.Tree

/-!
# Tree dumps

Trees are shown as s-expressions: a node is a list that starts with a word for what it is, names and
literals are atoms, and strings are quoted.
-/

namespace LuaFront

namespace Ident

/-- A name with its attribute behind it. -/
def toSexp (n : Ident) : Sexp :=
  .atom (n.text.toList ++
    (n.attrib.elim [] fun a => '<' :: (a.spelling.toList ++ ['>'])))

/-- A name without its attribute. -/
def bare (n : Ident) : Sexp := .atom n.text.toList

end Ident

/-- Three dots at the end of a parameter list. -/
def dots : Sexp := .atom "...".toList

mutual

/-- The dump of an expression. -/
def Exp.toSexp : Exp → Sexp
  | .nil _ => .atom "nil".toList
  | .boolean value _ => .atom (if value then "true" else "false").toList
  | .vararg _ => dots
  | .integer value _ => .int value
  | .float value _ => .atom (Decimal.Style.literal.render value)
  | .string value _ => .atom (Text.quote value.toList)
  | .unary op operand _ => .tagged op.spelling [operand.toSexp]
  | .binary op lhs rhs _ => .tagged op.spelling [lhs.toSexp, rhs.toSexp]
  | .table fields _ => .tagged "table" (Field.toSexps fields)
  | .function params isVararg isMethod body _ =>
    .tagged (if isMethod then "method" else "function")
      [.list (params.map Ident.bare ++ if isVararg then [dots] else []), body.toSexp]
  | .name text _ => .atom text.toList
  | .parens inner _ => .tagged "parens" [inner.toSexp]
  | .index object key _ => .tagged "index" [object.toSexp, key.toSexp]
  | .call callee method args _ =>
    .tagged (if method.isSome then "method-call" else "call")
      (callee.toSexp :: (Exp.toSexp? method ++ Exp.toSexps args))
  | .bad _ => .atom "<bad>".toList

/-- The dumps of expressions. -/
def Exp.toSexps : List Exp → List Sexp
  | [] => []
  | e :: es => e.toSexp :: Exp.toSexps es

/-- The dump of an expression that may be missing. -/
def Exp.toSexp? : Option Exp → List Sexp
  | none => []
  | some e => [e.toSexp]

/-- The dumps of fields. -/
def Field.toSexps : List Field → List Sexp
  | [] => []
  | .item value :: fields => value.toSexp :: Field.toSexps fields
  | .keyed key value :: fields => .tagged "=" [key.toSexp, value.toSexp] :: Field.toSexps fields

/-- The dump of a block. -/
def Block.toSexp : Block → Sexp
  | .mk stats _ => .tagged "block" (Stat.toSexps stats)

/-- The dump of what follows all conditions. -/
def Block.toElse : Option Block → List Sexp
  | none => []
  | some b => [.tagged "else" [b.toSexp]]

/-- The dump of a statement. -/
def Stat.toSexp : Stat → Sexp
  | .breakOut _ => .atom "break".toList
  | .label name _ => .tagged "label" [name.bare]
  | .goto name _ => .tagged "goto" [name.bare]
  | .scope body _ => .tagged "do" [body.toSexp]
  | .whileLoop condition body _ => .tagged "while" [condition.toSexp, body.toSexp]
  | .repeatLoop body condition _ => .tagged "repeat" [body.toSexp, condition.toSexp]
  | .branch clauses otherwise _ =>
    .tagged "if" (Clause.toSexps clauses ++ Block.toElse otherwise)
  | .numericFor var start limit step body _ =>
    .tagged "for"
      (var.bare :: start.toSexp :: limit.toSexp :: (Exp.toSexp? step ++ [body.toSexp]))
  | .genericFor names exps body _ =>
    .tagged "for-in" [.list (names.map Ident.toSexp), .list (Exp.toSexps exps), body.toSexp]
  | .assign targets values _ =>
    .tagged "assign" [.list (Exp.toSexps targets), .list (Exp.toSexps values)]
  | .locals names values _ =>
    .tagged "local" [.list (names.map Ident.toSexp), .list (Exp.toSexps values)]
  | .localFunction name function _ => .tagged "local-function" [name.bare, function.toSexp]
  | .call call _ => call.toSexp
  | .ret values _ => .tagged "return" (Exp.toSexps values)

/-- The dumps of statements. -/
def Stat.toSexps : List Stat → List Sexp
  | [] => []
  | s :: ss => s.toSexp :: Stat.toSexps ss

/-- The dumps of conditions with the blocks they guard. -/
def Clause.toSexps : List Clause → List Sexp
  | [] => []
  | .mk condition body :: clauses =>
    .tagged "clause" [condition.toSexp, body.toSexp] :: Clause.toSexps clauses

end

end LuaFront
