import LuaFront.Token

/-!
# Syntax trees

The tree of a program is a `Block` of statements. Statements hold expressions and blocks, and
function expressions hold blocks again. Every node knows its location.

A function declaration is an assignment of a function to the field that it names. A field that is
named by a word has a string for its key. Parentheses are kept only where they change a meaning.
-/

namespace LuaFront

/-- A name that a statement or function declares or refers to. A missing name is empty and not
valid. -/
structure Ident where
  text : String
  location : Location
  valid : Bool := true
  attrib : Option Attribute := none
deriving DecidableEq, Repr, Inhabited

/-- Operators in front of their operand. -/
inductive UnaryOp where
  | not | length | negate | bitNot
deriving DecidableEq, Repr

namespace UnaryOp

def spelling : UnaryOp → String
  | not => "not"
  | length => "#"
  | negate => "-"
  | bitNot => "~"

/-- The operator that a token stands for in front of an operand. -/
def ofKind? : Kind → Option UnaryOp
  | .kwNot => some not
  | .hash => some length
  | .minus => some negate
  | .tilde => some bitNot
  | _ => none

/-- How tightly unary operators bind. -/
def priority : Nat := 12

end UnaryOp

/-- Operators between two operands. -/
inductive BinaryOp where
  | or | and
  | less | greater | lessEqual | greaterEqual | notEqual | equal
  | bitOr | bitXor | bitAnd | shiftLeft | shiftRight
  | concat | add | sub | mul | div | floorDiv | mod | pow
deriving DecidableEq, Repr

namespace BinaryOp

def spelling : BinaryOp → String
  | or => "or"
  | and => "and"
  | less => "<"
  | greater => ">"
  | lessEqual => "<="
  | greaterEqual => ">="
  | notEqual => "~="
  | equal => "=="
  | bitOr => "|"
  | bitXor => "~"
  | bitAnd => "&"
  | shiftLeft => "<<"
  | shiftRight => ">>"
  | concat => ".."
  | add => "+"
  | sub => "-"
  | mul => "*"
  | div => "/"
  | floorDiv => "//"
  | mod => "%"
  | pow => "^"

/-- The operator that a token stands for behind an operand. -/
def ofKind? : Kind → Option BinaryOp
  | .kwOr => some or
  | .kwAnd => some and
  | .less => some less
  | .greater => some greater
  | .lessEqual => some lessEqual
  | .greaterEqual => some greaterEqual
  | .notEquals => some notEqual
  | .doubleEquals => some equal
  | .pipe => some bitOr
  | .tilde => some bitXor
  | .ampersand => some bitAnd
  | .shiftLeft => some shiftLeft
  | .shiftRight => some shiftRight
  | .doubleDot => some concat
  | .plus => some add
  | .minus => some sub
  | .asterisk => some mul
  | .slash => some div
  | .doubleSlash => some floorDiv
  | .percent => some mod
  | .caret => some pow
  | _ => none

/-- How tightly an operator binds its left operand. -/
def leftPriority : BinaryOp → Nat
  | or => 1
  | and => 2
  | less | greater | lessEqual | greaterEqual | notEqual | equal => 3
  | bitOr => 4
  | bitXor => 5
  | bitAnd => 6
  | shiftLeft | shiftRight => 7
  | concat => 9
  | add | sub => 10
  | mul | div | floorDiv | mod => 11
  | pow => 14

/-- How tightly an operator binds its right operand. Only operators that associate to the right bind
it less tightly than the left one. -/
def rightPriority : BinaryOp → Nat
  | concat => 8
  | pow => 13
  | op => op.leftPriority

end BinaryOp

mutual

/-- Expressions. -/
inductive Exp where
  | nil (place : Location)
  | boolean (value : Bool) (place : Location)
  /-- Three dots. -/
  | vararg (place : Location)
  | integer (value : Int64) (place : Location)
  | float (value : Float) (place : Location)
  /-- A string; what escape sequences stand for is left open. -/
  | string (value : String) (place : Location)
  | unary (op : UnaryOp) (operand : Exp) (place : Location)
  | binary (op : BinaryOp) (lhs rhs : Exp) (place : Location)
  | table (fields : List Field) (place : Location)
  /-- A function. A method has an implicit first parameter. -/
  | function (params : List Ident) (isVararg isMethod : Bool) (body : Block) (place : Location)
  | name (text : String) (place : Location)
  | parens (inner : Exp) (place : Location)
  | index (object key : Exp) (place : Location)
  /-- A call, of the named method of an object if there is a method. -/
  | call (callee : Exp) (method : Option Exp) (args : List Exp) (place : Location)
  /-- Stands where no expression could be read. -/
  | bad (place : Location)

/-- Fields of a table constructor. -/
inductive Field where
  | item (value : Exp)
  | keyed (key value : Exp)

/-- Sequences of statements. -/
inductive Block where
  | mk (stats : List Stat) (place : Location)

/-- Statements. -/
inductive Stat where
  | breakOut (place : Location)
  | label (name : Ident) (place : Location)
  | goto (name : Ident) (place : Location)
  | scope (body : Block) (place : Location)
  | whileLoop (condition : Exp) (body : Block) (place : Location)
  | repeatLoop (body : Block) (condition : Exp) (place : Location)
  | branch (clauses : List Clause) (otherwise : Option Block) (place : Location)
  | numericFor (var : Ident) (start limit : Exp) (step : Option Exp) (body : Block)
      (place : Location)
  | genericFor (names : List Ident) (exps : List Exp) (body : Block) (place : Location)
  | assign (targets values : List Exp) (place : Location)
  | locals (names : List Ident) (values : List Exp) (place : Location)
  | localFunction (name : Ident) (function : Exp) (place : Location)
  | call (call : Exp) (place : Location)
  | ret (values : List Exp) (place : Location)

/-- Conditions with the blocks that they guard. -/
inductive Clause where
  | mk (condition : Exp) (body : Block)

end

/-- The location of an expression. -/
def Exp.place : Exp → Location
  | .nil p | .boolean _ p | .vararg p | .integer _ p | .float _ p | .string _ p | .unary _ _ p
  | .binary _ _ _ p | .table _ p | .function _ _ _ _ p | .name _ p | .parens _ p | .index _ _ p
  | .call _ _ _ p | .bad p => p

/-- The location of a statement. -/
def Stat.place : Stat → Location
  | .breakOut p | .label _ p | .goto _ p | .scope _ p | .whileLoop _ _ p | .repeatLoop _ _ p
  | .branch _ _ p | .numericFor _ _ _ _ _ p | .genericFor _ _ _ p | .assign _ _ p | .locals _ _ p
  | .localFunction _ _ p | .call _ p | .ret _ p => p

/-- The location of a block: from its first to its last statement, or empty where it ends. -/
def Block.place : Block → Location
  | .mk _ p => p

def Block.stats : Block → List Stat
  | .mk stats _ => stats

/-- Whether an expression can stand on the left of an assignment. -/
def Exp.isAssignable : Exp → Bool
  | .name .. | .index .. => true
  | _ => false

def Exp.isCall : Exp → Bool
  | .call .. => true
  | _ => false

def Exp.isBad : Exp → Bool
  | .bad .. => true
  | _ => false

/-- Whether parentheses around an expression change its meaning: calls and varargs are cut to one
value, and names and fields cannot be assigned to. -/
def Exp.keepsParens : Exp → Bool
  | .vararg .. | .call .. | .name .. | .index .. => true
  | _ => false

end LuaFront
