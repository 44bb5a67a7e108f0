import LuaFront.Position
import LuaFront.Text.Lines

/-!
# Tokens

`Kind` lists the kinds of tokens with their spelling, and a `Token` is an occurrence of one in a
source. `Kind.keyword?` finds reserved words, and `Token.describe` is how messages call a token.
-/

namespace LuaFront

/-- The kinds of tokens. -/
inductive Kind where
  | eof | vararg | semicolon | comma | dot | colon | doubleColon | leftParen | rightParen
  | leftBracket | rightBracket | leftBrace | rightBrace | singleEquals | minus | tilde | plus
  | asterisk | slash | doubleSlash | caret | percent | ampersand | pipe | shiftLeft | shiftRight
  | doubleDot | less | lessEqual | greater | greaterEqual | doubleEquals | notEquals | hash
  | kwAnd | kwBreak | kwDo | kwElse | kwElseif | kwEnd | kwFalse | kwFor | kwFunction | kwGoto
  | kwIf | kwIn | kwLocal | kwNil | kwNot | kwOr | kwRepeat | kwReturn | kwThen | kwTrue
  | kwUntil | kwWhile
  | ident | number | string | illegal
deriving DecidableEq, Repr, Inhabited

namespace Kind

/-- The fixed spelling of a kind, or a word for it in angle brackets if it has none. -/
def spelling : Kind → String
  | .eof => "<eof>"
  | .vararg => "..."
  | .semicolon => ";"
  | .comma => ","
  | .dot => "."
  | .colon => ":"
  | .doubleColon => "::"
  | .leftParen => "("
  | .rightParen => ")"
  | .leftBracket => "["
  | .rightBracket => "]"
  | .leftBrace => "\x7b"
  | .rightBrace => "\x7d"
  | .singleEquals => "="
  | .minus => "-"
  | .tilde => "~"
  | .plus => "+"
  | .asterisk => "*"
  | .slash => "/"
  | .doubleSlash => "//"
  | .caret => "^"
  | .percent => "%"
  | .ampersand => "&"
  | .pipe => "|"
  | .shiftLeft => "<<"
  | .shiftRight => ">>"
  | .doubleDot => ".."
  | .less => "<"
  | .lessEqual => "<="
  | .greater => ">"
  | .greaterEqual => ">="
  | .doubleEquals => "=="
  | .notEquals => "~="
  | .hash => "#"
  | .kwAnd => "and"
  | .kwBreak => "break"
  | .kwDo => "do"
  | .kwElse => "else"
  | .kwElseif => "elseif"
  | .kwEnd => "end"
  | .kwFalse => "false"
  | .kwFor => "for"
  | .kwFunction => "function"
  | .kwGoto => "goto"
  | .kwIf => "if"
  | .kwIn => "in"
  | .kwLocal => "local"
  | .kwNil => "nil"
  | .kwNot => "not"
  | .kwOr => "or"
  | .kwRepeat => "repeat"
  | .kwReturn => "return"
  | .kwThen => "then"
  | .kwTrue => "true"
  | .kwUntil => "until"
  | .kwWhile => "while"
  | .ident => "<name>"
  | .number => "<number>"
  | .string => "<string>"
  | .illegal => "<illegal>"

/-- Symbols and reserved words have one spelling; names, literals, illegal runs and the end of input
do not. -/
def isFixed : Kind → Bool
  | .eof | .ident | .number | .string | .illegal => false
  | _ => true

/-- How messages write a kind. -/
protected def toString (k : Kind) : String :=
  if k.isFixed then "`" ++ k.spelling ++ "`" else k.spelling

/-- The symbols, each before those that its spelling starts with. -/
def symbols : List Kind := [
  .vararg, .doubleColon, .doubleSlash, .shiftLeft, .shiftRight, .doubleDot, .lessEqual,
  .greaterEqual, .doubleEquals, .notEquals, .semicolon, .comma, .dot, .colon, .leftParen,
  .rightParen, .leftBracket, .rightBracket, .leftBrace, .rightBrace, .singleEquals, .minus,
  .tilde, .plus, .asterisk, .slash, .caret, .percent, .ampersand, .pipe, .less, .greater, .hash]

/-- The reserved words. -/
def keywords : List Kind := [
  .kwAnd, .kwBreak, .kwDo, .kwElse, .kwElseif, .kwEnd, .kwFalse, .kwFor, .kwFunction, .kwGoto,
  .kwIf, .kwIn, .kwLocal, .kwNil, .kwNot, .kwOr, .kwRepeat, .kwReturn, .kwThen, .kwTrue,
  .kwUntil, .kwWhile]

/-- The kind of a reserved word. -/
def keyword? (text : String) : Option Kind := keywords.find? (·.spelling == text)

/-- Keywords and symbols that can only begin a statement. -/
def isStatementStart : Kind → Bool
  | .semicolon | .doubleColon | .kwBreak | .kwGoto | .kwDo | .kwWhile | .kwRepeat | .kwIf | .kwFor
  | .kwFunction | .kwLocal | .kwReturn => true
  | _ => false

/-- What a block of statements stops at. -/
def isBlockEnd : Kind → Bool
  | .eof | .kwEnd | .kwElse | .kwElseif | .kwUntil => true
  | _ => false

end Kind

/-- A token of a source. -/
structure Token where
  kind : Kind
  /-- The spelling, or for a string what stands between its delimiters. -/
  text : String
  location : Location
  /-- Whether the token is well formed. -/
  valid : Bool := true
deriving DecidableEq, Repr, Inhabited

namespace Token

/-- The first line of a text, cut to twenty characters; dots tell that something was left out. -/
def shorten (text : Chars) : Chars :=
  let first := (Text.lines text).headD []
  if 20 < first.length || first.length < text.length then first.take 20 ++ "...".toList else first

/-- How messages call a token. -/
def describe (t : Token) : String :=
  match t.kind with
  | .ident | .number | .illegal => "`" ++ t.text ++ "`"
  | .string => "string \"" ++ String.ofList (shorten t.text.toList) ++ "\""
  | k => k.toString

end Token

/-- The attribute of a local variable. -/
inductive Attribute where
  | const | close
deriving DecidableEq, Repr

namespace Attribute

/-- How an attribute is written between the angle brackets. -/
def spelling : Attribute → String
  | .const => "const"
  | .close => "close"

/-- The attribute of the given name. -/
def ofName? (text : String) : Option Attribute :=
  [const, close].find? (·.spelling == text)

end Attribute

end LuaFront
