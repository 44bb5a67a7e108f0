import LuaFront.Comment
import LuaFront.Numeral
import LuaFront.Text.Pattern
import LuaFront.Text.Word

/-!
# Tokens of documentation tags

The text behind `---@` in a comment is a small language with tokens of its own. At each place the
rule that takes most characters makes the token; of rules that take the same, the first one does.
What no rule takes is a token too, of the kind `other`.

Such a text is all on one line, so the location of a token is its offset in the text, added to the
position where the text starts.
-/

namespace LuaFront.Doc

/-- The kinds of tokens of documentation tags. -/
inductive Kind where
  | comma | colon | vararg | leftParen | rightParen | leftBracket | rightBracket | leftBrace
  | rightBrace | pipe | less | greater | atSign | question
  | name | number | string
  | kwFun | kwTable | kwType | kwParam | kwField | kwClass | kwReturn | kwOverload | kwAlias
  | kwGeneric | kwPublic | kwProtected | kwPrivate | kwVararg | kwConst | kwEnum
  | other
deriving DecidableEq, Repr, Inhabited

namespace Kind

/-- The fixed spelling of a kind, or a word for it if it has none. -/
def spelling : Kind → String
  | .comma => ","
  | .colon => ":"
  | .vararg => "..."
  | .leftParen => "("
  | .rightParen => ")"
  | .leftBracket => "["
  | .rightBracket => "]"
  | .leftBrace => "\x7b"
  | .rightBrace => "\x7d"
  | .pipe => "|"
  | .less => "<"
  | .greater => ">"
  | .atSign => "@"
  | .question => "?"
  | .name => "name"
  | .number => "number"
  | .string => "string"
  | .kwFun => "fun"
  | .kwTable => "table"
  | .kwType => "type"
  | .kwParam => "param"
  | .kwField => "field"
  | .kwClass => "class"
  | .kwReturn => "return"
  | .kwOverload => "overload"
  | .kwAlias => "alias"
  | .kwGeneric => "generic"
  | .kwPublic => "public"
  | .kwProtected => "protected"
  | .kwPrivate => "private"
  | .kwVararg => "vararg"
  | .kwConst => "const"
  | .kwEnum => "enum"
  | .other => "unknown token"

/-- Symbols and reserved words have one spelling. -/
def isFixed : Kind → Bool
  | .name | .number | .string | .other => false
  | _ => true

/-- How messages write a kind. -/
protected def toString (k : Kind) : String :=
  if k.isFixed then "`" ++ k.spelling ++ "`" else k.spelling

/-- The symbols. -/
def symbols : List Kind := [
  .vararg, .comma, .colon, .leftParen, .rightParen, .leftBracket, .rightBracket, .leftBrace,
  .rightBrace, .pipe, .less, .greater, .atSign, .question]

/-- The reserved words. -/
def keywords : List Kind := [
  .kwFun, .kwTable, .kwType, .kwParam, .kwField, .kwClass, .kwReturn, .kwOverload, .kwAlias,
  .kwGeneric, .kwPublic, .kwProtected, .kwPrivate, .kwVararg, .kwConst, .kwEnum]

/-- The kind of a reserved word. -/
def keyword? (text : String) : Option Kind := keywords.find? (·.spelling == text)

/-- The words that start a tag. -/
def isTag : Kind → Bool
  | .kwType | .kwParam | .kwField | .kwClass | .kwReturn | .kwOverload | .kwAlias | .kwGeneric
  | .kwVararg | .kwEnum => true
  | _ => false

end Kind

/-- A token of a documentation tag. -/
structure Token where
  kind : Kind
  text : String
  location : Location
deriving DecidableEq, Repr, Inhabited

/-! ## Rules -/

/-- A way to make a token. -/
structure Rule where
  pattern : Pattern
  /-- The kind of a token of the given spelling. -/
  kind : Chars → Kind

namespace Rule

open Text Pattern

/-- The symbol of the given kind. -/
def symbol (k : Kind) : Rule := ⟨literal k.spelling.toList, fun _ => k⟩

/-- Name characters, and points with a name behind them. -/
def nameTail : Chars → Nat
  | [] => 0
  | c :: text =>
    if isNameChar c ∨ c = '.' ∧ text.head?.any isNameStart then nameTail text + 1 else 0

/-- A reserved word, or names with points between them. -/
def name : Rule where
  pattern := (char isNameStart).andThen fun text => some (nameTail text)
  kind text := (Kind.keyword? (String.ofList text)).getD .name

/-- A minus that may be missing. -/
def minus : Pattern := optional (char (· = '-'))

/-- A hexadecimal integer. -/
def hexadecimal : Rule where
  pattern := minus.andThen <| (char (· = '0')).andThen <| (char Numeral.isHexMark).andThen <|
    many1 isHexDigit
  kind _ := .number

/-- A decimal number. -/
def decimal : Rule where
  pattern := minus.andThen <| (many1 isDigit).andThen <|
    (optional ((char Numeral.isPoint).andThen (many isDigit))).andThen <|
      optional <| (char Numeral.isDecimalMark).andThen <|
        (optional (char Numeral.isSign)).andThen (many1 isDigit)
  kind _ := .number

/-- Everything up to the given quote and with it. A backslash makes the next character no quote; it
may not stand before a line break. -/
def quotedTail (quote : Char) : Pattern
  | [] => none
  | c :: text =>
    if c = quote then some 1
    else if c = '\\' then
      match text with
      | [] => none
      | d :: text => if d = '\n' then none else (quotedTail quote text).map (· + 2)
    else (quotedTail quote text).map (· + 1)

/-- A string in the given quotes. -/
def quoted (quote : Char) : Rule where
  pattern := (char (· = quote)).andThen (quotedTail quote)
  kind _ := .string

/-- All rules, those that win over others first. -/
def all : List Rule :=
  Kind.symbols.map symbol ++ [name, hexadecimal, decimal, quoted '\x22', quoted '\x27']

/-- Makes tokens of what no other rule takes: a run of word characters, or any one character. -/
def fallback : Rule where
  pattern text := (many1 isWord text).or (some 1)
  kind _ := .other

/-- The better of two matches: the longer one, and the first if they are as long. -/
def better (m n : Option (Nat × Rule)) : Option (Nat × Rule) :=
  match m, n with
  | some (i, _), some (j, _) => if i < j then n else m
  | none, n => n
  | m, none => m

/-- The rule that takes most characters of a text, with their number. -/
def best? (rules : List Rule) (text : Chars) : Option (Nat × Rule) :=
  rules.foldr (fun r m => better ((r.pattern text).map (·, r)) m) none

/-- The kind and the number of characters of the token at the start of a text. -/
def first (text : Chars) : Kind × Nat :=
  -- The fallback always matches, so its default is never used.
  let (n, rule) := (best? all text).getD ((fallback.pattern text).getD 1, fallback)
  (rule.kind (text.take n), n)

end Rule

/-! ## Texts -/

/-- The position that is `n` bytes further on the same line. -/
def shift (p : Position) (n : Nat) : Position := { p with column := p.column + n }

/-- At most `n` tokens of a text that starts at a position. -/
def take : Nat → Position → Chars → List Token
  | 0, _, _ => []
  | n + 1, p, text =>
    let p := shift p (Text.byteSize (text.takeWhile Text.isSpace))
    match text.dropWhile Text.isSpace with
    | [] => []
    | c :: text =>
      let (kind, length) := Rule.first (c :: text)
      let spelling := (c :: text).take length
      let stop := shift p (Text.byteSize spelling)
      ⟨kind, String.ofList spelling, ⟨p, stop⟩⟩ :: take n stop ((c :: text).drop length)

/-- The tokens of a text that starts at a position. -/
def tokens (start : Position) (text : Chars) : List Token := take text.length start text

end LuaFront.Doc

namespace LuaFront

/-- The tokens of a tag line; a plain comment has none at all. -/
def CommentLine.tagTokens? (c : CommentLine) : Option (List Doc.Token) :=
  c.tagText?.map (Doc.tokens (Doc.shift c.start 4))

example : (Doc.tokens ⟨0, 4⟩ "param x.y? -0x1F|'a' é".toList).map (·.text) =
    ["param", "x.y", "?", "-0x1F", "|", "'a'", "é"] := by decide +kernel

end LuaFront
