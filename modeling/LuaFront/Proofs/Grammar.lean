import LuaFront.Numeral
import LuaFront.Proofs.Shapes

/-!
# The grammar

The grammar of the language over its `Terminal`s. A `Phrase` relates a text, the meaning of a part
in front of it, and what of the text is left behind this part; meanings are shapes of trees.
Wherever blocks and subexpressions nest, the phrases of a `Level` below stand for them, and
`level n` leaves room for `n` more levels. The left operand of an operator is on the level of the
operator.

* Operators have ranks. An operand is an expression of a rank high enough: `..` and `^` associate to
  the right, all others to the left, and operators in front of an operand rank below `^`.
* A parenthesis behind a complete name or parenthesised expression always makes it a call.
* `Derives n ts b`: the text `ts` is a program with the shape `b` that nests no deeper than `n`.
-/

namespace LuaFront

/-- What the grammar knows of a token. -/
inductive Terminal where
  | fixed (kind : Kind)
  | name (text : String)
  | number (text : String)
  | string (text : String)
deriving DecidableEq, Repr

/-- The terminal that a token is. -/
def Token.terminal (t : Token) : Terminal :=
  match t.kind with
  | .ident => .name t.text
  | .number => .number t.text
  | .string => .string t.text
  | k => .fixed k

/-! ## Ranks of operators -/

/-- Operators of a higher rank bind more tightly. -/
def BinaryOp.rank : BinaryOp → Nat
  | or => 0
  | and => 1
  | less | greater | lessEqual | greaterEqual | notEqual | equal => 2
  | bitOr => 3
  | bitXor => 4
  | bitAnd => 5
  | shiftLeft | shiftRight => 6
  | concat => 7
  | add | sub => 8
  | mul | div | floorDiv | mod => 9
  | pow => 11

/-- The rank of all operators in front of an operand, which is that of their operands too. -/
def UnaryOp.rank : Nat := 10

/-- The least rank of a left operand. -/
def BinaryOp.leftRank : BinaryOp → Nat
  | concat => concat.rank + 1
  | pow => pow.rank + 1
  | op => op.rank

/-- The least rank of a right operand. -/
def BinaryOp.rightRank : BinaryOp → Nat
  | concat => concat.rank
  | pow => UnaryOp.rank
  | op => op.rank + 1

namespace Grammar

/-- What can stand in front of a text, what it means, and what of the text is left behind it. -/
abbrev Phrase (α : Type) := List Terminal → α → List Terminal → Prop

/-- The kind of the first terminal. -/
def look : List Terminal → Kind
  | [] => .eof
  | .fixed k :: _ => k
  | .name _ :: _ => .ident
  | .number _ :: _ => .number
  | .string _ :: _ => .string

/-! ## Lists and options -/

/-- `{k item}` -/
inductive Further {α : Type} (k : Kind) (item : Phrase α) : Phrase (List α)
  | nil {ts} : Further k item ts [] ts
  | cons {ts x r xs rest} : item ts x r → Further k item r xs rest →
      Further k item (.fixed k :: ts) (x :: xs) rest

/-- `item {k item}` -/
inductive Listed {α : Type} (k : Kind) (item : Phrase α) : Phrase (List α)
  | mk {ts x r xs rest} : item ts x r → Further k item r xs rest →
      Listed k item ts (x :: xs) rest

/-- `[items]` -/
inductive Maybe {α : Type} (items : Phrase (List α)) : Phrase (List α)
  | none {ts} : Maybe items ts [] ts
  | some {ts xs rest} : items ts xs rest → Maybe items ts xs rest

/-- `[k item]` -/
inductive Led {α : Type} (k : Kind) (item : Phrase α) : Phrase (Option α)
  | none {ts} : Led k item ts none ts
  | some {ts x rest} : item ts x rest → Led k item (.fixed k :: ts) (some x) rest

/-! ## Levels -/

/-- The phrases for one level further down: expressions of at least a given rank, and blocks. -/
structure Level where
  exp : Nat → Phrase Exp
  block : Phrase Block

/-- `explist ::= exp {',' exp}` -/
def Level.exps (d : Level) : Phrase (List Exp) := Listed .comma (d.exp 0)

/-! ## Names -/

/-- A name that something is declared with. -/
def plainName (n : String) : Ident := ⟨n, {}, true, none⟩

/-- `Name` -/
inductive Name : Phrase Ident
  | mk {n rest} : Name (.name n :: rest) (plainName n) rest

/-- `attname ::= Name ['<' Name '>']`, where the name in brackets is one of an attribute. -/
inductive AttName : Phrase Ident
  | plain {n rest} : AttName (.name n :: rest) (plainName n) rest
  | attrib {n a value rest} : Attribute.ofName? a = some value →
      AttName (.name n :: .fixed .less :: .name a :: .fixed .greater :: rest)
        { plainName n with attrib := some value } rest

/-- `parlist ::= Name {',' Name} [',' '...'] | '...'`, or nothing. -/
inductive Params : Phrase (List Ident × Bool)
  | none {ts} : Params ts ([], false) ts
  | names {ts ns rest} : Listed .comma Name ts ns rest → Params ts (ns, false) rest
  | namesDots {ts ns rest} : Listed .comma Name ts ns (.fixed .comma :: .fixed .vararg :: rest) →
      Params ts (ns, true) rest
  | dots {rest} : Params (.fixed .vararg :: rest) ([], true) rest

/-- `Name {'.' Name}` -/
inductive Path : Phrase Exp
  | name {n rest} : Path (.name n :: rest) (.name n {}) rest
  | field {ts e n rest} : Path ts e (.fixed .dot :: .name n :: rest) →
      Path ts (.index e (.string n {}) {}) rest

/-- `funcname ::= Name {'.' Name} [':' Name]`, and whether there is a colon. -/
inductive FuncName : Phrase (Exp × Bool)
  | plain {ts e rest} : Path ts e rest → FuncName ts (e, false) rest
  | method {ts e n rest} : Path ts e (.fixed .colon :: .name n :: rest) →
      FuncName ts (.index e (.string n {}) {}, true) rest

/-! ## Expressions -/

/-- What parentheses around an expression come to. -/
def enclose (e : Exp) : Exp := if e.keepsParens then .parens e {} else e

section

variable (d : Level)

/-- `field ::= '[' exp ']' '=' exp | Name '=' exp | exp` -/
inductive TableField : Phrase Field
  | keyed {ts key r value rest} :
      d.exp 0 ts key (.fixed .rightBracket :: .fixed .singleEquals :: r) → d.exp 0 r value rest →
      TableField (.fixed .leftBracket :: ts) (.keyed key value) rest
  | named {n ts value rest} : d.exp 0 ts value rest →
      TableField (.name n :: .fixed .singleEquals :: ts) (.keyed (.string n {}) value) rest
  | item {ts value rest} : d.exp 0 ts value rest → TableField ts (.item value) rest

/-- `[field {fieldsep field} [fieldsep]]`, where a comma or a semicolon separates. -/
inductive Fields : Phrase (List Field)
  | nil {ts} : Fields ts [] ts
  | last {ts f rest} : TableField d ts f rest → Fields ts [f] rest
  | cons {ts f k r fs rest} : TableField d ts f (.fixed k :: r) → k = .comma ∨ k = .semicolon →
      Fields r fs rest → Fields ts (f :: fs) rest

/-- `tableconstructor ::= '{' [field {fieldsep field} [fieldsep]] '}'` -/
inductive Table : Phrase Exp
  | mk {ts fs rest} : Fields d ts fs (.fixed .rightBrace :: rest) →
      Table (.fixed .leftBrace :: ts) (.table fs {}) rest

/-- `funcbody ::= '(' [parlist] ')' block end`, the body of a method or of another function. -/
inductive FuncBody (isMethod : Bool) : Phrase Exp
  | mk {ts ns isVararg r b rest} : Params ts (ns, isVararg) (.fixed .rightParen :: r) →
      d.block r b (.fixed .kwEnd :: rest) →
      FuncBody isMethod (.fixed .leftParen :: ts) (.function ns isVararg isMethod b {}) rest

/-- `args ::= '(' [explist] ')' | tableconstructor | LiteralString` -/
inductive Args : Phrase (List Exp)
  | exps {ts es rest} : Maybe d.exps ts es (.fixed .rightParen :: rest) →
      Args (.fixed .leftParen :: ts) es rest
  | table {ts e rest} : Table d ts e rest → Args ts [e] rest
  | string {text rest} : Args (.string text :: rest) [.string text {}] rest

/-- `prefixexp ::= (Name | '(' exp ')') { '.' Name | '[' exp ']' | ':' Name args | args }` -/
inductive Prefixed : Phrase Exp
  | name {n rest} : Prefixed (.name n :: rest) (.name n {}) rest
  | parens {ts e rest} : d.exp 0 ts e (.fixed .rightParen :: rest) →
      Prefixed (.fixed .leftParen :: ts) (enclose e) rest
  | field {ts e n rest} : Prefixed ts e (.fixed .dot :: .name n :: rest) →
      Prefixed ts (.index e (.string n {}) {}) rest
  | index {ts e r key rest} : Prefixed ts e (.fixed .leftBracket :: r) →
      d.exp 0 r key (.fixed .rightBracket :: rest) → Prefixed ts (.index e key {}) rest
  | call {ts e r args rest} : Prefixed ts e r → Args d r args rest →
      Prefixed ts (.call e none args {}) rest
  | method {ts e n r args rest} : Prefixed ts e (.fixed .colon :: .name n :: r) →
      Args d r args rest → Prefixed ts (.call e (some (.string n {})) args {}) rest

/-- A name or parenthesised expression that no further arguments in parentheses follow. -/
inductive Complete : Phrase Exp
  | mk {ts e rest} : Prefixed d ts e rest → look rest ≠ .leftParen → Complete ts e rest

/-- `simpleexp ::= nil | false | true | Numeral | LiteralString | '...' | functiondef |
tableconstructor | prefixexp` -/
inductive Simple : Phrase Exp
  | kwNil {rest} : Simple (.fixed .kwNil :: rest) (.nil {}) rest
  | kwTrue {rest} : Simple (.fixed .kwTrue :: rest) (.boolean true {}) rest
  | kwFalse {rest} : Simple (.fixed .kwFalse :: rest) (.boolean false {}) rest
  | integer {text value rest} : Numeral.value? text.toList = some (.integer value) →
      Simple (.number text :: rest) (.integer value {}) rest
  | float {text value rest} : Numeral.value? text.toList = some (.float value) →
      Simple (.number text :: rest) (.float value {}) rest
  | string {text rest} : Simple (.string text :: rest) (.string text {}) rest
  | vararg {rest} : Simple (.fixed .vararg :: rest) (.vararg {}) rest
  | function {ts e rest} : FuncBody d false ts e rest → Simple (.fixed .kwFunction :: ts) e rest
  | table {ts e rest} : Table d ts e rest → Simple ts e rest
  | complete {ts e rest} : Complete d ts e rest → Simple ts e rest

/-- `exp ::= simpleexp | unop exp | exp binop exp`, of at least a rank. -/
inductive Expression : Nat → Phrase Exp
  | simple {rank ts e rest} : Simple d ts e rest → Expression rank ts e rest
  | unary {rank k op ts e rest} : UnaryOp.ofKind? k = some op → rank ≤ UnaryOp.rank →
      d.exp UnaryOp.rank ts e rest → Expression rank (.fixed k :: ts) (.unary op e {}) rest
  | binary {rank k op ts lhs r rhs rest} : BinaryOp.ofKind? k = some op → rank ≤ op.rank →
      Expression op.leftRank ts lhs (.fixed k :: r) → d.exp op.rightRank r rhs rest →
      Expression rank ts (.binary op lhs rhs {}) rest

/-! ## Statements -/

/-- `exp then block` -/
inductive Branch : Phrase Clause
  | mk {ts c r b rest} : d.exp 0 ts c (.fixed .kwThen :: r) → d.block r b rest →
      Branch ts (.mk c b) rest

/-- What can be assigned to: a name, or a field. -/
inductive Target : Phrase Exp
  | mk {ts e rest} : Complete d ts e rest → e.isAssignable → Target ts e rest

/-- A statement other than `return`. An empty one has no meaning. -/
inductive Statement : Phrase (Option Stat)
  | empty {rest} : Statement (.fixed .semicolon :: rest) none rest
  | breakOut {rest} : Statement (.fixed .kwBreak :: rest) (some (.breakOut {})) rest
  | label {n rest} :
      Statement (.fixed .doubleColon :: .name n :: .fixed .doubleColon :: rest)
        (some (.label (plainName n) {})) rest
  | goto {n rest} :
      Statement (.fixed .kwGoto :: .name n :: rest) (some (.goto (plainName n) {})) rest
  | scope {ts b rest} : d.block ts b (.fixed .kwEnd :: rest) →
      Statement (.fixed .kwDo :: ts) (some (.scope b {})) rest
  | whileLoop {ts c r b rest} : d.exp 0 ts c (.fixed .kwDo :: r) →
      d.block r b (.fixed .kwEnd :: rest) →
      Statement (.fixed .kwWhile :: ts) (some (.whileLoop c b {})) rest
  | repeatLoop {ts b r c rest} : d.block ts b (.fixed .kwUntil :: r) → d.exp 0 r c rest →
      Statement (.fixed .kwRepeat :: ts) (some (.repeatLoop b c {})) rest
  | branch {ts cs r other rest} : Listed .kwElseif (Branch d) ts cs r →
      Led .kwElse d.block r other (.fixed .kwEnd :: rest) →
      Statement (.fixed .kwIf :: ts) (some (.branch cs other {})) rest
  | numericFor {n ts start r limit r' step r'' b rest} : d.exp 0 ts start (.fixed .comma :: r) →
      d.exp 0 r limit r' → Led .comma (d.exp 0) r' step (.fixed .kwDo :: r'') →
      d.block r'' b (.fixed .kwEnd :: rest) →
      Statement (.fixed .kwFor :: .name n :: .fixed .singleEquals :: ts)
        (some (.numericFor (plainName n) start limit step b {})) rest
  | genericFor {ts ns r es r' b rest} : Listed .comma Name ts ns (.fixed .kwIn :: r) →
      d.exps r es (.fixed .kwDo :: r') → d.block r' b (.fixed .kwEnd :: rest) →
      Statement (.fixed .kwFor :: ts) (some (.genericFor ns es b {})) rest
  | function {ts target isMethod r f rest} : FuncName ts (target, isMethod) r →
      FuncBody d isMethod r f rest →
      Statement (.fixed .kwFunction :: ts) (some (.assign [target] [f] {})) rest
  | localFunction {n ts f rest} : FuncBody d false ts f rest →
      Statement (.fixed .kwLocal :: .fixed .kwFunction :: .name n :: ts)
        (some (.localFunction (plainName n) f {})) rest
  | locals {ts ns r es rest} : Listed .comma AttName ts ns r →
      Led .singleEquals d.exps r es rest →
      Statement (.fixed .kwLocal :: ts) (some (.locals ns (es.getD []) {})) rest
  | assign {ts targets r es rest} :
      Listed .comma (Target d) ts targets (.fixed .singleEquals :: r) → d.exps r es rest →
      Statement ts (some (.assign targets es {})) rest
  | call {ts e rest} : Complete d ts e rest → e.isCall → Statement ts (some (.call e {})) rest

/-- `retstat ::= return [explist] [';']` -/
inductive Return : Phrase Stat
  | plain {ts es rest} : Maybe d.exps ts es rest →
      Return (.fixed .kwReturn :: ts) (.ret es {}) rest
  | ended {ts es rest} : Maybe d.exps ts es (.fixed .semicolon :: rest) →
      Return (.fixed .kwReturn :: ts) (.ret es {}) rest

/-- `{stat} [retstat]` -/
inductive Stats : Phrase (List Stat)
  | nil {ts} : Stats ts [] ts
  | last {ts st rest} : Return d ts st rest → Stats ts [st] rest
  | cons {ts st r ss rest} : Statement d ts st r → Stats r ss rest →
      Stats ts (st.toList ++ ss) rest

/-- `block ::= {stat} [retstat]` -/
inductive Body : Phrase Block
  | mk {ts ss rest} : Stats d ts ss rest → Body ts (.mk ss {}) rest

end

/-! ## Programs -/

/-- The phrases with room for `n` levels. -/
def level : Nat → Level
  | 0 => ⟨fun _ _ _ _ => False, fun _ _ _ => False⟩
  | n + 1 => ⟨Expression (level n), Body (level n)⟩

/-- `chunk ::= block`: the whole text is a block of the given shape, with at most `n` levels. -/
def Derives (n : Nat) (ts : List Terminal) (b : Block) : Prop := Body (level n) ts b []

/-- Blocks in each other take as many levels. -/
theorem body_scopes (n : Nat) (rest : List Terminal) :
    ∃ b, Body (level n)
      (.replicate n (.fixed .kwDo) ++ (.replicate n (.fixed .kwEnd) ++ rest)) b rest := by
  induction n generalizing rest with
  | zero => exact ⟨_, .mk .nil⟩
  | succ n ih =>
    obtain ⟨b, hb⟩ := ih (.fixed .kwEnd :: rest)
    rw [List.append_cons, ← List.replicate_succ'] at hb
    exact ⟨_, .mk (.cons (.scope hb) .nil)⟩

end Grammar

end LuaFront
