import LuaFront.Build.State
import LuaFront.Parse.Expression

/-!
# Reading expressions into an arena

The readers follow those of `Parse` token by token. The parts of an expression are in the arena when
the expression is added, and each of them is a part of it alone. Parentheses that are dropped leave
nothing in the arena.
-/

namespace LuaFront.Build

open Parse (Round advance accept at? current expect expectEnd expectName found peek report)

/-- A name as a string key. -/
def nameKey (n : Ident) : Build ExpId := addExp (.string n.text n.location)

/-- The value of a numeral. -/
def numeral (t : Token) : Build ExpId :=
  match Numeral.value? t.text.toList with
  | some (.integer value) => addExp (.integer value t.location)
  | some (.float value) => addExp (.float value t.location)
  | none => do
    report (.malformedNumber t.text) t.location
    addExp (.bad t.location)

/-! ## Table constructors -/

/-- A field: `[key] = value`, `name = value`, or a value alone. -/
def field (deeper : Nested) : Build (FieldCell ExpId) := do
  match ← accept .leftBracket with
  | some bracket =>
    let key ← deeper.fullExp
    let _ ← expectEnd .rightBracket .leftBracket bracket.location
    let _ ← expect .singleEquals
    return ⟨some key, ← deeper.fullExp⟩
  | none =>
    let named ← if ← at? .ident then pure ((← peek) == .singleEquals) else pure false
    if named then
      let name ← advance
      let _ ← advance
      let key ← addExp (.string name.text name.location)
      return ⟨some key, ← deeper.fullExp⟩
    else return ⟨none, ← deeper.fullExp⟩

/-- One more field; another one can follow behind a separator. -/
def fieldRound (deeper : Nested) (fs : List (FieldCell ExpId)) :
    Build (Round (List (FieldCell ExpId))) := do
  let k := (← current).kind
  if k = .rightBrace ∨ k.isBlockEnd then pure (.done fs)
  else
    let f ← field deeper
    let k := (← current).kind
    if k = .comma ∨ k = .semicolon then
      let _ ← advance
      pure (.again (fs ++ [f]))
    else pure (.done (fs ++ [f]))

/-- Fields up to the closing brace. -/
def fields (deeper : Nested) : Build (List (FieldCell ExpId)) := loop (fieldRound deeper) []

/-- A table constructor. -/
def table (deeper : Nested) : Build ExpId := do
  let brace ← advance
  let fs ← fields deeper
  let close ← expectEnd .rightBrace .leftBrace brace.location
  addExp (.table fs (brace.location.cover close.location))

/-! ## Functions -/

/-- Parameters and body of a function that began at `start`. -/
def functionBody (deeper : Nested) (start : Location) (isMethod : Bool) : Build ExpId := do
  let paren ← expect .leftParen
  let (names, isVararg) ← Parse.params
  let _ ← expectEnd .rightParen .leftParen paren.location
  let body ← deeper.block
  let close ← expectEnd .kwEnd .kwFunction start
  addExp (.function names isVararg isMethod body (start.cover close.location))

/-! ## Calls and fields of an expression -/

/-- Arguments of a call with their location: expressions in parentheses, a table, or a string. If
there are none, they are taken to be where `before` is. -/
def arguments (deeper : Nested) (before : Location) : Build (List ExpId × Location) := do
  match (← current).kind with
  | .leftParen =>
    let paren ← advance
    let args ← if ← at? .rightParen then pure [] else deeper.expList
    let close ← expectEnd .rightParen .leftParen paren.location
    pure (args, paren.location.cover close.location)
  | .leftBrace =>
    let t ← table deeper
    let place ← expPlace t
    pure ([t], place)
  | .string =>
    let t ← advance
    let s ← addExp (.string t.text t.location)
    pure ([s], t.location)
  | _ =>
    report (.unexpectedToken "function arguments" (← found)) (← current).location
    pure ([], before)

/-- A name, or an expression in parentheses. -/
def primary (deeper : Nested) : Build ExpId := do
  let t ← current
  match t.kind with
  | .ident =>
    let t ← advance
    addExp (.name t.text t.location)
  | .leftParen =>
    let paren ← advance
    let inner ← deeper.fullExp
    let close ← expectEnd .rightParen .leftParen paren.location
    if (← exp inner).keepsParens then
      addExp (.parens inner (paren.location.cover close.location))
    else pure inner
  | k =>
    unless k = .illegal do report (.unexpectedSymbol t.describe) t.location
    unless k.isBlockEnd do let _ ← advance
    addExp (.bad t.location)

/-- What is hung onto an expression: a field, or a call. -/
def suffix (deeper : Nested) (e : ExpId) : Build (Round ExpId) := do
  let t ← current
  match t.kind with
  | .dot =>
    let _ ← advance
    let name ← expectName .dot
    let key ← nameKey name
    let place := (← expPlace e).cover (← expPlace key)
    return .again (← addExp (.index e key place))
  | .leftBracket =>
    let bracket ← advance
    let key ← deeper.fullExp
    let close ← expectEnd .rightBracket .leftBracket bracket.location
    let place := (← expPlace e).cover close.location
    return .again (← addExp (.index e key place))
  | .colon =>
    let _ ← advance
    let name ← expectName .colon
    let method ← nameKey name
    let (args, last) ← arguments deeper (← expPlace method)
    let place := (← expPlace e).cover last
    return .again (← addExp (.call e (some method) args place))
  | .leftParen | .leftBrace | .string =>
    let (args, last) ← arguments deeper t.location
    let place := (← expPlace e).cover last
    return .again (← addExp (.call e none args place))
  | _ => pure (.done e)

/-- A name or parenthesised expression with everything that is hung onto it. -/
def suffixed (deeper : Nested) : Build ExpId := do
  let e ← primary deeper
  loop (suffix deeper) e

/-! ## Operators -/

/-- An expression without operators. -/
def simple (deeper : Nested) : Build ExpId := do
  let t ← current
  match t.kind with
  | .kwNil =>
    let _ ← advance
    addExp (.nil t.location)
  | .kwTrue =>
    let _ ← advance
    addExp (.boolean true t.location)
  | .kwFalse =>
    let _ ← advance
    addExp (.boolean false t.location)
  | .vararg =>
    let _ ← advance
    addExp (.vararg t.location)
  | .number =>
    let t ← advance
    numeral t
  | .string =>
    let t ← advance
    addExp (.string t.text t.location)
  | .leftBrace => table deeper
  | .kwFunction =>
    let _ ← advance
    functionBody deeper t.location false
  | _ => suffixed deeper

/-- An operand with the operators in front of it. -/
def operand (deeper : Nested) : Build ExpId := do
  match UnaryOp.ofKind? (← current).kind with
  | some op =>
    let t ← advance
    let e ← deeper.exp UnaryOp.priority
    let place := t.location.cover (← expPlace e)
    addExp (.unary op e place)
  | none => simple deeper

/-- An operator that binds more tightly than the limit, and its right operand. -/
def operation (deeper : Nested) (limit : Nat) (lhs : ExpId) : Build (Round ExpId) := do
  match BinaryOp.ofKind? (← current).kind with
  | some op =>
    if op.leftPriority ≤ limit then pure (.done lhs)
    else
      let _ ← advance
      let rhs ← deeper.exp op.rightPriority
      let place := (← expPlace lhs).cover (← expPlace rhs)
      return .again (← addExp (.binary op lhs rhs place))
  | none => pure (.done lhs)

/-- An expression whose operators all bind more tightly than the limit. -/
def subexpression (deeper : Nested) (limit : Nat) : Build ExpId := do
  let e ← operand deeper
  loop (operation deeper limit) e

end LuaFront.Build
