import LuaFront.Parse.State

/-!
# Reading expressions

Operands are literals, table constructors, functions, and names or parenthesised expressions with
what is hung onto them. Operators between operands are read by their binding priorities: an operator
is taken while it binds its left operand more tightly than the limit, and its right operand is read
with its right priority as the limit.
-/

namespace LuaFront.Parse

/-- A name as a string key. -/
def nameKey (n : Ident) : Exp := .string n.text n.location

/-- The value of a numeral. -/
def numeral (t : Token) : Parse Exp :=
  match Numeral.value? t.text.toList with
  | some (.integer value) => pure (.integer value t.location)
  | some (.float value) => pure (.float value t.location)
  | none => do
    report (.malformedNumber t.text) t.location
    pure (.bad t.location)

/-! ## Table constructors -/

/-- A field: `[key] = value`, `name = value`, or a value alone. -/
def field (deeper : Nested) : Parse Field := do
  match ← accept .leftBracket with
  | some bracket =>
    let key ← deeper.fullExp
    let _ ← expectEnd .rightBracket .leftBracket bracket.location
    let _ ← expect .singleEquals
    return .keyed key (← deeper.fullExp)
  | none =>
    let named ← if ← at? .ident then pure ((← peek) == .singleEquals) else pure false
    if named then
      let name ← advance
      let _ ← advance
      return .keyed (.string name.text name.location) (← deeper.fullExp)
    else return .item (← deeper.fullExp)

/-- One more field; another one can follow behind a separator. -/
def fieldRound (deeper : Nested) (fs : List Field) : Parse (Round (List Field)) := do
  let k := (← current).kind
  if k = .rightBrace ∨ k.isBlockEnd then pure (.done fs)
  else
    let f ← field deeper
    let k := (← current).kind
    if k = .comma ∨ k = .semicolon then
      let _ ← advance
      pure (.again (fs ++ [f]))
    else pure (.done (fs ++ [f]))

/-- Fields up to the closing brace. -/
def fields (deeper : Nested) : Parse (List Field) := loop (fieldRound deeper) []

/-- A table constructor. -/
def table (deeper : Nested) : Parse Exp := do
  let brace ← advance
  let fs ← fields deeper
  let close ← expectEnd .rightBrace .leftBrace brace.location
  pure (.table fs (brace.location.cover close.location))

/-! ## Functions -/

/-- One more parameter, or three dots. -/
def paramRound (ps : List Ident × Bool) : Parse (Round (List Ident × Bool)) := do
  if (← accept .vararg).isSome then pure (.done (ps.1, true))
  else
    let name ← expectName .leftParen
    if (← accept .comma).isSome then pure (.again (ps.1 ++ [name], false))
    else pure (.done (ps.1 ++ [name], false))

/-- Parameters, and whether three dots end them. -/
def params : Parse (List Ident × Bool) := do
  if ← at? .rightParen then pure ([], false)
  else loop paramRound ([], false)

/-- Parameters and body of a function that began at `start`. -/
def functionBody (deeper : Nested) (start : Location) (isMethod : Bool) : Parse Exp := do
  let paren ← expect .leftParen
  let (names, isVararg) ← params
  let _ ← expectEnd .rightParen .leftParen paren.location
  let body ← deeper.block
  let close ← expectEnd .kwEnd .kwFunction start
  pure (.function names isVararg isMethod body (start.cover close.location))

/-! ## Calls and fields of an expression -/

/-- Arguments of a call with their location: expressions in parentheses, a table, or a string. If
there are none, they are taken to be where `before` is. -/
def arguments (deeper : Nested) (before : Location) : Parse (List Exp × Location) := do
  match (← current).kind with
  | .leftParen =>
    let paren ← advance
    let args ← if ← at? .rightParen then pure [] else deeper.expList
    let close ← expectEnd .rightParen .leftParen paren.location
    pure (args, paren.location.cover close.location)
  | .leftBrace =>
    let t ← table deeper
    pure ([t], t.place)
  | .string =>
    let t ← advance
    pure ([.string t.text t.location], t.location)
  | _ =>
    report (.unexpectedToken "function arguments" (← found)) (← current).location
    pure ([], before)

/-- A name, or an expression in parentheses. -/
def primary (deeper : Nested) : Parse Exp := do
  let t ← current
  match t.kind with
  | .ident =>
    let t ← advance
    pure (.name t.text t.location)
  | .leftParen =>
    let paren ← advance
    let inner ← deeper.fullExp
    let close ← expectEnd .rightParen .leftParen paren.location
    pure (if inner.keepsParens then .parens inner (paren.location.cover close.location) else inner)
  | k =>
    unless k = .illegal do report (.unexpectedSymbol t.describe) t.location
    unless k.isBlockEnd do let _ ← advance
    pure (.bad t.location)

/-- What is hung onto an expression: a field, or a call. -/
def suffix (deeper : Nested) (e : Exp) : Parse (Round Exp) := do
  let t ← current
  match t.kind with
  | .dot =>
    let _ ← advance
    let name ← expectName .dot
    pure (.again (.index e (nameKey name) (e.place.cover name.location)))
  | .leftBracket =>
    let bracket ← advance
    let key ← deeper.fullExp
    let close ← expectEnd .rightBracket .leftBracket bracket.location
    pure (.again (.index e key (e.place.cover close.location)))
  | .colon =>
    let _ ← advance
    let name ← expectName .colon
    let (args, place) ← arguments deeper name.location
    pure (.again (.call e (some (nameKey name)) args (e.place.cover place)))
  | .leftParen | .leftBrace | .string =>
    let (args, place) ← arguments deeper t.location
    pure (.again (.call e none args (e.place.cover place)))
  | _ => pure (.done e)

/-- A name or parenthesised expression with everything that is hung onto it. -/
def suffixed (deeper : Nested) : Parse Exp := do
  let e ← primary deeper
  loop (suffix deeper) e

/-! ## Operators -/

/-- An expression without operators. -/
def simple (deeper : Nested) : Parse Exp := do
  let t ← current
  match t.kind with
  | .kwNil =>
    let _ ← advance
    pure (.nil t.location)
  | .kwTrue =>
    let _ ← advance
    pure (.boolean true t.location)
  | .kwFalse =>
    let _ ← advance
    pure (.boolean false t.location)
  | .vararg =>
    let _ ← advance
    pure (.vararg t.location)
  | .number =>
    let t ← advance
    numeral t
  | .string =>
    let t ← advance
    pure (.string t.text t.location)
  | .leftBrace => table deeper
  | .kwFunction =>
    let _ ← advance
    functionBody deeper t.location false
  | _ => suffixed deeper

/-- An operand with the operators in front of it. -/
def operand (deeper : Nested) : Parse Exp := do
  match UnaryOp.ofKind? (← current).kind with
  | some op =>
    let t ← advance
    let e ← deeper.exp UnaryOp.priority
    pure (.unary op e (t.location.cover e.place))
  | none => simple deeper

/-- An operator that binds more tightly than the limit, and its right operand. -/
def operation (deeper : Nested) (limit : Nat) (lhs : Exp) : Parse (Round Exp) := do
  match BinaryOp.ofKind? (← current).kind with
  | some op =>
    if op.leftPriority ≤ limit then pure (.done lhs)
    else
      let _ ← advance
      let rhs ← deeper.exp op.rightPriority
      pure (.again (.binary op lhs rhs (lhs.place.cover rhs.place)))
  | none => pure (.done lhs)

/-- An expression whose operators all bind more tightly than the limit. -/
def subexpression (deeper : Nested) (limit : Nat) : Parse Exp := do
  let e ← operand deeper
  loop (operation deeper limit) e

end LuaFront.Parse
