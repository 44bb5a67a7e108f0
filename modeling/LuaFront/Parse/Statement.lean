import LuaFront.Parse.Expression

/-!
# Reading statements

A statement is known by its first token. What starts with none of the words and symbols for
statements is a call or an assignment. After an error the rest of its line is skipped, up to a token
that can only begin a statement or end a block.
-/

namespace LuaFront.Parse

/-- `goto name` -/
def gotoStat : Parse Stat := do
  let goto ← advance
  let name ← expectName .kwGoto
  pure (.goto name (goto.location.cover name.location))

/-- `::name::` -/
def labelStat : Parse Stat := do
  let opener ← advance
  let name ← expectName .doubleColon
  let close ← expect .doubleColon
  pure (.label name (opener.location.cover close.location))

/-- `do block end` -/
def scopeStat (deeper : Nested) : Parse Stat := do
  let t ← advance
  let body ← deeper.block
  let close ← expectEnd .kwEnd .kwDo t.location
  pure (.scope body (t.location.cover close.location))

/-- `while condition do block end` -/
def whileStat (deeper : Nested) : Parse Stat := do
  let t ← advance
  let condition ← deeper.fullExp
  let _ ← expect .kwDo
  let body ← deeper.block
  let close ← expectEnd .kwEnd .kwWhile t.location
  pure (.whileLoop condition body (t.location.cover close.location))

/-- `repeat block until condition` -/
def repeatStat (deeper : Nested) : Parse Stat := do
  let t ← advance
  let body ← deeper.block
  let _ ← expectEnd .kwUntil .kwRepeat t.location
  let condition ← deeper.fullExp
  pure (.repeatLoop body condition (t.location.cover condition.place))

/-- `condition then block` -/
def clause (deeper : Nested) : Parse Clause := do
  let condition ← deeper.fullExp
  let _ ← expect .kwThen
  return .mk condition (← deeper.block)

/-- Clauses behind `elseif`. -/
def elseifs (deeper : Nested) (first : Clause) : Parse (List Clause) :=
  further .kwElseif (clause deeper) [first]

/-- `if clause {elseif clause} [else block] end` -/
def branchStat (deeper : Nested) : Parse Stat := do
  let t ← advance
  let first ← clause deeper
  let clauses ← elseifs deeper first
  let otherwise ← if (← accept .kwElse).isSome then some <$> deeper.block else pure none
  let close ← expectEnd .kwEnd .kwIf t.location
  pure (.branch clauses otherwise (t.location.cover close.location))

/-- The rest of `for var = start, limit [, step] do block end` behind the equals sign. -/
def numericForStat (deeper : Nested) (opener : Location) (var : Ident) : Parse Stat := do
  let start ← deeper.fullExp
  let _ ← expect .comma
  let limit ← deeper.fullExp
  let step ← if (← accept .comma).isSome then some <$> deeper.fullExp else pure none
  let _ ← expect .kwDo
  let body ← deeper.block
  let close ← expectEnd .kwEnd .kwFor opener
  pure (.numericFor var start limit step body (opener.cover close.location))

/-- Further names behind commas. -/
def moreNames (first : Ident) : Parse (List Ident) :=
  further .comma (expectName .comma) [first]

/-- The rest of `for name {, name} in exps do block end` behind the first name. -/
def genericForStat (deeper : Nested) (opener : Location) (first : Ident) : Parse Stat := do
  let names ← moreNames first
  let _ ← expect .kwIn
  let exps ← deeper.expList
  let _ ← expect .kwDo
  let body ← deeper.block
  let close ← expectEnd .kwEnd .kwFor opener
  pure (.genericFor names exps body (opener.cover close.location))

/-- A loop over numbers if an equals sign follows the first name, over values otherwise. -/
def forStat (deeper : Nested) : Parse Stat := do
  let t ← advance
  let first ← expectName .kwFor
  if (← accept .singleEquals).isSome then numericForStat deeper t.location first
  else genericForStat deeper t.location first

/-- One more word of the field that a function declaration names; none follows behind a colon. -/
def targetRound (target : Exp × Bool) : Parse (Round (Exp × Bool)) := do
  let k := (← current).kind
  if k = .dot ∨ k = .colon then
    let _ ← advance
    let name ← expectName k
    let field := .index target.1 (nameKey name) (target.1.place.cover name.location)
    pure (if k = .colon then .done (field, true) else .again (field, false))
  else pure (.done (target.1, false))

/-- The field that a function declaration names, and whether a colon stands before its last word. -/
def functionTarget (first : Ident) : Parse (Exp × Bool) :=
  loop targetRound (.name first.text first.location, false)

/-- `function name {. name} [: name] body`, an assignment of the function to the field. -/
def functionStat (deeper : Nested) : Parse Stat := do
  let t ← advance
  let first ← expectName .kwFunction
  let (target, isMethod) ← functionTarget first
  let value ← functionBody deeper t.location isMethod
  pure (.assign [target] [value] (t.location.cover value.place))

/-- `function name body` behind `local`. -/
def localFunctionStat (deeper : Nested) (opener : Location) : Parse Stat := do
  let t ← advance
  let name ← expectName .kwFunction
  let value ← functionBody deeper t.location false
  pure (.localFunction name value (opener.cover value.place))

/-- The attribute behind a name, and the closing bracket. -/
def attrib (opener : Location) : Parse (Option Attribute × Location) := do
  let name ← expectName .less
  let value := Attribute.ofName? name.text
  if value.isNone ∧ name.valid then report (.unknownAttribute name.text) name.location
  let close ← expectEnd .greater .less opener
  pure (value, close.location)

/-- A local name with its attribute, and the location of both. -/
def localName : Parse (Ident × Location) := do
  let name ← expectName .kwLocal
  match ← accept .less with
  | some opener =>
    let (value, close) ← attrib opener.location
    pure ({ name with attrib := value }, name.location.cover close)
  | none => pure (name, name.location)

/-- `name [<attribute>] {, name [<attribute>]} [= exps]` behind `local`. -/
def localsStat (deeper : Nested) (opener : Location) : Parse Stat := do
  let names ← commaList localName
  let values ← if (← accept .singleEquals).isSome then deeper.expList else pure []
  let place := opener.coverAll (names.map (·.2) ++ values.map Exp.place)
  pure (.locals (names.map (·.1)) values place)

/-- What starts with `local`. -/
def localStat (deeper : Nested) : Parse Stat := do
  let t ← advance
  if ← at? .kwFunction then localFunctionStat deeper t.location else localsStat deeper t.location

/-- Further targets of an assignment behind commas. -/
def moreTargets (deeper : Nested) (first : Exp) : Parse (List Exp) :=
  further .comma (suffixed deeper) [first]

/-- Reports an expression that cannot be assigned to, unless it is bad already. -/
def checkTarget (e : Exp) : Parse Unit :=
  unless e.isAssignable || e.isBad do report .invalidTarget e.place

/-- The rest of `targets = values` behind the first target. -/
def assignStat (deeper : Nested) (first : Exp) : Parse Stat := do
  let targets ← moreTargets deeper first
  targets.forM checkTarget
  let _ ← expect .singleEquals
  let values ← deeper.expList
  pure (.assign targets values (first.place.coverAll ((targets ++ values).map Exp.place)))

/-- A call or an assignment. Nothing is left of an expression that could not be read. -/
def expStat (deeper : Nested) : Parse (Option Stat) := do
  let first ← suffixed deeper
  let k := (← current).kind
  if k = .singleEquals ∨ k = .comma then some <$> assignStat deeper first
  else if first.isCall then pure (some (.call first first.place))
  else if first.isBad then pure none
  else some <$> assignStat deeper first

/-- `return [exps] [;]` -/
def returnStat (deeper : Nested) : Parse Stat := do
  let t ← advance
  let k := (← current).kind
  let values ← if k.isBlockEnd ∨ k = .semicolon then pure [] else deeper.expList
  let place := t.location.coverAll (values.map Exp.place)
  let close ← accept .semicolon
  pure (.ret values (place.cover? (close.map (·.location))))

/-- A statement other than `return`. Empty statements and illegal tokens leave nothing behind. -/
def statement (deeper : Nested) : Parse (Option Stat) := do
  match (← current).kind with
  | .semicolon | .illegal =>
    let _ ← advance
    pure none
  | .kwBreak =>
    let t ← advance
    pure (some (.breakOut t.location))
  | .doubleColon => some <$> labelStat
  | .kwGoto => some <$> gotoStat
  | .kwDo => some <$> scopeStat deeper
  | .kwWhile => some <$> whileStat deeper
  | .kwRepeat => some <$> repeatStat deeper
  | .kwIf => some <$> branchStat deeper
  | .kwFor => some <$> forStat deeper
  | .kwFunction => some <$> functionStat deeper
  | .kwLocal => some <$> localStat deeper
  | _ => expStat deeper

/-! ## Sequences of statements -/

/-- Skips one more token of a line, unless it can only begin a statement or end a block. -/
def skipRound (line : Nat) (_ : Unit) : Parse (Round Unit) := do
  let t ← current
  if t.location.start.line ≠ line ∨ t.kind.isBlockEnd ∨ t.kind.isStatementStart then
    pure (.done ())
  else
    let _ ← advance
    pure (.again ())

/-- Skips what is left of the line of the latest error. An error in front of the token taken last
has been recovered from already. -/
def skipErrorLine : Parse Unit := do
  let place ← reported
  unless place.start < (← previous).start do
    loop (skipRound place.start.line) ()

/-- One more statement of a block, if there is one; a `return` is the last of them. -/
def statementRound (deeper : Nested) (stats : List Stat) : Parse (Round (List Stat)) := do
  let k := (← current).kind
  let before ← reports
  if k.isBlockEnd then pure (.done stats)
  else if k = .kwReturn then
    let stat ← returnStat deeper
    pure (.done (stats ++ [stat]))
  else
    let stat ← statement deeper
    if before < (← reports) then skipErrorLine
    pure (.again (stats ++ stat.toList))

/-- Statements up to the end of a block, behind those that are read already. -/
def statements (deeper : Nested) (stats : List Stat) : Parse (List Stat) :=
  loop (statementRound deeper) stats

/-- The block of the given statements, which ends in front of the current token. -/
def finish (stats : List Stat) : Parse Block := do
  match stats.head?, stats.getLast? with
  | some first, some last => pure (.mk stats (first.place.cover last.place))
  | _, _ => return .mk stats (.point (← current).location.start)

/-- A block. -/
def block (deeper : Nested) : Parse Block := do
  let stats ← statements deeper []
  finish stats

/-- The readers that may go `n` levels down. -/
def nested : Nat → Nested
  | 0 => .bottom
  | n + 1 =>
    let deeper := nested n
    ⟨subexpression deeper, block deeper⟩

/-- Statements up to the end of input or to a token that ends a block. With nothing to end, such a
token is reported and skipped. -/
def chunkRound (deeper : Nested) (stats : List Stat) : Parse (Round (List Stat)) := do
  let stats ← statements deeper stats
  if ← at? .eof then pure (.done stats)
  else
    report (.unexpectedToken Kind.eof.toString (← found)) (← current).location
    let _ ← advance
    pure (.again stats)

/-- The statements up to the end of input. -/
def rootBlock (deeper : Nested) : Parse Block := do
  let stats ← loop (chunkRound deeper) []
  finish stats

/-- A whole program. The error of its first token may be one too many already. -/
def chunk (deeper : Nested) : Parse Block := do
  check
  rootBlock deeper

end LuaFront.Parse
