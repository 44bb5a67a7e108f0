import LuaFront.Build.Expression
import LuaFront.Parse.Statement

/-!
# Reading statements into an arena

Statements are added behind their parts, and blocks behind their statements. A function declaration
adds the field that it names word by word, the function, and an assignment of one to the other. An
expression that begins a statement is the first target of an assignment or the call itself; if it
could not be read, it stays in the arena without a parent.
-/

namespace LuaFront.Build

open Parse (Round advance accept at? current expect expectEnd expectName found report reports)

/-- `goto name` -/
def gotoStat : Build StatId := do
  let goto ← advance
  let name ← expectName .kwGoto
  addStat (.goto name (goto.location.cover name.location))

/-- `::name::` -/
def labelStat : Build StatId := do
  let opener ← advance
  let name ← expectName .doubleColon
  let close ← expect .doubleColon
  addStat (.label name (opener.location.cover close.location))

/-- `do block end` -/
def scopeStat (deeper : Nested) : Build StatId := do
  let t ← advance
  let body ← deeper.block
  let close ← expectEnd .kwEnd .kwDo t.location
  addStat (.scope body (t.location.cover close.location))

/-- `while condition do block end` -/
def whileStat (deeper : Nested) : Build StatId := do
  let t ← advance
  let condition ← deeper.fullExp
  let _ ← expect .kwDo
  let body ← deeper.block
  let close ← expectEnd .kwEnd .kwWhile t.location
  addStat (.whileLoop condition body (t.location.cover close.location))

/-- `repeat block until condition` -/
def repeatStat (deeper : Nested) : Build StatId := do
  let t ← advance
  let body ← deeper.block
  let _ ← expectEnd .kwUntil .kwRepeat t.location
  let condition ← deeper.fullExp
  let place := t.location.cover (← expPlace condition)
  addStat (.repeatLoop body condition place)

/-- `condition then block` -/
def clause (deeper : Nested) : Build (ClauseCell ExpId BlockId) := do
  let condition ← deeper.fullExp
  let _ ← expect .kwThen
  return ⟨condition, ← deeper.block⟩

/-- Clauses behind `elseif`. -/
def elseifs (deeper : Nested) (first : ClauseCell ExpId BlockId) :
    Build (List (ClauseCell ExpId BlockId)) :=
  further .kwElseif (clause deeper) [first]

/-- `if clause {elseif clause} [else block] end` -/
def branchStat (deeper : Nested) : Build StatId := do
  let t ← advance
  let first ← clause deeper
  let clauses ← elseifs deeper first
  let otherwise ← if (← accept .kwElse).isSome then some <$> deeper.block else pure none
  let close ← expectEnd .kwEnd .kwIf t.location
  addStat (.branch clauses otherwise (t.location.cover close.location))

/-- The rest of `for var = start, limit [, step] do block end` behind the equals sign. -/
def numericForStat (deeper : Nested) (opener : Location) (var : Ident) : Build StatId := do
  let start ← deeper.fullExp
  let _ ← expect .comma
  let limit ← deeper.fullExp
  let step ← if (← accept .comma).isSome then some <$> deeper.fullExp else pure none
  let _ ← expect .kwDo
  let body ← deeper.block
  let close ← expectEnd .kwEnd .kwFor opener
  addStat (.numericFor var start limit step body (opener.cover close.location))

/-- The rest of `for name {, name} in exps do block end` behind the first name. -/
def genericForStat (deeper : Nested) (opener : Location) (first : Ident) : Build StatId := do
  let names ← Parse.moreNames first
  let _ ← expect .kwIn
  let exps ← deeper.expList
  let _ ← expect .kwDo
  let body ← deeper.block
  let close ← expectEnd .kwEnd .kwFor opener
  addStat (.genericFor names exps body (opener.cover close.location))

/-- A loop over numbers if an equals sign follows the first name, over values otherwise. -/
def forStat (deeper : Nested) : Build StatId := do
  let t ← advance
  let first ← expectName .kwFor
  if (← accept .singleEquals).isSome then numericForStat deeper t.location first
  else genericForStat deeper t.location first

/-- One more word of the field that a function declaration names; none follows behind a colon. -/
def targetRound (target : ExpId × Bool) : Build (Round (ExpId × Bool)) := do
  let k := (← current).kind
  if k = .dot ∨ k = .colon then
    let _ ← advance
    let name ← expectName k
    let key ← nameKey name
    let place := (← expPlace target.1).cover (← expPlace key)
    let field ← addExp (.index target.1 key place)
    pure (if k = .colon then .done (field, true) else .again (field, false))
  else pure (.done (target.1, false))

/-- The field that a function declaration names, and whether a colon stands before its last word. -/
def functionTarget (first : Ident) : Build (ExpId × Bool) := do
  let target ← addExp (.name first.text first.location)
  loop targetRound (target, false)

/-- `function name {. name} [: name] body`, an assignment of the function to the field. -/
def functionStat (deeper : Nested) : Build StatId := do
  let t ← advance
  let first ← expectName .kwFunction
  let (target, isMethod) ← functionTarget first
  let value ← functionBody deeper t.location isMethod
  let place := t.location.cover (← expPlace value)
  addStat (.assign [target] [value] place)

/-- `function name body` behind `local`. -/
def localFunctionStat (deeper : Nested) (opener : Location) : Build StatId := do
  let t ← advance
  let name ← expectName .kwFunction
  let value ← functionBody deeper t.location false
  let place := opener.cover (← expPlace value)
  addStat (.localFunction name value place)

/-- `name [<attribute>] {, name [<attribute>]} [= exps]` behind `local`. -/
def localsStat (deeper : Nested) (opener : Location) : Build StatId := do
  let names ← Parse.commaList Parse.localName
  let values ← if (← accept .singleEquals).isSome then deeper.expList else pure []
  let places ← values.mapM expPlace
  addStat (.locals (names.map (·.1)) values (opener.coverAll (names.map (·.2) ++ places)))

/-- What starts with `local`. -/
def localStat (deeper : Nested) : Build StatId := do
  let t ← advance
  if ← at? .kwFunction then localFunctionStat deeper t.location else localsStat deeper t.location

/-- Further targets of an assignment behind commas. -/
def moreTargets (deeper : Nested) (first : ExpId) : Build (List ExpId) :=
  further .comma (suffixed deeper) [first]

/-- Reports an expression that cannot be assigned to, unless it is bad already. -/
def checkTarget (i : ExpId) : Build Unit := do
  let e ← exp i
  unless e.isAssignable || e.isBad do report .invalidTarget e.place

/-- The rest of `targets = values` behind the first target. -/
def assignStat (deeper : Nested) (first : ExpId) : Build StatId := do
  let targets ← moreTargets deeper first
  targets.forM checkTarget
  let _ ← expect .singleEquals
  let values ← deeper.expList
  let places ← (targets ++ values).mapM expPlace
  let place := (← expPlace first).coverAll places
  addStat (.assign targets values place)

/-- A call or an assignment. Nothing is left of an expression that could not be read. -/
def expStat (deeper : Nested) : Build (Option StatId) := do
  let first ← suffixed deeper
  let k := (← current).kind
  if k = .singleEquals ∨ k = .comma then some <$> assignStat deeper first
  else
    let e ← exp first
    if e.isCall then some <$> addStat (.call first e.place)
    else if e.isBad then pure none
    else some <$> assignStat deeper first

/-- `return [exps] [;]` -/
def returnStat (deeper : Nested) : Build StatId := do
  let t ← advance
  let k := (← current).kind
  let values ← if k.isBlockEnd ∨ k = .semicolon then pure [] else deeper.expList
  let places ← values.mapM expPlace
  let close ← accept .semicolon
  addStat (.ret values ((t.location.coverAll places).cover? (close.map (·.location))))

/-- A statement other than `return`. Empty statements and illegal tokens leave nothing behind. -/
def statement (deeper : Nested) : Build (Option StatId) := do
  match (← current).kind with
  | .semicolon | .illegal =>
    let _ ← advance
    pure none
  | .kwBreak =>
    let t ← advance
    some <$> addStat (.breakOut t.location)
  | .doubleColon => some <$> labelStat
  | .kwGoto => some <$> gotoStat
  | .kwDo => some <$> scopeStat deeper
  | .kwWhile => some <$> whileStat deeper
  | .kwRepeat => some <$> repeatStat deeper
  | .kwIf => some <$> branchStat deeper
  | .kwFor => some <$> forStat deeper
  | .kwFunction => some <$> functionStat deeper
  | .kwLocal => some <$> localStat deeper
  | _ => expStat deeper

/-! ## Sequences of statements -/

/-- One more statement of a block, if there is one; a `return` is the last of them. -/
def statementRound (deeper : Nested) (stats : List StatId) : Build (Round (List StatId)) := do
  let k := (← current).kind
  let before ← reports
  if k.isBlockEnd then pure (.done stats)
  else if k = .kwReturn then
    let stat ← returnStat deeper
    pure (.done (stats ++ [stat]))
  else
    let stat ← statement deeper
    if before < (← reports) then Parse.skipErrorLine
    pure (.again (stats ++ stat.toList))

/-- Statements up to the end of a block, behind those that are read already. -/
def statements (deeper : Nested) (stats : List StatId) : Build (List StatId) :=
  loop (statementRound deeper) stats

/-- The block of the given statements, which ends in front of the current token. -/
def finish (stats : List StatId) : Build BlockId := do
  let t ← current
  match stats.head?, stats.getLast? with
  | some first, some last =>
    let place := (← statPlace first).cover (← statPlace last)
    addBlock ⟨stats, place⟩ t
  | _, _ => addBlock ⟨stats, .point t.location.start⟩ t

/-- A block. -/
def block (deeper : Nested) : Build BlockId := do
  let stats ← statements deeper []
  finish stats

/-- The readers that may go `n` levels down. -/
def nested : Nat → Nested
  | 0 => .bottom
  | n + 1 =>
    let deeper := nested n
    ⟨subexpression deeper, block deeper⟩

/-- Statements up to the end of input or to a token that ends a block. With nothing to end, such a
token is reported and skipped. -/
def chunkRound (deeper : Nested) (stats : List StatId) : Build (Round (List StatId)) := do
  let stats ← statements deeper stats
  if ← at? .eof then pure (.done stats)
  else
    report (.unexpectedToken Kind.eof.toString (← found)) (← current).location
    let _ ← advance
    pure (.again stats)

/-- The statements up to the end of input. -/
def rootBlock (deeper : Nested) : Build BlockId := do
  let stats ← loop (chunkRound deeper) []
  finish stats

/-- A whole program. The error of its first token may be one too many already. -/
def chunk (deeper : Nested) : Build BlockId := do
  Parse.check
  rootBlock deeper

end LuaFront.Build
