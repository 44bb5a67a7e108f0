import LuaFront.Proofs.Loops

/-!
# Routines

A reader is a function, and does not show how it goes about its work: where it loops, and where it
goes one level further down. A `Routine` shows both. It is put together from actions on the state,
loops, and calls of the two readers of one level further down, and `Routine.read` is the reader that
it stands for.

For every reader that is put together from others, `Coded` keeps such a routine, one for all levels.
Its loops are the loops of the reader, and come with the proof that their rounds take tokens. No
routine contains itself: only a call leads to the routines for expressions and blocks again.

* `Routine.wellFounded_part`: going from routines to their parts ends.
* `Coded.subexpression`, `Coded.block`, `Coded.chunk`: the routines for expressions, blocks and
  programs.
-/

namespace LuaFront.Parse

variable {α β : Type}

/-! ## Routines and what they stand for -/

/-- Readers that neither loop nor go further down. -/
inductive Action : Type → Type 1
  | look {α : Type} (f : State → α) : Action α
  | check : Action Unit
  | report (cause : Cause) (place : Location) : Action Unit
  | advance : Action Token
  | peek : Action Kind

def Action.read : {α : Type} → Action α → Parse α
  | _, look f => fun s => .ok (f s) s
  | _, check => Parse.check
  | _, report cause place => Parse.report cause place
  | _, advance => Parse.advance
  | _, peek => Parse.peek

/-- What can be read one level further down. -/
inductive Call : Type → Type
  | exp (limit : Nat) : Call Exp
  | block : Call Block

def Nested.read (deeper : Nested) : {α : Type} → Call α → Parse α
  | _, .exp limit => deeper.exp limit
  | _, .block => deeper.block

/-- A program that reads. -/
inductive Routine : Type → Type 1
  | pure {α : Type} (a : α) : Routine α
  | bind {α β : Type} (r : Routine β) (f : β → Routine α) : Routine α
  | act {α : Type} (a : Action α) : Routine α
  | loop {α : Type} (body : α → Routine (Round α)) (a : α) : Routine α
  | call {α : Type} (c : Call α) : Routine α

namespace Routine

/-- The reader that a routine stands for. -/
def read (deeper : Nested) : {α : Type} → Routine α → Parse α
  | _, pure a => Pure.pure a
  | _, bind r f => r.read deeper >>= fun b => (f b).read deeper
  | _, act a => a.read
  | _, loop body a => Parse.loop (fun a => (body a).read deeper) a
  | _, call c => deeper.read c

/-- On every level, the rounds of the loops take tokens. -/
def Sound : {α : Type} → Routine α → Prop
  | _, pure _ | _, act _ | _, call _ => True
  | _, bind r f => r.Sound ∧ ∀ b, (f b).Sound
  | _, loop body _ =>
    (∀ a, (body a).Sound) ∧ ∀ n, Advances fun a => (body a).read (nested n)

/-- The routines that a routine is directly made of. -/
inductive Part : (Σ α, Routine α) → (Σ α, Routine α) → Prop
  | first {α β : Type} {r : Routine β} {f : β → Routine α} : Part ⟨β, r⟩ ⟨α, .bind r f⟩
  | second {α β : Type} {r : Routine β} {f : β → Routine α} (b : β) : Part ⟨α, f b⟩ ⟨α, .bind r f⟩
  | round {α : Type} {body : α → Routine (Round α)} (a b : α) :
      Part ⟨Round α, body b⟩ ⟨α, .loop body a⟩

/-- No routine is a part of itself, however far down. -/
theorem wellFounded_part : WellFounded Part := by
  refine ⟨fun ⟨α, r⟩ => ?_⟩
  induction r with
  | pure a => exact ⟨_, fun q part => nomatch part⟩
  | act a => exact ⟨_, fun q part => nomatch part⟩
  | call c => exact ⟨_, fun q part => nomatch part⟩
  | bind r f first second =>
    refine ⟨_, fun q part => ?_⟩
    cases part with
    | first => exact first
    | second b => exact second b
  | loop body a round =>
    refine ⟨_, fun q part => ?_⟩
    cases part with
    | round _ b => exact round b

end Routine

/-- A routine for a reader, whatever is read one level further down. -/
structure Coded (p : Nested → Parse α) where
  routine : Routine α
  sound : routine.Sound
  read_eq : ∀ deeper, routine.read deeper = p deeper

namespace Coded

/-! ## Rules -/

protected def pure (a : α) : Coded fun _ => pure a where
  routine := .pure a
  sound := trivial
  read_eq _ := rfl

protected def bind {p : Nested → Parse β} {q : β → Nested → Parse α} (r : Coded p)
    (f : ∀ b, Coded (q b)) : Coded fun deeper => p deeper >>= fun b => q b deeper where
  routine := .bind r.routine fun b => (f b).routine
  sound := ⟨r.sound, fun b => (f b).sound⟩
  read_eq deeper := by
    show r.routine.read deeper >>= (fun b => (f b).routine.read deeper) = _
    simp only [r.read_eq, (f _).read_eq]

protected def map {p : Nested → Parse β} {f : β → α} (r : Coded p) :
    Coded fun deeper => f <$> p deeper where
  routine := .bind r.routine fun b => .pure (f b)
  sound := ⟨r.sound, fun _ => trivial⟩
  read_eq deeper := by
    rw [map_eq_pure_bind, ← r.read_eq]
    rfl

protected def ite {c : Prop} [Decidable c] {p q : Nested → Parse α} (yes : Coded p)
    (no : Coded q) : Coded fun deeper => if c then p deeper else q deeper where
  routine := if c then yes.routine else no.routine
  sound := by
    split
    · exact yes.sound
    · exact no.sound
  read_eq deeper := by
    split
    · exact yes.read_eq deeper
    · exact no.read_eq deeper

def act (a : Action α) : Coded fun _ => a.read where
  routine := .act a
  sound := trivial
  read_eq _ := rfl

protected def loop {p : Nested → α → Parse (Round α)} (body : ∀ a, Coded fun deeper => p deeper a)
    (advances : ∀ n, Advances (p (nested n))) (a : α) :
    Coded fun deeper => Parse.loop (p deeper) a where
  routine := .loop (fun a => (body a).routine) a
  sound := by
    refine ⟨fun a => (body a).sound, fun n => ?_⟩
    simp only [(body _).read_eq]
    exact advances n
  read_eq deeper := by
    show Parse.loop (fun a => (body a).routine.read deeper) a = _
    simp only [(body _).read_eq]

/-- An expression one level further down. -/
def exp (limit : Nat) : Coded fun deeper => deeper.exp limit where
  routine := .call (.exp limit)
  sound := trivial
  read_eq _ := rfl

/-- A block one level further down. -/
def body : Coded fun deeper => deeper.block where
  routine := .call .block
  sound := trivial
  read_eq _ := rfl

/-! ## Readers of one token -/

def current : Coded fun _ => Parse.current := act (.look (·.current))

def at? (k : Kind) : Coded fun _ => Parse.at? k := act (.look fun s => decide (s.current.kind = k))

def found : Coded fun _ => Parse.found := act (.look (·.current.describe))

def reports : Coded fun _ => Parse.reports := act (.look (·.reports))

def reported : Coded fun _ => Parse.reported := act (.look (·.reported))

def previous : Coded fun _ => Parse.previous := act (.look (·.previous))

def check : Coded fun _ => Parse.check := act .check

def report (cause : Cause) (place : Location) : Coded fun _ => Parse.report cause place :=
  act (.report cause place)

def advance : Coded fun _ => Parse.advance := act .advance

def peek : Coded fun _ => Parse.peek := act .peek

def accept (k : Kind) : Coded fun _ => Parse.accept k :=
  (at? k).bind fun _ => .ite advance.map (.pure none)

def expect (k : Kind) : Coded fun _ => Parse.expect k :=
  (at? k).bind fun _ => .ite advance <|
    found.bind fun _ => current.bind fun t => (report _ t.location).bind fun _ => advance

def expectEnd (k opener : Kind) (place : Location) :
    Coded fun _ => Parse.expectEnd k opener place :=
  (at? k).bind fun _ => .ite advance <|
    found.bind fun _ => current.bind fun t => (report _ t.location).bind fun _ => advance

def expectName (k : Kind) : Coded fun _ => Parse.expectName k :=
  (at? _).bind fun _ => .ite (advance.bind fun _ => .pure _) <|
    current.bind fun t => found.bind fun _ => (report _ t.location).bind fun _ => .pure _

/-! ## Lists -/

def further {separator : Kind} (hk : separator ≠ .eof) {item : Nested → Parse α} (r : Coded item)
    (composed : ∀ n, Composed (item (nested n))) (xs : List α) :
    Coded fun deeper => Parse.further separator (item deeper) xs :=
  .loop
    (fun _ => (accept _).bind fun _ => .ite (r.bind fun _ => .pure _) (.pure _))
    (fun n => advances_furtherRound hk (composed n)) xs

def commaList {item : Nested → Parse α} (r : Coded item)
    (composed : ∀ n, Composed (item (nested n))) :
    Coded fun deeper => Parse.commaList (item deeper) :=
  r.bind fun _ => r.further (by decide) composed _

def expList : Coded Nested.expList := (exp 0).commaList fun n => (composed_nested n).exp 0

/-! ## Expressions -/

def numeral (t : Token) : Coded fun _ => Parse.numeral t := by
  unfold Parse.numeral
  cases Numeral.value? t.text.toList with
  | none => exact (report _ t.location).bind fun _ => .pure _
  | some value =>
    cases value with
    | integer value => exact .pure _
    | float value => exact .pure _

def field : Coded Parse.field := by
  have rest : ∀ named : Bool, Coded fun deeper => (if named = true then (do
      let name ← Parse.advance
      let _ ← Parse.advance
      return Field.keyed (.string name.text name.location) (← deeper.fullExp))
      else (do return Field.item (← deeper.fullExp))) := fun named =>
    .ite (advance.bind fun _ => advance.bind fun _ => (exp 0).bind fun _ => .pure _)
      ((exp 0).bind fun _ => .pure _)
  refine (accept _).bind fun bracket => ?_
  cases bracket with
  | some bracket =>
    exact (exp 0).bind fun _ => (expectEnd _ _ _).bind fun _ => (expect _).bind fun _ =>
      (exp 0).bind fun _ => .pure _
  | none => exact (at? _).bind fun _ => .ite (peek.bind fun _ => rest _) (rest false)

def fieldRound (fs : List Field) : Coded fun deeper => Parse.fieldRound deeper fs :=
  current.bind fun _ => .ite (.pure _) <| field.bind fun _ => current.bind fun _ =>
    .ite (advance.bind fun _ => .pure _) (.pure _)

def fields : Coded Parse.fields :=
  .loop fieldRound (fun n => advances_fieldRound (composed_nested n)) []

def table : Coded Parse.table :=
  advance.bind fun _ => fields.bind fun _ => (expectEnd _ _ _).bind fun _ => .pure _

def paramRound (ps : List Ident × Bool) : Coded fun _ => Parse.paramRound ps :=
  (accept _).bind fun _ => .ite (.pure _) <| (expectName _).bind fun _ =>
    (accept _).bind fun _ => .ite (.pure _) (.pure _)

def params : Coded fun _ => Parse.params :=
  (at? _).bind fun _ => .ite (.pure _) (.loop paramRound (fun _ => advances_paramRound) _)

def functionBody (start : Location) (isMethod : Bool) :
    Coded fun deeper => Parse.functionBody deeper start isMethod :=
  (expect _).bind fun _ => params.bind fun _ => (expectEnd _ _ _).bind fun _ =>
    body.bind fun _ => (expectEnd _ _ _).bind fun _ => .pure _

def arguments (before : Location) : Coded fun deeper => Parse.arguments deeper before := by
  refine current.bind fun t => ?_
  cases t.kind
  case leftParen =>
    exact advance.bind fun _ => (at? _).bind fun _ =>
      .ite ((expectEnd _ _ _).bind fun _ => .pure _)
        (expList.bind fun _ => (expectEnd _ _ _).bind fun _ => .pure _)
  case leftBrace => exact table.bind fun _ => .pure _
  case string => exact advance.bind fun _ => .pure _
  all_goals
    exact found.bind fun _ => current.bind fun t => (report _ t.location).bind fun _ => .pure _

def primary : Coded Parse.primary := by
  refine current.bind fun t => ?_
  have rest : ∀ k : Kind, Coded fun _ => (do
      unless k.isBlockEnd do let _ ← Parse.advance
      pure (Exp.bad t.location)) := fun k =>
    .ite (.pure _) (advance.bind fun _ => .pure _)
  cases t.kind
  case ident => exact advance.bind fun _ => .pure _
  case leftParen =>
    exact advance.bind fun _ => (exp 0).bind fun _ => (expectEnd _ _ _).bind fun _ => .pure _
  all_goals exact .ite (rest _) ((report _ t.location).bind fun _ => rest _)

def suffix (e : Exp) : Coded fun deeper => Parse.suffix deeper e := by
  refine current.bind fun t => ?_
  cases t.kind
  case dot => exact advance.bind fun _ => (expectName _).bind fun _ => .pure _
  case leftBracket =>
    exact advance.bind fun _ => (exp 0).bind fun _ => (expectEnd _ _ _).bind fun _ => .pure _
  case colon =>
    exact advance.bind fun _ => (expectName _).bind fun _ => (arguments _).bind fun _ => .pure _
  case leftParen => exact (arguments _).bind fun _ => .pure _
  case leftBrace => exact (arguments _).bind fun _ => .pure _
  case string => exact (arguments _).bind fun _ => .pure _
  all_goals exact .pure _

def suffixed : Coded Parse.suffixed :=
  primary.bind fun _ => .loop suffix (fun n => advances_suffix (composed_nested n)) _

def simple : Coded Parse.simple := by
  refine current.bind fun t => ?_
  cases t.kind
  case kwNil => exact advance.bind fun _ => .pure _
  case kwTrue => exact advance.bind fun _ => .pure _
  case kwFalse => exact advance.bind fun _ => .pure _
  case vararg => exact advance.bind fun _ => .pure _
  case number => exact advance.bind fun t => numeral t
  case string => exact advance.bind fun _ => .pure _
  case leftBrace => exact table
  case kwFunction => exact advance.bind fun _ => functionBody _ _
  all_goals exact suffixed

def operand : Coded Parse.operand := by
  refine current.bind fun t => ?_
  cases UnaryOp.ofKind? t.kind with
  | some op => exact advance.bind fun _ => (exp _).bind fun _ => .pure _
  | none => exact simple

def operation (limit : Nat) (lhs : Exp) :
    Coded fun deeper => Parse.operation deeper limit lhs := by
  refine current.bind fun t => ?_
  cases BinaryOp.ofKind? t.kind with
  | some op => exact .ite (.pure _) (advance.bind fun _ => (exp _).bind fun _ => .pure _)
  | none => exact .pure _

def subexpression (limit : Nat) : Coded fun deeper => Parse.subexpression deeper limit :=
  operand.bind fun _ =>
    .loop (operation limit) (fun n => advances_operation (composed_nested n) limit) _

/-! ## Statements -/

def gotoStat : Coded fun _ => Parse.gotoStat :=
  advance.bind fun _ => (expectName _).bind fun _ => .pure _

def labelStat : Coded fun _ => Parse.labelStat :=
  advance.bind fun _ => (expectName _).bind fun _ => (expect _).bind fun _ => .pure _

def scopeStat : Coded Parse.scopeStat :=
  advance.bind fun _ => body.bind fun _ => (expectEnd _ _ _).bind fun _ => .pure _

def whileStat : Coded Parse.whileStat :=
  advance.bind fun _ => (exp 0).bind fun _ => (expect _).bind fun _ => body.bind fun _ =>
    (expectEnd _ _ _).bind fun _ => .pure _

def repeatStat : Coded Parse.repeatStat :=
  advance.bind fun _ => body.bind fun _ => (expectEnd _ _ _).bind fun _ =>
    (exp 0).bind fun _ => .pure _

def clause : Coded Parse.clause :=
  (exp 0).bind fun _ => (expect _).bind fun _ => body.bind fun _ => .pure _

def elseifs (first : Clause) : Coded fun deeper => Parse.elseifs deeper first :=
  clause.further (by decide) (fun n => composed_clause (composed_nested n)) [first]

def branchStat : Coded Parse.branchStat := by
  refine advance.bind fun t => clause.bind fun first => (elseifs first).bind fun clauses => ?_
  have rest : ∀ otherwise, Coded fun _ => (do
      let close ← Parse.expectEnd .kwEnd .kwIf t.location
      pure (Stat.branch clauses otherwise (t.location.cover close.location))) := fun _ =>
    (expectEnd _ _ _).bind fun _ => .pure _
  exact (accept _).bind fun _ => .ite (body.map.bind rest) (rest none)

def numericForStat (opener : Location) (var : Ident) :
    Coded fun deeper => Parse.numericForStat deeper opener var := by
  refine (exp 0).bind fun start => (expect _).bind fun _ => (exp 0).bind fun limit => ?_
  have rest : ∀ step, Coded fun deeper => (do
      let _ ← Parse.expect .kwDo
      let body ← deeper.block
      let close ← Parse.expectEnd .kwEnd .kwFor opener
      pure (Stat.numericFor var start limit step body (opener.cover close.location))) := fun _ =>
    (expect _).bind fun _ => body.bind fun _ => (expectEnd _ _ _).bind fun _ => .pure _
  exact (accept _).bind fun _ => .ite ((exp 0).map.bind rest) (rest none)

def moreNames (first : Ident) : Coded fun _ => Parse.moreNames first :=
  (expectName _).further (by decide) (fun _ => composed_expectName _) [first]

def genericForStat (opener : Location) (first : Ident) :
    Coded fun deeper => Parse.genericForStat deeper opener first :=
  (moreNames first).bind fun _ => (expect _).bind fun _ => expList.bind fun _ =>
    (expect _).bind fun _ => body.bind fun _ => (expectEnd _ _ _).bind fun _ => .pure _

def forStat : Coded Parse.forStat :=
  advance.bind fun _ => (expectName _).bind fun _ => (accept _).bind fun _ =>
    .ite (numericForStat _ _) (genericForStat _ _)

def targetRound (target : Exp × Bool) : Coded fun _ => Parse.targetRound target :=
  current.bind fun _ => .ite
    (advance.bind fun _ => (expectName _).bind fun _ => .pure _) (.pure _)

def functionTarget (first : Ident) : Coded fun _ => Parse.functionTarget first :=
  .loop targetRound (fun _ => advances_targetRound) _

def functionStat : Coded Parse.functionStat :=
  advance.bind fun _ => (expectName _).bind fun _ => (functionTarget _).bind fun _ =>
    (functionBody _ _).bind fun _ => .pure _

def localFunctionStat (opener : Location) :
    Coded fun deeper => Parse.localFunctionStat deeper opener :=
  advance.bind fun _ => (expectName _).bind fun _ => (functionBody _ _).bind fun _ => .pure _

def attrib (opener : Location) : Coded fun _ => Parse.attrib opener := by
  refine (expectName _).bind fun name => ?_
  have rest : Coded fun _ => (do
      let close ← Parse.expectEnd .greater .less opener
      pure (Attribute.ofName? name.text, close.location)) :=
    (expectEnd _ _ _).bind fun _ => .pure _
  exact .ite ((report _ name.location).bind fun _ => rest) rest

def localName : Coded fun _ => Parse.localName := by
  refine (expectName _).bind fun name => (accept _).bind fun opener => ?_
  cases opener with
  | some opener => exact (attrib _).bind fun _ => .pure _
  | none => exact .pure _

def localsStat (opener : Location) : Coded fun deeper => Parse.localsStat deeper opener :=
  (localName.commaList fun _ => composed_localName).bind fun _ => (accept _).bind fun _ =>
    .ite (expList.bind fun _ => .pure _) (.pure _)

def localStat : Coded Parse.localStat :=
  advance.bind fun _ => (at? _).bind fun _ => .ite (localFunctionStat _) (localsStat _)

def checkTarget (e : Exp) : Coded fun _ => Parse.checkTarget e :=
  .ite (.pure _) (report _ e.place)

/-- A pass over targets that have been read is as long as their list, and no loop. -/
def checkTargets : (targets : List Exp) → Coded fun _ => targets.forM Parse.checkTarget
  | [] => .pure _
  | e :: targets => (checkTarget e).bind fun _ => checkTargets targets

def moreTargets (first : Exp) : Coded fun deeper => Parse.moreTargets deeper first :=
  suffixed.further (by decide) (fun n => composed_suffixed (composed_nested n)) [first]

def assignStat (first : Exp) : Coded fun deeper => Parse.assignStat deeper first :=
  (moreTargets first).bind fun targets => (checkTargets targets).bind fun _ =>
    (expect _).bind fun _ => expList.bind fun _ => .pure _

def expStat : Coded Parse.expStat :=
  suffixed.bind fun _ => current.bind fun _ => .ite (assignStat _).map <| .ite (.pure _) <|
    .ite (.pure _) (assignStat _).map

def returnStat : Coded Parse.returnStat := by
  refine advance.bind fun t => current.bind fun _ => ?_
  have rest : ∀ values : List Exp, Coded fun _ => (do
      let place := t.location.coverAll (values.map Exp.place)
      let close ← Parse.accept .semicolon
      pure (Stat.ret values (place.cover? (close.map (·.location))))) := fun _ =>
    (accept _).bind fun _ => .pure _
  exact .ite (rest []) (expList.bind rest)

def statement : Coded Parse.statement := by
  refine current.bind fun t => ?_
  cases t.kind
  case semicolon => exact advance.bind fun _ => .pure _
  case illegal => exact advance.bind fun _ => .pure _
  case kwBreak => exact advance.bind fun _ => .pure _
  case doubleColon => exact labelStat.map
  case kwGoto => exact gotoStat.map
  case kwDo => exact scopeStat.map
  case kwWhile => exact whileStat.map
  case kwRepeat => exact repeatStat.map
  case kwIf => exact branchStat.map
  case kwFor => exact forStat.map
  case kwFunction => exact functionStat.map
  case kwLocal => exact localStat.map
  all_goals exact expStat

/-! ## Sequences of statements -/

def skipRound (line : Nat) (u : Unit) : Coded fun _ => Parse.skipRound line u :=
  current.bind fun _ => .ite (.pure _) (advance.bind fun _ => .pure _)

def skipErrorLine : Coded fun _ => Parse.skipErrorLine :=
  reported.bind fun _ => previous.bind fun _ => .ite (.pure _)
    (.loop (skipRound _) (fun _ => advances_skipRound _) _)

def statementRound (stats : List Stat) : Coded fun deeper => Parse.statementRound deeper stats :=
  current.bind fun _ => reports.bind fun _ => .ite (.pure _) <|
    .ite (returnStat.bind fun _ => .pure _) <|
      statement.bind fun _ => reports.bind fun _ =>
        .ite (skipErrorLine.bind fun _ => .pure _) (.pure _)

def statements (stats : List Stat) : Coded fun deeper => Parse.statements deeper stats :=
  .loop statementRound (fun n => advances_statementRound (composed_nested n)) stats

def finish (stats : List Stat) : Coded fun _ => Parse.finish stats := by
  unfold Parse.finish
  cases stats.head? with
  | none => exact current.bind fun _ => .pure _
  | some first =>
    cases stats.getLast? with
    | none => exact current.bind fun _ => .pure _
    | some last => exact .pure _

def block : Coded Parse.block := (statements []).bind fun stats => finish stats

def chunkRound (stats : List Stat) : Coded fun deeper => Parse.chunkRound deeper stats :=
  (statements stats).bind fun _ => (at? _).bind fun _ => .ite (.pure _) <|
    found.bind fun _ => current.bind fun t => (report _ t.location).bind fun _ =>
      advance.bind fun _ => .pure _

def rootBlock : Coded Parse.rootBlock :=
  Coded.bind (.loop chunkRound (fun n => advances_chunkRound (composed_nested n)) [])
    fun stats => finish stats

def chunk : Coded Parse.chunk := check.bind fun _ => rootBlock

end Coded

end LuaFront.Parse
