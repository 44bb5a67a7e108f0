import LuaFront.Proofs.Ensures

/-!
# Readers are put together from elementary ones

A reader is `Composed` if it is put together from readers that report an error in the order of
tokens, take a token, look at a token, or find the current token too deep. Between them a reader may
look at all of its state but the errors that are kept. All readers of expressions and statements are
composed, whatever the readers one level further down are, as long as those are composed too, and
with them the readers of every level (`composed_nested`) and of whole programs
(`composed_rootBlock`).

* `Composed.ensures`: from every state, elementary steps lead to an answer or to where reading
  stops.
* `Composed.keeps`: what each of these steps keeps holds in the end.
-/

namespace LuaFront

namespace Parse

variable {α β : Type}

/-- The state with other errors kept. -/
def State.withLog (s : State) (log : ErrorLog) : State :=
  { s with lexer := { s.lexer with log := log } }

/-- Readers that are put together from elementary ones. -/
inductive Composed : {α : Type} → Parse α → Prop
  | pure {α : Type} (a : α) : Composed (pure a)
  | bind {α β : Type} {p : Parse β} {f : β → Parse α} :
      Composed p → (∀ b, Composed (f b)) → Composed (p >>= f)
  | look {α : Type} (f : State → α) :
      (∀ s log, f (s.withLog log) = f s) → Composed (fun s => .ok (f s) s)
  | report {cause : Cause} (place : Location) :
      cause.isSyntactic → Composed (report cause place)
  | advance : Composed advance
  | peek : Composed peek
  | tooDeep {α : Type} : Composed (tooDeep : Parse α)

/-- The readers of one level further down are composed. -/
structure Nested.Composed (deeper : Nested) : Prop where
  exp : ∀ limit, Parse.Composed (deeper.exp limit)
  block : Parse.Composed deeper.block

namespace Composed

/-- From every state, elementary steps lead to an answer or to where reading stops. -/
theorem ensures {p : Parse α} (h : Composed p) (s : State) :
    Ensures p s (fun _ _ => True) fun _ => True := by
  induction h generalizing s with
  | pure a => exact .pure trivial
  | bind _ _ hp hf => exact (hp s).bind fun b s' _ _ => hf b s'
  | look f _ => exact ⟨.refl, trivial⟩
  | report place hc =>
    have hc := Cause.isMarker_of_isSyntactic hc
    exact .of_checked (run_report _ place s) (.report s place hc) (.report s place hc) trivial
      fun _ => trivial
  | advance => exact .advance_last trivial
  | peek => exact .of_checked (run_peek s) (.peek s) (.peek s) trivial fun _ => trivial
  | tooDeep => exact .tooDeep trivial

/-- What each elementary step keeps holds in the end. -/
theorem keeps {p : Parse α} (h : Composed p) {I : State → Prop}
    (report : ∀ {s cause} (place : Location), cause.isSyntactic → (s.noting cause place).Alive →
      I s → I (s.noting cause place))
    (advance : ∀ {s : State}, s.fetched.Alive → I s → I s.advanced)
    (peek : ∀ {s : State}, s.peeked.Alive → I s → I s.peeked) {s : State} (hs : I s) :
    Ensures p s (fun _ s' => I s') fun _ => True := by
  induction h generalizing s with
  | pure a => exact .pure hs
  | bind _ _ hp hf => exact (hp hs).bind fun b s' _ hs' => hf b hs'
  | look f _ => exact ⟨.refl, hs⟩
  | report place hc =>
    have ordinary := Cause.isMarker_of_isSyntactic hc
    exact .of_checked_alive (run_report _ place s) (.report s place ordinary)
      (.report s place ordinary) (report place hc · hs) fun _ => trivial
  | advance =>
    exact .of_checked_alive (run_advance s) (.advance s) (.advance s) (advance · hs) fun _ => trivial
  | peek =>
    exact .of_checked_alive (run_peek s) (.peek s) (.peek s) (peek · hs) fun _ => trivial
  | tooDeep => exact .tooDeep trivial

/-- What holds in all states that can be reached holds for the answer. -/
theorem ensures_of_steps {p : Parse α} (h : Composed p) {s : State} {Q : α → State → Prop}
    (hQ : ∀ a s', Steps s s' → Q a s') : Ensures p s Q fun _ => True :=
  (h.ensures s).imp fun a s' steps _ => hQ a s' steps

/-! ## Rules -/

theorem map {p : Parse β} {f : β → α} (hp : Composed p) : Composed (f <$> p) := by
  rw [map_eq_pure_bind]
  exact hp.bind fun b => .pure (f b)

protected theorem ite {c : Prop} [Decidable c] {p q : Parse α} (hp : Composed p)
    (hq : Composed q) : Composed (if c then p else q) := by
  split
  · exact hp
  · exact hq

theorem behind : Composed behind :=
  .look (fun s => s.stream.final :: s.stream.upcoming) fun _ _ => rfl

theorem loop {body : α → Parse (Round α)} (h : ∀ a, Composed (body a)) (a : α) :
    Composed (loop body a) := by
  have all : ∀ xs a, Composed (rounds body xs a) := by
    intro xs
    induction xs with
    | nil => exact fun a => .pure a
    | cons x xs ih =>
      refine fun a => (h a).bind fun r => ?_
      cases r with
      | again a' => exact ih a'
      | done a' => exact .pure a'
  exact behind.bind fun xs => all xs a

end Composed

/-! ## Taking a token -/

/-- From `s` on, a reader takes a token in front of the end of input. -/
def Takes (p : Parse α) (s : State) : Prop :=
  Ensures p s (fun _ s' => s'.left < s.left) fun _ => True

namespace Takes

variable {s : State}

theorem advance (hs : s.Ends) (hk : s.current.kind ≠ .eof) {f : Token → Parse α}
    (hf : ∀ t, Composed (f t)) : Takes (advance >>= f) s := by
  refine Ensures.advance ((hf _).ensures_of_steps fun a s' steps => ?_)
  exact Nat.lt_of_le_of_lt steps.left_le (hs.left_advanced_lt hk)

theorem bind {p : Parse β} {f : β → Parse α} (h : Takes p s) (hf : ∀ b, Composed (f b)) :
    Takes (p >>= f) s :=
  Ensures.bind h fun _ _ _ lt =>
    (hf _).ensures_of_steps fun _ _ st => Nat.lt_of_le_of_lt st.left_le lt

theorem map {p : Parse β} {f : β → α} (h : Takes p s) : Takes (f <$> p) s := Ensures.map h

theorem round {p : Parse (Round α)} (h : Takes p s) :
    Ensures p s (Round.Post (fun _ s' => s'.left < s.left) fun _ _ => True) fun _ => True := by
  refine h.imp fun r s' _ lt => ?_
  cases r with
  | again a => exact lt
  | done a => trivial

end Takes

/-- A composed reader that always starts by taking the current token. -/
structure Taking (p : Parse α) : Prop where
  composed : Composed p
  takes : ∀ {s : State}, s.Ends → s.current.kind ≠ .eof → Takes p s

/-! ## Readers of one token -/

theorem composed_current : Composed current := .look (·.current) fun _ _ => rfl

theorem composed_at? (k : Kind) : Composed (at? k) :=
  .look (fun s => decide (s.current.kind = k)) fun _ _ => rfl

theorem composed_found : Composed found := .look (·.current.describe) fun _ _ => rfl

theorem composed_reports : Composed reports := .look (·.reports) fun _ _ => rfl

theorem composed_reported : Composed reported := .look (·.reported) fun _ _ => rfl

theorem composed_previous : Composed previous := .look (·.previous) fun _ _ => rfl

theorem taking_advance {f : Token → Parse α} (hf : ∀ t, Composed (f t)) :
    Taking (advance >>= f) := ⟨.bind .advance hf, fun hs hk => .advance hs hk hf⟩

theorem composed_accept (k : Kind) : Composed (accept k) :=
  (composed_at? k).bind fun _ => .ite Composed.advance.map (.pure none)

theorem composed_demand (k : Kind) {cause : String → Cause}
    (syntactic : ∀ found, (cause found).isSyntactic = true) : Composed (demand k cause) :=
  (composed_at? k).bind fun _ => .ite Composed.advance <|
    composed_found.bind fun found => composed_current.bind fun t =>
      (Composed.report t.location (syntactic found)).bind fun _ => Composed.advance

theorem composed_expect (k : Kind) : Composed (expect k) := composed_demand k fun _ => rfl

theorem composed_expectEnd (k opener : Kind) (place : Location) :
    Composed (expectEnd k opener place) := composed_demand k fun _ => rfl

theorem composed_expectName (k : Kind) : Composed (expectName k) :=
  (composed_at? _).bind fun _ => .ite (Composed.advance.bind fun _ => .pure _) <|
    composed_current.bind fun t => composed_found.bind fun _ =>
      (Composed.report t.location rfl).bind fun _ => .pure _

theorem composed_furtherRound (separator : Kind) {item : Parse α} (h : Composed item)
    (xs : List α) : Composed (furtherRound separator item xs) :=
  (composed_accept _).bind fun _ => .ite (h.bind fun _ => .pure _) (.pure _)

theorem composed_further (separator : Kind) {item : Parse α} (h : Composed item) (xs : List α) :
    Composed (further separator item xs) := .loop (composed_furtherRound separator h) xs

theorem composed_commaList {item : Parse α} (h : Composed item) : Composed (commaList item) :=
  h.bind fun _ => composed_further _ h _

namespace Nested.Composed

variable {deeper : Nested} (h : deeper.Composed)
include h

theorem fullExp : Parse.Composed deeper.fullExp := h.exp 0

theorem expList : Parse.Composed deeper.expList := composed_commaList h.fullExp

end Nested.Composed

/-! ## Expressions -/

section Expression

variable {deeper : Nested} (h : deeper.Composed)

theorem composed_numeral (t : Token) : Composed (numeral t) := by
  unfold numeral
  split
  · exact .pure _
  · exact .pure _
  · exact (Composed.report t.location rfl).bind fun _ => .pure _

include h

theorem composed_field : Composed (field deeper) := by
  unfold field
  refine (composed_accept _).bind fun bracket => ?_
  cases bracket with
  | some bracket =>
    exact h.fullExp.bind fun _ => (composed_expectEnd _ _ _).bind fun _ =>
      (composed_expect _).bind fun _ => h.fullExp.bind fun _ => .pure _
  | none =>
    have rest : ∀ named : Bool, Composed (if named = true then (do
        let name ← advance
        let _ ← advance
        return Field.keyed (.string name.text name.location) (← deeper.fullExp))
        else (do return Field.item (← deeper.fullExp))) := fun named =>
      .ite
        (Composed.advance.bind fun _ => Composed.advance.bind fun _ =>
          h.fullExp.bind fun _ => .pure _)
        (h.fullExp.bind fun _ => .pure _)
    exact (composed_at? _).bind fun _ =>
      .ite (Composed.peek.bind fun _ => rest _) (rest false)

theorem composed_fieldRound (fs : List Field) : Composed (fieldRound deeper fs) :=
  composed_current.bind fun _ => .ite (.pure _) <| (composed_field h).bind fun _ =>
    composed_current.bind fun _ => .ite (Composed.advance.bind fun _ => .pure _) (.pure _)

theorem composed_fields : Composed (fields deeper) := .loop (composed_fieldRound h) _

theorem taking_table : Taking (table deeper) :=
  taking_advance fun _ => (composed_fields h).bind fun _ =>
    (composed_expectEnd _ _ _).bind fun _ => .pure _

omit h in
theorem composed_paramRound (ps : List Ident × Bool) : Composed (paramRound ps) :=
  (composed_accept _).bind fun _ => .ite (.pure _) <| (composed_expectName _).bind fun _ =>
    (composed_accept _).bind fun _ => .ite (.pure _) (.pure _)

omit h in
theorem composed_params : Composed params :=
  (composed_at? _).bind fun _ => .ite (.pure _) (.loop composed_paramRound _)

theorem composed_functionBody (start : Location) (isMethod : Bool) :
    Composed (functionBody deeper start isMethod) :=
  (composed_expect _).bind fun _ => composed_params.bind fun _ =>
    (composed_expectEnd _ _ _).bind fun _ => h.block.bind fun _ =>
      (composed_expectEnd _ _ _).bind fun _ => .pure _

theorem composed_arguments (before : Location) : Composed (arguments deeper before) := by
  refine composed_current.bind fun t => ?_
  split
  · exact Composed.advance.bind fun _ => (composed_at? _).bind fun _ =>
      .ite ((composed_expectEnd _ _ _).bind fun _ => .pure _)
        (h.expList.bind fun _ => (composed_expectEnd _ _ _).bind fun _ => .pure _)
  · exact (taking_table h).composed.bind fun _ => .pure _
  · exact Composed.advance.bind fun _ => .pure _
  · exact composed_found.bind fun _ => composed_current.bind fun t =>
      (Composed.report t.location rfl).bind fun _ => .pure _

theorem composed_primary : Composed (primary deeper) := by
  refine composed_current.bind fun t => ?_
  split
  · exact Composed.advance.bind fun _ => .pure _
  · exact Composed.advance.bind fun _ => h.fullExp.bind fun _ =>
      (composed_expectEnd _ _ _).bind fun _ => .pure _
  · have rest : Composed (do
        unless t.kind.isBlockEnd do let _ ← advance
        pure (Exp.bad t.location)) := .ite (.pure _) (Composed.advance.bind fun _ => .pure _)
    exact .ite rest ((Composed.report t.location rfl).bind fun _ => rest)

theorem composed_suffix (e : Exp) : Composed (suffix deeper e) := by
  refine composed_current.bind fun t => ?_
  split
  · exact Composed.advance.bind fun _ => (composed_expectName _).bind fun _ => .pure _
  · exact Composed.advance.bind fun _ => h.fullExp.bind fun _ =>
      (composed_expectEnd _ _ _).bind fun _ => .pure _
  · exact Composed.advance.bind fun _ => (composed_expectName _).bind fun _ =>
      (composed_arguments h _).bind fun _ => .pure _
  · exact (composed_arguments h _).bind fun _ => .pure _
  · exact (composed_arguments h _).bind fun _ => .pure _
  · exact (composed_arguments h _).bind fun _ => .pure _
  · exact .pure _

theorem composed_suffixed : Composed (suffixed deeper) :=
  (composed_primary h).bind fun _ => .loop (composed_suffix h) _

theorem composed_simple : Composed (simple deeper) := by
  refine composed_current.bind fun t => ?_
  split
  · exact Composed.advance.bind fun _ => .pure _
  · exact Composed.advance.bind fun _ => .pure _
  · exact Composed.advance.bind fun _ => .pure _
  · exact Composed.advance.bind fun _ => .pure _
  · exact Composed.advance.bind fun _ => composed_numeral _
  · exact Composed.advance.bind fun _ => .pure _
  · exact (taking_table h).composed
  · exact Composed.advance.bind fun _ => composed_functionBody h _ _
  · exact composed_suffixed h

theorem composed_operand : Composed (operand deeper) := by
  refine composed_current.bind fun t => ?_
  split
  · exact Composed.advance.bind fun _ => (h.exp _).bind fun _ => .pure _
  · exact composed_simple h

theorem composed_operation (limit : Nat) (lhs : Exp) : Composed (operation deeper limit lhs) := by
  refine composed_current.bind fun t => ?_
  split
  · exact .ite (.pure _) <| Composed.advance.bind fun _ => (h.exp _).bind fun _ => .pure _
  · exact .pure _

theorem composed_subexpression (limit : Nat) : Composed (subexpression deeper limit) :=
  (composed_operand h).bind fun _ => .loop (composed_operation h limit) _

end Expression

/-! ## Statements -/

section Statement

variable {deeper : Nested} (h : deeper.Composed)

theorem taking_gotoStat : Taking gotoStat :=
  taking_advance fun _ => (composed_expectName _).bind fun _ => .pure _

theorem taking_labelStat : Taking labelStat :=
  taking_advance fun _ => (composed_expectName _).bind fun _ =>
    (composed_expect _).bind fun _ => .pure _

theorem composed_moreNames (first : Ident) : Composed (moreNames first) :=
  composed_further _ (composed_expectName _) _

theorem composed_targetRound (target : Exp × Bool) : Composed (targetRound target) :=
  composed_current.bind fun _ => .ite
    (Composed.advance.bind fun _ => (composed_expectName _).bind fun _ => .pure _) (.pure _)

theorem composed_functionTarget (first : Ident) : Composed (functionTarget first) :=
  .loop composed_targetRound _

theorem composed_attrib (opener : Location) : Composed (attrib opener) := by
  refine (composed_expectName _).bind fun name => ?_
  have rest : Composed (do
      let close ← expectEnd .greater .less opener
      pure (Attribute.ofName? name.text, close.location)) :=
    (composed_expectEnd _ _ _).bind fun _ => .pure _
  exact .ite ((Composed.report name.location rfl).bind fun _ => rest) rest

theorem composed_localName : Composed localName := by
  refine (composed_expectName _).bind fun name => (composed_accept _).bind fun opener => ?_
  cases opener with
  | some opener => exact (composed_attrib _).bind fun _ => .pure _
  | none => exact .pure _

theorem composed_checkTarget (e : Exp) : Composed (checkTarget e) :=
  .ite (.pure _) (Composed.report e.place rfl)

theorem composed_checkTargets (targets : List Exp) : Composed (targets.forM checkTarget) := by
  induction targets with
  | nil => exact .pure _
  | cons e targets ih => exact (composed_checkTarget e).bind fun _ => ih

theorem composed_skipRound (line : Nat) (u : Unit) : Composed (skipRound line u) :=
  composed_current.bind fun _ => .ite (.pure _) (Composed.advance.bind fun _ => .pure _)

theorem composed_skipErrorLine : Composed skipErrorLine :=
  composed_reported.bind fun _ => composed_previous.bind fun _ =>
    .ite (.pure _) (.loop (composed_skipRound _) _)

theorem composed_finish (stats : List Stat) : Composed (finish stats) := by
  unfold finish
  split
  · exact .pure _
  · exact composed_current.bind fun _ => .pure _

/-- A block goes from its first statement to its last one, or is empty where it ends. -/
theorem ensures_finish {stats : List Stat} {s : State} :
    Ensures (finish stats) s (fun b s' => s' = s ∧ b.stats = stats ∧
      (∀ first ∈ stats.head?, ∀ last ∈ stats.getLast?, b.place = first.place.cover last.place) ∧
      (stats = [] → b.place = .point s.current.location.start)) fun _ => True := by
  unfold finish
  split
  · next first last hf hl =>
    refine .pure ⟨rfl, rfl, fun x hx y hy => ?_, fun none => ?_⟩
    · obtain rfl := Option.some.inj (hf.symm.trans hx)
      obtain rfl := Option.some.inj (hl.symm.trans hy)
      rfl
    · simp [none] at hf
  · next no =>
    rw [ensures_current]
    refine .pure ⟨rfl, rfl, fun x hx y hy => (no x y hx hy).elim, fun _ => rfl⟩

include h

theorem taking_scopeStat : Taking (scopeStat deeper) :=
  taking_advance fun _ => h.block.bind fun _ => (composed_expectEnd _ _ _).bind fun _ => .pure _

theorem taking_whileStat : Taking (whileStat deeper) :=
  taking_advance fun _ => h.fullExp.bind fun _ => (composed_expect _).bind fun _ =>
    h.block.bind fun _ => (composed_expectEnd _ _ _).bind fun _ => .pure _

theorem taking_repeatStat : Taking (repeatStat deeper) :=
  taking_advance fun _ => h.block.bind fun _ => (composed_expectEnd _ _ _).bind fun _ =>
    h.fullExp.bind fun _ => .pure _

theorem composed_clause : Composed (clause deeper) :=
  h.fullExp.bind fun _ => (composed_expect _).bind fun _ => h.block.bind fun _ => .pure _

theorem composed_elseifs (first : Clause) : Composed (elseifs deeper first) :=
  composed_further _ (composed_clause h) _

theorem taking_branchStat : Taking (branchStat deeper) := by
  refine taking_advance fun t => (composed_clause h).bind fun _ =>
    (composed_elseifs h _).bind fun clauses => (composed_accept _).bind fun _ => ?_
  have rest : ∀ otherwise, Composed (do
      let close ← expectEnd .kwEnd .kwIf t.location
      pure (Stat.branch clauses otherwise (t.location.cover close.location))) :=
    fun _ => (composed_expectEnd _ _ _).bind fun _ => .pure _
  exact .ite (h.block.map.bind rest) (rest none)

theorem composed_numericForStat (opener : Location) (var : Ident) :
    Composed (numericForStat deeper opener var) := by
  refine h.fullExp.bind fun start => (composed_expect _).bind fun _ => h.fullExp.bind fun limit =>
    (composed_accept _).bind fun _ => ?_
  have rest : ∀ step, Composed (do
      let _ ← expect .kwDo
      let body ← deeper.block
      let close ← expectEnd .kwEnd .kwFor opener
      pure (Stat.numericFor var start limit step body (opener.cover close.location))) :=
    fun _ => (composed_expect _).bind fun _ => h.block.bind fun _ =>
      (composed_expectEnd _ _ _).bind fun _ => .pure _
  exact .ite (h.fullExp.map.bind rest) (rest none)

theorem composed_genericForStat (opener : Location) (first : Ident) :
    Composed (genericForStat deeper opener first) :=
  (composed_moreNames _).bind fun _ => (composed_expect _).bind fun _ => h.expList.bind fun _ =>
    (composed_expect _).bind fun _ => h.block.bind fun _ =>
      (composed_expectEnd _ _ _).bind fun _ => .pure _

theorem taking_forStat : Taking (forStat deeper) :=
  taking_advance fun _ => (composed_expectName _).bind fun _ => (composed_accept _).bind fun _ =>
    .ite (composed_numericForStat h _ _) (composed_genericForStat h _ _)

theorem taking_functionStat : Taking (functionStat deeper) :=
  taking_advance fun _ => (composed_expectName _).bind fun _ =>
    (composed_functionTarget _).bind fun _ => (composed_functionBody h _ _).bind fun _ => .pure _

theorem composed_localFunctionStat (opener : Location) :
    Composed (localFunctionStat deeper opener) :=
  Composed.advance.bind fun _ => (composed_expectName _).bind fun _ =>
    (composed_functionBody h _ _).bind fun _ => .pure _

theorem composed_localsStat (opener : Location) : Composed (localsStat deeper opener) := by
  refine (composed_commaList composed_localName).bind fun names => ?_
  refine (composed_accept _).bind fun _ => ?_
  exact .ite (h.expList.bind fun _ => .pure _) (.pure _)

theorem taking_localStat : Taking (localStat deeper) :=
  taking_advance fun _ => (composed_at? _).bind fun _ =>
    .ite (composed_localFunctionStat h _) (composed_localsStat h _)

theorem composed_moreTargets (first : Exp) : Composed (moreTargets deeper first) :=
  composed_further _ (composed_suffixed h) _

theorem composed_assignStat (first : Exp) : Composed (assignStat deeper first) :=
  (composed_moreTargets h _).bind fun _ => (composed_checkTargets _).bind fun _ =>
    (composed_expect _).bind fun _ => h.expList.bind fun _ => .pure _

theorem composed_expStat : Composed (expStat deeper) :=
  (composed_suffixed h).bind fun _ => composed_current.bind fun _ =>
    .ite (composed_assignStat h _).map <| .ite (.pure _) <|
      .ite (.pure _) (composed_assignStat h _).map

theorem taking_returnStat : Taking (returnStat deeper) := by
  refine taking_advance fun t => composed_current.bind fun _ => ?_
  have rest : ∀ values : List Exp, Composed (do
      let place := t.location.coverAll (values.map Exp.place)
      let close ← accept .semicolon
      pure (Stat.ret values (place.cover? (close.map (·.location))))) :=
    fun _ => (composed_accept _).bind fun _ => .pure _
  exact .ite (rest []) (h.expList.bind rest)

theorem composed_statement : Composed (statement deeper) := by
  refine composed_current.bind fun t => ?_
  split
  · exact Composed.advance.bind fun _ => .pure _
  · exact Composed.advance.bind fun _ => .pure _
  · exact Composed.advance.bind fun _ => .pure _
  · exact taking_labelStat.composed.map
  · exact taking_gotoStat.composed.map
  · exact (taking_scopeStat h).composed.map
  · exact (taking_whileStat h).composed.map
  · exact (taking_repeatStat h).composed.map
  · exact (taking_branchStat h).composed.map
  · exact (taking_forStat h).composed.map
  · exact (taking_functionStat h).composed.map
  · exact (taking_localStat h).composed.map
  · exact composed_expStat h

theorem composed_statementRound (stats : List Stat) : Composed (statementRound deeper stats) := by
  refine composed_current.bind fun _ => composed_reports.bind fun _ => .ite (.pure _) <| .ite ?_ ?_
  · exact (taking_returnStat h).composed.bind fun _ => .pure _
  · exact (composed_statement h).bind fun _ => composed_reports.bind fun _ =>
      .ite (composed_skipErrorLine.bind fun _ => .pure _) (.pure _)

theorem composed_statements (stats : List Stat) : Composed (statements deeper stats) :=
  .loop (composed_statementRound h) stats

theorem composed_block : Composed (block deeper) :=
  (composed_statements h []).bind fun _ => composed_finish _

theorem composed_chunkRound (stats : List Stat) : Composed (chunkRound deeper stats) :=
  (composed_statements h _).bind fun _ => (composed_at? _).bind fun _ => .ite (.pure _) <|
    composed_found.bind fun _ => composed_current.bind fun t =>
      (Composed.report t.location rfl).bind fun _ => Composed.advance.bind fun _ => .pure _

theorem composed_rootBlock : Composed (rootBlock deeper) :=
  Composed.bind (.loop (composed_chunkRound h) _) composed_finish

omit h in
theorem composed_nested (n : Nat) : (nested n).Composed := by
  induction n with
  | zero => exact ⟨fun _ => .tooDeep, .tooDeep⟩
  | succ n ih => exact ⟨composed_subexpression ih, composed_block ih⟩

end Statement

end Parse

end LuaFront
