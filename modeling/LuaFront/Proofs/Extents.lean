import LuaFront.Proofs.Acceptance
import LuaFront.Proofs.Containment
import LuaFront.Proofs.Frames

/-!
# How far statements go

The location of a statement goes from the first to the last of the tokens that were taken for it,
except for parentheses that the tree drops: where a statement begins or ends with an expression,
those around this expression are left out. So cutting a statement out of a source by its location
may leave unmatched parentheses behind, but it never takes any other token along.

* `framed_statement`: what is left out by the location of a statement.
* `all_read_of_rootBlock`: every statement of a tree was read between two states of the run.
* `Source.extents_program`: which tokens of a source the location of a statement goes over.
* `Source.not_exact_program`: a statement whose location leaves its first and last token out.
-/

namespace LuaFront

namespace Stat

/-- The first word or symbol of a call or an assignment may belong to an expression. -/
def opensWithExp : Stat → Bool
  | .assign .. | .call .. => true
  | _ => false

/-- The last word or symbol of these may belong to an expression. -/
def closesWithExp : Stat → Bool
  | .repeatLoop .. | .assign .. | .locals .. | .ret .. => true
  | _ => false

end Stat

namespace Parse

variable {s s' r t o st : State} {front back : List Token} {l : Location} {x : Stat}

/-- A statement is framed by parentheses that are dropped around its first expression, if it starts
with one, and around its last expression, if it ends with one. -/
def FramedStat (s s' : State) (x : Stat) : Prop :=
  ∃ front back, Frames s s' front back x.place ∧
    (front ≠ [] → x.opensWithExp) ∧ (back ≠ [] → x.closesWithExp)

theorem Frames.exact (h : Frames s s' [] [] x.place) : FramedStat s s' x :=
  ⟨[], [], h, absurd rfl, absurd rfl⟩

/-! ## Statements -/

theorem framed_gotoStat (hs : s.Smooth) (hk : s.current.kind = .kwGoto) :
    Ensures gotoStat s (fun x s' => FramedStat s s' x) fun _ => True := by
  unfold gotoStat
  refine hs.advance ?_
  have hs₁ := hs.behind
  refine hs₁.expectName fun hk₁ => .pure (Frames.exact ?_)
  exact (Frames.token hs (by simp [hk])).cover (.token hs₁ (by simp [hk₁])) hs.ordered .refl

theorem framed_labelStat (hs : s.Smooth) (hk : s.current.kind = .doubleColon) :
    Ensures labelStat s (fun x s' => FramedStat s s' x) fun _ => True := by
  unfold labelStat
  refine hs.advance ?_
  have hs₁ := hs.behind
  refine hs₁.expectName fun _ => ?_
  have hs₂ := hs₁.behind
  refine hs₂.expect fun hk₂ => .pure (Frames.exact ?_)
  exact (Frames.token hs (by simp [hk])).cover (.token hs₂ (by simp [hk₂])) hs.ordered hs₁.step

/-- The bracket behind an attribute is the last token. -/
theorem frames_attrib {opener : Location} (hs : s.Smooth) :
    Ensures (attrib opener) s (fun v s' => ∃ t, Steps s t ∧ Frames t s' [] [] v.2)
      fun _ => True := by
  unfold attrib
  refine hs.expectName fun _ => ?_
  have hs₁ := hs.behind
  refine .ite (fun _ => hs₁.report rfl trivial) fun _ => ?_
  refine hs₁.expectEnd fun hk => .pure ?_
  exact ⟨_, hs.step, .token hs₁ (by simp [hk])⟩

theorem frames_localName (hs : s.Smooth) :
    Ensures localName s (fun name s' => Frames s s' [] [] name.2) fun _ => True := by
  unfold localName
  refine hs.expectName fun hk => ?_
  have name := Frames.token hs (by simp [hk])
  have hs₁ := hs.behind
  refine hs₁.accept (fun _ => ?_) fun _ => .pure name
  refine (frames_attrib hs₁.behind).bind fun v s₂ _ ⟨t, steps, close⟩ => .pure ?_
  exact name.cover close hs.ordered (hs₁.step.trans steps)

section Statement

variable {deeper : Nested} (h : deeper.Framing)
include h

theorem framed_scopeStat (hs : s.Smooth) (hk : s.current.kind = .kwDo) :
    Ensures (scopeStat deeper) s (fun x s' => FramedStat s s' x) fun _ => True := by
  unfold scopeStat
  refine hs.advance ?_
  have word := Frames.token hs (by simp [hk])
  refine (h.composed.block.ensures _).bind fun body s₁ st₁ _ => ?_
  have hs₁ := hs.behind.next st₁
  exact word.expectEnd hs.ordered st₁ hs₁ nofun fun place => .pure place.exact

theorem framed_whileStat (hs : s.Smooth) (hk : s.current.kind = .kwWhile) :
    Ensures (whileStat deeper) s (fun x s' => FramedStat s s' x) fun _ => True := by
  unfold whileStat
  refine hs.advance ?_
  have word := Frames.token hs (by simp [hk])
  refine ((h.composed.exp 0).ensures _).bind fun condition s₁ st₁ _ => ?_
  refine ((composed_expect .kwDo).ensures _).bind fun _ s₂ st₂ _ => ?_
  refine (h.composed.block.ensures _).bind fun body s₃ st₃ _ => ?_
  have steps := (st₁.trans st₂).trans st₃
  have hs₃ := hs.behind.next steps
  exact word.expectEnd hs.ordered steps hs₃ nofun fun place => .pure place.exact

theorem framed_repeatStat (hs : s.Smooth) (hk : s.current.kind = .kwRepeat) :
    Ensures (repeatStat deeper) s (fun x s' => FramedStat s s' x) fun _ => True := by
  unfold repeatStat
  refine hs.advance ?_
  have word := Frames.token hs (by simp [hk])
  refine (h.composed.block.ensures _).bind fun body s₁ st₁ _ => ?_
  refine ((composed_expectEnd _ _ _).ensures _).bind fun _ s₂ st₂ _ => ?_
  have steps := st₁.trans st₂
  have hs₂ := hs.behind.next steps
  refine (h.exp 0 hs₂).bind fun condition s₃ _ ⟨front, back, hcondition, _⟩ => .pure ?_
  have place := word.cover hcondition hs.ordered steps
  exact ⟨[], back, place, absurd rfl, fun _ => rfl⟩

theorem framed_branchStat (hs : s.Smooth) (hk : s.current.kind = .kwIf) :
    Ensures (branchStat deeper) s (fun x s' => FramedStat s s' x) fun _ => True := by
  unfold branchStat
  refine hs.advance ?_
  have word := Frames.token hs (by simp [hk])
  refine ((composed_clause h.composed).ensures _).bind fun first s₁ st₁ _ => ?_
  refine ((composed_elseifs h.composed first).ensures _).bind fun clauses s₂ st₂ _ => ?_
  refine ((composed_accept .kwElse).ensures _).bind fun _ s₃ st₃ _ => ?_
  have rest : ∀ {otherwise : Option Block} {t}, Steps s.advanced t → Ensures (do
      let close ← expectEnd .kwEnd .kwIf s.current.location
      pure (Stat.branch clauses otherwise (s.current.location.cover close.location))) t
      (fun x s' => FramedStat s s' x) fun _ => True := by
    intro otherwise t steps
    have ht := hs.behind.next steps
    exact word.expectEnd hs.ordered steps ht nofun fun place => .pure place.exact
  have steps := (st₁.trans st₂).trans st₃
  refine .ite (fun _ => ?_) fun _ => rest steps
  exact (h.composed.block.map.ensures _).bind fun _ _ st₄ _ => rest (steps.trans st₄)

theorem framed_numericForStat {var : Ident} (hl : Frames r t [] [] l) (hr : r.Ordered)
    (steps : Steps t s) (hs : s.Smooth) :
    Ensures (numericForStat deeper l var) s (fun x s' => FramedStat r s' x) fun _ => True := by
  unfold numericForStat
  refine ((h.composed.exp 0).ensures _).bind fun start s₁ st₁ _ => ?_
  refine ((composed_expect .comma).ensures _).bind fun _ s₂ st₂ _ => ?_
  refine ((h.composed.exp 0).ensures _).bind fun limit s₃ st₃ _ => ?_
  refine ((composed_accept .comma).ensures _).bind fun word s₄ st₄ _ => ?_
  have rest : ∀ {step : Option Exp} {u}, Steps s u → Ensures (do
      let _ ← expect .kwDo
      let body ← deeper.block
      let close ← expectEnd .kwEnd .kwFor l
      pure (Stat.numericFor var start limit step body (l.cover close.location))) u
      (fun x s' => FramedStat r s' x) fun _ => True := by
    intro step u between
    refine ((composed_expect .kwDo).ensures _).bind fun _ s₅ st₅ _ => ?_
    refine (h.composed.block.ensures _).bind fun body s₆ st₆ _ => ?_
    have between := (between.trans st₅).trans st₆
    have hs₆ := hs.next between
    exact hl.expectEnd hr (steps.trans between) hs₆ nofun fun place => .pure place.exact
  have between := ((st₁.trans st₂).trans st₃).trans st₄
  refine .ite (fun _ => ?_) fun _ => rest between
  exact ((h.composed.exp 0).map.ensures _).bind fun _ _ st₅ _ => rest (between.trans st₅)

theorem framed_genericForStat {first : Ident} (hl : Frames r t [] [] l) (hr : r.Ordered)
    (steps : Steps t s) (hs : s.Smooth) :
    Ensures (genericForStat deeper l first) s (fun x s' => FramedStat r s' x) fun _ => True := by
  unfold genericForStat
  refine ((composed_moreNames first).ensures _).bind fun names s₁ st₁ _ => ?_
  refine ((composed_expect .kwIn).ensures _).bind fun _ s₂ st₂ _ => ?_
  refine (h.composed.expList.ensures _).bind fun exps s₃ st₃ _ => ?_
  refine ((composed_expect .kwDo).ensures _).bind fun _ s₄ st₄ _ => ?_
  refine (h.composed.block.ensures _).bind fun body s₅ st₅ _ => ?_
  have between := (((st₁.trans st₂).trans st₃).trans st₄).trans st₅
  have hs₅ := hs.next between
  exact hl.expectEnd hr (steps.trans between) hs₅ nofun fun place => .pure place.exact

theorem framed_forStat (hs : s.Smooth) (hk : s.current.kind = .kwFor) :
    Ensures (forStat deeper) s (fun x s' => FramedStat s s' x) fun _ => True := by
  unfold forStat
  refine hs.advance ?_
  have word := Frames.token hs (by simp [hk])
  refine ((composed_expectName .kwFor).ensures _).bind fun first s₁ st₁ _ => ?_
  refine ((composed_accept .singleEquals).ensures _).bind fun equals s₂ st₂ _ => ?_
  have steps := st₁.trans st₂
  have hs₂ := hs.behind.next steps
  refine .ite (fun _ => ?_) fun _ => ?_
  · exact framed_numericForStat h word hs.ordered steps hs₂
  · exact framed_genericForStat h word hs.ordered steps hs₂

theorem framed_functionStat (hs : s.Smooth) (hk : s.current.kind = .kwFunction) :
    Ensures (functionStat deeper) s (fun x s' => FramedStat s s' x) fun _ => True := by
  unfold functionStat
  refine hs.advance ?_
  have word := Frames.token hs (by simp [hk])
  refine ((composed_expectName .kwFunction).ensures _).bind fun first s₁ st₁ _ => ?_
  refine ((composed_functionTarget first).ensures _).bind fun target s₂ st₂ _ => ?_
  have steps := st₁.trans st₂
  refine (frames_functionBody h word hs.ordered steps (hs.behind.next steps)).bind
    fun value s₃ _ ⟨hvalue, within⟩ => .pure (Frames.exact ?_)
  -- The function already starts with the word that the statement starts with.
  have same : s.current.location.cover value.place = value.place := Location.cover_eq_right within
  show Frames s s₃ [] [] (s.current.location.cover value.place)
  rw [same]
  exact hvalue

theorem framed_localFunctionStat (hl : Frames r s [] [] l) (hr : r.Ordered) (hs : s.Smooth)
    (hk : s.current.kind = .kwFunction) :
    Ensures (localFunctionStat deeper l) s (fun x s' => FramedStat r s' x) fun _ => True := by
  unfold localFunctionStat
  refine hs.advance ?_
  have word := Frames.token hs (by simp [hk])
  refine ((composed_expectName .kwFunction).ensures _).bind fun name s₁ st₁ _ => ?_
  refine (frames_functionBody h word hs.ordered st₁ (hs.behind.next st₁)).bind
    fun value s₂ _ ⟨hvalue, _⟩ => .pure (Frames.exact ?_)
  exact hl.cover hvalue hr .refl

theorem framed_localsStat (hl : Frames r s [] [] l) (hr : r.Ordered) (hs : s.Smooth) :
    Ensures (localsStat deeper l) s (fun x s' => FramedStat r s' x) fun _ => True := by
  unfold localsStat
  have name : ∀ {s : State}, s.Smooth → Ensures localName s
      (fun name s' => ∃ f b, Frames s s' f b name.2) fun _ => True :=
    fun hs => (frames_localName hs).imp fun name s' _ place => ⟨[], [], place⟩
  have names : Ensures (commaList localName) s
      (fun names s' => ∃ b, Frames r s' [] b (l.coverAll (names.map Prod.snd))) fun _ => True :=
    frames_commaList composed_localName name hl hr .refl hs
  refine names.bind fun names s₁ st₁ ⟨b, hnames⟩ => ?_
  have hs₁ := hs.next st₁
  have answer : ∀ (values : List Exp) {s' : State} {b : List Token},
      Frames r s' [] b ((l.coverAll (names.map Prod.snd)).coverAll (values.map Exp.place)) →
      FramedStat r s' (.locals (names.map Prod.fst) values
        (l.coverAll (names.map Prod.snd ++ values.map Exp.place))) := by
    intro values s' b place
    rw [← Location.coverAll_append] at place
    exact ⟨[], b, place, absurd rfl, fun _ => rfl⟩
  refine hs₁.accept (fun _ => ?_) fun _ => .pure (answer [] hnames)
  exact (frames_expList h hnames hr hs₁.step hs₁.behind).bind fun values s₂ _ ⟨b, hvalues⟩ =>
    .pure (answer values hvalues)

theorem framed_localStat (hs : s.Smooth) (hk : s.current.kind = .kwLocal) :
    Ensures (localStat deeper) s (fun x s' => FramedStat s s' x) fun _ => True := by
  unfold localStat
  refine hs.advance ?_
  have word := Frames.token hs (by simp [hk])
  rw [ensures_at?]
  refine .ite (fun function => ?_) fun _ => ?_
  · exact framed_localFunctionStat h word hs.ordered hs.behind (by simpa using function)
  · exact framed_localsStat h word hs.ordered hs.behind

theorem framed_assignStat {first : Exp} (hf : Frames r s front back first.place)
    (hr : r.Ordered) (hs : s.Smooth) :
    Ensures (assignStat deeper first) s (fun x s' => FramedStat r s' x) fun _ => True := by
  unfold assignStat
  have suffixed : ∀ {s : State}, s.Smooth → Ensures (suffixed deeper) s
      (fun e s' => ∃ f b, Frames s s' f b e.place) fun _ => True :=
    fun hs => (framed_suffixed h hs).imp fun e s' _ ⟨f, b, place, _⟩ => ⟨f, b, place⟩
  have one : first.place.coverAll ([first].map Exp.place) = first.place := Location.cover_self _
  have comma : Kind.comma ≠ .eof := nofun
  have targets : Ensures (moreTargets deeper first) s
      (fun es s' => ∃ b, Frames r s' front b (first.place.coverAll (es.map Exp.place)))
      fun _ => True :=
    frames_further comma (composed_suffixed h.composed) suffixed hr hs ⟨back, one.symm ▸ hf⟩
  refine targets.bind fun targets s₁ st₁ ⟨b, htargets⟩ => ?_
  refine ((composed_checkTargets targets).ensures _).bind fun _ s₂ st₂ _ => ?_
  refine ((composed_expect .singleEquals).ensures _).bind fun _ s₃ st₃ _ => ?_
  have steps := st₂.trans st₃
  have hs₃ := hs.next (st₁.trans steps)
  refine (frames_expList h htargets hr steps hs₃).bind fun values s₄ _ ⟨b', hvalues⟩ => .pure ?_
  rw [← Location.coverAll_append, ← List.map_append] at hvalues
  exact ⟨front, b', hvalues, fun _ => rfl, fun _ => rfl⟩

theorem framed_expStat (hs : s.Smooth) :
    Ensures (expStat deeper) s (fun x s' => ∀ y ∈ x, FramedStat s s' y) fun _ => True := by
  unfold expStat
  refine (framed_suffixed h hs).bind fun first s₁ st₁ framed => ?_
  obtain ⟨front, back, hf, call⟩ := framed
  have assign := (framed_assignStat h hf hs.ordered (hs.next st₁)).map_some
  simp only [ensures_current]
  refine .ite (fun _ => assign) fun _ => .ite (fun isCall => .pure ?_) fun _ =>
    .ite (fun _ => .pure fun _ hy => absurd hy (Option.not_mem_none _)) fun _ => assign
  -- A call ends with its arguments, so only in front of it can parentheses be left out.
  rintro y ⟨⟩
  obtain rfl := call isCall
  exact ⟨front, [], hf, fun _ => rfl, absurd rfl⟩

theorem framed_returnStat (hs : s.Smooth) (hk : s.current.kind = .kwReturn) :
    Ensures (returnStat deeper) s (fun x s' => FramedStat s s' x) fun _ => True := by
  unfold returnStat
  refine hs.advance ?_
  have word := Frames.token hs (by simp [hk])
  have rest : ∀ (values : List Exp) {t : State} {b : List Token}, t.Smooth →
      Frames s t [] b (s.current.location.coverAll (values.map Exp.place)) → Ensures (do
        let place := s.current.location.coverAll (values.map Exp.place)
        let close ← accept .semicolon
        pure (Stat.ret values (place.cover? (close.map (·.location))))) t
        (fun x s' => FramedStat s s' x) fun _ => True := by
    intro values t b ht place
    refine ht.accept (fun hk' => .pure ?_) fun _ => .pure ?_
    · exact Frames.exact (place.cover (.token ht (by simp [hk'])) hs.ordered .refl)
    · exact ⟨[], b, place, absurd rfl, fun _ => rfl⟩
  simp only [ensures_current]
  refine .ite (fun _ => rest [] hs.behind word) fun _ => ?_
  refine (frames_expList h word hs.ordered .refl hs.behind).bind fun values s₁ st₁ framed => ?_
  obtain ⟨b, hvalues⟩ := framed
  exact rest values (hs.behind.next st₁) hvalues

theorem framed_statement (hs : s.Smooth) :
    Ensures (statement deeper) s (fun x s' => ∀ y ∈ x, FramedStat s s' y) fun _ => True := by
  unfold statement
  rw [ensures_current]
  split
  · exact hs.advance (.pure nofun)
  · exact hs.advance (.pure nofun)
  · next hk =>
    refine hs.advance (.pure ?_)
    rintro y ⟨⟩
    exact Frames.exact (.token hs (by simp [hk]))
  · next hk => exact (framed_labelStat hs hk).map_some
  · next hk => exact (framed_gotoStat hs hk).map_some
  · next hk => exact (framed_scopeStat h hs hk).map_some
  · next hk => exact (framed_whileStat h hs hk).map_some
  · next hk => exact (framed_repeatStat h hs hk).map_some
  · next hk => exact (framed_branchStat h hs hk).map_some
  · next hk => exact (framed_forStat h hs hk).map_some
  · next hk => exact (framed_functionStat h hs hk).map_some
  · next hk => exact (framed_localStat h hs hk).map_some
  · exact framed_expStat h hs

end Statement

/-! ## Statements of a tree -/

/-- The statement `x` was read between `s` and `s'`, two states of the run from `o` to `st`. -/
structure ReadBetween (o st s s' : State) (x : Stat) : Prop where
  before : Steps o s
  read : ∃ n, statement (nested n) s = .ok (some x) s' ∨
    s.current.kind = .kwReturn ∧ returnStat (nested n) s = .ok x s'
  behind : Steps s' st

/-- A statement was read in the run from `o` to `st`. -/
def WasRead (o st : State) (x : Stat) : Prop := ∃ s s', ReadBetween o st s s' x

theorem WasRead.widen (h : WasRead s t x) (before : Steps o s) (behind : Steps t st) :
    WasRead o st x := by
  obtain ⟨u, u', read⟩ := h
  exact ⟨u, u', before.trans read.before, read.read, read.behind.trans behind⟩

section Blocks

variable {n : Nat}

/-- Statements are read one after the other, and each of them is kept. -/
theorem read_statements (stats : List Stat) (hs : s.Ends) (ho : Steps o s)
    (hx : ∀ x ∈ stats, WasRead o s x) :
    Ensures (statements (nested n) stats) s (fun stats s' => ∀ x ∈ stats, WasRead o s' x)
      fun _ => True := by
  have composed := composed_nested n
  refine .loop_inv (I := fun stats s' => ∀ x ∈ stats, WasRead o s' x)
    (advances_statementRound composed) hs hx fun stats s₁ st₁ hx => ?_
  -- What was read before is not lost, however the round goes on.
  have kept : ∀ {t}, Steps s₁ t → ∀ x ∈ stats, WasRead o t x :=
    fun steps x mem => (hx x mem).widen .refl steps
  unfold statementRound
  simp only [ensures_current, ensures_reports]
  refine .ite (fun _ => .pure hx) fun _ => .ite (fun isReturn => ?_) fun _ => ?_
  · refine ((taking_returnStat composed).composed.ensures s₁).with_run.bind
      fun x s₂ st₂ taken => .pure ?_
    have read : WasRead o s₂ x :=
      ⟨s₁, s₂, ho.trans st₁, ⟨n, .inr ⟨isReturn, taken.1⟩⟩, .refl⟩
    exact List.forall_mem_append.2 ⟨kept st₂, by simpa using read⟩
  · refine ((composed_statement composed).ensures s₁).with_run.bind fun x s₂ st₂ taken => ?_
    have read : ∀ {t}, Steps s₂ t → ∀ y ∈ stats ++ x.toList, WasRead o t y := by
      intro t steps
      refine List.forall_mem_append.2 ⟨kept (st₂.trans steps), fun y hy => ?_⟩
      obtain rfl := Option.mem_toList.1 hy
      exact ⟨s₁, s₂, ho.trans st₁, ⟨n, .inl taken.1⟩, steps⟩
    rw [ensures_reports]
    refine .ite (fun _ => ?_) fun _ => .pure (read .refl)
    exact (composed_skipErrorLine.ensures s₂).bind fun _ s₃ st₃ _ => .pure (read st₃)

theorem read_block (hs : s.Ends) :
    Ensures (block (nested n)) s (fun b s' => ∀ x ∈ b.stats, WasRead s s' x) fun _ => True := by
  refine (read_statements [] hs .refl nofun).bind fun stats s₁ _ hx => ?_
  refine ensures_finish.imp ?_
  rintro b _ - ⟨rfl, rfl, -⟩
  exact hx

theorem read_rootBlock (hs : s.Ends) :
    Ensures (rootBlock (nested n)) s (fun b s' => ∀ x ∈ b.stats, WasRead s s' x)
      fun _ => True := by
  have all : Ensures (loop (chunkRound (nested n)) []) s
      (fun stats s' => ∀ x ∈ stats, WasRead s s' x) fun _ => True := by
    refine .loop_inv (I := fun stats s' => ∀ x ∈ stats, WasRead s s' x)
      (advances_chunkRound (composed_nested n)) hs nofun fun stats s₁ st₁ hx => ?_
    refine (read_statements stats (st₁.ends hs) st₁ hx).bind fun stats s₂ st₂ hx => ?_
    rw [ensures_at?]
    refine .ite (fun _ => .pure hx) fun _ => ?_
    simp only [ensures_found, ensures_current]
    refine ((Composed.report s₂.current.location rfl).ensures s₂).bind fun _ s₃ st₃ _ => ?_
    refine (Composed.advance.ensures s₃).bind fun _ s₄ st₄ _ => .pure ?_
    exact fun x mem => (hx x mem).widen .refl (st₃.trans st₄)
  refine all.bind fun stats s₁ _ hx => ensures_finish.imp ?_
  rintro b _ - ⟨rfl, rfl, -⟩
  exact hx

/-- The statements of a block that was read were read, too. -/
theorem BlockRead.wasRead {b : Block} (h : BlockRead o st b) (ho : o.Ends) :
    ∀ x ∈ b.stats, WasRead o st x := by
  intro x hx
  rcases h with ⟨n, s, s', before, run, behind⟩ | run
  · have read := ((read_block (before.ends ho)).of_ok run).2 x hx
    exact read.widen before behind
  · exact ((read_rootBlock ho).of_ok run).2 x hx

end Blocks

/-- All statements of a program were read in the run over it. -/
theorem all_read_of_rootBlock {tree : Block} (ho : o.Ordered) (he : o.Ends)
    (run : rootBlock (nested maxLevels) o = .ok tree st) :
    (Node.block tree).All fun n => ∀ x, n = .stat x → WasRead o st x := by
  refine Node.All.stats fun m hm c hc => ?_
  exact ((all_placed_of_rootBlock ho he run m hm).block c hc).read.wasRead he

/-- A statement that is read without errors is framed. -/
theorem ReadBetween.framed (h : ReadBetween o st s s' x) (ho : o.Smooth) : FramedStat s s' x := by
  have hs := ho.next h.before
  obtain ⟨n, run | ⟨isReturn, run⟩⟩ := h.read
  · exact ((framed_statement (framing_nested n) hs).of_ok run).2 x rfl
  · exact ((framed_returnStat (framing_nested n) hs isReturn).of_ok run).2

/-- The same statement is read under any limit. -/
theorem ReadBetween.allow (h : ReadBetween o st s s' x) (ho : o.Smooth) (m : Nat) :
    ReadBetween (o.allow m) (st.allow m) (s.allow m) (s'.allow m) x := by
  have hs := ho.next h.before
  have composed := fun n => composed_nested n
  obtain ⟨n, run | ⟨isReturn, run⟩⟩ := h.read
  · have steps := (((composed_statement (composed n)).ensures s).of_ok run).1
    refine ⟨ho.steps_allow h.before m, ⟨n, .inl ?_⟩, (hs.next steps).steps_allow h.behind m⟩
    exact hs.run_allow (composed_statement (composed n)) run m
  · have steps := (((taking_returnStat (composed n)).composed.ensures s).of_ok run).1
    refine ⟨ho.steps_allow h.before m, ⟨n, .inr ⟨isReturn, ?_⟩⟩,
      (hs.next steps).steps_allow h.behind m⟩
    exact hs.run_allow (taking_returnStat (composed n)).composed run m

end Parse

/-! ## Cutting statements out -/

/-- Of some tokens a location goes over those in the middle, from the start of the first one to the
stop of the last one. All others stop in front of it or start behind it. -/
structure Location.Cuts (l : Location) (front kept back : List Token) : Prop where
  bounds : l.Bounds kept
  before : ∀ t ∈ front, t.location.stop ≤ l.start
  inside : ∀ t ∈ kept, l.contains t.location
  behind : ∀ t ∈ back, l.stop ≤ t.location.start

theorem Location.Bounds.cuts {l : Location} {front kept back : List Token} (h : l.Bounds kept)
    (order : (front ++ kept ++ back).Pairwise Token.Precedes)
    (proper : ∀ t ∈ kept, t.location.start ≤ t.location.stop) : l.Cuts front kept back := by
  obtain ⟨first, hf, last, hl, rfl⟩ := h
  obtain ⟨order, -, apart⟩ := List.pairwise_append.1 order
  obtain ⟨-, order, apart'⟩ := List.pairwise_append.1 order
  have mem := List.mem_of_head? hf
  have mem' := List.mem_of_getLast? hl
  refine ⟨⟨first, hf, last, hl, rfl⟩, fun t ht => (apart' t ht first mem).2, fun t ht => ?_,
    fun t ht => (apart last (List.mem_append_right _ mem') t ht).2⟩
  refine (Location.contains_iff _ _).2 ⟨?_, ?_⟩
  · obtain ⟨rest, rfl⟩ := List.head?_eq_some_iff.1 hf
    rcases List.mem_cons.1 ht with rfl | ht
    · exact le_refl _
    · have next := (List.pairwise_cons.1 order).1 t ht
      exact le_trans next.1 next.2
  · obtain ⟨rest, rfl⟩ := List.getLast?_eq_some_iff.1 hl
    rcases List.mem_append.1 ht with ht | ht
    · have next := (List.pairwise_append.1 order).2.2 t ht last List.mem_cons_self
      exact le_trans next.2 (proper last mem')
    · obtain rfl := List.mem_singleton.1 ht
      exact le_refl _

/-- The tokens behind a location are those that start where it has stopped. -/
theorem Location.Cuts.filter_behind {l : Location} {front kept back : List Token}
    (h : l.Cuts front kept back)
    (proper : ∀ t ∈ front ++ kept ++ back, t.location.start < t.location.stop) :
    (front ++ kept ++ back).filter (fun t => l.stop ≤ t.location.start) = back := by
  have inside : ∀ t ∈ kept, l.start ≤ t.location.start ∧ t.location.stop ≤ l.stop := fun t ht =>
    (Location.contains_iff _ _).1 (h.inside t ht)
  obtain ⟨first, hf, -⟩ := h.bounds
  have mem := List.mem_of_head? hf
  have some := proper first (List.mem_append_left _ (List.mem_append_right _ mem))
  have ordered := le_trans (inside first mem).1 (le_trans some.le (inside first mem).2)
  have none : ∀ t ∈ front ++ kept, ¬ l.stop ≤ t.location.start := by
    intro t ht le
    have lt := proper t (List.mem_append_left _ ht)
    refine absurd (lt_of_le_of_lt le lt) (not_lt_of_ge ?_)
    rcases List.mem_append.1 ht with ht | ht
    · exact le_trans (h.before t ht) ordered
    · exact (inside t ht).2
  rw [List.filter_append, List.filter_eq_nil_iff.2 (by simpa using none),
    List.filter_eq_self.2 (by simpa using h.behind), List.nil_append]

namespace Source

open Parse

/-- Where the statements of a source are that is read without errors. Each statement was read
between two states of the run. Of the tokens that were taken there, its location goes over `kept`,
and over no other token of the source. Those that it leaves out are opening parentheses in front, of
a call or an assignment, and closing parentheses behind, of a statement that ends with an
expression. -/
theorem extents_program (name : String) (bytes : List UInt8) (m : Nat) {tree : Block}
    (h : ((ofBytes name bytes).program m).tree = some tree)
    (errors : ((ofBytes name bytes).program m).errors = []) :
    ∃ st, (ofBytes name bytes).parse m = .ok tree st ∧
      ∀ e ∈ tree.outline.entries, ∀ x, e.node = .stat x →
        ∃ s s' before front kept back,
          ReadBetween (.ofSource (ofBytes name bytes) m) st s s' x ∧
          (ofBytes name bytes).tokens = before ++ s.pending ∧
          s.pending = front ++ kept ++ back ++ s'.pending ∧
          x.place.Cuts (before ++ front) kept (back ++ s'.pending) ∧
          (∀ t ∈ front, t.kind = .leftParen) ∧ (front ≠ [] → x.opensWithExp) ∧
          (∀ t ∈ back, t.kind = .rightParen) ∧ (back ≠ [] → x.closesWithExp) := by
  have clean := clean_of_program h errors
  have smooth : (State.ofSource (ofBytes name bytes) 0).Smooth :=
    ⟨State.strict_ofSource _ clean, State.ordered_ofSource (isSplit_ofBytes name bytes) 0⟩
  -- Without errors, the run is the one in which none is wanted, under another limit.
  rw [← program_eq_of_errors_eq_nil _ (Nat.zero_le m) errors] at h
  obtain ⟨st, run, -⟩ := exists_parse_of_tree h
  refine ⟨_, parse_allow clean run m, fun e he x hx => ?_⟩
  rw [parse_eq_rootBlock clean] at run
  obtain ⟨s, s', read⟩ :=
    (all_read_of_rootBlock smooth.ordered smooth.ends run).of_mem_entries he x hx
  obtain ⟨front, back, frames, opens, closes⟩ := read.framed smooth
  obtain ⟨kept, taken, bounds⟩ := frames.taken
  obtain ⟨before, tokens⟩ := read.before.pending_suffix
  rw [State.pending_ofSource] at tokens
  refine ⟨s.allow m, s'.allow m, before, front, kept, back, ?_, tokens.symm, taken, ?_,
    frames.opening, opens, frames.closing, closes⟩
  · rw [ofSource_eq_allow clean]
    exact read.allow smooth m
  · have split : (State.ofSource (ofBytes name bytes) 0).pending =
        before ++ front ++ kept ++ (back ++ s'.pending) := by
      rw [State.pending_ofSource, ← tokens, taken]
      simp
    have order := smooth.ordered.pairwise
    rw [split] at order
    exact bounds.cuts order fun t ht => smooth.ordered.proper (by simp [split, ht])

/-- Where the first statement of a source is, and where the last token taken for it stops. -/
def firstExtent? (s : Source) (limit : Nat) : Option (Location × Position) :=
  match statement (nested maxLevels) (.ofSource s limit) with
  | .ok x s' => x.map fun x => (x.place, s'.previous.stop)
  | .error _ _ => none

/-- Nothing but the closing parenthesis stands behind the location, although it was taken for the
statement. -/
theorem extents_program_local :
    ∃ (tree : Block) (x : Stat) (st s s' : State) (before front kept back : List Token),
      ((ofBytes "a" "local x = (1)".toUTF8.toList).program 30).tree = some tree ∧
      ((ofBytes "a" "local x = (1)".toUTF8.toList).program 30).errors = [] ∧ tree.stats = [x] ∧
      ReadBetween (.ofSource (ofBytes "a" "local x = (1)".toUTF8.toList) 30) st s s' x ∧
      s.pending = front ++ kept ++ back ++ s'.pending ∧
      x.place.Cuts (before ++ front) kept (back ++ s'.pending) ∧
      (back ++ s'.pending).map (·.kind) = [.rightParen] ∧
      (ofBytes "a" "local x = (1)".toUTF8.toList).firstExtent? 30 = some (x.place, ⟨0, 13⟩) := by
  have errors : ((ofBytes "a" "local x = (1)".toUTF8.toList).program 30).errors = [] := by
    decide +kernel
  have parsed : ((ofBytes "a" "local x = (1)".toUTF8.toList).program 30).tree.any
      (fun tree => tree.stats.map Stat.place = [⟨⟨0, 0⟩, ⟨0, 12⟩⟩]) = true := by
    decide +kernel
  have extent : (ofBytes "a" "local x = (1)".toUTF8.toList).firstExtent? 30 =
      some (⟨⟨0, 0⟩, ⟨0, 12⟩⟩, ⟨0, 13⟩) := by
    decide +kernel
  have proper : ∀ t ∈ (ofBytes "a" "local x = (1)".toUTF8.toList).tokens,
      t.location.start < t.location.stop := by
    decide +kernel
  have last : ((ofBytes "a" "local x = (1)".toUTF8.toList).tokens.filter
      (fun t => (⟨0, 12⟩ : Position) ≤ t.location.start)).map (·.kind) = [.rightParen] := by
    decide +kernel
  obtain ⟨tree, h, places⟩ := (Option.any_eq_true _ _).1 parsed
  obtain ⟨x, stats, place⟩ := List.map_eq_singleton_iff.1 (of_decide_eq_true places)
  have child : Node.stat x ∈ (Node.block tree).children := by simp [Node.children, stats]
  obtain ⟨e, he, node⟩ := Node.exists_mem_entriesFrom (.single child) [] 0
  obtain ⟨st, -, extents⟩ := extents_program "a" "local x = (1)".toUTF8.toList 30 h errors
  obtain ⟨s, s', before, front, kept, back, read, tokens, taken, cuts, -⟩ := extents e he x node
  refine ⟨tree, x, st, s, s', before, front, kept, back, h, errors, stats, read, taken, cuts, ?_,
    ?_⟩
  · have all : (ofBytes "a" "local x = (1)".toUTF8.toList).tokens =
        before ++ front ++ kept ++ (back ++ s'.pending) := by
      rw [tokens, taken]
      simp
    rw [all] at last proper
    rw [← cuts.filter_behind proper, place]
    exact last
  · rw [place, extent]

/-- An assignment that starts and ends with a parenthesis. -/
def parenthesized : Source := ⟨"", ["(\"x\").y = (1)".toList]⟩

/-- The location of a statement need not start where its first token does, nor stop where its last
one does, although there are no errors. -/
theorem not_exact_program :
    (parenthesized.program 30).isOk ∧
      ∃ x s', statement (nested maxLevels) (.ofSource parenthesized 30) = .ok (some x) s' ∧
        (parenthesized.program 30).tree.map (·.stats.map Stat.place) = some [x.place] ∧
        x.place.start ≠ (State.ofSource parenthesized 30).current.location.start ∧
        x.place.stop ≠ s'.previous.stop := by
  have first : (State.ofSource parenthesized 30).current.location.start = ⟨0, 0⟩ := by
    decide +kernel
  have places : (parenthesized.program 30).tree.map (·.stats.map Stat.place) =
      some [⟨⟨0, 1⟩, ⟨0, 12⟩⟩] := by
    decide +kernel
  have extent : parenthesized.firstExtent? 30 = some (⟨⟨0, 1⟩, ⟨0, 12⟩⟩, ⟨0, 13⟩) := by
    decide +kernel
  unfold firstExtent? at extent
  refine ⟨by decide +kernel, ?_⟩
  cases run : statement (nested maxLevels) (.ofSource parenthesized 30) with
  | error e s' =>
    rw [run] at extent
    cases extent
  | ok x s' =>
    rw [run] at extent
    obtain ⟨x, rfl, eq⟩ := Option.map_eq_some_iff.1 extent
    obtain ⟨place, stop⟩ := Prod.mk.inj eq
    refine ⟨x, s', rfl, by rw [places, place], ?_, ?_⟩
    · rw [place, first]
      decide
    · rw [place, stop]
      decide

end Source

end LuaFront
