import LuaFront.Proofs.Composed

/-!
# Every loop takes tokens

A round of a loop that asks for another one takes a token in front of the end of input, so the bound
on the rounds is never reached. A statement or expression takes a token too, unless it is looked for
at a token that ends a block (`takes_statement`, `takes_suffixed`).
-/

namespace LuaFront.Parse

variable {α : Type}

/-! ## Tokens -/

theorem advances_furtherRound {separator : Kind} (hk : separator ≠ .eof) {item : Parse α}
    (h : Composed item) : Advances (furtherRound separator item) := by
  intro xs s hs
  refine .accept (fun hc => ?_) fun _ => .pure trivial
  have rest : Composed (do let x ← item; pure (Round.again (xs ++ [x]))) := h.bind fun _ => .pure _
  refine rest.ensures_of_steps fun r s' steps => ?_
  have lt : s.advanced.left < s.left := hs.left_advanced_lt (hc ▸ hk)
  cases r with
  | again a => exact Nat.lt_of_le_of_lt steps.left_le lt
  | done a => trivial

/-! ## Expressions -/

section Expression

variable {deeper : Nested} (h : deeper.Composed)

include h

theorem advances_fieldRound : Advances (fieldRound deeper) := by
  intro fs s hs
  unfold fieldRound
  simp only [ensures_current]
  split
  · exact .pure trivial
  · refine ((composed_field h).ensures s).bind fun f s' steps _ => ?_
    simp only [ensures_current]
    split
    · next sep =>
      -- The separator behind the field is the token that the round takes.
      have hk : s'.current.kind ≠ .eof := by
        rcases sep with h | h <;> simp [h]
      have lt := (steps.ends hs).left_advanced_lt hk
      exact .advance (.pure (Nat.lt_of_lt_of_le lt steps.left_le))
    · exact .pure trivial

omit h in
theorem advances_paramRound : Advances paramRound := by
  intro ps s hs
  refine .accept (fun _ => .pure trivial) fun _ => ?_
  refine ((composed_expectName _).ensures s).bind fun name s' steps _ => ?_
  refine .accept (fun hc => ?_) fun _ => .pure trivial
  have lt := (steps.ends hs).left_advanced_lt (by simp [hc])
  exact .pure (Nat.lt_of_lt_of_le lt steps.left_le)

theorem takes_arguments {s : State} (hs : s.Ends) {before : Location}
    (hk : s.current.kind = .leftParen ∨ s.current.kind = .leftBrace ∨ s.current.kind = .string) :
    Takes (arguments deeper before) s := by
  have heof : s.current.kind ≠ .eof := by
    rcases hk with hk | hk | hk <;> simp [hk]
  unfold Takes arguments
  rw [ensures_current]
  rcases hk with hk | hk | hk <;> simp only [hk]
  · exact Takes.advance hs heof fun _ => (composed_at? _).bind fun _ =>
      .ite ((composed_expectEnd _ _ _).bind fun _ => .pure _)
        (h.expList.bind fun _ => (composed_expectEnd _ _ _).bind fun _ => .pure _)
  · exact ((taking_table h).takes hs heof).bind fun _ => .pure _
  · exact Takes.advance hs heof fun _ => .pure _

/-- Only at a token that ends a block can an expression be missing without a trace. -/
theorem takes_primary {s : State} (hs : s.Ends) (hk : s.current.kind.isBlockEnd = false) :
    Takes (primary deeper) s := by
  have heof : s.current.kind ≠ .eof := fun h => by simp [h, Kind.isBlockEnd] at hk
  have lt := hs.left_advanced_lt heof
  unfold Takes primary
  rw [ensures_current]
  split
  · exact .advance (.pure lt)
  · exact Takes.advance hs heof fun _ => h.fullExp.bind fun _ =>
      (composed_expectEnd _ _ _).bind fun _ => .pure _
  · simp only [hk, Bool.false_eq_true, if_false]
    split
    · exact .advance (.pure lt)
    · exact .report rfl (.advance (.pure lt))

theorem advances_suffix : Advances (suffix deeper) := by
  intro e s hs
  unfold suffix
  rw [ensures_current]
  split
  · next hk =>
    exact (Takes.advance hs (by simp [hk]) fun _ => (composed_expectName _).bind fun _ =>
      .pure _).round
  · next hk =>
    exact (Takes.advance hs (by simp [hk]) fun _ => h.fullExp.bind fun _ =>
      (composed_expectEnd _ _ _).bind fun _ => .pure _).round
  · next hk =>
    exact (Takes.advance hs (by simp [hk]) fun _ => (composed_expectName _).bind fun _ =>
      (composed_arguments h _).bind fun _ => .pure _).round
  · next hk => exact ((takes_arguments h hs (.inl hk)).bind fun _ => .pure _).round
  · next hk => exact ((takes_arguments h hs (.inr (.inl hk))).bind fun _ => .pure _).round
  · next hk => exact ((takes_arguments h hs (.inr (.inr hk))).bind fun _ => .pure _).round
  · exact .pure trivial

theorem takes_suffixed {s : State} (hs : s.Ends) (hk : s.current.kind.isBlockEnd = false) :
    Takes (suffixed deeper) s := (takes_primary h hs hk).bind fun _ => .loop (composed_suffix h) _

theorem advances_operation (limit : Nat) : Advances (operation deeper limit) := by
  intro e s hs
  unfold operation
  rw [ensures_current]
  split
  · next op hop =>
    split
    · exact .pure trivial
    · have hk : s.current.kind ≠ .eof := fun hk => by simp [hk, BinaryOp.ofKind?] at hop
      exact (Takes.advance hs hk fun _ => (h.exp _).bind fun _ => .pure _).round
  · exact .pure trivial

end Expression

/-! ## Statements -/

section Statement

variable {deeper : Nested} (h : deeper.Composed)

theorem advances_targetRound : Advances targetRound := by
  intro target s hs
  unfold targetRound
  simp only [ensures_current]
  split
  · next hk =>
    have heof : s.current.kind ≠ .eof := by
      rcases hk with hk | hk <;> simp [hk]
    exact (Takes.advance hs heof fun _ => (composed_expectName _).bind fun _ => .pure _).round
  · exact .pure trivial

theorem advances_skipRound (line : Nat) : Advances (skipRound line) := by
  intro u s hs
  unfold skipRound
  rw [ensures_current]
  split
  · exact .pure trivial
  · next hk =>
    have heof : s.current.kind ≠ .eof := fun h => hk (.inr (.inl (by simp [h, Kind.isBlockEnd])))
    exact (Takes.advance hs heof fun _ => .pure _).round

include h

theorem takes_expStat {s : State} (hs : s.Ends) (hk : s.current.kind.isBlockEnd = false) :
    Takes (expStat deeper) s :=
  (takes_suffixed h hs hk).bind fun _ => composed_current.bind fun _ =>
    .ite (composed_assignStat h _).map <| .ite (.pure _) <|
      .ite (.pure _) (composed_assignStat h _).map

theorem takes_statement {s : State} (hs : s.Ends) (hk : s.current.kind.isBlockEnd = false) :
    Takes (statement deeper) s := by
  have heof : s.current.kind ≠ .eof := fun h => by simp [h, Kind.isBlockEnd] at hk
  unfold Takes statement
  rw [ensures_current]
  split
  · exact Takes.advance hs heof fun _ => .pure _
  · exact Takes.advance hs heof fun _ => .pure _
  · exact Takes.advance hs heof fun _ => .pure _
  · exact (taking_labelStat.takes hs heof).map
  · exact (taking_gotoStat.takes hs heof).map
  · exact ((taking_scopeStat h).takes hs heof).map
  · exact ((taking_whileStat h).takes hs heof).map
  · exact ((taking_repeatStat h).takes hs heof).map
  · exact ((taking_branchStat h).takes hs heof).map
  · exact ((taking_forStat h).takes hs heof).map
  · exact ((taking_functionStat h).takes hs heof).map
  · exact ((taking_localStat h).takes hs heof).map
  · exact takes_expStat h hs hk

theorem advances_statementRound : Advances (statementRound deeper) := by
  intro stats s hs
  unfold statementRound
  simp only [ensures_current, ensures_reports]
  split
  · exact .pure trivial
  · next hk =>
    split
    · refine ((taking_returnStat h).composed.ensures s).bind fun _ _ _ _ => .pure trivial
    · have rest : Takes (do
          let stat ← statement deeper
          if s.reports < (← reports) then skipErrorLine
          pure (Round.again (stats ++ stat.toList))) s :=
        (takes_statement h hs (by simpa using hk)).bind fun _ => composed_reports.bind fun _ =>
          .ite (composed_skipErrorLine.bind fun _ => .pure _) (.pure _)
      exact rest.round

theorem advances_chunkRound : Advances (chunkRound deeper) := by
  intro stats s hs
  refine ((composed_statements h stats).ensures s).bind fun stats' s' steps _ => ?_
  rw [ensures_at?]
  split
  · exact .pure trivial
  · next hk =>
    have lt := (steps.ends hs).left_advanced_lt (by simpa using hk)
    simp only [ensures_found, ensures_current]
    refine .report rfl (.advance (.pure ?_))
    exact Nat.lt_of_lt_of_le lt steps.left_le

end Statement

end LuaFront.Parse
