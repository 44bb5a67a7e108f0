import LuaFront.Proofs.Limit
import LuaFront.Proofs.Completeness

/-!
# What is accepted

Sources whose tokens are all without errors are read without errors if and only if they are in the
grammar with at most `maxLevels` levels (`Source.accepts_iff`). The tree is then the one that the
grammar derives. Sources that are in the grammar with more levels only are given up, and the levels
are the only error.

Everything is shown for the limit of no errors at all, where the first one ends reading. Any other
limit makes no difference to what is read without errors, or given up for its first one.
-/

namespace LuaFront

open Grammar Parse

/-- The terminals of a source, in front of the end of input. -/
def Source.terminals (s : Source) : List Terminal := s.tokens.map Token.terminal

/-- All tokens and comments of a source are without errors. -/
def Source.Clean (s : Source) : Prop := ∀ x ∈ s.lexemes, x.fault = none

instance (s : Source) : Decidable s.Clean :=
  inferInstanceAs (Decidable (∀ x ∈ s.lexemes, x.fault = none))

/-! ## In front of the first token -/

namespace Parse.State

variable (source : Source) (limit : Nat)

theorem terms_ofSource : (ofSource source limit).terms = source.terminals := by
  rw [terms, pending_ofSource, Source.terminals]

theorem strict_ofSource (clean : source.Clean) : (ofSource source 0).Strict := by
  refine ⟨ends_ofSource source 0, ?_, ?_, ?_, ?_⟩
  · exact fun x hx => clean x (mem_lexemes_of_mem_upcoming source 0 hx)
  · rw [final_ofSource]
    exact ⟨rfl, rfl⟩
  · intro t ht
    rw [ahead_ofSource] at ht
    obtain ⟨x, hx, rfl⟩ := List.mem_map.1 ht
    exact Source.sound_of_mem_lexemes hx (clean x hx)
  · rw [log_ofSource, clean _ (first_mem_lexemes source)]
    rfl

end Parse.State

/-! ## No errors in the end -/

/-- A log that is open and empty has taken nothing in. -/
theorem ErrorLog.eq_none_of_report? {log : ErrorLog} {e : Option SyntaxError}
    (entries : (log.report? e).entries = []) (more : (log.report? e).exhausted = false) :
    e = none := by
  cases e with
  | none => rfl
  | some e =>
    rw [report?_some, report] at entries more
    by_cases full : log.exhausted
    · rw [if_pos full, full] at more
      cases more
    · rw [if_neg full] at entries
      split at entries
      · exact absurd entries (List.append_ne_nil_of_right_ne_nil _ (List.cons_ne_nil e []))
      · exact absurd entries (List.append_ne_nil_of_right_ne_nil _ (List.cons_ne_nil _ []))

namespace Parse

/-- All that is fetched is without errors if no error is kept in the end. -/
theorem Steps.faultless {s s' : State} (h : Steps s s') (entries : s'.log.entries = [])
    (none : s'.stream.upcoming = []) : ∀ x ∈ s.stream.upcoming, x.fault = Option.none := by
  -- From the last step to the first: the log of a state before the end is as empty as the last.
  induction h using Relation.ReflTransGen.head_induction_on with
  | refl => simp [none]
  | @head s t step steps ih =>
    have kept : t.log.entries = [] := List.prefix_nil.1 (entries ▸ Steps.keeps_entries steps)
    have alive := step.alive
    intro x hx
    cases step with
    | report place => exact ih x hx
    | advance =>
      rw [State.Alive, State.log_advanced] at alive
      rw [State.log_advanced] at kept
      have fault := ErrorLog.eq_none_of_report? kept alive
      cases hu : s.stream.upcoming with
      | nil => simp [hu] at hx
      | cons y ys =>
        rw [LexemeStream.next, hu] at fault
        rw [State.upcoming_advanced_cons hu] at ih
        rw [hu] at hx
        rcases List.mem_cons.1 hx with rfl | hx
        · exact fault
        · exact ih x hx
    | peek =>
      rw [State.Alive, State.log_peeked] at alive
      rw [State.log_peeked] at kept
      have fault := ErrorLog.eq_none_of_report? kept alive
      cases hu : s.stream.upcoming with
      | nil => simp [hu] at hx
      | cons y ys =>
        rw [LexemeStream.peek, hu] at fault
        rw [State.upcoming_peeked_cons hu] at ih
        rw [hu] at hx
        rcases List.mem_cons.1 hx with rfl | hx
        · exact fault
        · exact ih x (List.mem_cons_of_mem _ hx)

/-- A whole program is read up to the end of input. -/
theorem eof_rootBlock {deeper : Nested} (h : deeper.Composed) {s : State} (hs : s.Ends) :
    Ensures (rootBlock deeper) s (fun _ s' => s'.current.kind = .eof) fun _ => True := by
  have all : Ensures (loop (chunkRound deeper) []) s (fun _ s' => s'.current.kind = .eof)
      fun _ => True := by
    refine .loop_inv (I := fun _ _ => True) (advances_chunkRound h) hs trivial
      fun stats s₁ _ _ => ?_
    refine ((composed_statements h stats).ensures s₁).bind fun stats s₂ _ _ => ?_
    rw [ensures_at?]
    refine .ite (fun eof => .pure ?_) fun _ => ?_
    · exact of_decide_eq_true (p := s₂.current.kind = .eof) eof
    · simp only [ensures_found, ensures_current]
      exact .report rfl (.advance (.pure trivial))
  refine all.bind fun stats s₁ _ (eof : s₁.current.kind = .eof) => ?_
  unfold finish
  split
  · exact .pure eof
  · rw [ensures_current]
    exact .pure eof

/-! ## The limit makes no difference -/

namespace State.Strict

variable {s s' : State}

theorem allow_zero (hs : s.Strict) : s.allow 0 = s := by
  have same : s.log.allow 0 = s.log := by rw [hs.log]; rfl
  rw [allow, same]
  rfl

theorem within (hs : s.Strict) : s.Within := by
  refine ⟨?_, fun x hx e he => ?_, fun e he => ?_⟩
  · rw [hs.log]
    exact ⟨rfl, Nat.le_refl 0, nofun⟩
  · rw [hs.upcoming x hx] at he
    exact nomatch he
  · rw [hs.final.1] at he
    exact nomatch he

/-- As long as nothing is reported, the limit makes no difference to a step. -/
theorem step_allow (hs : s.Strict) (h : Step s s') (m : Nat) : Step (s.allow m) (s'.allow m) := by
  cases h with
  | report place _ alive => exact absurd alive (hs.not_alive_noting _ place)
  | advance =>
    have same : (s.allow m).advanced = s.advanced.allow m := by
      show s.advanced.withLog ((s.log.allow m).report? s.stream.next.1.fault) =
        s.advanced.withLog (s.advanced.log.allow m)
      rw [log_advanced, hs.next_fault]
      rfl
    rw [← same]
    refine .advance _ ?_
    show ((s.log.allow m).report? s.stream.next.1.fault).exhausted = false
    rw [hs.next_fault, hs.log]
    rfl
  | peek =>
    have same : (s.allow m).peeked = s.peeked.allow m := by
      show s.peeked.withLog ((s.log.allow m).report? s.stream.peek.1.fault) =
        s.peeked.withLog (s.peeked.log.allow m)
      rw [log_peeked, hs.peek_fault]
      rfl
    rw [← same]
    refine .peek _ ?_
    show ((s.log.allow m).report? s.stream.peek.1.fault).exhausted = false
    rw [hs.peek_fault, hs.log]
    rfl

theorem steps_allow (hs : s.Strict) (h : Steps s s') (m : Nat) :
    Steps (s.allow m) (s'.allow m) := by
  induction h with
  | refl => exact .refl
  | tail steps step ih => exact ih.tail ((hs.steps steps).1.step_allow step m)

/-- What is read without errors is read under any limit. -/
theorem run_allow {α : Type} {p : Parse α} {a : α} (hs : s.Strict) (h : Composed p)
    (run : p s = .ok a s') (m : Nat) : p (s.allow m) = .ok a (s'.allow m) := by
  have strict' := (hs.steps ((h.ensures s).of_ok run).1).1
  cases m with
  | zero => rw [hs.allow_zero, strict'.allow_zero, run]
  | succ m =>
    have agree := h.lockstep s (m + 1) hs.within (by rw [hs.log]; exact Nat.succ_pos m)
    rw [run] at agree
    exact agree.2.2

end State.Strict

end Parse

namespace Source

variable {s : Source}

/-- A source that is read without errors has none in its tokens. -/
theorem clean_of_program {m : Nat} {tree : Block} (h : (s.program m).tree = some tree)
    (errors : (s.program m).errors = []) : s.Clean := by
  obtain ⟨more, st, run, program⟩ := exists_run_of_tree h
  rw [program] at errors
  have ends := State.ends_ofSource s m
  obtain ⟨steps, eof⟩ := (eof_rootBlock (composed_nested maxLevels) ends).of_ok run
  have all := steps.faultless errors ((steps.ends ends).kind_eq_eof_iff.1 eof)
  have kept : (State.ofSource s m).log.entries = [] :=
    List.prefix_nil.1 (errors ▸ steps.keeps_entries)
  -- The first token is fetched before the first step.
  cases hs : s.lexemes with
  | nil => exact absurd hs s.lexemes_ne_nil
  | cons x xs =>
    have start := State.ofSource_of_lexemes s m hs
    rw [start] at all kept more
    have first : x.fault = none := ErrorLog.eq_none_of_report? kept more
    rw [Clean, hs]
    intro y hy
    rcases List.mem_cons.1 hy with rfl | hy
    · exact first
    · exact all y hy

/-! ## No error is wanted -/

/-- A reader for whole sources, when no error is wanted. -/
theorem parse_eq_rootBlock (clean : s.Clean) :
    s.parse 0 = rootBlock (nested maxLevels) (.ofSource s 0) := by
  show chunk (nested maxLevels) (.ofSource s 0) = _
  rw [run_chunk, (State.strict_ofSource s clean).log]
  rfl

theorem ofSource_eq_allow (clean : s.Clean) (m : Nat) :
    State.ofSource s m = (State.ofSource s 0).allow m := by
  have first := clean _ (State.first_mem_lexemes s)
  have same : ErrorLog.report? ⟨m, [], false⟩ (LexemeStream.ofSource s).next.1.fault =
      (ErrorLog.report? ⟨0, [], false⟩ (LexemeStream.ofSource s).next.1.fault).allow m := by
    rw [first]
    rfl
  rw [State.allow, State.log_ofSource, ← same]
  rfl

/-- What is read without errors is read under any limit. -/
theorem parse_allow (clean : s.Clean) {tree : Block} {st : State}
    (run : s.parse 0 = .ok tree st) (m : Nat) : s.parse m = .ok tree (st.allow m) := by
  have strict := State.strict_ofSource s clean
  rw [parse_eq_rootBlock clean] at run
  have same := strict.run_allow (composed_rootBlock (composed_nested maxLevels)) run m
  rw [← ofSource_eq_allow clean] at same
  show chunk (nested maxLevels) (.ofSource s m) = _
  rw [run_chunk, same, ofSource_eq_allow clean, State.allow, strict.log]
  rfl

/-- What is read is in the grammar, and no error goes with it. -/
theorem derives_of_program {tree : Block} (clean : s.Clean)
    (h : (s.program 0).tree = some tree) :
    Derives maxLevels s.terminals tree.shape ∧ (s.program 0).errors = [] := by
  have strict := State.strict_ofSource s clean
  have reads := reads_rootBlock (sound_nested maxLevels) strict.spent
  rw [State.terms_ofSource] at reads
  obtain ⟨st, run, program⟩ := exists_parse_of_tree h
  rw [parse_eq_rootBlock clean] at run
  obtain ⟨steps, derives⟩ := reads.of_ok run
  have log := (strict.steps steps).1.log
  rw [program]
  exact ⟨derives, congrArg ErrorLog.entries log⟩

/-- What is in the grammar is read, or given up for its levels if there are more than allowed. -/
theorem program_of_derives {n : Nat} {b : Block} (clean : s.Clean)
    (h : Derives n s.terminals b) :
    (∃ tree, (s.program 0).tree = some tree ∧ tree.shape = b) ∨
      maxLevels < n ∧ (s.program 0).TooDeep 0 := by
  let deep (st : State) : Prop := maxLevels < n ∧
    ∃ place, st.log.entries = [⟨.tooManyLevels maxLevels, place⟩]
  have strict := State.strict_ofSource s clean
  have complete : (nested maxLevels).Complete (level n) deep := by
    refine complete_nested maxLevels fun lt st hst => ⟨lt, st.current.location, ?_⟩
    rw [State.log_aborted, hst.log]
    rfl
  rw [← State.terms_ofSource s 0] at h
  have arrives := arrives_rootBlock complete strict h
  unfold program
  rw [parse_eq_rootBlock clean]
  cases run : rootBlock (nested maxLevels) (.ofSource s 0) with
  | ok tree st =>
    obtain ⟨-, shape, -⟩ := arrives.of_ok run
    exact .inl ⟨tree, rfl, shape⟩
  | error e st =>
    obtain ⟨-, lt, place, entries⟩ := arrives.of_error run
    exact .inr ⟨lt, rfl, rfl, [], place, entries, Nat.le_refl 0, nofun⟩

/-! ## Any number of errors is wanted -/

/-- Read without errors under any limit means read under the limit of no errors. -/
theorem isOk_program_iff (clean : s.Clean) (m : Nat) :
    (s.program m).isOk ↔ ∃ tree, (s.program 0).tree = some tree := by
  rw [Program.isOk, Bool.and_eq_true, List.isEmpty_iff]
  constructor
  · rintro ⟨tree, errors⟩
    rw [s.program_eq_of_errors_eq_nil (Nat.zero_le m) errors]
    exact Option.isSome_iff_exists.1 tree
  · rintro ⟨tree, h⟩
    have errors := (derives_of_program clean h).2
    have complete : (s.program 0).Complete 0 := by
      refine ⟨by rw [h]; rfl, by rw [errors]; exact Nat.le_refl 0, ?_⟩
      rw [errors]
      exact nofun
    rw [s.program_eq_of_le (Nat.zero_le m) (.inl complete)]
    exact ⟨by rw [h]; rfl, errors⟩

/-- A source without errors in its tokens is read without errors if and only if it is in the grammar
with at most `maxLevels` levels. With more levels, that is its only error. -/
theorem accepts_iff (s : Source) (clean : s.Clean) (m : Nat) :
    ((s.program m).isOk ↔ ∃ b, Derives maxLevels s.terminals b) ∧
    ∀ n, (∃ b, Derives n s.terminals b) → (¬∃ b, Derives maxLevels s.terminals b) →
      (s.program m).tree = none ∧
        ∃ place, (s.program m).errors = [⟨.tooManyLevels maxLevels, place⟩] := by
  rw [isOk_program_iff clean]
  refine ⟨⟨?_, ?_⟩, ?_⟩
  · rintro ⟨tree, h⟩
    exact ⟨tree.shape, (derives_of_program clean h).1⟩
  · rintro ⟨b, h⟩
    rcases program_of_derives clean h with ⟨tree, h, -⟩ | ⟨lt, -⟩
    · exact ⟨tree, h⟩
    · exact absurd lt (Nat.lt_irrefl _)
  · rintro n ⟨b, h⟩ more
    rcases program_of_derives clean h with ⟨tree, h, -⟩ | ⟨-, deep⟩
    · exact absurd ⟨tree.shape, (derives_of_program clean h).1⟩ more
    · rw [s.program_eq_of_le (Nat.zero_le m) (.inr deep)]
      obtain ⟨es, place, errors, len, -⟩ := deep.errors
      obtain rfl := List.eq_nil_of_length_eq_zero (Nat.le_zero.1 len)
      exact ⟨deep.tree, place, errors⟩

/-- A source of blocks in each other. -/
def scopes (n : Nat) : Source :=
  ⟨"", [(List.replicate n "do ".toList).flatten ++ (List.replicate n "end ".toList).flatten]⟩

/-- One block more than there are levels is in the grammar, but too deep. -/
theorem accepts_iff_scopes :
    (scopes 201).Clean ∧ (∃ b, Derives 201 (scopes 201).terminals b) ∧
      (¬∃ b, Derives maxLevels (scopes 201).terminals b) ∧
      ∃ place, ((scopes 201).program 30).errors = [⟨.tooManyLevels maxLevels, place⟩] := by
  have clean : (scopes 201).Clean := by decide +kernel
  have terminals : (scopes 201).terminals =
      .replicate 201 (.fixed .kwDo) ++ (.replicate 201 (.fixed .kwEnd) ++ []) := by
    decide +kernel
  have derives : ∃ b, Derives 201 (scopes 201).terminals b := by
    rw [terminals]
    exact body_scopes 201 []
  have accepts := accepts_iff (scopes 201) clean 30
  have more : ¬∃ b, Derives maxLevels (scopes 201).terminals b := by
    rw [← accepts.1]
    decide +kernel
  exact ⟨clean, derives, more, (accepts.2 201 derives more).2⟩

end Source

end LuaFront
