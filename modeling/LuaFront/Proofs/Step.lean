import LuaFront.Program
import Mathlib.Logic.Relation

/-!
# Elementary steps of reading

Whatever a reader does to its state, it does in three kinds of steps: it reports an error, it takes
the current token, or it looks at the token behind it. `Step` lists the three as long as more errors
are wanted, `Steps` are any number of them, and `Halt` is how reading stops: one of these steps
brings up an error too many, or the current token is too deep.

* `Steps.ends`: the end of input stays the last token.
* `Steps.left_le`: there are never more tokens left than before.
* `Steps.keeps_entries`, `Halt.keeps_entries`: errors that are kept stay where they are.
-/

namespace LuaFront

/-- Whether a cause tells why a list of errors ends, and not what is wrong with a text. -/
def Cause.isMarker : Cause → Bool
  | .tooManyErrors .. | .tooManyLevels _ => true
  | _ => false

/-- Whether a cause is an error of a token or comment, which comes up when the token is fetched. -/
def Cause.isLexical : Cause → Bool
  | .illegalToken _ | .unfinishedString _ | .unfinishedBracket .. | .invalidBracket => true
  | _ => false

/-- Whether a cause is an error in the order of tokens, which a reader reports. -/
def Cause.isSyntactic (cause : Cause) : Bool := !cause.isLexical && !cause.isMarker

namespace Cause

variable {cause : Cause}

theorem isMarker_of_isLexical (h : cause.isLexical) : cause.isMarker = false := by
  cases cause with
  | tooManyErrors limit next => exact nomatch h
  | tooManyLevels limit => exact nomatch h
  | _ => rfl

theorem isLexical_of_isSyntactic (h : cause.isSyntactic) : cause.isLexical = false := by
  simpa using (Bool.and_eq_true_iff.1 h).1

theorem isMarker_of_isSyntactic (h : cause.isSyntactic) : cause.isMarker = false := by
  simpa using (Bool.and_eq_true_iff.1 h).2

end Cause

namespace Parse

namespace State

/-- The current token and all that come behind it. -/
def ahead (s : State) : List Token := s.current :: s.stream.upcoming.map (·.token)

/-- The tokens in front of the last one, which is the end of input. -/
def pending (s : State) : List Token := s.ahead.dropLast

/-- More errors are wanted. -/
def Alive (s : State) : Prop := s.log.exhausted = false

/-- The state once the token behind the current one is fetched. -/
def fetched (s : State) : State := { s with lexer := s.lexer.next.2 }

/-- The state behind the current token. -/
def advanced (s : State) : State :=
  { s.fetched with current := s.lexer.next.1, previous := s.current.location }

/-- The state in which the token behind the current one is known. -/
def peeked (s : State) : State := { s with lexer := s.lexer.peek.2 }

/-- The state in which an error is reported. -/
def noting (s : State) (cause : Cause) (place : Location) : State :=
  { s with
    lexer := { s.lexer with log := s.lexer.log.report ⟨cause, place⟩ }
    reports := s.reports + 1
    reported := place }

/-- The state in which the current token is found too deep. -/
def aborted (s : State) : State :=
  { s with
    lexer := { s.lexer with
      log := s.lexer.log.abort ⟨.tooManyLevels maxLevels, s.current.location⟩ } }

/-- The last token is the end of input, no other one is, and nothing else comes behind it. -/
structure Ends (s : State) : Prop where
  final : s.stream.final.token.kind = .eof
  last : ∀ t ∈ s.ahead.getLast?, t.kind = .eof
  front : ∀ t ∈ s.pending, t.kind ≠ .eof

end State

/-- One elementary step that leaves more errors wanted. -/
inductive Step : State → State → Prop
  | report (s : State) {cause : Cause} (place : Location) :
      cause.isMarker = false → (s.noting cause place).Alive → Step s (s.noting cause place)
  | advance (s : State) : s.fetched.Alive → Step s s.advanced
  | peek (s : State) : s.peeked.Alive → Step s s.peeked

/-- Any number of elementary steps. -/
abbrev Steps : State → State → Prop := Relation.ReflTransGen Step

/-- The last thing that happens to a state when reading stops. -/
inductive Halt : State → State → Prop
  | report (s : State) {cause : Cause} (place : Location) :
      cause.isMarker = false → ¬(s.noting cause place).Alive → Halt s (s.noting cause place)
  | advance (s : State) : ¬s.fetched.Alive → Halt s s.fetched
  | peek (s : State) : ¬s.peeked.Alive → Halt s s.peeked
  | tooDeep (s : State) : Halt s s.aborted

namespace State

/-! ## Fetching -/

theorem upcoming_advanced_nil {s : State} (h : s.stream.upcoming = []) :
    s.advanced.stream.upcoming = [] := by
  unfold stream at h
  simp [stream, advanced, fetched, LexemeReader.next, LexemeReader.keep, LexemeStream.next, h]

theorem current_advanced_nil {s : State} (h : s.stream.upcoming = []) :
    s.advanced.current = s.stream.final.token := by
  unfold stream at h
  simp [stream, advanced, LexemeReader.next, LexemeReader.keep, LexemeStream.next, h]

theorem upcoming_advanced_cons {s : State} {x : Lexeme} {xs : List Lexeme}
    (h : s.stream.upcoming = x :: xs) : s.advanced.stream.upcoming = xs := by
  unfold stream at h
  simp [stream, advanced, fetched, LexemeReader.next, LexemeReader.keep, LexemeStream.next, h]

theorem current_advanced_cons {s : State} {x : Lexeme} {xs : List Lexeme}
    (h : s.stream.upcoming = x :: xs) : s.advanced.current = x.token := by
  unfold stream at h
  simp [advanced, LexemeReader.next, LexemeReader.keep, LexemeStream.next, h]

theorem upcoming_peeked_nil {s : State} (h : s.stream.upcoming = []) :
    s.peeked.stream.upcoming = [] := by
  unfold stream at h
  simp [stream, peeked, LexemeReader.peek, LexemeReader.keep, LexemeStream.peek, h]

theorem upcoming_peeked_cons {s : State} {x : Lexeme} {xs : List Lexeme}
    (h : s.stream.upcoming = x :: xs) : s.peeked.stream.upcoming = x.settled :: xs := by
  unfold stream at h
  simp [stream, peeked, LexemeReader.peek, LexemeReader.keep, LexemeStream.peek, h]

@[simp] theorem final_advanced (s : State) : s.advanced.stream.final = s.stream.final := by
  show s.lexer.stream.next.2.final = s.lexer.stream.final
  unfold LexemeStream.next
  cases s.lexer.stream.upcoming <;> rfl

@[simp] theorem final_peeked (s : State) : s.peeked.stream.final = s.stream.final := by
  show s.lexer.stream.peek.2.final = s.lexer.stream.final
  unfold LexemeStream.peek
  cases s.lexer.stream.upcoming <;> rfl

@[simp] theorem current_peeked (s : State) : s.peeked.current = s.current := rfl

@[simp] theorem stream_noting (s : State) (cause : Cause) (place : Location) :
    (s.noting cause place).stream = s.stream := rfl

@[simp] theorem log_noting (s : State) (cause : Cause) (place : Location) :
    (s.noting cause place).log = s.log.report ⟨cause, place⟩ := rfl

theorem log_advanced (s : State) : s.advanced.log = s.log.report? s.stream.next.1.fault := rfl

theorem log_fetched (s : State) : s.fetched.log = s.log.report? s.stream.next.1.fault := rfl

theorem log_peeked (s : State) : s.peeked.log = s.log.report? s.stream.peek.1.fault := rfl

theorem log_aborted (s : State) :
    s.aborted.log = s.log.abort ⟨.tooManyLevels maxLevels, s.current.location⟩ := rfl

/-! ## Tokens ahead -/

theorem ahead_advanced_nil {s : State} (h : s.stream.upcoming = []) :
    s.advanced.ahead = [s.stream.final.token] := by
  rw [ahead, upcoming_advanced_nil h, current_advanced_nil h]
  rfl

theorem ahead_advanced_cons {s : State} {x : Lexeme} {xs : List Lexeme}
    (h : s.stream.upcoming = x :: xs) : s.ahead = s.current :: s.advanced.ahead := by
  rw [ahead, ahead, upcoming_advanced_cons h, current_advanced_cons h, h]
  rfl

@[simp] theorem ahead_peeked (s : State) : s.peeked.ahead = s.ahead := by
  cases h : s.stream.upcoming with
  | nil => rw [ahead, ahead, upcoming_peeked_nil h, h, current_peeked]
  | cons x xs => rw [ahead, ahead, upcoming_peeked_cons h, h, current_peeked]; rfl

@[simp] theorem ahead_noting (s : State) (cause : Cause) (place : Location) :
    (s.noting cause place).ahead = s.ahead := rfl

@[simp] theorem pending_peeked (s : State) : s.peeked.pending = s.pending := by
  rw [pending, ahead_peeked, pending]

/-! ## The end of input -/

theorem pending_of_upcoming_nil {s : State} (h : s.stream.upcoming = []) : s.pending = [] := by
  simp [pending, ahead, h]

theorem pending_of_upcoming_cons {s : State} {x : Lexeme} {xs : List Lexeme}
    (h : s.stream.upcoming = x :: xs) : s.pending = s.current :: s.advanced.pending := by
  rw [pending, ahead_advanced_cons h, pending]
  rfl

theorem Ends.kind_eq_eof_iff {s : State} (h : s.Ends) :
    s.current.kind = .eof ↔ s.stream.upcoming = [] := by
  cases hs : s.stream.upcoming with
  | nil =>
    have last := h.last
    simp only [ahead, hs, List.map_nil, List.getLast?_singleton, Option.mem_some_iff] at last
    exact ⟨fun _ => rfl, fun _ => last _ rfl⟩
  | cons x xs =>
    refine ⟨fun eof => ?_, fun no => nomatch no⟩
    refine absurd eof (h.front _ ?_)
    rw [pending_of_upcoming_cons hs]
    exact List.mem_cons_self

/-- In front of the end of input the current token is the first pending one. -/
theorem Ends.pending_eq {s : State} (h : s.Ends) (hk : s.current.kind ≠ .eof) :
    s.pending = s.current :: s.advanced.pending := by
  cases hs : s.stream.upcoming with
  | nil => exact absurd (h.kind_eq_eof_iff.2 hs) hk
  | cons x xs => exact pending_of_upcoming_cons hs

theorem Ends.pending_eq_nil {s : State} (h : s.Ends) (hk : s.current.kind = .eof) :
    s.pending = [] := pending_of_upcoming_nil (h.kind_eq_eof_iff.1 hk)

theorem Ends.advanced {s : State} (h : s.Ends) : s.advanced.Ends := by
  cases hs : s.stream.upcoming with
  | nil =>
    have only := ahead_advanced_nil hs
    refine ⟨by rw [final_advanced]; exact h.final, ?_, ?_⟩
    · simpa [only] using h.final
    · simp [pending, only]
  | cons x xs =>
    refine ⟨by rw [final_advanced]; exact h.final, ?_, fun t ht => h.front t ?_⟩
    · have last := h.last
      rw [ahead_advanced_cons hs] at last
      exact last
    · rw [pending_of_upcoming_cons hs]
      exact List.mem_cons_of_mem _ ht

theorem Ends.peeked {s : State} (h : s.Ends) : s.peeked.Ends := by
  refine ⟨by rw [final_peeked]; exact h.final, ?_, ?_⟩
  · rw [ahead_peeked]; exact h.last
  · rw [pending_peeked]; exact h.front

theorem Ends.noting {s : State} (h : s.Ends) (cause : Cause) (place : Location) :
    (s.noting cause place).Ends := ⟨h.final, h.last, h.front⟩

/-- The number of tokens in front of the end of input. -/
def left (s : State) : Nat := s.pending.length

theorem left_advanced_le (s : State) : s.advanced.left ≤ s.left := by
  cases hs : s.stream.upcoming with
  | nil => simp [left, pending, ahead_advanced_nil hs]
  | cons x xs => simp [left, pending_of_upcoming_cons hs]

theorem Ends.left_advanced_lt {s : State} (h : s.Ends) (hk : s.current.kind ≠ .eof) :
    s.advanced.left < s.left := by
  simp [left, h.pending_eq hk]

theorem left_le (s : State) : s.left ≤ s.stream.upcoming.length := by
  simp [left, pending, ahead]

end State

/-! ## What all steps keep -/

namespace Step

variable {s s' : State}

theorem alive (h : Step s s') : s'.Alive := by
  cases h with
  | report place hc alive => exact alive
  | advance alive => exact alive
  | peek alive => exact alive

theorem ends (h : Step s s') (hs : s.Ends) : s'.Ends := by
  cases h with
  | report place => exact hs.noting _ place
  | advance => exact hs.advanced
  | peek => exact hs.peeked

theorem left_le (h : Step s s') : s'.left ≤ s.left := by
  cases h with
  | report place => exact Nat.le_refl _
  | advance => exact s.left_advanced_le
  | peek => simp [State.left]

theorem keeps_entries (h : Step s s') : s.log.entries <+: s'.log.entries := by
  cases h with
  | report place => exact ErrorLog.entries_prefix_report _ _
  | advance => exact ErrorLog.entries_prefix_report? _ _
  | peek => exact ErrorLog.entries_prefix_report? _ _

end Step

namespace Steps

variable {s s' : State}

theorem ends (h : Steps s s') (hs : s.Ends) : s'.Ends := by
  induction h with
  | refl => exact hs
  | tail _ step ih => exact step.ends ih

theorem left_le (h : Steps s s') : s'.left ≤ s.left := by
  induction h with
  | refl => exact Nat.le_refl _
  | tail _ step ih => exact Nat.le_trans step.left_le ih

theorem keeps_entries (h : Steps s s') : s.log.entries <+: s'.log.entries := by
  induction h with
  | refl => exact List.prefix_rfl
  | tail _ step ih => exact ih.trans step.keeps_entries

end Steps

theorem Halt.keeps_entries {s s' : State} (h : Halt s s') :
    s.log.entries <+: s'.log.entries := by
  cases h with
  | report place => exact ErrorLog.entries_prefix_report _ _
  | advance => exact ErrorLog.entries_prefix_report? _ _
  | peek => exact ErrorLog.entries_prefix_report? _ _
  | tooDeep => exact ErrorLog.entries_prefix_abort _ _

end Parse

end LuaFront
