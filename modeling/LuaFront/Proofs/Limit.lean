import LuaFront.Proofs.Composed
import LuaFront.Proofs.Lexemes

/-!
# The limit on errors

Reading stops at the first error beyond a limit. This module compares what a reader does under two
limits: up to the first error that is one too many for the lower limit both go the same way, and
from there on the errors in front of it stay where they are.

* `Composed.lockstep`: the comparison for every composed reader.
* `Source.program_outcome`: a program has a tree, or one error too many, or too many levels.
* `Source.program_of_lt`: a lower limit only cuts the list of errors.
-/

namespace LuaFront

/-! ## Ordinary errors -/

/-- An error of the text, which says nothing about why a list of errors ends. -/
def SyntaxError.IsOrdinary (e : SyntaxError) : Prop :=
  e.cause.code ≠ "E0012" ∧ e.cause.code ≠ "E0013"

theorem SyntaxError.isOrdinary_iff (e : SyntaxError) :
    e.IsOrdinary ↔ e.cause.isMarker = false := by
  obtain ⟨cause, place⟩ := e
  cases cause <;> simp [IsOrdinary, Cause.code, Cause.isMarker]

theorem Lexeme.isOrdinary_of_mem_fault {x : Lexeme} (h : x.Ordinary) {e : SyntaxError}
    (he : e ∈ x.fault) : e.IsOrdinary := e.isOrdinary_iff.2 (h e he)

/-! ## One more error -/

namespace ErrorLog

/-- The log takes more errors, and holds nothing but errors of the text. -/
structure Open (log : ErrorLog) : Prop where
  exhausted : log.exhausted = false
  length_le : log.entries.length ≤ log.limit
  ordinary : ∀ e ∈ log.entries, e.IsOrdinary

/-- The same errors under another limit. -/
def allow (log : ErrorLog) (n : Nat) : ErrorLog := { log with limit := n }

/-- All errors that the limit allows are kept, and behind them the marker for `e`. -/
def Overflown (log : ErrorLog) (e : SyntaxError) : Prop :=
  ∃ es, log.entries = es ++ [e.overflow log.limit] ∧ es.length = log.limit ∧
    (∀ x ∈ es, x.IsOrdinary) ∧ e.IsOrdinary

/-- The last error that is kept tells that the program nests too deeply. -/
def GaveUp (log : ErrorLog) : Prop :=
  ∃ es place, log.entries = es ++ [⟨.tooManyLevels Parse.maxLevels, place⟩] ∧
    es.length ≤ log.limit ∧ ∀ x ∈ es, x.IsOrdinary

variable {log : ErrorLog}

@[simp] theorem limit_report? (log : ErrorLog) (e : Option SyntaxError) :
    (log.report? e).limit = log.limit := by
  cases e with
  | none => rfl
  | some e =>
    rw [report?_some, report]
    split
    · rfl
    · split <;> rfl

@[simp] theorem limit_abort (log : ErrorLog) (e : SyntaxError) :
    (log.abort e).limit = log.limit := by
  unfold abort
  split <;> rfl

theorem Open.report_of_lt (h : log.Open) (hlt : log.entries.length < log.limit)
    (e : SyntaxError) : log.report e = { log with entries := log.entries ++ [e] } := by
  simp [report, h.exhausted, hlt]

theorem Open.report_of_eq (h : log.Open) (heq : log.entries.length = log.limit)
    (e : SyntaxError) :
    log.report e =
      { log with entries := log.entries ++ [e.overflow log.limit], exhausted := true } := by
  simp [report, h.exhausted, heq]

/-- Either an error is kept under both limits, or it is one too many under the lower one. -/
theorem Open.report?_cases (h : log.Open) {x : Option SyntaxError}
    (hx : ∀ e ∈ x, e.IsOrdinary) {n : Nat} (hn : log.limit < n) :
    ((log.report? x).Open ∧ (log.allow n).report? x = (log.report? x).allow n) ∨
    ∃ e, (log.report? x).exhausted = true ∧ (log.report? x).Overflown e ∧
      (log.report? x).entries.dropLast ++ [e] <+: ((log.allow n).report? x).entries ∧
      ((log.allow n).report? x).exhausted = false := by
  cases x with
  | none => exact .inl ⟨h, rfl⟩
  | some e =>
    have he : e.IsOrdinary := hx e rfl
    have open' : (log.allow n).Open :=
      ⟨h.exhausted, Nat.le_trans h.length_le (Nat.le_of_lt hn), h.ordinary⟩
    have kept := open'.report_of_lt (Nat.lt_of_le_of_lt h.length_le hn) e
    rw [report?_some, report?_some, kept]
    rcases Nat.lt_or_eq_of_le h.length_le with hlt | heq
    · refine .inl ?_
      rw [h.report_of_lt hlt]
      refine ⟨⟨h.exhausted, ?_, ?_⟩, rfl⟩
      · simpa using Nat.succ_le_of_lt hlt
      · intro y hy
        rcases List.mem_append.1 hy with hy | hy
        · exact h.ordinary y hy
        · obtain rfl := List.mem_singleton.1 hy
          exact he
    · refine .inr ⟨e, ?_⟩
      rw [h.report_of_eq heq]
      refine ⟨rfl, ⟨log.entries, rfl, heq, h.ordinary, he⟩, ?_, h.exhausted⟩
      rw [List.dropLast_concat]
      exact List.prefix_rfl

/-- As long as more errors are wanted, errors of the text leave a log open. -/
theorem Open.report? (h : log.Open) {x : Option SyntaxError} (hx : ∀ e ∈ x, e.IsOrdinary)
    (more : (log.report? x).exhausted = false) : (log.report? x).Open := by
  rcases h.report?_cases hx (Nat.lt_succ_self _) with ⟨hopen, -⟩ | ⟨e, full, -⟩
  · exact hopen
  · rw [full] at more
    exact nomatch more

theorem Open.gaveUp_abort (h : log.Open) (place : Location) :
    (log.abort ⟨.tooManyLevels Parse.maxLevels, place⟩).GaveUp := by
  rw [abort, h.exhausted]
  exact ⟨log.entries, place, rfl, h.length_le, h.ordinary⟩

theorem Open.allow_abort (h : log.Open) (n : Nat) (e : SyntaxError) :
    (log.allow n).abort e = (log.abort e).allow n := by
  simp [abort, allow, h.exhausted]

end ErrorLog

namespace Parse

/-! ## Two limits -/

namespace State

/-- Everything that is kept, or is still to come, is an error of the text. -/
structure Within (s : State) : Prop where
  log : s.log.Open
  upcoming : ∀ x ∈ s.stream.upcoming, x.Ordinary
  final : s.stream.final.Ordinary

/-- The same state under another limit. -/
def allow (s : State) (n : Nat) : State := s.withLog (s.log.allow n)

theorem Within.ordinary_next {s : State} (h : s.Within) : s.stream.next.1.Ordinary := by
  unfold LexemeStream.next
  split
  · exact h.final
  · next hs => exact h.upcoming _ (by simp [hs])

theorem Within.ordinary_peek {s : State} (h : s.Within) : s.stream.peek.1.Ordinary := by
  unfold LexemeStream.peek
  split
  · exact h.final
  · next hs => exact h.upcoming _ (by simp [hs])

theorem Within.advanced {s : State} (h : s.Within) (log : s.advanced.log.Open) :
    s.advanced.Within := by
  refine ⟨log, fun x hx => h.upcoming x ?_, by rw [final_advanced]; exact h.final⟩
  cases hs : s.stream.upcoming with
  | nil =>
    rw [upcoming_advanced_nil hs] at hx
    exact nomatch hx
  | cons y ys =>
    rw [upcoming_advanced_cons hs] at hx
    exact List.mem_cons_of_mem y hx

theorem Within.peeked {s : State} (h : s.Within) (log : s.peeked.log.Open) :
    s.peeked.Within := by
  refine ⟨log, fun x hx => ?_, by rw [final_peeked]; exact h.final⟩
  cases hs : s.stream.upcoming with
  | nil =>
    rw [upcoming_peeked_nil hs] at hx
    exact nomatch hx
  | cons y ys =>
    rw [upcoming_peeked_cons hs] at hx
    rcases List.mem_cons.1 hx with rfl | hx
    · exact fun _ he => nomatch he
    · exact h.upcoming x (hs ▸ List.mem_cons_of_mem y hx)

theorem Within.step {s s' : State} (hs : s.Within) (h : Step s s') : s'.Within := by
  cases h with
  | @report cause place hc alive =>
    refine ⟨hs.log.report? (x := some ⟨cause, place⟩) ?_ alive, hs.upcoming, hs.final⟩
    rintro e ⟨⟩
    exact (SyntaxError.isOrdinary_iff _).2 hc
  | advance alive =>
    refine hs.advanced (hs.log.report? (fun e he => ?_) alive)
    exact Lexeme.isOrdinary_of_mem_fault hs.ordinary_next he
  | peek alive =>
    refine hs.peeked (hs.log.report? (fun e he => ?_) alive)
    exact Lexeme.isOrdinary_of_mem_fault hs.ordinary_peek he

end State

/-- Where a run has got to. -/
def endState {α : Type} : EStateM.Result Stop State α → State
  | .ok _ s' | .error _ s' => s'

theorem Composed.keeps_entries {α : Type} {p : Parse α} (h : Composed p) (s : State) :
    s.log.entries <+: (endState (p s)).log.entries := by
  have reach := h.ensures s
  cases run : p s with
  | ok a s' => exact (reach.of_ok run).1.keeps_entries
  | error e s' =>
    obtain ⟨t, steps, halt⟩ := (reach.of_error run).1
    exact steps.keeps_entries.trans halt.keeps_entries

/-- How a run under the higher limit `n` compares to one under the limit `m`: it comes to the same
answer or gives up at the same place, unless the lower limit is exceeded. Then the error beyond it
is kept behind those that it allows. -/
def Agree {α : Type} (m n : Nat) : (run run' : EStateM.Result Stop State α) → Prop
  | .ok a s', run' => s'.Within ∧ s'.log.limit = m ∧ run' = .ok a (s'.allow n)
  | .error _ s', run' => s'.log.limit = m ∧
      (s'.log.GaveUp ∧ run' = .error .stop (s'.allow n) ∨
        ∃ e, s'.log.Overflown e ∧
          s'.log.entries.dropLast ++ [e] <+: (endState run').log.entries)

/-- A reader whose runs under any two limits agree. -/
def Lockstep {α : Type} (p : Parse α) : Prop :=
  ∀ (s : State) (n : Nat), s.Within → s.log.limit < n →
    Agree s.log.limit n (p s) (p (s.allow n))

variable {α β : Type}

/-- A reader that adds an error to the log, if there is one, and checks the log. -/
theorem lockstep_of_checked {p : Parse α} {v : State → α} {u w : State → State}
    {x : State → Option SyntaxError}
    (run : ∀ s, p s = if (u s).log.exhausted then .error .stop (u s) else .ok (v s) (w s))
    (log : ∀ s, (u s).log = s.log.report? (x s) ∧ (w s).log = s.log.report? (x s))
    (ordinary : ∀ s, s.Within → ∀ e ∈ x s, e.IsOrdinary)
    (within : ∀ s, s.Within → (w s).log.Open → (w s).Within)
    (same : ∀ s log, x (s.withLog log) = x s ∧ v (s.withLog log) = v s ∧
      w (s.withLog log) = (w s).withLog (log.report? (x s))) : Lockstep p := by
  intro s n hs hn
  have run' := run (s.allow n)
  have allowed : (u (s.allow n)).log = (s.log.allow n).report? (x s) := by
    rw [(log _).1, State.allow, (same s _).1]
    rfl
  rw [allowed] at run'
  rw [run s, (log s).1]
  rcases hs.log.report?_cases (ordinary s hs) hn with ⟨hopen, eq⟩ | ⟨e, full, beyond, kept, more⟩
  · rw [eq, show ((s.log.report? (x s)).allow n).exhausted = false from hopen.exhausted] at run'
    rw [hopen.exhausted]
    refine ⟨within s hs (by rw [(log s).2]; exact hopen), by rw [(log s).2]; simp, ?_⟩
    rw [run', State.allow, (same s _).2.1, (same s _).2.2, State.allow, (log s).2, eq]
    rfl
  · rw [more] at run'
    rw [full]
    refine ⟨by rw [(log s).1]; simp, .inr ⟨e, by rw [(log s).1]; exact beyond, ?_⟩⟩
    rw [run', (log s).1]
    show _ <+: (w (s.allow n)).log.entries
    rw [(log _).2, State.allow, (same s _).1]
    exact kept

/-- Once the lower limit is exceeded, whatever is read under the higher one keeps its errors. -/
theorem Lockstep.bind {p : Parse α} {f : α → Parse β} (hp : Lockstep p)
    (hf : ∀ a, Composed (f a)) (next : ∀ a, Lockstep (f a)) : Lockstep (p >>= f) := by
  intro s n hs hn
  have first := hp s n hs hn
  rw [run_bind, run_bind]
  cases run : p s with
  | ok a s' =>
    rw [run] at first
    obtain ⟨hs', limit, run'⟩ := first
    rw [run', ← limit]
    exact next a s' n hs' (limit ▸ hn)
  | error e s' =>
    rw [run] at first
    obtain ⟨limit, ⟨gave, run'⟩ | ⟨e, beyond, kept⟩⟩ := first
    · rw [run']
      exact ⟨limit, .inl ⟨gave, rfl⟩⟩
    · refine ⟨limit, .inr ⟨e, beyond, ?_⟩⟩
      cases run' : p (s.allow n) with
      | error e' t =>
        rw [run'] at kept
        exact kept
      | ok a t =>
        rw [run'] at kept
        exact kept.trans ((hf a).keeps_entries t)

/-- Every composed reader goes the same way under both limits. -/
theorem Composed.lockstep {p : Parse α} (h : Composed p) : Lockstep p := by
  induction h with
  | pure a => exact fun s n hs _ => ⟨hs, rfl, rfl⟩
  | bind hp hf ihp ihf => exact ihp.bind hf ihf
  | look f hf =>
    intro s n hs _
    refine ⟨hs, rfl, ?_⟩
    show EStateM.Result.ok (f (s.withLog _)) _ = _
    rw [hf]
  | @report cause place hc =>
    refine lockstep_of_checked (x := fun _ => some ⟨cause, place⟩) (run_report cause place)
      (fun _ => ⟨rfl, rfl⟩) ?_ (fun s hs log => ⟨log, hs.upcoming, hs.final⟩)
      fun _ _ => ⟨rfl, rfl, rfl⟩
    rintro s hs e ⟨⟩
    exact (SyntaxError.isOrdinary_iff _).2 (Cause.isMarker_of_isSyntactic hc)
  | advance =>
    refine lockstep_of_checked (x := fun s => s.stream.next.1.fault) run_advance
      (fun _ => ⟨rfl, rfl⟩) ?_ ?_ fun _ _ => ⟨rfl, rfl, rfl⟩
    · exact fun s hs e he => Lexeme.isOrdinary_of_mem_fault hs.ordinary_next he
    · exact fun s hs log => hs.advanced log
  | peek =>
    refine lockstep_of_checked (x := fun s => s.stream.peek.1.fault) run_peek
      (fun _ => ⟨rfl, rfl⟩) ?_ ?_ fun _ _ => ⟨rfl, rfl, rfl⟩
    · exact fun s hs e he => Lexeme.isOrdinary_of_mem_fault hs.ordinary_peek he
    · exact fun s hs log => hs.peeked log
  | tooDeep =>
    intro s n hs _
    refine ⟨ErrorLog.limit_abort s.log _, .inl ⟨hs.log.gaveUp_abort _, ?_⟩⟩
    show EStateM.Result.error Stop.stop (s.withLog ((s.log.allow n).abort _)) = _
    rw [hs.log.allow_abort]
    rfl

/-- What is read without a further error is read in the same way if none is wanted. -/
theorem Composed.run_allow_length {p : Parse α} (h : Composed p) {s s' : State} {a : α}
    (hs : s.Within) (run : p s = .ok a s') (quiet : s'.log = s.log) :
    ∃ t, p (s.allow s.log.entries.length) = .ok a t ∧ s' = t.allow s.log.limit := by
  rcases Nat.lt_or_eq_of_le hs.log.length_le with lt | eq
  · have within : (s.allow s.log.entries.length).Within :=
      ⟨⟨hs.log.exhausted, Nat.le_refl _, hs.log.ordinary⟩, hs.upcoming, hs.final⟩
    have agree := h.lockstep (s.allow s.log.entries.length) s.log.limit within lt
    have same : (s.allow s.log.entries.length).allow s.log.limit = s := rfl
    rw [same, run] at agree
    cases run' : p (s.allow s.log.entries.length) with
    | ok b t =>
      rw [run'] at agree
      obtain ⟨-, -, eq⟩ := agree
      cases eq
      exact ⟨t, rfl, rfl⟩
    | error e t =>
      rw [run'] at agree
      obtain ⟨limit, ⟨-, gave⟩ | ⟨e, ⟨es, eq, len, -⟩, kept⟩⟩ := agree
      · exact nomatch gave
      · -- One error more is kept under the higher limit.
        have le := kept.length_le
        rw [eq, List.dropLast_concat, List.length_append, len, limit] at le
        exact absurd (quiet ▸ le) (Nat.not_succ_le_self _)
  · have same : s.allow s.log.entries.length = s := by rw [eq]; rfl
    refine ⟨s', by rw [same, run], ?_⟩
    rw [← quiet]
    rfl

/-! ## Whole programs -/

namespace State

variable (source : Source) (limit : Nat)

theorem log_ofSource :
    (ofSource source limit).log =
      ErrorLog.report? ⟨limit, [], false⟩ (LexemeStream.ofSource source).next.1.fault := rfl

theorem mem_lexemes_of_mem_upcoming {x : Lexeme}
    (hx : x ∈ (ofSource source limit).stream.upcoming) : x ∈ source.lexemes := by
  cases h : source.lexemes with
  | nil => exact absurd h source.lexemes_ne_nil
  | cons y ys =>
    rw [ofSource_of_lexemes source limit h] at hx
    exact List.mem_cons_of_mem y hx

theorem within_ofSource (h : (ofSource source limit).log.Open) :
    (ofSource source limit).Within := by
  refine ⟨h, fun x hx => ?_, ?_⟩
  · exact Source.ordinary_of_mem_lexemes (mem_lexemes_of_mem_upcoming source limit hx)
  · rw [final_ofSource]
    exact fun _ he => nomatch he

theorem first_mem_lexemes : (LexemeStream.ofSource source).next.1 ∈ source.lexemes := by
  cases h : source.lexemes with
  | nil => exact absurd h source.lexemes_ne_nil
  | cons x xs => simp [LexemeStream.ofSource, LexemeStream.next, h]

theorem isOrdinary_of_mem_first_fault {e : SyntaxError}
    (he : e ∈ (LexemeStream.ofSource source).next.1.fault) : e.IsOrdinary :=
  Lexeme.isOrdinary_of_mem_fault (Source.ordinary_of_mem_lexemes (first_mem_lexemes source)) he

end State

theorem run_chunk (deeper : Nested) (s : State) :
    chunk deeper s = if s.log.exhausted then .error .stop s else rootBlock deeper s := by
  rw [chunk, run_bind, run_check]
  cases s.log.exhausted <;> rfl

end Parse

namespace Source

open Parse

/-- The reader for whole programs is tried only if more errors are wanted in front of the first
token. -/
theorem rootBlock_of_parse {s : Source} {m : Nat} {tree : Block} {st : State}
    (run : s.parse m = .ok tree st) :
    (State.ofSource s m).Alive ∧ rootBlock (nested maxLevels) (.ofSource s m) = .ok tree st := by
  have chunk : Parse.chunk (nested maxLevels) (.ofSource s m) = .ok tree st := run
  rw [run_chunk] at chunk
  split at chunk
  · exact nomatch chunk
  · next more => exact ⟨Bool.eq_false_iff.2 more, chunk⟩

/-- A tree is what the reader for whole programs comes to. -/
theorem exists_run_of_tree {s : Source} {m : Nat} {tree : Block}
    (h : (s.program m).tree = some tree) :
    (State.ofSource s m).Alive ∧ ∃ st, rootBlock (nested maxLevels) (.ofSource s m) = .ok tree st ∧
      s.program m = ⟨some tree, st.lexer.comments, st.log.entries⟩ := by
  obtain ⟨st, run, program⟩ := exists_parse_of_tree h
  obtain ⟨more, root⟩ := rootBlock_of_parse run
  exact ⟨more, st, root, program⟩

/-- The runs over a source under two limits agree. -/
theorem agree_parse (s : Source) {m n : Nat} (h : m < n) : Agree m n (s.parse m) (s.parse n) := by
  have start : (ErrorLog.mk m [] false).Open := ⟨rfl, Nat.zero_le m, nofun⟩
  have composed := composed_rootBlock (composed_nested maxLevels)
  show Agree m n (chunk _ (.ofSource s m)) (chunk _ (.ofSource s n))
  rw [run_chunk, run_chunk, State.log_ofSource, State.log_ofSource]
  rcases start.report?_cases (fun _ => State.isOrdinary_of_mem_first_fault s) h with
    ⟨hopen, eq⟩ | ⟨e, full, beyond, kept, more⟩
  · have limit : (State.ofSource s m).log.limit = m := ErrorLog.limit_report? _ _
    have same : State.ofSource s n = (State.ofSource s m).allow n := by
      rw [State.allow, State.log_ofSource, ← eq]
      rfl
    rw [hopen.exhausted, show (ErrorLog.mk n [] false) = (ErrorLog.mk m [] false).allow n from rfl,
      eq, show ((ErrorLog.report? ⟨m, [], false⟩ _).allow n).exhausted = false from hopen.exhausted,
      same]
    have step := composed.lockstep (.ofSource s m) n (State.within_ofSource s m hopen) (by omega)
    rw [limit] at step
    exact step
  · rw [full, show (ErrorLog.mk n [] false) = (ErrorLog.mk m [] false).allow n from rfl, more]
    refine ⟨ErrorLog.limit_report? _ _, .inr ⟨e, beyond, ?_⟩⟩
    exact kept.trans (composed.keeps_entries (.ofSource s n))

theorem errors_program (s : Source) (m : Nat) :
    (s.program m).errors = (endState (s.parse m)).log.entries := by
  unfold program
  cases s.parse m <;> rfl

end Source

namespace Program

/-! ## What a program comes to -/

/-- There is a tree, and all errors are kept. -/
structure Complete (p : Program) (m : Nat) : Prop where
  tree : p.tree.isSome
  length_le : p.errors.length ≤ m
  ordinary : ∀ x ∈ p.errors, x.IsOrdinary

/-- There is nothing but the errors that the limit allows, and a marker for the next error `e`. -/
structure CutOff (p : Program) (m : Nat) (e : SyntaxError) : Prop where
  tree : p.tree = none
  comments : p.comments = {}
  errors : ∃ es, p.errors = es ++ [e.overflow m] ∧ es.length = m ∧ ∀ x ∈ es, x.IsOrdinary
  ordinary : e.IsOrdinary

/-- There is nothing but the errors in front of the place that is too deep, and the error there. -/
structure TooDeep (p : Program) (m : Nat) : Prop where
  tree : p.tree = none
  comments : p.comments = {}
  errors : ∃ es place, p.errors = es ++ [⟨.tooManyLevels Parse.maxLevels, place⟩] ∧ es.length ≤ m ∧
    ∀ x ∈ es, x.IsOrdinary

variable {p q : Program} {m : Nat} {e e' : SyntaxError}

namespace CutOff

theorem not_complete (h : p.CutOff m e) : ¬p.Complete m :=
  fun k => by simpa [h.tree] using k.tree

theorem not_tooDeep (h : p.CutOff m e) : ¬p.TooDeep m := by
  intro k
  obtain ⟨es, eq, -⟩ := h.errors
  obtain ⟨fs, place, eq', -⟩ := k.errors
  rw [eq] at eq'
  have last := List.append_inj_right' eq' rfl
  have code := congrArg (·.cause.code) (List.singleton_inj.1 last)
  exact absurd code (by decide : "E0012" ≠ "E0013")

/-- The marker tells which error it stands for. -/
theorem eq (h : p.CutOff m e) (k : p.CutOff m e') : e = e' := by
  obtain ⟨es, eq, -⟩ := h.errors
  obtain ⟨fs, eq', -⟩ := k.errors
  rw [eq] at eq'
  have last := List.singleton_inj.1 (List.append_inj_right' eq' rfl)
  obtain ⟨cause, place⟩ := e
  obtain ⟨cause', place'⟩ := e'
  simpa [SyntaxError.overflow] using last

/-- The error behind those that are kept is the next one. -/
theorem getElem?_eq (h : p.CutOff m e) (kept : p.errors.dropLast ++ [e] <+: q.errors) :
    q.errors[m]? = some e := by
  obtain ⟨es, eq, rfl, -⟩ := h.errors
  obtain ⟨more, eq'⟩ := kept
  rw [← eq', eq, List.dropLast_concat]
  simp

theorem program_eq (h : p.CutOff m e) (kept : p.errors.dropLast ++ [e] <+: q.errors) :
    p = ⟨none, {}, q.errors.take m ++ [e.overflow m]⟩ := by
  obtain ⟨es, eq, rfl, -⟩ := h.errors
  obtain ⟨more, eq'⟩ := kept
  rw [← eq', eq, List.dropLast_concat]
  obtain ⟨tree, comments, errors⟩ := p
  obtain rfl := h.tree
  obtain rfl := h.comments
  obtain rfl := eq
  simp

end CutOff

/-- If the limit is used up, what comes next is the error that tells about the levels. -/
theorem TooDeep.code_of_getElem? (h : p.TooDeep m) (he : p.errors[m]? = some e) :
    e.cause.code = "E0013" := by
  obtain ⟨es, place, eq, len, -⟩ := h.errors
  rw [eq, List.getElem?_append_right len] at he
  have zero : m - es.length = 0 := by
    cases hm : m - es.length with
    | zero => rfl
    | succ k => simp [hm] at he
  rw [zero] at he
  obtain rfl := Option.some.inj he
  rfl

end Program

namespace Source

open Parse

/-- Under two limits a source comes to the same, unless the lower limit is exceeded. -/
theorem program_cases (s : Source) {m n : Nat} (h : m < n) :
    ((s.program m).Complete m ∨ (s.program m).TooDeep m) ∧ s.program n = s.program m ∨
      ∃ e, (s.program m).CutOff m e ∧
        (s.program m).errors.dropLast ++ [e] <+: (s.program n).errors := by
  have agree := s.agree_parse h
  rw [errors_program s n]
  unfold program
  cases run : s.parse m with
  | ok tree st =>
    rw [run] at agree
    obtain ⟨within, limit, run'⟩ := agree
    refine .inl ⟨.inl ⟨rfl, ?_, within.log.ordinary⟩, by rw [run']; rfl⟩
    exact limit ▸ within.log.length_le
  | error e st =>
    rw [run] at agree
    obtain ⟨limit, ⟨gave, run'⟩ | ⟨e, beyond, kept⟩⟩ := agree
    · exact .inl ⟨.inr ⟨rfl, rfl, limit ▸ gave⟩, by rw [run']; rfl⟩
    · obtain ⟨es, eq, len, all, he⟩ := beyond
      rw [limit] at eq len
      exact .inr ⟨e, ⟨rfl, rfl, ⟨es, eq, len, all⟩, he⟩, kept⟩

/-- What fits under a limit stays the same under every higher one. -/
theorem program_eq_of_le (s : Source) {m n : Nat} (hmn : m ≤ n)
    (h : (s.program m).Complete m ∨ (s.program m).TooDeep m) : s.program n = s.program m := by
  rcases Nat.lt_or_eq_of_le hmn with lt | rfl
  · rcases s.program_cases lt with ⟨-, same⟩ | ⟨e, cut, -⟩
    · exact same
    · rcases h with complete | deep
      · exact absurd complete cut.not_complete
      · exact absurd deep cut.not_tooDeep
  · rfl

/-- Without any errors, every limit comes to the same. -/
theorem program_eq_of_errors_eq_nil (s : Source) {m n : Nat} (hmn : m ≤ n)
    (h : (s.program n).errors = []) : s.program m = s.program n := by
  rcases Nat.lt_or_eq_of_le hmn with lt | rfl
  · rcases s.program_cases lt with ⟨-, same⟩ | ⟨e, -, kept⟩
    · exact same.symm
    · rw [h, List.prefix_nil] at kept
      exact absurd kept (List.append_ne_nil_of_right_ne_nil _ (List.cons_ne_nil e []))
  · rfl

/-- Every source has a tree, or an error too many, or too many levels. Errors that are one too many
are those that every higher limit keeps. -/
theorem program_outcome (s : Source) (m : Nat) :
    ((s.program m).Complete m ∨
      (∃ e, (s.program m).CutOff m e ∧ ∀ n, m < n → (s.program n).errors[m]? = some e) ∨
      (s.program m).TooDeep m) ∧
    ¬((s.program m).Complete m ∧ ∃ e, (s.program m).CutOff m e) ∧
    ¬((s.program m).Complete m ∧ (s.program m).TooDeep m) ∧
    ¬((∃ e, (s.program m).CutOff m e) ∧ (s.program m).TooDeep m) ∧
    (∀ e ∈ (s.program m).errors.dropLast, e.IsOrdinary) ∧
    (s.program m).errors.length ≤ m + 1 := by
  refine ⟨?_, ?_, ?_, ?_, ?_⟩
  · rcases s.program_cases (Nat.lt_succ_self m) with ⟨complete | deep, -⟩ | ⟨e, cut, -⟩
    · exact .inl complete
    · exact .inr (.inr deep)
    · refine .inr (.inl ⟨e, cut, fun n hn => ?_⟩)
      rcases s.program_cases hn with ⟨complete | deep, -⟩ | ⟨e', cut', kept⟩
      · exact absurd complete cut.not_complete
      · exact absurd deep cut.not_tooDeep
      · rw [cut.eq cut']
        exact cut'.getElem?_eq kept
  · exact fun ⟨complete, e, cut⟩ => cut.not_complete complete
  · exact fun ⟨complete, deep⟩ => by simpa [deep.tree] using complete.tree
  · exact fun ⟨⟨e, cut⟩, deep⟩ => cut.not_tooDeep deep
  · rcases s.program_cases (Nat.lt_succ_self m) with ⟨complete | deep, -⟩ | ⟨e, cut, -⟩
    · refine ⟨fun e he => complete.ordinary e (List.dropLast_subset _ he), ?_⟩
      exact Nat.le_succ_of_le complete.length_le
    · obtain ⟨es, place, eq, len, all⟩ := deep.errors
      rw [eq, List.dropLast_concat]
      exact ⟨all, by simpa using len⟩
    · obtain ⟨es, eq, len, all⟩ := cut.errors
      rw [eq, List.dropLast_concat]
      exact ⟨all, by simp [len]⟩

/-- A lower limit only cuts the list of errors. -/
theorem program_of_lt (s : Source) {m n : Nat} (h : m < n) :
    (∀ e, (s.program n).errors[m]? = some e → e.cause.code ≠ "E0013" →
      s.program m = ⟨none, {}, (s.program n).errors.take m ++ [e.overflow m]⟩) ∧
    ((∀ e, (s.program n).errors[m]? = some e → e.cause.code = "E0013") →
      s.program m = s.program n) := by
  rcases s.program_cases h with ⟨complete | deep, same⟩ | ⟨e', cut, kept⟩
  · rw [same]
    refine ⟨fun e he => ?_, fun _ => rfl⟩
    rw [List.getElem?_eq_none complete.length_le] at he
    exact nomatch he
  · rw [same]
    refine ⟨fun e he code => ?_, fun _ => rfl⟩
    exact absurd (deep.code_of_getElem? he) code
  · have next := cut.getElem?_eq kept
    refine ⟨fun e he _ => ?_, fun code => absurd (code e' next) cut.ordinary.2⟩
    rw [next] at he
    obtain rfl := Option.some.inj he
    exact cut.program_eq kept

/-- With two errors, of which one is wanted, the second one becomes the marker. -/
theorem program_of_lt_two_ends :
    1 < 2 ∧ ∃ e, (program ⟨"", ["end".toList, "end".toList]⟩ 2).errors[1]? = some e ∧
      program ⟨"", ["end".toList, "end".toList]⟩ 1 =
        ⟨none, {}, (program ⟨"", ["end".toList, "end".toList]⟩ 2).errors.take 1 ++
          [e.overflow 1]⟩ := by
  refine ⟨by decide, ⟨.unexpectedToken "<eof>" "`end`", ⟨1, 0⟩, ⟨1, 3⟩⟩, by decide +kernel, ?_⟩
  exact (program_of_lt _ (by decide)).1 _ (by decide +kernel) (by decide)

end Source

end LuaFront
