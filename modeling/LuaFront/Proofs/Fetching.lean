import LuaFront.Proofs.Acceptance

/-!
# Every token is fetched once

However a reader goes on after an error, it ends at the end of input with nothing left to come, and
on its way it fetches every token once, be it by taking it or by looking at it first. Each token
brings its comments and its error, so the comments that go with a tree are those of a lexer that
runs over the same source, and the errors of tokens and comments are as well, between those that the
reader reports.

* `LexemeReader.Fetched`: what was brought and what is still to come add up to the whole source.
* `Fetched.keep`: the next token can be taken, or looked at.
* `Source.fetches_program`: a tree goes with the comments and errors that the lexer brings.
-/

namespace LuaFront

open Parse

/-! ## Open logs -/

namespace ErrorLog

variable {log : ErrorLog}

/-- The errors of tokens and comments. -/
def lexical (log : ErrorLog) : List SyntaxError := log.entries.filter (·.cause.isLexical)

/-- A log that stays open takes an error in. -/
theorem entries_report_of_more {e : SyntaxError} (more : (log.report e).exhausted = false) :
    (log.report e).entries = log.entries ++ [e] ∧ log.entries.length < log.limit := by
  unfold report at more ⊢
  split at more
  · next full => exact nomatch full.symm.trans more
  · next notFull =>
    rw [if_neg notFull]
    split at more
    · next room => exact ⟨by rw [if_pos room], room⟩
    · exact nomatch more

/-- A log that stays open takes in what there is. -/
theorem entries_report?_of_more {e : Option SyntaxError}
    (more : (log.report? e).exhausted = false) :
    (log.report? e).entries = log.entries ++ e.toList := by
  cases e with
  | none => exact (List.append_nil _).symm
  | some e => exact (entries_report_of_more more).1

/-- A log that stays open has room for what it takes in. -/
theorem length_report?_le_of_more {e : Option SyntaxError}
    (more : (log.report? e).exhausted = false) (room : log.entries.length ≤ log.limit) :
    (log.report? e).entries.length ≤ log.limit := by
  cases e with
  | none => exact room
  | some e =>
    obtain ⟨entries, lt⟩ := entries_report_of_more more
    rw [report?_some, entries, List.length_append]
    exact lt

/-- An open log with enough room takes in all errors of lexemes. -/
theorem foldl_report? {xs : List Lexeme} (more : log.exhausted = false)
    (room : log.entries.length + (xs.filterMap Lexeme.fault).length ≤ log.limit) :
    xs.foldl (fun log x => log.report? x.fault) log =
      { log with entries := log.entries ++ xs.filterMap Lexeme.fault } := by
  induction xs generalizing log with
  | nil => simp
  | cons x xs ih =>
    rw [List.foldl_cons]
    cases hx : x.fault with
    | none =>
      rw [List.filterMap_cons_none hx] at room ⊢
      exact ih more room
    | some e =>
      rw [List.filterMap_cons_some hx] at room ⊢
      rw [List.length_cons] at room
      have lt : log.entries.length < log.limit := by omega
      have taken : log.report e = { log with entries := log.entries ++ [e] } := by
        rw [report, more, if_neg Bool.false_ne_true, if_pos lt]
      have more' : (log.report e).exhausted = false := by rw [taken, more]
      have room' : (log.report e).entries.length + (xs.filterMap Lexeme.fault).length ≤
          (log.report e).limit := by
        simp only [taken, List.length_append, List.length_singleton]
        omega
      rw [report?_some, ih more' room', taken]
      simp

end ErrorLog

/-! ## The next lexeme -/

namespace LexemeStream

/-- A lexeme, and the stream in which it brings nothing any more. -/
structure Brings (s : LexemeStream) (x : Lexeme × LexemeStream) : Prop where
  faults : x.1.fault.toList ++ x.2.upcoming.filterMap Lexeme.fault = s.upcoming.filterMap Lexeme.fault
  comments : x.1.comments ++ x.2.upcoming.flatMap (·.comments) = s.upcoming.flatMap (·.comments)
  final : x.2.final = s.final

variable {s : LexemeStream}

theorem brings_next (fault : s.final.fault = none) (comments : s.final.comments = []) :
    s.Brings s.next := by
  unfold next
  cases h : s.upcoming with
  | nil => exact ⟨by simp [fault, h], by simp [comments, h], rfl⟩
  | cons x xs =>
    refine ⟨?_, by simp [h], rfl⟩
    cases hx : x.fault <;> simp [h, hx]

theorem brings_peek (fault : s.final.fault = none) (comments : s.final.comments = []) :
    s.Brings s.peek := by
  unfold peek
  cases h : s.upcoming with
  | nil => exact ⟨by simp [fault, h], by simp [comments, h], rfl⟩
  | cons x xs =>
    refine ⟨?_, by simp [h, Lexeme.settled], rfl⟩
    cases hx : x.fault <;> simp [h, hx, Lexeme.settled]

end LexemeStream

namespace LexemeReader

/-- What a reader has kept of the lexemes `xs`, and what is still to come. -/
structure Fetched (xs : List Lexeme) (limit : Nat) (r : LexemeReader) : Prop where
  faults : r.log.lexical ++ r.stream.upcoming.filterMap Lexeme.fault = xs.filterMap Lexeme.fault
  comments : r.comments.insertAll (r.stream.upcoming.flatMap (·.comments)) =
    CommentMap.insertAll {} (xs.flatMap (·.comments))
  final_fault : r.stream.final.fault = none
  final_comments : r.stream.final.comments = []
  limit_eq : r.log.limit = limit
  room : r.log.entries.length ≤ limit

namespace Fetched

variable {xs : List Lexeme} {limit : Nat} {r : LexemeReader}

/-- Taking a token, or looking at it, brings what belongs to it and nothing else. -/
theorem keep (h : r.Fetched xs limit) (lexical : ∀ x ∈ xs, ∀ e ∈ x.fault, e.cause.isLexical)
    {x : Lexeme × LexemeStream} (brings : r.stream.Brings x)
    (more : (r.keep x).2.log.exhausted = false) : (r.keep x).2.Fetched xs limit := by
  have entries := ErrorLog.entries_report?_of_more more
  have all : ∀ e ∈ xs.filterMap Lexeme.fault, e.cause.isLexical := by
    intro e he
    obtain ⟨y, hy, fault⟩ := List.mem_filterMap.1 he
    exact lexical y hy e fault
  have fresh : x.1.fault.toList.filter (·.cause.isLexical) = x.1.fault.toList := by
    refine List.filter_eq_self.2 fun e he => all e ?_
    rw [← h.faults, ← brings.faults]
    exact List.mem_append_right _ (List.mem_append_left _ he)
  refine ⟨?_, ?_, ?_, ?_, ?_, ?_⟩
  · show (ErrorLog.lexical (r.log.report? x.1.fault)) ++ _ = _
    rw [ErrorLog.lexical, entries, List.filter_append, fresh, List.append_assoc]
    show r.log.lexical ++ (_ ++ x.2.upcoming.filterMap Lexeme.fault) = _
    rw [brings.faults, h.faults]
  · show (r.comments.insertAll x.1.comments).insertAll (x.2.upcoming.flatMap (·.comments)) = _
    rw [CommentMap.insertAll, CommentMap.insertAll, ← List.foldl_append, brings.comments]
    exact h.comments
  · rw [show (r.keep x).2.stream.final = r.stream.final from brings.final, h.final_fault]
  · rw [show (r.keep x).2.stream.final = r.stream.final from brings.final, h.final_comments]
  · exact (ErrorLog.limit_report? _ _).trans h.limit_eq
  · exact h.limit_eq ▸ ErrorLog.length_report?_le_of_more more (h.limit_eq ▸ h.room)

/-- An error in the order of tokens comes between those of tokens. -/
theorem report (h : r.Fetched xs limit) {e : SyntaxError} (he : e.cause.isSyntactic)
    (more : (r.log.report e).exhausted = false) :
    { r with log := r.log.report e }.Fetched xs limit := by
  obtain ⟨entries, lt⟩ := ErrorLog.entries_report_of_more more
  have none : [e].filter (·.cause.isLexical) = [] := by
    simp [Cause.isLexical_of_isSyntactic he]
  refine ⟨?_, h.comments, h.final_fault, h.final_comments, ?_, ?_⟩
  · show (r.log.report e).lexical ++ _ = _
    rw [ErrorLog.lexical, entries, List.filter_append, none, List.append_nil]
    exact h.faults
  · exact (ErrorLog.limit_report? r.log (some e)).trans h.limit_eq
  · show (r.log.report e).entries.length ≤ limit
    rw [entries, List.length_append, ← h.limit_eq]
    exact lt

theorem ofSource (s : Source) (limit : Nat) :
    (LexemeReader.ofSource s limit).Fetched s.lexemes limit :=
  ⟨rfl, rfl, rfl, rfl, rfl, Nat.zero_le limit⟩

/-- Where nothing is left to come, everything of a source is kept. -/
theorem all_ofSource {s : Source} (h : r.Fetched s.lexemes limit)
    (none : r.stream.upcoming = []) :
    r.comments = (LexemeReader.ofSource s limit).all.2.comments ∧
      r.log.lexical = (LexemeReader.ofSource s limit).all.2.log.entries := by
  have faults : r.log.lexical = s.lexemes.filterMap Lexeme.fault := by
    rw [← h.faults, none]
    exact (List.append_nil _).symm
  have comments : r.comments = CommentMap.insertAll {} (s.lexemes.flatMap (·.comments)) := by
    rw [← h.comments, none]
    rfl
  have room : (ErrorLog.mk limit [] false).entries.length +
      (s.lexemes.filterMap Lexeme.fault).length ≤ limit := by
    rw [← faults, List.length_nil, Nat.zero_add]
    exact Nat.le_trans (List.length_filter_le _ _) h.room
  rw [LexemeReader.all_ofSource, ErrorLog.foldl_report? rfl room, comments, faults]
  exact ⟨rfl, rfl⟩

end Fetched

end LexemeReader

/-! ## Whole programs -/

/-- A composed reader fetches one token after the other. -/
theorem Parse.Composed.fetches {α : Type} {p : Parse α} (h : Composed p) {xs : List Lexeme}
    {limit : Nat} (lexical : ∀ x ∈ xs, ∀ e ∈ x.fault, e.cause.isLexical) {s : State}
    (hs : s.lexer.Fetched xs limit) :
    Ensures p s (fun _ s' => s'.lexer.Fetched xs limit) fun _ => True :=
  h.keeps (fun _ he more h => h.report he more)
    (fun more h => h.keep lexical (LexemeStream.brings_next h.final_fault h.final_comments) more)
    (fun more h => h.keep lexical (LexemeStream.brings_peek h.final_fault h.final_comments) more) hs

namespace Source

/-- The codes of errors of tokens and comments. -/
def lexicalCodes : List String := ["E0001", "E0002", "E0003", "E0004"]

theorem code_mem_lexicalCodes (cause : Cause) :
    cause.code ∈ lexicalCodes ↔ cause.isLexical := by
  cases cause with
  | illegalToken text | unfinishedString quote | unfinishedBracket level opener | invalidBracket =>
    exact iff_of_true (by simp [lexicalCodes, Cause.code]) rfl
  | _ => exact iff_of_false (by simp [lexicalCodes, Cause.code]) Bool.false_ne_true

/-- Whatever a reader makes of the tokens of a source, if it comes to a tree then the comments are
those that a lexer finds in the source under the same limit, and the errors of tokens and comments
are those that the lexer finds, in the same order. -/
theorem fetches_program (s : Source) (m : Nat) {tree : Block}
    (h : (s.program m).tree = some tree) :
    (s.program m).comments = (LexemeReader.ofSource s m).all.2.comments ∧
      (s.program m).errors.filter (·.cause.code ∈ lexicalCodes) =
        (LexemeReader.ofSource s m).all.2.log.entries := by
  obtain ⟨more, st, run, program⟩ := exists_run_of_tree h
  have ends := State.ends_ofSource s m
  have composed := composed_rootBlock (composed_nested maxLevels)
  -- The first token is fetched before the first step.
  have lexical : ∀ x ∈ s.lexemes, ∀ e ∈ x.fault, e.cause.isLexical :=
    fun _ => lexical_of_mem_lexemes
  have start : (State.ofSource s m).lexer.Fetched s.lexemes m :=
    (LexemeReader.Fetched.ofSource s m).keep lexical (LexemeStream.brings_next rfl rfl) more
  obtain ⟨steps, fetched⟩ := (composed.fetches lexical start).of_ok run
  obtain ⟨-, eof⟩ := (eof_rootBlock (composed_nested maxLevels) ends).of_ok run
  have none : st.stream.upcoming = [] := (steps.ends ends).kind_eq_eof_iff.1 eof
  obtain ⟨comments, errors⟩ := fetched.all_ofSource none
  rw [program]
  refine ⟨comments, ?_⟩
  rw [← errors, ErrorLog.lexical]
  exact List.filter_congr fun e _ => by simp [code_mem_lexicalCodes]

/-- Two comments and an illegal token, between two errors in the order of tokens. -/
def twoComments : Source := ⟨"", ["-- 1".toList, "x = = $ -- 2".toList, "f( end".toList]⟩

theorem fetches_program_twoComments :
    (twoComments.program 30).tree.isSome ∧ (twoComments.program 30).comments.size = 2 ∧
      (twoComments.program 30).comments = (LexemeReader.ofSource twoComments 30).all.2.comments ∧
      (twoComments.program 30).errors.filter (·.cause.code ∈ lexicalCodes) =
        (LexemeReader.ofSource twoComments 30).all.2.log.entries := by
  have some : (twoComments.program 30).tree.isSome := by decide +kernel
  obtain ⟨tree, h⟩ := Option.isSome_iff_exists.1 some
  exact ⟨some, by decide +kernel, fetches_program twoComments 30 h⟩

end Source

end LuaFront
