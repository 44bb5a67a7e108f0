import LuaFront.Proofs.Brackets
import LuaFront.Proofs.Fetching
import LuaFront.Proofs.Joined

/-!
# Errors of a lexer and invalid tokens

Reading a source up to its end without reaching the limit brings up one error for every token that
is not valid, in their order, and one more if the source ends inside a comment. What stands in front
of the end is followed as text: `Trivia` is what is read over between tokens, and nothing else is.

* `Trivia.taken`: blanks and comments are read as such, and the text behind them as if it stood
  alone.
* `Source.Flawed`: what an error of the lexer says about an invalid token.
* `Source.OpenBehind`: a source ends inside a comment.
* `LexemeReader.errors_all`: the errors of a lexer that runs over a source.
-/

namespace LuaFront

open Text

/-! ## Blanks and comments -/

namespace Bracket

theorem opening?_eq_none {text : Chars} (h : ∀ level, ¬ opening level <+: text) :
    opening? text = none := by
  rw [Option.eq_none_iff_forall_ne_some]
  rintro ⟨level, behind⟩ opened
  exact h level ⟨behind, (eq_of_opening? opened).symm⟩

end Bracket

namespace Piece

/-- Two dashes open a comment. -/
theorem Taken.dashes {text rest : Chars} {piece : Piece} {ps : List Piece}
    (h : comment text = (piece, rest)) (more : Taken rest ps) :
    Taken ('-' :: '-' :: text) (piece :: ps) := by
  refine .cons ?_ more
  rw [← h, first, if_neg (by decide)]
  rfl

theorem comment_short {text rest : Chars} (unopened : ∀ level, ¬ Bracket.opening level <+: text)
    (oneLine : '\n' ∉ text) (stops : ∀ c ∈ rest.head?, c = '\n') :
    comment (text ++ rest) = (.lineComment text, rest) := by
  have apart : Apart rest := fun c hc => .inr (stops c hc)
  have none := Bracket.opening?_append_apart (Bracket.opening?_eq_none unopened) apart
  have all : ∀ c ∈ text, decide (c ≠ '\n') := fun c hc =>
    decide_eq_true fun eq => oneLine (eq ▸ hc)
  have cut := Cut.many_append all fun c hc => by simpa using stops c hc
  obtain ⟨take, drop⟩ := Prod.mk.inj cut
  simp only [comment, none, take, drop]

theorem comment_long {level : Nat} {text : Chars}
    (first : ∀ front back,
      text ++ Bracket.closing level = front ++ Bracket.closing level ++ back → back = [])
    (rest : Chars) :
    comment (Bracket.opening level ++ text ++ Bracket.closing level ++ rest) =
      (.blockComment level text true (blankToLineEnd rest), rest) := by
  rw [List.append_assoc, List.append_assoc, comment, Bracket.opening?_append]
  simp only [← List.append_assoc, Bracket.body?_append first rest]

theorem comment_unclosed {level : Nat} {text : Chars} (never : ¬ Bracket.closing level <:+: text) :
    comment (Bracket.opening level ++ text) = (.blockComment level text false true, []) := by
  rw [comment, Bracket.opening?_append]
  simp only [Bracket.body?_eq_none_iff.2 never]

end Piece

/-- Pieces that are no tokens. -/
def Piece.NoTokens (ps : List Piece) : Prop := ∀ p ∈ ps, ∀ t, p ≠ .token t

theorem Piece.NoTokens.nil : NoTokens [] := List.forall_mem_nil _

theorem Piece.NoTokens.cons {p : Piece} {ps : List Piece} (h : NoTokens ps)
    (none : ∀ t, p ≠ .token t) : NoTokens (p :: ps) := List.forall_mem_cons.2 ⟨none, h⟩

/-- Blanks and comments are read as such, and the text behind them as if it stood alone. -/
theorem Trivia.taken {gap behind : Chars} (h : Trivia gap behind) {ps : List Piece}
    (taken : Piece.Taken behind ps) :
    ∃ qs, Piece.Taken (gap ++ behind) (qs ++ ps) ∧ Piece.NoTokens qs := by
  induction h with
  | nil => exact ⟨[], taken, .nil⟩
  | @space c _ _ blank _ ih =>
    obtain ⟨qs, ih, noTokens⟩ := ih taken
    exact ⟨.space c :: qs, .cons (if_pos blank) ih, noTokens.cons fun _ h => nomatch h⟩
  | @short text gap behind unopened oneLine stops _ ih =>
    obtain ⟨qs, ih, noTokens⟩ := ih taken
    have read := Piece.Taken.dashes (Piece.comment_short unopened oneLine stops) ih
    exact ⟨.lineComment text :: qs, by simpa using read, noTokens.cons fun _ h => nomatch h⟩
  | @long level text gap behind first _ ih =>
    obtain ⟨qs, ih, noTokens⟩ := ih taken
    have read := Piece.Taken.dashes (Piece.comment_long first (gap ++ behind)) ih
    exact ⟨.blockComment level text true _ :: qs, by simpa using read,
      noTokens.cons fun _ h => nomatch h⟩
  | @unclosed level text never =>
    cases taken
    have read := Piece.Taken.dashes (Piece.comment_unclosed never) .nil
    exact ⟨[.blockComment level text false true], by simpa using read,
      Piece.NoTokens.nil.cons fun _ h => nomatch h⟩

/-! ## What errors say -/

/-- What an error of the lexer says about a token that is not valid. -/
inductive Source.Flawed (s : Source) (t : Token) : SyntaxError → Prop
  | illegal (kind : t.kind = .illegal) : s.Flawed t ⟨.illegalToken t.text, t.location⟩
  /-- A quoted string breaks off at the end of a line. -/
  | unfinished {quote : Char} {text : Chars} (kind : t.kind = .string)
      (quotes : quote = '\x22' ∨ quote = '\x27') (spelled : s.slice t.location = quote :: text)
      (stop : t.location.stop.column = byteSize (s.line t.location.stop.line)) :
      s.Flawed t ⟨.unfinishedString quote, .point t.location.stop⟩
  /-- A long string goes on to the end of the source, since nothing closes it. -/
  | unclosed {level : Nat} (kind : t.kind = .string)
      (spelled : s.slice t.location = Bracket.opening level ++ t.text.toList)
      (never : ¬ Bracket.closing level <:+: t.text.toList)
      (stop : t.location.stop = s.endPosition) :
      s.Flawed t ⟨.unfinishedBracket level
        ⟨t.location.start, t.location.start.after (Bracket.opening level)⟩, s.endLocation⟩
  /-- The second opening bracket is missing behind the equals signs. -/
  | halfOpen {count : Nat} (kind : t.kind = .string)
      (spelled : s.slice t.location = '[' :: List.replicate (count + 1) '=')
      (other : (s.slice ⟨t.location.stop, s.endPosition⟩).head? ≠ some '[') :
      s.Flawed t ⟨.invalidBracket, t.location⟩

/-- Behind a place of a source there are only blanks and comments, and the last of these is a long
one which nothing closes. -/
def Source.OpenBehind (s : Source) (p : Position) (level : Nat) (opener : Location) : Prop :=
  ∃ gap text, s.slice ⟨p, s.endPosition⟩ = gap ++ '-' :: '-' :: (Bracket.opening level ++ text) ∧
    Trivia gap ('-' :: '-' :: (Bracket.opening level ++ text)) ∧
    ¬ Bracket.closing level <:+: text ∧
    opener = ⟨p.after gap, (p.after gap).after ('-' :: '-' :: Bracket.opening level)⟩

/-- Where the last one of some tokens stops, or a place if there is none. -/
def Token.lastStop (p : Position) (ts : List Token) : Position :=
  ts.foldl (fun _ t => t.location.stop) p

/-- The error of a lexeme says what is wrong with its token, and there is none if it is valid. -/
def Lexeme.Judged (s : Source) (x : Lexeme) : Prop :=
  match x.fault with
  | none => x.token.valid
  | some e => x.token.valid = false ∧ s.Flawed x.token e

/-! ## Errors of tokens -/

namespace Source

variable {s : Source}

/-- A place in front of a line break, or at the end of the source, is at the end of its line. -/
theorem column_after (split : s.IsSplit) {front rest : Chars} (eq : s.text = front ++ rest)
    (stops : ∀ c ∈ rest.head?, c = '\n') :
    (({} : Position).after front).column =
      byteSize (s.line (({} : Position).after front).line) := by
  obtain ⟨lead, line, column⟩ := line_after split eq
  rw [line, takeWhile_of_stops stops, List.append_nil, column]

end Source

namespace Margin

variable {s : Source} {m : Margin} {before rest : Chars} {t : Lexical}

theorem flawed_lexeme (split : s.IsSplit) (hm : m.position = ({} : Position).after before)
    (eq : s.text = before ++ t.spelling ++ rest) {flaw : Flaw} (h : t.Flawed rest flaw) :
    s.Flawed (m.lexeme t).token (flaw.error (String.ofList t.text) (m.place t)) := by
  have stop : m.position.after t.spelling = ({} : Position).after (before ++ t.spelling) := by
    rw [hm, ← Position.after_append]
  have spelled : s.slice (m.place t) = t.spelling := by
    rw [Margin.place, stop, hm]
    exact Source.slice_between split eq
  cases h with
  | illegal kind => exact .illegal kind
  | unfinished kind quotes spelling stops =>
    refine .unfinished kind quotes (spelled.trans spelling) ?_
    show (m.position.after t.spelling).column = byteSize (s.line (m.position.after t.spelling).line)
    rw [stop]
    exact Source.column_after split eq stops
  | @unclosed level kind spelling never last =>
    have ends : m.position.after t.spelling = s.endPosition := by
      rw [stop, ← Source.after_text split, eq, last, List.append_nil]
    have unclosed : s.Flawed (m.lexeme t).token ⟨.unfinishedBracket level
        ⟨m.position, m.position.after (Bracket.opening level)⟩, s.endLocation⟩ :=
      .unclosed kind (by simpa [lexeme] using spelled.trans spelling)
        (by simpa [lexeme] using never) ends
    rwa [Source.endLocation, ← ends] at unclosed
  | halfOpen kind spelling other =>
    refine .halfOpen kind (spelled.trans spelling) ?_
    show (s.slice ⟨m.position.after t.spelling, s.endPosition⟩).head? ≠ some '['
    rw [stop, Source.slice_behind split eq]
    exact other

theorem judged_lexeme (split : s.IsSplit) (hm : m.position = ({} : Position).after before)
    (eq : s.text = before ++ t.spelling ++ rest)
    (flawed : ∀ flaw, t.flaw = some flaw → t.Flawed rest flaw) : (m.lexeme t).Judged s := by
  cases h : t.flaw with
  | none => simp [Lexeme.Judged, lexeme, h]
  | some flaw =>
    have error := flawed_lexeme split hm eq (flawed flaw h)
    simpa [Lexeme.Judged, lexeme, h] using error

end Margin

namespace Lexeme

variable {s : Source}

theorem TakenFrom.judged {x : Lexeme} (h : x.TakenFrom s.text) (split : s.IsSplit) :
    x.Judged s := by
  obtain @⟨before, text, rest, c, t, m, eq, first, position⟩ := h
  have spelled := Piece.spelling_first c text
  rw [first] at spelled
  rw [← spelled, ← List.append_assoc] at eq
  exact Margin.judged_lexeme split position eq fun flaw => Piece.flawed_of_first first

end Lexeme

/-! ## The error of a comment -/

/-- Pieces in front of others that are no tokens are blanks and comments. -/
theorem Piece.Taken.trivia {text : Chars} {qs ps : List Piece} (h : Taken text (qs ++ ps))
    (noTokens : NoTokens qs) :
    ∃ rest, text = qs.flatMap spelling ++ rest ∧ Trivia (qs.flatMap spelling) rest ∧
      Taken rest ps := by
  induction qs generalizing text with
  | nil => exact ⟨text, rfl, .nil, h⟩
  | cons q qs ih =>
    obtain ⟨none, noTokens⟩ := List.forall_mem_cons.1 noTokens
    obtain _ | @⟨c, text, behind, _, _, first, more⟩ := h
    obtain ⟨rest, rfl, trivia, taken⟩ := ih more noTokens
    have spelled := spelling_first c text
    have head := @trivia_first c text (by rwa [first])
    rw [first] at spelled head
    refine ⟨rest, ?_, head.append trivia, taken⟩
    rw [← spelled, List.flatMap_cons, List.append_assoc]

namespace Source

variable {s : Source} {front tail : Chars} {level : Nat} {opener : Location}

/-- A source ends inside a comment behind a place just if its last piece is an open comment, and
no token stands between. -/
theorem openBehind_iff (split : s.IsSplit) (eq : s.text = front ++ tail) :
    s.OpenBehind (({} : Position).after front) level opener ↔
      ∃ qs text alone, Piece.Taken tail (qs ++ [.blockComment level text false alone]) ∧
        Piece.NoTokens qs ∧
        opener = ⟨({} : Position).after (front ++ qs.flatMap Piece.spelling),
          (({} : Position).after (front ++ qs.flatMap Piece.spelling)).after
            ('-' :: '-' :: Bracket.opening level)⟩ := by
  constructor
  · rintro ⟨gap, text, slice, trivia, never, opener⟩
    rw [slice_behind split eq] at slice
    obtain ⟨qs, taken, noTokens⟩ := trivia.taken (.dashes (Piece.comment_unclosed never) .nil)
    have spelled : qs.flatMap Piece.spelling = gap := by
      have whole := taken.flatMap_spelling
      simpa [Piece.spelling] using whole
    refine ⟨qs, text, true, slice ▸ taken, noTokens, ?_⟩
    rw [spelled, Position.after_append]
    exact opener
  · rintro ⟨qs, text, alone, taken, noTokens, opener⟩
    obtain ⟨rest, cut, trivia, taken⟩ := taken.trivia noTokens
    have spelled := taken.flatMap_spelling
    obtain _ | ⟨first, -⟩ := taken
    simp only [List.flatMap_cons, List.flatMap_nil, List.append_nil, Piece.spelling,
      Bool.false_eq_true, if_false] at spelled
    rw [← spelled] at trivia cut
    have never := (Piece.never_of_unclosed first).2
    refine ⟨_, text, (slice_behind split eq).trans cut, trivia, never, ?_⟩
    rw [opener, Position.after_append]

/-- Behind a place from where all pieces are sound, no comment is open. -/
theorem not_openBehind (split : s.IsSplit) (eq : s.text = front ++ tail) {qs : List Piece}
    (taken : Piece.Taken tail qs) (sound : ∀ q ∈ qs, q.isSound) :
    ¬ s.OpenBehind (({} : Position).after front) level opener := by
  intro isOpen
  obtain ⟨qs', text, alone, other, -⟩ := (openBehind_iff split eq).1 isOpen
  have same := taken.eq_ofText.symm.trans other.eq_ofText
  exact absurd (sound (.blockComment level text false alone) (by simp [same])) Bool.false_ne_true

/-- The last piece of a source is the only one that can be an open comment. -/
theorem openBehind_iff_of_taken (split : s.IsSplit) (eq : s.text = front ++ tail)
    {qs : List Piece} {text : Chars} {alone : Bool}
    (taken : Piece.Taken tail (qs ++ [.blockComment level text false alone]))
    (noTokens : Piece.NoTokens qs) {level' : Nat} :
    s.OpenBehind (({} : Position).after front) level' opener ↔ level' = level ∧
      opener = ⟨({} : Position).after (front ++ qs.flatMap Piece.spelling),
        (({} : Position).after (front ++ qs.flatMap Piece.spelling)).after
          ('-' :: '-' :: Bracket.opening level)⟩ := by
  rw [openBehind_iff split eq]
  constructor
  · rintro ⟨qs', text', alone', other, -, rfl⟩
    have same := taken.eq_ofText.symm.trans other.eq_ofText
    obtain ⟨rfl, last⟩ := List.append_inj' same rfl
    obtain ⟨rfl, -⟩ := Piece.blockComment.inj (List.singleton_inj.1 last)
    exact ⟨rfl, rfl⟩
  · rintro ⟨rfl, rfl⟩
    exact ⟨qs, text, alone, taken, noTokens, rfl⟩

end Source

namespace Lexeme

variable {s : Source}

/-- An open comment leaves an error, and there is no other comment which the source ends inside. -/
theorem open_blockComment (split : s.IsSplit) {m : Margin} {front tail : Chars} {qs : List Piece}
    {level : Nat} {text : Chars} {alone : Bool} (eq : s.text = front ++ tail)
    (taken : Piece.Taken tail (qs ++ [.blockComment level text false alone]))
    (noTokens : Piece.NoTokens qs)
    (hm : m.position = ({} : Position).after (front ++ qs.flatMap Piece.spelling))
    (e : SyntaxError) :
    (m.blockComment level text false alone).fault = some e ↔ ∃ level opener,
      s.OpenBehind (({} : Position).after front) level opener ∧
      e = ⟨.unfinishedBracket level opener, s.endLocation⟩ := by
  have ends : (m.blockComment level text false alone).position = s.endPosition := by
    have whole := taken.flatMap_spelling
    rw [List.flatMap_append, List.flatMap_singleton] at whole
    rw [← Source.after_text split, eq, ← whole, ← List.append_assoc, Position.after_append, ← hm]
    rfl
  have opened : (m.blockComment level text false alone).fault = some ⟨.unfinishedBracket level
      ⟨m.position, m.position.after ('-' :: '-' :: Bracket.opening level)⟩, s.endLocation⟩ := by
    rw [Source.endLocation, ← ends]
    rfl
  have isOpen {level'} {opener} :=
    @Source.openBehind_iff_of_taken _ _ _ level opener split eq _ _ _ taken noTokens level'
  rw [opened, hm]
  constructor
  · rintro ⟨⟩
    exact ⟨level, _, isOpen.2 ⟨rfl, rfl⟩, rfl⟩
  · rintro ⟨level', opener, behind, rfl⟩
    obtain ⟨rfl, rfl⟩ := isOpen.1 behind
    rfl

/-- The error that is left at the end is that of a comment which the source ends inside. -/
theorem open_foldl (split : s.IsSplit) {m : Margin} {front tail : Chars} {qs ps : List Piece}
    (eq : s.text = front ++ tail) (taken : Piece.Taken tail (qs ++ ps))
    (noTokens : Piece.NoTokens qs) (sound : ∀ q ∈ qs, q.isSound)
    (hm : m.position = ({} : Position).after (front ++ qs.flatMap Piece.spelling))
    (fault : m.fault = none) (e : SyntaxError) :
    (ps.foldl Margin.past m).fault = some e ↔ ∃ level opener,
      s.OpenBehind (Token.lastStop (({} : Position).after front)
        ((ofPieces m ps).dropLast.map (·.token))) level opener ∧
      e = ⟨.unfinishedBracket level opener, s.endLocation⟩ := by
  induction ps generalizing front tail qs m with
  | nil =>
    refine iff_of_false (by simp [fault]) ?_
    rintro ⟨level, opener, isOpen, -⟩
    rw [List.append_nil] at taken
    exact Source.not_openBehind split eq taken sound isOpen
  | cons piece ps ih =>
    have position : (m.past piece).position =
        ({} : Position).after (front ++ qs.flatMap Piece.spelling ++ piece.spelling) := by
      rw [m.position_past, hm, ← Position.after_append]
    -- What is neither a token nor open joins the pieces behind the last token.
    have join (none : ∀ t, piece ≠ .token t) (closed : piece.isSound)
        (keeps : (m.past piece).fault = .none) :
        (ps.foldl Margin.past (m.past piece)).fault = some e ↔ ∃ level opener,
          s.OpenBehind (Token.lastStop (({} : Position).after front)
            ((ofPieces (m.past piece) ps).dropLast.map (·.token))) level opener ∧
          e = ⟨.unfinishedBracket level opener, s.endLocation⟩ := by
      refine @ih (m.past piece) front tail (qs ++ [piece]) eq (by simpa using taken) ?_ ?_ ?_ keeps
      · exact List.forall_mem_append.2 ⟨noTokens, by simpa using none⟩
      · exact List.forall_mem_append.2 ⟨sound, by simpa using closed⟩
      · rw [position, List.append_assoc]
        simp
    cases piece with
    | space c => exact join (fun _ h => nomatch h) rfl fault
    | lineComment text => exact join (fun _ h => nomatch h) rfl fault
    | blockComment level text closed alone =>
      cases closed with
      | true => exact join (fun _ h => nomatch h) rfl fault
      | false =>
        obtain ⟨_, _, _, last⟩ := taken.trivia noTokens
        obtain _ | ⟨first, more⟩ := last
        obtain rfl := Piece.rest_of_unclosed first
        cases more
        exact open_blockComment split eq taken noTokens hm e
    | token t =>
      obtain ⟨rest, cut, trivia, next⟩ := taken.trivia noTokens
      obtain _ | @⟨c, text, behind, _, _, first, more⟩ := next
      have spelled := Piece.spelling_first c text
      rw [first] at spelled
      have eq' : s.text = front ++ qs.flatMap Piece.spelling ++ t.spelling ++ behind := by
        rw [eq, cut, ← spelled]
        simp [Piece.spelling]
      have position : (m.token t).position =
          ({} : Position).after (front ++ qs.flatMap Piece.spelling ++ t.spelling) := position
      have later := @ih (m.token t) _ behind [] eq' more .nil (List.forall_mem_nil _)
        (by simpa using position) rfl
      rw [List.foldl_cons, ofPieces, List.dropLast_cons_of_ne_nil (ofPieces_ne_nil _ ps)]
      rw [← position] at later
      exact later

end Lexeme

/-! ## Reading a whole source -/

namespace ErrorLog

/-- A log that stays open was open before. -/
theorem more_of_report? {log : ErrorLog} {e : Option SyntaxError}
    (more : (log.report? e).exhausted = false) : log.exhausted = false := by
  cases e with
  | none => exact more
  | some e =>
    rw [report?_some, report] at more
    split at more
    · exact more
    · next isOpen => exact Bool.eq_false_iff.2 isOpen

/-- A log that stays open while it takes in the errors of lexemes has all of them. -/
theorem entries_foldl_of_more {xs : List Lexeme} {log : ErrorLog}
    (more : (xs.foldl (fun log x => log.report? x.fault) log).exhausted = false) :
    (xs.foldl (fun log x => log.report? x.fault) log).entries =
      log.entries ++ xs.filterMap Lexeme.fault := by
  induction xs using List.reverseRecOn with
  | nil => simp
  | append_singleton xs x ih =>
    rw [List.foldl_append, List.foldl_cons, List.foldl_nil] at more ⊢
    rw [entries_report?_of_more more, ih (more_of_report? more), List.filterMap_append,
      List.append_assoc]
    cases h : x.fault <;> simp [h]

end ErrorLog

/-- The errors of judged lexemes are those of the tokens that are not valid. -/
theorem Lexeme.forall₂_flawed {s : Source} {xs : List Lexeme} (h : ∀ x ∈ xs, x.Judged s) :
    List.Forall₂ s.Flawed ((xs.map (·.token)).filter (!·.valid)) (xs.filterMap Lexeme.fault) := by
  induction xs with
  | nil => exact .nil
  | cons x xs ih =>
    obtain ⟨judged, later⟩ := List.forall_mem_cons.1 h
    rw [Judged] at judged
    cases fault : x.fault with
    | none =>
      rw [fault] at judged
      have valid : x.token.valid := judged
      simpa [fault, valid] using ih later
    | some e =>
      rw [fault] at judged
      obtain ⟨invalid, flawed⟩ := judged
      simpa [fault, invalid] using List.Forall₂.cons flawed (ih later)

/-- The errors of a lexer that runs over a source without reaching its limit are those of the
tokens that are not valid, one for each and in their order. Another one stands behind them just if
the source ends inside a comment: then nothing but blanks and comments stands behind the last token,
and the last comment is a long one that nothing closes. -/
theorem LexemeReader.errors_all (name : String) (bytes : List UInt8) (limit : Nat) :
    let s := Source.ofBytes name bytes
    let (ts, r) := (ofSource s limit).all
    r.log.exhausted = false →
      ∃ (es : List SyntaxError) (last : Option SyntaxError),
        r.log.entries = es ++ last.toList ∧
        List.Forall₂ s.Flawed (ts.filter (!·.valid)) es ∧
        ∀ e, last = some e ↔ ∃ level opener,
          s.OpenBehind (Token.lastStop {} (Token.front ts)) level opener ∧
          e = ⟨.unfinishedBracket level opener, s.endLocation⟩ := by
  intro s
  rw [all_ofSource]
  intro more
  have split : s.IsSplit := Source.isSplit_ofBytes name bytes
  have taken : Piece.Taken s.text (Piece.ofText s.text) := Piece.taken_ofText s.text
  let last := (Piece.ofText s.text).foldl Margin.past {}
  have concat : s.lexemes = s.lexemes.dropLast ++ [last.endOfInput] :=
    (List.dropLast_append_getLast? _ (Lexeme.getLast?_ofPieces {} _)).symm
  have tokens : s.lexemes.map (·.token) =
      s.lexemes.dropLast.map (·.token) ++ [last.endOfInput.token] := by
    rw [concat, List.map_append, List.map_singleton, List.dropLast_concat]
  have front : Token.front (s.lexemes.map (·.token)) = s.lexemes.dropLast.map (·.token) := by
    have noEnd : ∀ t ∈ s.lexemes.dropLast.map (·.token), t.kind ≠ .eof := by
      rw [List.map_dropLast]
      exact fun t => s.kind_ne_eof_of_mem_tokens
    rw [tokens]
    exact Token.front_concat noEnd rfl
  have judged : ∀ x ∈ s.lexemes.dropLast, x.Judged s :=
    fun x hx => (Lexeme.takenFrom_ofPieces taken (List.nil_append _).symm rfl x hx).judged split
  refine ⟨s.lexemes.dropLast.filterMap Lexeme.fault, last.fault, ?_, ?_, ?_⟩
  · rw [ErrorLog.entries_foldl_of_more more, List.nil_append]
    conv_lhs => rw [concat, List.filterMap_append]
    congr 1
  · rw [tokens, List.filter_append]
    simpa [Margin.endOfInput] using Lexeme.forall₂_flawed judged
  · rw [front]
    exact @Lexeme.open_foldl s split {} [] s.text [] _ rfl taken .nil
      (List.forall_mem_nil _) rfl rfl

/-- Three tokens that are not valid, and an open comment behind them. -/
theorem LexemeReader.errors_all_fourErrors :
    let s := Source.ofBytes "" "x = $ [=y \"a\n -- b\n--[=[c".toUTF8.toList
    let read := (ofSource s 30).all
    read.2.log.exhausted = false ∧ (read.1.filter (!·.valid)).length = 3 ∧
      List.Forall₂ s.Flawed (read.1.filter (!·.valid)) (read.2.log.entries.take 3) ∧
      ∃ level opener, s.OpenBehind (Token.lastStop {} (Token.front read.1)) level opener ∧
        read.2.log.entries.drop 3 = [⟨.unfinishedBracket level opener, s.endLocation⟩] := by
  intro s read
  have more : read.2.log.exhausted = false := by decide +kernel
  have three : (read.1.filter (!·.valid)).length = 3 := by decide +kernel
  have four : read.2.log.entries.length = 4 := by decide +kernel
  obtain ⟨es, last, entries, flawed, isOpen⟩ :=
    errors_all "" "x = $ [=y \"a\n -- b\n--[=[c".toUTF8.toList 30 more
  have entries : read.2.log.entries = es ++ last.toList := entries
  have length : es.length = 3 := flawed.length_eq.symm.trans three
  cases last with
  | none =>
    rw [entries, Option.toList_none, List.append_nil, length] at four
    exact absurd four (by decide)
  | some e =>
    obtain ⟨level, opener, behind, eq⟩ := (isOpen e).1 rfl
    refine ⟨more, three, ?_, level, opener, behind, ?_⟩
    · rw [entries, ← length, List.take_left]
      exact flawed
    · rw [entries, ← length, List.drop_left, eq]
      rfl

end LuaFront
