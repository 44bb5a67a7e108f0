import LuaFront.Proofs.Breaks
import LuaFront.Proofs.Faults
import LuaFront.Proofs.Moved
import LuaFront.Proofs.Spellings
import LuaFront.Proofs.Wording

/-!
# Texts with a line break between them

A text that is lexed without errors leaves nothing open at its end: every string and every long
comment in it is closed, and all else stops at the end of a line. So what follows behind a line
break is read as if it stood alone, further down.

* `Piece.first_break`: a sound piece is read as if no further line stood behind the text.
* `Piece.ofText_break`: the pieces of two texts with a line break between them.
* `LexemeReader.all_break`: the tokens and errors of two files with a line break between them.
-/

namespace LuaFront

open Text

/-! ## One piece in front of a line break -/

theorem Text.apart_break (rest : Chars) : Apart ('\n' :: rest) := by
  rintro c ⟨⟩
  exact .inr rfl

namespace Quoted

/-- A string that is closed stops at its quote, whatever stands behind. -/
theorem read_append {quote : Char} {skipping : Bool} {cs : Chars}
    (h : (read quote skipping cs).closed) (rest : Chars) :
    read quote skipping (cs ++ rest) =
      { read quote skipping cs with rest := (read quote skipping cs).rest ++ rest } := by
  fun_induction read quote skipping cs with
  | case1 | case4 | case5 => cases h
  | _ =>
    rw [List.cons_append, read.eq_def]
    simp_all [behind]

end Quoted

namespace Bracket

theorem isInk_opening (level : Nat) : ∀ c ∈ opening level, isInk c := by
  intro c hc
  simp only [opening, List.mem_cons, List.mem_append, List.mem_replicate, List.not_mem_nil,
    or_false] at hc
  rcases hc with rfl | ⟨-, rfl⟩ | rfl <;> decide

/-- What opens no long bracket does not open one with a boundary behind it. -/
theorem opening?_append_apart {text rest : Chars} (h : opening? text = none) (apart : Apart rest) :
    opening? (text ++ rest) = none := by
  rw [Option.eq_none_iff_forall_ne_some]
  rintro ⟨level, behind⟩ opened
  have stripped : strip? (opening level) (text ++ rest) = some behind :=
    strip?_eq_some_iff.2 (eq_of_opening? opened)
  rw [strip?_append_apart (isInk_opening level) text apart, Option.map_eq_some_iff] at stripped
  obtain ⟨more, stripped, -⟩ := stripped
  exact not_opening_of_opening? h level ⟨more, (strip?_eq_some_iff.1 stripped).symm⟩

/-- A long bracket that is closed stays what it is, whatever stands behind it. -/
theorem closed_append {text behind body after : Chars} {level : Nat}
    (opened : opening? text = some (level, behind))
    (closed : body? level behind = some (body, after)) (rest : Chars) :
    opening? (text ++ rest) = some (level, behind ++ rest) ∧
      body? level (behind ++ rest) = some (body, after ++ rest) := by
  have opened' := opening?_append level (behind ++ rest)
  have closed' := body?_append (fun _ _ => first_of_body? closed) (after ++ rest)
  rw [← List.append_assoc, ← eq_of_opening? opened] at opened'
  rw [← List.append_assoc, ← eq_of_body? closed] at closed'
  exact ⟨opened', closed'⟩

end Bracket

namespace Piece

/-- Whether nothing is wrong with a piece. -/
def isSound : Piece → Bool
  | .blockComment _ _ closed _ => closed
  | .token t => t.flaw.isNone
  | _ => true

theorem blankToLineEnd_break (text rest : Chars) :
    blankToLineEnd (text ++ '\n' :: rest) = blankToLineEnd text := by
  have apart : ∀ c ∈ ('\n' :: rest).head?, ¬ isBlank c := by
    rintro c ⟨⟩
    decide
  have cut := congrArg Prod.snd <| (Cut.Within.many fun _ h => h).append text apart
  simp only [Cut.many] at cut
  rw [blankToLineEnd, blankToLineEnd, cut]
  cases text.dropWhile isBlank <;> rfl

variable {c : Char} {text : Chars} (rest : Chars)

theorem comment_break (sound : (comment text).1.isSound) :
    comment (text ++ '\n' :: rest) = ((comment text).1, (comment text).2 ++ '\n' :: rest) := by
  cases opened : Bracket.opening? text with
  | none =>
    have apart : ∀ c ∈ ('\n' :: rest).head?, ¬ decide (c ≠ '\n') := by
      rintro c ⟨⟩
      decide
    have cut := (Cut.Within.many fun _ h => h).append text apart
    simp only [Cut.many, Prod.mk.injEq] at cut
    simp only [comment, opened, Bracket.opening?_append_apart opened (apart_break rest), cut]
  | some found =>
    obtain ⟨level, behind⟩ := found
    cases closed : Bracket.body? level behind with
    | none => simp [comment, opened, closed, isSound] at sound
    | some cut =>
      obtain ⟨body, after⟩ := cut
      obtain ⟨opened', closed'⟩ := Bracket.closed_append opened closed ('\n' :: rest)
      simp only [comment, opened, opened', closed, closed', blankToLineEnd_break]

theorem quoted_break {quote : Char} (sound : (quoted quote text).1.flaw = none) :
    quoted quote (text ++ '\n' :: rest) =
      ((quoted quote text).1, (quoted quote text).2 ++ '\n' :: rest) := by
  have closed : (Quoted.read quote false text).closed := by
    simpa [quoted] using sound
  simp only [quoted, Quoted.read_append closed]

theorem bracketed_break (sound : (bracketed text).1.flaw = none) :
    bracketed (text ++ '\n' :: rest) =
      ((bracketed text).1, (bracketed text).2 ++ '\n' :: rest) := by
  cases opened : Bracket.opening? text with
  | none => simp [bracketed, opened] at sound
  | some found =>
    obtain ⟨level, behind⟩ := found
    cases closed : Bracket.body? level behind with
    | none => simp [bracketed, opened, closed] at sound
    | some cut =>
      obtain ⟨body, after⟩ := cut
      obtain ⟨opened', closed'⟩ := Bracket.closed_append opened closed ('\n' :: rest)
      simp only [bracketed, opened, opened', closed, closed']

/-- A sound piece is read as if no further line stood behind the text. -/
theorem first_break (sound : (first c text).1.isSound) :
    first c (text ++ '\n' :: rest) = ((first c text).1, (first c text).2 ++ '\n' :: rest) := by
  unfold first
  unfold first at sound
  split
  · rfl
  next solid =>
  have ink : ['-', '-'].all isInk := by decide
  have dashes := strip?_append_apart (List.all_eq_true.1 ink) (c :: text) (apart_break rest)
  rw [← List.cons_append, dashes]
  rw [if_neg solid] at sound
  cases found : strip? ['-', '-'] (c :: text) with
  | some behind =>
    rw [found] at sound
    exact comment_break rest sound
  | none =>
    rw [found] at sound
    simp only [Option.map_none]
    by_cases quote : c = '\x22' ∨ c = '\x27'
    · have flaw : (quoted c text).1.flaw = none := by simpa [isSound, lexical, quote] using sound
      simp only [lexical, if_pos quote, quoted_break rest flaw]
    have starts := startsWith_append (apart_break rest) isInk_of_bracket text
    by_cases bracket : c = '[' ∧ startsWith (fun d => d = '[' || d = '=') text
    · have flaw : (bracketed (c :: text)).1.flaw = none := by
        simpa [isSound, lexical, quote, bracket] using sound
      simp only [lexical, if_neg quote, starts, if_pos bracket, ← List.cons_append,
        bracketed_break rest flaw]
    · rw [lexical_append (apart_break rest) quote bracket]

/-! ## All pieces -/

/-- The pieces of a text without flaws stay what they are if further lines follow. -/
theorem Taken.break {ps qs : List Piece} (h : Taken text ps) (sound : ∀ p ∈ ps, p.isSound)
    (more : Taken rest qs) : Taken (text ++ '\n' :: rest) (ps ++ .space '\n' :: qs) := by
  induction h with
  | nil => exact .cons rfl more
  | @cons c text behind piece ps first _ ih =>
    have alone : (Piece.first c text).1.isSound := first ▸ sound piece List.mem_cons_self
    have joined := first_break rest alone
    rw [first] at joined
    exact .cons joined (ih fun p hp => sound p (List.mem_cons_of_mem piece hp))

theorem ofText_break (sound : ∀ p ∈ ofText text, p.isSound) :
    ofText (text ++ '\n' :: rest) = ofText text ++ .space '\n' :: ofText rest :=
  ((taken_ofText text).break rest sound (taken_ofText rest)).eq_ofText

/-- Something is wrong with a lexeme if something is wrong with a piece. -/
theorem Taken.sound {ps : List Piece} (h : Taken text ps) {m : Margin}
    (clean : ∀ x ∈ Lexeme.ofPieces m ps, x.fault = none) : ∀ p ∈ ps, p.isSound := by
  induction h generalizing m with
  | nil => exact nofun
  | @cons c text behind piece ps first more ih =>
    rw [Lexeme.ofPieces_cons] at clean
    have later := ih fun x hx => clean x (List.mem_append_right _ hx)
    refine List.forall_mem_cons.2 ⟨?_, later⟩
    cases piece with
    | token t =>
      have fault := clean _ (List.mem_append_left _ (List.mem_singleton.2 rfl))
      exact Option.isNone_iff_eq_none.2 (Option.map_eq_none_iff.1 fault)
    | blockComment level body closed alone =>
      cases closed with
      | true => rfl
      | false =>
        obtain rfl := rest_of_unclosed first
        cases more
        exact nomatch clean _ (List.mem_append_right _ (List.mem_singleton.2 rfl))
    | _ => rfl

end Piece

/-! ## Lexemes -/

namespace Source

variable {s t u : Source}

/-- Behind a source without errors, another one makes up its lexemes on the lines below. -/
theorem lexemes_break (hs : s.IsSplit) (clean : s.Clean)
    (text : u.text = s.text ++ '\n' :: t.text) :
    ∃ ys, u.lexemes = s.lexemes.dropLast ++ ys ∧
      List.Forall₂ (Lexeme.Moved (s.endPosition.line + 1)) t.lexemes ys := by
  have sound := (Piece.taken_ofText s.text).sound clean
  let m := (Piece.ofText s.text).foldl Margin.past {}
  have position : m.position = s.endPosition := by
    rw [Margin.position_foldl, Piece.flatMap_spelling_ofText, after_text hs]
  have fault : m.fault = none := by
    have last := Lexeme.getLast?_ofPieces {} (Piece.ofText s.text)
    exact clean _ (List.mem_of_getLast? last)
  have below : Margin.Moved (s.endPosition.line + 1) {} (m.space '\n') := by
    refine ⟨?_, fault⟩
    rw [Margin.space, position, Position.advance, if_pos rfl, Position.down, Position.mk.injEq]
    exact ⟨(Nat.zero_add _).symm, rfl⟩
  refine ⟨_, ?_, Lexeme.moved_ofPieces below (Piece.ofText t.text)⟩
  rw [lexemes, text, Piece.ofText_break t.text sound, Lexeme.ofPieces_append]
  rfl

/-- All tokens of a source are those in front of the end of input, and the end of input. -/
theorem map_token_lexemes (s : Source) :
    ∃ last, s.lexemes.map (·.token) = s.tokens ++ [last] ∧ last.kind = .eof := by
  obtain ⟨xs, m', eq, -⟩ := s.lexemes_eq_concat
  refine ⟨m'.endOfInput.token, ?_, rfl⟩
  rw [tokens, eq, List.map_append, List.map_singleton, List.dropLast_concat]

end Source

/-! ## Reading files -/

/-- The tokens in front of the first end of input. -/
def Token.front (ts : List Token) : List Token := ts.takeWhile (·.kind ≠ .eof)

/-- The first end of input. -/
def Token.eof? (ts : List Token) : Option Token := ts.find? (·.kind = .eof)

namespace Token

variable {ts : List Token} {last : Token}

theorem front_concat (front : ∀ t ∈ ts, t.kind ≠ .eof) (eof : last.kind = .eof) :
    Token.front (ts ++ [last]) = ts := by
  rw [Token.front, List.takeWhile_append_of_pos (by simpa using front),
    List.takeWhile_cons_of_neg (by simpa using eof), List.append_nil]

theorem eof?_concat (front : ∀ t ∈ ts, t.kind ≠ .eof) (eof : last.kind = .eof) :
    eof? (ts ++ [last]) = some last := by
  have none : ts.find? (·.kind = .eof) = none := by simpa using front
  rw [eof?, List.find?_append, none, Option.none_or, List.find?_cons_of_pos (by simpa using eof)]

end Token

/-- Lexemes without errors leave a log as it is. -/
theorem ErrorLog.foldl_faultless {xs : List Lexeme} (h : ∀ x ∈ xs, x.fault = none)
    (log : ErrorLog) :
    xs.foldl (fun log x => log.report? x.fault) log = log := by
  induction xs with
  | nil => rfl
  | cons x xs ih =>
    rw [List.foldl_cons, h x List.mem_cons_self]
    exact ih fun y hy => h y (List.mem_cons_of_mem x hy)

/-- Two files with a line break between them are lexed one after the other, if the first one is
lexed without errors and the second one starts neither with a byte order mark nor with a directive.
The tokens of both stand in front of the end of input, and those of the second file, its end of
input and its errors stand below all lines of the first. This is so under every limit. -/
theorem LexemeReader.all_break (name : String) (a b : List UInt8) (limit : Nat)
    (clean : (ofSource (.ofBytes name a) limit).all.2.log.entries = [])
    (marked : ¬ [0xEF, 0xBB, 0xBF] <+: b)
    (directive : (b.filter (· != 0x0D)).head? ≠ some 0x23) :
    let read (bytes : List UInt8) := (ofSource (.ofBytes name bytes) limit).all
    let k := a.count 0x0A + 1
    Token.front (read (a ++ 0x0A :: b)).1 =
        Token.front (read a).1 ++ (Token.front (read b).1).map (Token.down k) ∧
      (∃ last, Token.eof? (read b).1 = some last ∧
        Token.eof? (read (a ++ 0x0A :: b)).1 = some (last.down k)) ∧
      (read (a ++ 0x0A :: b)).2.log.entries = (read b).2.log.entries.map (SyntaxError.down k) := by
  intro read k
  have clean := clean_of_entries_all clean
  have text := Source.text_ofBytes_break name a marked directive
  obtain ⟨ys, eq, moved⟩ := Source.lexemes_break (Source.isSplit_ofBytes name a) clean text
  rw [Source.line_endPosition_ofBytes] at moved
  have front (s : Source) : ∀ t ∈ s.tokens, t.kind ≠ .eof := fun t => s.kind_ne_eof_of_mem_tokens
  obtain ⟨lastA, tokensA, eofA⟩ := (Source.ofBytes name a).map_token_lexemes
  obtain ⟨last, tokensB, eof⟩ := (Source.ofBytes name b).map_token_lexemes
  have tokens : (Source.ofBytes name (a ++ 0x0A :: b)).lexemes.map (·.token) =
      ((Source.ofBytes name a).tokens ++ (Source.ofBytes name b).tokens.map (Token.down k)) ++
        [last.down k] := by
    rw [eq, List.map_append, Lexeme.map_token_moved moved, tokensB, List.map_dropLast, tokensA,
      List.dropLast_concat, List.map_append, List.append_assoc]
    rfl
  have joined : ∀ t ∈ (Source.ofBytes name a).tokens ++
      (Source.ofBytes name b).tokens.map (Token.down k), t.kind ≠ .eof := by
    intro t ht
    rcases List.mem_append.1 ht with ht | ht
    · exact front _ t ht
    · obtain ⟨u, hu, rfl⟩ := List.mem_map.1 ht
      exact front _ u hu
  simp only [read, all_ofSource, tokens, tokensA, tokensB]
  have eof' : (last.down k).kind = .eof := eof
  refine ⟨?_, ⟨last, Token.eof?_concat (front _) eof, Token.eof?_concat joined eof'⟩, ?_⟩
  · rw [Token.front_concat joined eof', Token.front_concat (front _) eofA,
      Token.front_concat (front _) eof]
  · have quiet : ∀ x ∈ (Source.ofBytes name a).lexemes.dropLast, x.fault = none :=
      fun x hx => clean x ((List.dropLast_sublist _).mem hx)
    rw [eq, List.foldl_append, ErrorLog.foldl_faultless quiet]
    exact congrArg ErrorLog.entries (ErrorLog.foldl_moved moved ⟨limit, [], false⟩)

/-- The string goes on over a line break, so one line break is in the first file. -/
theorem LexemeReader.all_break_string :
    let a := "x = 'a\\\nb'".toUTF8.toList
    let b := "-- c\n[[d".toUTF8.toList
    let read (bytes : List UInt8) := (ofSource (.ofBytes "a" bytes) 30).all
    (read a).2.log.entries = [] ∧ ¬ [0xEF, 0xBB, 0xBF] <+: b ∧
      (b.filter (· != 0x0D)).head? ≠ some 0x23 ∧
      Token.front (read (a ++ 0x0A :: b)).1 =
        Token.front (read a).1 ++ (Token.front (read b).1).map (Token.down 2) ∧
      (read (a ++ 0x0A :: b)).2.log.entries = (read b).2.log.entries.map (SyntaxError.down 2) := by
  intro a b read
  have clean : (read a).2.log.entries = [] := by decide +kernel
  have marked : ¬ [0xEF, 0xBB, 0xBF] <+: b := by decide +kernel
  have directive : (b.filter (· != 0x0D)).head? ≠ some 0x23 := by decide +kernel
  have two : a.count 0x0A + 1 = 2 := by decide +kernel
  obtain ⟨tokens, -, errors⟩ := all_break "a" a b 30 clean marked directive
  rw [two] at tokens errors
  exact ⟨clean, marked, directive, tokens, errors⟩

end LuaFront
