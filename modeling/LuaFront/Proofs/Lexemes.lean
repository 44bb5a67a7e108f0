import LuaFront.Proofs.Step

/-!
# Lexemes of a source

Reading starts from the lexemes of a source. This module follows them from the pieces of a text to
the state in front of the first token.

* `State.ends_ofSource`: the end of input is the last token and no other one is.
* `Source.lexical_of_mem_lexemes`: an error of a lexeme is one of its token or comments.
* `Lexeme.Sound`: a token without an error is valid and of a kind that a program can use.
-/

namespace LuaFront

/-! ## Kinds of tokens -/

/-- A token of a text is never the end of input. It is illegal for no other reason than that nothing
starts with it, and nothing can be wrong with a name. -/
structure Lexical.Regular (t : Lexical) : Prop where
  kind_ne_eof : t.kind ≠ .eof
  illegal : t.kind = .illegal → t.flaw = some .illegal
  ident : t.kind = .ident → t.flaw = none

theorem Lexical.Regular.kind_ne_illegal {t : Lexical} (h : t.Regular) (none : t.flaw = none) :
    t.kind ≠ .illegal := fun hk => by simp [h.illegal hk] at none

namespace Piece

open Text

theorem regular_quoted (quote : Char) (text : Chars) : (quoted quote text).1.Regular :=
  ⟨nofun, nofun, nofun⟩

theorem regular_bracketed (text : Chars) : (bracketed text).1.Regular := by
  unfold bracketed
  split
  · split
    · exact ⟨nofun, nofun, nofun⟩
    · exact ⟨nofun, nofun, nofun⟩
  · exact ⟨nofun, nofun, nofun⟩

theorem regular_plain {kind : Kind} (hk : kind ≠ .eof ∧ kind ≠ .illegal) (cut : Chars × Chars) :
    (plain kind none cut).1.Regular := ⟨hk.1, fun illegal => absurd illegal hk.2, fun _ => rfl⟩

theorem regular_word (text : Chars) : (word text).1.Regular := by
  have words : ∀ k ∈ Kind.keywords, k ≠ .eof ∧ k ≠ .illegal := by decide
  unfold word
  cases hk : Kind.keyword? (String.ofList (Cut.many isNameChar text).1) with
  | none => exact regular_plain (by simp [hk]) _
  | some k => exact regular_plain (by simpa [hk] using words k (List.mem_of_find?_eq_some hk)) _

theorem regular_symbol? {text : Chars} {t : Lexical × Chars} (h : symbol? text = some t) :
    t.1.Regular := by
  have symbols : ∀ k ∈ Kind.symbols, k ≠ .eof ∧ k ≠ .illegal := by decide
  obtain ⟨k, hk, hs⟩ := List.exists_of_findSome?_eq_some h
  obtain ⟨rest, _, rfl⟩ := Option.map_eq_some_iff.1 hs
  exact regular_plain (symbols k hk) _

theorem regular_lexical (c : Char) (text : Chars) : (lexical c text).1.Regular := by
  unfold lexical
  split
  · exact regular_quoted c text
  split
  · exact regular_bracketed _
  split
  · exact ⟨nofun, nofun, fun _ => rfl⟩
  split
  · exact regular_word _
  cases h : symbol? (c :: text) with
  | none => exact ⟨nofun, fun _ => rfl, nofun⟩
  | some t => exact regular_symbol? h

theorem comment_ne_token (text : Chars) (t : Lexical) : (comment text).1 ≠ .token t := by
  unfold comment
  split
  · split <;> exact nofun
  · exact nofun

/-- A first piece that is a token is the token that is read there. -/
theorem lexical_of_first {c : Char} {text : Chars} {t : Lexical}
    (h : (first c text).1 = .token t) : lexical c text = (t, (first c text).2) := by
  unfold first at h ⊢
  split at h
  · exact nomatch h
  split at h
  · exact absurd h (comment_ne_token _ t)
  · next blank _ _ =>
    obtain rfl : (lexical c text).1 = t := Piece.token.inj h
    rw [if_neg blank]

/-- A first piece that is a short comment takes all up to the next line break. -/
theorem cut_of_lineComment {c : Char} {text content rest : Chars}
    (h : first c text = (.lineComment content, rest)) :
    ∃ behind : Chars, content = behind.takeWhile (· ≠ '\n') ∧
      rest = behind.dropWhile (· ≠ '\n') := by
  unfold first at h
  split at h
  · exact nomatch h
  split at h
  · next behind _ =>
    unfold comment at h
    split at h
    · split at h
      · exact nomatch h
      · exact nomatch h
    · obtain ⟨front, rfl⟩ := Prod.mk.inj h
      obtain rfl := Piece.lineComment.inj front
      exact ⟨behind, rfl, rfl⟩
  · exact nomatch h

/-- A first piece that is a long comment is closed by the first bracket that can close it, or takes
all of the text because there is none. -/
theorem body?_of_blockComment {c : Char} {text content rest : Chars} {level : Nat}
    {closed alone : Bool} (h : first c text = (.blockComment level content closed alone, rest)) :
    (∃ behind, Bracket.body? level behind = some (content, rest) ∧ closed = true ∧
      alone = blankToLineEnd rest) ∨
    Bracket.body? level content = none ∧ closed = false ∧ alone = true ∧ rest = [] := by
  unfold first at h
  split at h
  · exact nomatch h
  split at h
  · unfold comment at h
    split at h
    · next level behind _ =>
      split at h
      · next found =>
        obtain ⟨front, rfl⟩ := Prod.mk.inj h
        obtain ⟨rfl, rfl, rfl, rfl⟩ := Piece.blockComment.inj front
        exact .inl ⟨behind, found, rfl, rfl⟩
      · next never =>
        obtain ⟨front, rfl⟩ := Prod.mk.inj h
        obtain ⟨rfl, rfl, rfl, rfl⟩ := Piece.blockComment.inj front
        exact .inr ⟨never, rfl, rfl, rfl⟩
    · exact nomatch h
  · exact nomatch h

theorem regular_of_first {c : Char} {text : Chars} {t : Lexical}
    (h : (first c text).1 = .token t) : t.Regular := by
  have regular := regular_lexical c text
  rwa [lexical_of_first h] at regular

/-- Every token among the pieces of a text is the first piece of some text. -/
theorem exists_first_of_mem_ofText {text : Chars} {t : Lexical} (h : .token t ∈ ofText text) :
    ∃ c rest, (first c rest).1 = .token t := by
  have all : ∀ n text, .token t ∈ take n text → ∃ c rest, (first c rest).1 = .token t := by
    intro n
    induction n with
    | zero => exact fun _ h => nomatch h
    | succ n ih =>
      intro text h
      cases text with
      | nil => exact nomatch h
      | cons c text =>
        rcases List.mem_cons.1 h with h | h
        · exact ⟨c, text, h.symm⟩
        · exact ih _ h
  exact all _ text h

/-- Every token among the pieces of a text is regular. -/
theorem regular_of_mem_ofText {text : Chars} {t : Lexical} (h : .token t ∈ ofText text) :
    t.Regular := by
  obtain ⟨c, rest, first⟩ := exists_first_of_mem_ofText h
  exact regular_of_first first

end Piece

/-! ## Lexemes of pieces -/

namespace Flaw

theorem isLexical_error (flaw : Flaw) (text : String) (place : Location) :
    (flaw.error text place).cause.isLexical := by
  cases flaw <;> rfl

end Flaw

namespace Margin

/-- Moves over a piece. -/
def past (m : Margin) : Piece → Margin
  | .space c => m.space c
  | .lineComment text => m.lineComment text
  | .blockComment level text closed alone => m.blockComment level text closed alone
  | .token t => m.token t

/-- The lexeme that a piece makes, if it is a token. -/
def lexeme? (m : Margin) : Piece → Option Lexeme
  | .token t => some (m.lexeme t)
  | _ => none

variable (m : Margin) {piece : Piece}

theorem position_past (piece : Piece) :
    (m.past piece).position = m.position.after piece.spelling := by
  cases piece <;> rfl

theorem position_foldl (m : Margin) (ps : List Piece) :
    (ps.foldl past m).position = m.position.after (ps.flatMap Piece.spelling) := by
  induction ps generalizing m with
  | nil => rfl
  | cons piece ps ih =>
    rw [List.foldl_cons, ih, position_past, List.flatMap_cons, Position.after_append]

theorem lexeme?_eq_none (h : ∀ t, piece ≠ .token t) : m.lexeme? piece = none := by
  cases piece with
  | token t => exact absurd rfl (h t)
  | _ => rfl

end Margin

namespace Lexeme

/-- Lexemes are made one piece at a time. -/
theorem ofPieces_cons (m : Margin) (piece : Piece) (ps : List Piece) :
    ofPieces m (piece :: ps) = (m.lexeme? piece).toList ++ ofPieces (m.past piece) ps := by
  cases piece <;> rfl

/-- A token without an error is valid and not illegal. -/
def Sound (x : Lexeme) : Prop := x.fault = none → x.token.valid ∧ x.token.kind ≠ .illegal

/-- An error of a lexeme tells what is wrong with the text. -/
def Ordinary (x : Lexeme) : Prop := ∀ e ∈ x.fault, e.cause.isMarker = false

/-- The lexemes of pieces are those of the tokens among them, and the end of input behind. -/
theorem ofPieces_eq_concat (m : Margin) (ps : List Piece) :
    ∃ xs m', ofPieces m ps = xs ++ [Margin.endOfInput m'] ∧
      ∀ x ∈ xs, ∃ m t, .token t ∈ ps ∧ x = Margin.lexeme m t := by
  induction ps generalizing m with
  | nil => exact ⟨[], m, rfl, nofun⟩
  | cons p ps ih =>
    have skip : ∀ m : Margin, ∃ xs m', ofPieces m ps = xs ++ [Margin.endOfInput m'] ∧
        ∀ x ∈ xs, ∃ m t, .token t ∈ p :: ps ∧ x = Margin.lexeme m t := by
      intro m
      obtain ⟨xs, m', eq, all⟩ := ih m
      refine ⟨xs, m', eq, fun x hx => ?_⟩
      obtain ⟨m, t, ht, hx⟩ := all x hx
      exact ⟨m, t, List.mem_cons_of_mem _ ht, hx⟩
    cases p with
    | space c => exact skip _
    | lineComment text => exact skip _
    | blockComment level text closed alone => exact skip _
    | token t =>
      obtain ⟨xs, m', eq, all⟩ := skip (m.token t)
      refine ⟨m.lexeme t :: xs, m', by rw [ofPieces, eq]; rfl, ?_⟩
      intro x hx
      rcases List.mem_cons.1 hx with rfl | hx
      · exact ⟨m, t, List.mem_cons_self, rfl⟩
      · exact all x hx

theorem ofPieces_ne_nil (m : Margin) (ps : List Piece) : ofPieces m ps ≠ [] := by
  obtain ⟨xs, m', eq, -⟩ := ofPieces_eq_concat m ps
  simp [eq]

/-- Behind some pieces, further pieces make up their own lexemes in place of the end of input. -/
theorem ofPieces_append (m : Margin) (ps qs : List Piece) :
    ofPieces m (ps ++ qs) = (ofPieces m ps).dropLast ++ ofPieces (ps.foldl Margin.past m) qs := by
  induction ps generalizing m with
  | nil => rfl
  | cons piece ps ih =>
    rw [List.cons_append, ofPieces_cons, ofPieces_cons, ih,
      List.dropLast_append_of_ne_nil (ofPieces_ne_nil _ ps), List.append_assoc, List.foldl_cons]

theorem getLast?_ofPieces (m : Margin) (ps : List Piece) :
    (ofPieces m ps).getLast? = some (ps.foldl Margin.past m).endOfInput := by
  induction ps generalizing m with
  | nil => rfl
  | cons piece ps ih =>
    rw [ofPieces_cons, List.getLast?_append, ih, Option.some_or, List.foldl_cons]

theorem lexical_ofPieces {m : Margin} (hm : ∀ e ∈ m.fault, e.cause.isLexical)
    (ps : List Piece) : ∀ x ∈ ofPieces m ps, ∀ e ∈ x.fault, e.cause.isLexical := by
  induction ps generalizing m with
  | nil =>
    intro x hx
    obtain rfl := List.mem_singleton.1 hx
    exact hm
  | cons p ps ih =>
    cases p with
    | space c => exact ih (m := m.space c) hm
    | lineComment text => exact ih (m := m.lineComment text) hm
    | blockComment level text closed alone =>
      refine ih (m := m.blockComment level text closed alone) ?_
      cases closed with
      | true => exact hm
      | false =>
        rintro e ⟨⟩
        rfl
    | token t =>
      intro x hx
      rcases List.mem_cons.1 hx with rfl | hx
      · intro e he
        obtain ⟨flaw, _, rfl⟩ := Option.map_eq_some_iff.1 he
        exact flaw.isLexical_error _ _
      · exact ih (m := m.token t) (fun _ he => nomatch he) x hx

theorem sound_lexeme (m : Margin) {t : Lexical} (h : t.Regular) : (m.lexeme t).Sound := by
  intro none
  have flaw : t.flaw = .none := Option.map_eq_none_iff.1 none
  exact ⟨by simp [Margin.lexeme, flaw], h.kind_ne_illegal flaw⟩

end Lexeme

/-! ## Lexemes of a source -/

namespace Source

/-- The lexemes of a source are those of its tokens, and the end of input behind. -/
theorem lexemes_eq_concat (s : Source) :
    ∃ xs m', s.lexemes = xs ++ [Margin.endOfInput m'] ∧
      ∀ x ∈ xs, ∃ m t, t.Regular ∧ x = Margin.lexeme m t := by
  obtain ⟨xs, m', eq, all⟩ := Lexeme.ofPieces_eq_concat {} (Piece.ofText s.text)
  refine ⟨xs, m', eq, fun x hx => ?_⟩
  obtain ⟨m, t, ht, hx⟩ := all x hx
  exact ⟨m, t, Piece.regular_of_mem_ofText ht, hx⟩

theorem lexemes_ne_nil (s : Source) : s.lexemes ≠ [] := by
  obtain ⟨xs, m', eq, -⟩ := s.lexemes_eq_concat
  simp [eq]

/-- The error of a lexeme is one of its token, or of the comments in front of it. -/
theorem lexical_of_mem_lexemes {s : Source} {x : Lexeme} (h : x ∈ s.lexemes) :
    ∀ e ∈ x.fault, e.cause.isLexical :=
  Lexeme.lexical_ofPieces (m := {}) (by simp) _ x h

theorem ordinary_of_mem_lexemes {s : Source} {x : Lexeme} (h : x ∈ s.lexemes) : x.Ordinary :=
  fun e he => Cause.isMarker_of_isLexical (lexical_of_mem_lexemes h e he)

theorem sound_of_mem_lexemes {s : Source} {x : Lexeme} (h : x ∈ s.lexemes) : x.Sound := by
  obtain ⟨xs, m', eq, all⟩ := s.lexemes_eq_concat
  rw [eq] at h
  rcases List.mem_append.1 h with h | h
  · obtain ⟨m, t, ht, rfl⟩ := all x h
    exact Lexeme.sound_lexeme m ht
  · obtain rfl := List.mem_singleton.1 h
    exact fun _ => ⟨rfl, nofun⟩

/-- Nothing is wrong with a name. -/
theorem valid_of_mem_lexemes {s : Source} {x : Lexeme} (h : x ∈ s.lexemes)
    (ident : x.token.kind = .ident) : x.token.valid = true := by
  obtain ⟨xs, m', eq, all⟩ := s.lexemes_eq_concat
  rw [eq] at h
  rcases List.mem_append.1 h with h | h
  · obtain ⟨m, t, ht, rfl⟩ := all x h
    have flaw : t.flaw = none := ht.ident ident
    simp [Margin.lexeme, flaw]
  · obtain rfl := List.mem_singleton.1 h
    rfl

/-- The tokens of a source in front of the end of input. -/
def tokens (s : Source) : List Token := (s.lexemes.map (·.token)).dropLast

theorem kind_ne_eof_of_mem_tokens {s : Source} {t : Token} (h : t ∈ s.tokens) : t.kind ≠ .eof := by
  obtain ⟨xs, m', eq, all⟩ := s.lexemes_eq_concat
  simp only [tokens, eq, List.map_append, List.map_cons, List.map_nil,
    List.dropLast_concat] at h
  obtain ⟨x, hx, rfl⟩ := List.mem_map.1 h
  obtain ⟨m, t, ht, rfl⟩ := all x hx
  exact ht.kind_ne_eof

end Source

/-! ## Reading all lexemes -/

namespace LexemeReader

/-- Reading up to the end of input takes every lexeme, and keeps what each of them brings. -/
theorem drain_eq {xs : List Lexeme} {last : Lexeme} (front : ∀ x ∈ xs, x.token.kind ≠ .eof)
    (eof : last.token.kind = .eof) (final : Lexeme) (comments : CommentMap) (log : ErrorLog)
    {n : Nat} (hn : xs.length < n) :
    drain n ⟨⟨xs ++ [last], final⟩, comments, log⟩ =
      ((xs ++ [last]).map (·.token),
        ⟨⟨[], final⟩, comments.insertAll ((xs ++ [last]).flatMap (·.comments)),
          (xs ++ [last]).foldl (fun log x => log.report? x.fault) log⟩) := by
  induction xs generalizing comments log n with
  | nil =>
    obtain ⟨n, rfl⟩ := Nat.exists_eq_add_one.2 hn
    simp [drain, next, keep, LexemeStream.next, eof]
  | cons x xs ih =>
    obtain ⟨n, rfl⟩ := Nat.exists_eq_add_one.2 (Nat.zero_lt_of_lt hn)
    have taken : next ⟨⟨x :: xs ++ [last], final⟩, comments, log⟩ =
        (x.token, ⟨⟨xs ++ [last], final⟩, comments.insertAll x.comments, log.report? x.fault⟩) :=
      rfl
    rw [drain, taken]
    simp only [front x List.mem_cons_self, if_false]
    rw [ih (fun y hy => front y (List.mem_cons_of_mem x hy)) _ _ (Nat.lt_of_succ_lt_succ hn)]
    simp [CommentMap.insertAll]

/-- Reading a source up to the end of input takes all its lexemes. -/
theorem all_ofSource (s : Source) (limit : Nat) :
    (ofSource s limit).all = (s.lexemes.map (·.token),
      ⟨⟨[], LexemeStream.endOfInput s⟩,
        CommentMap.insertAll {} (s.lexemes.flatMap (·.comments)),
        s.lexemes.foldl (fun log x => log.report? x.fault) ⟨limit, [], false⟩⟩) := by
  obtain ⟨xs, m', eq, all⟩ := s.lexemes_eq_concat
  have front : ∀ x ∈ xs, x.token.kind ≠ .eof := by
    intro x hx
    obtain ⟨m, t, ht, rfl⟩ := all x hx
    exact ht.kind_ne_eof
  show drain (s.lexemes.length + 1) ⟨⟨s.lexemes, _⟩, {}, _⟩ = _
  rw [eq]
  refine drain_eq front rfl _ _ _ ?_
  rw [List.length_append]
  omega

end LexemeReader

/-! ## In front of the first token -/

namespace Parse.State

variable (source : Source) (limit : Nat)

theorem ofSource_of_lexemes {x : Lexeme} {xs : List Lexeme} (h : source.lexemes = x :: xs) :
    ofSource source limit =
      { current := x.token
        lexer :=
          { stream := ⟨xs, LexemeStream.endOfInput source⟩
            comments := CommentMap.insertAll {} x.comments
            log := ErrorLog.report? ⟨limit, [], false⟩ x.fault } } := by
  simp [ofSource, LexemeReader.ofSource, LexemeReader.next, LexemeReader.keep,
    LexemeStream.ofSource, LexemeStream.next, h]

theorem ahead_ofSource : (ofSource source limit).ahead = source.lexemes.map (·.token) := by
  cases h : source.lexemes with
  | nil => exact absurd h source.lexemes_ne_nil
  | cons x xs =>
    rw [ofSource_of_lexemes source limit h]
    rfl

theorem pending_ofSource : (ofSource source limit).pending = source.tokens := by
  rw [pending, ahead_ofSource, Source.tokens]

@[simp] theorem final_ofSource :
    (ofSource source limit).stream.final = LexemeStream.endOfInput source := by
  cases h : source.lexemes with
  | nil => exact absurd h source.lexemes_ne_nil
  | cons x xs =>
    rw [ofSource_of_lexemes source limit h]
    rfl

theorem ends_ofSource : (ofSource source limit).Ends := by
  refine ⟨?_, ?_, ?_⟩
  · rw [final_ofSource]
    rfl
  · obtain ⟨xs, m', eq, -⟩ := source.lexemes_eq_concat
    intro t ht
    rw [ahead_ofSource, eq, List.map_append, List.map_singleton, List.getLast?_concat] at ht
    obtain rfl := Option.some.inj ht
    rfl
  · intro t ht
    rw [pending_ofSource] at ht
    exact source.kind_ne_eof_of_mem_tokens ht

end Parse.State

end LuaFront
