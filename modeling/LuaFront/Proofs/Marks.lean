import LuaFront.Proofs.Order
import LuaFront.Proofs.Trivia

/-!
# Tokens and comments of a text

What a text holds besides blanks and line breaks are its tokens and comments. `Source.marks` lists
them in their order, each with the place where it stands, and tells the comments that may be
documentation from those that the program goes on behind.

* `Mark.heads_ofPieces`: a comment is no head comment if a token in front of it ends on its line.
* `Mark.apart_ofPieces`: whatever follows a comment that may be documentation starts on a later line
  than the comment ends.
-/

namespace LuaFront

/-- What a text holds besides blanks and line breaks. -/
inductive Mark where
  | token (place : Location)
  /-- A short comment, or a long one with nothing but blanks behind it on the line where it ends. -/
  | kept (comment : CommentLine) (stop : Position)
  /-- A long comment with something else behind it on the line where it ends. -/
  | dropped (place : Location)
deriving DecidableEq, Repr

namespace Mark

/-- Where a token or comment starts. -/
def start : Mark → Position
  | token place => place.start
  | kept comment _ => comment.start
  | dropped place => place.start

/-- The comment, if it may be documentation. -/
def comment? : Mark → Option CommentLine
  | kept comment _ => some comment
  | _ => none

/-- The place of a token. -/
def place? : Mark → Option Location
  | token place => some place
  | _ => none

/-- Whether a token ends on the given line. -/
def endsOn (ms : List Mark) (line : Nat) : Bool := ms.any (·.place?.any (·.stop.line = line))

/-- What a piece is at a position, behind other marks and in front of a text. -/
def ofPiece? (ms : List Mark) (p : Position) (behind : Chars) (piece : Piece) : Option Mark :=
  let stop := p.after piece.spelling
  match piece with
  | .space _ => none
  | .lineComment text => some (kept ⟨text, p, true, !endsOn ms p.line⟩ stop)
  | .blockComment _ text _ _ =>
    if Piece.blankToLineEnd behind then
      some (kept ⟨Margin.trimDashes text, p, false, !endsOn ms p.line⟩ stop)
    else some (dropped ⟨p, stop⟩)
  | .token _ => some (token ⟨p, stop⟩)

/-- The marks in front of a position, and those of the pieces behind it. -/
def ofPieces (ms : List Mark) (p : Position) : List Piece → List Mark
  | [] => ms
  | piece :: ps =>
    let mark := ofPiece? ms p (ps.flatMap Piece.spelling) piece
    ofPieces (ms ++ mark.toList) (p.after piece.spelling) ps

end Mark

/-- The tokens and comments of a source. -/
def Source.marks (s : Source) : List Mark := Mark.ofPieces [] {} (Piece.ofText s.text)

theorem Position.line_le_after (p : Position) (text : Chars) : p.line ≤ (p.after text).line := by
  have le := Position.le_after p text
  rw [Position.le_def] at le
  omega

namespace Piece

variable {c : Char} {text rest : Chars} {piece : Piece}

theorem blank_of_blankToLineEnd (h : blankToLineEnd (c :: text)) : Text.isBlank c ∨ c = '\n' := by
  by_cases hc : Text.isBlank c
  · exact .inl hc
  · exact .inr (by simpa [blankToLineEnd, hc] using h)

theorem blankToLineEnd_cons (hc : Text.isBlank c) :
    blankToLineEnd (c :: text) = blankToLineEnd text := by
  simp [blankToLineEnd, hc]

theorem blankToLineEnd_dropWhile (text : Chars) :
    blankToLineEnd (text.dropWhile (· ≠ '\n')) := by
  induction text with
  | nil => rfl
  | cons c text ih =>
    by_cases hc : c = '\n'
    · subst hc
      rfl
    · simpa [hc] using ih

/-- A short comment takes the rest of its line. -/
theorem lineComment_of_first {comment : Chars} (h : first c text = (.lineComment comment, rest)) :
    '\n' ∉ comment ∧ blankToLineEnd rest := by
  obtain ⟨behind, rfl, rfl⟩ := cut_of_lineComment h
  exact ⟨not_mem_takeWhile behind, blankToLineEnd_dropWhile behind⟩

/-- A long comment stands alone if there are only blanks behind it on its line. -/
theorem blockComment_of_first {level : Nat} {comment : Chars} {closed alone : Bool}
    (h : first c text = (.blockComment level comment closed alone, rest)) :
    alone = blankToLineEnd rest := by
  obtain ⟨_, -, -, alone⟩ | ⟨-, -, rfl, rfl⟩ := body?_of_blockComment h
  · exact alone
  · rfl

/-- A piece that starts with a blank or a line break is no more than that. -/
theorem eq_space_of_first (h : first c text = (piece, rest)) (hc : Text.isBlank c ∨ c = '\n') :
    piece = .space c ∧ rest = text := by
  rw [first, if_pos hc] at h
  obtain ⟨rfl, rfl⟩ := Prod.mk.inj h
  exact ⟨rfl, rfl⟩

end Piece

namespace Mark

/-- What holds in front of all pieces of a text and is kept by each of them holds behind them. -/
theorem ofPieces_inv {P : List Mark → Position → Chars → Prop}
    (step : ∀ {ms p c text piece rest}, Piece.first c text = (piece, rest) → P ms p (c :: text) →
      P (ms ++ (ofPiece? ms p rest piece).toList) (p.after piece.spelling) rest)
    {ms : List Mark} {p : Position} {text : Chars} {ps : List Piece} (h : Piece.Taken text ps)
    (init : P ms p text) : ∃ q, P (ofPieces ms p ps) q [] := by
  induction h generalizing ms p with
  | nil => exact ⟨p, init⟩
  | cons first more ih =>
    rw [ofPieces, more.flatMap_spelling]
    exact ih (step first init)

variable {ms : List Mark} {p : Position} {c : Char} {text rest : Chars} {piece : Piece} {m : Mark}
  {comment : CommentLine} {stop : Position}

/-- What the first piece of a text can add to the marks. A comment that may be documentation has
only blanks behind it up to the end of its line. -/
theorem cases_of_ofPiece? (first : Piece.first c text = (piece, rest))
    (h : ofPiece? ms p rest piece = some m) :
    m = token ⟨p, p.after piece.spelling⟩ ∨ m = dropped ⟨p, p.after piece.spelling⟩ ∨
      Piece.blankToLineEnd rest ∧
        ∃ text isShort,
          m = kept ⟨text, p, isShort, !endsOn ms p.line⟩ (p.after piece.spelling) := by
  cases piece with
  | space c => exact nomatch h
  | lineComment text =>
    obtain rfl := Option.some.inj h
    exact .inr (.inr ⟨(Piece.lineComment_of_first first).2, text, true, rfl⟩)
  | blockComment level text closed alone =>
    by_cases blank : Piece.blankToLineEnd rest
    · obtain rfl := Option.some.inj ((if_pos blank).symm.trans h)
      exact .inr (.inr ⟨blank, Margin.trimDashes text, false, rfl⟩)
    · obtain rfl := Option.some.inj ((if_neg blank).symm.trans h)
      exact .inr (.inl rfl)
  | token t =>
    obtain rfl := Option.some.inj h
    exact .inl rfl

theorem start_of_ofPiece? (first : Piece.first c text = (piece, rest))
    (h : ofPiece? ms p rest piece = some m) : m.start = p := by
  rcases cases_of_ofPiece? first h with rfl | rfl | ⟨-, text, isShort, rfl⟩
  · rfl
  · rfl
  · rfl

theorem kept_of_ofPiece? (first : Piece.first c text = (piece, rest))
    (h : ofPiece? ms p rest piece = some (kept comment stop)) :
    comment.isHead = !endsOn ms p.line ∧ stop = p.after piece.spelling ∧
      Piece.blankToLineEnd rest := by
  rcases cases_of_ofPiece? first h with eq | eq | ⟨blank, text, isShort, eq⟩
  · exact nomatch eq
  · exact nomatch eq
  · obtain ⟨rfl, rfl⟩ := Mark.kept.inj eq
    exact ⟨rfl, rfl, blank⟩

/-- A mark stands neither at a blank nor at a line break. -/
theorem not_blank_of_ofPiece? (first : Piece.first c text = (piece, rest))
    (h : ofPiece? ms p rest piece = some m) : ¬ (Text.isBlank c ∨ c = '\n') := by
  intro hc
  obtain ⟨rfl, -⟩ := Piece.eq_space_of_first first hc
  exact nomatch h

/-- The tokens among the marks are those of the lexemes. -/
theorem places_ofPiece? (m : Margin) :
    (ofPiece? ms m.position rest piece).toList.filterMap place? =
      (m.lexeme? piece).toList.map (·.token.location) := by
  cases piece with
  | space c => rfl
  | lineComment text => rfl
  | blockComment level text closed alone =>
    unfold ofPiece?
    dsimp only
    split
    · rfl
    · rfl
  | token t => rfl

/-! ## Head comments -/

theorem endsOn_iff {line : Nat} :
    endsOn ms line ↔ ∃ place, token place ∈ ms ∧ place.stop.line = line := by
  rw [endsOn, List.any_eq_true]
  constructor
  · rintro ⟨m, hm, ends⟩
    cases m with
    | token place => exact ⟨place, hm, by simpa [place?] using ends⟩
    | kept comment stop => exact nomatch ends
    | dropped place => exact nomatch ends
  · rintro ⟨place, hm, eq⟩
    exact ⟨token place, hm, by simpa [place?] using eq⟩

/-- The comments that stand behind a token on its line, and no others, are no head comments. -/
def Heads (ms : List Mark) : Prop :=
  ∀ before comment stop after, ms = before ++ kept comment stop :: after →
    (comment.isHead = false ↔ ∃ place, token place ∈ before ∧ place.stop.line = comment.start.line)

theorem Heads.concat (h : Heads ms) (first : Piece.first c text = (piece, rest))
    (hm : ofPiece? ms p rest piece = some m) : Heads (ms ++ [m]) := by
  intro before comment stop after eq
  rcases List.eq_nil_or_concat after with rfl | ⟨after, last, rfl⟩
  · obtain ⟨rfl, rfl⟩ := List.append_singleton_inj.1 eq
    obtain ⟨head, -, -⟩ := kept_of_ofPiece? first hm
    have start : comment.start = p := start_of_ofPiece? first hm
    rw [head, start, ← endsOn_iff, Bool.not_eq_false']
  · rw [List.concat_eq_append, ← List.cons_append, ← List.append_assoc] at eq
    exact h before comment stop after (List.append_inj_left' eq rfl)

theorem Heads.step (h : Heads ms) (first : Piece.first c text = (piece, rest)) :
    Heads (ms ++ (ofPiece? ms p rest piece).toList) := by
  cases hm : ofPiece? ms p rest piece with
  | none => rwa [Option.toList_none, List.append_nil]
  | some m => exact h.concat first hm

theorem heads_ofPieces {ps : List Piece} (h : Piece.Taken text ps) : Heads (ofPieces [] {} ps) := by
  have init : Heads [] := by simp [Heads]
  obtain ⟨-, heads⟩ := ofPieces_inv (P := fun ms _ _ => Heads ms)
    (fun first heads => heads.step first) h init
  exact heads

/-! ## Lines of comments -/

/-- Reading has left a line behind, or has but blanks to read up to its end. -/
def Leaves (line : Nat) (p : Position) (rest : Chars) : Prop :=
  line < p.line ∨ line = p.line ∧ Piece.blankToLineEnd rest

theorem Leaves.lt {line : Nat} (h : Leaves line p (c :: text))
    (hc : ¬ (Text.isBlank c ∨ c = '\n')) : line < p.line := by
  rcases h with h | ⟨-, blank⟩
  · exact h
  · exact absurd (Piece.blank_of_blankToLineEnd blank) hc

theorem Leaves.step {line : Nat} (h : Leaves line p (c :: text))
    (first : Piece.first c text = (piece, rest)) : Leaves line (p.after piece.spelling) rest := by
  by_cases hc : Text.isBlank c ∨ c = '\n'
  · obtain ⟨rfl, rfl⟩ := Piece.eq_space_of_first first hc
    show Leaves line (p.advance c) rest
    by_cases newline : c = '\n'
    · have le : line ≤ p.line := by
        rcases h with h | ⟨h, -⟩
        · exact Nat.le_of_lt h
        · exact Nat.le_of_eq h
      rw [Position.advance, if_pos newline]
      exact .inl (Nat.lt_succ_of_le le)
    · rw [Leaves, Piece.blankToLineEnd_cons (hc.resolve_right newline)] at h
      rw [Position.advance, if_neg newline]
      exact h
  · exact .inl (Nat.lt_of_lt_of_le (h.lt hc) (Position.line_le_after p _))

/-- If the first mark is a comment that may be documentation, the second one starts below it. -/
def Below (m n : Mark) : Prop := ∀ comment stop, m = kept comment stop → stop.line < n.start.line

/-- Where the comments among the marks in front of a position end. -/
structure Apart (ms : List Mark) (p : Position) (rest : Chars) : Prop where
  below : ms.Pairwise Below
  leaves : ∀ comment stop, kept comment stop ∈ ms → Leaves stop.line p rest
  span : ∀ comment stop, kept comment stop ∈ ms → comment.start.line ≤ stop.line

theorem Apart.step (h : Apart ms p (c :: text))
    (first : Piece.first c text = (piece, rest)) :
    Apart (ms ++ (ofPiece? ms p rest piece).toList) (p.after piece.spelling) rest := by
  have leaves (comment stop) (mem : kept comment stop ∈ ms) :
      Leaves stop.line (p.after piece.spelling) rest := (h.leaves comment stop mem).step first
  cases hm : ofPiece? ms p rest piece with
  | none =>
    rw [Option.toList_none, List.append_nil]
    exact ⟨h.below, leaves, h.span⟩
  | some m =>
    rw [Option.toList_some]
    refine ⟨?_, ?_, ?_⟩
    · refine List.pairwise_append.2 ⟨h.below, List.pairwise_singleton _ m, ?_⟩
      intro l hl n hn comment stop eq
      obtain rfl := List.mem_singleton.1 hn
      rw [start_of_ofPiece? first hm]
      exact (h.leaves comment stop (eq ▸ hl)).lt (not_blank_of_ofPiece? first hm)
    · intro comment stop mem
      rcases List.mem_append.1 mem with mem | mem
      · exact leaves comment stop mem
      · obtain rfl := List.mem_singleton.1 mem
        obtain ⟨-, rfl, blank⟩ := kept_of_ofPiece? first hm
        exact .inr ⟨rfl, blank⟩
    · intro comment stop mem
      rcases List.mem_append.1 mem with mem | mem
      · exact h.span comment stop mem
      · obtain rfl := List.mem_singleton.1 mem
        obtain ⟨-, rfl, -⟩ := kept_of_ofPiece? first hm
        have start : comment.start = p := start_of_ofPiece? first hm
        rw [start]
        exact Position.line_le_after p _

theorem apart_ofPieces {ps : List Piece} (h : Piece.Taken text ps) :
    ∃ q, Apart (ofPieces [] {} ps) q [] :=
  ofPieces_inv (fun first apart => apart.step first) h ⟨.nil, by simp, by simp⟩

end Mark

end LuaFront
