import LuaFront.Proofs.Marks

/-!
# Comments are harvested in blocks

Reading a source up to its end keeps every comment that may be documentation, once, in blocks of
adjoining comments that are as large as they can be. `Mark.Harvested` tells which blocks the tokens
and comments of a text make up. Reading hands out these blocks one after the other, and no two of
them end on one line, so none takes the place of another one.

* `Mark.harvested_ofPieces`: the lexemes of a text bring the blocks of its tokens and comments.
* `Mark.Harvested.harvest`: nothing is lost, nothing is added, and no block can be larger.
* `LexemeReader.harvest_all`: so it is with the comments kept of the bytes of a file.
-/

namespace LuaFront

namespace Mark

/-! ## Blocks of marks -/

/-- A comment starts on the line below the end of the comment in front of it, and no token stands in
front of either of them on its line. -/
inductive Joins : Mark → Mark → Prop
  | intro {c d : CommentLine} {stop stop' : Position} (head : c.isHead) (next : d.isHead)
      (below : d.start.line = stop.line + 1) : Joins (kept c stop) (kept d stop')

/-- Adjacent comments that make up a block. -/
structure Row (run : List Mark) (b : CommentBlock) : Prop where
  comments : run.map comment? = b.lines.map some
  joins : run.IsChain Joins
  last : ∃ comment stop, run.getLast? = some (kept comment stop) ∧ stop.line = b.lastLine

/-- The blocks that marks make up. -/
inductive Harvested : List Mark → List CommentBlock → Prop
  | nil : Harvested [] []
  | skip {ms : List Mark} {bs : List CommentBlock} {m : Mark} (more : Harvested ms bs)
      (none : m.comment? = none) : Harvested (ms ++ [m]) bs
  | row {ms run : List Mark} {bs : List CommentBlock} {b : CommentBlock} (more : Harvested ms bs)
      (row : Row run b) (maximal : ∀ m ∈ ms.getLast?, ∀ n ∈ run.head?, ¬ Joins m n) :
      Harvested (ms ++ run) (bs ++ [b])

variable {ms run : List Mark} {bs : List CommentBlock} {b : CommentBlock} {m : Mark}
  {c d : CommentLine} {stop stop' : Position}

theorem Row.ne_nil (h : Row run b) : run ≠ [] := by
  obtain ⟨comment, stop, last, -⟩ := h.last
  rintro rfl
  exact nomatch last

theorem Row.concat (h : Row run b) (last : run.getLast? = some m) (joins : Joins m (kept d stop')) :
    Row (run ++ [kept d stop']) ⟨b.lines ++ [d], stop'.line⟩ where
  comments := by
    rw [List.map_append, h.comments, List.map_append]
    rfl
  joins := by
    refine List.isChain_append.2 ⟨h.joins, .singleton _, ?_⟩
    intro x hx y hy
    rw [last] at hx
    obtain rfl := Option.some.inj hx
    obtain rfl := Option.some.inj hy
    exact joins
  last := ⟨d, stop', List.getLast?_concat, rfl⟩

namespace Harvested

/-- A comment that joins the last one makes the last block larger. -/
theorem join (h : Harvested ms (bs ++ [b])) (last : ms.getLast? = some m)
    (joins : Joins m (kept d stop')) :
    Harvested (ms ++ [kept d stop']) (bs ++ [⟨b.lines ++ [d], stop'.line⟩]) := by
  generalize eq : bs ++ [b] = all at h
  cases h with
  | nil => simp at eq
  | skip more none =>
    rw [List.getLast?_concat] at last
    obtain rfl := Option.some.inj last
    cases joins
    exact nomatch none
  | @row front run _ _ more row maximal =>
    obtain ⟨rfl, rfl⟩ := List.append_singleton_inj.1 eq
    rw [List.getLast?_append_of_ne_nil _ row.ne_nil] at last
    rw [List.append_assoc]
    refine .row more (row.concat last joins) ?_
    intro m hm n hn
    rw [List.head?_append_of_ne_nil _ row.ne_nil] at hn
    exact maximal m hm n hn

/-- Any other comment starts a block. -/
theorem single (h : Harvested ms bs) (apart : ∀ m ∈ ms.getLast?, ¬ Joins m (kept c stop)) :
    Harvested (ms ++ [kept c stop]) (bs ++ [⟨[c], stop.line⟩]) := by
  refine .row h ⟨rfl, .singleton _, c, stop, rfl, rfl⟩ ?_
  intro m hm n hn
  obtain rfl := Option.some.inj hn
  exact apart m hm

end Harvested

end Mark

/-! ## What reading hands out -/

namespace CommentRun

variable {r : CommentRun} {c : CommentLine} {line : Nat}

theorem add_join {b : CommentBlock} (current : r.current = some b)
    (below : c.start.line = b.lastLine + 1) (head : c.isHead) :
    r.add c line = ⟨r.closed, some ⟨b.lines ++ [c], line⟩⟩ := by
  simp [add, closeUnlessAbove, current, below, head]

theorem add_head (apart : ∀ b ∈ r.current, c.start.line ≠ b.lastLine + 1) (head : c.isHead) :
    r.add c line = ⟨r.close.closed, some ⟨[c], line⟩⟩ := by
  cases current : r.current with
  | none => simp [add, closeUnlessAbove, close, current, head]
  | some b =>
    have ne : b.lastLine + 1 ≠ c.start.line := (apart b current).symm
    simp [add, closeUnlessAbove, close, current, head, ne]

theorem add_behind (apart : ∀ b ∈ r.current, c.start.line ≠ b.lastLine + 1)
    (head : c.isHead = false) :
    r.add c line = ⟨r.close.closed ++ [⟨[c], line⟩], none⟩ := by
  cases current : r.current with
  | none => simp [add, closeUnlessAbove, close, current, head]
  | some b =>
    have ne : b.lastLine + 1 ≠ c.start.line := (apart b current).symm
    simp [add, closeUnlessAbove, close, current, head, ne]

end CommentRun

namespace Margin

open Mark

/-- What reading knows of the tokens in front of a position. -/
structure Remembers (m : Margin) (ms : List Mark) : Prop where
  line_le : ∀ line, endsOn ms line → line ≤ m.position.line
  tokenLine : ∀ line, m.position.line ≤ line → (endsOn ms line ↔ m.tokenLine = some line)

/-- Reading stands behind some marks and has handed out some blocks. The block that a further
comment may join ends with the last of the marks, below the last token. -/
structure Behind (m : Margin) (ms : List Mark) (bs : List CommentBlock) : Prop where
  harvested : Harvested ms (bs ++ m.run.close.closed)
  joinable : ∀ b ∈ m.run.current, ∃ c stop, ms.getLast? = some (kept c stop) ∧ c.isHead ∧
    stop.line = b.lastLine ∧ ∀ line ∈ m.tokenLine, line ≤ b.lastLine
  unjoinable : m.run.current = none → ∀ c stop, ms.getLast? = some (kept c stop) → ¬ c.isHead
  remembers : m.Remembers ms

variable {m m' : Margin} {ms : List Mark} {bs : List CommentBlock}

theorem Remembers.tokenLine_le (h : m.Remembers ms) {line : Nat} (hl : m.tokenLine = some line) :
    line ≤ m.position.line := by
  rcases Nat.le_total line m.position.line with le | le
  · exact le
  · exact h.line_le line ((h.tokenLine line le).2 hl)

theorem Remembers.move (h : m.Remembers ms) {n : Option Mark} (hn : ∀ l ∈ n, l.place? = none)
    (position : m.position.line ≤ m'.position.line) (tokenLine : m'.tokenLine = m.tokenLine) :
    m'.Remembers (ms ++ n.toList) := by
  have same (line : Nat) : endsOn (ms ++ n.toList) line = endsOn ms line := by
    cases n with
    | none => rw [Option.toList_none, List.append_nil]
    | some l => simp [endsOn, hn l rfl]
  refine ⟨?_, ?_⟩
  · intro line ends
    rw [same] at ends
    exact Nat.le_trans (h.line_le line ends) position
  · intro line le
    rw [same, tokenLine]
    exact h.tokenLine line (Nat.le_trans position le)

theorem Remembers.token (h : m.Remembers ms) (t : Lexical) :
    (m.token t).Remembers (ms ++ [.token (m.place t)]) := by
  have le : m.position.line ≤ (m.place t).stop.line := Position.line_le_after _ _
  have ends (line : Nat) : endsOn (ms ++ [.token (m.place t)]) line ↔
      endsOn ms line ∨ (m.place t).stop.line = line := by
    simp [endsOn, place?]
  refine ⟨?_, ?_⟩
  · intro line hl
    rcases (ends line).1 hl with hl | rfl
    · exact Nat.le_trans (h.line_le line hl) le
    · exact Nat.le_refl _
  · intro line hline
    rw [ends]
    show _ ↔ some (m.place t).stop.line = some line
    rw [Option.some.injEq]
    refine ⟨?_, .inr⟩
    rintro (hl | eq)
    · exact Nat.le_antisymm hline (Nat.le_trans (h.line_le line hl) le)
    · exact eq

/-- Reading takes a comment for a head comment if no token ends on its line. -/
theorem Remembers.line_eq (h : m.Remembers ms) (text : Chars) (isShort : Bool) :
    m.line text isShort = ⟨text, m.position, isShort, !endsOn ms m.position.line⟩ := by
  have ends := h.tokenLine m.position.line (Nat.le_refl _)
  rw [line]
  cases hl : endsOn ms m.position.line with
  | true => simp [ends.1 hl]
  | false =>
    have ne : m.tokenLine ≠ some m.position.line := by simp [← ends, hl]
    simp [ne]

theorem Behind.space (h : m.Behind ms bs) (c : Char) : (m.space c).Behind ms bs := by
  have le : m.position.line ≤ (m.space c).position.line := Position.line_le_after m.position [c]
  have remembers : (m.space c).Remembers (ms ++ (none : Option Mark).toList) :=
    h.remembers.move (by simp) le rfl
  rw [Option.toList_none, List.append_nil] at remembers
  exact ⟨h.harvested, h.joinable, h.unjoinable, remembers⟩

theorem Behind.dropped (h : m.Behind ms bs) (place : Location)
    (position : m.position.line ≤ m'.position.line) (tokenLine : m'.tokenLine = m.tokenLine)
    (run : m'.run = m.run.close) : m'.Behind (ms ++ [.dropped place]) bs := by
  have remembers : m'.Remembers (ms ++ (some (Mark.dropped place)).toList) :=
    h.remembers.move (by simp [place?]) position tokenLine
  refine ⟨?_, ?_, ?_, remembers⟩
  · have closed : m'.run.close.closed = m.run.close.closed := by simp [run, CommentRun.close]
    rw [closed]
    exact .skip h.harvested rfl
  · simp [run, CommentRun.close]
  · simp

theorem Behind.token (h : m.Behind ms bs) (t : Lexical) :
    (m.token t).Behind (ms ++ [.token (m.place t)]) (bs ++ (m.lexeme t).comments) := by
  refine ⟨?_, ?_, ?_, h.remembers.token t⟩
  · show Harvested _ (bs ++ m.run.close.closed ++ [])
    rw [List.append_nil]
    exact .skip h.harvested rfl
  · simp [Margin.token]
  · simp

section Kept

variable {b : CommentBlock} {c : CommentLine} {stop : Position}

/-- Below the block that a comment may join no token has ended. -/
theorem Behind.not_endsOn (h : m.Behind ms bs) (current : m.run.current = some b)
    (below : m.position.line = b.lastLine + 1) : endsOn ms m.position.line = false := by
  obtain ⟨-, -, -, -, -, above⟩ := h.joinable b current
  refine Bool.eq_false_iff.2 ?_
  intro ends
  have le := above _ ((h.remembers.tokenLine _ (Nat.le_refl _)).1 ends)
  omega

/-- A comment that is not below the block that it may join does not join the last of the marks. -/
theorem Behind.not_joins (h : m.Behind ms bs)
    (apart : ∀ b ∈ m.run.current, c.start.line ≠ b.lastLine + 1) :
    ∀ l ∈ ms.getLast?, ¬ Joins l (.kept c stop) := by
  rintro _ hl ⟨head, -, below⟩
  cases current : m.run.current with
  | none => exact h.unjoinable current _ _ hl head
  | some b =>
    obtain ⟨d, last, hlast, -, lastLine, -⟩ := h.joinable b current
    obtain ⟨rfl, rfl⟩ := Mark.kept.inj (Option.some.inj (hl.symm.trans hlast))
    exact apart b current (lastLine ▸ below)

/-- Behind a head comment its block may be joined. -/
theorem Behind.of_head {closed : List CommentBlock} (remembers : m.Remembers (ms ++ [.kept c stop]))
    (position : m.position = stop) (run : m.run = ⟨closed, some b⟩)
    (lastLine : stop.line = b.lastLine) (head : c.isHead)
    (harvested : Harvested (ms ++ [.kept c stop]) (bs ++ closed ++ [b])) :
    m.Behind (ms ++ [.kept c stop]) bs := by
  refine ⟨?_, ?_, ?_, remembers⟩
  · rw [run]
    rwa [List.append_assoc] at harvested
  · intro b' hb'
    rw [run] at hb'
    obtain rfl := Option.some.inj hb'
    refine ⟨c, stop, List.getLast?_concat, head, lastLine, ?_⟩
    intro line hl
    rw [← lastLine, ← position]
    exact remembers.tokenLine_le hl
  · simp [run]

/-- Behind a comment that stands behind a token nothing may be joined. -/
theorem Behind.of_not_head {closed : List CommentBlock}
    (remembers : m.Remembers (ms ++ [.kept c stop])) (run : m.run = ⟨closed, none⟩)
    (head : c.isHead = false) (harvested : Harvested (ms ++ [.kept c stop]) (bs ++ closed)) :
    m.Behind (ms ++ [.kept c stop]) bs := by
  refine ⟨?_, ?_, ?_, remembers⟩
  · simpa [run, CommentRun.close] using harvested
  · simp [run]
  · intro _ d last hlast
    rw [List.getLast?_concat] at hlast
    obtain ⟨rfl, -⟩ := Mark.kept.inj (Option.some.inj hlast)
    simp [head]

/-- A comment joins the block above it, or starts a block if there is none. -/
theorem Behind.kept (h : m.Behind ms bs) (start : c.start = m.position)
    (head : c.isHead = !endsOn ms m.position.line) (le : m.position.line ≤ stop.line)
    (position : m'.position = stop) (tokenLine : m'.tokenLine = m.tokenLine)
    (run : m'.run = m.run.add c stop.line) : m'.Behind (ms ++ [.kept c stop]) bs := by
  have remembers : m'.Remembers (ms ++ (some (Mark.kept c stop)).toList) :=
    h.remembers.move (by simp [place?]) (position ▸ le) tokenLine
  by_cases joins : ∃ b ∈ m.run.current, c.start.line = b.lastLine + 1
  · obtain ⟨b, current, below⟩ := joins
    obtain ⟨d, last, hlast, head', lastLine, -⟩ := h.joinable b current
    have isHead : c.isHead := by
      rw [head, h.not_endsOn current (start ▸ below)]
      rfl
    have blocks : bs ++ m.run.close.closed = bs ++ m.run.closed ++ [b] := by
      simp [CommentRun.close, Option.mem_def.1 current]
    have joins : Joins (.kept d last) (.kept c stop) := .intro head' isHead (lastLine ▸ below)
    have joined := (blocks ▸ h.harvested).join hlast joins
    rw [CommentRun.add_join current below isHead] at run
    exact .of_head remembers position run rfl isHead joined
  · have apart (b) (hb : b ∈ m.run.current) : c.start.line ≠ b.lastLine + 1 :=
      fun below => joins ⟨b, hb, below⟩
    have alone : ∀ l ∈ ms.getLast?, ¬ Joins l (.kept c stop) := h.not_joins apart
    have single := h.harvested.single alone
    cases isHead : c.isHead with
    | true =>
      rw [CommentRun.add_head apart isHead] at run
      exact .of_head remembers position run rfl isHead single
    | false =>
      rw [CommentRun.add_behind apart isHead] at run
      rw [List.append_assoc] at single
      exact .of_not_head remembers run isHead single

end Kept

/-- What reading knows behind a piece follows from what it knows in front of it. -/
theorem Behind.past (h : m.Behind ms bs) {c : Char} {text rest : Chars} {piece : Piece}
    (first : Piece.first c text = (piece, rest)) :
    (m.past piece).Behind (ms ++ (ofPiece? ms m.position rest piece).toList)
      (bs ++ (m.lexeme? piece).toList.flatMap (·.comments)) := by
  have position := Position.line_le_after m.position piece.spelling
  cases piece with
  | space d =>
    show (m.space d).Behind (ms ++ []) (bs ++ [])
    rw [List.append_nil, List.append_nil]
    exact h.space d
  | lineComment comment =>
    obtain ⟨oneLine, -⟩ := Piece.lineComment_of_first first
    have notMem : '\n' ∉ (Piece.lineComment comment).spelling := by simp [Piece.spelling, oneLine]
    have stop : (m.position.after (Piece.lineComment comment).spelling).line = m.position.line := by
      rw [Position.after_of_not_mem notMem]
    show (m.lineComment comment).Behind (ms ++ [.kept _ _]) (bs ++ [])
    rw [List.append_nil]
    refine h.kept rfl rfl position rfl rfl ?_
    show m.run.add (m.line comment true) m.position.line = _
    rw [h.remembers.line_eq, stop]
  | blockComment level comment closed alone =>
    obtain rfl := Piece.blockComment_of_first first
    show Behind _ _ (bs ++ [])
    rw [List.append_nil]
    cases alone : Piece.blankToLineEnd rest with
    | true =>
      simp only [ofPiece?, alone, if_true, Option.toList_some]
      refine h.kept rfl rfl position rfl rfl ?_
      simp only [Margin.past, Margin.blockComment, if_true, h.remembers.line_eq]
    | false =>
      simp only [ofPiece?, alone, Bool.false_eq_true, if_false, Option.toList_some]
      refine h.dropped _ position rfl ?_
      simp [Margin.past, Margin.blockComment]
  | token t =>
    show (m.token t).Behind (ms ++ [.token (m.place t)]) (bs ++ ((m.lexeme t).comments ++ []))
    rw [List.append_nil]
    exact h.token t

end Margin

namespace Mark

/-- The lexemes of a text bring the blocks of its tokens and comments. -/
theorem harvested_ofPieces {m : Margin} {ms : List Mark} {bs : List CommentBlock} {text : Chars}
    {ps : List Piece} (taken : Piece.Taken text ps) (h : m.Behind ms bs) :
    Harvested (ofPieces ms m.position ps) (bs ++ (Lexeme.ofPieces m ps).flatMap (·.comments)) := by
  induction taken generalizing m ms bs with
  | nil =>
    show Harvested ms (bs ++ (m.run.close.closed ++ []))
    rw [List.append_nil]
    exact h.harvested
  | @cons c text rest piece ps first more ih =>
    have next := ih (h.past first)
    rw [m.position_past, List.append_assoc, ← List.flatMap_append] at next
    rw [ofPieces, more.flatMap_spelling, Lexeme.ofPieces_cons]
    exact next

/-! ## What the blocks hold -/

/-- Blocks hold the comments of marks. -/
structure Harvest (ms : List Mark) (bs : List CommentBlock) : Prop where
  /-- The blocks are in the order of the lines on which they end, and no two end on one line. -/
  keys : bs.Pairwise (·.lastLine < ·.lastLine)
  /-- The blocks hold every comment that may be documentation, once and in order. -/
  comments : bs.flatMap (·.lines) = ms.filterMap comment?
  /-- Nothing stands between the comments of a block, and each starts on the line below the end of
  the one in front of it. -/
  rows : ∀ b ∈ bs, ∃ run, run <:+: ms ∧ Row run b
  heads : Heads ms
  /-- A comment behind a token on its line is alone in its block. -/
  alone : ∀ b ∈ bs, ∀ c ∈ b.lines, c.isHead = false → b.lines = [c]
  /-- Two adjacent comments are in one block if the second one may join the first. -/
  maximal : ∀ c stop d stop', [kept c stop, kept d stop'] <:+: ms →
    Joins (kept c stop) (kept d stop') → ∃ b ∈ bs, [c, d] <:+: b.lines

theorem pair_infix_append {l r : List Mark} {x y : Mark} (h : [x, y] <:+: l ++ r) :
    [x, y] <:+: l ∨ [x, y] <:+: r ∨ (l.getLast? = some x ∧ r.head? = some y) := by
  rcases List.infix_append_iff.1 h with h | h | ⟨front, back, eq, hfront, hback⟩
  · exact .inl h
  · exact .inr (.inl h)
  · match front, back, eq with
    | [], _, rfl => exact .inr (.inl hback.isInfix)
    | [_], _, rfl =>
      obtain ⟨l, rfl⟩ := hfront
      obtain ⟨r, rfl⟩ := hback
      exact .inr (.inr ⟨List.getLast?_concat, rfl⟩)
    | [_, _], _, rfl => exact .inl hfront.isInfix

variable {ms run : List Mark} {bs : List CommentBlock} {b : CommentBlock} {c : CommentLine}

namespace Row

theorem filterMap_eq (h : Row run b) : run.filterMap comment? = b.lines := by
  have eq := congrArg (List.filterMap id) h.comments
  simpa [List.filterMap_map] using eq

/-- Of several comments in a block each one is a head comment. -/
theorem isHead_of_joins {x y : Mark} (joins : (x :: y :: run).IsChain Joins) :
    ∀ m ∈ x :: y :: run, ∀ c ∈ m.comment?, c.isHead := by
  induction run generalizing x y with
  | nil =>
    obtain ⟨⟨head, next, -⟩, -⟩ := List.isChain_cons_cons.1 joins
    intro m hm c hc
    rcases List.mem_pair.1 hm with rfl | rfl
    · obtain rfl := Option.some.inj hc
      exact head
    · obtain rfl := Option.some.inj hc
      exact next
  | cons z run ih =>
    obtain ⟨⟨head, -, -⟩, more⟩ := List.isChain_cons_cons.1 joins
    intro m hm c hc
    rcases List.mem_cons.1 hm with rfl | hm
    · obtain rfl := Option.some.inj hc
      exact head
    · exact ih more m hm c hc

theorem alone (h : Row run b) (hc : c ∈ b.lines) (head : c.isHead = false) : b.lines = [c] := by
  rw [← h.filterMap_eq] at hc ⊢
  obtain ⟨m, hm, eq⟩ := List.mem_filterMap.1 hc
  match run, h with
  | [], h => exact absurd rfl h.ne_nil
  | [x], _ =>
    obtain rfl := List.mem_singleton.1 hm
    rw [List.filterMap_cons_some eq, List.filterMap_nil]
  | x :: y :: run, h =>
    have isHead := isHead_of_joins h.joins m hm c eq
    rw [head] at isHead
    exact nomatch isHead

end Row

namespace Harvested

theorem comments (h : Harvested ms bs) : bs.flatMap (·.lines) = ms.filterMap comment? := by
  induction h with
  | nil => rfl
  | skip _ none ih => simp [ih, none]
  | row _ row _ ih => simp [ih, row.filterMap_eq]

theorem rows (h : Harvested ms bs) : ∀ b ∈ bs, ∃ run, run <:+: ms ∧ Row run b := by
  induction h with
  | nil => simp
  | @skip ms _ m _ _ ih =>
    intro b hb
    obtain ⟨run, infix', row⟩ := ih b hb
    exact ⟨run, infix'.trans (List.prefix_append ms [m]).isInfix, row⟩
  | @row ms run _ _ _ row _ ih =>
    intro b hb
    rcases List.mem_append.1 hb with hb | hb
    · obtain ⟨run', infix', row'⟩ := ih b hb
      exact ⟨run', infix'.trans (List.prefix_append ms run).isInfix, row'⟩
    · obtain rfl := List.mem_singleton.1 hb
      exact ⟨run, (List.suffix_append ms run).isInfix, row⟩

theorem maximal (h : Harvested ms bs) {c d : CommentLine} {stop stop' : Position}
    (adjacent : [kept c stop, kept d stop'] <:+: ms) (joins : Joins (kept c stop) (kept d stop')) :
    ∃ b ∈ bs, [c, d] <:+: b.lines := by
  induction h with
  | nil => simp at adjacent
  | skip _ none ih =>
    rcases pair_infix_append adjacent with adjacent | adjacent | ⟨-, last⟩
    · exact ih adjacent
    · have short := adjacent.length_le
      simp at short
    · obtain rfl := Option.some.inj last
      exact nomatch none
  | row _ row apart ih =>
    rcases pair_infix_append adjacent with adjacent | adjacent | ⟨last, first⟩
    · obtain ⟨b, hb, holds⟩ := ih adjacent
      exact ⟨b, List.mem_append_left _ hb, holds⟩
    · have holds := adjacent.filterMap comment?
      rw [row.filterMap_eq] at holds
      exact ⟨_, List.mem_concat_self, holds⟩
    · exact absurd joins (apart _ last _ first)

/-- A block ends on a line below that on which the block in front of it ends. -/
theorem keys (h : Harvested ms bs) (below : ms.Pairwise Below)
    (span : ∀ comment stop, kept comment stop ∈ ms → comment.start.line ≤ stop.line) :
    bs.Pairwise (·.lastLine < ·.lastLine) := by
  induction h with
  | nil => exact .nil
  | skip _ _ ih =>
    obtain ⟨front, -⟩ := List.pairwise_append.1 below
    exact ih front fun c stop mem => span c stop (List.mem_append_left _ mem)
  | @row ms run bs b more row _ ih =>
    obtain ⟨front, -, across⟩ := List.pairwise_append.1 below
    refine List.pairwise_append.2 ⟨ih front ?_, List.pairwise_singleton _ b, ?_⟩
    · exact fun c stop mem => span c stop (List.mem_append_left _ mem)
    · intro a ha b' hb'
      obtain rfl := List.mem_singleton.1 hb'
      obtain ⟨run', infix', row'⟩ := more.rows a ha
      obtain ⟨c, stop, last, lastLine⟩ := row'.last
      obtain ⟨d, stop', last', lastLine'⟩ := row.last
      have mem : kept c stop ∈ ms := infix'.subset (List.mem_of_getLast? last)
      have mem' : kept d stop' ∈ run := List.mem_of_getLast? last'
      have lt : stop.line < d.start.line := across _ mem _ mem' c stop rfl
      have le : d.start.line ≤ stop'.line := span d stop' (List.mem_append_right _ mem')
      rw [← lastLine, ← lastLine']
      exact Nat.lt_of_lt_of_le lt le

/-- Nothing is lost, nothing is added, and no block can be larger. -/
theorem harvest (h : Harvested ms bs) (heads : Heads ms) {p : Position} {rest : Chars}
    (apart : Apart ms p rest) : Harvest ms bs where
  keys := h.keys apart.below apart.span
  comments := h.comments
  rows := h.rows
  heads := heads
  alone b hb c hc head := by
    obtain ⟨run, -, row⟩ := h.rows b hb
    exact row.alone hc head
  maximal _ _ _ _ adjacent joins := h.maximal adjacent joins

end Harvested

end Mark

/-! ## What is kept of a source -/

namespace CommentMap

/-- A block that ends below all others comes last. -/
theorem insertInto_of_lt {b : CommentBlock} {bs : List CommentBlock}
    (h : ∀ a ∈ bs, a.lastLine < b.lastLine) : insertInto b bs = bs ++ [b] := by
  induction bs with
  | nil => rfl
  | cons a bs ih =>
    have behind := ih fun a' ha => h a' (List.mem_cons_of_mem a ha)
    rw [insertInto, if_pos (h a List.mem_cons_self), behind]
    rfl

/-- Blocks that end one below the other keep their order, and none takes the place of another. -/
theorem insertAll_of_pairwise {m : CommentMap} {bs : List CommentBlock}
    (h : (m.blocks ++ bs).Pairwise (·.lastLine < ·.lastLine)) :
    (m.insertAll bs).blocks = m.blocks ++ bs := by
  induction bs generalizing m with
  | nil => simp [insertAll]
  | cons b bs ih =>
    have last : (m.insert b).blocks = m.blocks ++ [b] :=
      insertInto_of_lt fun a ha => (List.pairwise_append.1 h).2.2 a ha b List.mem_cons_self
    have eq : m.blocks ++ b :: bs = (m.insert b).blocks ++ bs := by simp [last]
    rw [eq] at h ⊢
    exact ih h

end CommentMap

/-- The tokens among the marks are those of the lexemes, in front of the end of input. -/
theorem Mark.places_ofPieces (m : Margin) (ms : List Mark) (ps : List Piece) :
    (ofPieces ms m.position ps).filterMap place? ++
        [.point (m.position.after (ps.flatMap Piece.spelling))] =
      ms.filterMap place? ++ (Lexeme.ofPieces m ps).map (·.token.location) := by
  induction ps generalizing m ms with
  | nil => rfl
  | cons piece ps ih =>
    rw [List.flatMap_cons, Position.after_append, ofPieces, ← m.position_past, ih,
      Lexeme.ofPieces_cons, List.filterMap_append, List.map_append, places_ofPiece?,
      List.append_assoc]

/-- The comments kept of the bytes of a file are those among its tokens and comments that may be
documentation. -/
theorem LexemeReader.harvest_all (name : String) (bytes : List UInt8) (limit : Nat) :
    let s := Source.ofBytes name bytes
    let (ts, r) := (ofSource s limit).all
    Mark.Harvest s.marks r.comments.blocks ∧
      ts.map (·.location) = s.marks.filterMap Mark.place? ++ [s.endLocation] := by
  intro s
  have taken := Piece.taken_ofText s.text
  have init : ({} : Margin).Behind [] [] :=
    ⟨.nil, by simp, by simp, ⟨by simp [Mark.endsOn], by simp [Mark.endsOn]⟩⟩
  have harvested := Mark.harvested_ofPieces taken init
  obtain ⟨p, apart⟩ := Mark.apart_ofPieces taken
  have harvest := harvested.harvest (Mark.heads_ofPieces taken) apart
  rw [all_ofSource]
  refine ⟨?_, ?_⟩
  · have blocks := CommentMap.insertAll_of_pairwise (m := {}) harvest.keys
    show Mark.Harvest s.marks (CommentMap.insertAll {} (s.lexemes.flatMap (·.comments))).blocks
    rw [Source.lexemes, blocks]
    exact harvest
  · have places := Mark.places_ofPieces {} [] (Piece.ofText s.text)
    have whole := Source.after_text (Source.isSplit_ofBytes name bytes)
    rw [Piece.flatMap_spelling_ofText, whole] at places
    show (s.lexemes.map (·.token)).map (·.location) = _
    rw [List.map_map]
    exact places.symm

example :
    let s := Source.ofBytes "" "--a\n--b\nx --c\n--d\n--[[e]] y\n--f".toUTF8.toList
    (LexemeReader.ofSource s 0).all.2.comments.blocks.map (fun b => (b.lines.length, b.lastLine)) =
      [(2, 1), (1, 2), (1, 3), (1, 5)] := by
  decide +kernel

end LuaFront
