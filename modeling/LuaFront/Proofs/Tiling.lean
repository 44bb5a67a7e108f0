import LuaFront.Proofs.Offsets
import LuaFront.Proofs.Trivia

/-!
# Tokens tile a source

Reading a source up to its end loses nothing of it: the tokens stand one behind the other at places
of the source, each holds what the source holds at its place, and what stands between them is
trivia. This follows the pieces of the text. `Tiling` is what they make of a text, with what stands
in front of it in view, and `Source.Tiled` says the same by positions.

* `Tiling.of_taken`: the pieces of a text tile it.
* `Tiling.tiled`: what tiles the text of a source tiles the source.
* `Source.takenFrom_or_eof`: every lexeme is read from the text where its token starts, or is the
  end of input.
* `Source.eq_lexeme_of_start`: a token that starts where a piece does is the token of that piece.
* `LexemeReader.tiled_all`: the tokens of the bytes of a file tile its source, and there is nothing
  behind the end of input.
-/

namespace LuaFront

/-- How tokens with trivia in front of them make up a text that stands behind another text. -/
inductive Tiling : (before text : Chars) → List Token → Prop
  | last {before gap : Chars} (trivia : Trivia gap []) :
      Tiling before gap [⟨.eof, "", .point (({} : Position).after (before ++ gap)), true⟩]
  | token {before gap spelling rest : Chars} {t : Token} {ts : List Token}
      (trivia : Trivia gap (spelling ++ rest)) (nonempty : spelling ≠ [])
      (kind : t.kind ≠ .eof) (text : t.kind ≠ .string → t.text = String.ofList spelling)
      (place : t.location = ⟨({} : Position).after (before ++ gap),
        ({} : Position).after (before ++ gap ++ spelling)⟩)
      (more : Tiling (before ++ gap ++ spelling) rest ts) :
      Tiling before (gap ++ (spelling ++ rest)) (t :: ts)

/-- One place ends before another one starts, and nothing but trivia stands between them. -/
def Source.Apart (s : Source) (l m : Location) : Prop :=
  l.stop ≤ m.start ∧ Trivia (s.slice ⟨l.stop, m.start⟩) (s.slice ⟨m.start, s.endPosition⟩)

/-- Tokens tile a source. -/
structure Source.Tiled (s : Source) (ts : List Token) : Prop where
  /-- The end of input is the last token and no other one, and stands at the end of the source. -/
  ends : ∃ front, ts = front ++ [⟨.eof, "", s.endLocation, true⟩] ∧ ∀ t ∈ front, t.kind ≠ .eof
  holds : ∀ t ∈ ts, s.Holds t.location.start ∧ s.Holds t.location.stop
  start_le_stop : ∀ t ∈ ts, t.location.start ≤ t.location.stop
  nonempty : ∀ t ∈ ts, t.kind ≠ .eof → t.location.start < t.location.stop
  text : ∀ t ∈ ts, t.kind ≠ .string → t.kind ≠ .eof → t.text = String.ofList (s.slice t.location)
  /-- The first token is apart from the start of the source, and each other one from the one in
  front of it. -/
  gaps : (.point {} :: ts.map (·.location)).IsChain s.Apart

theorem Position.lt_after {text : Chars} (h : text ≠ []) (p : Position) : p < p.after text := by
  cases text with
  | nil => exact absurd rfl h
  | cons c text => exact lt_of_lt_of_le (p.lt_advance c) (le_after _ text)

namespace Tiling

variable {c : Char} {text before gap rest : Chars} {m : Margin}

/-- A first piece that is a token stands behind the trivia in front of it. -/
theorem of_first {t : Lexical} {ts : List Token} (first : Piece.first c text = (.token t, rest))
    (trivia : Trivia gap (c :: text)) (hm : m.position = ({} : Position).after (before ++ gap))
    (more : Tiling (before ++ gap ++ t.spelling) rest ts) :
    Tiling before (gap ++ c :: text) ((m.lexeme t).token :: ts) := by
  have head : (Piece.first c text).1 = .token t := by rw [first]
  have spelled : t.spelling ++ rest = c :: text := by
    have spelled := Piece.spelling_first c text
    rwa [first] at spelled
  have nonempty : t.spelling ≠ [] := by
    have nonempty := Piece.spelling_first_ne_nil c text
    rwa [head] at nonempty
  rw [← spelled] at trivia ⊢
  refine .token trivia nonempty (Piece.regular_of_first head).kind_ne_eof ?_ ?_ more
  · intro kind
    show String.ofList t.text = String.ofList t.spelling
    rw [Piece.verbatim_of_first head kind]
  · show (⟨m.position, m.position.after t.spelling⟩ : Location) = _
    rw [Position.after_append (s := before ++ gap), hm]

/-- The pieces of a text tile it, together with trivia in front of them. -/
theorem of_taken {ps : List Piece} (h : Piece.Taken rest ps) (trivia : Trivia gap rest)
    (hm : m.position = ({} : Position).after (before ++ gap)) :
    Tiling before (gap ++ rest) ((Lexeme.ofPieces m ps).map (·.token)) := by
  induction h generalizing before gap m with
  | nil =>
    show Tiling before (gap ++ []) [⟨.eof, "", .point m.position, true⟩]
    rw [hm, List.append_nil]
    exact .last trivia
  | @cons c text rest piece ps first _ ih =>
    rw [Lexeme.ofPieces_cons]
    by_cases token : ∃ t, piece = .token t
    · obtain ⟨t, rfl⟩ := token
      have position : (m.past (.token t)).position =
          ({} : Position).after (before ++ gap ++ t.spelling ++ []) := by
        rw [m.position_past, hm, List.append_nil, ← Position.after_append]
        rfl
      exact of_first first trivia hm (ih .nil position)
    · -- Whatever is no token joins the trivia in front of the next one.
      have none : ∀ t, piece ≠ .token t := fun t eq => token ⟨t, eq⟩
      have noToken : ∀ t, (Piece.first c text).1 ≠ .token t := by rwa [first]
      have spelled := Piece.spelling_first c text
      have trivial := Piece.trivia_first noToken
      rw [first] at spelled trivial
      have position : (m.past piece).position =
          ({} : Position).after (before ++ (gap ++ piece.spelling)) := by
        rw [m.position_past, hm, ← Position.after_append, List.append_assoc]
      rw [m.lexeme?_eq_none none, Option.toList_none, List.nil_append]
      rw [← spelled] at trivia ⊢
      rw [← List.append_assoc]
      exact ih (trivia.append trivial) position

variable {s : Source} {ts : List Token}

theorem ends (h : Tiling before text ts) (hs : s.IsSplit) (eq : s.text = before ++ text) :
    ∃ front, ts = front ++ [⟨.eof, "", s.endLocation, true⟩] ∧ ∀ t ∈ front, t.kind ≠ .eof := by
  induction h with
  | last =>
    rw [← eq, Source.after_text hs]
    exact ⟨[], rfl, by simp⟩
  | @token _ _ _ _ t _ _ _ kind _ _ _ ih =>
    obtain ⟨front, rfl, none⟩ := ih (by simpa using eq)
    refine ⟨t :: front, rfl, ?_⟩
    intro u hu
    rcases List.mem_cons.1 hu with rfl | hu
    · exact kind
    · exact none u hu

/-- Every token stands between two places to which the text in front of it and behind it leads. -/
theorem exists_place (h : Tiling before text ts) (eq : s.text = before ++ text) {t : Token}
    (ht : t ∈ ts) :
    ∃ front spelling rest, s.text = front ++ spelling ++ rest ∧
      t.location = ⟨({} : Position).after front, ({} : Position).after (front ++ spelling)⟩ ∧
      (t.kind ≠ .eof → spelling ≠ []) ∧
      (t.kind ≠ .string → t.kind ≠ .eof → t.text = String.ofList spelling) := by
  induction h with
  | @last before gap =>
    obtain rfl := List.mem_singleton.1 ht
    exact ⟨before ++ gap, [], [], by simpa using eq, by simp [Location.point], by simp, by simp⟩
  | @token before gap spelling rest u ts _ nonempty kind text place _ ih =>
    rcases List.mem_cons.1 ht with rfl | ht
    · exact ⟨before ++ gap, spelling, rest, by simpa using eq, place, fun _ => nonempty,
        fun string _ => text string⟩
    · exact ih (by simpa using eq) ht

theorem apart (hs : s.IsSplit) (eq : s.text = before ++ (gap ++ rest)) (trivia : Trivia gap rest)
    {l m : Location} (hl : l.stop = ({} : Position).after before)
    (hm : m.start = ({} : Position).after (before ++ gap)) : s.Apart l m := by
  have whole : s.text = before ++ gap ++ rest := by rw [eq, List.append_assoc]
  rw [Source.Apart, hl, hm, Source.slice_between hs whole, Source.slice_behind hs whole]
  refine ⟨?_, trivia⟩
  rw [Position.after_append]
  exact Position.le_after _ gap

theorem gaps (h : Tiling before text ts) (hs : s.IsSplit) (eq : s.text = before ++ text)
    {l : Location} (hl : l.stop = ({} : Position).after before) :
    (l :: ts.map (·.location)).IsChain s.Apart := by
  induction h generalizing l with
  | last trivia => exact .cons_cons (apart hs (by simpa using eq) trivia hl rfl) (.singleton _)
  | @token _ _ _ _ t _ trivia _ _ _ place _ ih =>
    have start : t.location.start = _ := congrArg Location.start place
    have stop : t.location.stop = _ := congrArg Location.stop place
    exact .cons_cons (apart hs eq trivia hl start) (ih (by simpa using eq) stop)

/-- What tiles the text of a source tiles the source. -/
theorem tiled (h : Tiling [] s.text ts) (hs : s.IsSplit) : s.Tiled ts where
  ends := h.ends hs rfl
  holds t ht := by
    obtain ⟨front, spelling, rest, eq, place, -⟩ := h.exists_place rfl ht
    rw [place]
    have start : front <+: s.text := ⟨spelling ++ rest, by rw [eq, List.append_assoc]⟩
    exact ⟨Source.holds_after hs start, Source.holds_after hs ⟨rest, eq.symm⟩⟩
  start_le_stop t ht := by
    obtain ⟨front, spelling, rest, -, place, -⟩ := h.exists_place rfl ht
    rw [place, Position.after_append]
    exact Position.le_after _ spelling
  nonempty t ht kind := by
    obtain ⟨front, spelling, rest, -, place, nonempty, -⟩ := h.exists_place rfl ht
    rw [place, Position.after_append]
    exact Position.lt_after (nonempty kind) _
  text t ht string eof := by
    obtain ⟨front, spelling, rest, eq, place, -, text⟩ := h.exists_place rfl ht
    rw [text string eof, place, Source.slice_between hs eq]
  gaps := h.gaps hs rfl rfl

end Tiling

/-! ## Where a token is read -/

/-- A lexeme is made of the token that starts what is left of a text, and stands where the text in
front of it leads. -/
inductive Lexeme.TakenFrom (whole : Chars) : Lexeme → Prop
  | intro {before text rest : Chars} {c : Char} {t : Lexical} {m : Margin}
      (eq : whole = before ++ c :: text) (first : Piece.first c text = (.token t, rest))
      (position : m.position = ({} : Position).after before) : TakenFrom whole (m.lexeme t)

namespace Lexeme

variable {ps : List Piece}

/-- All lexemes in front of the end of input are tokens of the text. -/
theorem takenFrom_ofPieces {m : Margin} {whole before text : Chars} (h : Piece.Taken text ps)
    (eq : whole = before ++ text) (hm : m.position = ({} : Position).after before) :
    ∀ x ∈ (ofPieces m ps).dropLast, x.TakenFrom whole := by
  induction h generalizing before m with
  | nil => exact List.forall_mem_nil _
  | @cons c text rest piece ps first _ ih =>
    have spelled := Piece.spelling_first c text
    rw [first] at spelled
    have position : (m.past piece).position = ({} : Position).after (before ++ piece.spelling) := by
      rw [m.position_past, hm, Position.after_append]
    have later := ih (by rw [eq, ← spelled, List.append_assoc]) position
    cases piece with
    | token t =>
      rw [ofPieces, List.dropLast_cons_of_ne_nil (ofPieces_ne_nil _ ps)]
      exact List.forall_mem_cons.2 ⟨.intro eq first hm, later⟩
    | _ => exact later

end Lexeme

namespace Source

variable {s : Source} {x : Lexeme}

/-- All lexemes are tokens of the text, and then comes its end. -/
theorem takenFrom_or_eof (split : s.IsSplit) (h : x ∈ s.lexemes) :
    x.TakenFrom s.text ∨ x.token = ⟨.eof, "", s.endLocation, true⟩ := by
  have taken := Lexeme.takenFrom_ofPieces (m := {}) (Piece.taken_ofText s.text)
    (List.nil_append _).symm rfl
  have last := Lexeme.getLast?_ofPieces {} (Piece.ofText s.text)
  rw [lexemes, ← List.dropLast_append_getLast? _ last] at h
  rcases List.mem_append.1 h with h | h
  · exact .inl (taken x h)
  · obtain rfl := List.mem_singleton.1 h
    have position : ((Piece.ofText s.text).foldl Margin.past {}).position = s.endPosition := by
      rw [Margin.position_foldl, Piece.flatMap_spelling_ofText, after_text split]
    rw [Margin.endOfInput, position]
    exact .inr rfl

/-- What starts at a place is what is read there. -/
theorem eq_lexeme_of_start (split : s.IsSplit) (h : x ∈ s.lexemes) {before text rest : Chars}
    {c : Char} {t : Lexical} (eq : s.text = before ++ c :: text)
    (start : x.token.location.start = ({} : Position).after before)
    (first : Piece.first c text = (.token t, rest)) :
    ∃ m : Margin, m.position = ({} : Position).after before ∧ x = m.lexeme t := by
  rcases takenFrom_or_eof split h with taken | eof
  · obtain @⟨before', text', rest', c', t', m, eq', first', position⟩ := taken
    obtain rfl : before' = before := front_unique split eq' eq (position.symm.trans start)
    rw [eq, List.append_cancel_left_eq] at eq'
    obtain ⟨rfl, rfl⟩ := List.cons.inj eq'
    rw [first] at first'
    obtain ⟨token, -⟩ := Prod.mk.inj first'
    obtain rfl := Piece.token.inj token
    exact ⟨m, position, rfl⟩
  · -- Behind the end of input there is no text.
    rw [eof] at start
    have whole : s.text = before := by
      refine front_unique split (List.append_nil _).symm eq ?_
      rw [after_text split]
      exact start
    rw [whole] at eq
    simp at eq

end Source

/-- The tokens of the bytes of a file tile its source, and behind the end of input there is only the
end of input, with no further comment or error. -/
theorem LexemeReader.tiled_all (name : String) (bytes : List UInt8) (limit : Nat) :
    let s := Source.ofBytes name bytes
    let (ts, r) := (ofSource s limit).all
    s.Tiled ts ∧ r.next = (⟨.eof, "", s.endLocation, true⟩, r) := by
  intro s
  have tiling : Tiling [] s.text (s.lexemes.map (·.token)) :=
    Tiling.of_taken (Piece.taken_ofText s.text) .nil rfl
  rw [all_ofSource]
  exact ⟨tiling.tiled (Source.isSplit_ofBytes name bytes), rfl⟩

end LuaFront
