import LuaFront.Proofs.Tiling

/-!
# Where the errors of tokens are

`Source.Has` says that a location goes from one place of a source to another one, none of them
inside a character, and `SyntaxError.Shown` that all places which an error points at are like that.
The tokens of a source and their errors are, and the error of a token stands at its start, or at its
end if the token breaks off.

* `Source.Has.offsets`: what the byte offsets of such a location are.
* `Source.faultAt_of_mem_lexemes`: where the error of a token is.
-/

namespace LuaFront

/-- A location between two places of a source. -/
structure Source.Has (s : Source) (l : Location) : Prop where
  ordered : l.start ≤ l.stop
  start : ∃ front, front <+: s.text ∧ ({} : Position).after front = l.start
  stop : ∃ front, front <+: s.text ∧ ({} : Position).after front = l.stop

/-- Every place that an error points at is one of the source. -/
structure SyntaxError.Shown (s : Source) (e : SyntaxError) : Prop where
  location : s.Has e.location
  notes : ∀ n ∈ e.cause.boundNotes, s.Has n.1

/-- The token that an error is about breaks off, and the error is at its end. -/
def Cause.isUnfinished : Cause → Bool
  | .unfinishedString _ | .unfinishedBracket .. => true
  | _ => false

/-- The error of a token stands where the token starts, or where it breaks off. -/
structure Lexeme.FaultAt (s : Source) (x : Lexeme) (e : SyntaxError) : Prop where
  ordinary : e.cause.isMarker = false
  shown : e.Shown s
  place : e.location.start = x.token.location.start ∨
    e.cause.isUnfinished ∧ e.location.start = x.token.location.stop

/-! ## Places of a source -/

namespace Source

variable {s : Source} {l m : Location}

theorem has_between {front middle rest : Chars} (h : s.text = front ++ middle ++ rest) :
    s.Has ⟨({} : Position).after front, ({} : Position).after (front ++ middle)⟩ where
  ordered := by
    rw [Position.after_append]
    exact Position.le_after _ middle
  start := ⟨front, ⟨middle ++ rest, by rw [h, List.append_assoc]⟩, rfl⟩
  stop := ⟨front ++ middle, ⟨rest, h.symm⟩, rfl⟩

theorem has_point {front rest : Chars} (h : s.text = front ++ rest) :
    s.Has (.point (({} : Position).after front)) where
  ordered := le_refl _
  start := ⟨front, ⟨rest, h.symm⟩, rfl⟩
  stop := ⟨front, ⟨rest, h.symm⟩, rfl⟩

theorem has_endLocation (h : s.IsSplit) : s.Has s.endLocation := by
  have whole := has_point (s := s) (List.append_nil _).symm
  rwa [after_text h] at whole

namespace Has

theorem point_stop (h : s.Has l) : s.Has (.point l.stop) := ⟨le_refl _, h.stop, h.stop⟩

theorem cover (h : s.Has l) (k : s.Has m) : s.Has (l.cover m) where
  ordered := le_trans (min_le_left _ _) (le_trans h.ordered (le_max_left _ _))
  start := by
    show ∃ front, _ ∧ _ = l.start.earlier m.start
    unfold Position.earlier
    split
    · exact h.start
    · exact k.start
  stop := by
    show ∃ front, _ ∧ _ = l.stop.later m.stop
    unfold Position.later
    split
    · exact k.stop
    · exact h.stop

/-- The offsets of a location are the sizes of two fronts of the text, the second no shorter. -/
theorem offsets (h : s.Has l) (split : s.IsSplit) :
    s.offsetOf l.start ≤ s.offsetOf l.stop ∧
      (∃ front, front <+: s.text ∧ s.offsetOf l.start = Text.byteSize front) ∧
      ∃ front, front <+: s.text ∧ s.offsetOf l.stop = Text.byteSize front := by
  obtain ⟨front, hfront, start⟩ := h.start
  obtain ⟨front', hfront', stop⟩ := h.stop
  rw [← start, ← stop, offsetOf_after split hfront, offsetOf_after split hfront']
  refine ⟨?_, ⟨front, hfront, rfl⟩, front', hfront', rfl⟩
  -- Of two fronts one goes on from the other, and a longer one leads further.
  rcases List.prefix_or_prefix_of_prefix hfront hfront' with ⟨more, rfl⟩ | ⟨more, rfl⟩
  · rw [Text.byteSize_append]
    exact Nat.le_add_right _ _
  · have ordered := h.ordered
    rw [← start, ← stop] at ordered
    cases more with
    | nil => rw [List.append_nil]
    | cons c more =>
      rw [Position.after_append] at ordered
      exact absurd ordered (not_le.2 (Position.lt_after (List.cons_ne_nil c more) _))

end Has

end Source

namespace SyntaxError

/-- What an error marks is one of the places that it points at. -/
theorem Shown.exists_place {s : Source} {e : SyntaxError} (h : e.Shown s) {l : Label}
    (hl : l ∈ e.labels s) :
    ∃ place, s.Has place ∧ l.start = s.offsetOf place.start ∧ l.stop = s.offsetOf place.stop := by
  rcases List.mem_cons.1 hl with rfl | hl
  · exact ⟨e.location, h.location, rfl, rfl⟩
  · obtain ⟨n, hn, rfl⟩ := List.mem_map.1 hl
    exact ⟨n.1, h.notes n hn, rfl, rfl⟩

end SyntaxError

/-! ## Flaws of tokens -/

/-- What a flaw says about a token and the text behind it. -/
inductive Lexical.Flawed (t : Lexical) (rest : Chars) : Flaw → Prop
  | illegal (kind : t.kind = .illegal) : t.Flawed rest .illegal
  /-- The closing quote does not stand on the line where the string breaks off. -/
  | unfinished {quote : Char} {text : Chars} (kind : t.kind = .string)
      (quotes : quote = '\x22' ∨ quote = '\x27') (spelled : t.spelling = quote :: text)
      (stops : ∀ c ∈ rest.head?, c = '\n') : t.Flawed rest (.unfinished quote)
  | unclosed {level : Nat} (kind : t.kind = .string)
      (spelled : t.spelling = Bracket.opening level ++ t.text)
      (never : ¬ Bracket.closing level <:+: t.text) (last : rest = []) :
      t.Flawed rest (.unclosed level)
  | halfOpen {count : Nat} (kind : t.kind = .string)
      (spelled : t.spelling = '[' :: List.replicate (count + 1) '=')
      (other : rest.head? ≠ some '[') : t.Flawed rest .halfOpen

/-- A string without its closing quote stops in front of a line break, or at the end of the text. -/
theorem Quoted.stops_of_open {quote : Char} {skipping : Bool} {cs : Chars}
    (h : (read quote skipping cs).closed = false) :
    ∀ c ∈ (read quote skipping cs).rest.head?, c = '\n' := by
  fun_induction read quote skipping cs <;> simp_all [behind]

namespace Piece

open Text

variable {c : Char} {text rest : Chars} {t : Lexical} {flaw : Flaw}

theorem flawed_quoted (quotes : c = '\x22' ∨ c = '\x27') (h : quoted c text = (t, rest))
    (flawed : t.flaw = some flaw) : t.Flawed rest flaw := by
  rw [quoted] at h
  obtain ⟨rfl, rfl⟩ := Prod.mk.inj h
  simp only at flawed
  split at flawed
  · cases flawed
  · next opened =>
    obtain rfl := Option.some.inj flawed
    exact .unfinished rfl quotes rfl (Quoted.stops_of_open (by simpa using opened))

/-- What opens no long bracket in spite of its equals signs lacks the second bracket. -/
theorem flawed_halfOpen (starts : startsWith (fun d => d = '[' || d = '=') text)
    (unopened : Bracket.opening? ('[' :: text) = none) :
    ∃ count, text.takeWhile (· = '=') = List.replicate (count + 1) '=' ∧
      (text.dropWhile (· = '=')).head? ≠ some '[' := by
  have other : (text.dropWhile (· = '=')).head? ≠ some '[' := by
    intro bracket
    obtain ⟨rest, eq⟩ := List.head?_eq_some_iff.1 bracket
    rw [Bracket.opening?, eq] at unopened
    exact absurd unopened (Option.some_ne_none _)
  cases text with
  | nil => exact absurd starts Bool.false_ne_true
  | cons d text =>
    rcases (by simpa [startsWith] using starts : d = '[' ∨ d = '=') with rfl | rfl
    · exact absurd rfl other
    · refine ⟨(text.takeWhile (· = '=')).length, ?_, other⟩
      rw [List.takeWhile_cons_of_pos (by simp), List.replicate_succ, ← Bracket.takeWhile_equals]

theorem flawed_bracketed (starts : startsWith (fun d => d = '[' || d = '=') text)
    (h : bracketed ('[' :: text) = (t, rest)) (flawed : t.flaw = some flaw) :
    t.Flawed rest flaw := by
  unfold bracketed at h
  split at h
  · split at h
    · obtain ⟨rfl, -⟩ := Prod.mk.inj h
      cases flawed
    · next never =>
      obtain ⟨rfl, rfl⟩ := Prod.mk.inj h
      obtain rfl := Option.some.inj flawed
      exact .unclosed rfl rfl (Bracket.not_closing_of_body? never) rfl
  · next unopened =>
    obtain ⟨rfl, rfl⟩ := Prod.mk.inj h
    obtain rfl := Option.some.inj flawed
    obtain ⟨count, equals, other⟩ := flawed_halfOpen starts unopened
    exact .halfOpen rfl (congrArg ('[' :: ·) equals) other

theorem flawed_lexical (h : lexical c text = (t, rest)) (flawed : t.flaw = some flaw) :
    t.Flawed rest flaw := by
  unfold lexical at h
  split at h
  · next quotes => exact flawed_quoted quotes h flawed
  split at h
  · next bracket =>
    obtain ⟨rfl, starts⟩ := bracket
    exact flawed_bracketed starts h flawed
  split at h
  · obtain ⟨rfl, -⟩ := Prod.mk.inj h
    cases flawed
  split at h
  · obtain ⟨rfl, -⟩ := Prod.mk.inj h
    cases flawed
  cases hs : symbol? (c :: text) with
  | none =>
    rw [hs] at h
    obtain ⟨rfl, rfl⟩ := Prod.mk.inj h
    obtain rfl := Option.some.inj flawed
    exact .illegal rfl
  | some found =>
    obtain ⟨k, _, hk⟩ := List.exists_of_findSome?_eq_some hs
    obtain ⟨behind, _, rfl⟩ := Option.map_eq_some_iff.1 hk
    rw [hs] at h
    obtain ⟨rfl, -⟩ := Prod.mk.inj h
    cases flawed

/-- A token has no flaw that does not show in the text. -/
theorem flawed_of_first (h : first c text = (.token t, rest)) (flawed : t.flaw = some flaw) :
    t.Flawed rest flaw := by
  have read := lexical_of_first (congrArg Prod.fst h)
  rw [h] at read
  exact flawed_lexical read flawed

/-- A string that nothing closes starts with the bracket that its error points at. -/
theorem opening_of_unclosed {level : Nat} (h : first c text = (.token t, rest))
    (flaw : t.flaw = some (.unclosed level)) : Bracket.opening level <+: t.spelling := by
  cases flawed_of_first h flaw with
  | unclosed _ spelled => exact ⟨t.text, spelled.symm⟩

/-- A comment is left open only where nothing closes it, and then takes the rest of the text. -/
theorem never_of_unclosed {content : Chars} {level : Nat} {alone : Bool}
    (h : first c text = (.blockComment level content false alone, rest)) :
    rest = [] ∧ ¬ Bracket.closing level <:+: content := by
  obtain ⟨_, -, closed, -⟩ | ⟨never, -, -, rest⟩ := body?_of_blockComment h
  · exact nomatch closed
  · exact ⟨rest, Bracket.not_closing_of_body? never⟩

theorem rest_of_unclosed {content : Chars} {level : Nat} {alone : Bool}
    (h : first c text = (.blockComment level content false alone, rest)) : rest = [] :=
  (never_of_unclosed h).1

end Piece

namespace Margin

variable {s : Source} {m : Margin} {before rest : Chars}

theorem faultAt_lexeme {t : Lexical} (hm : m.position = ({} : Position).after before)
    (eq : s.text = before ++ t.spelling ++ rest)
    (opening : ∀ level, t.flaw = some (.unclosed level) → Bracket.opening level <+: t.spelling) :
    ∀ e ∈ (m.lexeme t).fault, (m.lexeme t).FaultAt s e := by
  intro e he
  obtain ⟨flaw, hflaw, rfl⟩ := Option.map_eq_some_iff.1 he
  have place : s.Has (m.place t) := by
    rw [Margin.place, hm, ← Position.after_append]
    exact Source.has_between eq
  refine ⟨Cause.isMarker_of_isLexical (flaw.isLexical_error _ _), ?_, ?_⟩
  · cases flaw with
    | illegal => exact ⟨place, nofun⟩
    | unfinished quote => exact ⟨place.point_stop, nofun⟩
    | unclosed level =>
      refine ⟨place.point_stop, fun n hn => ?_⟩
      obtain rfl := List.mem_singleton.1 hn
      -- The error points at the opening bracket too, which is a part of the token.
      obtain ⟨behind, spelled⟩ := opening level hflaw
      rw [← spelled, ← List.append_assoc, List.append_assoc] at eq
      show s.Has ⟨m.position, m.position.after (Bracket.opening level)⟩
      rw [hm, ← Position.after_append]
      exact Source.has_between eq
    | halfOpen => exact ⟨place, nofun⟩
  · cases flaw with
    | illegal => exact .inl rfl
    | unfinished quote => exact .inr ⟨rfl, rfl⟩
    | unclosed level => exact .inr ⟨rfl, rfl⟩
    | halfOpen => exact .inl rfl

/-- The error of a comment that nothing closes stands at the end of input behind it. -/
theorem faultAt_unclosed {level : Nat} {content : Chars} {alone : Bool}
    (hm : m.position = ({} : Position).after before)
    (eq : s.text = before ++ (Piece.blockComment level content false alone).spelling) :
    ∀ e ∈ (m.blockComment level content false alone).fault,
      (m.blockComment level content false alone).endOfInput.FaultAt s e := by
  rintro e ⟨⟩
  have opened : s.text = before ++ (['-', '-'] ++ Bracket.opening level) ++ content := by
    simpa [Piece.spelling] using eq
  have stop : (m.blockComment level content false alone).position =
      ({} : Position).after s.text := by
    rw [eq, Position.after_append, ← hm]
    rfl
  have point : s.Has (.point (m.blockComment level content false alone).position) := by
    rw [stop]
    exact Source.has_point (List.append_nil _).symm
  refine ⟨rfl, ⟨point, fun n hn => ?_⟩, .inl rfl⟩
  obtain rfl := List.mem_singleton.1 hn
  have opener := Source.has_between opened
  rwa [Position.after_append, Position.after_append, ← hm] at opener

end Margin

namespace Lexeme

theorem faultAt_ofPieces {s : Source} {m : Margin} {before text : Chars} {ps : List Piece}
    (h : Piece.Taken text ps) (eq : s.text = before ++ text)
    (hm : m.position = ({} : Position).after before)
    (hf : ∀ e ∈ m.fault, text = [] ∧ m.endOfInput.FaultAt s e) :
    ∀ x ∈ ofPieces m ps, ∀ e ∈ x.fault, x.FaultAt s e := by
  induction h generalizing before m with
  | nil =>
    -- An error that waits in the margin comes up with the end of input.
    intro x hx e he
    obtain rfl := List.mem_singleton.1 hx
    exact (hf e he).2
  | @cons c text rest piece ps first _ ih =>
    -- No error waits here, since there is text left.
    have none : ∀ e, e ∉ m.fault := fun e he => nomatch (hf e he).1
    have spelled := Piece.spelling_first c text
    rw [first] at spelled
    rw [← spelled, ← List.append_assoc] at eq
    have position : (m.past piece).position = ({} : Position).after (before ++ piece.spelling) := by
      rw [m.position_past, hm, Position.after_append]
    cases piece with
    | space => exact ih eq position fun e he => absurd he (none e)
    | lineComment => exact ih eq position fun e he => absurd he (none e)
    | blockComment level content closed alone =>
      refine ih eq position fun e he => ?_
      cases closed with
      | true => exact absurd he (none e)
      | false =>
        obtain rfl := Piece.rest_of_unclosed first
        exact ⟨rfl, Margin.faultAt_unclosed hm (by simpa using eq) e he⟩
    | token t =>
      intro x hx
      rcases List.mem_cons.1 hx with rfl | hx
      · exact Margin.faultAt_lexeme hm eq fun level => Piece.opening_of_unclosed first
      · exact ih eq position nofun x hx

end Lexeme

namespace Source

variable {s : Source}

theorem faultAt_of_mem_lexemes {x : Lexeme} (h : x ∈ s.lexemes) {e : SyntaxError}
    (he : e ∈ x.fault) : x.FaultAt s e :=
  @Lexeme.faultAt_ofPieces s {} [] _ _ (Piece.taken_ofText s.text) rfl rfl nofun x h e he

theorem has_of_mem_lexemes {x : Lexeme} (h : x ∈ s.lexemes) : s.Has x.token.location := by
  have tiling : Tiling [] s.text (s.lexemes.map (·.token)) :=
    Tiling.of_taken (Piece.taken_ofText s.text) .nil rfl
  obtain ⟨front, spelling, rest, eq, place, -⟩ := tiling.exists_place rfl (List.mem_map_of_mem h)
  rw [place]
  exact has_between eq

end Source

end LuaFront
