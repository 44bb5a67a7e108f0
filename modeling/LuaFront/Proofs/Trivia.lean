import LuaFront.Proofs.Lexemes

/-!
# What stands between tokens

Between two tokens of a program stand blanks, line breaks and comments. `Trivia` says so of a text
by itself, with all that comes behind it in view, because what ends a comment may stand there: a
short comment goes up to the end of its line and a long one up to the first bracket that closes it,
or up to the end of the text if there is none.

* `Trivia.append`: what follows one such text may be another one.
* `Piece.trivia_first`: a first piece that is no token is such a text.
* `Piece.verbatim_of_first`: a token is its own text, unless it is a string.
* `Piece.taken_ofText`: all pieces of a text are taken off it one by one.
-/

namespace LuaFront

/-- A text of blanks, line breaks and complete comments in front of another text. -/
inductive Trivia : (gap behind : Chars) → Prop
  | nil {behind : Chars} : Trivia [] behind
  | space {c : Char} {gap behind : Chars} (blank : Text.isBlank c ∨ c = '\n')
      (more : Trivia gap behind) : Trivia (c :: gap) behind
  /-- A short comment, which does not open like a long one and takes the rest of its line. -/
  | short {text gap behind : Chars} (unopened : ∀ level, ¬ Bracket.opening level <+: text)
      (oneLine : '\n' ∉ text) (stops : ∀ c ∈ (gap ++ behind).head?, c = '\n')
      (more : Trivia gap behind) : Trivia ('-' :: '-' :: text ++ gap) behind
  /-- A long comment, which no bracket closes before the one at its end. -/
  | long {level : Nat} {text gap behind : Chars}
      (first : ∀ front back,
        text ++ Bracket.closing level = front ++ Bracket.closing level ++ back → back = [])
      (more : Trivia gap behind) :
      Trivia ('-' :: '-' :: (Bracket.opening level ++ text ++ Bracket.closing level) ++ gap) behind
  /-- A long comment that nothing closes, at the end of the text. -/
  | unclosed {level : Nat} {text : Chars} (never : ¬ Bracket.closing level <:+: text) :
      Trivia ('-' :: '-' :: (Bracket.opening level ++ text)) []

namespace Trivia

theorem append {gap more behind : Chars} (h : Trivia gap (more ++ behind))
    (k : Trivia more behind) : Trivia (gap ++ more) behind := by
  generalize hb : more ++ behind = whole at h
  induction h with
  | nil => exact k
  | space blank _ ih => exact .space blank (ih hb)
  | @short text gap _ unopened oneLine stops _ ih =>
    subst hb
    rw [List.append_assoc]
    exact .short unopened oneLine (by rwa [List.append_assoc]) (ih rfl)
  | long first _ ih =>
    rw [List.append_assoc]
    exact .long first (ih hb)
  | unclosed never =>
    obtain ⟨rfl, rfl⟩ := List.append_eq_nil_iff.1 hb
    rw [List.append_nil]
    exact .unclosed never

end Trivia

/-! ## Long brackets -/

namespace Bracket

theorem opening?_append (level : Nat) (text : Chars) :
    opening? (opening level ++ text) = some (level, text) := by
  have cut : Cut.many (· = '=') (List.replicate level '=' ++ '[' :: text) =
      (List.replicate level '=', '[' :: text) := Cut.many_append (by simp) (by simp)
  obtain ⟨take, drop⟩ := Prod.mk.inj cut
  rw [opening, List.cons_append, List.append_assoc, List.singleton_append]
  simp only [opening?, drop, take, List.length_replicate]

theorem not_opening_of_opening? {text : Chars} (h : opening? text = none) (level : Nat) :
    ¬ opening level <+: text := by
  rintro ⟨rest, rfl⟩
  rw [opening?_append] at h
  exact nomatch h

theorem closing_ne_nil (level : Nat) : closing level ≠ [] := List.cons_ne_nil _ _

/-- The bracket behind the content is the first one that closes it. -/
theorem first_of_body? {level : Nat} {cs body rest : Chars} (h : body? level cs = some (body, rest))
    {front back : Chars} (eq : body ++ closing level = front ++ closing level ++ back) :
    back = [] := by
  induction cs generalizing body front with
  | nil => exact nomatch h
  | cons c cs ih =>
    have whole := eq_of_body? h
    unfold body? at h
    split at h
    · obtain ⟨rfl, rfl⟩ := by simpa using h
      have length := congrArg List.length eq
      simp only [List.nil_append, List.length_append] at length
      exact List.length_eq_zero_iff.1 (by omega)
    · next none =>
      obtain ⟨⟨b, r⟩, hb, he⟩ := Option.map_eq_some_iff.1 h
      obtain ⟨rfl, rfl⟩ := by simpa using he
      cases front with
      | nil =>
        -- A bracket in front of the first character would have been found there.
        have found : Text.strip? (closing level) (c :: cs) = some (back ++ r) := by
          rw [Text.strip?_eq_some_iff, whole, eq]
          simp
        rw [found] at none
        exact nomatch none
      | cons f front => exact ih hb (List.cons.inj eq).2

theorem not_closing_of_body? {level : Nat} {cs : Chars} (h : body? level cs = none) :
    ¬ closing level <:+: cs := by
  induction cs with
  | nil => exact fun found => closing_ne_nil level (List.infix_nil.1 found)
  | cons c cs ih =>
    unfold body? at h
    split at h
    · exact nomatch h
    · next none =>
      intro found
      rcases List.infix_cons_iff.1 found with ⟨rest, eq⟩ | found
      · rw [Text.strip?_eq_some_iff.2 eq.symm] at none
        exact nomatch none
      · exact ih (Option.map_eq_none_iff.1 h) found

end Bracket

/-! ## Pieces -/

/-- A token that is no string is spelled as it reads. -/
def Lexical.Verbatim (t : Lexical) : Prop := t.kind ≠ .string → t.text = t.spelling

namespace Piece

open Text

theorem not_mem_takeWhile (text : Chars) : '\n' ∉ text.takeWhile (· ≠ '\n') := by
  intro mem
  have all := List.all_eq_true.1 List.all_takeWhile _ mem
  simp at all

theorem stops_dropWhile (text : Chars) :
    ∀ c ∈ (text.dropWhile (· ≠ '\n')).head?, c = '\n' := by
  intro c hc
  have not := List.head?_dropWhile_not (fun c : Char => decide (c ≠ '\n')) text
  rw [hc] at not
  simpa using not

theorem trivia_comment (text : Chars) : Trivia (comment text).1.spelling (comment text).2 := by
  unfold comment
  split
  · split
    · next body rest h =>
      have nothing : Trivia [] rest := .nil
      have long := nothing.long fun _ _ eq => Bracket.first_of_body? h eq
      simpa [spelling] using long
    · next h =>
      have unclosed := Trivia.unclosed (Bracket.not_closing_of_body? h)
      simpa [spelling] using unclosed
  · next h =>
    have unopened : ∀ level, ¬ Bracket.opening level <+: text.takeWhile (· ≠ '\n') := by
      intro level opened
      exact Bracket.not_opening_of_opening? h level (opened.trans (List.takeWhile_prefix _))
    have nothing : Trivia [] (text.dropWhile (· ≠ '\n')) := .nil
    have short := nothing.short unopened (not_mem_takeWhile text) (stops_dropWhile text)
    simpa [spelling] using short

/-- A first piece that is no token is a blank, a line break or a comment. -/
theorem trivia_first {c : Char} {text : Chars} (h : ∀ t, (first c text).1 ≠ .token t) :
    Trivia (first c text).1.spelling (first c text).2 := by
  unfold first at h ⊢
  split
  · next blank => exact .space blank .nil
  · next blank =>
    rw [if_neg blank] at h
    split
    · exact trivia_comment _
    · next none =>
      rw [none] at h
      exact absurd rfl (h _)

/-! ## Tokens -/

theorem verbatim_quoted (quote : Char) (text : Chars) : (quoted quote text).1.Verbatim :=
  fun h => absurd rfl h

theorem verbatim_bracketed (text : Chars) : (bracketed text).1.Verbatim := by
  unfold bracketed
  split
  · split
    · exact fun h => absurd rfl h
    · exact fun h => absurd rfl h
  · exact fun h => absurd rfl h

theorem verbatim_plain (kind : Kind) (flaw : Option Flaw) (cut : Chars × Chars) :
    (plain kind flaw cut).1.Verbatim := fun _ => rfl

theorem verbatim_symbol? {text : Chars} {t : Lexical × Chars} (h : symbol? text = some t) :
    t.1.Verbatim := by
  obtain ⟨k, _, hs⟩ := List.exists_of_findSome?_eq_some h
  obtain ⟨rest, _, rfl⟩ := Option.map_eq_some_iff.1 hs
  exact verbatim_plain _ _ _

theorem verbatim_lexical (c : Char) (text : Chars) : (lexical c text).1.Verbatim := by
  unfold lexical
  split
  · exact verbatim_quoted c text
  split
  · exact verbatim_bracketed _
  split
  · exact verbatim_plain _ _ _
  split
  · exact verbatim_plain _ _ _
  cases h : symbol? (c :: text) with
  | none => exact verbatim_plain _ _ _
  | some t => exact verbatim_symbol? h

theorem verbatim_of_first {c : Char} {text : Chars} {t : Lexical}
    (h : (first c text).1 = .token t) : t.Verbatim := by
  have verbatim := verbatim_lexical c text
  rwa [lexical_of_first h] at verbatim

/-! ## All pieces -/

/-- The pieces of a text, taken off its start one by one. -/
inductive Taken : Chars → List Piece → Prop
  | nil : Taken [] []
  | cons {c : Char} {text rest : Chars} {piece : Piece} {ps : List Piece}
      (first : Piece.first c text = (piece, rest)) (more : Taken rest ps) :
      Taken (c :: text) (piece :: ps)

theorem taken_ofText (text : Chars) : Taken text (ofText text) := by
  have all (n : Nat) (text : Chars) (h : text.length ≤ n) : Taken text (take n text) := by
    induction n generalizing text with
    | zero =>
      obtain rfl := List.length_eq_zero_iff.1 (Nat.le_zero.1 h)
      exact .nil
    | succ n ih =>
      cases text with
      | nil => exact .nil
      | cons c text =>
        have shorter := length_first_lt c text
        exact .cons rfl (ih _ (Nat.le_of_lt_succ (Nat.lt_of_lt_of_le shorter h)))
  exact all _ text (Nat.le_refl _)

theorem Taken.flatMap_spelling {text : Chars} {ps : List Piece} (h : Taken text ps) :
    ps.flatMap spelling = text := by
  induction h with
  | nil => rfl
  | @cons c text rest piece ps first _ ih =>
    have spelled := spelling_first c text
    rw [first] at spelled
    rw [List.flatMap_cons, ih, spelled]

end Piece

end LuaFront
