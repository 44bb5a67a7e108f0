import LuaFront.Numeral
import LuaFront.Piece.Bracket
import LuaFront.Piece.Quoted
import LuaFront.Token

/-!
# Pieces of a program text

A program text is a sequence of pieces: blanks and line breaks, comments, and tokens. `Piece.first`
takes the first piece off a text by its first characters alone, and `Piece.ofText` takes all of
them. Pieces know nothing of positions; where they stand follows from what comes before.

* `Piece.spelling_first`: the first piece and the rest make up the text.
* `Piece.flatMap_spelling_ofText`: all pieces together make up the text.
-/

namespace LuaFront

/-- What is wrong with a token. -/
inductive Flaw where
  /-- No token starts like this. -/
  | illegal
  /-- The string breaks off at the end of a line. -/
  | unfinished (quote : Char)
  /-- Nothing closes the long bracket. -/
  | unclosed (level : Nat)
  /-- The second opening bracket is missing. -/
  | halfOpen
deriving DecidableEq, Repr

/-- A token as it is spelled: its kind, its content, all its characters, and what is wrong. -/
structure Lexical where
  kind : Kind
  text : Chars
  spelling : Chars
  flaw : Option Flaw := none
deriving DecidableEq, Repr

/-- A piece of a program text. -/
inductive Piece where
  /-- A blank or a line break. -/
  | space (c : Char)
  /-- A comment to the end of its line. -/
  | lineComment (text : Chars)
  /-- A comment in long brackets. `closed` tells whether the closing bracket is there, and `alone`
  whether nothing but blanks follows on the line where the comment ends. -/
  | blockComment (level : Nat) (text : Chars) (closed alone : Bool)
  | token (t : Lexical)
deriving DecidableEq, Repr

namespace Piece

open Text

/-- All characters of a piece. -/
def spelling : Piece → Chars
  | space c => [c]
  | lineComment text => '-' :: '-' :: text
  | blockComment level text closed _ =>
    '-' :: '-' :: (Bracket.opening level ++ text ++ if closed then Bracket.closing level else [])
  | token t => t.spelling

/-! ## Comments -/

/-- Whether a text goes on with nothing but blanks up to the end of its line. -/
def blankToLineEnd (text : Chars) : Bool :=
  match text.dropWhile isBlank with
  | [] => true
  | c :: _ => c = '\n'

/-- The comment behind two dashes, and the text behind it. -/
def comment (text : Chars) : Piece × Chars :=
  match Bracket.opening? text with
  | some (level, text) => match Bracket.body? level text with
    | some (body, rest) => (.blockComment level body true (blankToLineEnd rest), rest)
    -- Nothing closes it, so it takes the rest of the text and nothing stands behind it.
    | none => (.blockComment level text false true, [])
  | none => (.lineComment (text.takeWhile (· ≠ '\n')), text.dropWhile (· ≠ '\n'))

/-! ## Tokens -/

/-- The string behind an opening quote. -/
def quoted (quote : Char) (text : Chars) : Lexical × Chars :=
  let q := Quoted.read quote false text
  (⟨.string, q.text, quote :: q.raw, if q.closed then none else some (.unfinished quote)⟩, q.rest)

/-- The string in long brackets at the start of a text. If the second opening bracket is missing,
the token ends in front of it and is empty. -/
def bracketed (text : Chars) : Lexical × Chars :=
  match Bracket.opening? text with
  | some (level, behind) => match Bracket.body? level behind with
    | some (body, rest) =>
      (⟨.string, body, Bracket.opening level ++ body ++ Bracket.closing level, none⟩, rest)
    | none => (⟨.string, behind, Bracket.opening level ++ behind, some (.unclosed level)⟩, [])
  | none =>
    let (front, rest) := Cut.led (· = '[') (Cut.many (· = '=')) text
    (⟨.string, [], front, some .halfOpen⟩, rest)

/-- A token that is spelled as it reads. -/
def plain (kind : Kind) (flaw : Option Flaw) (cut : Chars × Chars) : Lexical × Chars :=
  (⟨kind, cut.1, cut.1, flaw⟩, cut.2)

/-- The name or reserved word at the start of a text. -/
def word (text : Chars) : Lexical × Chars :=
  let cut := Cut.many isNameChar text
  plain ((Kind.keyword? (String.ofList cut.1)).getD .ident) none cut

/-- The longest symbol that starts a text, and the text behind it. -/
def symbol? (text : Chars) : Option (Lexical × Chars) :=
  Kind.symbols.findSome? fun k =>
    (strip? k.spelling.toList text).map fun rest => plain k none (k.spelling.toList, rest)

/-- Everything up to the next blank or line break. -/
def illegal (text : Chars) : Lexical × Chars :=
  plain .illegal (some .illegal) (Cut.many (fun c => !(isBlank c || c = '\n')) text)

/-- Whether a text starts with a character of the class. -/
def startsWith (p : Char → Bool) (text : Chars) : Bool := text.head?.any p

/-- The token at the start of the text `c :: text`, and the text behind it. -/
def lexical (c : Char) (text : Chars) : Lexical × Chars :=
  if c = '\x22' ∨ c = '\x27' then quoted c text
  else if c = '[' ∧ startsWith (fun d => d = '[' || d = '=') text then bracketed (c :: text)
  else if isDigit c ∨ c = '.' ∧ startsWith isDigit text then
    plain .number none (Numeral.cut (c :: text))
  else if isNameStart c then word (c :: text)
  else (symbol? (c :: text)).getD (illegal (c :: text))

/-! ## All pieces -/

/-- The first piece of the text `c :: text`, and the text behind it. -/
def first (c : Char) (text : Chars) : Piece × Chars :=
  if isBlank c ∨ c = '\n' then (.space c, text)
  else match strip? ['-', '-'] (c :: text) with
    | some text => comment text
    | none =>
      let (t, rest) := lexical c text
      (.token t, rest)

/-- At most `n` pieces of a text, from its start. -/
def take : Nat → Chars → List Piece
  | 0, _ => []
  | _, [] => []
  | n + 1, c :: text =>
    let (piece, rest) := first c text
    piece :: take n rest

/-- All pieces of a text. Every piece takes a character, so there are no more than that. -/
def ofText (text : Chars) : List Piece := take text.length text

/-! ## Nothing is lost -/

theorem append_quoted (quote : Char) (text : Chars) :
    (quoted quote text).1.spelling ++ (quoted quote text).2 = quote :: text := by
  simp [quoted, Quoted.raw_append_rest]

theorem append_bracketed (text : Chars) :
    (bracketed text).1.spelling ++ (bracketed text).2 = text := by
  unfold bracketed
  split
  · rename_i level behind h
    rw [Bracket.eq_of_opening? h]
    split
    · rename_i body rest k
      simp [Bracket.eq_of_body? k]
    · simp
  · exact (Cut.lossless_many _).led _ text

theorem append_symbol? {text : Chars} {t : Lexical × Chars} (h : symbol? text = some t) :
    t.1.spelling ++ t.2 = text := by
  obtain ⟨k, _, hk⟩ := List.exists_of_findSome?_eq_some h
  obtain ⟨rest, hr, rfl⟩ := Option.map_eq_some_iff.1 hk
  simpa [plain] using (strip?_eq_some_iff.1 hr).symm

theorem append_lexical (c : Char) (text : Chars) :
    (lexical c text).1.spelling ++ (lexical c text).2 = c :: text := by
  unfold lexical
  split
  · exact append_quoted c text
  split
  · exact append_bracketed _
  split
  · exact Numeral.lossless_cut _
  split
  · exact Cut.lossless_many _ _
  cases h : symbol? (c :: text) with
  | none => exact Cut.lossless_many _ _
  | some t => exact append_symbol? h

theorem append_comment (text : Chars) :
    (comment text).1.spelling ++ (comment text).2 = '-' :: '-' :: text := by
  unfold comment
  split
  · rename_i level behind h
    rw [Bracket.eq_of_opening? h]
    split
    · rename_i body rest k
      simp [Bracket.eq_of_body? k, spelling]
    · simp [spelling]
  · simp [spelling, List.takeWhile_append_dropWhile]

theorem spelling_first (c : Char) (text : Chars) :
    (first c text).1.spelling ++ (first c text).2 = c :: text := by
  unfold first
  split
  · rfl
  split
  · rename_i rest h
    rw [append_comment]
    simpa using (strip?_eq_some_iff.1 h).symm
  · exact append_lexical c text

/-! ## Every piece takes a character -/

theorem spelling_ne_nil_of_symbol? {text : Chars} {t : Lexical × Chars}
    (h : symbol? text = some t) : t.1.spelling ≠ [] := by
  obtain ⟨k, hk, hs⟩ := List.exists_of_findSome?_eq_some h
  obtain ⟨rest, _, rfl⟩ := Option.map_eq_some_iff.1 hs
  have all : ∀ k ∈ Kind.symbols, k.spelling.toList ≠ [] := by decide +kernel
  exact all k hk

theorem isNameChar_of_isDigit {c : Char} (h : isDigit c) : isNameChar c := by simp [isNameChar, h]

theorem isNameChar_of_isNameStart {c : Char} (h : isNameStart c) : isNameChar c := by
  simp [isNameChar, h]

theorem spelling_lexical_ne_nil {c : Char} (h : ¬(isBlank c ∨ c = '\n')) (text : Chars) :
    (lexical c text).1.spelling ≠ [] := by
  unfold lexical
  split
  · simp [quoted]
  split
  · rename_i hc
    unfold bracketed
    split
    · split <;> simp [Bracket.opening]
    · simp [Cut.led, hc.1]
  split
  · rename_i hc
    refine Numeral.lossless_cutNumeral.andThen_many_ne_nil ?_ text
    rcases hc with hd | ⟨rfl, _⟩
    · simp [isNameChar_of_isDigit hd]
    · simp [Numeral.isPoint]
  split
  · rename_i hc
    exact Cut.many_ne_nil (isNameChar_of_isNameStart hc) text
  cases hs : symbol? (c :: text) with
  | none =>
    exact Cut.many_ne_nil (p := fun c => !(isBlank c || c = '\n')) (by simpa using h) text
  | some t => exact spelling_ne_nil_of_symbol? hs

theorem spelling_first_ne_nil (c : Char) (text : Chars) : (first c text).1.spelling ≠ [] := by
  unfold first
  split
  · simp [spelling]
  · rename_i h
    split
    · rename_i rest _
      unfold comment
      split
      · split <;> simp [spelling]
      · simp [spelling]
    · exact spelling_lexical_ne_nil h text

theorem length_first_lt (c : Char) (text : Chars) :
    (first c text).2.length < (c :: text).length := by
  have h := congrArg List.length (spelling_first c text)
  have k := List.length_pos_iff.2 (spelling_first_ne_nil c text)
  rw [List.length_append] at h
  omega

theorem flatMap_spelling_take {n : Nat} {text : Chars} (h : text.length ≤ n) :
    (take n text).flatMap spelling = text := by
  induction n generalizing text with
  | zero => simp_all [take]
  | succ n ih =>
    cases text with
    | nil => simp [take]
    | cons c text =>
      have hlt := length_first_lt c text
      simp only [take, List.flatMap_cons]
      rw [ih (by omega), spelling_first]

theorem flatMap_spelling_ofText (text : Chars) : (ofText text).flatMap spelling = text :=
  flatMap_spelling_take (Nat.le_refl _)

end Piece

end LuaFront
