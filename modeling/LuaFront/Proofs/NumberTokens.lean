import LuaFront.Proofs.Flaws
import LuaFront.Proofs.NumeralCut

/-!
# Number tokens

A number token starts with a digit, or with a point and a digit, and holds what `Numeral.cut` takes.
So a numeral of a source is a token of its own if nothing behind it can go on with it.

* `Piece.first_of_value?`: a numeral is read as a number in front of what cannot go on with it.
* `Piece.start_of_number`: no other piece is a number.
* `Source.number_tokens`: the number tokens of a source.
-/

namespace LuaFront

open Text

namespace Numeral

variable {text rest : Chars}

/-- No numeral goes on behind the end of its line. -/
theorem Ends.joinLines {back : Chars} (h : Ends back) (below : List Chars) :
    Ends (joinLines (back :: below)) := by
  have newline : Ends ('\n' :: Text.joinLines below) := by
    rintro _ ⟨⟩
    decide
  cases below with
  | nil => rwa [joinLines_singleton]
  | cons next below =>
    rw [joinLines_cons_cons]
    cases back with
    | nil => exact newline
    | cons c back => exact h

theorem break_notMem_cut (text : Chars) : '\n' ∉ (cut text).1 := fun mem =>
  not_apart_of_isInk (within_cut.taken text '\n' mem) (.inr rfl)

end Numeral

/-! ## Number tokens of a text -/

namespace Piece

variable {c : Char} {text rest : Chars} {t : Lexical}

/-- A piece that starts with a digit, or with a point and a digit, is a number. -/
theorem first_of_number (start : isDigit c ∨ c = '.' ∧ startsWith isDigit text) {number : Chars}
    (cut : Numeral.cut (c :: text) = (number, rest)) :
    first c text = (.token ⟨.number, number, number, none⟩, rest) := by
  have ink : isInk c := by
    rcases start with digit | ⟨rfl, -⟩
    · exact isInk_of_isDigit digit
    · decide
  have dashes : strip? ['-', '-'] (c :: text) = none := by
    refine if_neg ?_
    rintro rfl
    rcases start with digit | ⟨point, -⟩
    · exact absurd digit (by decide)
    · exact absurd point (by decide)
  rw [first, if_neg (not_apart_of_isInk ink), dashes, lexical_of_number start, cut]
  rfl

/-- A numeral is read as a number in front of what cannot go on with it. -/
theorem first_of_value? (start : isDigit c ∨ c = '.' ∧ startsWith isDigit text)
    (accepted : (Numeral.value? (c :: text)).isSome) (ends : Numeral.Ends rest) :
    first c (text ++ rest) = (.token ⟨.number, c :: text, c :: text, none⟩, rest) := by
  have start' : isDigit c ∨ c = '.' ∧ startsWith isDigit (text ++ rest) := by
    refine start.imp_right (And.imp_right fun digit => ?_)
    cases text with
    | nil => exact nomatch digit
    | cons d text => exact digit
  exact first_of_number start' (Numeral.cut_append (start.imp_right And.left) accepted ends)

theorem kind_bracketed (text : Chars) : (bracketed text).1.kind = .string := by
  unfold bracketed
  split
  · split <;> rfl
  · rfl

theorem kind_word (text : Chars) : (word text).1.kind ≠ .number := by
  have words : ∀ k ∈ Kind.keywords, k ≠ .number := by decide
  show (Kind.keyword? (String.ofList (Cut.many isNameChar text).1)).getD .ident ≠ .number
  cases h : Kind.keyword? (String.ofList (Cut.many isNameChar text).1) with
  | none => exact nofun
  | some k => exact words k (List.mem_of_find?_eq_some h)

theorem kind_symbol? {found : Lexical × Chars} (h : symbol? text = some found) :
    found.1.kind ∈ Kind.symbols := by
  obtain ⟨k, hk, hs⟩ := List.exists_of_findSome?_eq_some h
  obtain ⟨rest, _, rfl⟩ := Option.map_eq_some_iff.1 hs
  exact hk

/-- No other piece is a number. -/
theorem start_of_number (h : (first c text).1 = .token t) (kind : t.kind = .number) :
    isDigit c ∨ c = '.' ∧ startsWith isDigit text := by
  have symbols : ∀ k ∈ Kind.symbols, k ≠ .number := by decide
  by_contra other
  have number : (lexical c text).1.kind = .number := by rw [lexical_of_first h, kind]
  revert number
  unfold lexical
  split
  · exact nofun
  split
  · rw [kind_bracketed]
    exact nofun
  -- The case of a number is gone by now.
  split
  · exact kind_word _
  cases found : symbol? (c :: text) with
  | none => exact nofun
  | some found => exact symbols _ (kind_symbol? ‹_›)

end Piece

/-! ## Number tokens of a source -/

/-- A number token on a line, with what stands in front of it there. -/
def Token.numeral (i : Nat) (front text : Chars) : Token :=
  ⟨.number, String.ofList text, ⟨⟨i, byteSize front⟩, ⟨i, byteSize (front ++ text)⟩⟩, true⟩

/-- What stands behind a number token on its line could not go on with it. -/
theorem Lexeme.TakenFrom.numeral {s : Source} {x : Lexeme} (h : x.TakenFrom s.text)
    (split : s.IsSplit) (kind : x.token.kind = .number) :
    ∃ i front text back, s.line i = front ++ text ++ back ∧ x.token = .numeral i front text ∧
      Numeral.Ends back := by
  obtain @⟨before, text, rest, c, t, m, eq, first, position⟩ := h
  have start := Piece.start_of_number (congrArg Prod.fst first) kind
  have whole := Numeral.lossless_cut (c :: text)
  have ends := Numeral.ends_cut (c :: text)
  have oneLine := Numeral.break_notMem_cut (c :: text)
  obtain ⟨⟨number, behind⟩, cut⟩ : ∃ parts, Numeral.cut (c :: text) = parts := ⟨_, rfl⟩
  rw [cut] at whole ends oneLine
  rw [Piece.first_of_number start cut] at first
  obtain ⟨token, rfl⟩ := Prod.mk.inj first
  obtain rfl := Piece.token.inj token
  obtain ⟨front, line, column⟩ := Source.line_after split eq
  have all : ∀ c ∈ number, decide (c ≠ '\n') := fun c hc =>
    decide_eq_true fun newline => oneLine (newline ▸ hc)
  rw [← whole, List.takeWhile_append_of_pos all, ← List.append_assoc] at line
  refine ⟨_, front, number, _, line, ?_, ?_⟩
  · show (⟨.number, String.ofList number, ⟨m.position, m.position.after number⟩, true⟩ : Token) = _
    rw [position, Position.after_of_not_mem oneLine, Token.numeral, byteSize_append, column]
  · intro c hc
    rw [List.head?_takeWhile] at hc
    exact ends c (Option.mem_filter_iff.1 hc).1

/-- A token that starts where a numeral starts is that numeral. -/
theorem Source.eq_numeral_of_start {s : Source} {x : Lexeme} (split : s.IsSplit)
    (h : x ∈ s.lexemes) {i : Nat} {front back text : Chars} {c : Char}
    (line : s.line i = front ++ c :: text ++ back)
    (start : isDigit c ∨ c = '.' ∧ Piece.startsWith isDigit text)
    (accepted : (Numeral.value? (c :: text)).isSome) (ends : Numeral.Ends back)
    (place : x.token.location.start = ⟨i, byteSize front⟩) :
    x.token = .numeral i front (c :: text) := by
  obtain ⟨whole, after⟩ := Source.text_of_line (List.cons_ne_nil _ _) line split
  rw [List.append_assoc _ (c :: text)] at whole
  have ends := ends.joinLines (s.lines.drop (i + 1))
  have oneLine := Numeral.break_notMem_cut (c :: text ++ joinLines (back :: s.lines.drop (i + 1)))
  rw [Numeral.cut_append (start.imp_right And.left) accepted ends] at oneLine
  obtain ⟨m, position, rfl⟩ := eq_lexeme_of_start split h whole (place.trans after.symm)
    (Piece.first_of_value? start accepted ends)
  show (⟨.number, String.ofList (c :: text), ⟨m.position, m.position.after (c :: text)⟩, true⟩ :
    Token) = _
  rw [position, after, Position.after_of_not_mem oneLine, Token.numeral, byteSize_append]

/-- A numeral of a source that stands in front of something that cannot go on with it is the whole
text of a number token, wherever reading comes to its start. -/
theorem Source.number_tokens (name : String) (bytes : List UInt8) (limit : Nat) :
    let s := ofBytes name bytes
    let ts := (LexemeReader.ofSource s limit).all.1
    (∀ c text, (isDigit c ∨ c = '.' ∧ Piece.startsWith isDigit text) →
      (Numeral.value? (c :: text)).isSome →
      (∀ (m : Margin) rest, Numeral.Ends rest →
        ∃ t, Piece.first c (text ++ rest) = (.token t, rest) ∧
          (m.lexeme t).token = ⟨.number, String.ofList (c :: text),
            ⟨m.position, m.position.after (c :: text)⟩, true⟩ ∧ (m.lexeme t).fault = none) ∧
      ∀ i front back, s.line i = front ++ c :: text ++ back → Numeral.Ends back →
        ∀ t ∈ ts, t.location.start = ⟨i, byteSize front⟩ → t = .numeral i front (c :: text)) ∧
    ∀ t ∈ ts, t.kind = .number → ∃ i front text back,
      s.line i = front ++ text ++ back ∧ t = .numeral i front text ∧ Numeral.Ends back := by
  intro s ts
  have split : s.IsSplit := isSplit_ofBytes name bytes
  have tokens : ts = s.lexemes.map (·.token) :=
    congrArg Prod.fst (LexemeReader.all_ofSource s limit)
  have lexeme (t : Token) (ht : t ∈ ts) : ∃ x ∈ s.lexemes, x.token = t :=
    List.mem_map.1 (tokens ▸ ht)
  refine ⟨fun c text start accepted => ⟨fun m rest ends => ?_, ?_⟩, fun t ht kind => ?_⟩
  · exact ⟨_, Piece.first_of_value? start accepted ends, rfl, rfl⟩
  · intro i front back line ends t ht place
    obtain ⟨x, hx, rfl⟩ := lexeme t ht
    exact eq_numeral_of_start split hx line start accepted ends place
  · obtain ⟨x, hx, rfl⟩ := lexeme t ht
    rcases takenFrom_or_eof split hx with taken | eof
    · exact taken.numeral split kind
    · rw [eof] at kind
      exact nomatch kind

/-- The numeral `0x5e` in front of a plus, and a number token that is no numeral. -/
theorem Source.number_tokens_hexadecimal :
    let s := ofBytes "" "x = 0x5e+1 3..2".toUTF8.toList
    let ts := (LexemeReader.ofSource s 30).all.1
    (∃ t ∈ ts, t.location.start = ⟨0, 4⟩ ∧ t = .numeral 0 "x = ".toList "0x5e".toList) ∧
    ∃ t ∈ ts, t.text = "3..2" ∧ Numeral.value? t.text.toList = none ∧
      ∃ i front text back, s.line i = front ++ text ++ back ∧ t = .numeral i front text ∧
        Numeral.Ends back := by
  intro s ts
  have line : s.line 0 = "x = ".toList ++ '0' :: "x5e".toList ++ "+1 3..2".toList := by
    decide +kernel
  have plus : Numeral.Ends "+1 3..2".toList := by
    rintro _ ⟨⟩
    decide
  have accepted : (Numeral.value? ('0' :: "x5e".toList)).isSome := by decide +kernel
  have refused : (Numeral.value? "3..2".toList).isSome = false := by decide +kernel
  have first : ∃ t ∈ ts, t.location.start = ⟨0, 4⟩ := by decide +kernel
  have last : ∃ t ∈ ts, t.kind = .number ∧ t.text = "3..2" := by decide +kernel
  obtain ⟨whole, apart⟩ := number_tokens "" "x = 0x5e+1 3..2".toUTF8.toList 30
  obtain ⟨t, ht, place⟩ := first
  obtain ⟨u, hu, kind, text⟩ := last
  refine ⟨⟨t, ht, place, ?_⟩, u, hu, text, ?_, apart u hu kind⟩
  · exact (whole '0' "x5e".toList (.inl (by decide)) accepted).2 0 _ _ line plus t ht place
  · rw [text]
    exact Option.not_isSome_iff_eq_none.1 (by rw [refused]; decide)

end LuaFront
