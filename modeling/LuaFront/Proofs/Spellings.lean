import LuaFront.Proofs.Encoding
import LuaFront.Proofs.NumeralCut

/-!
# Spelled tokens are read back

`Written` tells how a token of a kind with a text is spelled, and `Printed` is such a token with the
blank or line break in front of it.

* `Piece.whole_of_written`: every spelling is read as one token in front of a blank.
* `Printed.read_print`: the tokens of a printed text are those it was printed from.
-/

namespace LuaFront

open Text

/-- How a token may be spelled: its kind, its text, and its characters. -/
inductive Written : Kind → Chars → Chars → Prop
  | fixed {kind : Kind} (fixed : kind.isFixed) :
      Written kind kind.spelling.toList kind.spelling.toList
  | name {c : Char} {text : Chars} (start : isNameStart c) (more : ∀ d ∈ text, isNameChar d)
      (free : Kind.keyword? (String.ofList (c :: text)) = none) :
      Written .ident (c :: text) (c :: text)
  | number {c : Char} {text : Chars} (start : isDigit c ∨ c = '.')
      (accepted : (Numeral.value? (c :: text)).isSome) : Written .number (c :: text) (c :: text)
  /-- A string in long brackets, which no bracket closes before the one at its end. -/
  | string {level : Nat} {text : Chars} (returns : '\r' ∉ text)
      (first : ∀ front back,
        text ++ Bracket.closing level = front ++ Bracket.closing level ++ back → back = []) :
      Written .string text (Bracket.opening level ++ text ++ Bracket.closing level)

/-! ## Numerals -/

namespace Numeral

/-- What starts with a point has a digit behind it. -/
theorem startsWith_of_value? {text : Chars} (h : (value? ('.' :: text)).isSome) :
    Piece.startsWith isDigit text := by
  cases text with
  | nil => exact absurd h (by decide +kernel)
  | cons d text =>
    refine Decidable.byContradiction fun other => ?_
    have undigit : isDigit d = false := Bool.eq_false_iff.2 other
    have point : isDigit '.' = false := by decide
    simp [value?, value?.decimalValue?, decimal?, splitSign, fraction, Cut.many, undigit,
      point] at h

end Numeral

/-! ## Spelled tokens -/

namespace Bracket

/-- The content goes up to the closing bracket if that is the first one. -/
theorem body?_append {level : Nat} {text : Chars}
    (first : ∀ front back, text ++ closing level = front ++ closing level ++ back → back = [])
    (rest : Chars) : body? level (text ++ closing level ++ rest) = some (text, rest) := by
  induction text with
  | nil =>
    have found : strip? (closing level) (closing level ++ rest) = some rest :=
      strip?_eq_some_iff.2 rfl
    rw [List.nil_append]
    cases whole : closing level ++ rest with
    | nil => exact absurd (List.append_eq_nil_iff.1 whole).1 (closing_ne_nil level)
    | cons c cs => rw [body?, ← whole, found]
  | cons c text ih =>
    -- A bracket that closes further on closes here too, with `c` in front of it.
    have later := ih fun front back eq => first (c :: front) back (congrArg (c :: ·) eq)
    have unfound : strip? (closing level) (c :: (text ++ closing level ++ rest)) = none := by
      rw [Option.eq_none_iff_forall_ne_some]
      intro behind found
      have eq : c :: text ++ closing level ++ rest = closing level ++ behind :=
        strip?_eq_some_iff.1 found
      obtain ⟨back, eq⟩ : closing level <+: c :: text ++ closing level :=
        List.prefix_of_prefix_length_le ⟨behind, eq.symm⟩ ⟨rest, rfl⟩ (by
          rw [List.length_append]
          exact Nat.le_add_left _ _)
      obtain rfl := first [] back eq.symm
      have length := congrArg List.length eq
      simp only [List.append_nil, List.length_append, List.length_cons] at length
      omega
    rw [List.cons_append, List.cons_append, body?, unfound, later]
    rfl

end Bracket

namespace Piece

/-- A token that is read in front of every blank as it is spelled. -/
def Whole (t : Lexical) : Prop :=
  ∃ c cs, t.spelling = c :: cs ∧ ∀ rest, Apart rest → first c (cs ++ rest) = (.token t, rest)

theorem mem_of_isFixed {kind : Kind} (h : kind.isFixed) : kind ∈ Kind.symbols ++ Kind.keywords := by
  revert h
  cases kind <;> decide

theorem whole_fixed {kind : Kind} (h : kind.isFixed) :
    Whole ⟨kind, kind.spelling.toList, kind.spelling.toList, none⟩ := by
  -- The fixed spellings are finitely many: each is read alone, and a boundary changes nothing.
  have alone : ∀ k ∈ Kind.symbols ++ Kind.keywords,
      let c := k.spelling.toList.headD ' '
      let cs := k.spelling.toList.tail
      k.spelling.toList = c :: cs ∧ ¬ (isBlank c ∨ c = '\n') ∧
        strip? ['-', '-'] (c :: cs) = none ∧ ¬ (c = '\x22' ∨ c = '\x27') ∧
        ¬ (c = '[' ∧ startsWith (fun d => d = '[' || d = '=') cs) ∧
        first c cs = (.token ⟨k, c :: cs, c :: cs, none⟩, []) := by decide +kernel
  obtain ⟨spelled, blank, dashes, quoted, bracketed, read⟩ := alone kind (mem_of_isFixed h)
  refine ⟨_, _, spelled, fun rest apart => ?_⟩
  rw [first_append apart blank dashes quoted bracketed, read, spelled]
  rfl

/-- What starts like a name or a numeral is read as if nothing stood behind the boundary. -/
theorem first_of_solid {c : Char} (hc : isNameChar c || Numeral.isPoint c) (cs : Chars)
    {rest : Chars} (apart : Apart rest) :
    first c (cs ++ rest) = (.token (lexical c cs).1, (lexical c cs).2 ++ rest) := by
  have other {d : Char} (hd : ¬ (isNameChar d || Numeral.isPoint d)) : c ≠ d := fun eq =>
    hd (eq ▸ hc)
  have ink : isInk c := by
    rcases Bool.or_eq_true .. ▸ hc with hc | hc
    · exact isInk_of_isNameChar hc
    · exact Numeral.isInk_of_isPoint hc
  have dashes : strip? ['-', '-'] (c :: cs) = none :=
    if_neg (other (d := '-') (by decide)).symm
  have quoted : ¬ (c = '\x22' ∨ c = '\x27') :=
    not_or.2 ⟨other (by decide), other (by decide)⟩
  have bracket : c ≠ '[' := other (by decide)
  rw [first_append apart (not_apart_of_isInk ink) dashes quoted fun h => bracket h.1, first,
    if_neg (not_apart_of_isInk ink), dashes]

theorem not_isDigit_of_isNameStart {c : Char} (h : isNameStart c) : ¬ isDigit c := by
  intro digit
  rw [isDigit, Bool.and_eq_true, decide_eq_true_iff, decide_eq_true_iff] at digit
  simp only [isNameStart, isLetter, Bool.or_eq_true, Bool.and_eq_true, decide_eq_true_iff,
    beq_iff_eq] at h
  rcases h with (⟨low, -⟩ | ⟨low, -⟩) | rfl
  · exact absurd (Char.le_trans low digit.2) (by decide)
  · exact absurd (Char.le_trans low digit.2) (by decide)
  · exact absurd digit.2 (by decide)

theorem lexical_of_isNameStart {c : Char} (h : isNameStart c) (cs : Chars) :
    lexical c cs = word (c :: cs) := by
  have other {d : Char} (hd : ¬ isNameStart d) : c ≠ d := fun eq => hd (eq ▸ h)
  have quoted : ¬ (c = '\x22' ∨ c = '\x27') := not_or.2 ⟨other (by decide), other (by decide)⟩
  have bracket : c ≠ '[' := other (by decide)
  have point : c ≠ '.' := other (by decide)
  rw [lexical, if_neg quoted, if_neg fun h => bracket h.1,
    if_neg (not_or.2 ⟨not_isDigit_of_isNameStart h, fun h => point h.1⟩), if_pos h]

theorem lexical_of_number {c : Char} {cs : Chars}
    (h : isDigit c ∨ c = '.' ∧ startsWith isDigit cs) :
    lexical c cs = plain .number none (Numeral.cut (c :: cs)) := by
  have other {d : Char} (digit : ¬ isDigit d) (point : d ≠ '.') : c ≠ d := by
    rintro rfl
    rcases h with h | h
    · exact digit h
    · exact point h.1
  have quoted : ¬ (c = '\x22' ∨ c = '\x27') :=
    not_or.2 ⟨other (by decide) (by decide), other (by decide) (by decide)⟩
  have bracket : c ≠ '[' := other (by decide) (by decide)
  rw [lexical, if_neg quoted, if_neg fun h => bracket h.1, if_pos h]

theorem whole_name {c : Char} {text : Chars} (start : isNameStart c)
    (more : ∀ d ∈ text, isNameChar d)
    (free : Kind.keyword? (String.ofList (c :: text)) = none) :
    Whole ⟨.ident, c :: text, c :: text, none⟩ := by
  refine ⟨c, text, rfl, fun rest apart => ?_⟩
  have all : ∀ d ∈ c :: text, isNameChar d :=
    List.forall_mem_cons.2 ⟨isNameChar_of_isNameStart start, more⟩
  have cut := Cut.many_of_all all
  have solid : isNameChar c || Numeral.isPoint c :=
    Bool.or_eq_true_iff.2 (.inl (isNameChar_of_isNameStart start))
  rw [first_of_solid solid text apart, lexical_of_isNameStart start, word, cut, free]
  rfl

theorem whole_number {c : Char} {text : Chars} (start : isDigit c ∨ c = '.')
    (accepted : (Numeral.value? (c :: text)).isSome) :
    Whole ⟨.number, c :: text, c :: text, none⟩ := by
  refine ⟨c, text, rfl, fun rest apart => ?_⟩
  have number : isDigit c ∨ c = '.' ∧ startsWith isDigit text := by
    rcases start with digit | rfl
    · exact .inl digit
    · exact .inr ⟨rfl, Numeral.startsWith_of_value? accepted⟩
  have solid : isNameChar c || Numeral.isPoint c := by
    rcases start with digit | rfl
    · exact Bool.or_eq_true_iff.2 (.inl (isNameChar_of_isDigit digit))
    · decide
  rw [first_of_solid solid text apart, lexical_of_number number,
    Numeral.cut_of_value? start accepted]
  rfl

theorem whole_string {level : Nat} {text : Chars}
    (closes : ∀ front back,
      text ++ Bracket.closing level = front ++ Bracket.closing level ++ back → back = []) :
    Whole ⟨.string, text, Bracket.opening level ++ text ++ Bracket.closing level, none⟩ := by
  refine ⟨'[', List.replicate level '=' ++ ['['] ++ text ++ Bracket.closing level, rfl,
    fun rest _ => ?_⟩
  have opens : startsWith (fun d => d = '[' || d = '=')
      (List.replicate level '=' ++ ['['] ++ text ++ Bracket.closing level ++ rest) := by
    cases level <;> rfl
  have read : bracketed (Bracket.opening level ++ (text ++ Bracket.closing level ++ rest)) =
      (⟨.string, text, Bracket.opening level ++ text ++ Bracket.closing level, none⟩, rest) := by
    rw [bracketed, Bracket.opening?_append]
    simp only [Bracket.body?_append closes]
  have whole : '[' :: (List.replicate level '=' ++ ['['] ++ text ++ Bracket.closing level ++ rest) =
      Bracket.opening level ++ (text ++ Bracket.closing level ++ rest) := by
    simp [Bracket.opening]
  have dashes : ∀ cs, strip? ['-', '-'] ('[' :: cs) = none := fun _ => if_neg (by decide)
  rw [first, if_neg (by decide), dashes, lexical, if_neg (by decide), if_pos ⟨rfl, opens⟩, whole,
    read]

theorem whole_of_written {kind : Kind} {text spelling : Chars} (h : Written kind text spelling) :
    Whole ⟨kind, text, spelling, none⟩ := by
  cases h with
  | fixed fixed => exact whole_fixed fixed
  | name start more free => exact whole_name start more free
  | number start accepted => exact whole_number start accepted
  | string _ first => exact whole_string first

theorem return_notMem_of_written {kind : Kind} {text spelling : Chars}
    (h : Written kind text spelling) : '\r' ∉ spelling := by
  have ink {text : Chars} (h : ∀ c ∈ text, isInk c) : '\r' ∉ text := fun mem =>
    ne_return_of_isInk (h _ mem) rfl
  cases h with
  | fixed fixed =>
    have all : ∀ k ∈ Kind.symbols ++ Kind.keywords, '\r' ∉ k.spelling.toList := by decide +kernel
    exact all kind (mem_of_isFixed fixed)
  | name start more _ =>
    exact ink (List.forall_mem_cons.2 ⟨isInk_of_isNameChar (isNameChar_of_isNameStart start),
      fun c hc => isInk_of_isNameChar (more c hc)⟩)
  | @number c text start accepted =>
    have taken := Numeral.within_cut.taken (c :: text)
    rw [Numeral.cut_of_value? start accepted] at taken
    exact ink taken
  | string returns _ => simp [Bracket.opening, Bracket.closing, List.mem_replicate, returns]

/-- Pieces are taken off a text in one way only. -/
theorem Taken.eq_ofText {text : Chars} {ps : List Piece} (h : Taken text ps) :
    ofText text = ps := by
  have other := taken_ofText text
  generalize ofText text = qs at other
  induction h generalizing qs with
  | nil =>
    cases other
    rfl
  | cons first _ ih =>
    obtain ⟨⟩ | ⟨first', more⟩ := other
    obtain ⟨rfl, rfl⟩ := Prod.mk.inj (first.symm.trans first')
    rw [ih _ more]

end Piece

/-! ## Printed tokens -/

/-- A spelled token with the blank or line break in front of it. -/
structure Printed where
  gap : Char
  kind : Kind
  text : Chars
  spelling : Chars
  gap_eq : gap = ' ' ∨ gap = '\n'
  written : Written kind text spelling

namespace Printed

/-- The characters of a token and of the gap in front of it. -/
def chars (t : Printed) : Chars := t.gap :: t.spelling

/-- The token as it is read. -/
def lexical (t : Printed) : Lexical := ⟨t.kind, t.text, t.spelling, none⟩

/-- The pieces of a token and of the gap in front of it. -/
def pieces (t : Printed) : List Piece := [.space t.gap, .token t.lexical]

/-- The text that tokens are printed to. -/
def print (ts : List Printed) : Chars := ts.flatMap chars

theorem apart_print (ts : List Printed) : Apart (print ts) := by
  cases ts with
  | nil => exact nofun
  | cons t ts =>
    rintro c ⟨⟩
    rcases t.gap_eq with gap | gap
    · exact .inl (gap ▸ rfl)
    · exact .inr gap

theorem taken_print (ts : List Printed) : Piece.Taken (print ts) (ts.flatMap pieces) := by
  induction ts with
  | nil => exact .nil
  | cons t ts ih =>
    obtain ⟨c, cs, spelled, read⟩ := Piece.whole_of_written t.written
    have blank : isBlank t.gap ∨ t.gap = '\n' := apart_print (t :: ts) t.gap rfl
    -- What is printed behind the token starts with a gap, so the token ends where it should.
    have token : Piece.Taken (t.spelling ++ print ts) (.token t.lexical :: ts.flatMap pieces) := by
      have spelled : t.spelling = c :: cs := spelled
      rw [spelled]
      exact .cons (read (print ts) (apart_print ts)) ih
    exact .cons (if_pos blank) token

theorem text_print (name : String) (ts : List Printed) :
    (Source.ofBytes name (encode (print ts))).text = print ts := by
  have head (c : Char) (hc : ¬ (c = ' ' ∨ c = '\n')) : (print ts).head? ≠ some c := by
    cases ts with
    | nil => exact nofun
    | cons t ts =>
      rintro ⟨⟩
      exact hc t.gap_eq
  -- The text starts with a gap, hence neither with a byte order mark nor with a directive.
  refine Source.text_ofBytes_encode name (fun mem => ?_) (head _ (by decide)) (head _ (by decide))
  obtain ⟨t, _, ht⟩ := List.mem_flatMap.1 mem
  rcases List.mem_cons.1 ht with gap | spelling
  · exact absurd (gap ▸ t.gap_eq) (by decide)
  · exact Piece.return_notMem_of_written t.written spelling

theorem lexemes_print (name : String) (ts : List Printed) :
    (Source.ofBytes name (encode (print ts))).lexemes = Lexeme.ofPieces {} (ts.flatMap pieces) := by
  rw [Source.lexemes, text_print, (taken_print ts).eq_ofText]

/-- Nothing but the tokens is read: no comment and no error comes with them. -/
theorem plain_ofPieces (ts : List Printed) {m : Margin} (run : m.run = {})
    (fault : m.fault = none) :
    (∀ x ∈ Lexeme.ofPieces m (ts.flatMap pieces), x.comments = [] ∧ x.fault = none) ∧
      (Lexeme.ofPieces m (ts.flatMap pieces)).map
          (fun x => (x.token.kind, x.token.text, x.token.valid)) =
        ts.map (fun t => (t.kind, String.ofList t.text, true)) ++ [(.eof, "", true)] := by
  have closed : CommentRun.close {} = {} := rfl
  induction ts generalizing m with
  | nil =>
    refine ⟨fun x hx => ?_, rfl⟩
    obtain rfl := List.mem_singleton.1 hx
    exact ⟨by rw [Margin.endOfInput, run, closed], fault⟩
  | cons t ts ih =>
    obtain ⟨quiet, same⟩ := ih (m := (m.space t.gap).token t.lexical) rfl rfl
    refine ⟨?_, congrArg _ same⟩
    intro x hx
    rcases List.mem_cons.1 hx with rfl | hx
    · exact ⟨by rw [Margin.lexeme, Margin.space, run, closed], rfl⟩
    · exact quiet x hx

/-- Tokens that are printed behind gaps are read back with their kinds and texts, all of them valid,
and neither an error nor a comment is read with them. -/
theorem read_print (name : String) (limit : Nat) (ts : List Printed) :
    let read := (LexemeReader.ofSource (.ofBytes name (encode (print ts))) limit).all
    read.1.map (fun t => (t.kind, t.text, t.valid)) =
        ts.map (fun t => (t.kind, String.ofList t.text, true)) ++ [(.eof, "", true)] ∧
      read.2.log = ⟨limit, [], false⟩ ∧ read.2.comments = {} := by
  obtain ⟨quiet, same⟩ := plain_ofPieces ts (m := {}) rfl rfl
  simp only [LexemeReader.all_ofSource, lexemes_print]
  generalize Lexeme.ofPieces {} (ts.flatMap pieces) = xs at quiet same
  refine ⟨by rw [List.map_map]; exact same, ?_, ?_⟩
  · clear same
    induction xs with
    | nil => rfl
    | cons x xs ih =>
      obtain ⟨⟨_, fault⟩, more⟩ := List.forall_mem_cons.1 quiet
      rw [List.foldl_cons, fault]
      exact ih more
  · have none : xs.flatMap (·.comments) = [] :=
      List.flatMap_eq_nil_iff.2 fun x hx => (quiet x hx).1
    rw [none]
    rfl

/-- A keyword, a name, a numeral, and a string over two lines whose text has a closing bracket of
another level. -/
theorem read_print_fourTokens :
    ∃ ts, print ts = " local x\n0x1F [=[a]]\nb]=]".toList ∧
      (LexemeReader.ofSource (.ofBytes "a" (encode (print ts))) 30).all.1.map
          (fun t => (t.kind, t.text, t.valid)) =
        [(.kwLocal, "local", true), (.ident, "x", true), (.number, "0x1F", true),
          (.string, "a]]\nb", true), (.eof, "", true)] := by
  -- A bracket that closes before the end would stand at one of the five characters of the text.
  have first : ∀ front back, "a]]\nb".toList ++ Bracket.closing 1 =
      front ++ Bracket.closing 1 ++ back → back = [] := by
    intro front back eq
    by_contra ne
    have lt : front.length < 5 := by
      have length := congrArg List.length eq
      have pos := List.length_pos_iff.2 ne
      simp only [List.length_append] at length
      have five : "a]]\nb".toList.length = 5 := rfl
      omega
    have early : ∀ n < 5,
        ¬ Bracket.closing 1 <+: ("a]]\nb".toList ++ Bracket.closing 1).drop n := by
      decide
    refine early front.length lt ⟨back, ?_⟩
    rw [eq, List.append_assoc, List.drop_left]
  let ts : List Printed := [⟨' ', .kwLocal, _, _, .inl rfl, .fixed rfl⟩,
    ⟨' ', .ident, ['x'], _, .inl rfl, .name rfl nofun (by decide)⟩,
    ⟨'\n', .number, ['0', 'x', '1', 'F'], _, .inr rfl, .number (.inl rfl) (by decide +kernel)⟩,
    ⟨' ', .string, _, _, .inl rfl, .string (by decide) first⟩]
  exact ⟨ts, rfl, (read_print "a" 30 ts).1⟩

end Printed

end LuaFront
