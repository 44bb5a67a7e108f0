import LuaFront.Doc.Token
import LuaFront.Proofs.Fetching
import LuaFront.Proofs.Harvest
import LuaFront.Proofs.Offsets
import LuaFront.Proofs.Regular

/-!
# Tokens of documentation tags

Which texts make up a token of a documentation tag is said by regular languages: `Doc.forms` lists
them in their order of precedence, each with the kind of token that it makes.

* `Doc.Rule.makes_all`: every rule finds the language of its form.
* `Doc.Rule.chosen_first`: the first token of a text is the longest front in any of the languages,
  and the first form that has it makes it.
* `Doc.lexed_tokens`: so it is with all tokens of a text, and between them stands white space.
* `Source.pins_tagTokens`: the tokens of the tags of a source stand where their locations say.
-/

namespace LuaFront

open scoped Computability

open Text

/-! ## The forms of tokens -/

namespace Doc

open Pattern

/-- A form of tokens: how they are spelled, and their kinds. -/
structure Form where
  language : Language Char
  kind : Chars → Kind

namespace Form

/-- A symbol. -/
def symbol (k : Kind) : Form := ⟨{k.spelling.toList}, fun _ => k⟩

/-- A reserved word, or names with points between them. -/
def name : Form where
  language := oneOf isNameStart * (oneOf isNameChar)∗ *
    (oneOf (· = '.') * oneOf isNameStart * (oneOf isNameChar)∗)∗
  kind text := (Kind.keyword? (String.ofList text)).getD .name

/-- A minus that may be missing. -/
def minus : Language Char := 1 + oneOf (· = '-')

/-- Digits, at least one. -/
def digits (digit : Char → Bool) : Language Char := oneOf digit * (oneOf digit)∗

/-- A hexadecimal integer. -/
def hexadecimal : Form where
  language := minus * (oneOf (· = '0') * (oneOf Numeral.isHexMark * digits isHexDigit))
  kind _ := .number

/-- A decimal number. -/
def decimal : Form where
  language := minus * (digits isDigit * ((1 + oneOf Numeral.isPoint * (oneOf isDigit)∗) *
    (1 + oneOf Numeral.isDecimalMark * ((1 + oneOf Numeral.isSign) * digits isDigit))))
  kind _ := .number

/-- A string in the given quotes. No line break stands behind a backslash. -/
def quoted (quote : Char) : Form where
  language := oneOf (· = quote) *
    ((oneOf (fun c => c ≠ quote && c ≠ '\\') + oneOf (· = '\\') * oneOf (· ≠ '\n'))∗ *
      oneOf (· = quote))
  kind _ := .string

end Form

/-- All forms of tokens, those that win over others first. -/
def forms : List Form :=
  Kind.symbols.map .symbol ++ [.name, .hexadecimal, .decimal, .quoted '\x22', .quoted '\x27']

namespace Rule

/-- A rule finds the texts of a form, and makes tokens of the same kinds. -/
structure Makes (r : Rule) (form : Form) : Prop where
  finds : r.pattern.Finds form.language
  kind : r.kind = form.kind

theorem makes_symbol (k : Kind) : (symbol k).Makes (.symbol k) := ⟨finds_literal _, rfl⟩

theorem makes_hexadecimal : hexadecimal.Makes .hexadecimal := by
  refine ⟨(finds_many1 _).char_andThen.char_andThen.optional_char_andThen ?_, rfl⟩
  refine (starts_oneOf_mul _ _).mono fun c zero => ?_
  obtain rfl := of_decide_eq_true zero
  rfl

/-- The exponent of a decimal number. -/
theorem finds_exponent :
    (optional ((char Numeral.isDecimalMark).andThen
      ((optional (char Numeral.isSign)).andThen (many1 isDigit)))).Finds
    (1 + oneOf Numeral.isDecimalMark * ((1 + oneOf Numeral.isSign) * Form.digits isDigit)) := by
  refine ((finds_many1 isDigit).optional_char_andThen ?_).char_andThen.optional
  exact (starts_oneOf_mul _ _).mono fun _ => Numeral.not_isSign_of_isDigit

theorem makes_decimal : decimal.Makes .decimal := by
  -- An exponent starts with a letter, a fraction with a point, and all else with a digit.
  have marked := (starts_oneOf_mul Numeral.isDecimalMark
    ((1 + oneOf Numeral.isSign) * Form.digits isDigit)).optional
  have notDigit : Starts (fun c => !isDigit c) _ :=
    marked.mono fun c hc => by rcases Numeral.isDecimalMark_iff.1 hc with rfl | rfl <;> rfl
  have notPoint : Starts (fun c => !Numeral.isPoint c) _ :=
    marked.mono fun c hc => by rcases Numeral.isDecimalMark_iff.1 hc with rfl | rfl <;> rfl
  have fraction := (starts_oneOf_mul Numeral.isPoint (oneOf isDigit)∗).optional
  have behind := finds_exponent.optional_led_andThen notDigit notPoint
  refine ⟨(behind.many1_andThen ?_).optional_char_andThen ?_, rfl⟩
  · refine (fraction.mono fun c hc => ?_).mul notDigit
    obtain rfl := of_decide_eq_true hc
    rfl
  · rw [mul_assoc]
    refine (starts_oneOf_mul _ _).mono fun c digit => ?_
    have unsigned := Numeral.not_isSign_of_isDigit digit
    simp_all [Numeral.isSign]

/-! ## Names -/

/-- What may stand behind the first character of a name. -/
def tail : Language Char :=
  (oneOf isNameChar)∗ * (oneOf (· = '.') * oneOf isNameStart * (oneOf isNameChar)∗)∗

theorem nil_mem_tail : [] ∈ tail :=
  ⟨[], Language.nil_mem_kstar _, [], Language.nil_mem_kstar _, rfl⟩

theorem cons_mem_tail {c : Char} {w : Chars} :
    c :: w ∈ tail ↔ isNameChar c ∧ w ∈ tail ∨ c = '.' ∧ w ∈ oneOf isNameStart * tail := by
  have group : (oneOf (· = '.') * oneOf isNameStart * (oneOf isNameChar)∗)∗ =
      1 + oneOf (· = '.') * (oneOf isNameStart * tail) := by
    refine (Language.one_add_self_mul_kstar_eq_kstar _).symm.trans ?_
    rw [mul_assoc, mul_assoc]
    rfl
  have unfolded : tail = 1 + oneOf (· = '.') * (oneOf isNameStart * tail) +
      oneOf isNameChar * tail := by
    conv_lhs => rw [tail, star_mul, group]
    rw [← group]
    rfl
  conv_lhs => rw [unfolded]
  rw [Language.mem_add, Language.mem_add, cons_mem_oneOf_mul, cons_mem_oneOf_mul, Language.mem_one]
  simp [or_comm]

/-- A name goes on with name characters, and with points in front of the start of a name. -/
theorem cons_mem_tail_iff {c : Char} {w : Chars} :
    c :: w ∈ tail ↔ (isNameChar c ∨ c = '.' ∧ w.head?.any isNameStart) ∧ w ∈ tail := by
  rw [cons_mem_tail, or_and_right, and_assoc]
  refine or_congr_right (and_congr_right fun _ => ?_)
  cases w with
  | nil => simp [nil_notMem_oneOf_mul]
  | cons d w =>
    rw [cons_mem_oneOf_mul, cons_mem_tail, List.head?_cons, Option.any_some]
    refine and_congr_right fun start => ?_
    have point : d ≠ '.' := by
      rintro rfl
      exact nomatch start
    simp [isNameChar, start, point]

theorem finds_nameTail : Finds (fun text => some (nameTail text)) tail := by
  intro text
  induction text with
  | nil =>
    refine ⟨⟨[], nil_mem_tail, List.nil_prefix, rfl⟩, ?_⟩
    intro w _ front
    obtain rfl := List.prefix_nil.1 front
    exact Nat.zero_le _
  | cons c text ih =>
    obtain ⟨⟨v, hv, front, length⟩, most⟩ := ih
    simp only [nameTail]
    split
    · next more =>
      have head (start : text.head?.any isNameStart) : v.head?.any isNameStart := by
        obtain ⟨d, head, initial⟩ := (Option.any_eq_true _ _).1 start
        obtain ⟨rest, rfl⟩ := List.head?_eq_some_iff.1 head
        cases v with
        | nil =>
          have name : [d] ∈ tail :=
            cons_mem_tail_iff.2 ⟨.inl (by simp [isNameChar, initial]), nil_mem_tail⟩
          have le := most [d] name ⟨rest, rfl⟩
          rw [← length] at le
          exact absurd le (Nat.not_succ_le_zero 0)
        | cons e v =>
          obtain ⟨rfl, -⟩ := List.cons_prefix_cons.1 front
          simpa using start
      refine ⟨⟨c :: v, cons_mem_tail_iff.2 ⟨more.imp_right fun h => ⟨h.1, head h.2⟩, hv⟩,
        List.cons_prefix_cons.2 ⟨rfl, front⟩, congrArg (· + 1) length⟩, ?_⟩
      intro w hw front
      cases w with
      | nil => exact Nat.zero_le _
      | cons d w =>
        exact Nat.succ_le_succ
          (most w (cons_mem_tail_iff.1 hw).2 (List.cons_prefix_cons.1 front).2)
    · next stop =>
      refine ⟨⟨[], nil_mem_tail, List.nil_prefix, rfl⟩, ?_⟩
      intro w hw front
      cases w with
      | nil => exact Nat.le_refl _
      | cons d w =>
        obtain ⟨rfl, rest, rfl⟩ := List.cons_prefix_cons.1 front
        refine absurd ((cons_mem_tail_iff.1 hw).1.imp_right fun h => ⟨h.1, ?_⟩) stop
        cases w with
        | nil => exact absurd h.2 Bool.false_ne_true
        | cons e w => exact h.2

theorem makes_name : name.Makes .name := by
  refine ⟨?_, rfl⟩
  have found := @Finds.char_andThen _ _ isNameStart finds_nameTail
  rw [tail, ← mul_assoc] at found
  exact found

/-! ## Strings -/

/-- What may stand behind an opening quote, the closing quote included. -/
def closing (quote : Char) : Language Char :=
  (oneOf (fun c => c ≠ quote && c ≠ '\\') + oneOf (· = '\\') * oneOf (· ≠ '\n'))∗ *
    oneOf (· = quote)

theorem cons_mem_closing {quote c : Char} {w : Chars} :
    c :: w ∈ closing quote ↔ c = quote ∧ w = [] ∨ (c ≠ quote ∧ c ≠ '\\') ∧ w ∈ closing quote ∨
      c = '\\' ∧ w ∈ oneOf (· ≠ '\n') * closing quote := by
  conv_lhs => rw [closing, star_mul, add_mul, mul_assoc]
  rw [Language.mem_add, Language.mem_add, cons_mem_oneOf_mul, cons_mem_oneOf_mul, ← closing]
  have one : c :: w ∈ oneOf (· = quote) ↔ c = quote ∧ w = [] := by
    rw [← mul_one (oneOf _), cons_mem_oneOf_mul, Language.mem_one, decide_eq_true_iff]
  rw [one]
  simp

theorem nil_notMem_closing (quote : Char) : [] ∉ closing quote := by
  rintro ⟨u, -, v, ⟨c, -, rfl⟩, eq⟩
  exact nomatch (List.append_eq_nil_iff.1 eq).2

theorem finds_quotedTail {quote : Char} (plain : quote ≠ '\\') :
    (quotedTail quote).Finds (closing quote) := by
  have nil := nil_notMem_closing quote
  -- A backslash is followed by another character, which is no line break.
  have escaped (w : Chars) :
      '\\' :: w ∈ closing quote ↔ w ∈ oneOf (· ≠ '\n') * closing quote := by
    rw [cons_mem_closing]
    simp [plain.symm]
  intro text
  fun_induction quotedTail quote text with
  | case1 =>
    intro w hw front
    exact nil (List.prefix_nil.1 front ▸ hw)
  | case2 text =>
    have ends (w : Chars) : quote :: w ∈ closing quote ↔ w ∈ (1 : Language Char) := by
      rw [cons_mem_closing, Language.mem_one]
      simp [plain]
    exact (finds_nothing text).step nil ends
  | case3 =>
    have stuck : Longest (oneOf (· ≠ '\n') * closing quote) [] none := by
      intro w hw front
      exact nil_notMem_oneOf_mul (List.prefix_nil.1 front ▸ hw)
    exact stuck.step nil escaped
  | case4 text =>
    have stuck : Longest (oneOf (· ≠ '\n') * closing quote) ('\n' :: text) none := by
      intro w hw front
      obtain ⟨c, v, rfl, ink, -⟩ := mem_oneOf_mul.1 hw
      obtain ⟨rfl, -⟩ := List.cons_prefix_cons.1 front
      exact nomatch ink
    exact stuck.step nil escaped
  | case5 d text ink _ ih =>
    have two : (1 + ·) ∘ (1 + ·) = ((· + 2) : Nat → Nat) := by
      funext n
      simp only [Function.comp_apply]
      omega
    have found := (@Longest.cons _ (· ≠ '\n') d text _ (by simpa using ink) ih).step nil escaped
    rwa [Option.map_map, two] at found
  | case6 c text notQuote notBackslash ih =>
    have goes (w : Chars) : c :: w ∈ closing quote ↔ w ∈ closing quote := by
      rw [cons_mem_closing]
      simp [notQuote, notBackslash]
    simp only [Nat.add_comm _ 1]
    exact ih.step nil goes

theorem makes_quoted {quote : Char} (plain : quote ≠ '\\') :
    (quoted quote).Makes (.quoted quote) :=
  ⟨(finds_quotedTail plain).char_andThen, rfl⟩

/-! ## The choice among forms -/

/-- The rules find the texts of the forms, in the same order. -/
theorem makes_all : List.Forall₂ Makes all forms := by
  refine List.rel_append ?_ ?_
  · exact List.forall₂_map_left_iff.2 (List.forall₂_map_right_iff.2
      (List.forall₂_same.2 fun k _ => makes_symbol k))
  · exact .cons makes_name <| .cons makes_hexadecimal <| .cons makes_decimal <|
      .cons (makes_quoted (by decide)) <| .cons (makes_quoted (by decide)) .nil

end Rule

/-- The longest front of a text that any form has, and the first form that has it. -/
structure Form.Chosen (fs : List Form) (text : Chars) (form : Form) (spelling : Chars) : Prop where
  front : spelling <+: text
  longest : ∀ other ∈ fs, ∀ w ∈ other.language, w <+: text → w.length ≤ spelling.length
  first : ∃ before after, fs = before ++ form :: after ∧ spelling ∈ form.language ∧
    ∀ other ∈ before, spelling ∉ other.language

/-- No form has a front of a text. -/
def Form.Unknown (fs : List Form) (text : Chars) : Prop :=
  ∀ form ∈ fs, ∀ w ∈ form.language, ¬ w <+: text

namespace Form.Chosen

variable {fs : List Form} {text spelling : Chars} {form other : Form}

/-- A form that has only shorter fronts is passed over. -/
theorem behind (h : Chosen fs text form spelling)
    (shorter : ∀ w ∈ other.language, w <+: text → w.length < spelling.length) :
    Chosen (other :: fs) text form spelling where
  front := h.front
  longest := List.forall_mem_cons.2 ⟨fun w hw front => Nat.le_of_lt (shorter w hw front), h.longest⟩
  first := by
    obtain ⟨before, after, rfl, mem, none⟩ := h.first
    refine ⟨other :: before, after, rfl, mem, List.forall_mem_cons.2 ⟨fun hw => ?_, none⟩⟩
    exact Nat.lt_irrefl _ (shorter spelling hw h.front)

/-- The first form is chosen if no other one has a longer front. -/
theorem head (mem : spelling ∈ form.language) (front : spelling <+: text)
    (most : ∀ w ∈ form.language, w <+: text → w.length ≤ spelling.length)
    (others : ∀ other ∈ fs, ∀ w ∈ other.language, w <+: text → w.length ≤ spelling.length) :
    Chosen (form :: fs) text form spelling :=
  ⟨front, List.forall_mem_cons.2 ⟨most, others⟩, [], fs, rfl, mem, List.forall_mem_nil _⟩

end Form.Chosen

namespace Rule

/-- The rule that takes most characters is that of the chosen form. -/
theorem chosen_best? {rules : List Rule} {fs : List Form} (h : List.Forall₂ Makes rules fs)
    (text : Chars) :
    match best? rules text with
    | none => Form.Unknown fs text
    | some (n, r) => ∃ form spelling, Form.Chosen fs text form spelling ∧ r.kind = form.kind ∧
        n = spelling.length := by
  induction h with
  | nil => exact List.forall_mem_nil _
  | @cons r form rules fs makes more ih =>
    have found := makes.finds text
    rw [best?, List.foldr_cons, ← best?]
    cases taken : r.pattern text with
    | none =>
      rw [taken] at found
      cases later : best? rules text with
      | none =>
        rw [later] at ih
        exact List.forall_mem_cons.2 ⟨found, ih⟩
      | some m =>
        rw [later] at ih
        obtain ⟨other, spelling, chosen, kind, length⟩ := ih
        exact ⟨other, spelling, chosen.behind fun w hw front => absurd front (found w hw), kind,
          length⟩
    | some i =>
      rw [taken] at found
      obtain ⟨⟨v, mem, front, rfl⟩, most⟩ := found
      cases later : best? rules text with
      | none =>
        rw [later] at ih
        exact ⟨form, v, .head mem front most fun f hf w hw front => absurd front (ih f hf w hw),
          makes.kind, rfl⟩
      | some m =>
        obtain ⟨j, r'⟩ := m
        rw [later] at ih
        obtain ⟨other, spelling, chosen, kind, rfl⟩ := ih
        by_cases lt : v.length < spelling.length
        · simp only [Option.map_some, better, if_pos lt]
          exact ⟨other, spelling, chosen.behind fun w hw front =>
            Nat.lt_of_le_of_lt (most w hw front) lt, kind, rfl⟩
        · simp only [Option.map_some, better, if_neg lt]
          exact ⟨form, v, .head mem front most fun f hf w hw front =>
            Nat.le_trans (chosen.longest f hf w hw front) (Nat.le_of_not_lt lt), makes.kind, rfl⟩

end Rule

/-! ## Tokens of a text -/

/-- Which token the start of a text makes. -/
inductive Chosen (text : Chars) : Kind → Chars → Prop
  | form {form : Form} {spelling : Chars} (chosen : Form.Chosen forms text form spelling) :
      Chosen text (form.kind spelling) spelling
  /-- All word characters up to the first other one. -/
  | word (unknown : Form.Unknown forms text) (starts : text.head?.any isWord) :
      Chosen text .other (text.takeWhile isWord)
  | single {c : Char} (unknown : Form.Unknown forms text) (starts : text.head? = some c)
      (other : ¬ isWord c) : Chosen text .other [c]

theorem Rule.chosen_first {text : Chars} (h : text ≠ []) :
    Chosen text (first text).1 (text.take (first text).2) := by
  have best := chosen_best? makes_all text
  unfold first
  cases found : best? all text with
  | some m =>
    obtain ⟨n, r⟩ := m
    rw [found] at best
    obtain ⟨form, spelling, chosen, kind, rfl⟩ := best
    have spelled := (List.prefix_iff_eq_take.1 chosen.front).symm
    simp only [Option.getD_some, spelled, kind]
    exact .form chosen
  | none =>
    rw [found] at best
    obtain ⟨c, text, rfl⟩ := List.exists_cons_of_ne_nil h
    simp only [Option.getD_none]
    by_cases word : isWord c
    · have run : fallback.pattern (c :: text) = some (1 + (text.takeWhile isWord).length) := by
        simp [fallback, many1, andThen_char_of_pos word, many]
      have whole : (c :: text).take (1 + (text.takeWhile isWord).length) =
          (c :: text).takeWhile isWord := by
        rw [Nat.add_comm, List.take_succ_cons, List.takeWhile_cons_of_pos word]
        exact congrArg (c :: ·) (List.prefix_iff_eq_take.1 (List.takeWhile_prefix _)).symm
      rw [run, Option.getD_some, whole]
      exact .word best (by simpa using word)
    · have one : fallback.pattern (c :: text) = some 1 := by
        simp [fallback, many1, andThen_char_of_neg word]
      rw [one]
      exact .single best rfl word

/-- No form has the empty text. -/
theorem Form.ne_nil_of_mem {form : Form} (h : form ∈ forms) : [] ∉ form.language := by
  have right {l m : Language Char} (hm : [] ∉ m) : [] ∉ l * m := by
    rintro ⟨u, -, v, hv, eq⟩
    obtain ⟨-, rfl⟩ := List.append_eq_nil_iff.1 eq
    exact hm hv
  have left {l m : Language Char} (hl : [] ∉ l) : [] ∉ l * m := by
    rintro ⟨u, hu, v, -, eq⟩
    obtain ⟨rfl, -⟩ := List.append_eq_nil_iff.1 eq
    exact hl hu
  simp only [forms, List.mem_append, List.mem_map, List.mem_cons, List.not_mem_nil, or_false] at h
  rcases h with ⟨k, hk, rfl⟩ | rfl | rfl | rfl | rfl | rfl
  · have symbols : ∀ k ∈ Kind.symbols, k.spelling.toList ≠ [] := by decide +kernel
    exact fun eq => symbols k hk eq.symm
  · exact left nil_notMem_oneOf_mul
  · exact right nil_notMem_oneOf_mul
  · exact right (left nil_notMem_oneOf_mul)
  · exact nil_notMem_oneOf_mul
  · exact nil_notMem_oneOf_mul

/-- A token takes at least one character. -/
theorem Chosen.ne_nil {text spelling : Chars} {kind : Kind} (h : Chosen text kind spelling) :
    spelling ≠ [] := by
  cases h with
  | form chosen =>
    obtain ⟨before, after, eq, mem, -⟩ := chosen.first
    rintro rfl
    exact Form.ne_nil_of_mem (eq ▸ List.mem_append_right _ List.mem_cons_self) mem
  | word _ starts =>
    obtain ⟨c, head, word⟩ := (Option.any_eq_true _ _).1 starts
    obtain ⟨rest, rfl⟩ := List.head?_eq_some_iff.1 head
    rw [List.takeWhile_cons_of_pos word]
    exact List.cons_ne_nil _ _
  | single => exact List.cons_ne_nil _ _

/-- How the tokens of a tag make up a text that starts at a position. -/
inductive Lexed : Position → Chars → List Token → Prop
  | last {p : Position} {gap : Chars} (blank : ∀ c ∈ gap, isSpace c) : Lexed p gap []
  | token {p : Position} {gap spelling rest : Chars} {kind : Kind} {ts : List Token}
      (blank : ∀ c ∈ gap, isSpace c) (solid : ∀ c ∈ spelling.head?, ¬ isSpace c)
      (nonempty : spelling ≠ []) (chosen : Chosen (spelling ++ rest) kind spelling)
      (more : Lexed (shift p (byteSize (gap ++ spelling))) rest ts) :
      Lexed p (gap ++ (spelling ++ rest))
        (⟨kind, String.ofList spelling,
          ⟨shift p (byteSize gap), shift p (byteSize (gap ++ spelling))⟩⟩ :: ts)

theorem shift_shift (p : Position) (m n : Nat) : shift (shift p m) n = shift p (m + n) := by
  simp [shift, Nat.add_assoc]

theorem lexed_take {n : Nat} {text : Chars} (h : text.length ≤ n) (p : Position) :
    Lexed p text (take n p text) := by
  induction n generalizing p text with
  | zero =>
    obtain rfl := List.length_eq_zero_iff.1 (Nat.le_zero.1 h)
    exact .last nofun
  | succ n ih =>
    have whole := @List.takeWhile_append_dropWhile _ isSpace text
    have blank : ∀ c ∈ text.takeWhile isSpace, isSpace c := List.all_eq_true.1 List.all_takeWhile
    generalize gaps : text.takeWhile isSpace = gap at whole blank
    simp only [take, gaps]
    cases behind : text.dropWhile isSpace with
    | nil =>
      rw [behind, List.append_nil] at whole
      rw [← whole]
      exact .last blank
    | cons c rest =>
      have solid : ¬ isSpace c := by
        have not := List.head?_dropWhile_not isSpace text
        rw [behind] at not
        simpa using not
      have chosen := Rule.chosen_first (List.cons_ne_nil c rest)
      dsimp only
      generalize Rule.first (c :: rest) = choice at chosen ⊢
      obtain ⟨kind, length⟩ := choice
      dsimp only at chosen ⊢
      have cut := List.take_append_drop length (c :: rest)
      generalize (c :: rest).take length = spelling at cut chosen ⊢
      generalize (c :: rest).drop length = left at cut ⊢
      obtain ⟨d, more, rfl⟩ := List.exists_cons_of_ne_nil chosen.ne_nil
      have head : d = c := (List.cons.inj cut).1
      have shorter : left.length ≤ n := by
        have lengths := congrArg List.length (whole.trans rfl)
        rw [behind, ← cut, List.length_append, List.length_append, List.length_cons] at lengths
        omega
      have later := ih shorter (shift p (byteSize (gap ++ d :: more)))
      rw [← whole, behind, ← cut, shift_shift, ← byteSize_append]
      rw [← cut] at chosen
      refine .token blank ?_ (List.cons_ne_nil d more) chosen later
      rintro _ ⟨⟩
      exact head ▸ solid

theorem lexed_tokens (start : Position) (text : Chars) : Lexed start text (tokens start text) :=
  lexed_take (Nat.le_refl _) start

end Doc

/-! ## Comments of a source -/

namespace Piece

/-- A short comment ends in front of a line break, or at the end of the text. -/
theorem stops_of_lineComment {c : Char} {text rest comment : Chars}
    (h : first c text = (.lineComment comment, rest)) : ∀ d ∈ rest.head?, d = '\n' := by
  obtain ⟨behind, -, rfl⟩ := cut_of_lineComment h
  exact stops_dropWhile behind

end Piece

namespace Mark

/-- Where the comments among the marks in front of a position stand: a short one takes the rest of
its line. -/
structure Shown (s : Source) (ms : List Mark) (p : Position) (rest : Chars) : Prop where
  front : ∃ front, s.text = front ++ rest ∧ p = ({} : Position).after front
  line : ∀ comment stop, kept comment stop ∈ ms → comment.isShort → ∃ lead,
    s.line comment.start.line = lead ++ '-' :: '-' :: comment.text ∧
      Text.byteSize lead = comment.start.column

theorem Shown.step {s : Source} (split : s.IsSplit) {ms : List Mark} {p : Position} {c : Char}
    {text rest : Chars} {piece : Piece} (h : Shown s ms p (c :: text))
    (first : Piece.first c text = (piece, rest)) :
    Shown s (ms ++ (ofPiece? ms p rest piece).toList) (p.after piece.spelling) rest := by
  obtain ⟨front, eq, rfl⟩ := h.front
  have spelled := Piece.spelling_first c text
  rw [first] at spelled
  refine ⟨⟨front ++ piece.spelling, ?_, (Position.after_append ..).symm⟩, ?_⟩
  · rw [eq, ← spelled, List.append_assoc]
  intro comment stop mem short
  rcases List.mem_append.1 mem with mem | mem
  · exact h.line comment stop mem short
  -- Only a short comment adds one.
  cases piece with
  | space => simp [ofPiece?] at mem
  | token => simp [ofPiece?] at mem
  | blockComment level text closed alone =>
    simp only [ofPiece?] at mem
    split at mem
    · obtain ⟨rfl, -⟩ := Mark.kept.inj (List.mem_singleton.1 mem)
      exact absurd short Bool.false_ne_true
    · simp at mem
  | lineComment text' =>
    obtain ⟨rfl, -⟩ := Mark.kept.inj (List.mem_singleton.1 mem)
    obtain ⟨lead, line, column⟩ := Source.line_after split eq
    have oneLine := (Piece.lineComment_of_first first).1
    have all : ∀ d ∈ '-' :: '-' :: text', decide (d ≠ '\n') := by
      rintro d (_ | ⟨_, _ | ⟨_, hd⟩⟩)
      · rfl
      · rfl
      · exact decide_eq_true fun newline => oneLine (newline ▸ hd)
    refine ⟨lead, line.trans ?_, column⟩
    rw [← spelled, Piece.spelling, List.takeWhile_append_of_pos all,
      takeWhile_of_stops (Piece.stops_of_lineComment first), List.append_nil]

end Mark

/-! ## Tags of a source -/

namespace Source

/-- On a line, one location ends before another one starts, and only white space stands between. -/
def Blank (s : Source) (line : Nat) (l m : Location) : Prop :=
  l.stop.column ≤ m.start.column ∧
    ∀ c ∈ Text.slice l.stop.column m.start.column (s.line line), Text.isSpace c

/-- Tokens stand where their locations say, behind a position and up to the end of its line. -/
structure Pins (s : Source) (p : Position) (ts : List Doc.Token) : Prop where
  line : ∀ t ∈ ts, t.location.start.line = p.line ∧ t.location.stop.line = p.line
  nonempty : ∀ t ∈ ts, t.location.start.column < t.location.stop.column
  text : ∀ t ∈ ts, t.text.toList =
    Text.slice t.location.start.column t.location.stop.column (s.line p.line)
  /-- Nothing but white space stands in front of the first token, between two tokens, and behind the
  last one. -/
  gaps : (.point p :: (ts.map (·.location) ++
    [.point ⟨p.line, Text.byteSize (s.line p.line)⟩])).IsChain (s.Blank p.line)

theorem pins_of_lexed {s : Source} {p : Position} {front text : Chars} {ts : List Doc.Token}
    (h : Doc.Lexed p text ts) (line : s.line p.line = front ++ text)
    (column : Text.byteSize front = p.column) : s.Pins p ts := by
  induction h generalizing front with
  | @last p gap blank =>
    refine ⟨List.forall_mem_nil _, List.forall_mem_nil _, List.forall_mem_nil _, ?_⟩
    refine .cons_cons ?_ (.singleton _)
    have whole := slice_append front gap []
    rw [List.append_nil, ← line, column] at whole
    refine ⟨?_, fun c hc => blank c (whole ▸ hc)⟩
    rw [line, byteSize_append, column]
    exact Nat.le_add_right _ _
  | @token p gap spelling rest kind ts blank solid nonempty chosen more ih =>
    have cut : s.line p.line = front ++ gap ++ spelling ++ rest := by
      rw [line]
      simp
    have start : byteSize (front ++ gap) = p.column + byteSize gap := by
      rw [byteSize_append, column]
    have stop : byteSize (front ++ gap ++ spelling) = p.column + byteSize (gap ++ spelling) := by
      rw [List.append_assoc, byteSize_append, column]
    have later := ih (cut.trans (by rw [List.append_assoc])) stop
    have nonempty : 0 < byteSize spelling := by
      obtain ⟨d, more, rfl⟩ := List.exists_cons_of_ne_nil nonempty
      exact Nat.add_pos_left d.utf8Size_pos _
    obtain ⟨next, chain⟩ := List.isChain_cons.1 later.gaps
    refine ⟨List.forall_mem_cons.2 ⟨⟨rfl, rfl⟩, later.line⟩,
      List.forall_mem_cons.2 ⟨?_, later.nonempty⟩, List.forall_mem_cons.2 ⟨?_, later.text⟩,
      .cons_cons ⟨Nat.le_add_right _ _, ?_⟩ (List.isChain_cons.2 ⟨next, chain⟩)⟩
    · show p.column + byteSize gap < p.column + byteSize (gap ++ spelling)
      rw [byteSize_append]
      omega
    · have held := slice_append (front ++ gap) spelling rest
      rw [← cut, start, stop] at held
      rw [String.toList_ofList]
      exact held.symm
    · intro c hc
      have held := slice_append front gap (spelling ++ rest)
      rw [← List.append_assoc, ← cut, start, column] at held
      exact blank c (held ▸ hc)

/-- Every token of a text is the longest front of what is left of it that any form has, and the
first such form makes it. Where no form has one, it is a run of word characters or one character.
Only white space stands between the tokens. In a source with a tree, the tag of a comment is what
stands behind `---@` on its line, and each of its tokens stands in this line where its location
says. -/
theorem pins_tagTokens :
    (∀ start text, Doc.Lexed start text (Doc.tokens start text)) ∧
    ∀ (name : String) (bytes : List UInt8) (m : Nat) (tree : Block),
      let s := ofBytes name bytes
      (s.program m).tree = some tree →
        ∀ b ∈ (s.program m).comments.blocks, ∀ c ∈ b.lines, ∀ text, c.tagText? = some text →
          ∃ front ts, s.line c.start.line = front ++ '-' :: '-' :: '-' :: '@' :: text ∧
            Text.byteSize front = c.start.column ∧ c.tagTokens? = some ts ∧
            Doc.Lexed (Doc.shift c.start 4) text ts ∧ s.Pins (Doc.shift c.start 4) ts := by
  refine ⟨Doc.lexed_tokens, ?_⟩
  intro name bytes m tree s parsed b hb c hc text tag
  have split : s.IsSplit := isSplit_ofBytes name bytes
  -- The comment is one of those in the text, which take the rest of their lines.
  rw [(fetches_program s m parsed).1] at hb
  obtain ⟨harvest, -⟩ := LexemeReader.harvest_all name bytes m
  have mem : c ∈ s.marks.filterMap Mark.comment? := by
    rw [← harvest.comments]
    exact List.mem_flatMap.2 ⟨b, hb, hc⟩
  obtain ⟨stop, mem⟩ : ∃ stop, Mark.kept c stop ∈ s.marks := by
    obtain ⟨mark, mem, eq⟩ := List.mem_filterMap.1 mem
    cases mark with
    | kept comment stop => exact ⟨stop, Option.some.inj eq ▸ mem⟩
    | token place => exact nomatch eq
    | dropped place => exact nomatch eq
  obtain ⟨short, spelled⟩ : c.isShort = true ∧ c.text = '-' :: '@' :: text := by
    unfold CommentLine.tagText? at tag
    split at tag
    · next short spelled => exact ⟨short, Option.some.inj tag ▸ spelled⟩
    · exact nomatch tag
  have init : Mark.Shown s [] {} s.text := ⟨⟨[], rfl, rfl⟩, nofun⟩
  obtain ⟨_, shown⟩ := Mark.ofPieces_inv (fun first h => Mark.Shown.step split h first)
    (Piece.taken_ofText s.text) init
  obtain ⟨front, line, column⟩ := shown.line c stop mem short
  rw [spelled] at line
  have lexed := Doc.lexed_tokens (Doc.shift c.start 4) text
  have four : byteSize (front ++ ['-', '-', '-', '@']) = c.start.column + 4 := by
    rw [byteSize_append, column]
    rfl
  refine ⟨front, _, line, column, by rw [CommentLine.tagTokens?, tag, Option.map_some], lexed, ?_⟩
  exact @pins_of_lexed s _ (front ++ ['-', '-', '-', '@']) text _ lexed
    (by simpa [Doc.shift] using line) four

/-- Eight tokens, of which one is made of two bytes. -/
theorem pins_tagTokens_param :
    let s := ofBytes "" "  ---@param x.y?  -0x1F|é..\nlocal x".toUTF8.toList
    let c : CommentLine := ⟨"-@param x.y?  -0x1F|é..".toList, ⟨0, 2⟩, true, true⟩
    (s.program 30).tree.isSome ∧ (s.program 30).comments.blocks = [⟨[c], 0⟩] ∧
      ∃ ts, c.tagTokens? = some ts ∧ ts.length = 8 ∧ s.Pins ⟨0, 6⟩ ts := by
  intro s c
  have parsed : (s.program 30).tree.isSome := by decide +kernel
  have blocks : (s.program 30).comments.blocks = [⟨[c], 0⟩] := by decide +kernel
  have eight : c.tagTokens?.map List.length = some 8 := by decide +kernel
  obtain ⟨tree, some⟩ := Option.isSome_iff_exists.1 parsed
  obtain ⟨front, ts, -, -, tokens, -, pins⟩ := pins_tagTokens.2 ""
    "  ---@param x.y?  -0x1F|é..\nlocal x".toUTF8.toList 30 tree some ⟨[c], 0⟩
    (blocks ▸ List.mem_singleton.2 rfl) c (List.mem_singleton.2 rfl)
    "param x.y?  -0x1F|é..".toList rfl
  rw [tokens] at eight
  exact ⟨parsed, blocks, ts, tokens, Option.some.inj eight, pins⟩

end Source

end LuaFront
