import LuaFront.Proofs.Trivia

/-!
# Where tokens stop

No token but a string holds a blank or a line break, so a text in front of one is read as if nothing
stood behind it (`Piece.first_append`). Strings in long brackets stop at the first bracket that
closes them (`Piece.first_bracketed`).
-/

namespace LuaFront

open Text

/-- A text that is empty or starts with a blank or a line break. -/
def Text.Apart (text : Chars) : Prop := ∀ c ∈ text.head?, isBlank c ∨ c = '\n'

/-! ## Cuts within a class -/

namespace Cut

/-- A cut that takes characters of a class only, and looks no further than to one of another. -/
structure Within (q : Char → Bool) (f : Cut) : Prop where
  taken (text : Chars) : ∀ c ∈ (f text).1, q c
  append (front : Chars) {rest : Chars} (stops : ∀ c ∈ rest.head?, ¬ q c) :
    f (front ++ rest) = ((f front).1, (f front).2 ++ rest)

variable {q p : Char → Bool} {f g : Cut}

theorem Within.many (hp : ∀ c, p c → q c) : Within q (many p) where
  taken text c hc := hp c (List.all_eq_true.1 List.all_takeWhile c hc)
  append front rest stops := by
    induction front with
    | nil => exact many_of_neg fun c hc h => stops c hc (hp c h)
    | cons d front ih =>
      simp only [Cut.many, Prod.mk.injEq] at ih
      by_cases hd : p d
      · simp only [Cut.many, List.cons_append, List.takeWhile_cons, List.dropWhile_cons, hd,
          if_true, ih]
      · simp only [Cut.many, List.cons_append, List.takeWhile_cons, List.dropWhile_cons, hd,
          if_false, Bool.false_eq_true]

theorem Within.one (hp : ∀ c, p c → q c) : Within q (one p) where
  taken text c hc := by
    cases text with
    | nil => cases hc
    | cons d text =>
      simp only [Cut.one] at hc
      split at hc
      · next hd => exact List.mem_singleton.1 hc ▸ hp d hd
      · cases hc
  append front rest stops := by
    cases front with
    | nil => exact one_of_neg fun c hc h => stops c hc (hp c h)
    | cons d front =>
      simp only [Cut.one, List.cons_append]
      split <;> rfl

theorem Within.andThen (hf : Within q f) (hg : Within q g) : Within q (f.andThen g) where
  taken text c hc := by
    rcases List.mem_append.1 hc with hc | hc
    · exact hf.taken text c hc
    · exact hg.taken _ c hc
  append front rest stops := by
    simp only [Cut.andThen, hf.append front stops, hg.append _ stops]

theorem Within.led (hp : ∀ c, p c → q c) (hf : Within q f) : Within q (led p f) where
  taken text c hc := by
    cases text with
    | nil => cases hc
    | cons d text =>
      simp only [Cut.led] at hc
      split at hc
      · next hd =>
        rcases List.mem_cons.1 hc with rfl | hc
        · exact hp _ hd
        · exact hf.taken text c hc
      · cases hc
  append front rest stops := by
    cases front with
    | nil => exact led_of_neg fun c hc h => stops c hc (hp c h)
    | cons d front =>
      simp only [Cut.led, List.cons_append, hf.append front stops]
      split <;> rfl

/-- What is cut off a text in front of a boundary is what is cut off the text alone. -/
theorem Within.append_apart (hf : Within q f) (solid : ∀ c, q c → ¬ (isBlank c ∨ c = '\n'))
    (front : Chars) {rest : Chars} (h : Apart rest) :
    f (front ++ rest) = ((f front).1, (f front).2 ++ rest) :=
  hf.append front fun c hc hq => solid c hq (h c hc)

end Cut

/-! ## The characters of names, numerals and symbols -/

namespace Text

/-- A character between `'!'` and `'~'`: no blank, no line break, no carriage return. -/
def isInk (c : Char) : Bool := '!' ≤ c && c ≤ '~'

theorem not_apart_of_isInk {c : Char} (h : isInk c) : ¬ (isBlank c ∨ c = '\n') := by
  rintro (blank | rfl)
  · simp only [isBlank, Bool.or_eq_true, beq_iff_eq] at blank
    rcases blank with ((rfl | rfl) | rfl) | rfl <;> exact absurd h (by decide)
  · exact absurd h (by decide)

theorem ne_return_of_isInk {c : Char} (h : isInk c) : c ≠ '\r' := by
  rintro rfl
  exact absurd h (by decide)

theorem isInk_of_between {c low high : Char} (hl : '!' ≤ low) (hh : high ≤ '~')
    (h : (low ≤ c && c ≤ high) = true) : isInk c := by
  rw [Bool.and_eq_true, decide_eq_true_iff, decide_eq_true_iff] at h
  rw [isInk, Bool.and_eq_true, decide_eq_true_iff, decide_eq_true_iff]
  exact ⟨Char.le_trans hl h.1, Char.le_trans h.2 hh⟩

theorem isInk_of_isDigit {c : Char} (h : isDigit c) : isInk c :=
  isInk_of_between (by decide) (by decide) h

theorem isInk_of_isLetter {c : Char} (h : isLetter c) : isInk c := by
  rcases Bool.or_eq_true .. ▸ h with h | h
  · exact isInk_of_between (by decide) (by decide) h
  · exact isInk_of_between (by decide) (by decide) h

theorem isInk_of_isNameChar {c : Char} (h : isNameChar c) : isInk c := by
  simp only [isNameChar, isNameStart, Bool.or_eq_true, beq_iff_eq] at h
  rcases h with (h | rfl) | h
  · exact isInk_of_isLetter h
  · decide
  · exact isInk_of_isDigit h

theorem isNameChar_of_isHexDigit {c : Char} (h : isHexDigit c) : isNameChar c := by
  have letter {low high : Char} (hl : 'a' ≤ low ∧ high ≤ 'z' ∨ 'A' ≤ low ∧ high ≤ 'Z')
      (h : low ≤ c ∧ c ≤ high) : isLetter c := by
    simp only [isLetter, Bool.or_eq_true, Bool.and_eq_true, decide_eq_true_iff]
    exact hl.imp (fun hl => ⟨Char.le_trans hl.1 h.1, Char.le_trans h.2 hl.2⟩)
      fun hl => ⟨Char.le_trans hl.1 h.1, Char.le_trans h.2 hl.2⟩
  have named (h : isLetter c) : isNameChar c := by simp [isNameChar, isNameStart, h]
  simp only [isHexDigit, Bool.or_eq_true, Bool.and_eq_true, decide_eq_true_iff] at h
  rcases h with (digit | lower) | upper
  · exact Piece.isNameChar_of_isDigit digit
  · exact named (letter (by decide) lower)
  · exact named (letter (by decide) upper)

end Text

namespace Numeral

theorem isInk_of_isPoint {c : Char} (h : isPoint c) : isInk c := by
  obtain rfl := isPoint_iff.1 h
  decide

theorem isInk_of_isSign {c : Char} (h : isSign c) : isInk c := by
  rcases isSign_iff.1 h with rfl | rfl <;> decide

theorem isNameChar_of_isDecimalMark {c : Char} (h : isDecimalMark c) : isNameChar c := by
  rcases isDecimalMark_iff.1 h with rfl | rfl <;> decide

theorem isNameChar_of_isBinaryMark {c : Char} (h : isBinaryMark c) : isNameChar c := by
  rcases isBinaryMark_iff.1 h with rfl | rfl <;> decide

theorem isNameChar_of_isHexMark {c : Char} (h : isHexMark c) : isNameChar c := by
  rcases isHexMark_iff.1 h with rfl | rfl <;> decide

theorem within_cutBody {digit mark : Char → Bool} (hd : ∀ c, digit c → isInk c)
    (hm : ∀ c, mark c → isInk c) : (cutBody digit mark).Within isInk :=
  (Cut.Within.many hd).andThen <|
    ((Cut.Within.many hd).led fun _ => isInk_of_isPoint).andThen <|
      ((Cut.Within.one fun _ => isInk_of_isSign).andThen
        (Cut.Within.many fun _ => isInk_of_isDigit)).led hm

theorem within_cutDecimal : (cutBody isDigit isDecimalMark).Within isInk :=
  within_cutBody (fun _ => isInk_of_isDigit)
    fun _ marked => isInk_of_isNameChar (isNameChar_of_isDecimalMark marked)

theorem within_cutHexadecimal : (cutBody isHexDigit isBinaryMark).Within isInk :=
  within_cutBody (fun _ digit => isInk_of_isNameChar (isNameChar_of_isHexDigit digit))
    fun _ marked => isInk_of_isNameChar (isNameChar_of_isBinaryMark marked)

theorem cutNumeral_of_unmarked {text : Chars}
    (h : ∀ x rest, text = '0' :: x :: rest → ¬ isHexMark x) :
    cutNumeral text = cutBody isDigit isDecimalMark text := by
  unfold cutNumeral
  split
  · exact if_neg (h _ _ rfl)
  · rfl

theorem within_cutNumeral : cutNumeral.Within isInk where
  taken text := by
    unfold cutNumeral
    split
    · next x text =>
      split
      · next hx =>
        intro c hc
        simp only [List.mem_cons] at hc
        rcases hc with rfl | rfl | hc
        · decide
        · exact isInk_of_isNameChar (isNameChar_of_isHexMark hx)
        · exact within_cutHexadecimal.taken text c hc
      · exact within_cutDecimal.taken _
    · exact within_cutDecimal.taken _
  append front rest stops := by
    by_cases marked : ∃ x more, front = '0' :: x :: more ∧ isHexMark x
    · obtain ⟨x, more, rfl, hx⟩ := marked
      simp only [cutNumeral, List.cons_append, hx, if_true,
        within_cutHexadecimal.append more stops]
    · have unmarked (x : Char) (more : Chars) (eq : front = '0' :: x :: more) : ¬ isHexMark x :=
        fun hx => marked ⟨x, more, eq, hx⟩
      have unmarked' (x : Char) (more : Chars) (eq : front ++ rest = '0' :: x :: more) :
          ¬ isHexMark x := by
        intro hx
        match front with
        -- A mark behind the front would be ink at its end.
        | [] => exact stops '0' (congrArg List.head? eq) (by decide)
        | [_] =>
          exact stops x (congrArg List.head? (List.cons.inj eq).2)
            (isInk_of_isNameChar (isNameChar_of_isHexMark hx))
        | _ :: _ :: front =>
          obtain ⟨rfl, more⟩ := List.cons.inj eq
          obtain ⟨rfl, -⟩ := List.cons.inj more
          exact unmarked _ front rfl hx
      rw [cutNumeral_of_unmarked unmarked, cutNumeral_of_unmarked unmarked']
      exact within_cutDecimal.append front stops

theorem within_cut : cut.Within isInk :=
  within_cutNumeral.andThen <| Cut.Within.many fun c h => by
    rcases Bool.or_eq_true .. ▸ h with h | h
    · exact isInk_of_isNameChar h
    · exact isInk_of_isPoint h

end Numeral

/-! ## Pieces in front of a boundary -/

theorem Text.strip?_append_apart {pre : Chars} (ink : ∀ c ∈ pre, isInk c) (front : Chars)
    {rest : Chars} (apart : Apart rest) :
    strip? pre (front ++ rest) = (strip? pre front).map (· ++ rest) := by
  induction pre generalizing front with
  | nil => rfl
  | cons p pre ih =>
    cases front with
    | nil =>
      cases rest with
      | nil => rfl
      | cons c rest =>
        have other : p ≠ c := by
          rintro rfl
          exact not_apart_of_isInk (ink p List.mem_cons_self) (apart p rfl)
        exact if_neg other
    | cons d front =>
      simp only [strip?, List.cons_append]
      split
      · exact ih (fun c hc => ink c (List.mem_cons_of_mem p hc)) front
      · rfl

namespace Piece

variable {c : Char} {cs rest : Chars} (apart : Apart rest)
include apart

theorem startsWith_append {p : Char → Bool} (hp : ∀ c, p c → isInk c) (front : Chars) :
    startsWith p (front ++ rest) = startsWith p front := by
  cases front with
  | nil =>
    cases rest with
    | nil => rfl
    | cons c rest => exact Bool.eq_false_iff.2 fun h => not_apart_of_isInk (hp c h) (apart c rfl)
  | cons d front => rfl

theorem symbol?_append (front : Chars) :
    symbol? (front ++ rest) = (symbol? front).map fun t => (t.1, t.2 ++ rest) := by
  have ink : ∀ k ∈ Kind.symbols, k.spelling.toList.all isInk := by decide +kernel
  unfold symbol?
  generalize Kind.symbols = ks at ink
  induction ks with
  | nil => rfl
  | cons k ks ih =>
    have more := ih fun k hk => ink k (List.mem_cons_of_mem _ hk)
    rw [List.findSome?_cons, List.findSome?_cons, more,
      strip?_append_apart (List.all_eq_true.1 (ink k List.mem_cons_self)) front apart]
    cases strip? k.spelling.toList front with
    | none => rfl
    | some behind => rfl

omit apart in
theorem isInk_of_bracket (c : Char) (h : (c = '[' || c = '=') = true) : isInk c := by
  simp only [Bool.or_eq_true, decide_eq_true_eq] at h
  rcases h with rfl | rfl <;> decide

theorem lexical_append (quoted : ¬ (c = '\x22' ∨ c = '\x27'))
    (bracketed : ¬ (c = '[' ∧ startsWith (fun d => d = '[' || d = '=') cs)) :
    lexical c (cs ++ rest) = ((lexical c cs).1, (lexical c cs).2 ++ rest) := by
  unfold lexical
  rw [if_neg quoted, if_neg quoted, startsWith_append apart isInk_of_bracket, if_neg bracketed,
    if_neg bracketed, startsWith_append apart fun _ => isInk_of_isDigit]
  split
  · have cut := Numeral.within_cut.append_apart (fun _ => not_apart_of_isInk) (c :: cs) apart
    rw [← List.cons_append, cut]
    rfl
  split
  · have cut := (Cut.Within.many fun _ => isInk_of_isNameChar).append_apart
      (fun _ => not_apart_of_isInk) (c :: cs) apart
    rw [← List.cons_append, word, cut]
    rfl
  rw [← List.cons_append, symbol?_append apart]
  cases symbol? (c :: cs) with
  | some t => rfl
  | none =>
    have cut := (Cut.Within.many (p := fun c => !(isBlank c || c = '\n')) fun _ h => h).append_apart
      (fun c h => by simpa using h) (c :: cs) apart
    rw [Option.map_none, Option.getD_none, Option.getD_none, illegal, cut]
    rfl

/-- A token in front of a boundary is read as if nothing stood behind it. -/
theorem first_append (blank : ¬ (isBlank c ∨ c = '\n'))
    (dashes : strip? ['-', '-'] (c :: cs) = none) (quoted : ¬ (c = '\x22' ∨ c = '\x27'))
    (bracketed : ¬ (c = '[' ∧ startsWith (fun d => d = '[' || d = '=') cs)) :
    first c (cs ++ rest) = ((first c cs).1, (first c cs).2 ++ rest) := by
  have ink : ['-', '-'].all isInk := by decide
  have undashed : strip? ['-', '-'] (c :: (cs ++ rest)) = none := by
    rw [← List.cons_append, strip?_append_apart (List.all_eq_true.1 ink) (c :: cs) apart, dashes]
    rfl
  simp only [first, if_neg blank, dashes, undashed, lexical_append apart quoted bracketed]

end Piece

end LuaFront
