import LuaFront.Proofs.Boundary
import LuaFront.Proofs.Numerals

/-!
# Where numerals end

Numerals are described twice. `Numeral.cut` decides where a number token ends, one character after
the other, and `Numeral.value?` decides whether the text of the token is a numeral. The two agree:
a numeral is cut off as a whole in front of everything that cannot go on with it, and whatever could
go on with it becomes part of the token, so that `Numeral.value?` gets to see it.

* `Numeral.cutBody_append`: what is cut off digits, a fraction and an exponent, and where it ends.
* `Numeral.cut_append`: a numeral is cut off in front of a text that cannot go on with it.
* `Numeral.ends_cut`: what is left in any case could not go on with a numeral.
-/

namespace LuaFront

open scoped Computability

open Text Pattern

namespace Numeral

/-- What cannot go on with a numeral: nothing, or a text that starts with neither a name character
nor a point. -/
def Ends (rest : Chars) : Prop := ∀ c ∈ rest.head?, ¬ isNameChar c ∧ c ≠ '.'

variable {digit mark : Char → Bool} {m e text rest : Chars} {c x : Char}

/-! ## Digits, a fraction and an exponent -/

/-- An exponent is cut off as a whole. A sign goes with it only right behind the mark. -/
theorem cut_exponent (named : ∀ c, mark c → isNameChar c) (he : e ∈ exponent mark)
    (ends : Ends rest) :
    Cut.led mark ((Cut.one isSign).andThen (Cut.many isDigit)) (e ++ rest) = (e, rest) := by
  rcases he with rfl | he
  · exact Cut.led_of_neg fun c hc marked => (ends c hc).1 (named c marked)
  obtain ⟨c, v, rfl, marked, hv⟩ := mem_oneOf_mul.1 he
  refine Cut.led_of_pos marked ?_
  have digits {w : Chars} (hw : w ∈ run isDigit) : Cut.many isDigit (w ++ rest) = (w, rest) :=
    Cut.many_append (mem_run.1 hw).2 fun c hc digit =>
      (ends c hc).1 (Piece.isNameChar_of_isDigit digit)
  obtain ⟨s, hs, w, hw, rfl⟩ := Language.mem_mul.1 hv
  rw [List.append_assoc]
  refine Cut.andThen_eq ?_ (digits hw)
  rcases hs with rfl | ⟨sign, signed, rfl⟩
  · obtain ⟨nonempty, all⟩ := mem_run.1 hw
    obtain ⟨d, w, rfl⟩ := List.exists_cons_of_ne_nil nonempty
    refine Cut.one_of_neg ?_
    rintro _ ⟨⟩
    simpa using not_isSign_of_isDigit (all d List.mem_cons_self)
  · exact if_pos signed

/-- What is cut off digits, a fraction and an exponent is all of them and nothing else. -/
theorem cutBody_append (point : ¬ digit '.') (named : ∀ c, digit c → isNameChar c)
    (apart : ∀ c, mark c → isNameChar c ∧ ¬ digit c ∧ c ≠ '.')
    (h : text ∈ mantissa digit * exponent mark) (ends : Ends rest) :
    cutBody digit mark (text ++ rest) = (text, rest) := by
  obtain ⟨m, hm, e, he, rfl⟩ := Language.mem_mul.1 h
  have exponent := cut_exponent (fun c hc => (apart c hc).1) he ends
  have stops : ∀ c ∈ (e ++ rest).head?, ¬ digit c ∧ c ≠ '.' := by
    cases e with
    | nil => exact fun c hc => ⟨fun digit => (ends c hc).1 (named c digit), (ends c hc).2⟩
    | cons d e =>
      rintro _ ⟨⟩
      exact (apart d (starts_exponent d e he)).2
  have noDigit : ∀ c ∈ (e ++ rest).head?, ¬ digit c := fun c hc => (stops c hc).1
  rw [List.append_assoc]
  rcases mem_mantissa.1 hm with digits | ⟨u, v, rfl, hu, hv, -⟩
  · have unpointed : Cut.led isPoint (Cut.many digit) (e ++ rest) = ([], e ++ rest) :=
      Cut.led_of_neg fun c hc point => (stops c hc).2 (isPoint_iff.1 point)
    exact Cut.andThen_eq (Cut.many_append (mem_run.1 digits).2 noDigit)
      (Cut.andThen_eq unpointed exponent)
  · have pointed : ∀ c ∈ ('.' :: v ++ (e ++ rest)).head?, ¬ digit c := by
      rintro _ ⟨⟩
      exact point
    have fraction : Cut.led isPoint (Cut.many digit) ('.' :: v ++ (e ++ rest)) =
        ('.' :: v, e ++ rest) := Cut.led_of_pos rfl (Cut.many_append hv noDigit)
    rw [List.append_assoc, List.append_assoc]
    exact Cut.andThen_eq (Cut.many_append hu pointed) (Cut.andThen_eq fraction exponent)

/-! ## Numerals -/

theorem mem_of_isSome_value? (h : (value? text).isSome) : text ∈ decimals + hexadecimals := by
  by_cases integer : ∃ n, Spells n text
  · obtain ⟨n, spelled⟩ := integer
    cases spelled with
    | decimal digits => exact .inl (mem_decimals_of_run digits)
    | hexadecimal marked digits => exact .inr ((mem_hexadecimals marked).2 (mem_of_run digits))
  · rcases floatIf_value? (not_exists.1 integer) with ⟨mem, -⟩ | ⟨-, none⟩
    · exact mem
    · rw [none] at h
      exact nomatch h

/-- A decimal numeral has no mark of a hexadecimal one behind a zero, and none can follow it. -/
theorem unmarked_append (h : c :: text ∈ decimals) (ends : Ends rest) (x : Char) (more : Chars)
    (eq : c :: text ++ rest = '0' :: x :: more) : ¬ isHexMark x := by
  intro marked
  cases text with
  | nil =>
    have head : rest.head? = some x := congrArg List.head? (List.cons.inj eq).2
    exact (ends x head).1 (isNameChar_of_isHexMark marked)
  | cons d text =>
    obtain ⟨rfl, behind⟩ := List.cons.inj eq
    obtain ⟨rfl, -⟩ := List.cons.inj behind
    exact notMem_decimals_of_marked marked text h

theorem splitSign_of_start (start : isDigit c ∨ c = '.') (text : Chars) :
    splitSign (c :: text) = (false, c :: text) := by
  refine splitSign_of_unsigned (fun sign => ?_) text
  rcases isSign_iff.1 sign with rfl | rfl <;> exact absurd start (by decide)

theorem cutNumeral_append (start : isDigit c ∨ c = '.') (h : (value? (c :: text)).isSome)
    (ends : Ends rest) : cutNumeral (c :: text ++ rest) = (c :: text, rest) := by
  rcases (Language.mem_add _ _ _).1 (mem_of_isSome_value? h) with decimal | hexadecimal
  · rw [cutNumeral_of_unmarked (unmarked_append decimal ends)]
    rw [mem_decimals, splitSign_of_start start] at decimal
    exact cutBody_append (by decide) (fun _ => Piece.isNameChar_of_isDigit)
      (fun _ hc => ⟨isNameChar_of_isDecimalMark hc, apart_of_isDecimalMark hc⟩) decimal ends
  · obtain ⟨x, more, eq, marked⟩ := marked_of_mem_hexadecimals hexadecimal
    obtain ⟨rfl, rfl⟩ := List.cons.inj eq
    have body := cutBody_append (by decide) (fun _ => isNameChar_of_isHexDigit)
      (fun _ hc => ⟨isNameChar_of_isBinaryMark hc, apart_of_isBinaryMark hc⟩)
      ((mem_hexadecimals marked).1 hexadecimal) ends
    simp only [cutNumeral, List.cons_append, marked, if_true, body]

/-- A numeral is cut off as a whole in front of what cannot go on with it. -/
theorem cut_append (start : isDigit c ∨ c = '.') (h : (value? (c :: text)).isSome)
    (ends : Ends rest) : cut (c :: text ++ rest) = (c :: text, rest) := by
  have none : Cut.many (fun c => isNameChar c || isPoint c) rest = ([], rest) := by
    refine Cut.many_of_neg fun c hc more => ?_
    rcases Bool.or_eq_true .. ▸ more with name | point
    · exact (ends c hc).1 name
    · exact (ends c hc).2 (isPoint_iff.1 point)
  have whole := Cut.andThen_eq (cutNumeral_append start h ends) none
  rwa [List.append_nil] at whole

/-- A numeral with nothing behind it is cut off as a whole. -/
theorem cut_of_value? (start : isDigit c ∨ c = '.') (h : (value? (c :: text)).isSome) :
    cut (c :: text) = (c :: text, []) := by
  have whole := @cut_append text [] c start h nofun
  rwa [List.append_nil] at whole

/-- Whatever could go on with a numeral is taken with it. -/
theorem ends_cut (text : Chars) : Ends (cut text).2 := by
  intro c hc
  have stops := List.head?_dropWhile_not (fun c => isNameChar c || isPoint c) (cutNumeral text).2
  simp only [cut, Cut.andThen, Cut.many, Option.mem_def] at hc
  rw [hc] at stops
  obtain ⟨name, point⟩ := Bool.or_eq_false_iff.1 stops
  exact ⟨Bool.eq_false_iff.1 name, of_decide_eq_false point⟩

end Numeral

end LuaFront
