import LuaFront.Proofs.Layout
import Mathlib.Data.List.Forall2

/-!
# Layouts within a width

A list that is too wide gets a line for each element, and so does each list around it, so the lines
of an inner list are moved in once for every list that it stands in. Nothing else is changed by
this: a line break takes the place of the blank between two elements, and the blanks behind the
break are those by which the line was moved in. `Sexp.Laid` says of lines that they are a text with
breaks in place of some of its blanks.

* `Text.unwrap_joinLines`: what is left of lines without their breaks.
* `Sexp.laid_onManyLines`: elements with a line for each of them are the list, laid out.
* `Sexp.pretty?_of_fits`: what fits into the width stands on one line.
* `Sexp.laid_pretty?`: whatever the width is, the layout is the s-expression, laid out.
* `Sexp.unwrap_pretty?`: the layout within a width and the layout on one line.
-/

namespace LuaFront

namespace Text

/-- A text with one blank for every line break and the blanks behind it. -/
def unwrap : Chars → Chars
  | [] => []
  | c :: text =>
    if c = '\n' then ' ' :: unwrap (text.dropWhile (· = ' ')) else c :: unwrap text
termination_by text => text.length
decreasing_by
  · exact Nat.lt_succ_of_le (List.dropWhile_sublist _).length_le
  · exact Nat.lt_succ_self _

/-- A line without the blanks at its start. -/
def unindent (line : Chars) : Chars := line.dropWhile (· = ' ')

/-- A text that makes up one line. -/
structure IsLine (text : Chars) : Prop where
  nonempty : text ≠ []
  unbroken : '\n' ∉ text
  returns : '\r' ∉ text

variable {line text : Chars} {ls : List Chars}

theorem IsLine.cons {c : Char} (h : IsLine line) (unbroken : c ≠ '\n') (returns : c ≠ '\r') :
    IsLine (c :: line) where
  nonempty := List.cons_ne_nil c line
  unbroken := List.not_mem_cons_of_ne_of_not_mem (Ne.symm unbroken) h.unbroken
  returns := List.not_mem_cons_of_ne_of_not_mem (Ne.symm returns) h.returns

theorem IsLine.concat {c : Char} (h : IsLine line) (unbroken : c ≠ '\n') (returns : c ≠ '\r') :
    IsLine (line ++ [c]) where
  nonempty := List.append_ne_nil_of_left_ne_nil h.nonempty [c]
  unbroken := by simpa using ⟨h.unbroken, Ne.symm unbroken⟩
  returns := by simpa using ⟨h.returns, Ne.symm returns⟩

theorem notMem_intercalate {sep : Chars} {c : Char} {xs : List Chars} (hs : c ∉ sep)
    (hx : ∀ x ∈ xs, c ∉ x) : c ∉ sep.intercalate xs := by
  induction xs with
  | nil => simp
  | cons x xs ih =>
    obtain ⟨first, more⟩ := List.forall_mem_cons.1 hx
    cases xs with
    | nil => rwa [List.intercalate_singleton]
    | cons x' xs =>
      rw [List.intercalate_cons_cons, List.mem_append, List.mem_append, not_or, not_or]
      exact ⟨⟨first, hs⟩, ih more⟩

/-- What stands behind joined texts can be put behind the last of them. -/
theorem intercalate_concat_append (sep : Chars) (xs : List Chars) (x back : Chars) :
    sep.intercalate (xs ++ [x]) ++ back = sep.intercalate (xs ++ [x ++ back]) := by
  cases xs with
  | nil =>
    rw [List.nil_append, List.nil_append, List.intercalate_singleton, List.intercalate_singleton]
  | cons x' xs =>
    rw [intercalate_append _ (List.cons_ne_nil x' xs) (List.cons_ne_nil _ _),
      intercalate_append _ (List.cons_ne_nil x' xs) (List.cons_ne_nil _ _), List.append_assoc,
      List.intercalate_singleton, List.intercalate_singleton]

/-- A blank between each two of some texts takes one byte. -/
theorem byteSize_intercalate {texts : List Chars} (h : texts ≠ []) :
    byteSize ([' '].intercalate texts) + 1 = texts.length + byteSize texts.flatten := by
  have blank : Char.utf8Size ' ' = 1 := rfl
  induction texts with
  | nil => exact absurd rfl h
  | cons text texts ih =>
    cases texts with
    | nil => simp [Nat.add_comm]
    | cons next texts =>
      have more := ih (List.cons_ne_nil next texts)
      simp only [List.intercalate_cons_cons, List.flatten_cons, byteSize_append, byteSize_cons,
        byteSize_nil, List.length_cons, blank] at more ⊢
      omega

/-! ## Lines of a text -/

/-- The first character of a line stands in front of what is left of the line. -/
theorem lines_cons {c : Char} (unbroken : c ≠ '\n') (returns : c ≠ '\r') {text line : Chars}
    {ls : List Chars} (h : lines text = line :: ls) : lines (c :: text) = (c :: line) :: ls := by
  rw [lines.eq_4 c text unbroken fun _ eq _ => returns eq, h]

theorem lines_append_break (unbroken : '\n' ∉ line) (returns : '\r' ∉ line) (text : Chars) :
    lines (line ++ '\n' :: text) = line :: lines text := by
  induction line with
  | nil => rfl
  | cons c line ih =>
    rw [List.mem_cons, not_or] at unbroken returns
    exact lines_cons (Ne.symm unbroken.1) (Ne.symm returns.1) (ih unbroken.2 returns.2)

theorem lines_of_isLine (h : IsLine line) : lines line = [line] := by
  obtain ⟨nonempty, unbroken, returns⟩ := h
  induction line with
  | nil => exact absurd rfl nonempty
  | cons c line ih =>
    rw [List.mem_cons, not_or] at unbroken returns
    by_cases last : line = []
    · rw [last, lines.eq_4 c [] (Ne.symm unbroken.1) fun _ _ => nofun]
      rfl
    · exact lines_cons (Ne.symm unbroken.1) (Ne.symm returns.1) (ih last unbroken.2 returns.2)

/-- Lines are read back. -/
theorem lines_joinLines (h : ∀ l ∈ ls, IsLine l) : lines (joinLines ls) = ls := by
  induction ls with
  | nil => rfl
  | cons line ls ih =>
    obtain ⟨first, below⟩ := List.forall_mem_cons.1 h
    cases ls with
    | nil => rw [joinLines_singleton, lines_of_isLine first]
    | cons next ls =>
      rw [joinLines_cons_cons, lines_append_break first.unbroken first.returns, ih below]

/-! ## Line breaks undone -/

theorem unwrap_append (unbroken : '\n' ∉ line) (text : Chars) :
    unwrap (line ++ text) = line ++ unwrap text := by
  induction line with
  | nil => rfl
  | cons c line ih =>
    rw [List.mem_cons, not_or] at unbroken
    rw [List.cons_append, unwrap, if_neg (Ne.symm unbroken.1), ih unbroken.2, List.cons_append]

theorem unwrap_break (text : Chars) :
    unwrap ('\n' :: text) = ' ' :: unwrap (text.dropWhile (· = ' ')) := by
  rw [unwrap, if_pos rfl]

/-- The blanks at the start of a text are those of its first line. -/
theorem dropWhile_joinLines (line : Chars) (ls : List Chars) :
    (joinLines (line :: ls)).dropWhile (· = ' ') = joinLines (unindent line :: ls) := by
  induction line with
  | nil => cases ls <;> rfl
  | cons c line ih =>
    rw [joinLines_cons_char, unindent, List.dropWhile_cons, List.dropWhile_cons]
    split
    · exact ih
    · rw [joinLines_cons_char]

/-- Without its breaks, a text is its first line and what the other lines hold behind their
blanks. -/
theorem unwrap_joinLines (unbroken : ∀ l ∈ line :: ls, '\n' ∉ l) :
    unwrap (joinLines (line :: ls)) = [' '].intercalate (line :: ls.map unindent) := by
  induction ls generalizing line with
  | nil =>
    have alone := unwrap_append (unbroken line List.mem_cons_self) []
    rw [List.append_nil, unwrap, List.append_nil] at alone
    rw [joinLines_singleton, alone, List.map_nil, List.intercalate_singleton]
  | cons next ls ih =>
    obtain ⟨first, below⟩ := List.forall_mem_cons.1 unbroken
    obtain ⟨second, below⟩ := List.forall_mem_cons.1 below
    have inner : '\n' ∉ unindent next := fun mem =>
      second ((List.dropWhile_sublist _).subset mem)
    have more := ih (List.forall_mem_cons.2 ⟨inner, below⟩)
    rw [joinLines_cons_cons, unwrap_append first, unwrap_break, dropWhile_joinLines, more,
      List.map_cons, List.intercalate_cons_cons, List.append_assoc, List.singleton_append]

end Text

namespace Sexp

open Text

/-! ## Lines laid out -/

/-- A text without line breaks, in front of which a blank can be told from it. -/
structure IsPlain (text : Chars) : Prop extends IsLine text where
  unspaced : text.head? ≠ some ' '

instance (text : Chars) : Decidable (IsPlain text) :=
  decidable_of_iff (text ≠ [] ∧ '\n' ∉ text ∧ '\r' ∉ text ∧ text.head? ≠ some ' ')
    ⟨fun ⟨nonempty, unbroken, returns, unspaced⟩ => ⟨⟨nonempty, unbroken, returns⟩, unspaced⟩,
      fun ⟨⟨nonempty, unbroken, returns⟩, unspaced⟩ => ⟨nonempty, unbroken, returns, unspaced⟩⟩

/-- Lines that are a text with breaks in place of some of its blanks, all but the first of them
moved in by any number of columns. -/
structure Laid (flat first : Chars) (below : List Chars) : Prop where
  line : ∀ l ∈ first :: below, IsLine l
  unspaced : first.head? ≠ some ' '
  flat : [' '].intercalate (first :: below.map unindent) = flat

/-- A text that consists of such lines. -/
def LaidOut (flat text : Chars) : Prop :=
  ∃ first below, text = joinLines (first :: below) ∧ Laid flat first below

variable {flat text first : Chars} {below : List Chars}

theorem IsPlain.laidOut (h : IsPlain text) : LaidOut text text :=
  ⟨text, [], (joinLines_singleton text).symm, by simpa using h.toIsLine, h.unspaced,
    List.intercalate_singleton⟩

theorem LaidOut.unwrap_eq (h : LaidOut flat text) : unwrap text = flat := by
  obtain ⟨first, below, rfl, laid⟩ := h
  rw [unwrap_joinLines fun l hl => (laid.line l hl).unbroken, laid.flat]

/-- Without a line break, a text is laid out as it is. -/
theorem LaidOut.eq_of_unbroken (h : LaidOut flat text) (unbroken : '\n' ∉ text) : text = flat := by
  obtain ⟨first, below, rfl, laid⟩ := h
  cases below with
  | nil => exact laid.flat
  | cons next below => simp at unbroken

theorem unindent_of_unspaced (h : text.head? ≠ some ' ') : unindent text = text := by
  cases text with
  | nil => rfl
  | cons c text => exact List.dropWhile_cons_of_neg (by simpa using h)

theorem unindent_concat {c : Char} (h : c ≠ ' ') (line : Chars) :
    unindent (line ++ [c]) = unindent line ++ [c] := by
  have stays : [c].dropWhile (· = ' ') = [c] := List.dropWhile_cons_of_neg (by simpa using h)
  rw [unindent, unindent, List.dropWhile_append, stays]
  split
  · next none => rw [List.isEmpty_iff.1 none, List.nil_append]
  · rfl

theorem unindent_cons (line : Chars) : unindent (' ' :: line) = unindent line :=
  List.dropWhile_cons_of_pos rfl

theorem indent_joinLines {ls : List Chars} (h : ∀ l ∈ ls, IsLine l) :
    indent (joinLines ls) = joinLines (ls.map (' ' :: ·)) := by
  rw [indent, lines_joinLines h]
  congr 1
  exact List.map_congr_left fun l hl => if_neg (h l hl).nonempty

/-! ## Lists laid out -/

/-- Lines of an element that are moved in. -/
theorem Laid.isLine_moved (h : Laid flat first below) :
    ∀ l ∈ first :: below.map (' ' :: ·), IsLine l := by
  obtain ⟨top, more⟩ := List.forall_mem_cons.1 h.line
  refine List.forall_mem_cons.2 ⟨top, fun l hl => ?_⟩
  obtain ⟨k, hk, rfl⟩ := List.mem_map.1 hl
  exact (more k hk).cons (by decide) (by decide)

theorem map_unindent_moved (ls : List Chars) :
    (ls.map (' ' :: ·)).map unindent = ls.map unindent := by
  rw [List.map_map]
  exact List.map_congr_left fun l _ => unindent_cons l

/-- Elements with a line for each of them, moved in, are laid out behind the first blank. -/
theorem laid_indented {flats texts : List Chars} (h : List.Forall₂ LaidOut flats texts)
    (nonempty : flats ≠ []) :
    ∃ first below, joinLines (texts.map indent) = ' ' :: joinLines (first :: below) ∧
      Laid ([' '].intercalate flats) first below := by
  induction h with
  | nil => exact absurd rfl nonempty
  | @cons flat text flats texts head tail ih =>
    obtain ⟨first, below, rfl, laid⟩ := head
    have moved : indent (joinLines (first :: below)) =
        joinLines ((' ' :: first) :: below.map (' ' :: ·)) := indent_joinLines laid.line
    cases tail with
    | nil =>
      refine ⟨first, below.map (' ' :: ·), ?_, laid.isLine_moved, laid.unspaced, ?_⟩
      · rw [List.map_singleton, joinLines_singleton, moved, joinLines_cons_char]
      · rw [map_unindent_moved, laid.flat, List.intercalate_singleton]
    | @cons flat' text' flats texts head tail =>
      obtain ⟨second, others, eq, more⟩ := ih (List.cons_ne_nil flat' flats)
      refine ⟨first, below.map (' ' :: ·) ++ (' ' :: second) :: others, ?_, ?_, laid.unspaced, ?_⟩
      · rw [List.map_cons, List.map_cons, joinLines_cons_cons, ← List.map_cons, eq, moved,
          ← joinLines_cons_char, ← joinLines_append (List.cons_ne_nil _ _) (List.cons_ne_nil _ _),
          List.cons_append, joinLines_cons_char]
      · obtain ⟨top, rest⟩ := List.forall_mem_cons.1 more.line
        rw [← List.cons_append]
        refine List.forall_mem_append.2 ⟨laid.isLine_moved, List.forall_mem_cons.2 ⟨?_, rest⟩⟩
        exact top.cons (by decide) (by decide)
      · rw [List.map_append, map_unindent_moved, List.map_cons, unindent_cons,
          unindent_of_unspaced more.unspaced, ← List.cons_append,
          intercalate_append _ (List.cons_ne_nil _ _) (List.cons_ne_nil _ _), laid.flat, more.flat,
          List.intercalate_cons_cons]

/-- Parentheses around lines stand in front of the first and behind the last one. -/
theorem Laid.enclosed (h : Laid flat first below) :
    LaidOut ('(' :: (flat ++ [')'])) ('(' :: (joinLines (first :: below) ++ [')'])) := by
  obtain ⟨line, -, rfl⟩ := h
  obtain ⟨top, more⟩ := List.forall_mem_cons.1 line
  have opened : IsLine ('(' :: first) := top.cons (by decide) (by decide)
  rcases List.eq_nil_or_concat below with rfl | ⟨upper, last, rfl⟩
  · refine ⟨'(' :: (first ++ [')']), [], ?_, ?_, by simp, ?_⟩
    · simp
    · simpa using opened.concat (c := ')') (by decide) (by decide)
    · simp
  · rw [List.concat_eq_append] at more ⊢
    obtain ⟨inner, closing⟩ := List.forall_mem_append.1 more
    refine ⟨'(' :: first, upper ++ [last ++ [')']], ?_, ?_, by simp, ?_⟩
    · rw [joinLines_cons_char]
      exact congrArg ('(' :: ·) (intercalate_concat_append ['\n'] (first :: upper) last [')'])
    · refine List.forall_mem_cons.2 ⟨opened, List.forall_mem_append.2 ⟨inner, ?_⟩⟩
      simpa using (closing last (by simp)).concat (c := ')') (by decide) (by decide)
    · have back := intercalate_concat_append [' '] (first :: upper.map unindent) (unindent last)
        [')']
      rw [intercalate_cons_first, List.map_append, List.map_append, List.map_singleton,
        List.map_singleton, unindent_concat (by decide)]
      exact congrArg ('(' :: ·) back.symm

/-- Elements with a line for each of them are the list, laid out. -/
theorem laid_onManyLines {flats texts : List Chars} (h : List.Forall₂ LaidOut flats texts)
    (nonempty : flats ≠ []) :
    ∃ text, onManyLines? texts = some text ∧ LaidOut (onOneLine flats) text := by
  obtain ⟨first, below, eq, laid⟩ := laid_indented h nonempty
  refine ⟨'(' :: (joinLines (first :: below) ++ [')']), ?_, laid.enclosed⟩
  rw [onManyLines?, eq]

/-! ## S-expressions on one line -/

mutual
/-- An s-expression on one line, however long that is. -/
def oneLine : Sexp → Chars
  | .int value => (toString value.toInt).toList
  | .atom text => text
  | .list elements => onOneLine (allOneLine elements)

/-- S-expressions on one line each. -/
def allOneLine : List Sexp → List Chars
  | [] => []
  | e :: es => oneLine e :: allOneLine es
end

/-- Induction on an s-expression and all that stands in it. -/
@[elab_as_elim]
theorem induct {motive : Sexp → Prop} (int : ∀ value, motive (.int value))
    (atom : ∀ text, motive (.atom text))
    (list : ∀ es, (∀ e ∈ es, motive e) → motive (.list es)) : ∀ e, motive e
  | .int value => int value
  | .atom text => atom text
  | .list es => list es fun e _ => induct int atom list e

/-- All atoms of an s-expression are plain texts. -/
def AllPlain (e : Sexp) : Prop := ∀ depth text, At depth e (.atom text) → IsPlain text

theorem allPlain_int (value : Int64) : AllPlain (.int value) := nofun

theorem allPlain_atom {text : Chars} : AllPlain (.atom text) ↔ IsPlain text := by
  refine ⟨fun h => h 0 text (.top _), fun h => ?_⟩
  rintro _ _ (_ | _)
  exact h

theorem allPlain_list {es : List Sexp} : AllPlain (.list es) ↔ ∀ e ∈ es, AllPlain e := by
  refine ⟨fun h e he depth text found => h (depth + 1) text (.inside he found), fun h => ?_⟩
  rintro _ text (_ | ⟨he, found⟩)
  exact h _ he _ text found

theorem allOneLine_eq_map (es : List Sexp) : allOneLine es = es.map oneLine := by
  induction es with
  | nil => rfl
  | cons e es ih => rw [allOneLine, ih, List.map_cons]

/-- A number is written with digits and a minus sign. -/
theorem isPlain_int (value : Int64) : IsPlain (oneLine (.int value)) := by
  have digit : ∀ n : Nat, ∀ c ∈ Nat.toDigits 10 n, c.isDigit := fun n c mem =>
    Nat.isDigit_of_mem_toDigits (by decide) (by decide) mem
  have other {c : Char} (hc : c.isDigit ∨ c = '-') {d : Char} (hd : ¬ (d.isDigit ∨ d = '-')) :
      c ≠ d := fun eq => hd (eq ▸ hc)
  have written : oneLine (.int value) ≠ [] ∧
      ∀ c ∈ oneLine (.int value), c.isDigit ∨ c = '-' := by
    rw [oneLine, Int.toString_eq_repr]
    cases value.toInt with
    | ofNat n =>
      rw [Int.repr, Nat.toList_repr]
      exact ⟨Nat.toDigits_ne_nil, fun c mem => .inl (digit n c mem)⟩
    | negSucc n =>
      rw [Int.repr, String.toList_append, Nat.toList_repr]
      refine ⟨List.cons_ne_nil _ _, fun c mem => ?_⟩
      rcases List.mem_cons.1 mem with rfl | mem
      · exact .inr rfl
      · exact .inl (digit _ c mem)
  obtain ⟨nonempty, chars⟩ := written
  refine ⟨⟨nonempty, fun mem => ?_, fun mem => ?_⟩, fun head => ?_⟩
  · exact other (chars _ mem) (by decide) rfl
  · exact other (chars _ mem) (by decide) rfl
  · exact other (chars _ (List.mem_of_head? head)) (by decide) rfl

theorem isPlain_onOneLine {texts : List Chars} (h : ∀ text ∈ texts, IsPlain text) :
    IsPlain (onOneLine texts) := by
  have newline : '\n' ∉ [' '].intercalate texts :=
    notMem_intercalate (by decide) fun text mem => (h text mem).unbroken
  have returns : '\r' ∉ [' '].intercalate texts :=
    notMem_intercalate (by decide) fun text mem => (h text mem).returns
  exact ⟨⟨List.cons_ne_nil _ _, by simpa [onOneLine] using newline,
    by simpa [onOneLine] using returns⟩, by simp [onOneLine]⟩

/-- An s-expression on one line has no line break in it. -/
theorem isPlain_oneLine {e : Sexp} (h : AllPlain e) : IsPlain e.oneLine := by
  induction e using induct with
  | int value => exact isPlain_int value
  | atom text => exact allPlain_atom.1 h
  | list es ih =>
    rw [oneLine, allOneLine_eq_map]
    refine isPlain_onOneLine fun text mem => ?_
    obtain ⟨e, he, rfl⟩ := List.mem_map.1 mem
    exact ih e he (allPlain_list.1 h e he)

/-! ## What fits -/

theorem byteSize_onOneLine {texts : List Chars} (h : texts ≠ []) :
    byteSize (onOneLine texts) = texts.length + 1 + byteSize texts.flatten := by
  have size := byteSize_intercalate h
  have left : Char.utf8Size '(' = 1 := rfl
  have right : Char.utf8Size ')' = 1 := rfl
  simp only [onOneLine, byteSize_cons, byteSize_append, byteSize_nil, left, right]
  omega

theorem breaks_iff {width : Nat} {texts : List Chars} :
    breaks width texts ↔
      texts ≠ [] ∧ ((∃ text ∈ texts, '\n' ∈ text) ∨ width < flatLength texts) := by
  simp [breaks]

/-- Elements without line breaks that fit into the width stay on one line. -/
theorem layout?_of_fits {width : Nat} {texts : List Chars} (unbroken : ∀ text ∈ texts, '\n' ∉ text)
    (fits : byteSize (onOneLine texts) ≤ width) : layout? width texts = some (onOneLine texts) := by
  refine if_neg fun breaks => ?_
  obtain ⟨nonempty, ⟨text, mem, broken⟩ | wide⟩ := breaks_iff.1 breaks
  · exact unbroken text mem broken
  · rw [byteSize_onOneLine nonempty] at fits
    rw [flatLength] at wide
    omega

theorem byteSize_le_of_mem {text : Chars} {texts : List Chars} (h : text ∈ texts) :
    byteSize text + 2 ≤ byteSize (onOneLine texts) := by
  obtain ⟨front, back, rfl⟩ := List.append_of_mem h
  rw [byteSize_onOneLine (List.append_ne_nil_of_right_ne_nil _ (List.cons_ne_nil _ _))]
  simp only [List.length_append, List.length_cons, List.flatten_append, List.flatten_cons,
    byteSize_append]
  omega

theorem prettyAll?_eq_some {width : Nat} {es : List Sexp}
    (h : ∀ e ∈ es, e.pretty? width = some e.oneLine) :
    prettyAll? width es = some (es.map oneLine) := by
  induction es with
  | nil => rfl
  | cons e es ih =>
    obtain ⟨head, tail⟩ := List.forall_mem_cons.1 h
    rw [prettyAll?, head, Option.bind_some, ih tail, Option.map_some, List.map_cons]

/-- What fits into the width stands on one line. -/
theorem pretty?_of_fits {e : Sexp} {width : Nat} (plain : AllPlain e)
    (fits : byteSize e.oneLine ≤ width) : e.pretty? width = some e.oneLine := by
  induction e using induct generalizing width with
  | int value => rfl
  | atom text => rfl
  | list es ih =>
    rw [oneLine, allOneLine_eq_map] at fits ⊢
    have inner : prettyAll? (max width 2 - 2) es = some (es.map oneLine) := by
      refine prettyAll?_eq_some fun e he => ih e he (allPlain_list.1 plain e he) ?_
      have shorter := byteSize_le_of_mem (List.mem_map_of_mem (f := oneLine) he)
      omega
    rw [pretty?, inner, Option.bind_some]
    refine layout?_of_fits (fun text mem => ?_) fits
    obtain ⟨e, he, rfl⟩ := List.mem_map.1 mem
    exact (isPlain_oneLine (allPlain_list.1 plain e he)).unbroken

/-! ## What is broken up -/

theorem exists_prettyAll? {width : Nat} {es : List Sexp}
    (h : ∀ e ∈ es, ∃ text, e.pretty? width = some text ∧ LaidOut e.oneLine text) :
    ∃ texts, prettyAll? width es = some texts ∧ List.Forall₂ LaidOut (es.map oneLine) texts := by
  induction es with
  | nil => exact ⟨[], rfl, .nil⟩
  | cons e es ih =>
    obtain ⟨⟨text, pretty, laid⟩, tail⟩ := List.forall_mem_cons.1 h
    obtain ⟨texts, all, more⟩ := ih tail
    refine ⟨text :: texts, ?_, .cons laid more⟩
    rw [prettyAll?, pretty, Option.bind_some, all, Option.map_some]

theorem eq_of_unbroken {flats texts : List Chars} (h : List.Forall₂ LaidOut flats texts)
    (unbroken : ∀ text ∈ texts, '\n' ∉ text) : texts = flats := by
  induction h with
  | nil => rfl
  | cons head _ ih =>
    obtain ⟨first, more⟩ := List.forall_mem_cons.1 unbroken
    rw [head.eq_of_unbroken first, ih more]

/-- Elements that are laid out make up the list, laid out, whether or not it is broken up. -/
theorem laid_layout? {width : Nat} {flats texts : List Chars}
    (h : List.Forall₂ LaidOut flats texts) (plain : ∀ flat ∈ flats, IsPlain flat) :
    ∃ text, layout? width texts = some text ∧ LaidOut (onOneLine flats) text := by
  unfold layout?
  split
  · next breaks =>
    refine laid_onManyLines h fun none => (breaks_iff.1 breaks).1 ?_
    rw [none] at h
    exact List.forall₂_nil_left_iff.1 h
  · next fits =>
    have unbroken : ∀ text ∈ texts, '\n' ∉ text := fun text mem broken =>
      fits (breaks_iff.2 ⟨List.ne_nil_of_mem mem, .inl ⟨text, mem, broken⟩⟩)
    obtain rfl := eq_of_unbroken h unbroken
    exact ⟨_, rfl, (isPlain_onOneLine plain).laidOut⟩

/-- Whatever the width is, there is a layout, and it is the s-expression, laid out. -/
theorem laid_pretty? {e : Sexp} (plain : AllPlain e) (width : Nat) :
    ∃ text, e.pretty? width = some text ∧ LaidOut e.oneLine text := by
  induction e using induct generalizing width with
  | int value => exact ⟨_, rfl, (isPlain_int value).laidOut⟩
  | atom text => exact ⟨text, rfl, (allPlain_atom.1 plain).laidOut⟩
  | list es ih =>
    have plain := allPlain_list.1 plain
    obtain ⟨texts, all, laid⟩ :=
      exists_prettyAll? fun e he => ih e he (plain e he) (max width 2 - 2)
    rw [pretty?, all, Option.bind_some, oneLine, allOneLine_eq_map]
    refine laid_layout? laid fun flat mem => ?_
    obtain ⟨e, he, rfl⟩ := List.mem_map.1 mem
    exact isPlain_oneLine (plain e he)

/-- Layouts of an s-expression, none of whose atoms is empty, holds a line break, or starts with a
blank. Within every width there is one, and with a blank for every line break and the blanks behind
it, it is the layout on one line. That one has no line break in it, and is the layout within every
width that it fits into. All this holds if the text on one line is not longer than the greatest
width, however deep the lists in it are. -/
theorem unwrap_pretty? (e : Sexp) (plain : e.AllPlain) (short : byteSize e.oneLine ≤ maxWidth)
    (width : Nat) :
    ∃ text, e.pretty? width = some text ∧ e.flat? = some e.oneLine ∧ unwrap text = e.oneLine ∧
      '\n' ∉ e.oneLine ∧ (byteSize e.oneLine ≤ width → text = e.oneLine) := by
  obtain ⟨text, pretty, laid⟩ := laid_pretty? plain width
  refine ⟨text, pretty, pretty?_of_fits plain short, laid.unwrap_eq,
    (isPlain_oneLine plain).unbroken, fun fits => ?_⟩
  exact Option.some.inj (pretty.symm.trans (pretty?_of_fits plain fits))

/-- A call in a block. -/
def callInBlock : Sexp :=
  tagged "block" [tagged "call" [.atom "print".toList,
    .list [.atom "\"hello world\"".toList, .int (-1)]], .list []]

/-- Twelve columns are not enough for the arguments, so all lists around them are broken up. -/
theorem unwrap_pretty?_callInBlock :
    callInBlock.AllPlain ∧ byteSize callInBlock.oneLine ≤ maxWidth ∧
    ∃ text, callInBlock.pretty? 12 = some text ∧
      text = "(block\n (call\n  print\n  (\"hello world\"\n   -1))\n ())".toList ∧
      callInBlock.flat? = some callInBlock.oneLine ∧ unwrap text = callInBlock.oneLine ∧
      '\n' ∉ callInBlock.oneLine ∧
      (byteSize callInBlock.oneLine ≤ 12 → text = callInBlock.oneLine) := by
  have plain : callInBlock.AllPlain := by
    simp only [callInBlock, tagged, allPlain_list, allPlain_atom, allPlain_int,
      List.forall_mem_cons, List.not_mem_nil, false_imp_iff, implies_true]
    decide
  have short : byteSize callInBlock.oneLine ≤ maxWidth := by decide +kernel
  have lines : callInBlock.pretty? 12 =
      some "(block\n (call\n  print\n  (\"hello world\"\n   -1))\n ())".toList := by
    decide +kernel
  obtain ⟨text, pretty, rest⟩ := unwrap_pretty? callInBlock plain short 12
  exact ⟨plain, short, text, pretty, Option.some.inj (pretty.symm.trans lines), rest⟩

end Sexp

end LuaFront
