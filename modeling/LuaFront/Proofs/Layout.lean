import LuaFront.Report

/-!
# Trees that cannot be laid out

A list that gets a line for each element has no layout if nothing stands on these lines. This is so
for a list of a single atom that is empty, and only where such a list is wider than the width that
is left at its depth. A missing name is an empty atom, so programs with a missing name can have no
layout, if it stands alone in a list of names that is nested deeply.

* `Sexp.pretty?_eq_none_iff`: the s-expressions without a layout within a width.
* `Tool.report?_tree_eq_none_iff`: the sources whose tree cannot be shown.
* `Tool.report?_tree_missingName`: such a source.
-/

namespace LuaFront

namespace Text

theorem joinLines_eq_nil_iff {ls : List Chars} : joinLines ls = [] ↔ ls = [] ∨ ls = [[]] := by
  cases ls with
  | nil => simp
  | cons l ls => cases ls <;> simp

theorem lines_eq_nil_iff {text : Chars} : lines text = [] ↔ text = [] := by
  fun_cases lines text <;> simp_all

end Text

namespace Sexp

/-- The second s-expression stands in the first one, inside as many lists as the number tells. -/
inductive At : Nat → Sexp → Sexp → Prop
  | top (e : Sexp) : At 0 e e
  | inside {depth : Nat} {es : List Sexp} {e x : Sexp} :
      e ∈ es → At depth e x → At (depth + 1) (.list es) x

/-- A text that is empty, or a single line break. -/
def IsBlank (text : Chars) : Prop := text = [] ∨ text = ['\n'] ∨ text = ['\r', '\n']

/-- Blank texts are those of which nothing is left when they are moved in. -/
theorem indent_eq_nil_iff {text : Chars} : indent text = [] ↔ IsBlank text := by
  rw [indent, Text.joinLines_eq_nil_iff, List.map_eq_nil_iff, Text.lines_eq_nil_iff, IsBlank]
  refine or_congr_right ?_
  rw [List.map_eq_singleton_iff]
  fun_cases Text.lines text <;> simp_all [Text.lines_eq_nil_iff]

theorem IsBlank.not_cons {c : Char} {text : Chars} (hn : c ≠ '\n') (hr : c ≠ '\r') :
    ¬IsBlank (c :: text) := by
  rintro (h | h | h) <;> simp_all

/-! ## Lists -/

theorem onManyLines?_eq_none_iff {elements : List Chars} :
    onManyLines? elements = none ↔ elements = [] ∨ ∃ text, elements = [text] ∧ IsBlank text := by
  have iff : onManyLines? elements = none ↔ Text.joinLines (elements.map indent) = [] := by
    unfold onManyLines?
    split <;> simp_all
  simp [iff, Text.joinLines_eq_nil_iff, List.map_eq_singleton_iff, indent_eq_nil_iff]

/-- A list of one blank text is too wide where the width is below two, or the text is a break. -/
theorem breaks_singleton {text : Chars} (h : IsBlank text) (width : Nat) :
    breaks width [text] ↔ text ≠ [] ∨ width < 2 := by
  rcases h with rfl | rfl | rfl <;> simp [breaks, flatLength, maxWidth, UInt64.size]

theorem layout?_eq_none_iff {width : Nat} {elements : List Chars} :
    layout? width elements = none ↔
      ∃ text, elements = [text] ∧ IsBlank text ∧ (text ≠ [] ∨ width < 2) := by
  unfold layout?
  split
  · next wide =>
    rw [onManyLines?_eq_none_iff]
    constructor
    · rintro (rfl | ⟨text, rfl, blank⟩)
      · exact absurd wide (by simp [breaks])
      · exact ⟨text, rfl, blank, (breaks_singleton blank width).1 wide⟩
    · rintro ⟨text, rfl, blank, -⟩
      exact .inr ⟨text, rfl, blank⟩
  · next fits =>
    refine ⟨nofun, ?_⟩
    rintro ⟨text, rfl, blank, wide⟩
    exact absurd ((breaks_singleton blank width).2 wide) fits

theorem prettyAll?_eq_none_iff {width : Nat} {es : List Sexp} :
    prettyAll? width es = none ↔ ∃ e ∈ es, e.pretty? width = none := by
  induction es with
  | nil => simp [prettyAll?]
  | cons e es ih =>
    simp only [prettyAll?, List.mem_cons, exists_eq_or_imp, ← ih]
    cases e.pretty? width <;> cases prettyAll? width es <;> simp

theorem length_of_prettyAll? {width : Nat} {es : List Sexp} {texts : List Chars}
    (h : prettyAll? width es = some texts) : texts.length = es.length := by
  induction es generalizing texts with
  | nil =>
    obtain rfl := Option.some.inj h
    rfl
  | cons e es ih =>
    obtain ⟨text, -, h⟩ := Option.bind_eq_some_iff.1 h
    obtain ⟨texts, all, rfl⟩ := Option.map_eq_some_iff.1 h
    simp [ih all]

theorem prettyAll?_eq_singleton_iff {width : Nat} {es : List Sexp} {text : Chars} :
    prettyAll? width es = some [text] ↔ ∃ e, es = [e] ∧ e.pretty? width = some text := by
  constructor
  · intro h
    obtain ⟨e, rfl⟩ := List.length_eq_one_iff.1 (length_of_prettyAll? h).symm
    obtain ⟨one, he, h⟩ := Option.bind_eq_some_iff.1 h
    obtain rfl : one = text := by simpa [prettyAll?] using h
    exact ⟨e, rfl, he⟩
  · rintro ⟨e, rfl, h⟩
    simp [prettyAll?, h]

/-! ## Whole s-expressions -/

theorem not_isBlank_of_pretty?_list {width : Nat} {es : List Sexp} {text : Chars}
    (h : (list es).pretty? width = some text) : ¬IsBlank text := by
  have starts : ∃ rest, text = '(' :: rest := by
    obtain ⟨elements, -, h⟩ := Option.bind_eq_some_iff.1 h
    unfold layout? at h
    split at h
    · unfold onManyLines? at h
      split at h
      · exact nomatch h
      · exact ⟨_, (Option.some.inj h).symm⟩
    · exact ⟨_, (Option.some.inj h).symm⟩
  obtain ⟨rest, rfl⟩ := starts
  exact IsBlank.not_cons (by decide) (by decide)

theorem not_isBlank_of_pretty?_int {width : Nat} {value : Int64} {text : Chars}
    (h : (int value).pretty? width = some text) : ¬IsBlank text := by
  obtain rfl := Option.some.inj h
  rw [Int.toString_eq_repr]
  cases value.toInt with
  | negSucc n =>
    rw [Int.repr, String.toList_append]
    exact IsBlank.not_cons (by decide) (by decide)
  | ofNat n =>
    rw [Int.repr, Nat.toList_repr]
    cases digits : Nat.toDigits 10 n with
    | nil => exact absurd digits Nat.toDigits_ne_nil
    | cons c cs =>
      have digit : c.isDigit = true :=
        Nat.isDigit_of_mem_toDigits (by decide) (by decide) (digits ▸ List.mem_cons_self)
      refine IsBlank.not_cons ?_ ?_
      · rintro rfl
        exact absurd digit (by decide)
      · rintro rfl
        exact absurd digit (by decide)

/-- An s-expression has no layout within a width if and only if a list of one blank atom stands so
deep in it that less than two columns are left, or this atom is a line break. -/
theorem pretty?_eq_none_iff (width : Nat) : ∀ e : Sexp, e.pretty? width = none ↔
    ∃ depth text, At depth e (list [atom text]) ∧ IsBlank text ∧
      (text ≠ [] ∨ width < 2 * depth + 2)
  | int value => by
    refine ⟨nofun, ?_⟩
    rintro ⟨depth, text, ⟨⟩, -⟩
  | atom value => by
    refine ⟨nofun, ?_⟩
    rintro ⟨depth, text, ⟨⟩, -⟩
  | list es => by
    have inside (e : Sexp) (he : e ∈ es) := pretty?_eq_none_iff (max width 2 - 2) e
    rw [pretty?]
    constructor
    · intro h
      cases all : prettyAll? (max width 2 - 2) es with
      | none =>
        obtain ⟨e, he, none⟩ := prettyAll?_eq_none_iff.1 all
        obtain ⟨depth, text, at', blank, wide⟩ := (inside e he).1 none
        exact ⟨depth + 1, text, .inside he at', blank, wide.imp_right fun lt => by omega⟩
      | some texts =>
        rw [all, Option.bind_some] at h
        obtain ⟨text, rfl, blank, wide⟩ := layout?_eq_none_iff.1 h
        obtain ⟨e, rfl, one⟩ := prettyAll?_eq_singleton_iff.1 all
        cases e with
        | int value => exact absurd blank (not_isBlank_of_pretty?_int one)
        | list es => exact absurd blank (not_isBlank_of_pretty?_list one)
        | atom value =>
          obtain rfl := Option.some.inj one
          exact ⟨0, value, .top _, blank, wide⟩
    · rintro ⟨depth, text, at', blank, wide⟩
      cases at' with
      | top =>
        rw [prettyAll?, pretty?, Option.bind_some, prettyAll?, Option.map_some, Option.bind_some]
        exact layout?_eq_none_iff.2 ⟨text, rfl, blank, wide⟩
      | @inside depth _ e _ he at' =>
        have none : prettyAll? (max width 2 - 2) es = none := by
          refine prettyAll?_eq_none_iff.2 ⟨e, he, (inside e he).2 ⟨depth, text, at', blank, ?_⟩⟩
          exact wide.imp_right fun lt => by omega
        rw [none, Option.bind_none]
  termination_by e => sizeOf e
  decreasing_by
    have := List.sizeOf_lt_of_mem he
    simp only [list.sizeOf_spec]
    omega

end Sexp

namespace Tool

/-- A tree cannot be shown if and only if a list of one blank atom stands fifty lists deep in its
dump, or this atom is a line break. -/
theorem report?_tree_eq_none_iff (limit : Nat) (name : String) (bytes : List UInt8) :
    tree.report? limit name (some bytes) = none ↔
      ∃ b ∈ ((Source.ofBytes name bytes).program limit).tree, ∃ depth text,
        Sexp.At depth b.toSexp (.list [.atom text]) ∧ Sexp.IsBlank text ∧
          (text ≠ [] ∨ 50 ≤ depth) := by
  rw [report?, Option.map_eq_none_iff, output?]
  cases ((Source.ofBytes name bytes).program limit).tree with
  | none => simp
  | some b =>
    have deep (depth : Nat) : treeWidth < 2 * depth + 2 ↔ 50 ≤ depth := by
      unfold treeWidth
      omega
    simp [Sexp.pretty?_eq_none_iff, deep]

/-- A declaration without a name, inside as many blocks as the number tells. -/
def missingName (blocks : Nat) : Chars :=
  (List.replicate blocks "do ".toList).flatten ++ "local = 1\n".toList ++
    (List.replicate blocks "end ".toList).flatten

/-- With 24 blocks around it, a missing name stands alone in a list that is fifty lists deep, and
the tree, though there is one, cannot be shown. -/
theorem report?_tree_missingName :
    ((Source.ofBytes "" (String.ofList (missingName 24)).toUTF8.toList).program 30).tree.isSome ∧
      tree.report? 30 "" (some (String.ofList (missingName 24)).toUTF8.toList) = none := by
  have run :
      ((Source.ofBytes "" (String.ofList (missingName 24)).toUTF8.toList).program 30).tree.map
        (·.toSexp.pretty? treeWidth) = some none := by
    decide +kernel
  obtain ⟨b, h, fails⟩ := Option.map_eq_some_iff.1 run
  refine ⟨by rw [h]; rfl, ?_⟩
  rw [report?, Option.map_eq_none_iff, output?, h]
  show (b.toSexp.pretty? treeWidth).map ownLine = none
  rw [fails, Option.map_none]

end Tool

end LuaFront
