import LuaFront.Doc.Ty
import LuaFront.Proofs.Quoting
import LuaFront.Proofs.Tags

/-!
# Reading types back

A reader for the texts of types. It goes by the first character of a type. What begins with a word
is told apart by the character behind the word. Brackets behind a type make arrays of it, and bars
separate the alternatives of a union (`Reading.ty`).

* `Reading.separated_intercalate`, `Reading.closed_commas`: lists are read back if their items are.
* `Reading.starts_of_mem_name`: how names start, and which characters are in them.
-/

namespace LuaFront.Doc

open Text

/-! ## Readers -/

/-- What is read at the start of a text, and what is left of the text. -/
abbrev Reading (α : Type) := Chars → Option (α × Chars)

namespace Reading

variable {α : Type}

/-- Items with a separator between each two of them, up to `n`. There is at least one. -/
def separated (sep : Chars) (item : Reading α) : Nat → Reading (List α)
  | 0, _ => none
  | n + 1, text => (item text).bind fun (x, rest) =>
    match strip? sep rest with
    | none => some ([x], rest)
    | some rest => (separated sep item n rest).map fun (xs, rest) => (x :: xs, rest)

/-- Items with commas between them up to a closing character. There may be none. -/
def closed (close : Char) (item : Reading α) (n : Nat) : Reading (List α) := fun text =>
  match strip? [close] text with
  | some rest => some ([], rest)
  | none => (separated [',', ' '] item n text).bind fun (xs, rest) =>
    (strip? [close] rest).map fun rest => (xs, rest)

def isWordChar (c : Char) : Bool := isNameChar c || c == '.'

/-- The word at the start of a text. -/
def word : Cut := Cut.many isWordChar

/-- The type that a word stands for by itself. -/
def ofWord (w : Chars) : Ty :=
  if w = "nil".toList then .literal .nil
  else if w = "true".toList then .literal (.boolean true)
  else if w = "false".toList then .literal (.boolean false)
  else .named ⟨String.ofList w, {}⟩ false

/-- A type with all brackets behind it. -/
def brackets : Ty → Chars → Ty × Chars
  | t, '[' :: ']' :: text => brackets (.array t) text
  | t, text => (t, text)

section

-- How types within types are read, and a bound on the length of lists.
variable (inner : Reading Ty) (n : Nat)

/-- A type behind a colon. -/
def typed : Reading Ty := fun text => (strip? [':', ' '] text).bind inner

def slot : Reading (Slot Ty) := fun text =>
  let (name, rest) := word text
  (typed inner rest).map fun (t, rest) => (⟨⟨String.ofList name, {}⟩, some t⟩, rest)

def param : Reading (Param Ty) := fun text =>
  let (name, rest) := word text
  let (mark, rest) := Cut.one (· = '?') rest
  (typed inner rest).map fun (t, rest) => (⟨⟨String.ofList name, {}⟩, t, !mark.isEmpty, ""⟩, rest)

def returned : Reading (Return Ty) := fun text =>
  (inner text).map fun (t, rest) => (⟨t, ""⟩, rest)

/-- What stands behind the word and the parenthesis of a function. -/
def function : Reading Ty := fun text =>
  (closed ')' (param inner) n text).bind fun (params, rest) =>
    match strip? [':', ' '] rest with
    | none => some (.function params [] "", rest)
    | some rest => (separated [',', ' '] (returned inner) n rest).map fun (returns, rest) =>
      (.function params returns "", rest)

/-- A type that starts with a word. -/
def worded : Reading Ty := fun text =>
  let (w, rest) := word text
  match rest with
  | '<' :: rest => (closed '>' inner n rest).map fun (args, rest) =>
    (.applied ⟨String.ofList w, {}⟩ args, rest)
  | '(' :: rest => function inner n rest
  | rest => some (ofWord w, rest)

/-- A type without the brackets and bars behind it. An array of what is in parentheses has its own
brackets. -/
def atom : Reading Ty
  | '\x22' :: text => (unquote none text).map fun (s, rest) =>
    (.literal (.string (String.ofList s)), rest)
  | '\x7b' :: text => (closed '\x7d' (slot inner) n text).map fun (fields, rest) =>
    (.table fields, rest)
  | '(' :: text => (inner text).bind fun (t, rest) =>
    (strip? [')', '[', ']'] rest).map fun rest => (.array t, rest)
  | text => worded inner n text

/-- A type without the bars behind it. -/
def tight : Reading Ty := fun text =>
  (atom inner n text).map fun (t, rest) => brackets t rest

end

/-- The union of several types, or the only one. -/
def joined : List Ty → Ty
  | [t] => t
  | ts => .union ts

/-- A type that nests no deeper than `n`, and has no list that is longer. -/
def ty : Nat → Reading Ty
  | 0, _ => none
  | n + 1, text => (separated ['|'] (tight (ty n) n) (n + 1) text).map fun (ts, rest) =>
    (joined ts, rest)

/-! ## Where texts end -/

/-- A text that ends, or goes on with one of the given characters. -/
def Stops (cs : List Char) (text : Chars) : Prop := ∀ c ∈ text.head?, c ∈ cs

/-- What ends a list. -/
def closers : List Char := [')', '>', '\x7d']

/-- What ends a type. -/
def enders : List Char := ',' :: closers

/-- What ends a part of a type that has a meaning by itself. -/
def parters : List Char := '|' :: '[' :: enders

theorem Stops.mono {cs ds : List Char} {text : Chars} (h : Stops cs text) (sub : cs ⊆ ds) :
    Stops ds text := fun c hc => sub (h c hc)

theorem stops_cons {cs : List Char} {c : Char} {text : Chars} : Stops cs (c :: text) ↔ c ∈ cs := by
  simp [Stops]

theorem Stops.not_strip {cs : List Char} {text : Chars} (h : Stops cs text) {c : Char}
    {front : Chars} (out : c ∉ cs) : strip? (c :: front) text = none := by
  rw [Option.eq_none_iff_forall_ne_some]
  rintro rest eq
  rw [strip?_eq_some_iff] at eq
  exact out (h c (by simp [eq]))

theorem Stops.word {cs : List Char} {rest : Chars} (h : Stops cs rest)
    (stops : cs.all (!isWordChar ·)) {w : Chars} (all : ∀ c ∈ w, isWordChar c) :
    word (w ++ rest) = (w, rest) :=
  Cut.many_append all fun c hc => by simpa using List.all_eq_true.1 stops c (h c hc)

/-- Only brackets make arrays. -/
theorem Stops.brackets {cs : List Char} {rest : Chars} (h : Stops cs rest) (out : '[' ∉ cs)
    (t : Ty) : brackets t rest = (t, rest) := by
  rw [Reading.brackets]
  rintro text rfl
  exact out (h '[' rfl)

/-! ## Where texts start -/

/-- A text that does not start like the end of a list. -/
def Opens (text : Chars) : Prop := ∃ c v, text = c :: v ∧ c ∉ closers

theorem Opens.append {text : Chars} (h : Opens text) (more : Chars) : Opens (text ++ more) := by
  obtain ⟨c, v, rfl, out⟩ := h
  exact ⟨c, v ++ more, rfl, out⟩

theorem Opens.not_strip {text : Chars} (h : Opens text) {close : Char} (closer : close ∈ closers) :
    strip? [close] text = none := by
  obtain ⟨c, v, rfl, out⟩ := h
  refine if_neg ?_
  rintro rfl
  exact out closer

theorem opens_intercalate {sep : Chars} {text : α → Chars} {xs : List α} (ne : xs ≠ [])
    (starts : ∀ x ∈ xs, Opens (text x)) : Opens (sep.intercalate (xs.map text)) := by
  obtain ⟨x, xs, rfl⟩ := List.exists_cons_of_ne_nil ne
  have first := starts x List.mem_cons_self
  cases xs with
  | nil =>
    rw [List.map_singleton, List.intercalate_singleton]
    exact first
  | cons y ys =>
    rw [List.map_cons, List.map_cons, List.intercalate_cons_cons, List.append_assoc]
    exact first.append _

/-! ## Lists -/

/-- Items are read back, if each of them is in front of what stands behind it. -/
theorem separated_intercalate {β : Type} {sep : Chars} {item : Reading β} {text : α → Chars}
    {value : α → β} {xs : List α} {rest : Chars} {n : Nat} (ne : xs ≠ []) (bound : xs.length ≤ n)
    (last : strip? sep rest = none)
    (each : ∀ x ∈ xs, ∀ r, r = rest ∨ sep <+: r → item (text x ++ r) = some (value x, r)) :
    separated sep item n (sep.intercalate (xs.map text) ++ rest) = some (xs.map value, rest) := by
  induction n generalizing xs with
  | zero => exact absurd (List.eq_nil_of_length_eq_zero (Nat.le_zero.1 bound)) ne
  | succ n ih =>
    obtain ⟨x, xs, rfl⟩ := List.exists_cons_of_ne_nil ne
    have first := each x List.mem_cons_self
    cases xs with
    | nil =>
      have read := first rest (.inl rfl)
      simp [separated, read, last]
    | cons y ys =>
      have more := ih (List.cons_ne_nil y ys) (Nat.le_of_succ_le_succ bound)
        fun z hz => each z (List.mem_cons_of_mem x hz)
      have split : sep.intercalate ((x :: y :: ys).map text) ++ rest =
          text x ++ (sep ++ (sep.intercalate ((y :: ys).map text) ++ rest)) := by
        simp [List.intercalate_cons_cons]
      rw [split]
      generalize sep.intercalate ((y :: ys).map text) ++ rest = behind at more
      have read := first (sep ++ behind) (.inr (List.prefix_append _ _))
      have found : strip? sep (sep ++ behind) = some behind := strip?_eq_some_iff.2 rfl
      simp only [separated, read, found, more, Option.bind_some, Option.map_some, List.map_cons]

/-- Items up to a closing character are read back, if none of them starts like the end of a list. -/
theorem closed_commas {β : Type} {close : Char} {item : Reading β} {text : α → Chars}
    {value : α → β} {xs : List α} {n : Nat} (bound : xs.length ≤ n) (closer : close ∈ closers)
    (starts : ∀ x ∈ xs, Opens (text x))
    (each : ∀ x ∈ xs, ∀ r, Stops enders r → item (text x ++ r) = some (value x, r))
    (rest : Chars) :
    closed close item n (commas (xs.map text) ++ close :: rest) = some (xs.map value, rest) := by
  have closing (text : Chars) : strip? [close] (close :: text) = some text :=
    strip?_eq_some_iff.2 rfl
  by_cases ne : xs = []
  · subst ne
    have none : commas [] ++ close :: rest = close :: rest := rfl
    simp only [List.map_nil, none, closed, closing]
  · have last : Stops closers (close :: rest) := stops_cons.2 closer
    have unseparated : strip? [',', ' '] (close :: rest) = none := last.not_strip (by decide)
    have read := separated_intercalate ne bound unseparated fun x hx r hr => each x hx r <| by
        obtain rfl | ⟨more, rfl⟩ := hr
        · exact last.mono (List.subset_cons_self _ _)
        · exact stops_cons.2 List.mem_cons_self
    have unclosed : strip? [close] (commas (xs.map text) ++ close :: rest) = none :=
      ((opens_intercalate ne starts).append _).not_strip closer
    rw [closed, unclosed]
    simp only [commas, read, Option.bind_some, closing, Option.map_some]

/-! ## Words -/

theorem mem_name_of_pattern {w : Chars} (h : Rule.name.pattern w = some w.length) :
    w ∈ Form.name.language := by
  have found := Rule.makes_name.finds w
  rw [h] at found
  obtain ⟨⟨v, mem, front, length⟩, -⟩ := found
  exact front.eq_of_length length ▸ mem

/-- A name starts like an identifier, and goes on with the characters of words. -/
theorem starts_of_mem_name {w : Chars} (h : w ∈ Form.name.language) :
    (∀ c ∈ w, isWordChar c) ∧ ∃ c v, w = c :: v ∧ isNameStart c := by
  have tail {v : Chars} (h : v ∈ Rule.tail) : ∀ c ∈ v, isWordChar c := by
    induction v with
    | nil => exact List.forall_mem_nil _
    | cons c v ih =>
      obtain ⟨head, more⟩ := Rule.cons_mem_tail_iff.1 h
      refine List.forall_mem_cons.2 ⟨?_, ih more⟩
      rcases head with head | ⟨rfl, -⟩
      · simp [isWordChar, head]
      · rfl
  rw [Form.name, mul_assoc] at h
  obtain ⟨c, v, rfl, start, more⟩ := Pattern.mem_oneOf_mul.1 h
  refine ⟨List.forall_mem_cons.2 ⟨?_, tail more⟩, c, v, rfl, start⟩
  simp [isWordChar, isNameChar, start]

theorem opens_of_word {w : Chars} (ne : w ≠ []) (all : ∀ c ∈ w, isWordChar c) : Opens w := by
  obtain ⟨c, v, rfl⟩ := List.exists_cons_of_ne_nil ne
  refine ⟨c, v, rfl, fun closer => ?_⟩
  have none : closers.all (!isWordChar ·) := by decide
  simpa [all c List.mem_cons_self] using List.all_eq_true.1 none c closer

end Reading

end LuaFront.Doc
