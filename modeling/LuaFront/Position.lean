/-!
# Positions and locations

A `Position` is a point of a text, a `Location` a half-open range between two of them. This module
holds both types, the order of positions, how a position moves over characters, and the smallest
location that covers two others.

* `Position.after_append`: moving over a text in two steps or in one leads to the same place.
* `Position.le_after`: reading on never moves a position back.
* `Location.contains_cover_left`, `Location.contains_cover_right`: a cover contains both its parts.
-/

namespace LuaFront

/-- A point of a text: zero-based line, and zero-based byte column within that line. -/
structure Position where
  line : Nat := 0
  column : Nat := 0
deriving DecidableEq, Repr, Inhabited

namespace Position

/-- Positions are ordered by line, positions of one line by column. -/
instance : LE Position :=
  ⟨fun p q => p.line < q.line ∨ p.line = q.line ∧ p.column ≤ q.column⟩

instance : LT Position :=
  ⟨fun p q => p.line < q.line ∨ p.line = q.line ∧ p.column < q.column⟩

theorem le_def (p q : Position) :
    p ≤ q ↔ p.line < q.line ∨ p.line = q.line ∧ p.column ≤ q.column := Iff.rfl

theorem lt_def (p q : Position) :
    p < q ↔ p.line < q.line ∨ p.line = q.line ∧ p.column < q.column := Iff.rfl

instance (p q : Position) : Decidable (p ≤ q) := decidable_of_iff' _ (le_def p q)

instance (p q : Position) : Decidable (p < q) := decidable_of_iff' _ (lt_def p q)

theorem le_refl (p : Position) : p ≤ p := by simp [le_def]

theorem le_trans {p q r : Position} (h : p ≤ q) (k : q ≤ r) : p ≤ r := by
  simp only [le_def] at *; omega

theorem le_total (p q : Position) : p ≤ q ∨ q ≤ p := by
  simp only [le_def]; omega

theorem le_antisymm {p q : Position} (h : p ≤ q) (k : q ≤ p) : p = q := by
  obtain ⟨l, c⟩ := p
  obtain ⟨l', c'⟩ := q
  simp only [le_def, mk.injEq] at *
  omega

/-- The earlier of two positions. -/
def earlier (p q : Position) : Position := if p ≤ q then p else q

/-- The later of two positions. -/
def later (p q : Position) : Position := if p ≤ q then q else p

theorem earlier_le_left (p q : Position) : p.earlier q ≤ p := by
  unfold earlier; split
  · exact le_refl p
  · exact (le_total p q).resolve_left (by assumption)

theorem earlier_le_right (p q : Position) : p.earlier q ≤ q := by
  unfold earlier; split
  · assumption
  · exact le_refl q

theorem le_later_left (p q : Position) : p ≤ p.later q := by
  unfold later; split
  · assumption
  · exact le_refl p

theorem le_later_right (p q : Position) : q ≤ p.later q := by
  unfold later; split
  · exact le_refl q
  · exact (le_total p q).resolve_left (by assumption)

/-- A position is written `line:column`. -/
protected def toString (p : Position) : String := toString p.line ++ ":" ++ toString p.column

/-- The position behind a character: a line break starts the next line, and every other character
takes as many columns as it has bytes. -/
def advance (p : Position) (c : Char) : Position :=
  if c = '\n' then ⟨p.line + 1, 0⟩ else ⟨p.line, p.column + c.utf8Size⟩

/-- The position behind a text that starts here. -/
def after (p : Position) (text : List Char) : Position := text.foldl advance p

@[simp] theorem after_nil (p : Position) : p.after [] = p := rfl

@[simp] theorem after_cons (p : Position) (c : Char) (text : List Char) :
    p.after (c :: text) = (p.advance c).after text := rfl

theorem after_append (p : Position) (s t : List Char) : p.after (s ++ t) = (p.after s).after t := by
  simp [after]

theorem lt_advance (p : Position) (c : Char) : p < p.advance c := by
  have := c.utf8Size_pos
  unfold advance; split <;> simp [lt_def]; omega

theorem le_advance (p : Position) (c : Char) : p ≤ p.advance c := by
  have := lt_advance p c
  simp only [le_def, lt_def] at *; omega

theorem le_after (p : Position) (text : List Char) : p ≤ p.after text := by
  induction text generalizing p with
  | nil => exact le_refl p
  | cons c text ih => exact le_trans (le_advance p c) (ih _)

end Position

/-- The half-open range from `start` up to `stop`. Nothing forbids `stop` to come first. -/
structure Location where
  start : Position := {}
  stop : Position := {}
deriving DecidableEq, Repr, Inhabited

namespace Location

/-- The empty location at a position. -/
def point (p : Position) : Location := ⟨p, p⟩

def isEmpty (l : Location) : Bool := l.start = l.stop

/-- Whether `m` lies completely inside `l`. -/
def contains (l m : Location) : Bool := l.start ≤ m.start && m.stop ≤ l.stop

theorem contains_iff (l m : Location) : l.contains m ↔ l.start ≤ m.start ∧ m.stop ≤ l.stop := by
  simp [contains]

/-- The smallest location that covers both. -/
def cover (l m : Location) : Location := ⟨l.start.earlier m.start, l.stop.later m.stop⟩

/-- The smallest location that covers `l` and, if there is one, `m`. -/
def cover? (l : Location) (m : Option Location) : Location := m.elim l l.cover

/-- The smallest location that covers `l` and all of `ms`. -/
def coverAll (l : Location) (ms : List Location) : Location := ms.foldl cover l

theorem contains_cover_left (l m : Location) : (l.cover m).contains l := by
  simp [contains_iff, cover, Position.earlier_le_left, Position.le_later_left]

theorem contains_cover_right (l m : Location) : (l.cover m).contains m := by
  simp [contains_iff, cover, Position.earlier_le_right, Position.le_later_right]

/-- A location is written `start-stop`. -/
protected def toString (l : Location) : String := l.start.toString ++ "-" ++ l.stop.toString

end Location

end LuaFront
