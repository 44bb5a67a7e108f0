import LuaFront.Text.Pattern
import Mathlib.Computability.Language

/-!
# Patterns and regular languages

A pattern `Finds` a language if it takes the longest front of a text that is in the language, and
fails if there is none. Repetitions and optional parts take as much as they can, and never give any
of it back. They find the longest front all the same if what stands behind them starts in another
way.

* `Pattern.Longest.step`: what is found of a text, from what is found of it without its first
  character.
* `Pattern.Finds.many_andThen`: a repetition in front of something else.
* `Pattern.Finds.optional_andThen`: an optional part in front of something else.
-/

namespace LuaFront

open scoped Computability

namespace Pattern

/-- The longest front of a text that is in a language, by its length. -/
def Longest (l : Language Char) (text : Chars) : Option Nat → Prop
  | none => ∀ w ∈ l, ¬ w <+: text
  | some n => (∃ w ∈ l, w <+: text ∧ w.length = n) ∧ ∀ w ∈ l, w <+: text → w.length ≤ n

/-- A pattern takes the longest front of a text that is in a language. -/
def Finds (f : Pattern) (l : Language Char) : Prop := ∀ text, Longest l text (f text)

/-- The texts of one character of a class. -/
def oneOf (p : Char → Bool) : Language Char := {w | ∃ c, p c ∧ w = [c]}

variable {f g : Pattern} {l m : Language Char} {p q : Char → Bool} {c : Char} {w text : Chars}

/-! ## Languages -/

theorem mem_oneOf_mul : w ∈ oneOf p * m ↔ ∃ c v, w = c :: v ∧ p c ∧ v ∈ m := by
  constructor
  · rintro ⟨_, ⟨c, hc, rfl⟩, v, hv, rfl⟩
    exact ⟨c, v, rfl, hc, hv⟩
  · rintro ⟨c, v, rfl, hc, hv⟩
    exact ⟨[c], ⟨c, hc, rfl⟩, v, hv, rfl⟩

theorem cons_mem_oneOf_mul : c :: w ∈ oneOf p * m ↔ p c ∧ w ∈ m := by
  rw [mem_oneOf_mul]
  constructor
  · rintro ⟨_, _, eq, hc, hw⟩
    obtain ⟨rfl, rfl⟩ := List.cons.inj eq
    exact ⟨hc, hw⟩
  · rintro ⟨hc, hw⟩
    exact ⟨c, w, rfl, hc, hw⟩

theorem nil_notMem_oneOf_mul : [] ∉ oneOf p * m := by
  rw [mem_oneOf_mul]
  rintro ⟨_, _, eq, -⟩
  exact nomatch eq

/-- Every text of a language that is not empty starts with a character of a class. -/
def Starts (p : Char → Bool) (l : Language Char) : Prop := ∀ c w, c :: w ∈ l → p c

theorem starts_oneOf_mul (p : Char → Bool) (l : Language Char) : Starts p (oneOf p * l) :=
  fun _ _ h => (cons_mem_oneOf_mul.1 h).1

theorem Starts.optional (h : Starts p l) : Starts p (1 + l) := by
  rintro c w (eq | hw)
  · exact nomatch eq
  · exact h c w hw

theorem Starts.mul (hl : Starts p l) (hm : Starts p m) : Starts p (l * m) := by
  rintro c w ⟨u, hu, v, hv, eq⟩
  cases u with
  | nil =>
    obtain rfl : v = c :: w := eq
    exact hm c w hv
  | cons d u =>
    obtain ⟨rfl, -⟩ := List.cons.inj eq
    exact hl d u hu

theorem Starts.mono (h : Starts p l) (imp : ∀ c, p c → q c) : Starts q l :=
  fun c w hw => imp c (h c w hw)

/-! ## Patterns that find languages -/

theorem finds_literal (word : Chars) : (literal word).Finds {word} := by
  intro text
  unfold literal
  split
  · next h =>
    refine ⟨⟨word, rfl, List.isPrefixOf_iff_prefix.1 h, rfl⟩, ?_⟩
    rintro _ rfl -
    exact Nat.le_refl _
  · next h =>
    rintro _ rfl front
    exact h (List.isPrefixOf_iff_prefix.2 front)

theorem andThen_char_of_pos (hc : p c) (g : Pattern) (text : Chars) :
    (char p).andThen g (c :: text) = (g text).map (1 + ·) := by
  simp [andThen, char, hc]

theorem andThen_char_of_neg (hc : ¬ p c) (g : Pattern) (text : Chars) :
    (char p).andThen g (c :: text) = none := by
  simp [andThen, char, hc]

/-- A character in front of a text makes what is found of it longer by one. -/
theorem Longest.step {n : Option Nat} (nil : [] ∉ l) (same : ∀ w, c :: w ∈ l ↔ w ∈ m)
    (h : Longest m text n) : Longest l (c :: text) (n.map (1 + ·)) := by
  -- A front of the whole text is such a character in front of a front of the rest.
  have inner (w : Chars) (hw : w ∈ l) (front : w <+: c :: text) :
      ∃ v ∈ m, v <+: text ∧ w.length = v.length + 1 := by
    cases w with
    | nil => exact absurd hw nil
    | cons d v =>
      obtain ⟨rfl, more⟩ := List.cons_prefix_cons.1 front
      exact ⟨v, (same v).1 hw, more, rfl⟩
  cases n with
  | none =>
    intro w hw front
    obtain ⟨v, hv, front, -⟩ := inner w hw front
    exact h v hv front
  | some n =>
    obtain ⟨⟨v, hv, front, rfl⟩, most⟩ := h
    refine ⟨⟨c :: v, (same v).2 hv, List.cons_prefix_cons.2 ⟨rfl, front⟩, Nat.add_comm ..⟩, ?_⟩
    intro w hw front
    obtain ⟨u, hu, front, length⟩ := inner w hw front
    have le := most u hu front
    show w.length ≤ 1 + v.length
    omega

theorem Longest.cons {n : Option Nat} (hc : p c) (h : Longest m text n) :
    Longest (oneOf p * m) (c :: text) (n.map (1 + ·)) :=
  h.step nil_notMem_oneOf_mul fun w => by simp [cons_mem_oneOf_mul, hc]

/-- One character, and then what another pattern finds. -/
theorem Finds.char_andThen (hg : g.Finds m) : ((char p).andThen g).Finds (oneOf p * m) := by
  intro text
  cases text with
  | nil =>
    rintro w hw front
    obtain rfl := List.prefix_nil.1 front
    exact nil_notMem_oneOf_mul hw
  | cons c text =>
    by_cases hc : p c
    · rw [andThen_char_of_pos hc]
      exact (hg text).cons hc
    · rw [andThen_char_of_neg hc]
      rintro w hw front
      obtain ⟨d, v, rfl, hd, -⟩ := mem_oneOf_mul.1 hw
      obtain ⟨rfl, -⟩ := List.cons_prefix_cons.1 front
      exact hc hd

theorem andThen_assoc (f g h : Pattern) :
    (f.andThen g).andThen h = f.andThen (g.andThen h) := by
  funext text
  simp only [andThen]
  cases f text with
  | none => rfl
  | some n =>
    simp only [Option.bind_some]
    cases g (text.drop n) with
    | none => rfl
    | some k =>
      simp only [Option.map_some, Option.bind_some, List.drop_drop, Option.map_map]
      congr 1
      funext i
      exact Nat.add_assoc n k i

/-- Further texts in a language change nothing if no front of the text is among them, but for the
empty one. -/
theorem Longest.widen {n : Option Nat} (h : Longest l text n) (sub : ∀ w ∈ l, w ∈ m)
    (more : ∀ w ∈ m, w <+: text → w ∈ l ∨ w = [] ∧ n ≠ none) : Longest m text n := by
  cases n with
  | none =>
    intro w hw front
    rcases more w hw front with hw | ⟨-, some⟩
    · exact h w hw front
    · exact some rfl
  | some n =>
    obtain ⟨⟨v, hv, front, length⟩, most⟩ := h
    refine ⟨⟨v, sub v hv, front, length⟩, ?_⟩
    intro w hw front
    rcases more w hw front with hw | ⟨rfl, -⟩
    · exact most w hw front
    · exact Nat.zero_le n

theorem star_mul (l m : Language Char) : l∗ * m = m + l * (l∗ * m) := by
  conv_lhs => rw [← Language.one_add_self_mul_kstar_eq_kstar, add_mul, one_mul, mul_assoc]

theorem andThen_many_of_pos (hc : p c) (g : Pattern) (text : Chars) :
    (many p).andThen g (c :: text) = ((many p).andThen g text).map (1 + ·) := by
  simp only [andThen, many, Option.bind_some, List.takeWhile_cons_of_pos hc, List.length_cons,
    List.drop_succ_cons, Option.map_map]
  congr 1
  funext i
  exact (Nat.add_right_comm _ 1 i).trans (Nat.add_comm ..)

theorem andThen_many_of_stops (hc : ∀ c ∈ text.head?, ¬ p c) (g : Pattern) :
    (many p).andThen g text = g text := by
  have stop : text.takeWhile p = [] := by
    cases text with
    | nil => rfl
    | cons c text => exact List.takeWhile_cons_of_neg (hc c rfl)
  simp [andThen, many, stop]

/-- All characters of a class, and then what another pattern finds, if that never starts with a
character of the class. -/
theorem Finds.many_andThen (hg : g.Finds m) (apart : Starts (fun c => !p c) m) :
    ((many p).andThen g).Finds ((oneOf p)∗ * m) := by
  have stops (text : Chars) (hc : ∀ c ∈ text.head?, ¬ p c) :
      Longest ((oneOf p)∗ * m) text ((many p).andThen g text) := by
    rw [andThen_many_of_stops hc, star_mul]
    refine (hg text).widen (fun w hw => .inl hw) ?_
    rintro w (hw | hw) front
    · exact .inl hw
    · obtain ⟨c, v, rfl, first, -⟩ := mem_oneOf_mul.1 hw
      obtain ⟨rest, rfl⟩ := front
      exact absurd first (hc c rfl)
  intro text
  induction text with
  | nil => exact stops [] nofun
  | cons c text ih =>
    by_cases hc : p c
    · rw [andThen_many_of_pos hc, star_mul]
      refine (ih.cons hc).widen (fun w hw => .inr hw) ?_
      rintro w (hw | hw) front
      · cases w with
        | nil =>
          refine .inr ⟨rfl, fun none => ?_⟩
          rw [Option.map_eq_none_iff.1 none] at ih
          exact ih [] ⟨[], Language.nil_mem_kstar _, [], hw, rfl⟩ List.nil_prefix
        | cons d w =>
          obtain ⟨rfl, -⟩ := List.cons_prefix_cons.1 front
          exact absurd hc (by simpa using apart d w hw)
      · exact .inl hw
    · exact stops (c :: text) (by rintro _ ⟨⟩; exact hc)

/-- A part that may be missing, and then what another pattern finds, if the two start with different
characters. -/
theorem Finds.optional_andThen (hf : f.Finds l) (hfg : (f.andThen g).Finds (l * m))
    (hg : g.Finds m) (first : ∀ c text, f (c :: text) ≠ none → p c)
    (apart : Starts (fun c => !p c) m) : (f.optional.andThen g).Finds ((1 + l) * m) := by
  intro text
  have found := hf text
  rw [add_mul, one_mul]
  cases h : f text with
  | none =>
    have missing : (f.optional.andThen g) text = g text := by simp [andThen, Pattern.optional, h]
    rw [h] at found
    rw [missing]
    refine (hg text).widen (fun w hw => .inl hw) ?_
    rintro w (hw | ⟨u, hu, v, -, rfl⟩) front
    · exact .inl hw
    · exact absurd ((List.prefix_append u v).trans front) (found u hu)
  | some n =>
    have present : (f.optional.andThen g) text = (f.andThen g) text := by
      simp [andThen, Pattern.optional, h]
    rw [h] at found
    rw [present]
    refine (hfg text).widen (fun w hw => .inr hw) ?_
    rintro w (hw | hw) front
    · cases w with
      | nil =>
        refine .inr ⟨rfl, fun none => ?_⟩
        -- What the first part finds would do alone.
        obtain ⟨⟨u, hu, front, -⟩, -⟩ := found
        have whole := hfg text
        rw [none] at whole
        exact whole u ⟨u, hu, [], hw, List.append_nil u⟩ front
      | cons c w =>
        obtain ⟨rest, rfl⟩ := front
        have other := first c (w ++ rest) (by
          rw [← List.cons_append, h]
          exact Option.some_ne_none n)
        exact absurd other (by simpa using apart c w hw)
    · exact .inl hw

theorem finds_nothing : Finds (fun _ => some 0) 1 := by
  intro text
  refine ⟨⟨[], rfl, List.nil_prefix, rfl⟩, ?_⟩
  rintro _ rfl -
  exact Nat.le_refl _

theorem andThen_nothing (f : Pattern) : f.andThen (fun _ => some 0) = f := by
  funext text
  simp [andThen]

theorem finds_char (p : Char → Bool) : (char p).Finds (oneOf p) := by
  have found := @Finds.char_andThen _ _ p finds_nothing
  rwa [mul_one, andThen_nothing] at found

theorem finds_many (p : Char → Bool) : (many p).Finds (oneOf p)∗ := by
  have found := @Finds.many_andThen _ _ p finds_nothing (fun _ _ h => nomatch h)
  rwa [mul_one, andThen_nothing] at found

theorem finds_many1 (p : Char → Bool) : (many1 p).Finds (oneOf p * (oneOf p)∗) :=
  (finds_many p).char_andThen

theorem Finds.optional (hf : f.Finds l) : f.optional.Finds (1 + l) := by
  intro text
  have found := hf text
  unfold Pattern.optional
  cases h : f text with
  | none =>
    rw [h] at found
    refine ⟨⟨[], .inl rfl, List.nil_prefix, rfl⟩, ?_⟩
    rintro w (rfl | hw) front
    · exact Nat.le_refl _
    · exact absurd front (found w hw)
  | some n =>
    rw [h] at found
    refine found.widen (fun w hw => .inr hw) ?_
    rintro w (rfl | hw) -
    · exact .inr ⟨rfl, nofun⟩
    · exact .inl hw

/-- A character that may be missing, and then what another pattern finds. -/
theorem Finds.optional_char_andThen (hg : g.Finds m) (apart : Starts (fun c => !p c) m) :
    ((char p).optional.andThen g).Finds ((1 + oneOf p) * m) := by
  refine (finds_char p).optional_andThen hg.char_andThen hg (fun c text found => ?_) apart
  by_contra hc
  exact found (by simp [char, hc])

/-- A character with a run of others, or nothing, and then what another pattern finds. -/
theorem Finds.optional_led_andThen (hg : g.Finds m) (apart : Starts (fun c => !p c) m)
    (apart' : Starts (fun c => !q c) m) :
    (((char q).andThen (many p)).optional.andThen g).Finds
      ((1 + oneOf q * (oneOf p)∗) * m) := by
  have led : (((char q).andThen (many p)).andThen g).Finds (oneOf q * (oneOf p)∗ * m) := by
    rw [andThen_assoc, mul_assoc]
    exact (hg.many_andThen apart).char_andThen
  refine (finds_many p).char_andThen.optional_andThen led hg (fun c text found => ?_) apart'
  by_contra hc
  exact found (andThen_char_of_neg hc _ text)

/-- A run of characters of a class, and then what another pattern finds. -/
theorem Finds.many1_andThen (hg : g.Finds m) (apart : Starts (fun c => !p c) m) :
    ((many1 p).andThen g).Finds (oneOf p * (oneOf p)∗ * m) := by
  rw [many1, andThen_assoc, mul_assoc]
  exact (hg.many_andThen apart).char_andThen

end Pattern

end LuaFront
