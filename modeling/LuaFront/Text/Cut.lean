import LuaFront.Text.Class

/-!
# Cutting texts

A `Cut` splits a text into a front part and the rest. The cuts made here are lossless: front and
rest make up the text (`Cut.Lossless`). `Text.strip?` takes a given front off a text.
-/

namespace LuaFront

/-- The text behind the given front, if it starts with it. -/
def Text.strip? : Chars → Chars → Option Chars
  | [], text => some text
  | _ :: _, [] => none
  | f :: front, c :: text => if f = c then strip? front text else none

theorem Text.strip?_eq_some_iff {front text rest : Chars} :
    strip? front text = some rest ↔ text = front ++ rest := by
  induction front generalizing text with
  | nil => simp [strip?]
  | cons f front ih =>
    cases text with
    | nil => simp [strip?]
    | cons c text =>
      by_cases h : f = c
      · simp [strip?, h, ih]
      · simp [strip?, h, Ne.symm h]

/-- A way to split a text into a front part and the rest. -/
abbrev Cut := Chars → Chars × Chars

namespace Cut

/-- Whether front and rest always make up the text. -/
def Lossless (f : Cut) : Prop := ∀ text, (f text).1 ++ (f text).2 = text

/-- Cuts off all characters up to the first that is not in the class. -/
def many (p : Char → Bool) : Cut := fun text => (text.takeWhile p, text.dropWhile p)

/-- Cuts off one character if it is in the class. -/
def one (p : Char → Bool) : Cut
  | [] => ([], [])
  | c :: text => if p c then ([c], text) else ([], c :: text)

/-- Cuts twice, and takes both fronts together. -/
def andThen (f g : Cut) : Cut := fun text =>
  let (front, rest) := f text
  let (more, rest) := g rest
  (front ++ more, rest)

/-- Cuts off one character of the class and what `f` cuts off behind it, or nothing. -/
def led (p : Char → Bool) (f : Cut) : Cut
  | [] => ([], [])
  | c :: text => if p c then (c :: (f text).1, (f text).2) else ([], c :: text)

theorem lossless_many (p : Char → Bool) : (many p).Lossless :=
  fun _ => List.takeWhile_append_dropWhile

theorem lossless_one (p : Char → Bool) : (one p).Lossless
  | [] => rfl
  | c :: text => by simp only [one]; split <;> rfl

theorem Lossless.andThen {f g : Cut} (hf : f.Lossless) (hg : g.Lossless) :
    (f.andThen g).Lossless := fun text => by
  have h := hf text
  have k := hg (f text).2
  simp only [Cut.andThen]
  rw [List.append_assoc, k, h]

theorem Lossless.led {f : Cut} (p : Char → Bool) (hf : f.Lossless) : (led p f).Lossless
  | [] => rfl
  | c :: text => by
    simp only [Cut.led]
    split
    · simp [hf text]
    · rfl

/-! ## Cuts in front of a text -/

section

variable {p : Char → Bool} {f g : Cut} {text u v more rest : Chars} {c : Char}

theorem many_of_neg (h : ∀ c ∈ rest.head?, ¬ p c) : many p rest = ([], rest) := by
  cases rest with
  | nil => rfl
  | cons c rest =>
    exact Prod.ext (List.takeWhile_cons_of_neg (h c rfl)) (List.dropWhile_cons_of_neg (h c rfl))

theorem many_append (all : ∀ c ∈ u, p c) (stops : ∀ c ∈ rest.head?, ¬ p c) :
    many p (u ++ rest) = (u, rest) := by
  obtain ⟨none, whole⟩ := Prod.mk.inj (many_of_neg stops)
  rw [many, List.takeWhile_append_of_pos all, List.dropWhile_append_of_pos all, none, whole,
    List.append_nil]

theorem many_of_all (h : ∀ c ∈ text, p c) : many p text = (text, []) := by
  have cut := @many_append p text [] h nofun
  rwa [List.append_nil] at cut

theorem one_of_neg (h : ∀ c ∈ rest.head?, ¬ p c) : one p rest = ([], rest) := by
  cases rest with
  | nil => rfl
  | cons c rest => exact if_neg (h c rfl)

theorem led_of_pos (h : p c) (hf : f (u ++ rest) = (u, rest)) :
    led p f (c :: u ++ rest) = (c :: u, rest) := by
  simp only [led, List.cons_append, h, if_true, hf]

theorem led_of_neg (h : ∀ c ∈ rest.head?, ¬ p c) : led p f rest = ([], rest) := by
  cases rest with
  | nil => rfl
  | cons c rest => exact if_neg (h c rfl)

theorem andThen_eq (hf : f text = (u, more)) (hg : g more = (v, rest)) :
    f.andThen g text = (u ++ v, rest) := by
  simp only [andThen, hf, hg]

end

/-! ## Cuts that take something -/

theorem many_ne_nil {p : Char → Bool} {c : Char} (h : p c) (text : Chars) :
    (many p (c :: text)).1 ≠ [] := by simp [many, h]

/-- What is cut off last takes the first character if nothing before it does. -/
theorem Lossless.andThen_many_ne_nil {f : Cut} (hf : f.Lossless) {p : Char → Bool} {c : Char}
    (h : p c) (text : Chars) : (f.andThen (many p) (c :: text)).1 ≠ [] := by
  have hl := hf (c :: text)
  simp only [Cut.andThen]
  cases hfront : (f (c :: text)).1 with
  | cons => simp
  | nil =>
    rw [hfront, List.nil_append] at hl
    simpa [hl] using many_ne_nil h text

end Cut

end LuaFront
