import LuaFront.Text.Cut

/-!
# Long brackets

A long bracket of level `n` opens with two square brackets around `n` equals signs. What it holds
goes up to the first closing bracket of the same level, over any number of lines.

* `Bracket.eq_of_opening?`: what an opening bracket consists of.
* `Bracket.eq_of_body?`: content, closing bracket and rest make up the text.
-/

namespace LuaFront.Bracket

/-- The opening bracket of a level. -/
def opening (level : Nat) : Chars := '[' :: (List.replicate level '=' ++ ['['])

/-- The closing bracket of a level. -/
def closing (level : Nat) : Chars := ']' :: (List.replicate level '=' ++ [']'])

/-- The level of the bracket that opens a text, and what follows the bracket. -/
def opening? : Chars → Option (Nat × Chars)
  | '[' :: cs => match cs.dropWhile (· = '=') with
    | '[' :: rest => some ((cs.takeWhile (· = '=')).length, rest)
    | _ => none
  | _ => none

/-- The content up to the first closing bracket of the level, and what follows that bracket. -/
def body? (level : Nat) : Chars → Option (Chars × Chars)
  | [] => none
  | c :: cs => match Text.strip? (closing level) (c :: cs) with
    | some rest => some ([], rest)
    | none => (body? level cs).map fun (body, rest) => (c :: body, rest)

theorem takeWhile_equals (cs : Chars) :
    cs.takeWhile (· = '=') = List.replicate (cs.takeWhile (· = '=')).length '=' := by
  rw [List.eq_replicate_iff]
  refine ⟨rfl, fun c hc => ?_⟩
  simpa using List.all_takeWhile (p := (· = '=')) (l := cs) |> List.all_eq_true.1 |> (· c hc)

theorem eq_of_opening? {cs rest : Chars} {level : Nat} (h : opening? cs = some (level, rest)) :
    cs = opening level ++ rest := by
  unfold opening? at h
  split at h
  · rename_i cs
    split at h
    · rename_i r hr
      obtain ⟨rfl, rfl⟩ := by simpa using h
      have := List.takeWhile_append_dropWhile (p := (· = '=')) (l := cs)
      rw [hr, takeWhile_equals] at this
      simpa [opening] using this.symm
    · exact absurd h (by simp)
  · exact absurd h (by simp)

theorem eq_of_body? {level : Nat} {cs body rest : Chars} (h : body? level cs = some (body, rest)) :
    cs = body ++ closing level ++ rest := by
  induction cs generalizing body with
  | nil => simp [body?] at h
  | cons c cs ih =>
    unfold body? at h
    split at h
    · rename_i r hr
      obtain ⟨rfl, rfl⟩ := by simpa using h
      simpa using Text.strip?_eq_some_iff.1 hr
    · obtain ⟨⟨b, r⟩, hb, he⟩ := Option.map_eq_some_iff.1 h
      obtain ⟨rfl, rfl⟩ := by simpa using he
      simp [ih hb]

end LuaFront.Bracket
