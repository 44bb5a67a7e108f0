import LuaFront.Proofs.Spellings
import LuaFront.Proofs.Tiling

/-!
# Where long brackets close

A long string or comment goes up to the first closing bracket of its level in all that is left of
the source, over any number of lines (`Bracket.ClosesFirst`). Whoever reads line by line, keeps no
more of a closing bracket in mind than how many of its equals signs are there already, and never
goes back behind a bracket that turns out to be none, comes to the same (`Bracket.scan`): no closing
bracket starts within the part that was passed over, and none goes over the end of a line.

* `Bracket.body?_eq_some_iff`, `Bracket.body?_eq_none_iff`: what is found is the first closing
  bracket, and nothing is found only if there is none.
* `Bracket.body?_joinLines`: reading line by line, in one pass, finds the same.
* `Source.reads_bracket`: content, cursor and error of every long string and comment of a source.
-/

namespace LuaFront

open Text

namespace Bracket

variable {level : Nat} {text body rest : Chars}

/-! ## The first closing bracket -/

/-- The first closing bracket of a level in a text stands between two parts of it. -/
structure ClosesFirst (level : Nat) (text body rest : Chars) : Prop where
  whole : text = body ++ closing level ++ rest
  first : ∀ front back, text = front ++ closing level ++ back → body.length ≤ front.length

theorem ClosesFirst.of_body? (h : body? level text = some (body, rest)) :
    ClosesFirst level text body rest where
  whole := eq_of_body? h
  first front back eq := by
    refine Nat.le_of_not_lt fun shorter => ?_
    -- A bracket further in front would stand in the content and the bracket behind it.
    have inside : front ++ closing level <+: body ++ closing level := by
      refine List.prefix_of_prefix_length_le ⟨back, eq.symm⟩ ⟨rest, (eq_of_body? h).symm⟩ ?_
      simp only [List.length_append]
      omega
    obtain ⟨more, whole⟩ := inside
    obtain rfl := first_of_body? h whole.symm
    have length := congrArg List.length whole
    simp only [List.append_nil, List.length_append] at length
    omega

theorem body?_eq_some_iff : body? level text = some (body, rest) ↔
    ClosesFirst level text body rest := by
  refine ⟨.of_body?, fun h => ?_⟩
  rw [h.whole]
  refine body?_append (fun front back eq => ?_) rest
  have first := h.first front (back ++ rest) (by rw [h.whole, eq]; simp)
  have length := congrArg List.length eq
  simp only [List.length_append] at length
  exact List.length_eq_zero_iff.1 (by omega)

theorem body?_eq_none_iff : body? level text = none ↔ ¬ closing level <:+: text := by
  refine ⟨not_closing_of_body?, fun none => ?_⟩
  rw [Option.eq_none_iff_forall_ne_some]
  rintro ⟨body, rest⟩ found
  exact none ⟨body, rest, (eq_of_body? found).symm⟩

/-! ## One pass -/

/-- Puts characters in front of the content. -/
def behind (front : Chars) (found : Chars × Chars) : Chars × Chars := (front ++ found.1, found.2)

theorem map_behind_behind (front back : Chars) (found : Option (Chars × Chars)) :
    (found.map (behind back)).map (behind front) = found.map (behind (front ++ back)) := by
  cases found with
  | none => rfl
  | some found => simp [behind]

/-- What is passed over of a closing bracket: nothing, or a square bracket and equals signs. -/
def held : Option Nat → Chars
  | none => []
  | some count => ']' :: List.replicate count '='

/-- Reads one line from left to right, up to the first closing bracket. `candidate` counts the
equals signs behind a square bracket that was just passed over. -/
def pass (level : Nat) : (candidate : Option Nat) → Chars → Option (Chars × Chars)
  | _, [] => none
  | candidate, c :: line =>
    if c = '=' ∧ candidate.any (· < level) then pass level (candidate.map (· + 1)) line
    else if c = ']' ∧ candidate = some level then some ([], line)
    -- The candidate is none, and all of it belongs to the content. Nobody goes back.
    else if c = ']' then (pass level (some 0) line).map (behind (held candidate))
    else (pass level none line).map (behind (held candidate ++ [c]))

/-- Reads line by line up to the first closing bracket: the content, the rest of the line on which
the bracket stands, and the lines below. -/
def scan (level : Nat) (line : Chars) : List Chars → Option (Chars × Chars × List Chars)
  | [] => (pass level none line).map fun (body, rest) => (body, rest, [])
  | next :: below => match pass level none line with
    | some (body, rest) => some (body, rest, next :: below)
    | none => (scan level next below).map fun (body, found) => (line ++ '\n' :: body, found)

theorem body?_cons_of_not_closing {c : Char} (h : ¬ closing level <+: c :: text) :
    body? level (c :: text) = (body? level text).map (behind [c]) := by
  have unfound : strip? (closing level) (c :: text) = none := by
    rw [Option.eq_none_iff_forall_ne_some]
    exact fun rest found => h ⟨rest, (strip?_eq_some_iff.1 found).symm⟩
  rw [body?, unfound]
  rfl

theorem body?_cons_of_ne {c : Char} (h : c ≠ ']') (text : Chars) :
    body? level (c :: text) = (body? level text).map (behind [c]) := by
  refine body?_cons_of_not_closing ?_
  rintro ⟨rest, eq⟩
  exact h (List.cons.inj eq).1.symm

/-- No closing bracket starts with an equals sign. -/
theorem body?_equals (count : Nat) (text : Chars) :
    body? level (List.replicate count '=' ++ text) =
      (body? level text).map (behind (List.replicate count '=')) := by
  induction count with
  | zero => cases h : body? level text <;> simp [behind, h]
  | succ count ih =>
    rw [List.replicate_succ, List.cons_append, body?_cons_of_ne (by decide), ih, map_behind_behind]
    rfl

theorem held_succ (count : Nat) : held (some (count + 1)) = held (some count) ++ ['='] := by
  rw [held, List.replicate_succ', held, List.cons_append]

theorem held_level (level : Nat) : held (some level) ++ [']'] = closing level := rfl

/-- A closing bracket is told from a candidate by the character behind the candidate. -/
theorem not_closing_held {count : Nat} {c : Char} (le : count ≤ level)
    (equals : ¬ (c = '=' ∧ count < level)) (bracket : ¬ (c = ']' ∧ count = level))
    (text : Chars) : ¬ closing level <+: held (some count) ++ c :: text := by
  rintro ⟨rest, eq⟩
  obtain ⟨more, rfl⟩ := Nat.exists_eq_add_of_le le
  simp only [closing, held, ← List.replicate_append_replicate, List.cons_append, List.cons.injEq,
    true_and, List.append_assoc, List.append_cancel_left_eq] at eq
  cases more with
  | zero =>
    obtain ⟨rfl, -⟩ := List.cons.inj eq
    exact bracket ⟨rfl, rfl⟩
  | succ more =>
    obtain ⟨rfl, -⟩ := List.cons.inj eq
    exact equals ⟨rfl, by omega⟩

/-- What was passed over of a candidate that fails is content. -/
theorem body?_held {candidate : Option Nat} {c : Char} (le : ∀ count ∈ candidate, count ≤ level)
    (equals : ¬ (c = '=' ∧ candidate.any (· < level)))
    (bracket : ¬ (c = ']' ∧ candidate = some level)) (text : Chars) :
    body? level (held candidate ++ c :: text) =
      (body? level (c :: text)).map (behind (held candidate)) := by
  cases candidate with
  | none => cases h : body? level (c :: text) <;> simp [held, behind, h]
  | some count =>
    have fails := not_closing_held (le count rfl) (by simpa using equals) (by simpa using bracket)
      text
    rw [held, List.cons_append] at fails ⊢
    rw [body?_cons_of_not_closing fails, body?_equals, map_behind_behind]
    rfl

/-- One pass finds the first closing bracket: none starts within what is passed over. -/
theorem pass_eq_body? {candidate : Option Nat} (le : ∀ count ∈ candidate, count ≤ level)
    (line : Chars) : pass level candidate line = body? level (held candidate ++ line) := by
  induction line generalizing candidate with
  | nil =>
    refine (body?_eq_none_iff.2 fun found => ?_).symm
    have length := found.length_le
    cases candidate with
    | none => simp [held, closing] at length
    | some count =>
      have le := le count rfl
      simp [held, closing] at length
      omega
  | cons c line ih =>
    unfold pass
    split
    · next equals =>
      obtain ⟨rfl, more⟩ := equals
      obtain ⟨count, rfl, lt⟩ := (Option.any_eq_true _ _).1 more
      have lt : count < level := of_decide_eq_true lt
      have passed := @ih (some (count + 1)) (by simpa using Nat.succ_le_of_lt lt)
      rw [held_succ, List.append_assoc] at passed
      exact passed
    split
    · next closes =>
      obtain ⟨rfl, rfl⟩ := closes
      refine (body?_eq_some_iff.2 ⟨?_, fun _ _ _ => Nat.zero_le _⟩).symm
      rw [List.nil_append, ← held_level, List.append_assoc]
      rfl
    next equals bracket =>
    rw [body?_held le equals bracket]
    split
    · next open_ =>
      subst open_
      rw [ih (by simp)]
      rfl
    · next other =>
      rw [@ih none (by simp), body?_cons_of_ne other, map_behind_behind]
      rfl

theorem pass_none (level : Nat) (line : Chars) : pass level none line = body? level line :=
  @pass_eq_body? level none (by simp) line

/-! ## Line by line -/

theorem isInk_closing (level : Nat) : ∀ c ∈ closing level, isInk c := by
  intro c hc
  simp only [closing, List.mem_cons, List.mem_append, List.mem_replicate, List.not_mem_nil,
    or_false] at hc
  rcases hc with rfl | ⟨-, rfl⟩ | rfl <;> decide

/-- No closing bracket goes over the end of a line. -/
theorem body?_break (line text : Chars) :
    body? level (line ++ '\n' :: text) = match body? level line with
      | some (body, rest) => some (body, rest ++ '\n' :: text)
      | none => (body? level text).map (behind (line ++ ['\n'])) := by
  have apart : Apart ('\n' :: text) := by
    rintro c ⟨⟩
    exact .inr rfl
  induction line with
  | nil => exact body?_cons_of_ne (by decide) text
  | cons c line ih =>
    have strip := strip?_append_apart (isInk_closing level) (c :: line) apart
    rw [List.cons_append] at strip ⊢
    rw [body?, body?, strip, ih]
    cases strip? (closing level) (c :: line) with
    | some rest => rfl
    | none =>
      cases body? level line with
      | some found => rfl
      | none => exact map_behind_behind [c] (line ++ ['\n']) (body? level text)

/-- Reading line by line, and never going back, finds the first closing bracket of all lines. -/
theorem body?_joinLines (level : Nat) (line : Chars) (below : List Chars) :
    body? level (joinLines (line :: below)) =
      (scan level line below).map fun (body, rest, below) => (body, joinLines (rest :: below)) := by
  induction below generalizing line with
  | nil =>
    rw [joinLines_singleton, scan, pass_none]
    cases body? level line with
    | none => rfl
    | some found => simp
  | cons next below ih =>
    rw [joinLines_cons_cons, body?_break, scan, pass_none]
    cases body? level line with
    | some found => simp
    | none =>
      dsimp only
      rw [ih]
      cases scan level next below with
      | none => rfl
      | some found => simp [behind]

example : scan 1 "a]=".toList ["]=]=]b".toList, "c".toList] =
    some ("a]=\n".toList, "=]b".toList, ["c".toList]) := by decide +kernel

/-! ## Strings and comments of a source -/

/-- What reading the content of a long bracket comes to, with the text behind its opener: the
content, the text that is left, whether the bracket is closed, where reading stops, and the error
that comes up. -/
inductive Reads (s : Source) (level : Nat) (opener : Location) (text : Chars) :
    (body rest : Chars) → (closed : Bool) → (stop : Position) → Option SyntaxError → Prop
  /-- Reading stops right behind the first closing bracket. -/
  | closed {body rest : Chars} (first : ClosesFirst level text body rest)
      (left : s.slice ⟨opener.stop.after (body ++ closing level), s.endPosition⟩ = rest) :
      Reads s level opener text body rest true (opener.stop.after (body ++ closing level)) none
  /-- Without a closing bracket, reading stops at the end of the source. -/
  | unclosed (never : ¬ closing level <:+: text) :
      Reads s level opener text text [] false s.endPosition
        (some ⟨.unfinishedBracket level opener, s.endLocation⟩)

end Bracket

namespace Source

open LuaFront.Bracket

variable {s : Source}

/-- A part of a line cuts the text of the source. -/
theorem text_of_line {i : Nat} {front part back : Chars} (nonempty : part ≠ [])
    (line : s.line i = front ++ part ++ back) (split : s.IsSplit) :
    s.text = s.above i ++ front ++ part ++ joinLines (back :: s.lines.drop (i + 1)) ∧
      ({} : Position).after (s.above i ++ front) = ⟨i, byteSize front⟩ := by
  have hi : i < s.count := by
    refine Nat.lt_of_not_le fun le => ?_
    have none : s.line i = [] := by
      rw [Source.line, List.getD_eq_getElem?_getD, List.getElem?_eq_none le, Option.getD_none]
    rw [line] at none
    simp [nonempty] at none
  have oneLine : '\n' ∉ front := by
    intro mem
    have eq : s.line i = s.lines[i] := by simp [Source.line, List.getElem?_eq_getElem hi]
    exact split _ (List.getElem_mem hi) (eq ▸ line ▸ by simp [mem])
  refine ⟨?_, ?_⟩
  · rw [text_eq_above_append hi, line]
    cases s.lines.drop (i + 1) <;> simp
  · rw [Position.after_append, after_above split (Nat.le_of_lt hi),
      Position.after_of_not_mem oneLine, Nat.zero_add]

/-- What is found behind an opener in a source, wherever the text in front of it ends. -/
theorem reads_body? (split : s.IsSplit) (level : Nat) (opener : Location) {before text : Chars}
    (whole : s.text = before ++ text) (stop : opener.stop = ({} : Position).after before) :
    (∀ body rest, body? level text = some (body, rest) →
      Reads s level opener text body rest true (opener.stop.after (body ++ closing level)) none) ∧
    (body? level text = none → Reads s level opener text text [] false (opener.stop.after text)
      (some ⟨.unfinishedBracket level opener, .point (opener.stop.after text)⟩)) := by
  refine ⟨fun body rest found => ?_, fun none => ?_⟩
  · refine .closed (.of_body? found) ?_
    rw [stop, ← Position.after_append]
    refine slice_behind split ?_
    rw [whole, eq_of_body? found]
    simp
  · have ends : opener.stop.after text = s.endPosition := by
      rw [stop, ← Position.after_append, ← whole, after_text split]
    rw [ends]
    exact .unclosed (body?_eq_none_iff.1 none)

end Source

namespace Margin

variable {s : Source} {m : Margin} {level : Nat} {before text : Chars}

/-- A long string goes up to its first closing bracket. -/
theorem reads_bracketed (split : s.IsSplit) (hm : m.position = ({} : Position).after before)
    (whole : s.text = before ++ Bracket.opening level ++ text) :
    let (t, rest) := Piece.bracketed (Bracket.opening level ++ text)
    let x := m.lexeme t
    t.kind = .string ∧
      Bracket.Reads s level ⟨m.position, m.position.after (Bracket.opening level)⟩ text t.text rest
        x.token.valid x.token.location.stop x.fault := by
  have reads := Source.reads_body? split level
    ⟨m.position, m.position.after (Bracket.opening level)⟩ whole (by
      rw [hm, ← Position.after_append])
  unfold Piece.bracketed
  simp only [Bracket.opening?_append]
  cases found : Bracket.body? level text with
  | some found' =>
    obtain ⟨body, rest⟩ := found'
    have closed := reads.1 body rest found
    rw [← Position.after_append, ← List.append_assoc] at closed
    exact ⟨rfl, closed⟩
  | none =>
    have unclosed := reads.2 found
    rw [← Position.after_append] at unclosed
    exact ⟨rfl, unclosed⟩

/-- A long comment does so too. -/
theorem reads_comment (split : s.IsSplit) (hm : m.position = ({} : Position).after before)
    (fault : m.fault = none)
    (whole : s.text = before ++ '-' :: '-' :: Bracket.opening level ++ text) :
    ∃ body closed alone rest,
      Piece.comment (Bracket.opening level ++ text) =
        (.blockComment level body closed alone, rest) ∧
      Bracket.Reads s level ⟨m.position, m.position.after ('-' :: '-' :: Bracket.opening level)⟩
        text body rest closed (m.blockComment level body closed alone).position
        (m.blockComment level body closed alone).fault := by
  have reads := Source.reads_body? split level
    ⟨m.position, m.position.after ('-' :: '-' :: Bracket.opening level)⟩ whole (by
      rw [hm, ← Position.after_append])
  unfold Piece.comment
  simp only [Bracket.opening?_append]
  cases found : Bracket.body? level text with
  | some found' =>
    obtain ⟨body, rest⟩ := found'
    refine ⟨body, true, _, rest, rfl, ?_⟩
    have closed := reads.1 body rest found
    rw [← Position.after_append, ← fault] at closed
    simpa [blockComment, Piece.spelling] using closed
  | none =>
    refine ⟨text, false, true, [], rfl, ?_⟩
    have unclosed := reads.2 found
    rw [← Position.after_append] at unclosed
    simpa [blockComment, Piece.spelling, Position.after_append] using unclosed

end Margin

/-- Behind every opening bracket of a source, reading line by line finds the first closing bracket
in all that is left. A string that opens there, and a comment if two dashes stand in front, hold
what stands in front of that closing bracket, stop behind it, and bring up no error. If nothing
closes them, they hold all that is left, stop at the end of the source, and bring up one error
there, which points at the opening bracket. -/
theorem Source.reads_bracket (name : String) (bytes : List UInt8) {i level : Nat}
    {front back : Chars}
    (line : (ofBytes name bytes).line i = front ++ Bracket.opening level ++ back) :
    let s := ofBytes name bytes
    let text := joinLines (back :: s.lines.drop (i + 1))
    Bracket.body? level text = (Bracket.scan level back (s.lines.drop (i + 1))).map
      (fun (body, rest, below) => (body, joinLines (rest :: below))) ∧
    (∀ tokenLine run,
      let m : Margin := ⟨⟨i, byteSize front⟩, tokenLine, run, none⟩
      let (t, rest) := Piece.bracketed (Bracket.opening level ++ text)
      let x := m.lexeme t
      t.kind = .string ∧
        Bracket.Reads s level ⟨m.position, m.position.after (Bracket.opening level)⟩ text t.text
          rest x.token.valid x.token.location.stop x.fault) ∧
    ∀ lead, front = lead ++ ['-', '-'] → ∀ tokenLine run,
      let m : Margin := ⟨⟨i, byteSize lead⟩, tokenLine, run, none⟩
      ∃ body closed alone rest,
        Piece.comment (Bracket.opening level ++ text) =
          (.blockComment level body closed alone, rest) ∧
        Bracket.Reads s level ⟨m.position, m.position.after ('-' :: '-' :: Bracket.opening level)⟩
          text body rest closed (m.blockComment level body closed alone).position
          (m.blockComment level body closed alone).fault := by
  intro s text
  have split : s.IsSplit := isSplit_ofBytes name bytes
  refine ⟨Bracket.body?_joinLines level back _, fun tokenLine run => ?_, ?_⟩
  · obtain ⟨whole, after⟩ := text_of_line (List.cons_ne_nil _ _) line split
    exact Margin.reads_bracketed split after.symm whole
  · rintro lead rfl tokenLine run
    have dashed : s.line i = lead ++ '-' :: '-' :: Bracket.opening level ++ back := by
      rw [line]
      simp
    obtain ⟨whole, after⟩ := text_of_line (List.cons_ne_nil _ _) dashed split
    exact Margin.reads_comment split after.symm rfl whole

/-- A comment of level one, in which `]=` stands at the end of a line and `]` at the start of the
next one. -/
theorem Source.reads_bracket_twoLines :
    let s := ofBytes "" "x --[=[a]=\n]=]=]".toUTF8.toList
    s.line 0 = "x --".toList ++ Bracket.opening 1 ++ "a]=".toList ∧
    Piece.comment (Bracket.opening 1 ++ "a]=\n]=]=]".toList) =
      (.blockComment 1 "a]=\n".toList true false, "=]".toList) ∧
    Bracket.Reads s 1 ⟨⟨0, 2⟩, ⟨0, 7⟩⟩ "a]=\n]=]=]".toList "a]=\n".toList "=]".toList true ⟨1, 3⟩
      none := by
  have line : (ofBytes "" "x --[=[a]=\n]=]=]".toUTF8.toList).line 0 =
      "x --".toList ++ Bracket.opening 1 ++ "a]=".toList := by
    decide +kernel
  have below : (ofBytes "" "x --[=[a]=\n]=]=]".toUTF8.toList).lines.drop 1 = ["]=]=]".toList] := by
    decide +kernel
  have stop : (⟨0, 7⟩ : Position).after ("a]=\n".toList ++ Bracket.closing 1) = ⟨1, 3⟩ := by
    decide +kernel
  have piece : Piece.comment (Bracket.opening 1 ++ "a]=\n]=]=]".toList) =
      (.blockComment 1 "a]=\n".toList true false, "=]".toList) := by
    decide +kernel
  have text : joinLines ["a]=".toList, "]=]=]".toList] = "a]=\n]=]=]".toList := by
    decide +kernel
  refine ⟨line, piece, ?_⟩
  obtain ⟨-, -, comment⟩ := reads_bracket "" "x --[=[a]=\n]=]=]".toUTF8.toList line
  obtain ⟨body, closed, alone, rest, read, reads⟩ := comment "x ".toList rfl none {}
  rw [below, text] at read reads
  rw [piece] at read
  cases read
  cases reads with
  | closed first left =>
    rw [← stop]
    exact .closed first left

end LuaFront
