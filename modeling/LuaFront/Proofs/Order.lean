import LuaFront.Proofs.Lexemes
import Mathlib.Data.List.Chain
import Mathlib.Order.Defs.LinearOrder
import Mathlib.Tactic.Order

/-!
# Tokens stand in order

Positions are linearly ordered, and the tokens of a source follow one another in this order. The
end of input stands behind all of them, and stays there when reading asks for more.

* `Source.after_text`: the end of a source is where its text leads to.
* `State.ordered_ofSource`: the tokens of the bytes of a file are in order.
* `Steps.start_le`, `Steps.stop_le`: the current token never moves back.
-/

namespace LuaFront

instance : LinearOrder Position where
  le_refl := Position.le_refl
  le_trans _ _ _ := Position.le_trans
  le_antisymm _ _ := Position.le_antisymm
  le_total := Position.le_total
  lt_iff_le_not_ge p q := by
    simp only [Position.le_def, Position.lt_def]
    omega
  toDecidableLE := inferInstance
  min := Position.earlier
  max := Position.later
  min_def _ _ := rfl
  max_def _ _ := rfl

/-! ## The end of a source -/

namespace Position

theorem after_of_not_mem {text : Chars} (h : '\n' ∉ text) (p : Position) :
    p.after text = ⟨p.line, p.column + Text.byteSize text⟩ := by
  induction text generalizing p with
  | nil => rfl
  | cons c text ih =>
    have hc : c ≠ '\n' := fun eq => h (eq ▸ List.mem_cons_self)
    rw [after_cons, ih fun mem => h (List.mem_cons_of_mem c mem), advance, if_neg hc]
    simp [Nat.add_assoc]

theorem after_joinLines {line : Chars} {ls : List Chars} (h : ∀ l ∈ line :: ls, '\n' ∉ l)
    (n : Nat) :
    (⟨n, 0⟩ : Position).after (Text.joinLines (line :: ls)) =
      ⟨n + ls.length, Text.byteSize ((line :: ls).getLast (List.cons_ne_nil _ _))⟩ := by
  induction ls generalizing line n with
  | nil =>
    rw [Text.joinLines_singleton, after_of_not_mem (h line List.mem_cons_self)]
    simp
  | cons next ls ih =>
    rw [Text.joinLines_cons_cons, after_append, after_of_not_mem (h line List.mem_cons_self),
      after_cons, advance, if_pos rfl, ih fun l hl => h l (List.mem_cons_of_mem line hl)]
    simp [Nat.add_assoc, Nat.add_comm 1]

end Position

namespace Source

/-- No line holds a line break. -/
def IsSplit (s : Source) : Prop := ∀ l ∈ s.lines, '\n' ∉ l

theorem isSplit_splitLines (text : Chars) : ∀ l ∈ Text.splitLines text, '\n' ∉ l := by
  induction text with
  | nil => simp [Text.splitLines]
  | cons c text ih =>
    unfold Text.splitLines
    split
    · intro l hl
      rcases List.mem_cons.1 hl with rfl | hl
      · exact List.not_mem_nil
      · exact ih l hl
    · next hc =>
      split
      · intro l hl
        obtain rfl := List.mem_singleton.1 hl
        simpa using Ne.symm hc
      · next first ls eq =>
        rw [eq] at ih
        intro l hl
        rcases List.mem_cons.1 hl with rfl | hl
        · simpa [Ne.symm hc] using ih first List.mem_cons_self
        · exact ih l (List.mem_cons_of_mem first hl)

theorem isSplit_ofBytes (name : String) (bytes : List UInt8) : (ofBytes name bytes).IsSplit := by
  unfold ofBytes
  split
  · exact fun l hl => nomatch hl
  · intro l hl
    have all := isSplit_splitLines (Text.decode ((withoutMark bytes).filter (· != 0x0D)))
    unfold blankDirective at hl
    split at hl
    · next ls eq =>
      rw [eq] at all
      rcases List.mem_cons.1 hl with rfl | hl
      · exact List.not_mem_nil
      · exact all l (List.mem_cons_of_mem _ hl)
    · exact all l hl

/-- The end of a source is where its text leads to. -/
theorem after_text {s : Source} (h : s.IsSplit) : ({} : Position).after s.text = s.endPosition := by
  obtain ⟨name, lines⟩ := s
  cases lines with
  | nil => rfl
  | cons line ls =>
    show (⟨0, 0⟩ : Position).after (Text.joinLines (line :: ls)) = _
    rw [Position.after_joinLines h]
    simp [endPosition, count, Source.line, List.getLast_eq_getElem]

end Source

/-! ## Lexemes in order -/

/-- One token ends before another one starts. -/
def Token.Precedes (t u : Token) : Prop :=
  t.location.start ≤ t.location.stop ∧ t.location.stop ≤ u.location.start

/-- The tokens of pieces follow one another behind any token in front of them. -/
theorem Lexeme.isChain_ofPieces {m : Margin} {ps : List Piece} {t final : Token}
    (ht : t.location.start ≤ t.location.stop) (hm : t.location.stop ≤ m.position)
    (hf : final.location.start = m.position.after (ps.flatMap Piece.spelling)) :
    (t :: ((ofPieces m ps).map (·.token) ++ [final])).IsChain Token.Precedes := by
  induction ps generalizing m t with
  | nil =>
    refine .cons_cons ⟨ht, hm⟩ (.cons_cons ⟨le_refl _, ?_⟩ (.singleton _))
    rw [hf]
    exact le_refl _
  | cons p ps ih =>
    rw [List.flatMap_cons, Position.after_append] at hf
    cases p with
    | space c => exact ih ht (le_trans hm (Position.le_advance _ c)) hf
    | lineComment text => exact ih ht (le_trans hm (Position.le_after _ _)) hf
    | blockComment level text closed alone =>
      exact ih ht (le_trans hm (Position.le_after _ _)) hf
    | token l =>
      refine .cons_cons ⟨ht, hm⟩ (ih (m := m.token l) ?_ (le_refl _) hf)
      exact Position.le_after m.position l.spelling

namespace Parse

namespace State

/-- All tokens ahead follow one another, and so does the end of input. -/
structure Ordered (s : State) : Prop where
  chain : (s.ahead ++ [s.stream.final.token]).IsChain Token.Precedes
  final : s.stream.final.token.Precedes s.stream.final.token

variable {s : State}

theorem Ordered.current_precedes (h : s.Ordered) : s.current.Precedes s.advanced.current := by
  have chain := h.chain
  cases hs : s.stream.upcoming with
  | nil =>
    rw [ahead, hs] at chain
    rw [current_advanced_nil hs]
    exact (List.isChain_cons_cons.1 chain).1
  | cons x xs =>
    rw [ahead, hs] at chain
    rw [current_advanced_cons hs]
    exact (List.isChain_cons_cons.1 chain).1

theorem Ordered.start_le_stop (h : s.Ordered) :
    s.current.location.start ≤ s.current.location.stop := h.current_precedes.1

theorem Ordered.advanced (h : s.Ordered) : s.advanced.Ordered := by
  refine ⟨?_, by rw [final_advanced]; exact h.final⟩
  rw [final_advanced]
  have chain := h.chain
  cases hs : s.stream.upcoming with
  | nil =>
    rw [ahead_advanced_nil hs]
    exact .cons_cons h.final (.singleton _)
  | cons x xs =>
    rw [ahead_advanced_cons hs] at chain
    exact chain.tail

theorem ordered_ofSource {source : Source} (h : source.IsSplit) (limit : Nat) :
    (ofSource source limit).Ordered := by
  refine ⟨?_, ?_⟩
  · rw [ahead_ofSource, final_ofSource]
    refine (Lexeme.isChain_ofPieces (t := ⟨.eof, "", .point {}, true⟩) (m := {}) (le_refl _)
      (le_refl _) ?_).tail
    rw [Piece.flatMap_spelling_ofText, source.after_text h]
    rfl
  · rw [final_ofSource]
    exact ⟨le_refl _, le_refl _⟩

end State

variable {s s' : State}

theorem Step.ordered (h : Step s s') (hs : s.Ordered) : s'.Ordered := by
  cases h with
  | report place => exact ⟨hs.chain, hs.final⟩
  | advance => exact hs.advanced
  | peek =>
    refine ⟨?_, by rw [State.final_peeked]; exact hs.final⟩
    rw [State.ahead_peeked, State.final_peeked]
    exact hs.chain

namespace Steps

theorem ordered (h : Steps s s') (hs : s.Ordered) : s'.Ordered := by
  induction h with
  | refl => exact hs
  | tail _ step ih => exact step.ordered ih

/-- Only where a token is taken, the current place moves. -/
theorem le_of_advanced {f : Location → Position} (h : Steps s s') (hs : s.Ordered)
    (next : ∀ t : State, t.Ordered → f t.current.location ≤ f t.advanced.current.location) :
    f s.current.location ≤ f s'.current.location := by
  induction h with
  | refl => exact le_refl _
  | @tail t u steps step ih =>
    refine le_trans ih ?_
    cases step with
    | report place => exact le_refl _
    | advance => exact next t (Steps.ordered steps hs)
    | peek => exact le_refl _

/-- The current token never starts further to the front. -/
theorem start_le (h : Steps s s') (hs : s.Ordered) :
    s.current.location.start ≤ s'.current.location.start :=
  h.le_of_advanced hs fun _ ordered =>
    le_trans ordered.current_precedes.1 ordered.current_precedes.2

/-- The current token never ends further to the front. -/
theorem stop_le (h : Steps s s') (hs : s.Ordered) :
    s.current.location.stop ≤ s'.current.location.stop :=
  h.le_of_advanced hs fun _ ordered =>
    le_trans ordered.current_precedes.2 ordered.advanced.start_le_stop

end Steps

end Parse

end LuaFront
