import LuaFront.Proofs.Ensures
import LuaFront.Proofs.Order

/-!
# Locations between two states

A location that is read between two states lies between their current tokens: it starts no earlier
than the current token of the first state, and it stops no later than the current token of the
second one does, even where the token in question is left for what comes next. Locations with this
property are `Inside`; those that reach from the first state's token to the second state's are
`Spans`, and they stay so under covers.

* `Spans.cover`: covering what lies inside keeps a span.
* `Spans.contains_between`: a cover contains all that is read between its two parts.
* `Ensures.span_advance` and its like: what is known of the location of a token that is taken.
-/

namespace LuaFront

namespace Location

variable {l m k : Location}

theorem contains_refl (l : Location) : l.contains l :=
  (contains_iff l l).2 ⟨le_refl _, le_refl _⟩

theorem contains_trans (h : k.contains l) (h' : l.contains m) : k.contains m := by
  rw [contains_iff] at *
  exact ⟨le_trans h.1 h'.1, le_trans h'.2 h.2⟩

theorem contains_cover_of_right (h : m.contains k) : (l.cover m).contains k :=
  contains_trans (contains_cover_right l m) h

theorem contains_cover?_left (l : Location) (m : Option Location) : (l.cover? m).contains l := by
  cases m with
  | none => exact contains_refl l
  | some m => exact contains_cover_left l m

theorem contains_coverAll_left (l : Location) (ms : List Location) :
    (l.coverAll ms).contains l := by
  induction ms generalizing l with
  | nil => exact contains_refl l
  | cons m ms ih => exact contains_trans (ih (l.cover m)) (contains_cover_left l m)

theorem contains_coverAll_of_mem {ms : List Location} (h : m ∈ ms) (l : Location) :
    (l.coverAll ms).contains m := by
  induction ms generalizing l with
  | nil => exact nomatch h
  | cons k ms ih =>
    rcases List.mem_cons.1 h with rfl | h
    · exact contains_trans (contains_coverAll_left _ ms) (contains_cover_right l m)
    · exact ih h (l.cover k)

end Location

namespace Parse

/-- The current token of the second state is no earlier one. -/
structure Later (s s' : State) : Prop where
  start : s.current.location.start ≤ s'.current.location.start
  stop : s.current.location.stop ≤ s'.current.location.stop

/-- A location between the current tokens of two states, both of them included. -/
structure Inside (s s' : State) (l : Location) : Prop where
  first : s.current.location.start ≤ l.start
  ordered : l.start ≤ l.stop
  last : l.stop ≤ s'.current.location.stop

/-- A location between the current tokens of `r` and `s'` that starts no later than the latter one
and takes in the current token of `s`. -/
structure Spans (r s s' : State) (l : Location) : Prop extends Inside r s' l where
  reached : l.start ≤ s'.current.location.start
  covers : s.current.location.stop ≤ l.stop

variable {q r s s' s₁ s₂ s₃ s₄ s₅ : State} {l m x : Location}

theorem Steps.later (h : Steps s s') (hs : s.Ordered) : Later s s' := ⟨h.start_le hs, h.stop_le hs⟩

theorem Later.refl (s : State) : Later s s := ⟨le_refl _, le_refl _⟩

theorem Later.trans (h : Later s s₁) (k : Later s₁ s₂) : Later s s₂ :=
  ⟨le_trans h.start k.start, le_trans h.stop k.stop⟩

theorem Inside.widen (h : Inside s s' l) (a : Later r s) (b : Later s' s₁) : Inside r s₁ l :=
  ⟨le_trans a.start h.first, h.ordered, le_trans h.last b.stop⟩

theorem Inside.cover (h : Inside s s' l) (k : Inside s s' m) : Inside s s' (l.cover m) where
  first := le_min h.first k.first
  ordered := le_trans (min_le_left _ _) (le_trans h.ordered (le_max_left _ _))
  last := max_le h.last k.last

namespace Spans

theorem widen (h : Spans r s s' l) (a : Later q r) (b : Later s' s₁) : Spans q s s₁ l where
  toInside := h.toInside.widen a b
  reached := le_trans h.reached b.start
  covers := h.covers

theorem later (h : Spans s s s' l) : Later s s' :=
  ⟨le_trans h.first h.reached, le_trans h.covers h.last⟩

/-- Less has to be taken in at an earlier state. -/
theorem weaken (h : Spans r s s' l) (a : Later s₁ s) : Spans r s₁ s' l :=
  { h with covers := le_trans a.stop h.covers }

/-- The current token, whether it is taken or not. -/
theorem current (hs : s.Ordered) (later : Later s s') : Spans s s s' s.current.location where
  first := le_refl _
  ordered := hs.start_le_stop
  last := later.stop
  reached := later.start
  covers := le_refl _

theorem cover (h : Spans r s s' l) (k : Inside r s' m) : Spans r s s' (l.cover m) where
  toInside := h.toInside.cover k
  reached := le_trans (min_le_left _ _) h.reached
  covers := le_trans h.covers (le_max_left _ _)

/-- The part on the right may be the one that takes the token in. -/
theorem cover_right (h : Spans r s₁ s' l) (k : Spans q s s' m) (a : Later r q) :
    Spans r s s' (l.cover m) where
  toInside := h.toInside.cover (k.toInside.widen a (.refl s'))
  reached := le_trans (min_le_left _ _) h.reached
  covers := le_trans k.covers (le_max_right _ _)

theorem cover? {m : Option Location} (h : Spans r s s' l) (k : ∀ x ∈ m, Inside r s' x) :
    Spans r s s' (l.cover? m) := by
  cases m with
  | none => exact h
  | some m => exact h.cover (k m rfl)

theorem coverAll {ms : List Location} (h : Spans r s s' l) (k : ∀ m ∈ ms, Inside r s' m) :
    Spans r s s' (l.coverAll ms) := by
  induction ms generalizing l with
  | nil => exact h
  | cons m ms ih =>
    have first := h.cover (k m List.mem_cons_self)
    exact ih first fun x hx => k x (List.mem_cons_of_mem m hx)

/-- What is read behind the left part and in front of the right part is contained in the cover. -/
theorem contains_between (h : Spans r s s₁ l) (hx : Inside s₁ s₂ x) (k : Spans q s₂ s₃ m) :
    (l.cover m).contains x := by
  rw [Location.contains_iff]
  refine ⟨?_, ?_⟩
  · exact le_trans (min_le_left _ _) (le_trans h.reached hx.first)
  · exact le_trans hx.last (le_trans k.covers (le_max_right _ _))

end Spans

/-! ## Tokens -/

namespace Ensures

variable {α : Type} {Q : α → State → Prop}

/-- However the current token is taken, it spans its place. -/
theorem span_taken (hs : s.Ordered) {p : Parse Token} {f : Token → Parse α}
    (taken : Ensures p s (fun t _ => t = s.current) fun _ => True)
    (h : ∀ s', Steps s s' → Spans s s s' s.current.location →
      Ensures (f s.current) s' Q fun _ => True) :
    Ensures (p >>= f) s Q fun _ => True := by
  refine taken.bind ?_
  rintro t s' steps rfl
  exact h s' steps (.current hs (steps.later hs))

theorem span_advance (hs : s.Ordered) {f : Token → Parse α}
    (h : ∀ s', Steps s s' → Spans s s s' s.current.location →
      Ensures (f s.current) s' Q fun _ => True) :
    Ensures (Parse.advance >>= f) s Q fun _ => True := span_taken hs (advance_last rfl) h

theorem span_expect (hs : s.Ordered) {k : Kind} {f : Token → Parse α}
    (h : ∀ s', Steps s s' → Spans s s s' s.current.location →
      Ensures (f s.current) s' Q fun _ => True) :
    Ensures (Parse.expect k >>= f) s Q fun _ => True :=
  span_taken hs (of_bind_pure (.expect (fun _ => .pure rfl) fun _ => .pure rfl)) h

theorem span_expectEnd (hs : s.Ordered) {k opener : Kind} {place : Location} {f : Token → Parse α}
    (h : ∀ s', Steps s s' → Spans s s s' s.current.location →
      Ensures (f s.current) s' Q fun _ => True) :
    Ensures (Parse.expectEnd k opener place >>= f) s Q fun _ => True :=
  span_taken hs (of_bind_pure (.expectEnd (fun _ => .pure rfl) fun _ => .pure rfl)) h

/-- A name stands at the current token, whether it is taken or missing. -/
theorem span_expectName (hs : s.Ordered) {k : Kind} {f : Ident → Parse α}
    (h : ∀ name s', Steps s s' → Spans s s s' name.location →
      Ensures (f name) s' Q fun _ => True) :
    Ensures (Parse.expectName k >>= f) s Q fun _ => True := by
  have named : Ensures (Parse.expectName k) s (fun name _ => name.location = s.current.location)
      fun _ => True := of_bind_pure (.expectName (fun _ => .pure rfl) fun _ => .pure rfl)
  refine named.bind fun name s' steps eq => h name s' steps ?_
  rw [eq]
  exact .current hs (steps.later hs)

/-- A token is taken if it is of the kind. -/
theorem span_accept (hs : s.Ordered) {k : Kind} {f : Option Token → Parse α}
    (h : ∀ t s', Steps s s' → (∀ u ∈ t, Spans s s s' u.location) →
      Ensures (f t) s' Q fun _ => True) :
    Ensures (Parse.accept k >>= f) s Q fun _ => True := by
  have taken : Ensures (Parse.accept k) s (fun t _ => ∀ u ∈ t, u = s.current) fun _ => True := by
    refine of_bind_pure (.accept (fun _ => .pure ?_) fun _ => .pure ?_)
    · rintro u ⟨⟩
      rfl
    · exact fun u hu => nomatch hu
  refine taken.bind fun t s' steps eq => h t s' steps fun u hu => ?_
  rw [eq u hu]
  exact .current hs (steps.later hs)

end Ensures

end Parse

end LuaFront
