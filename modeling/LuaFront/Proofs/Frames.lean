import LuaFront.Proofs.Loops
import LuaFront.Proofs.Order
import LuaFront.Proofs.Strict

/-!
# Locations and the tokens that were taken

When a source is read without errors, what stands between two states are the tokens that were taken
there. The location of what was read goes from the start of one of these tokens to the stop of
another one. It need not be the first and the last of them: the tree keeps parentheses only where
they change a meaning, and the location of an expression does not go over those that are dropped
around it.

`Frames` tells a location from the tokens in front of it and behind it. It is put together along the
readers by `Frames.token`, `Frames.cover` and `Frames.drop`, which look at tokens where a location
begins or ends; whatever is read in between is skipped.

* `Steps.pending_suffix`: tokens are only ever taken from the front.
* `framing_nested`: every expression is framed by dropped parentheses.
-/

namespace LuaFront

/-- One token neither starts nor stops behind another one. -/
def Token.NoLater (t u : Token) : Prop :=
  t.location.start ≤ u.location.start ∧ t.location.stop ≤ u.location.stop

instance : Trans Token.Precedes Token.Precedes Token.Precedes where
  trans h k := ⟨h.1, le_trans h.2 (le_trans k.1 k.2)⟩

/-- Parentheses around a call are never dropped. -/
theorem Exp.keepsParens_of_isCall {e : Exp} (h : e.isCall = true) : e.keepsParens = true := by
  cases e <;> simp_all [isCall, keepsParens]

/-- The location goes from the start of the first token to the stop of the last one. -/
def Location.Bounds (l : Location) (ts : List Token) : Prop :=
  ∃ first ∈ ts.head?, ∃ last ∈ ts.getLast?, l = ⟨first.location.start, last.location.stop⟩

namespace Location

variable {l m : Location} {ts us vs : List Token}

theorem cover_self (l : Location) : l.cover l = l := by
  show Location.mk (min _ _) (max _ _) = l
  rw [min_self, max_self]

theorem cover_eq_right (h : m.contains l) : l.cover m = m := by
  rw [contains_iff] at h
  show Location.mk (min _ _) (max _ _) = m
  rw [min_eq_right h.1, max_eq_right h.2]

theorem coverAll_append (l : Location) (ms ks : List Location) :
    l.coverAll (ms ++ ks) = (l.coverAll ms).coverAll ks := List.foldl_append ..

theorem bounds_token (t : Token) : t.location.Bounds [t] := ⟨t, rfl, t, rfl, rfl⟩

/-- What two locations go over is gone over by their cover, with all that stands between. -/
theorem Bounds.cover (hl : l.Bounds ts) (hm : m.Bounds vs)
    (order : ∀ t ∈ ts, ∀ u ∈ vs, t.NoLater u) : (l.cover m).Bounds (ts ++ us ++ vs) := by
  obtain ⟨a, ha, b, hb, rfl⟩ := hl
  obtain ⟨c, hc, d, hd, rfl⟩ := hm
  have start := (order a (List.mem_of_head? ha) c (List.mem_of_head? hc)).1
  have stop := (order b (List.mem_of_getLast? hb) d (List.mem_of_getLast? hd)).2
  refine ⟨a, ?_, d, ?_, ?_⟩
  · rw [List.append_assoc]
    exact List.mem_head?_append_of_mem_head? ha
  · exact List.mem_getLast?_append_of_mem_getLast? hd
  · show Location.mk (min _ _) (max _ _) = _
    rw [min_eq_left start, max_eq_right stop]

end Location

namespace Parse

/-! ## Tokens that are still to come -/

namespace State

variable {s : State}

/-- All tokens ahead stand in order, and behind them the end of input. -/
theorem Ordered.pairwise_ahead (h : s.Ordered) :
    (s.ahead ++ [s.stream.final.token]).Pairwise Token.Precedes :=
  List.isChain_iff_pairwise.1 h.chain

theorem Ordered.pairwise (h : s.Ordered) : s.pending.Pairwise Token.Precedes :=
  (List.pairwise_append.1 h.pairwise_ahead).1.sublist (List.dropLast_sublist _)

theorem Ordered.proper (h : s.Ordered) {t : Token} (ht : t ∈ s.pending) :
    t.location.start ≤ t.location.stop :=
  ((List.pairwise_append.1 h.pairwise_ahead).2.2 t (List.dropLast_subset _ ht) _
    List.mem_cons_self).1

theorem Ordered.noLater (h : s.Ordered) {ts us : List Token} (eq : s.pending = ts ++ us) :
    ∀ t ∈ ts, ∀ u ∈ us, t.NoLater u := by
  intro t ht u hu
  have pairwise := h.pairwise
  rw [eq] at pairwise
  have apart := (List.pairwise_append.1 pairwise).2.2 t ht u hu
  have proper := h.proper (eq ▸ List.mem_append_right ts hu : u ∈ s.pending)
  exact ⟨le_trans apart.1 apart.2, le_trans apart.2 proper⟩

end State

variable {s s' t r : State} {front back front' back' : List Token} {l m : Location}

/-- Tokens are only ever taken from the front. -/
theorem Steps.pending_suffix (h : Steps s s') : s'.pending <:+ s.pending := by
  induction h with
  | refl => exact List.suffix_rfl
  | @tail t u _ step ih =>
    refine List.IsSuffix.trans ?_ ih
    cases step with
    | report place => exact List.suffix_rfl
    | peek => exact State.pending_peeked t ▸ List.suffix_rfl
    | advance =>
      cases h : t.stream.upcoming with
      | nil =>
        rw [State.pending, State.ahead_advanced_nil h]
        exact List.nil_suffix
      | cons x xs =>
        rw [State.pending_of_upcoming_cons h]
        exact List.suffix_cons _ _

/-! ## Frames -/

/-- From one state to another one tokens are taken, and the location goes over all of them but the
parentheses at the front and at the back. -/
structure Frames (s s' : State) (front back : List Token) (l : Location) : Prop where
  taken : ∃ kept, s.pending = front ++ kept ++ back ++ s'.pending ∧ l.Bounds kept
  opening : ∀ t ∈ front, t.kind = .leftParen
  closing : ∀ t ∈ back, t.kind = .rightParen

/-- No error is wanted, none comes up, and the tokens stand in order. -/
structure State.Smooth (s : State) : Prop extends s.Strict where
  ordered : s.Ordered

namespace State.Smooth

theorem next (hs : s.Smooth) (steps : Steps s s') : s'.Smooth :=
  ⟨(hs.steps steps).1, steps.ordered hs.ordered⟩

theorem step (hs : s.Smooth) : Steps s s.advanced := .single (.advance s hs.alive_fetched)

theorem behind (hs : s.Smooth) : s.advanced.Smooth := hs.next hs.step

end State.Smooth

namespace Frames

/-- A token that is taken. -/
theorem token (hs : s.Smooth) (hk : s.current.kind ≠ .eof) :
    Frames s s.advanced [] [] s.current.location where
  taken := ⟨[s.current], hs.ends.pending_eq hk, Location.bounds_token _⟩
  opening := nofun
  closing := nofun

/-- One location behind another one. Parentheses between them are no longer at the border. -/
theorem cover (h : Frames r s front back l) (k : Frames t s' front' back' m) (hr : r.Ordered)
    (steps : Steps s t) : Frames r s' front back' (l.cover m) where
  taken := by
    obtain ⟨ts, eq, hl⟩ := h.taken
    obtain ⟨vs, eq', hm⟩ := k.taken
    -- The parentheses on the inner borders stand between the two parts: the cover goes over them.
    obtain ⟨skipped, between⟩ := steps.pending_suffix
    rw [← between, eq'] at eq
    refine ⟨ts ++ (back ++ skipped ++ front') ++ vs, by simpa using eq, hl.cover hm ?_⟩
    have split : r.pending = (front ++ ts) ++ (back ++ skipped ++ front' ++ vs ++
        (back' ++ s'.pending)) := by simpa using eq
    exact fun t ht u hu => hr.noLater split t (by simp [ht]) u (by simp [hu])
  opening := h.opening
  closing := k.closing

/-- Parentheses that are dropped around what is read between them. -/
theorem drop (hs : s.Smooth) (hk : s.current.kind = .leftParen)
    (h : Frames s.advanced t front back l) (ht : t.Smooth) (hk' : t.current.kind = .rightParen) :
    Frames s t.advanced (s.current :: front) (back ++ [t.current]) l where
  taken := by
    obtain ⟨ts, eq, hl⟩ := h.taken
    have first := hs.ends.pending_eq (by rw [hk]; exact nofun)
    have last := ht.ends.pending_eq (by rw [hk']; exact nofun)
    exact ⟨ts, by simp [first, eq, last], hl⟩
  opening := List.forall_mem_cons.2 ⟨hk, h.opening⟩
  closing := List.forall_mem_append.2 ⟨h.closing, by simp [hk']⟩

/-- A closing token is the last one, whatever was read in front of it. -/
theorem expectEnd {α : Type} {k opener : Kind} {place : Location} {f : Token → Parse α}
    {Q : α → State → Prop} (h : Frames r t front back l) (hr : r.Ordered) (steps : Steps t s)
    (hs : s.Smooth) (hk : k ≠ .eof)
    (next : Frames r s.advanced front [] (l.cover s.current.location) →
      Ensures (f s.current) s.advanced Q fun _ => True) :
    Ensures (Parse.expectEnd k opener place >>= f) s Q fun _ => True := by
  refine hs.toStrict.expectEnd fun here => next ?_
  exact h.cover (.token hs (here ▸ hk)) hr steps

end Frames

/-! ## Lists -/

section Lists

variable {α : Type} {item : Parse α} {place : α → Location}

/-- Further items behind separators take a location on to the last of them. -/
theorem frames_further {separator : Kind} (hk : separator ≠ .eof) (composed : Composed item)
    (h : ∀ {s}, s.Smooth →
      Ensures item s (fun x s' => ∃ f b, Frames s s' f b (place x)) fun _ => True)
    (hr : r.Ordered) (hs : s.Smooth) {xs : List α}
    (hxs : ∃ b, Frames r s front b (l.coverAll (xs.map place))) :
    Ensures (further separator item xs) s
      (fun xs s' => ∃ b, Frames r s' front b (l.coverAll (xs.map place))) fun _ => True := by
  refine .loop_inv (I := fun xs s' => ∃ b, Frames r s' front b (l.coverAll (xs.map place)))
    (advances_furtherRound hk composed) hs.ends hxs fun xs s₁ st₁ hxs => ?_
  have hs₁ := hs.next st₁
  refine hs₁.accept (fun _ => ?_) fun _ => .pure hxs
  refine (h hs₁.behind).bind fun x s₂ st₂ ⟨f, b, hx⟩ => .pure ?_
  obtain ⟨b', hxs⟩ := hxs
  -- The cover grows by one item at a time, so what was at the back is inside from now on.
  have next := hxs.cover hx hr hs₁.step
  refine ⟨b, ?_⟩
  rw [List.map_append, Location.coverAll_append]
  exact next

/-- Items between commas take a location on to the last of them. -/
theorem frames_commaList (composed : Composed item)
    (h : ∀ {s}, s.Smooth →
      Ensures item s (fun x s' => ∃ f b, Frames s s' f b (place x)) fun _ => True)
    (hl : Frames r t front back l) (hr : r.Ordered) (steps : Steps t s) (hs : s.Smooth) :
    Ensures (commaList item) s
      (fun xs s' => ∃ b, Frames r s' front b (l.coverAll (xs.map place))) fun _ => True := by
  refine (h hs).bind fun x s₁ st₁ ⟨f, b, hx⟩ => ?_
  have first : Frames r s₁ front b (l.coverAll ([x].map place)) := hl.cover hx hr steps
  have comma : Kind.comma ≠ .eof := nofun
  exact frames_further comma composed h hr (hs.next st₁) ⟨b, first⟩

end Lists

/-! ## Expressions -/

/-- An expression is framed by parentheses that are dropped around it. A call ends with the token
that was taken last. -/
def Framed (s s' : State) (e : Exp) : Prop :=
  ∃ front back, Frames s s' front back e.place ∧ (e.isCall → back = [])

theorem Frames.framed {e : Exp} (h : Frames s s' front [] e.place) : Framed s s' e :=
  ⟨front, [], h, fun _ => rfl⟩

/-- All expressions that are read one level further down are framed. -/
structure Nested.Framing (deeper : Nested) : Prop where
  composed : deeper.Composed
  exp : ∀ limit {s}, s.Smooth →
    Ensures (deeper.exp limit) s (fun e s' => Framed s s' e) fun _ => True

section Expression

variable {deeper : Nested} (h : deeper.Framing)

theorem framed_numeral {t : Token} (ht : Frames r s [] [] t.location) (hs : s.Smooth) :
    Ensures (numeral t) s (fun e s' => Framed r s' e) fun _ => True := by
  unfold numeral
  split
  · exact .pure (Frames.framed ht)
  · exact .pure (Frames.framed ht)
  · exact hs.report rfl trivial

include h

theorem frames_expList (hl : Frames r t front back l) (hr : r.Ordered) (steps : Steps t s)
    (hs : s.Smooth) :
    Ensures deeper.expList s
      (fun es s' => ∃ b, Frames r s' front b (l.coverAll (es.map Exp.place))) fun _ => True := by
  refine frames_commaList (h.composed.exp 0) (fun hs => (h.exp 0 hs).imp ?_) hl hr steps hs
  exact fun e s' _ ⟨f, b, he, _⟩ => ⟨f, b, he⟩

theorem frames_table (hs : s.Smooth) (hk : s.current.kind = .leftBrace) :
    Ensures (table deeper) s (fun e s' => Frames s s' [] [] e.place) fun _ => True := by
  unfold table
  refine hs.advance ?_
  have brace := Frames.token hs (by simp [hk])
  refine ((composed_fields h.composed).ensures _).bind fun fs s₁ st₁ _ => ?_
  have hs₁ := hs.behind.next st₁
  exact brace.expectEnd hs.ordered st₁ hs₁ nofun fun place => .pure place

/-- The location of a function goes from where it began to its last token. -/
theorem frames_functionBody {start : Location} {isMethod : Bool}
    (hl : Frames r t front back start) (hr : r.Ordered) (steps : Steps t s) (hs : s.Smooth) :
    Ensures (functionBody deeper start isMethod) s
      (fun e s' => Frames r s' front [] e.place ∧ e.place.contains start) fun _ => True := by
  unfold functionBody
  refine ((composed_expect .leftParen).ensures _).bind fun paren s₁ st₁ _ => ?_
  refine (composed_params.ensures _).bind fun ps s₂ st₂ _ => ?_
  refine ((composed_expectEnd _ _ _).ensures _).bind fun _ s₃ st₃ _ => ?_
  refine (h.composed.block.ensures _).bind fun body s₄ st₄ _ => ?_
  have between : Steps s s₄ := ((st₁.trans st₂).trans st₃).trans st₄
  refine hl.expectEnd hr (steps.trans between) (hs.next between) nofun fun place => .pure ?_
  exact ⟨place, Location.contains_cover_left _ _⟩

theorem frames_arguments {before : Location} (hs : s.Smooth) :
    Ensures (arguments deeper before) s (fun args s' => Frames s s' [] [] args.2)
      fun _ => True := by
  unfold arguments
  rw [ensures_current]
  split
  · next hk =>
    refine hs.advance ?_
    have paren := Frames.token hs (by simp [hk])
    have rest : ∀ {args : List Exp} {t}, Steps s.advanced t → Ensures (do
        let close ← expectEnd .rightParen .leftParen s.current.location
        pure (args, s.current.location.cover close.location)) t
        (fun args s' => Frames s s' [] [] args.2) fun _ => True := by
      intro args t steps
      have ht := hs.behind.next steps
      exact paren.expectEnd hs.ordered steps ht nofun fun place => .pure place
    rw [ensures_at?]
    split
    · exact rest .refl
    · exact (h.composed.expList.ensures _).bind fun args t st _ => rest st
  · next hk => exact (frames_table h hs hk).bind fun t s₁ _ ht => .pure ht
  · next hk => exact hs.advance (.pure (.token hs (by simp [hk])))
  · simp only [ensures_found, ensures_current]
    exact hs.report rfl trivial

theorem framed_primary (hs : s.Smooth) :
    Ensures (primary deeper) s (fun e s' => Framed s s' e) fun _ => True := by
  unfold primary
  rw [ensures_current]
  split
  · next hk => exact hs.advance (.pure (Frames.framed (.token hs (by simp [hk]))))
  · next hk =>
    refine hs.advance ?_
    refine (h.exp 0 hs.behind).bind fun inner s₁ st₁ ⟨front, back, hinner, _⟩ => ?_
    have hs₁ := hs.behind.next st₁
    refine hs₁.expectEnd fun hk₁ => .pure ?_
    -- Parentheses that are kept are part of the location, and those that are dropped frame it.
    split
    · have paren := Frames.token hs (by simp [hk])
      exact Frames.framed (paren.cover (.token hs₁ (by simp [hk₁])) hs.ordered st₁)
    · next dropped =>
      refine ⟨_, _, .drop hs hk hinner hs₁ hk₁, fun call => ?_⟩
      exact absurd (Exp.keepsParens_of_isCall call) dropped
  · have bad := hs.kind_ne_illegal
    exact .ite (fun illegal => absurd illegal bad) fun _ => hs.report rfl trivial

theorem framed_suffix {e : Exp} (he : Framed r s e) (hr : r.Ordered) (hs : s.Smooth) :
    Ensures (suffix deeper e) s
      (Round.Post (fun e s' => Framed r s' e) fun e s' => Framed r s' e) fun _ => True := by
  obtain ⟨front, back, framed, _⟩ := he
  -- Whatever is hung onto the expression ends with the token that is taken last.
  have call : ∀ {method : Option Exp} {before : Location} {t}, Steps s t → Ensures (do
      let args ← arguments deeper before
      pure (Round.again (Exp.call e method args.1 (e.place.cover args.2)))) t
      (Round.Post (fun e s' => Framed r s' e) fun e s' => Framed r s' e) fun _ => True := by
    intro method before t steps
    refine (frames_arguments h (hs.next steps)).bind fun args s₁ st₁ hargs => .pure ?_
    exact Frames.framed (framed.cover hargs hr steps)
  unfold suffix
  rw [ensures_current]
  split
  · refine hs.advance ?_
    have hs₁ := hs.behind
    refine hs₁.expectName fun hk => .pure ?_
    exact Frames.framed (framed.cover (.token hs₁ (by simp [hk])) hr hs.step)
  · refine hs.advance ?_
    refine ((h.composed.exp 0).ensures _).bind fun key s₁ st₁ _ => ?_
    refine framed.expectEnd hr (hs.step.trans st₁) (hs.behind.next st₁) nofun fun place => .pure ?_
    exact place.framed
  · refine hs.advance ?_
    have hs₁ := hs.behind
    exact hs₁.expectName fun _ => call (hs.step.trans hs₁.step)
  · exact call .refl
  · exact call .refl
  · exact call .refl
  · exact .pure ⟨front, back, framed, ‹_›⟩

theorem framed_suffixed (hs : s.Smooth) :
    Ensures (suffixed deeper) s (fun e s' => Framed s s' e) fun _ => True := by
  refine (framed_primary h hs).bind fun e s₁ st₁ he => ?_
  have hs₁ := hs.next st₁
  refine .loop_inv (I := fun e s' => Framed s s' e) (advances_suffix h.composed) hs₁.ends he
    fun e s₂ st₂ he => ?_
  exact framed_suffix h he hs.ordered (hs₁.next st₂)

theorem framed_simple (hs : s.Smooth) :
    Ensures (simple deeper) s (fun e s' => Framed s s' e) fun _ => True := by
  unfold simple
  rw [ensures_current]
  split
  · next hk => exact hs.advance (.pure (Frames.framed (.token hs (by simp [hk]))))
  · next hk => exact hs.advance (.pure (Frames.framed (.token hs (by simp [hk]))))
  · next hk => exact hs.advance (.pure (Frames.framed (.token hs (by simp [hk]))))
  · next hk => exact hs.advance (.pure (Frames.framed (.token hs (by simp [hk]))))
  · next hk => exact hs.advance (framed_numeral (.token hs (by simp [hk])) hs.behind)
  · next hk => exact hs.advance (.pure (Frames.framed (.token hs (by simp [hk]))))
  · next hk => exact (frames_table h hs hk).imp fun e s' _ he => he.framed
  · next hk =>
    refine hs.advance ?_
    have word := Frames.token hs (by simp [hk])
    refine (frames_functionBody h word hs.ordered .refl hs.behind).imp fun e s' _ he => ?_
    exact he.1.framed
  · exact framed_suffixed h hs

theorem framed_operand (hs : s.Smooth) :
    Ensures (operand deeper) s (fun e s' => Framed s s' e) fun _ => True := by
  unfold operand
  rw [ensures_current]
  split
  · next op hop =>
    have hk : s.current.kind ≠ .eof := fun eof => by simp [eof, UnaryOp.ofKind?] at hop
    refine hs.advance ?_
    refine (h.exp _ hs.behind).bind fun e s₁ st₁ ⟨f, b, he, _⟩ => .pure ?_
    exact ⟨[], b, (Frames.token hs hk).cover he hs.ordered .refl, nofun⟩
  · exact framed_simple h hs

theorem framed_operation {limit : Nat} {lhs : Exp} (hl : Framed r s lhs) (hr : r.Ordered)
    (hs : s.Smooth) :
    Ensures (operation deeper limit lhs) s
      (Round.Post (fun e s' => Framed r s' e) fun e s' => Framed r s' e) fun _ => True := by
  unfold operation
  rw [ensures_current]
  split
  · refine .ite (fun _ => .pure hl) fun _ => hs.advance ?_
    obtain ⟨front, back, framed, _⟩ := hl
    refine (h.exp _ hs.behind).bind fun rhs s₁ st₁ ⟨f, b, hrhs, _⟩ => .pure ?_
    exact ⟨front, b, framed.cover hrhs hr hs.step, nofun⟩
  · exact .pure hl

theorem framed_subexpression (limit : Nat) (hs : s.Smooth) :
    Ensures (subexpression deeper limit) s (fun e s' => Framed s s' e) fun _ => True := by
  refine (framed_operand h hs).bind fun e s₁ st₁ he => ?_
  have hs₁ := hs.next st₁
  refine .loop_inv (I := fun e s' => Framed s s' e) (advances_operation h.composed limit) hs₁.ends
    he fun e s₂ st₂ he => ?_
  exact framed_operation h he hs.ordered (hs₁.next st₂)

omit h in
/-- Every expression is framed by dropped parentheses. -/
theorem framing_nested (n : Nat) : (nested n).Framing := by
  induction n with
  | zero => exact ⟨composed_nested 0, fun _ _ _ => .tooDeep trivial⟩
  | succ n ih => exact ⟨composed_nested (n + 1), fun _ => framed_subexpression ih _⟩

end Expression

end Parse

end LuaFront
