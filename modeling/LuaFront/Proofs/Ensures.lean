import LuaFront.Proofs.Step

/-!
# What a reader ensures

`Ensures p s Q E` says where the reader `p` gets from the state `s`: by elementary steps it comes to
an answer for which `Q` holds, or it stops in a state for which `E` holds. Readers are put together
by `Ensures.bind`; the rules for the elementary readers take the state one step further, and ask for
nothing where reading stops.

A loop is bounded by the lexemes that are still to come. `Advances` says that every round that asks
for another one takes a token, and then the bound is never reached: `Ensures.loop_step` opens a loop
for one round, and `Ensures.loop_inv` keeps an invariant over all rounds.
-/

namespace LuaFront.Parse

variable {α β : Type} {s : State} {Q R : α → State → Prop} {E F : State → Prop}

/-- A reader behind another one goes on with its answer, from where it got to. -/
theorem run_bind (p : Parse β) (f : β → Parse α) (s : State) :
    (p >>= f) s = match p s with
      | .ok b s' => f b s'
      | .error e s' => .error e s' := by
  show EStateM.bind p f s = _
  unfold EStateM.bind
  cases p s <;> rfl

/-- From one state, elementary steps lead to another one in which reading stops. -/
def Stops (s s' : State) : Prop := ∃ t, Steps s t ∧ Halt t s'

theorem Stops.of_steps {s t s' : State} (steps : Steps s t) : Stops t s' → Stops s s' :=
  fun ⟨u, more, halt⟩ => ⟨u, steps.trans more, halt⟩

/-- From `s` on, `p` comes to an answer with `Q` or stops with `E`. -/
def Ensures (p : Parse α) (s : State) (Q : α → State → Prop) (E : State → Prop) : Prop :=
  match p s with
  | .ok a s' => Steps s s' ∧ Q a s'
  | .error _ s' => Stops s s' ∧ E s'

namespace Ensures

/-! ## Answers -/

theorem of_ok {p : Parse α} {a : α} {s' : State} (h : Ensures p s Q E) (hp : p s = .ok a s') :
    Steps s s' ∧ Q a s' := by
  simpa [Ensures, hp] using h

theorem of_error {p : Parse α} {e : Stop} {s' : State} (h : Ensures p s Q E)
    (hp : p s = .error e s') : Stops s s' ∧ E s' := by
  simpa [Ensures, hp] using h

theorem mono {p : Parse α} (h : Ensures p s Q E) (hQ : ∀ a s', Steps s s' → Q a s' → R a s')
    (hE : ∀ s', Stops s s' → E s' → F s') : Ensures p s R F := by
  unfold Ensures at *
  cases run : p s with
  | ok a s' =>
    rw [run] at h
    exact ⟨h.1, hQ a s' h.1 h.2⟩
  | error e s' =>
    rw [run] at h
    exact ⟨h.1, hE s' h.1 h.2⟩

/-- A weaker condition on the answer. -/
theorem imp {p : Parse α} (h : Ensures p s Q E) (hQ : ∀ a s', Steps s s' → Q a s' → R a s') :
    Ensures p s R E := h.mono hQ fun _ _ he => he

/-- Two conditions on the answer. -/
theorem and {p : Parse α} (h : Ensures p s Q E) (k : Ensures p s R F) :
    Ensures p s (fun a s' => Q a s' ∧ R a s') E := by
  unfold Ensures at *
  cases run : p s with
  | ok a s' =>
    rw [run] at h k
    exact ⟨h.1, h.2, k.2⟩
  | error e s' =>
    rw [run] at h
    exact h

/-- An answer is known to be the one that the reader came to. -/
theorem with_run {p : Parse α} (h : Ensures p s Q E) :
    Ensures p s (fun a s' => p s = .ok a s' ∧ Q a s') E := by
  unfold Ensures at *
  cases run : p s with
  | ok a s' =>
    rw [run] at h
    exact ⟨h.1, rfl, h.2⟩
  | error e s' =>
    rw [run] at h
    exact h

protected theorem pure {a : α} (h : Q a s) : Ensures (pure a) s Q E := ⟨.refl, h⟩

theorem bind {p : Parse β} {f : β → Parse α} {P : β → State → Prop} (h : Ensures p s P E)
    (k : ∀ b s', Steps s s' → P b s' → Ensures (f b) s' Q E) : Ensures (p >>= f) s Q E := by
  unfold Ensures
  rw [run_bind]
  cases run : p s with
  | error e s' => exact h.of_error run
  | ok b s' =>
    obtain ⟨steps, hb⟩ := h.of_ok run
    have next := k b s' steps hb
    dsimp only
    cases run' : f b s' with
    | ok a s'' =>
      obtain ⟨steps', ha⟩ := next.of_ok run'
      exact ⟨steps.trans steps', ha⟩
    | error e s'' =>
      obtain ⟨stops, he⟩ := next.of_error run'
      exact ⟨.of_steps steps stops, he⟩

theorem map {p : Parse β} {f : β → α} (h : Ensures p s (fun b s' => Q (f b) s') E) :
    Ensures (f <$> p) s Q E := by
  have h := h.bind (f := fun b => pure (f b)) (Q := Q) fun b s' _ hb => Ensures.pure hb
  exact h

/-- A reader whose answer may be missing, and is not. -/
theorem map_some {p : Parse α} (h : Ensures p s Q E) :
    Ensures (some <$> p) s (fun x s' => ∀ y ∈ x, Q y s') E := by
  refine map (h.imp fun x s' _ hx y hy => ?_)
  obtain rfl := Option.some.inj hy
  exact hx

/-- A reader in front of nothing is the reader alone. -/
theorem of_bind_pure {p : Parse α} (h : Ensures (p >>= pure) s Q E) : Ensures p s Q E := by
  rwa [bind_pure] at h

protected theorem ite {c : Prop} [Decidable c] {p p' : Parse α} (yes : c → Ensures p s Q E)
    (no : ¬c → Ensures p' s Q E) : Ensures (if c then p else p') s Q E := by
  split
  · next hc => exact yes hc
  · next hc => exact no hc

end Ensures

/-! ## Elementary readers -/

theorem run_check (s : State) :
    check s = if s.log.exhausted then .error .stop s else .ok () s := by
  show (if s.log.exhausted = true then (throw .stop : Parse Unit) else pure ()) s = _
  cases s.log.exhausted <;> rfl

theorem run_report (cause : Cause) (place : Location) (s : State) :
    report cause place s =
      if (s.noting cause place).log.exhausted then .error .stop (s.noting cause place)
      else .ok () (s.noting cause place) := run_check _

theorem run_advance (s : State) :
    advance s =
      if s.fetched.log.exhausted then .error .stop s.fetched else .ok s.current s.advanced := by
  show EStateM.bind check _ s.fetched = _
  unfold EStateM.bind
  rw [run_check]
  cases s.fetched.log.exhausted <;> rfl

theorem run_peek (s : State) :
    peek s =
      if s.peeked.log.exhausted then .error .stop s.peeked
      else .ok s.stream.peek.1.token.kind s.peeked := by
  show EStateM.bind check _ s.peeked = _
  unfold EStateM.bind
  rw [run_check]
  cases s.peeked.log.exhausted <;> rfl

namespace Ensures

/-- A reader that goes on from a state only if more errors are wanted there. -/
theorem of_checked_alive {p : Parse α} {a : α} {s₁ s₂ : State}
    (run : p s = if s₁.log.exhausted then .error .stop s₁ else .ok a s₂)
    (step : s₁.Alive → Step s s₂) (halt : ¬s₁.Alive → Halt s s₁)
    (h : s₁.Alive → Q a s₂) (stop : ¬s₁.Alive → E s₁) : Ensures p s Q E := by
  unfold Ensures
  cases ex : s₁.log.exhausted with
  | true =>
    have dead : ¬s₁.Alive := by simp [State.Alive, ex]
    rw [run, ex]
    exact ⟨⟨s, .refl, halt dead⟩, stop dead⟩
  | false =>
    rw [run, ex]
    exact ⟨.single (step ex), h ex⟩

/-- A reader that checks whether more errors are wanted once it has come to a state. -/
theorem of_checked {p : Parse α} {a : α} {s₁ s₂ : State}
    (run : p s = if s₁.log.exhausted then .error .stop s₁ else .ok a s₂)
    (step : s₁.Alive → Step s s₂) (halt : ¬s₁.Alive → Halt s s₁)
    (h : Q a s₂) (stop : ¬s₁.Alive → E s₁) : Ensures p s Q E :=
  of_checked_alive run step halt (fun _ => h) stop

theorem report_alive {cause : Cause} {place : Location} {f : Unit → Parse α}
    (hc : cause.isMarker = false)
    (h : (s.noting cause place).Alive → Ensures (f ()) (s.noting cause place) Q fun _ => True) :
    Ensures (Parse.report cause place >>= f) s Q fun _ => True := by
  refine bind (P := fun _ s' => s' = s.noting cause place ∧ s'.Alive) ?_ ?_
  · exact of_checked_alive (run_report cause place s) (.report s place hc) (.report s place hc)
      (fun alive => ⟨rfl, alive⟩) fun _ => trivial
  · rintro _ _ _ ⟨rfl, alive⟩
    exact h alive

theorem report {cause : Cause} {place : Location} {f : Unit → Parse α}
    (hc : cause.isMarker = false)
    (h : Ensures (f ()) (s.noting cause place) Q fun _ => True) :
    Ensures (Parse.report cause place >>= f) s Q fun _ => True := report_alive hc fun _ => h

theorem advance_last {Q : Token → State → Prop} (h : Q s.current s.advanced) :
    Ensures Parse.advance s Q fun _ => True :=
  of_checked (run_advance s) (.advance s) (.advance s) h fun _ => trivial

theorem advance_alive {f : Token → Parse α}
    (h : s.fetched.Alive → Ensures (f s.current) s.advanced Q fun _ => True) :
    Ensures (Parse.advance >>= f) s Q fun _ => True := by
  refine bind (P := fun t s' => s.fetched.Alive ∧ t = s.current ∧ s' = s.advanced) ?_ ?_
  · exact of_checked_alive (run_advance s) (.advance s) (.advance s)
      (fun alive => ⟨alive, rfl, rfl⟩) fun _ => trivial
  · rintro _ _ _ ⟨alive, rfl, rfl⟩
    exact h alive

theorem advance {f : Token → Parse α} (h : Ensures (f s.current) s.advanced Q fun _ => True) :
    Ensures (Parse.advance >>= f) s Q fun _ => True := advance_alive fun _ => h

theorem tooDeep (h : E s.aborted) : Ensures (Parse.tooDeep : Parse α) s Q E :=
  ⟨⟨s, .refl, .tooDeep s⟩, h⟩

end Ensures

/-! ## Readers that look and leave the state as it is -/

@[simp] theorem ensures_current {f : Token → Parse α} :
    Ensures (current >>= f) s Q E ↔ Ensures (f s.current) s Q E := Iff.rfl

@[simp] theorem ensures_at? {k : Kind} {f : Bool → Parse α} :
    Ensures (at? k >>= f) s Q E ↔ Ensures (f (decide (s.current.kind = k))) s Q E := Iff.rfl

@[simp] theorem ensures_found {f : String → Parse α} :
    Ensures (found >>= f) s Q E ↔ Ensures (f s.current.describe) s Q E := Iff.rfl

@[simp] theorem ensures_reports {f : Nat → Parse α} :
    Ensures (reports >>= f) s Q E ↔ Ensures (f s.reports) s Q E := Iff.rfl

@[simp] theorem ensures_pure_bind {b : β} {f : β → Parse α} :
    Ensures (pure b >>= f) s Q E ↔ Ensures (f b) s Q E := Iff.rfl

/-! ## Readers of one token -/

/-- What `expect` and `expectEnd` have in common: the current token is taken, and reported before if
it is of another kind. -/
def demand (k : Kind) (cause : String → Cause) : Parse Token := do
  unless ← at? k do
    report (cause (← found)) (← current).location
  advance

theorem expect_eq_demand (k : Kind) : expect k = demand k (.unexpectedToken k.toString) := rfl

theorem expectEnd_eq_demand (k opener : Kind) (place : Location) :
    expectEnd k opener place =
      demand k fun found => .unclosed k.toString found opener.toString place := rfl

theorem ensures_demand {k : Kind} {cause : String → Cause} {Q : Token → State → Prop}
    (yes : s.current.kind = k → Ensures advance s Q E)
    (no : s.current.kind ≠ k →
      Ensures (report (cause s.current.describe) s.current.location >>= fun _ => advance) s Q E) :
    Ensures (demand k cause) s Q E := by
  unfold demand
  rw [ensures_at?]
  by_cases h : s.current.kind = k
  · rw [decide_eq_true h]
    exact yes h
  · rw [decide_eq_false h]
    simp only [Bool.false_eq_true, if_false, ensures_found, ensures_current]
    exact no h

namespace Ensures

theorem accept {k : Kind} {f : Option Token → Parse α}
    (yes : s.current.kind = k → Ensures (f (some s.current)) s.advanced Q fun _ => True)
    (no : s.current.kind ≠ k → Ensures (f none) s Q fun _ => True) :
    Ensures (accept k >>= f) s Q fun _ => True := by
  refine bind (P := fun t s' => Ensures (f t) s' Q fun _ => True) ?_ fun _ _ _ h => h
  unfold Parse.accept
  rw [ensures_at?]
  by_cases h : s.current.kind = k
  · rw [decide_eq_true h]
    exact map (advance_last (yes h))
  · rw [decide_eq_false h]
    exact .pure (no h)

/-- A token is taken in any case, with an error if it is of another kind. -/
theorem expect {k : Kind} {f : Token → Parse α}
    (yes : s.current.kind = k → Ensures (f s.current) s.advanced Q fun _ => True)
    (no : s.current.kind ≠ k →
      Ensures (f s.current)
        (s.noting (.unexpectedToken k.toString s.current.describe) s.current.location).advanced
        Q fun _ => True) :
    Ensures (expect k >>= f) s Q fun _ => True := by
  refine bind (P := fun t s' => Ensures (f t) s' Q fun _ => True) ?_ fun _ _ _ h => h
  rw [expect_eq_demand]
  exact ensures_demand (fun h => advance_last (yes h)) fun h => report rfl (advance_last (no h))

theorem expectEnd {k opener : Kind} {place : Location} {f : Token → Parse α}
    (yes : s.current.kind = k → Ensures (f s.current) s.advanced Q fun _ => True)
    (no : s.current.kind ≠ k →
      Ensures (f s.current)
        (s.noting (.unclosed k.toString s.current.describe opener.toString place)
          s.current.location).advanced Q fun _ => True) :
    Ensures (expectEnd k opener place >>= f) s Q fun _ => True := by
  refine bind (P := fun t s' => Ensures (f t) s' Q fun _ => True) ?_ fun _ _ _ h => h
  rw [expectEnd_eq_demand]
  exact ensures_demand (fun h => advance_last (yes h)) fun h => report rfl (advance_last (no h))

/-- A name is taken, or a missing name stands at a token that is left where it is. -/
theorem expectName {k : Kind} {f : Ident → Parse α}
    (yes : s.current.kind = .ident →
      Ensures (f ⟨s.current.text, s.current.location, s.current.valid, none⟩) s.advanced Q
        fun _ => True)
    (no : s.current.kind ≠ .ident →
      Ensures (f ⟨"", s.current.location, false, none⟩)
        (s.noting (.missingName k.toString s.current.describe) s.current.location) Q
        fun _ => True) :
    Ensures (expectName k >>= f) s Q fun _ => True := by
  refine bind (P := fun t s' => Ensures (f t) s' Q fun _ => True) ?_ fun _ _ _ h => h
  unfold Parse.expectName
  rw [ensures_at?]
  by_cases h : s.current.kind = .ident
  · rw [decide_eq_true h]
    exact advance (.pure (yes h))
  · rw [decide_eq_false h]
    simp only [Bool.false_eq_true, if_false, ensures_found, ensures_current]
    exact report rfl (.pure (no h))

end Ensures

/-! ## Loops -/

/-- What a round comes to: `I` if it asks for another one, `Q` if it is the last. -/
def Round.Post (I Q : α → State → Prop) : Round α → State → Prop
  | .again a, s => I a s
  | .done a, s => Q a s

/-- The rest of a loop behind a round. -/
def Round.next (body : α → Parse (Round α)) : Round α → Parse α
  | .again a => loop body a
  | .done a => pure a

/-- Every round that asks for another one takes a token in front of the end of input. -/
def Advances (body : α → Parse (Round α)) : Prop :=
  ∀ a s, s.Ends →
    Ensures (body a) s (Round.Post (fun _ s' => s'.left < s.left) fun _ _ => True) fun _ => True

variable {body : α → Parse (Round α)}

theorem rounds_cons (x : Lexeme) (xs : List Lexeme) (a : α) (s : State) :
    rounds body (x :: xs) a s =
      match body a s with
      | .ok (.again a') s' => rounds body xs a' s'
      | .ok (.done a') s' => .ok a' s'
      | .error e s' => .error e s' := by
  rw [rounds, run_bind]
  cases body a s with
  | ok r s' => cases r <;> rfl
  | error e s' => rfl

/-- All bounds above the number of tokens left lead to the same answer. -/
theorem rounds_eq_of_left_lt (adv : Advances body) {xs ys : List Lexeme} {a : α} {s : State}
    (hs : s.Ends) (hx : s.left < xs.length) (hy : s.left < ys.length) :
    rounds body xs a s = rounds body ys a s := by
  induction xs generalizing ys a s with
  | nil => exact absurd hx (Nat.not_lt_zero _)
  | cons x xs ih =>
    cases ys with
    | nil => exact absurd hy (Nat.not_lt_zero _)
    | cons y ys =>
      rw [rounds_cons, rounds_cons]
      cases run : body a s with
      | error e s' => rfl
      | ok r s' =>
        have round := (adv a s hs).of_ok run
        cases r with
        | done a' => rfl
        | again a' =>
          have lt : s'.left < s.left := round.2
          simp only [List.length_cons] at hx hy
          exact ih (round.1.ends hs) (by omega) (by omega)

/-- A loop is its first round and the loop behind it. -/
theorem loop_eq (adv : Advances body) (hs : s.Ends) (a : α) :
    loop body a s = (body a >>= Round.next body) s := by
  show rounds body (s.stream.final :: s.stream.upcoming) a s = _
  rw [rounds_cons, run_bind]
  cases run : body a s with
  | error e s' => rfl
  | ok r s' =>
    have round := (adv a s hs).of_ok run
    cases r with
    | done a' => rfl
    | again a' =>
      have lt : s'.left < s.left := round.2
      have le := s.left_le
      have le' := s'.left_le
      refine rounds_eq_of_left_lt adv (round.1.ends hs) (by omega) ?_
      simp only [List.length_cons]
      omega

namespace Ensures

/-- Opens a loop for one round. -/
theorem loop_step (adv : Advances body) (hs : s.Ends) {a : α}
    (h : Ensures (body a) s (Round.Post (fun a' s' => Ensures (loop body a') s' Q E) Q) E) :
    Ensures (loop body a) s Q E := by
  unfold Ensures
  rw [loop_eq adv hs a]
  refine h.bind (f := Round.next body) fun r s' _ hr => ?_
  cases r with
  | again a' => exact hr
  | done a' => exact .pure hr

/-- What holds before every round of a loop, and what follows when a round is the last. -/
theorem loop_inv (adv : Advances body) (hs : s.Ends) {I : α → State → Prop} {a : α} (h : I a s)
    (hbody : ∀ a s', Steps s s' → I a s' → Ensures (body a) s' (Round.Post I Q) E) :
    Ensures (loop body a) s Q E := by
  induction hn : s.left using Nat.strongRecOn generalizing s a with
  | _ n ih =>
    refine loop_step adv hs (((hbody a s .refl h).and (adv a s hs)).imp ?_)
    rintro (a' | a') s' steps ⟨hr, lt⟩
    · refine ih s'.left (hn ▸ lt) (steps.ends hs) hr (fun b s'' st => ?_) rfl
      exact hbody b s'' (steps.trans st)
    · exact hr

end Ensures

end LuaFront.Parse
