import LuaFront.Proofs.Ensures
import LuaFront.Proofs.Grammar

/-!
# Reading without errors

A state is `Strict` if no error is wanted and no token that is still to come has one. From there the
first report ends reading, so an answer is one that no error went into.

The rules here are those for elementary readers, in terms of the terminals in front of them. The
ones that end in `_at` are for a reader in front of what it expects.
-/

namespace LuaFront

open Grammar

namespace Token

theorem terminal_of_fixed {t : Token} {k : Kind} (h : t.kind = k) (fixed : k.isFixed) :
    t.terminal = .fixed k := by
  subst h
  unfold terminal
  split <;> simp_all [Kind.isFixed]

theorem terminal_of_ident {t : Token} (h : t.kind = .ident) : t.terminal = .name t.text := by
  rw [terminal, h]

theorem terminal_of_number {t : Token} (h : t.kind = .number) : t.terminal = .number t.text := by
  rw [terminal, h]

theorem terminal_of_string {t : Token} (h : t.kind = .string) : t.terminal = .string t.text := by
  rw [terminal, h]

/-- A terminal tells the kind of its token. -/
theorem look_terminal (t : Token) (ts : List Terminal) : look (t.terminal :: ts) = t.kind := by
  unfold terminal
  split
  · next h => exact h.symm
  · next h => exact h.symm
  · next h => exact h.symm
  · rfl

theorem text_of_terminal_name {t : Token} {n : String} (h : t.terminal = .name n) :
    t.text = n := by
  unfold terminal at h
  split at h <;> simp_all

theorem text_of_terminal_number {t : Token} {n : String} (h : t.terminal = .number n) :
    t.text = n := by
  unfold terminal at h
  split at h <;> simp_all

theorem text_of_terminal_string {t : Token} {n : String} (h : t.terminal = .string n) :
    t.text = n := by
  unfold terminal at h
  split at h <;> simp_all

end Token

namespace Parse

namespace State

/-- The terminals from the current token on, in front of the end of input. -/
def terms (s : State) : List Terminal := s.pending.map Token.terminal

/-- No error is wanted, and no token brings one up. -/
structure Strict (s : State) : Prop where
  ends : s.Ends
  upcoming : ∀ x ∈ s.stream.upcoming, x.fault = none
  final : s.stream.final.fault = none ∧ s.stream.final.token.valid
  sound : ∀ t ∈ s.ahead, t.valid = true ∧ t.kind ≠ .illegal
  log : s.log = ⟨0, [], false⟩

@[simp] theorem terms_peeked (s : State) : s.peeked.terms = s.terms := by
  rw [terms, pending_peeked, terms]

variable {s : State} {t : Terminal} {ts : List Terminal}

theorem Ends.terms_eq (h : s.Ends) (hk : s.current.kind ≠ .eof) :
    s.terms = s.current.terminal :: s.advanced.terms := by
  rw [terms, h.pending_eq hk]
  rfl

theorem Ends.terms_eq_nil (h : s.Ends) (hk : s.current.kind = .eof) : s.terms = [] := by
  rw [terms, h.pending_eq_nil hk]
  rfl

/-- The first terminal tells the kind of the current token. -/
theorem Ends.look_terms (h : s.Ends) : look s.terms = s.current.kind := by
  by_cases hk : s.current.kind = .eof
  · rw [h.terms_eq_nil hk, hk]
    rfl
  · rw [h.terms_eq hk, Token.look_terminal]

theorem Ends.of_terms_cons (h : s.Ends) (ht : s.terms = t :: ts) :
    s.current.terminal = t ∧ s.advanced.terms = ts := by
  by_cases hk : s.current.kind = .eof
  · rw [h.terms_eq_nil hk] at ht
    exact nomatch ht
  · rw [h.terms_eq hk] at ht
    exact List.cons.inj ht

/-- The current token is a symbol or reserved word. -/
theorem Ends.terms_fixed {k : Kind} (h : s.Ends) (hk : s.current.kind = k) (fixed : k.isFixed) :
    s.terms = .fixed k :: s.advanced.terms := by
  rw [h.terms_eq, Token.terminal_of_fixed hk fixed]
  rintro eof
  rw [hk] at eof
  rw [eof] at fixed
  exact nomatch fixed

theorem Ends.terms_name (h : s.Ends) (hk : s.current.kind = .ident) :
    s.terms = .name s.current.text :: s.advanced.terms := by
  rw [h.terms_eq (by rw [hk]; exact nofun), Token.terminal_of_ident hk]

theorem Ends.terms_number (h : s.Ends) (hk : s.current.kind = .number) :
    s.terms = .number s.current.text :: s.advanced.terms := by
  rw [h.terms_eq (by rw [hk]; exact nofun), Token.terminal_of_number hk]

theorem Ends.terms_string (h : s.Ends) (hk : s.current.kind = .string) :
    s.terms = .string s.current.text :: s.advanced.terms := by
  rw [h.terms_eq (by rw [hk]; exact nofun), Token.terminal_of_string hk]

/-- The token behind the current one. -/
theorem Ends.peek_kind (h : s.Ends) (hk : s.current.kind ≠ .eof) :
    s.stream.peek.1.token.kind = look s.advanced.terms := by
  rw [h.advanced.look_terms]
  cases hu : s.stream.upcoming with
  | nil => exact absurd (h.kind_eq_eof_iff.2 hu) hk
  | cons x xs => rw [current_advanced_cons hu, LexemeStream.peek, hu]

namespace Strict

theorem alive (hs : s.Strict) : s.Alive := by rw [Alive, hs.log]

theorem next_fault (hs : s.Strict) : s.stream.next.1.fault = none := by
  have upcoming := hs.upcoming
  unfold LexemeStream.next
  cases h : s.stream.upcoming with
  | nil => exact hs.final.1
  | cons x xs =>
    rw [h] at upcoming
    exact upcoming x List.mem_cons_self

theorem peek_fault (hs : s.Strict) : s.stream.peek.1.fault = none := by
  have upcoming := hs.upcoming
  unfold LexemeStream.peek
  cases h : s.stream.upcoming with
  | nil => exact hs.final.1
  | cons x xs =>
    rw [h] at upcoming
    exact upcoming x List.mem_cons_self

theorem alive_fetched (hs : s.Strict) : s.fetched.Alive := by
  rw [Alive, log_fetched, hs.next_fault, hs.log]
  rfl

theorem alive_peeked (hs : s.Strict) : s.peeked.Alive := by
  rw [Alive, log_peeked, hs.peek_fault, hs.log]
  rfl

/-- The first report is one too many. -/
theorem not_alive_noting (hs : s.Strict) (cause : Cause) (place : Location) :
    ¬(s.noting cause place).Alive := by
  rw [Alive, log_noting, hs.log]
  exact Bool.noConfusion

theorem advanced (hs : s.Strict) : s.advanced.Strict := by
  have log : s.advanced.log = ⟨0, [], false⟩ := by rw [log_advanced, hs.next_fault, hs.log]; rfl
  have final : s.advanced.stream.final.fault = none ∧ s.advanced.stream.final.token.valid := by
    rw [final_advanced]
    exact hs.final
  refine ⟨hs.ends.advanced, ?_, final, ?_, log⟩
  · intro x hx
    cases h : s.stream.upcoming with
    | nil => rw [upcoming_advanced_nil h] at hx; exact nomatch hx
    | cons y ys =>
      rw [upcoming_advanced_cons h] at hx
      exact hs.upcoming x (h ▸ List.mem_cons_of_mem y hx)
  · intro t ht
    cases h : s.stream.upcoming with
    | nil =>
      rw [ahead_advanced_nil h, List.mem_singleton] at ht
      rw [ht]
      exact ⟨hs.final.2, by rw [hs.ends.final]; exact nofun⟩
    | cons y ys =>
      refine hs.sound t ?_
      rw [ahead_advanced_cons h]
      exact List.mem_cons_of_mem _ ht

theorem peeked (hs : s.Strict) : s.peeked.Strict := by
  have log : s.peeked.log = ⟨0, [], false⟩ := by rw [log_peeked, hs.peek_fault, hs.log]; rfl
  refine ⟨hs.ends.peeked, ?_, ?_, ?_, log⟩
  · intro x hx
    cases h : s.stream.upcoming with
    | nil => rw [upcoming_peeked_nil h] at hx; exact nomatch hx
    | cons y ys =>
      rw [upcoming_peeked_cons h, List.mem_cons] at hx
      rcases hx with rfl | hx
      · rfl
      · exact hs.upcoming x (h ▸ List.mem_cons_of_mem y hx)
  · rw [final_peeked]
    exact hs.final
  · rw [ahead_peeked]
    exact hs.sound

theorem step {s' : State} (hs : s.Strict) (h : Step s s') :
    s'.Strict ∧ s'.reports = s.reports := by
  cases h with
  | report place _ alive => exact absurd alive (hs.not_alive_noting _ place)
  | advance => exact ⟨hs.advanced, rfl⟩
  | peek => exact ⟨hs.peeked, rfl⟩

/-- Reading stays strict, and nothing is reported. -/
theorem steps {s' : State} (hs : s.Strict) (h : Steps s s') :
    s'.Strict ∧ s'.reports = s.reports := by
  induction h with
  | refl => exact ⟨hs, rfl⟩
  | tail _ step ih =>
    obtain ⟨strict, same⟩ := ih.1.step step
    exact ⟨strict, same.trans ih.2⟩

/-! ## Tokens in front -/

theorem kind_eq {k : Kind} (hs : s.Strict) (ht : s.terms = ts) (hk : look ts = k) :
    s.current.kind = k := by
  rw [← hs.ends.look_terms, ht, hk]

theorem rest_eq (hs : s.Strict) (ht : s.terms = t :: ts) : s.advanced.terms = ts :=
  (hs.ends.of_terms_cons ht).2

theorem valid (hs : s.Strict) : s.current.valid = true :=
  (hs.sound _ List.mem_cons_self).1

theorem kind_ne_illegal (hs : s.Strict) : s.current.kind ≠ .illegal :=
  (hs.sound _ List.mem_cons_self).2

end Strict

end State

/-! ## Rules -/

variable {α β : Type} {s : State} {Q : α → State → Prop} {E : State → Prop} {k opener : Kind}
  {place : Location}

namespace State.Strict

theorem bind {p : Parse β} {f : β → Parse α} {P : β → State → Prop} (hs : s.Strict)
    (h : Ensures p s P E) (next : ∀ b s', s'.Strict → P b s' → Ensures (f b) s' Q E) :
    Ensures (p >>= f) s Q E :=
  h.bind fun b s' steps hb => next b s' (hs.steps steps).1 hb

theorem advance_last {Q : Token → State → Prop} (hs : s.Strict) (h : Q s.current s.advanced) :
    Ensures Parse.advance s Q E :=
  .of_checked (run_advance s) (.advance s) (.advance s) h fun dead => absurd hs.alive_fetched dead

theorem advance {f : Token → Parse α} (hs : s.Strict)
    (next : Ensures (f s.current) s.advanced Q E) : Ensures (Parse.advance >>= f) s Q E := by
  refine .bind (P := fun t s' => t = s.current ∧ s' = s.advanced) (hs.advance_last ⟨rfl, rfl⟩) ?_
  rintro _ _ _ ⟨rfl, rfl⟩
  exact next

theorem peek {f : Kind → Parse α} (hs : s.Strict) (hk : s.current.kind ≠ .eof)
    (next : Ensures (f (look s.advanced.terms)) s.peeked Q E) :
    Ensures (Parse.peek >>= f) s Q E := by
  refine .bind (P := fun k s' => k = look s.advanced.terms ∧ s' = s.peeked) ?_ ?_
  · exact .of_checked (run_peek s) (.peek s) (.peek s) ⟨hs.ends.peek_kind hk, rfl⟩
      fun dead => absurd hs.alive_peeked dead
  · rintro _ _ _ ⟨rfl, rfl⟩
    exact next

/-- A report ends reading, so whatever is wanted of an answer holds. -/
theorem report {cause : Cause} {f : Unit → Parse α} (hs : s.Strict) (hc : cause.isMarker = false)
    (stop : E (s.noting cause place)) : Ensures (Parse.report cause place >>= f) s Q E := by
  refine .bind (P := fun _ s' => s' = s.noting cause place) ?_ ?_
  · exact .of_checked (run_report cause place s) (.report s place hc) (.report s place hc) rfl
      fun _ => stop
  · rintro _ _ steps rfl
    exact absurd (hs.steps steps).1.alive (hs.not_alive_noting cause place)

theorem accept {f : Option Token → Parse α} (hs : s.Strict)
    (yes : s.current.kind = k → Ensures (f (some s.current)) s.advanced Q E)
    (no : s.current.kind ≠ k → Ensures (f none) s Q E) :
    Ensures (Parse.accept k >>= f) s Q E := by
  refine .bind (P := fun t s' => Ensures (f t) s' Q E) ?_ fun _ _ _ h => h
  unfold Parse.accept
  rw [ensures_at?]
  by_cases h : s.current.kind = k
  · rw [decide_eq_true h]
    exact .map (hs.advance_last (yes h))
  · rw [decide_eq_false h]
    exact .pure (no h)

/-- Another token than the one that is expected ends reading. -/
theorem expect_or {f : Token → Parse α} (hs : s.Strict)
    (yes : s.current.kind = k → Ensures (f s.current) s.advanced Q E)
    (no : s.current.kind ≠ k → ∀ s', E s') : Ensures (Parse.expect k >>= f) s Q E := by
  refine .bind (P := fun t s' => Ensures (f t) s' Q E) ?_ fun _ _ _ h => h
  rw [expect_eq_demand]
  exact ensures_demand (fun h => hs.advance_last (yes h)) fun h => hs.report rfl (no h _)

theorem expectEnd_or {f : Token → Parse α} (hs : s.Strict)
    (yes : s.current.kind = k → Ensures (f s.current) s.advanced Q E)
    (no : s.current.kind ≠ k → ∀ s', E s') :
    Ensures (Parse.expectEnd k opener place >>= f) s Q E := by
  refine .bind (P := fun t s' => Ensures (f t) s' Q E) ?_ fun _ _ _ h => h
  rw [expectEnd_eq_demand]
  exact ensures_demand (fun h => hs.advance_last (yes h)) fun h => hs.report rfl (no h _)

theorem expectName_or {f : Ident → Parse α} (hs : s.Strict)
    (yes : s.current.kind = .ident →
      Ensures (f ⟨s.current.text, s.current.location, true, none⟩) s.advanced Q E)
    (no : s.current.kind ≠ .ident → ∀ s', E s') : Ensures (Parse.expectName k >>= f) s Q E := by
  refine .bind (P := fun n s' => Ensures (f n) s' Q E) ?_ fun _ _ _ h => h
  unfold Parse.expectName
  rw [ensures_at?]
  by_cases h : s.current.kind = .ident
  · rw [decide_eq_true h]
    refine hs.advance (.pure ?_)
    rw [hs.valid]
    exact yes h
  · rw [decide_eq_false h]
    simp only [Bool.false_eq_true, if_false, ensures_found, ensures_current]
    exact hs.report rfl (no h _)

/-! ## What is expected is there, or reading ends -/

theorem expect {f : Token → Parse α} (hs : s.Strict)
    (yes : s.current.kind = k → Ensures (f s.current) s.advanced Q fun _ => True) :
    Ensures (Parse.expect k >>= f) s Q fun _ => True :=
  hs.expect_or yes fun _ _ => trivial

theorem expectEnd {f : Token → Parse α} (hs : s.Strict)
    (yes : s.current.kind = k → Ensures (f s.current) s.advanced Q fun _ => True) :
    Ensures (Parse.expectEnd k opener place >>= f) s Q fun _ => True :=
  hs.expectEnd_or yes fun _ _ => trivial

theorem expectName {f : Ident → Parse α} (hs : s.Strict)
    (yes : s.current.kind = .ident →
      Ensures (f ⟨s.current.text, s.current.location, true, none⟩) s.advanced Q fun _ => True) :
    Ensures (Parse.expectName k >>= f) s Q fun _ => True :=
  hs.expectName_or yes fun _ _ => trivial

/-! ## In front of what is expected -/

variable {t : Terminal} {n : String} {ts : List Terminal}

theorem accept_at {f : Option Token → Parse α} (hs : s.Strict) (ht : s.terms = .fixed k :: ts)
    (next : s.advanced.terms = ts → Ensures (f (some s.current)) s.advanced Q E) :
    Ensures (Parse.accept k >>= f) s Q E :=
  hs.accept (fun _ => next (hs.rest_eq ht)) fun no => absurd (hs.kind_eq ht rfl) no

theorem accept_none {f : Option Token → Parse α} (hs : s.Strict) (ht : s.terms = ts)
    (hk : look ts ≠ k) (next : Ensures (f none) s Q E) : Ensures (Parse.accept k >>= f) s Q E :=
  hs.accept (fun yes => absurd yes (hs.kind_eq ht rfl ▸ hk)) fun _ => next

theorem expect_at {f : Token → Parse α} (hs : s.Strict) (ht : s.terms = .fixed k :: ts)
    (next : s.advanced.terms = ts → Ensures (f s.current) s.advanced Q E) :
    Ensures (Parse.expect k >>= f) s Q E :=
  hs.expect_or (fun _ => next (hs.rest_eq ht)) fun no => absurd (hs.kind_eq ht rfl) no

theorem expectEnd_at {f : Token → Parse α} (hs : s.Strict) (ht : s.terms = .fixed k :: ts)
    (next : s.advanced.terms = ts → Ensures (f s.current) s.advanced Q E) :
    Ensures (Parse.expectEnd k opener place >>= f) s Q E :=
  hs.expectEnd_or (fun _ => next (hs.rest_eq ht)) fun no => absurd (hs.kind_eq ht rfl) no

theorem expectName_at {f : Ident → Parse α} (hs : s.Strict) (ht : s.terms = .name n :: ts)
    (next : s.advanced.terms = ts →
      Ensures (f ⟨n, s.current.location, true, none⟩) s.advanced Q E) :
    Ensures (Parse.expectName k >>= f) s Q E := by
  have text : s.current.text = n := Token.text_of_terminal_name (hs.ends.of_terms_cons ht).1
  refine hs.expectName_or (fun _ => ?_) fun no => absurd (hs.kind_eq ht rfl) no
  rw [text]
  exact next (hs.rest_eq ht)

theorem advance_at {f : Token → Parse α} (hs : s.Strict) (ht : s.terms = t :: ts)
    (next : s.current.terminal = t → s.advanced.terms = ts →
      Ensures (f s.current) s.advanced Q E) : Ensures (Parse.advance >>= f) s Q E :=
  hs.advance (next (hs.ends.of_terms_cons ht).1 (hs.ends.of_terms_cons ht).2)

end State.Strict

end Parse

end LuaFront
