import LuaFront.Proofs.Strict

/-!
# Reading without further errors

A log is full if one more error is one too many, however many are kept already. A state is `Spent`
if its log is full, and if the tokens to come are marked by their errors where they are illegal.
From there the first report ends reading, and so does the first illegal token that is fetched. An
answer is one that no further error went into, while the tokens behind it may be as they like.

Strict states are spent ones (`State.Strict.spent`). The rules are those of strict states for
readers of which nothing is asked where they stop.
-/

namespace LuaFront

open Grammar

theorem ErrorLog.report_of_exhausted {log : ErrorLog} (h : log.exhausted = true)
    (e : SyntaxError) : log.report e = log := by
  rw [report, if_pos h]

namespace Parse

variable {α β : Type} {s s' : State} {Q : α → State → Prop} {k opener : Kind} {place : Location}

namespace State

/-- One more error is one too many. -/
def Full (s : State) : Prop := ∀ e, (s.log.report e).exhausted = true

/-- One more error is one too many, and an illegal token that is still to come has one. So none is
looked at as long as more errors are wanted. All names are valid. -/
structure Spent (s : State) : Prop where
  ends : s.Ends
  full : s.Full
  legal : s.Alive → s.current.kind ≠ .illegal
  marked : s.Alive → ∀ x ∈ s.stream.upcoming, x.token.kind = .illegal → x.fault ≠ none
  names : ∀ t ∈ s.ahead, t.kind = .ident → t.valid = true

namespace Full

theorem not_alive_noting (h : s.Full) (cause : Cause) (place : Location) :
    ¬(s.noting cause place).Alive := by
  rw [Alive, log_noting, h]
  exact Bool.noConfusion

theorem report? (h : s.Full) (fault : Option SyntaxError) (e : SyntaxError) :
    ((s.log.report? fault).report e).exhausted = true := by
  cases fault with
  | none => exact h e
  | some first =>
    rw [ErrorLog.report?_some, ErrorLog.report_of_exhausted (h first)]
    exact h first

theorem advanced (h : s.Full) : s.advanced.Full := h.report? s.stream.next.1.fault

theorem peeked (h : s.Full) : s.peeked.Full := h.report? s.stream.peek.1.fault

/-- Whatever brings an error up leaves no more errors wanted. -/
theorem fault_eq_none (h : s.Full) {fault : Option SyntaxError}
    (alive : (s.log.report? fault).exhausted = false) : s.Alive ∧ fault = none := by
  cases fault with
  | none => exact ⟨alive, rfl⟩
  | some e => exact absurd ((h e).symm.trans alive) Bool.noConfusion

theorem alive_of_advanced (h : s.Full) (alive : s.advanced.Alive) :
    s.Alive ∧ s.stream.next.1.fault = none := h.fault_eq_none alive

theorem alive_of_peeked (h : s.Full) (alive : s.peeked.Alive) :
    s.Alive ∧ s.stream.peek.1.fault = none := h.fault_eq_none alive

theorem steps (h : s.Full) (steps : Steps s s') : s'.Full := by
  induction steps with
  | refl => exact h
  | tail _ step ih =>
    cases step with
    | report place _ alive => exact absurd alive (ih.not_alive_noting _ place)
    | advance => exact ih.advanced
    | peek => exact ih.peeked

/-- A report ends reading, so whatever is wanted of an answer holds. -/
theorem report {cause : Cause} {f : Unit → Parse α} (h : s.Full) (hc : cause.isMarker = false) :
    Ensures (Parse.report cause place >>= f) s Q fun _ => True :=
  .report_alive hc fun alive => absurd alive (h.not_alive_noting cause place)

/-- What is expected is there, or reading ends. -/
theorem expect {f : Token → Parse α} (h : s.Full)
    (yes : s.current.kind = k → Ensures (f s.current) s.advanced Q fun _ => True) :
    Ensures (Parse.expect k >>= f) s Q fun _ => True := by
  refine .bind (P := fun t s' => Ensures (f t) s' Q fun _ => True) ?_ fun _ _ _ h => h
  rw [expect_eq_demand]
  exact ensures_demand (fun here => .advance_last (yes here)) fun _ => h.report rfl

theorem expectEnd {f : Token → Parse α} (h : s.Full)
    (yes : s.current.kind = k → Ensures (f s.current) s.advanced Q fun _ => True) :
    Ensures (Parse.expectEnd k opener place >>= f) s Q fun _ => True := by
  refine .bind (P := fun t s' => Ensures (f t) s' Q fun _ => True) ?_ fun _ _ _ h => h
  rw [expectEnd_eq_demand]
  exact ensures_demand (fun here => .advance_last (yes here)) fun _ => h.report rfl

end Full

theorem Ends.names_advanced (h : s.Ends) (names : ∀ t ∈ s.ahead, t.kind = .ident → t.valid = true) :
    ∀ t ∈ s.advanced.ahead, t.kind = .ident → t.valid = true := by
  cases hu : s.stream.upcoming with
  | nil =>
    rw [ahead_advanced_nil hu]
    refine List.forall_mem_singleton.2 fun ident => ?_
    rw [h.final] at ident
    exact nomatch ident
  | cons x xs =>
    rw [ahead_advanced_cons hu] at names
    exact (List.forall_mem_cons.1 names).2

theorem Strict.spent (hs : s.Strict) : s.Spent := by
  have full : s.Full := fun e => by rw [hs.log]; rfl
  refine ⟨hs.ends, full, fun _ => hs.kind_ne_illegal, fun _ x hx illegal => ?_, ?_⟩
  · have ahead : x.token ∈ s.ahead := List.mem_cons_of_mem _ (List.mem_map_of_mem hx)
    exact absurd illegal (hs.sound _ ahead).2
  · exact fun t ht _ => (hs.sound t ht).1

namespace Spent

theorem advanced (hs : s.Spent) : s.advanced.Spent := by
  have names := hs.ends.names_advanced hs.names
  have marked (alive : s.advanced.Alive) := hs.marked (hs.full.alive_of_advanced alive).1
  refine ⟨hs.ends.advanced, hs.full.advanced, fun alive => ?_, fun alive => ?_, names⟩
  · cases h : s.stream.upcoming with
    | nil =>
      rw [current_advanced_nil h, hs.ends.final]
      exact nofun
    | cons x xs =>
      have fault := (hs.full.alive_of_advanced alive).2
      rw [LexemeStream.next, h] at fault
      rw [current_advanced_cons h]
      exact fun illegal => marked alive x (h ▸ List.mem_cons_self) illegal fault
  · cases h : s.stream.upcoming with
    | nil =>
      rw [upcoming_advanced_nil h]
      exact List.forall_mem_nil _
    | cons x xs =>
      rw [upcoming_advanced_cons h]
      exact fun y hy => marked alive y (h ▸ List.mem_cons_of_mem x hy)

theorem peeked (hs : s.Spent) : s.peeked.Spent := by
  have names := hs.names
  rw [← ahead_peeked] at names
  refine ⟨hs.ends.peeked, hs.full.peeked, fun alive => ?_, fun alive => ?_, names⟩
  · exact hs.legal (hs.full.alive_of_peeked alive).1
  · obtain ⟨alive, fault⟩ := hs.full.alive_of_peeked alive
    have marked := hs.marked alive
    cases h : s.stream.upcoming with
    | nil =>
      rw [upcoming_peeked_nil h]
      exact List.forall_mem_nil _
    | cons x xs =>
      rw [LexemeStream.peek, h] at fault
      rw [h] at marked
      rw [upcoming_peeked_cons h]
      refine List.forall_mem_cons.2 ⟨fun illegal => ?_, (List.forall_mem_cons.1 marked).2⟩
      exact absurd fault (marked x List.mem_cons_self illegal)

theorem step (hs : s.Spent) (h : Step s s') : s'.Spent ∧ s'.reports = s.reports := by
  cases h with
  | report place _ alive => exact absurd alive (hs.full.not_alive_noting _ place)
  | advance => exact ⟨hs.advanced, rfl⟩
  | peek => exact ⟨hs.peeked, rfl⟩

/-- Reading goes on as it is, and nothing is reported. -/
theorem steps (hs : s.Spent) (h : Steps s s') : s'.Spent ∧ s'.reports = s.reports := by
  induction h with
  | refl => exact ⟨hs, rfl⟩
  | tail _ step ih =>
    obtain ⟨spent, same⟩ := ih.1.step step
    exact ⟨spent, same.trans ih.2⟩

/-! ## Rules -/

theorem bind {p : Parse β} {f : β → Parse α} {P : β → State → Prop} {E : State → Prop}
    (hs : s.Spent) (h : Ensures p s P E)
    (next : ∀ b s', s'.Spent → P b s' → Ensures (f b) s' Q E) : Ensures (p >>= f) s Q E :=
  h.bind fun b s' steps hb => next b s' (hs.steps steps).1 hb

theorem peek {f : Kind → Parse α} (hs : s.Spent) (hk : s.current.kind ≠ .eof)
    (next : Ensures (f (look s.advanced.terms)) s.peeked Q fun _ => True) :
    Ensures (Parse.peek >>= f) s Q fun _ => True := by
  refine .bind (P := fun k s' => k = look s.advanced.terms ∧ s' = s.peeked) ?_ ?_
  · exact .of_checked (run_peek s) (.peek s) (.peek s) ⟨hs.ends.peek_kind hk, rfl⟩ fun _ => trivial
  · rintro _ _ _ ⟨rfl, rfl⟩
    exact next

theorem expectName {f : Ident → Parse α} (hs : s.Spent)
    (yes : s.current.kind = .ident →
      Ensures (f ⟨s.current.text, s.current.location, true, none⟩) s.advanced Q fun _ => True) :
    Ensures (Parse.expectName k >>= f) s Q fun _ => True := by
  refine .bind (P := fun n s' => Ensures (f n) s' Q fun _ => True) ?_ fun _ _ _ h => h
  unfold Parse.expectName
  rw [ensures_at?]
  by_cases here : s.current.kind = .ident
  · rw [decide_eq_true here]
    refine .advance (.pure ?_)
    rw [hs.names _ List.mem_cons_self here]
    exact yes here
  · rw [decide_eq_false here]
    simp only [Bool.false_eq_true, if_false, ensures_found, ensures_current]
    exact hs.full.report rfl

/-- An illegal token ends reading. -/
theorem advance_illegal {f : Token → Parse α} (hs : s.Spent) (illegal : s.current.kind = .illegal) :
    Ensures (Parse.advance >>= f) s Q fun _ => True :=
  .advance_alive fun alive => absurd illegal (hs.legal (hs.full.alive_of_advanced alive).1)

end Spent

end State

end Parse

end LuaFront
