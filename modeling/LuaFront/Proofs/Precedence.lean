import LuaFront.Proofs.Acceptance
import LuaFront.Proofs.Frames
import LuaFront.Proofs.Separable

/-!
# The trees of operators

The grammar has the ranks of operators in its rules, and the readers compare binding priorities. An
expression that is read without an error is what the grammar means by the tokens that were taken,
and it is the only one: no other tree has these tokens (`Source.spells_fullExp`). This holds
wherever an expression is read, also between errors in other parts of a source.

An answer into which no error went is read in the same way if no further error is wanted, so what is
known of spent states applies (`Composed.run_allow_length`). That no other tree has the same tokens
follows from completeness: a reader in front of these tokens alone comes to all of their trees, and
to one only (`Grammar.spells_unique`).
-/

namespace LuaFront

open Grammar Parse

namespace Grammar

/-- The text is an expression that means `e`, on as many levels as it takes. -/
def Spells (ts : List Terminal) (e : Exp) : Prop := ∃ n, (level n).exp 0 ts e []

end Grammar

namespace Parse.State

/-! ## In front of given tokens -/

/-- The token without any errors. -/
def faultless (t : Token) : Lexeme := ⟨[], { t with valid := true }, none⟩

/-- For all tokens there is a strict state in front of them. -/
theorem exists_strict {ts : List Token} (eof : ∀ t ∈ ts, t.kind ≠ .eof)
    (illegal : ∀ t ∈ ts, t.kind ≠ .illegal) :
    ∃ s : State, s.Strict ∧ s.terms = ts.map Token.terminal := by
  let final := LexemeStream.endOfInput ⟨"", []⟩
  obtain ⟨x, xs, eq⟩ : ∃ x xs, ts.map faultless ++ [final] = x :: xs :=
    List.exists_cons_of_ne_nil (List.append_ne_nil_of_right_ne_nil _ (List.cons_ne_nil _ _))
  let s : State := { current := x.token, lexer := ⟨⟨xs, final⟩, {}, ⟨0, [], false⟩⟩ }
  have ahead : s.ahead = ts.map (fun t => (faultless t).token) ++ [final.token] := by
    show (x :: xs).map (·.token) = _
    rw [← eq, List.map_append, List.map_map]
    rfl
  have pending : s.pending = ts.map (fun t => (faultless t).token) := by
    rw [State.pending, ahead, List.dropLast_concat]
  refine ⟨s, ⟨⟨rfl, ?_, ?_⟩, ?_, ⟨rfl, rfl⟩, ?_, rfl⟩, ?_⟩
  · rw [ahead, List.getLast?_concat]
    rintro t ⟨⟩
    rfl
  · rw [pending]
    exact List.forall_mem_map.2 eof
  · intro y hy
    have mem : y ∈ ts.map faultless ++ [final] := eq ▸ List.mem_cons_of_mem x hy
    rcases List.mem_append.1 mem with mem | mem
    · obtain ⟨t, -, rfl⟩ := List.mem_map.1 mem
      rfl
    · obtain rfl := List.mem_singleton.1 mem
      rfl
  · rw [ahead]
    intro t ht
    rcases List.mem_append.1 ht with ht | ht
    · obtain ⟨u, hu, rfl⟩ := List.mem_map.1 ht
      exact ⟨rfl, illegal u hu⟩
    · obtain rfl := List.mem_singleton.1 ht
      exact ⟨rfl, (by decide : Kind.eof ≠ Kind.illegal)⟩
  · rw [terms, pending, List.map_map]
    rfl

end Parse.State

namespace Grammar

/-- Tokens are an expression in one way only. -/
theorem spells_unique {ts : List Token} (eof : ∀ t ∈ ts, t.kind ≠ .eof)
    (illegal : ∀ t ∈ ts, t.kind ≠ .illegal) {e e' : Exp} (h : Spells (ts.map Token.terminal) e)
    (h' : Spells (ts.map Token.terminal) e') : e = e' := by
  obtain ⟨s, hs, terms⟩ := State.exists_strict eof illegal
  obtain ⟨n, h⟩ := h
  obtain ⟨m, h'⟩ := h'
  -- With levels for both, neither can be too deep.
  have arrives {k : Nat} {e : Exp} (le : k ≤ max n m) (h : (level k).exp 0 s.terms e []) :
      Arrives (nested (max n m)).fullExp s Exp.shape e [] fun _ => False :=
    arrives_fullExp (complete_nested _ fun lt => absurd le (Nat.not_le_of_lt lt)) hs rfl h
      (clear rfl rfl)
  rw [← terms] at h h'
  have first := arrives (le_max_left n m) h
  have second := arrives (le_max_right n m) h'
  cases run : (nested (max n m)).fullExp s with
  | ok a t => exact (first.of_ok run).2.1.symm.trans (second.of_ok run).2.1
  | error _ t => exact (first.of_error run).2.elim

end Grammar

namespace Parse

variable {s s' : State}

/-! ## Where expressions are read -/

namespace State

/-- What the tokens of a source keep while they are taken. The end of input is the last of them,
errors are errors of the text, and names are valid. An illegal token has an error that it brings up,
unless it is the next one and has been looked at. -/
structure Genuine (s : State) : Prop where
  ends : s.Ends
  within : s.Within
  names : ∀ t ∈ s.ahead, t.kind = .ident → t.valid = true
  marked : ∀ x ∈ s.stream.upcoming.tail, x.token.kind = .illegal → x.fault ≠ none

theorem genuine_ofSource {source : Source} {limit : Nat} (more : (ofSource source limit).Alive) :
    (ofSource source limit).Genuine := by
  have start : (ErrorLog.mk limit [] false).Open := ⟨rfl, Nat.zero_le limit, nofun⟩
  have hopen := start.report? (fun _ => isOrdinary_of_mem_first_fault source) more
  refine ⟨ends_ofSource source limit, within_ofSource source limit hopen, ?_, ?_⟩
  · rw [ahead_ofSource]
    exact List.forall_mem_map.2 fun x hx => Source.valid_of_mem_lexemes hx
  · intro x hx illegal fault
    have mem := mem_lexemes_of_mem_upcoming source limit (List.mem_of_mem_tail hx)
    exact (Source.sound_of_mem_lexemes mem fault).2 illegal

theorem Ends.allow (h : s.Ends) (n : Nat) : (s.allow n).Ends := ⟨h.final, h.last, h.front⟩

/-- No further error is wanted if no more are than there are. -/
theorem Within.full_allow (hs : s.Within) : (s.allow s.log.entries.length).Full := by
  intro e
  show ((s.log.allow s.log.entries.length).report e).exhausted = true
  simp [ErrorLog.report, ErrorLog.allow, hs.log.exhausted]

theorem Genuine.advanced (hs : s.Genuine) (within : s.advanced.Within) : s.advanced.Genuine := by
  refine ⟨hs.ends.advanced, within, hs.ends.names_advanced hs.names, ?_⟩
  have marked := hs.marked
  cases h : s.stream.upcoming with
  | nil =>
    rw [upcoming_advanced_nil h]
    exact List.forall_mem_nil _
  | cons x xs =>
    rw [h] at marked
    rw [upcoming_advanced_cons h]
    exact fun y hy => marked y (List.mem_of_mem_tail hy)

theorem Genuine.peeked (hs : s.Genuine) (within : s.peeked.Within) : s.peeked.Genuine := by
  have names := hs.names
  rw [← ahead_peeked] at names
  refine ⟨hs.ends.peeked, within, names, ?_⟩
  have marked := hs.marked
  cases h : s.stream.upcoming with
  | nil =>
    rw [upcoming_peeked_nil h]
    exact List.forall_mem_nil _
  | cons x xs =>
    rw [h] at marked
    rw [upcoming_peeked_cons h]
    exact marked

theorem Genuine.step (hs : s.Genuine) (h : Step s s') : s'.Genuine := by
  have within := hs.within.step h
  cases h with
  | report place => exact ⟨hs.ends.noting _ place, within, hs.names, hs.marked⟩
  | advance => exact hs.advanced within
  | peek => exact hs.peeked within

theorem Genuine.steps (hs : s.Genuine) (h : Steps s s') : s'.Genuine := by
  induction h with
  | refl => exact hs
  | tail _ step ih => exact ih.step step

/-- If no further error is wanted, and neither of the next two tokens is illegal, the state is
spent. -/
theorem Genuine.spent (hs : s.Genuine) (current : s.current.kind ≠ .illegal)
    (next : s.advanced.current.kind ≠ .illegal) : (s.allow s.log.entries.length).Spent := by
  refine ⟨hs.ends.allow _, hs.within.full_allow, fun _ => current, fun _ => ?_, hs.names⟩
  have marked := hs.marked
  show ∀ x ∈ s.stream.upcoming, _
  cases h : s.stream.upcoming with
  | nil => exact List.forall_mem_nil _
  | cons y ys =>
    rw [h] at marked
    rw [current_advanced_cons h] at next
    exact List.forall_mem_cons.2 ⟨fun illegal => absurd illegal next, marked⟩

end State

/-! ## Illegal tokens -/

/-- An illegal token in front of an expression is taken. -/
theorem takes_illegal (n limit : Nat) (hs : s.Ends) (hk : s.current.kind = .illegal) :
    Takes ((nested n).exp limit) s := by
  cases n with
  | zero => exact .tooDeep trivial
  | succ n =>
    have composed := composed_nested n
    have simple : Takes (simple (nested n)) s := by
      unfold Takes Parse.simple
      rw [ensures_current, hk]
      exact takes_suffixed composed hs (by rw [hk]; rfl)
    have operand : Takes (operand (nested n)) s := by
      unfold Takes Parse.operand
      rw [ensures_current, hk]
      exact simple
    exact operand.bind fun _ => .loop (composed_operation composed limit) _

/-- What a reader comes to from the first of two tokens, the second of which is illegal. Either it
has taken both, or the first is an operand by itself. -/
def Lone (s : State) (e : Exp) (s' : State) : Prop :=
  s'.left < s.advanced.left ∨ s' = s.advanced ∧ ∀ d, Simple d [s.current.terminal] e.shape []

theorem lone_numeral {t : Token} (full : s.Full) (ht : t.kind = .number) :
    Ensures (numeral t) s (fun e s' => s' = s ∧ ∀ d, Simple d [t.terminal] e.shape [])
      fun _ => True := by
  unfold numeral
  rw [Token.terminal_of_number ht]
  split
  · next value hv => exact .pure ⟨rfl, fun d => .integer hv⟩
  · next value hv => exact .pure ⟨rfl, fun d => .float hv⟩
  · exact full.report rfl

section Lone

variable {n : Nat} (full : s.Full) (ends : s.Ends)

include full ends

/-- What goes on up to a closing token takes this token. -/
theorem ensures_closing {α β : Type} {p : Parse β} {f : β → Token → Parse α}
    {Q : α → State → Prop} {k opener : Kind} {place : Location} (hp : Composed p)
    (hf : ∀ b t, Composed (f b t)) (hk : k ≠ .eof) (hQ : ∀ a s', s'.left < s.left → Q a s') :
    Ensures (p >>= fun b => expectEnd k opener place >>= f b) s Q fun _ => True := by
  refine (hp.ensures s).bind fun b s₁ steps _ => (full.steps steps).expectEnd fun here => ?_
  have lt := (steps.ends ends).left_advanced_lt (by rw [here]; exact hk)
  exact (hf b _).ensures_of_steps fun a s' more =>
    hQ a s' (Nat.lt_of_le_of_lt more.left_le (Nat.lt_of_lt_of_le lt steps.left_le))

theorem lone_suffixed (legal : s.current.kind ≠ .illegal)
    (next : s.advanced.current.kind = .illegal) :
    Ensures (suffixed (nested n)) s (Lone s) fun _ => True := by
  have composed := composed_nested n
  refine .bind (P := fun e s₁ => s₁.left < s.advanced.left ∨
    s₁ = s.advanced ∧ ∀ d, Prefixed d [s.current.terminal] e.shape []) ?_ ?_
  · unfold primary
    rw [ensures_current]
    split
    · next hk => exact .advance (.pure (.inr ⟨rfl, fun d => Token.terminal_of_ident hk ▸ .name⟩))
    · exact .advance (ensures_closing full.advanced ends.advanced composed.fullExp
        (fun _ _ => .pure _) (by decide) fun _ _ lt => .inl lt)
    · exact .ite (fun hk => absurd hk legal) fun _ => full.report rfl
  · rintro e s₁ - (lt | ⟨rfl, he⟩)
    · exact (Composed.loop (composed_suffix composed) e).ensures_of_steps fun _ _ steps =>
        .inl (Nat.lt_of_le_of_lt steps.left_le lt)
    · refine .loop_step (advances_suffix composed) ends.advanced ?_
      unfold suffix
      rw [ensures_current, next]
      exact .pure (.inr ⟨rfl, fun d => .complete (.mk (he d) nofun)⟩)

theorem lone_simple (legal : s.current.kind ≠ .illegal)
    (next : s.advanced.current.kind = .illegal) :
    Ensures (simple (nested n)) s (Lone s) fun _ => True := by
  have composed := composed_nested n
  have alone {e : Exp} (h : ∀ d, Simple d [s.current.terminal] e.shape []) :
      Lone s e s.advanced := .inr ⟨rfl, h⟩
  unfold simple
  rw [ensures_current]
  split
  · next hk => exact .advance (.pure (alone fun d => Token.terminal_of_fixed hk rfl ▸ .kwNil))
  · next hk => exact .advance (.pure (alone fun d => Token.terminal_of_fixed hk rfl ▸ .kwTrue))
  · next hk => exact .advance (.pure (alone fun d => Token.terminal_of_fixed hk rfl ▸ .kwFalse))
  · next hk => exact .advance (.pure (alone fun d => Token.terminal_of_fixed hk rfl ▸ .vararg))
  · next hk => exact .advance ((lone_numeral full.advanced hk).imp fun _ _ _ h => .inr h)
  · next hk => exact .advance (.pure (alone fun d => Token.terminal_of_string hk ▸ .string))
  · exact .advance (ensures_closing full.advanced ends.advanced (composed_fields composed)
      (fun _ _ => .pure _) (by decide) fun _ _ lt => .inl lt)
  · refine .advance (full.advanced.expect fun paren => ?_)
    rw [next] at paren
    exact nomatch paren
  · exact lone_suffixed full ends legal next

theorem lone_operand (legal : s.current.kind ≠ .illegal)
    (next : s.advanced.current.kind = .illegal) :
    Ensures (operand (nested n)) s (Lone s) fun _ => True := by
  unfold operand
  rw [ensures_current]
  split
  · have takes := takes_illegal n UnaryOp.priority ends.advanced next
    exact .advance ((takes.bind fun _ => .pure _).imp fun _ _ _ lt => .inl lt)
  · exact lone_simple full ends legal next

/-- Nothing goes on with an operand in front of an illegal token. -/
theorem lone_subexpression (limit : Nat) (legal : s.current.kind ≠ .illegal)
    (next : s.advanced.current.kind = .illegal) :
    Ensures (subexpression (nested n) limit) s (Lone s) fun _ => True := by
  have composed := composed_nested n
  refine (lone_operand full ends legal next).bind ?_
  rintro e s₁ - (lt | ⟨rfl, he⟩)
  · exact (Composed.loop (composed_operation composed limit) e).ensures_of_steps fun _ _ steps =>
      .inl (Nat.lt_of_le_of_lt steps.left_le lt)
  · refine .loop_step (advances_operation composed limit) ends.advanced ?_
    unfold operation
    rw [ensures_current, next]
    exact .pure (.inr ⟨rfl, he⟩)

end Lone

/-! ## What is taken -/

namespace State

/-- The tokens that are taken between two states. -/
def taken (s s' : State) : List Token := s.pending.take (s.left - s'.left)

theorem Ends.taken_eq_cons (h : s.Ends) (hk : s.current.kind ≠ .eof) (lt : s'.left < s.left) :
    s.taken s' = s.current :: s.advanced.taken s' := by
  have left : s.left = s.advanced.left + 1 := by rw [State.left, h.pending_eq hk]; rfl
  rw [taken, h.pending_eq hk, left, Nat.succ_sub (by omega), List.take_succ_cons, taken]

end State

theorem Steps.pending_eq_taken (h : Steps s s') : s.pending = s.taken s' ++ s'.pending := by
  obtain ⟨ts, eq⟩ := h.pending_suffix
  have taken : s.taken s' = ts := by
    rw [State.taken, State.left, State.left, ← eq, List.length_append, Nat.add_sub_cancel,
      List.take_left]
  rw [taken, eq]

namespace State.Genuine

variable {n : Nat} {e : Exp}

/-- An illegal token in front of an expression is among those that are taken. -/
theorem legal_current (hs : s.Genuine) (run : (nested n).fullExp s = .ok e s')
    (legal : ∀ t ∈ s.taken s', t.kind ≠ .illegal) : s.current.kind ≠ .illegal := by
  intro illegal
  have lt := ((takes_illegal n 0 hs.ends illegal).of_ok run).2
  rw [hs.ends.taken_eq_cons (by rw [illegal]; exact nofun) lt] at legal
  exact legal _ List.mem_cons_self illegal

/-- An expression in front of an illegal token that is not taken is an operand by itself. -/
theorem exp_lone (hs : s.Genuine)
    (run : (nested n).fullExp (s.allow s.log.entries.length) = .ok e s')
    (legal : ∀ t ∈ s.taken s', t.kind ≠ .illegal) (current : s.current.kind ≠ .illegal)
    (next : s.advanced.current.kind = .illegal) :
    (level n).exp 0 ((s.taken s').map Token.terminal) e.shape [] := by
  have eof : s.current.kind ≠ .eof := by
    intro eof
    rw [current_advanced_nil (hs.ends.kind_eq_eof_iff.1 eof), hs.ends.final] at next
    exact nomatch next
  have lt : s.advanced.left < s.left := hs.ends.left_advanced_lt eof
  cases n with
  | zero => exact nomatch run
  | succ n =>
    have lone := lone_subexpression (n := n) hs.within.full_allow (hs.ends.allow _) 0 current next
    rcases (lone.of_ok run).2 with more | ⟨rfl, he⟩
    · have two : s'.left < s.advanced.left := more
      rw [hs.ends.taken_eq_cons eof (Nat.lt_trans two lt),
        hs.ends.advanced.taken_eq_cons (by rw [next]; exact nofun) two] at legal
      exact absurd next (legal _ (List.mem_cons_of_mem _ List.mem_cons_self))
    · have one : s.taken s.advanced = [s.current] := by
        rw [hs.ends.taken_eq_cons eof lt, taken, Nat.sub_self, List.take_zero]
      show (level (n + 1)).exp 0 ((s.taken s.advanced).map Token.terminal) e.shape []
      rw [one]
      exact .simple (he (level n))

/-- What is read without an error is what the grammar means by the tokens that are taken. -/
theorem exp_taken (hs : s.Genuine) (run : (nested n).fullExp s = .ok e s')
    (quiet : s'.log = s.log) (legal : ∀ t ∈ s.taken s', t.kind ≠ .illegal) :
    (level n).exp 0 ((s.taken s').map Token.terminal) e.shape [] := by
  have composed := (composed_nested n).fullExp
  have current := hs.legal_current run legal
  have steps := ((composed.ensures s).of_ok run).1
  obtain ⟨t, run', rfl⟩ := composed.run_allow_length hs.within run quiet
  by_cases next : s.advanced.current.kind = .illegal
  · have lone := hs.exp_lone run' legal current next
    exact lone
  · have spent := hs.spent current next
    obtain ⟨-, he, -⟩ := ((sound_nested n).exp binds_zero spent).of_ok run'
    have terms : (s.allow s.log.entries.length).terms =
        (s.taken (t.allow s.log.limit)).map Token.terminal ++ t.terms := by
      show s.pending.map Token.terminal = _
      rw [steps.pending_eq_taken, List.map_append]
      rfl
    rw [terms] at he
    obtain ⟨front, eq, he⟩ := (separable_level n).exp 0 (r := []) t.terms he
    rw [List.append_cancel_right eq]
    exact he

end State.Genuine

end Parse

/-! ## Sources -/

namespace Source

open State

/-- Reading a source comes to a state: more errors are wanted in front of the first token, and steps
lead on from there. -/
def Reaches (source : Source) (limit : Nat) (s : State) : Prop :=
  (State.ofSource source limit).Alive ∧ Steps (.ofSource source limit) s

/-- Wherever an expression is read and no error comes up meanwhile, its tree is the only one that
the grammar has for the tokens that were taken. An illegal token has had its error when it was
fetched, which may be before the expression, so it is excluded by itself. -/
theorem spells_fullExp (source : Source) (limit n : Nat) {s s' : State} {e : Exp}
    (reach : source.Reaches limit s) (run : (nested n).fullExp s = .ok e s')
    (quiet : s'.log = s.log) (legal : ∀ t ∈ s.taken s', t.kind ≠ .illegal) :
    s.pending = s.taken s' ++ s'.pending ∧
      ∀ tree, Spells ((s.taken s').map Token.terminal) tree ↔ tree = e.shape := by
  have hs := (genuine_ofSource reach.1).steps reach.2
  have steps := (((composed_nested n).fullExp.ensures s).of_ok run).1
  have spells : Spells ((s.taken s').map Token.terminal) e.shape :=
    ⟨n, hs.exp_taken run quiet legal⟩
  have eof : ∀ t ∈ s.taken s', t.kind ≠ .eof := fun t ht =>
    hs.ends.front t (steps.pending_eq_taken ▸ List.mem_append_left _ ht)
  refine ⟨steps.pending_eq_taken, fun tree => ⟨fun h => spells_unique eof legal h spells, ?_⟩⟩
  rintro rfl
  exact spells

/-- A sign in front of a power that is joined to a name goes over the power, and not further. -/
theorem spells_fullExp_sign :
    let source : Source := ⟨"", ["x = -a ^ b .. c".toList]⟩
    let s := (State.ofSource source 30).advanced.advanced
    source.Reaches 30 s ∧ ∃ e s', (nested maxLevels).fullExp s = .ok e s' ∧ s'.log = s.log ∧
      (s.taken s').map Token.terminal = [.fixed .minus, .name "a", .fixed .caret, .name "b",
        .fixed .doubleDot, .name "c"] ∧
      e.shape = .binary .concat (.unary .negate (.binary .pow (.name "a" {}) (.name "b" {}) {}) {})
        (.name "c" {}) {} := by
  intro source s
  have reach : source.Reaches 30 s := by
    have start : (State.ofSource source 30).log.exhausted = false := by decide +kernel
    have first : (State.ofSource source 30).fetched.log.exhausted = false := by decide +kernel
    have second : (State.ofSource source 30).advanced.fetched.log.exhausted = false := by
      decide +kernel
    exact ⟨start, .tail (.tail .refl (.advance _ first)) (.advance _ second)⟩
  have run : (match (nested maxLevels).fullExp s with
      | .ok _ s' => decide (s'.log = s.log ∧ (s.taken s').map Token.terminal = [.fixed .minus,
          .name "a", .fixed .caret, .name "b", .fixed .doubleDot, .name "c"] ∧
          ∀ t ∈ s.taken s', t.kind ≠ .illegal)
      | .error _ _ => false) = true := by
    decide +kernel
  refine ⟨reach, ?_⟩
  cases answer : (nested maxLevels).fullExp s with
  | error e t => rw [answer] at run; exact nomatch run
  | ok e t =>
    rw [answer] at run
    obtain ⟨quiet, taken, legal⟩ := of_decide_eq_true run
    have only := (spells_fullExp source 30 maxLevels reach answer quiet legal).2
    refine ⟨e, t, rfl, quiet, taken, ((only _).1 ?_).symm⟩
    rw [taken]
    have name {n rank : Nat} {text : String} {rest : List Terminal}
        (ends : look rest ≠ .leftParen) :
        (level (n + 1)).exp rank (.name text :: rest) (.name text {}) rest :=
      .simple (.complete (.mk .name ends))
    have power : (level 3).exp UnaryOp.rank
        [.name "a", .fixed .caret, .name "b", .fixed .doubleDot, .name "c"]
        (.binary .pow (.name "a" {}) (.name "b" {}) {}) [.fixed .doubleDot, .name "c"] :=
      .binary rfl (by decide) (name (by decide)) (name (by decide))
    exact ⟨4, .binary rfl (by decide) (.unary rfl (by decide) power) (name (by decide))⟩

end Source

end LuaFront
