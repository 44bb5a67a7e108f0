import LuaFront.Proofs.Composed
import LuaFront.Proofs.Faults

/-!
# Where errors are reported

The errors of tokens come up when the tokens are fetched, one or two tokens ahead of what a reader
judges, and a reader reports at its current token, or at what was taken already. `State.Sound` is
what holds between two tokens: the errors so far point at places of the source, follow one another,
and none of them is further on than the current token. Looking at the token behind a name may bring
up the error of that token too early; `State.Ready` is what is left then, and it is enough until the
name is taken.

`Diagnoses` says of a reader that it keeps all this up. Its rules go with those of `Ensures`.

* `State.sound_ofSource`: reading starts so.
* `State.Sound.noting_current`, `State.Sound.noting_late`, `State.Sound.advanced`: one step keeps it
  up.
-/

namespace LuaFront

/-- An error about what was taken already. -/
def Cause.isLate : Cause → Bool
  | .unknownAttribute _ | .invalidTarget | .malformedNumber _ => true
  | _ => false

/-- How two errors follow one another: in the order of their places, unless the second one is about
what was taken already, or is about the token that breaks off at the place of the first one. -/
def SyntaxError.Precedes (d e : SyntaxError) : Prop :=
  d.location.start ≤ e.location.start ∨ e.cause.isLate ∨
    d.cause.isUnfinished ∧ e.location.stop = d.location.start

namespace ErrorLog

/-- The errors of the text. -/
def findings (log : ErrorLog) : List SyntaxError := log.entries.filter fun e => !e.cause.isMarker

/-- The errors that are kept point at places of the source and follow one another. -/
structure Sound (src : Source) (log : ErrorLog) : Prop where
  shown : ∀ e ∈ log.entries, e.Shown src
  follow : log.findings.Pairwise SyntaxError.Precedes

variable {src : Source} {log : ErrorLog} {e : SyntaxError}

theorem entries_report (log : ErrorLog) (e : SyntaxError) :
    (log.report e).entries = log.entries ∨ (log.report e).entries = log.entries ++ [e] ∨
      (log.report e).entries = log.entries ++ [e.overflow log.limit] := by
  unfold report
  split
  · exact .inl rfl
  split
  · exact .inr (.inl rfl)
  · exact .inr (.inr rfl)

theorem findings_report (log : ErrorLog) (he : e.cause.isMarker = false) :
    (log.report e).findings = log.findings ∨ (log.report e).findings = log.findings ++ [e] := by
  unfold findings
  rcases log.entries_report e with same | kept | full
  · exact .inl (by rw [same])
  · exact .inr (by rw [kept, List.filter_append, List.filter_cons_of_pos (by simp [he])]; rfl)
  -- The entry that says the log is full tells nothing about the text.
  · refine .inl ?_
    rw [full, List.filter_append, List.filter_cons_of_neg (by simp [SyntaxError.overflow,
      Cause.isMarker])]
    exact List.append_nil _

theorem mem_findings_report (he : e.cause.isMarker = false) {d : SyntaxError}
    (h : d ∈ (log.report e).findings) : d ∈ log.findings ∨ d = e := by
  rcases log.findings_report he with same | kept
  · exact .inl (same ▸ h)
  · rw [kept] at h
    exact (List.mem_append.1 h).imp_right List.mem_singleton.1

theorem Sound.report (h : log.Sound src) (he : e.cause.isMarker = false) (shown : e.Shown src)
    (follows : ∀ d ∈ log.findings, d.Precedes e) : (log.report e).Sound src where
  shown d hd := by
    rcases log.entries_report e with same | kept | full
    · exact h.shown d (same ▸ hd)
    · rw [kept] at hd
      rcases List.mem_append.1 hd with hd | hd
      · exact h.shown d hd
      · exact List.mem_singleton.1 hd ▸ shown
    · rw [full] at hd
      rcases List.mem_append.1 hd with hd | hd
      · exact h.shown d hd
      · exact List.mem_singleton.1 hd ▸ ⟨shown.location, nofun⟩
  follow := by
    rcases log.findings_report he with same | kept
    · exact same ▸ h.follow
    · rw [kept, List.pairwise_append]
      refine ⟨h.follow, List.pairwise_singleton _ _, fun d hd x hx => ?_⟩
      exact List.mem_singleton.1 hx ▸ follows d hd

theorem Sound.abort (h : log.Sound src) {place : Location} (has : src.Has place) (levels : Nat) :
    (log.abort ⟨.tooManyLevels levels, place⟩).Sound src := by
  unfold ErrorLog.abort
  split
  · exact h
  · refine ⟨fun d hd => ?_, ?_⟩
    · rcases List.mem_append.1 hd with hd | hd
      · exact h.shown d hd
      · exact List.mem_singleton.1 hd ▸ ⟨has, nofun⟩
    · show ((log.entries ++ _).filter _).Pairwise _
      rw [List.filter_append, List.filter_cons_of_neg (by simp [Cause.isMarker])]
      exact (List.append_nil _).symm ▸ h.follow

end ErrorLog

namespace Parse

/-- An error is not further on than a token, except for one at which the token breaks off. -/
def Bounded (t : Token) (e : SyntaxError) : Prop :=
  e.location.start ≤ t.location.start ∨
    e.cause.isUnfinished ∧ e.location.start = t.location.stop

/-- A place of the source that does not start behind the current token. -/
structure Behind (src : Source) (s : State) (l : Location) : Prop where
  has : src.Has l
  start : l.start ≤ s.current.location.start

namespace State

/-- What holds between two tokens. -/
structure Sound (src : Source) (s : State) : Prop where
  ordered : s.Ordered
  ends : s.Ends
  places : ∀ t ∈ s.ahead, src.Has t.location
  final : src.Has s.stream.final.token.location
  quiet : s.stream.final.fault = none
  faults : ∀ x ∈ s.stream.upcoming, ∀ e ∈ x.fault, x.FaultAt src e
  log : s.log.Sound src
  bounded : ∀ e ∈ s.log.findings, Bounded s.current e

/-- What holds in front of a token that is taken next if it is a name. -/
structure Ready (src : Source) (s : State) : Prop where
  log : s.log.Sound src
  advanced : s.advanced.Sound src
  place : Behind src s.advanced s.current.location
  sound : s.current.kind ≠ .ident → s.Sound src

variable {src : Source} {s : State}

/-! ## Looking ahead -/

theorem log_peeked_cons {x : Lexeme} {xs : List Lexeme} (h : s.stream.upcoming = x :: xs) :
    s.peeked.log = s.advanced.log := by
  rw [log_peeked, log_advanced, LexemeStream.peek, LexemeStream.next, h]

/-- A token that was looked at is taken as if it had not been. -/
theorem advanced_peeked_cons {x : Lexeme} {xs : List Lexeme} (h : s.stream.upcoming = x :: xs) :
    s.peeked.advanced = s.advanced := by
  unfold stream at h
  simp [advanced, fetched, peeked, LexemeReader.next, LexemeReader.peek, LexemeReader.keep,
    LexemeStream.next, LexemeStream.peek, Lexeme.settled, CommentMap.insertAll, h]

namespace Sound

theorem has_current (h : s.Sound src) : src.Has s.current.location :=
  h.places _ List.mem_cons_self

theorem behind_current (h : s.Sound src) : Behind src s s.current.location :=
  ⟨h.has_current, le_refl _⟩

/-! ## Reports -/

theorem noting (h : s.Sound src) {cause : Cause} (ordinary : cause.isMarker = false)
    {place : Location} (hp : Behind src s place) (notes : ∀ n ∈ cause.boundNotes, src.Has n.1)
    (follows : ∀ d ∈ s.log.findings, d.Precedes ⟨cause, place⟩) :
    (s.noting cause place).Sound src where
  ordered := ⟨h.ordered.chain, h.ordered.final⟩
  ends := h.ends.noting cause place
  places := h.places
  final := h.final
  quiet := h.quiet
  faults := h.faults
  log := h.log.report ordinary ⟨hp.has, notes⟩ follows
  bounded d hd := by
    rcases ErrorLog.mem_findings_report ordinary hd with hd | rfl
    · exact h.bounded d hd
    · exact .inl hp.start

/-- An error at the current token follows those so far. -/
theorem noting_current (h : s.Sound src) {cause : Cause} (ordinary : cause.isMarker = false)
    (notes : ∀ n ∈ cause.boundNotes, src.Has n.1) :
    (s.noting cause s.current.location).Sound src := by
  refine h.noting ordinary h.behind_current notes fun d hd => ?_
  rcases h.bounded d hd with le | ⟨unfinished, eq⟩
  · exact .inl le
  · exact .inr (.inr ⟨unfinished, eq.symm⟩)

/-- An error about what was taken already may be anywhere in front of the current token. -/
theorem noting_late (h : s.Sound src) {cause : Cause} (late : cause.isLate) {place : Location}
    (hp : Behind src s place) : (s.noting cause place).Sound src := by
  have plain : cause.isMarker = false ∧ cause.boundNotes = [] := by
    cases cause with
    | unknownAttribute | invalidTarget | malformedNumber => exact ⟨rfl, rfl⟩
    | _ => exact nomatch late
  -- It need not follow the errors so far: an error that comes up late is let stand behind any.
  refine h.noting plain.1 hp ?_ fun d _ => .inr (.inl late)
  rw [plain.2]
  exact nofun

/-! ## Tokens -/

/-- No error so far is further on than the token behind the current one. -/
theorem start_le_advanced (h : s.Sound src) {d : SyntaxError} (hd : d ∈ s.log.findings) :
    d.location.start ≤ s.advanced.current.location.start := by
  have precedes := h.ordered.current_precedes
  rcases h.bounded d hd with le | ⟨-, eq⟩
  · exact le_trans le (le_trans precedes.1 precedes.2)
  · exact eq ▸ precedes.2

theorem next_cases (h : s.Sound src) :
    s.stream.next.1.fault = none ∨
      ∃ e, s.stream.next.1.fault = some e ∧ s.stream.next.1.FaultAt src e := by
  cases hs : s.stream.upcoming with
  | nil =>
    have next : s.stream.next.1 = s.stream.final := by rw [LexemeStream.next, hs]
    exact .inl (next ▸ h.quiet)
  | cons x xs =>
    have next : s.stream.next.1 = x := by rw [LexemeStream.next, hs]
    rw [next]
    cases hx : x.fault with
    | none => exact .inl rfl
    | some e => exact .inr ⟨e, rfl, h.faults x (hs ▸ List.mem_cons_self) e hx⟩

/-- The error of the next token follows those so far. -/
theorem log_advanced (h : s.Sound src) :
    s.advanced.log.Sound src ∧ ∀ e ∈ s.advanced.log.findings, Bounded s.advanced.current e := by
  rw [State.log_advanced]
  rcases h.next_cases with none | ⟨e, some, fault⟩
  · rw [none, ErrorLog.report?_none]
    exact ⟨h.log, fun d hd => .inl (h.start_le_advanced hd)⟩
  · rw [some, ErrorLog.report?_some]
    have here : Bounded s.advanced.current e := fault.place.imp_left le_of_eq
    have le : s.advanced.current.location.start ≤ e.location.start := by
      rcases fault.place with start | ⟨-, stop⟩
      · exact le_of_eq start.symm
      · exact stop ▸ h.ordered.advanced.start_le_stop
    refine ⟨h.log.report fault.ordinary fault.shown fun d hd => ?_, fun d hd => ?_⟩
    · exact .inl (le_trans (h.start_le_advanced hd) le)
    · rcases ErrorLog.mem_findings_report fault.ordinary hd with hd | rfl
      · exact .inl (h.start_le_advanced hd)
      · exact here

theorem advanced (h : s.Sound src) : s.advanced.Sound src where
  ordered := h.ordered.advanced
  ends := h.ends.advanced
  places t ht := by
    cases hs : s.stream.upcoming with
    | nil =>
      rw [ahead_advanced_nil hs] at ht
      exact List.mem_singleton.1 ht ▸ h.final
    | cons x xs => exact h.places t (ahead_advanced_cons hs ▸ List.mem_cons_of_mem _ ht)
  final := by
    rw [final_advanced]
    exact h.final
  quiet := by
    rw [final_advanced]
    exact h.quiet
  faults x hx := by
    cases hs : s.stream.upcoming with
    | nil =>
      rw [upcoming_advanced_nil hs] at hx
      exact nomatch hx
    | cons y ys =>
      rw [upcoming_advanced_cons hs] at hx
      exact h.faults x (hs ▸ List.mem_cons_of_mem y hx)
  log := h.log_advanced.1
  bounded := h.log_advanced.2

theorem behind_advanced (h : s.Sound src) : Behind src s.advanced s.current.location :=
  ⟨h.has_current, le_trans h.ordered.current_precedes.1 h.ordered.current_precedes.2⟩

theorem ready (h : s.Sound src) : s.Ready src := ⟨h.log, h.advanced, h.behind_advanced, fun _ => h⟩

/-- Behind a name, the next token may be looked at. -/
theorem ready_peeked (h : s.Sound src) (hk : s.current.kind = .ident) : s.peeked.Ready src := by
  have upcoming : s.stream.upcoming ≠ [] := fun none => by
    rw [h.ends.kind_eq_eof_iff.2 none] at hk
    exact nomatch hk
  obtain ⟨x, xs, hs⟩ := List.exists_cons_of_ne_nil upcoming
  have log : s.peeked.log = s.advanced.log := log_peeked_cons hs
  have same : s.peeked.advanced = s.advanced := advanced_peeked_cons hs
  -- The log runs ahead of the name, so only what holds behind the name is kept.
  refine ⟨log ▸ h.log_advanced.1, ?_, ?_, fun other => absurd hk other⟩
  · exact same ▸ h.advanced
  · exact same ▸ h.behind_advanced

end Sound

theorem sound_ofSource (split : src.IsSplit) (limit : Nat) : (ofSource src limit).Sound src := by
  have first : ∀ x ∈ src.lexemes, ∀ e ∈ x.fault, x.FaultAt src e := fun x hx e he =>
    Source.faultAt_of_mem_lexemes hx he
  have places : ∀ t ∈ (ofSource src limit).ahead, src.Has t.location := by
    rw [ahead_ofSource]
    intro t ht
    obtain ⟨x, hx, rfl⟩ := List.mem_map.1 ht
    exact Source.has_of_mem_lexemes hx
  have final : (ofSource src limit).stream.final = LexemeStream.endOfInput src := final_ofSource ..
  cases h : src.lexemes with
  | nil => exact absurd h src.lexemes_ne_nil
  | cons x xs =>
    have log : (ErrorLog.report? ⟨limit, [], false⟩ x.fault).Sound src ∧
        ∀ e ∈ (ErrorLog.report? ⟨limit, [], false⟩ x.fault).findings, Bounded x.token e := by
      have empty : ErrorLog.Sound src ⟨limit, [], false⟩ := ⟨nofun, .nil⟩
      cases hx : x.fault with
      | none => exact ⟨empty, nofun⟩
      | some e =>
        have fault := first x (h ▸ List.mem_cons_self) e hx
        rw [ErrorLog.report?_some]
        refine ⟨empty.report fault.ordinary fault.shown nofun, fun d hd => ?_⟩
        rcases ErrorLog.mem_findings_report fault.ordinary hd with hd | rfl
        · exact nomatch hd
        · exact fault.place.imp_left le_of_eq
    have start := ofSource_of_lexemes src limit h
    refine ⟨ordered_ofSource split limit, ends_ofSource src limit, places, ?_, ?_, ?_, ?_, ?_⟩
    · exact final ▸ src.has_endLocation split
    · exact final ▸ rfl
    · exact start ▸ fun y hy => first y (h ▸ List.mem_cons_of_mem x hy)
    · exact start ▸ log.1
    · exact start ▸ log.2

end State

/-! ## Readers -/

variable {α β : Type} {src : Source} {s s' : State} {Q : α → State → Prop}

theorem Behind.later {l : Location} (h : Behind src s l) (steps : Steps s s') (hs : s.Sound src) :
    Behind src s' l := ⟨h.has, le_trans h.start (steps.start_le hs.ordered)⟩

theorem Behind.cover {l m : Location} (h : Behind src s l) (k : src.Has m) :
    Behind src s (l.cover m) := ⟨h.has.cover k, le_trans (min_le_left _ _) h.start⟩

/-- From `s` on, a reader comes to a sound state with an answer for which `Q` holds, or stops with
errors that point at places of the source and follow one another. -/
def Diagnoses (src : Source) (p : Parse α) (s : State) (Q : α → State → Prop) : Prop :=
  Ensures p s (fun a s' => s'.Sound src ∧ Q a s') fun s' => s'.log.Sound src

/-! ### Readers that look and leave the state as it is -/

@[simp] theorem diagnoses_current {f : Token → Parse α} :
    Diagnoses src (current >>= f) s Q ↔ Diagnoses src (f s.current) s Q := Iff.rfl

@[simp] theorem diagnoses_at? {k : Kind} {f : Bool → Parse α} :
    Diagnoses src (at? k >>= f) s Q ↔ Diagnoses src (f (decide (s.current.kind = k))) s Q :=
  Iff.rfl

@[simp] theorem diagnoses_found {f : String → Parse α} :
    Diagnoses src (found >>= f) s Q ↔ Diagnoses src (f s.current.describe) s Q := Iff.rfl

@[simp] theorem diagnoses_reports {f : Nat → Parse α} :
    Diagnoses src (reports >>= f) s Q ↔ Diagnoses src (f s.reports) s Q := Iff.rfl

@[simp] theorem diagnoses_reported {f : Location → Parse α} :
    Diagnoses src (reported >>= f) s Q ↔ Diagnoses src (f s.reported) s Q := Iff.rfl

@[simp] theorem diagnoses_previous {f : Location → Parse α} :
    Diagnoses src (previous >>= f) s Q ↔ Diagnoses src (f s.previous) s Q := Iff.rfl

namespace Diagnoses

protected theorem pure (hs : s.Sound src) {a : α} (h : Q a s) : Diagnoses src (pure a) s Q :=
  Ensures.pure ⟨hs, h⟩

theorem imp {p : Parse α} {R : α → State → Prop} (h : Diagnoses src p s Q)
    (hQ : ∀ a s', s'.Sound src → Q a s' → R a s') : Diagnoses src p s R :=
  Ensures.imp h fun a s' _ ha => ⟨ha.1, hQ a s' ha.1 ha.2⟩

theorem bind {p : Parse β} {f : β → Parse α} {P : β → State → Prop} (h : Diagnoses src p s P)
    (k : ∀ b s', Steps s s' → s'.Sound src → P b s' → Diagnoses src (f b) s' Q) :
    Diagnoses src (p >>= f) s Q :=
  Ensures.bind h fun b s' steps hb => k b s' steps hb.1 hb.2

theorem map {p : Parse β} {f : β → α} (h : Diagnoses src p s fun b s' => Q (f b) s') :
    Diagnoses src (f <$> p) s Q := Ensures.map h

protected theorem ite {c : Prop} [Decidable c] {p p' : Parse α} (yes : c → Diagnoses src p s Q)
    (no : ¬c → Diagnoses src p' s Q) : Diagnoses src (if c then p else p') s Q :=
  Ensures.ite yes no

/-- A reader in front of nothing is the reader alone. -/
theorem of_bind_pure {p : Parse α} (h : Diagnoses src (p >>= pure) s Q) : Diagnoses src p s Q :=
  Ensures.of_bind_pure h

/-! ### Elementary readers -/

theorem tooDeep (hs : s.Ready src) : Diagnoses src (Parse.tooDeep : Parse α) s Q :=
  Ensures.tooDeep (hs.log.abort hs.place.has maxLevels)

/-- The current token is taken. -/
theorem advance (hs : s.Ready src) {f : Token → Parse α}
    (h : ∀ s', Steps s s' → s'.Sound src → Behind src s' s.current.location →
      Diagnoses src (f s.current) s' Q) :
    Diagnoses src (Parse.advance >>= f) s Q := by
  have taken : Ensures Parse.advance s (fun t s' => t = s.current ∧ s' = s.advanced)
      fun s' => s'.log.Sound src :=
    .of_checked (run_advance s) (.advance s) (.advance s) ⟨rfl, rfl⟩ fun _ => hs.advanced.log
  refine Ensures.bind taken ?_
  rintro _ s' steps ⟨rfl, rfl⟩
  exact h _ steps hs.advanced hs.place

theorem advance_last (hs : s.Ready src) {Q : Token → State → Prop}
    (h : s.advanced.Sound src → Behind src s.advanced s.current.location → Q s.current s.advanced) :
    Diagnoses src Parse.advance s Q :=
  .of_checked (run_advance s) (.advance s) (.advance s) ⟨hs.advanced, h hs.advanced hs.place⟩
    fun _ => hs.advanced.log

/-- The token behind a name is looked at. -/
theorem peek (hs : s.Sound src) (hk : s.current.kind = .ident) {f : Kind → Parse α}
    (h : ∀ k s', s'.Ready src → s'.current.kind = .ident → Ensures (f k) s'
      (fun a s' => s'.Sound src ∧ Q a s') fun s' => s'.log.Sound src) :
    Diagnoses src (Parse.peek >>= f) s Q := by
  have ready := hs.ready_peeked hk
  have looked : Ensures Parse.peek s (fun _ s' => s' = s.peeked) fun s' => s'.log.Sound src :=
    .of_checked (run_peek s) (.peek s) (.peek s) rfl fun _ => ready.log
  refine Ensures.bind looked ?_
  rintro k _ _ rfl
  exact h k _ ready hk

/-- An error is reported at the current token. -/
theorem report (hs : s.Sound src) {cause : Cause} (ordinary : cause.isMarker = false)
    (notes : ∀ n ∈ cause.boundNotes, src.Has n.1) {f : Unit → Parse α}
    (h : ∀ s', Steps s s' → s'.Sound src → Behind src s' s.current.location →
      s'.current = s.current → Diagnoses src (f ()) s' Q) :
    Diagnoses src (Parse.report cause s.current.location >>= f) s Q := by
  have sound := hs.noting_current ordinary notes
  have noted : Ensures (Parse.report cause s.current.location) s
      (fun _ s' => s' = s.noting cause s.current.location) fun s' => s'.log.Sound src :=
    .of_checked (run_report _ _ s) (.report s _ ordinary) (.report s _ ordinary) rfl
      fun _ => sound.log
  refine Ensures.bind noted ?_
  rintro _ _ steps rfl
  exact h _ steps sound (hs.behind_current.later steps hs) rfl

/-- An error is reported about what was taken already. -/
theorem report_late (hs : s.Sound src) {cause : Cause} (late : cause.isLate) {place : Location}
    (hp : Behind src s place) {Q : Unit → State → Prop}
    (h : ∀ s', Q () s') : Diagnoses src (Parse.report cause place) s Q := by
  have ordinary : cause.isMarker = false := by
    cases cause with
    | unknownAttribute | invalidTarget | malformedNumber => rfl
    | _ => exact nomatch late
  have sound := hs.noting_late late hp
  exact .of_checked (run_report _ _ s) (.report s _ ordinary) (.report s _ ordinary)
    ⟨sound, h _⟩ fun _ => sound.log

/-! ### Readers of one token -/

theorem accept (hs : s.Sound src) {k : Kind} {f : Option Token → Parse α}
    (h : ∀ t s', Steps s s' → s'.Sound src → (∀ u ∈ t, Behind src s' u.location) →
      Diagnoses src (f t) s' Q) :
    Diagnoses src (Parse.accept k >>= f) s Q := by
  have taken : Diagnoses src (Parse.accept k) s
      fun t s' => ∀ u ∈ t, Behind src s' u.location := by
    unfold Parse.accept
    rw [diagnoses_at?]
    refine .ite (fun _ => ?_) fun _ => .pure hs nofun
    refine .map (advance_last hs.ready fun _ behind u hu => ?_)
    obtain rfl := Option.some.inj hu
    exact behind
  exact taken.bind h

/-- A token is taken in any case; the notes on it must be at places of the source. -/
theorem demand (hs : s.Sound src) {k : Kind} {cause : String → Cause}
    (ordinary : ∀ found, (cause found).isMarker = false)
    (notes : ∀ found, ∀ n ∈ (cause found).boundNotes, src.Has n.1) {f : Token → Parse α}
    (h : ∀ t s', Steps s s' → s'.Sound src → Behind src s' t.location →
      Diagnoses src (f t) s' Q) :
    Diagnoses src (Parse.demand k cause >>= f) s Q := by
  have taken : Diagnoses src (Parse.demand k cause) s fun t s' => Behind src s' t.location := by
    refine ensures_demand (fun _ => advance_last hs.ready fun _ behind => behind) fun _ => ?_
    exact report hs (ordinary _) (notes _) fun _ _ hs₁ _ _ =>
      advance_last hs₁.ready fun _ behind => behind
  exact taken.bind h

theorem expect (hs : s.Sound src) {k : Kind} {f : Token → Parse α}
    (h : ∀ t s', Steps s s' → s'.Sound src → Behind src s' t.location →
      Diagnoses src (f t) s' Q) :
    Diagnoses src (Parse.expect k >>= f) s Q := by
  rw [expect_eq_demand]
  refine demand hs (fun _ => rfl) (fun _ => ?_) h
  exact nofun

/-- A token is taken in any case; the opener must be a place of the source. -/
theorem expectEnd (hs : s.Sound src) {k opener : Kind} {place : Location} (hp : src.Has place)
    {f : Token → Parse α}
    (h : ∀ t s', Steps s s' → s'.Sound src → Behind src s' t.location →
      Diagnoses src (f t) s' Q) :
    Diagnoses src (Parse.expectEnd k opener place >>= f) s Q := by
  rw [expectEnd_eq_demand]
  refine demand hs (fun _ => rfl) (fun _ n hn => ?_) h
  exact List.mem_singleton.1 hn ▸ hp

/-- A name stands behind the current token or at it. -/
theorem expectName (hs : s.Sound src) {k : Kind} {f : Ident → Parse α}
    (h : ∀ name s', Steps s s' → s'.Sound src → Behind src s' name.location →
      Diagnoses src (f name) s' Q) :
    Diagnoses src (Parse.expectName k >>= f) s Q := by
  have named : Diagnoses src (Parse.expectName k) s
      fun name s' => Behind src s' name.location := by
    unfold Parse.expectName
    rw [diagnoses_at?]
    refine .ite (fun _ => advance hs.ready fun _ _ hs₁ behind => .pure hs₁ behind) fun _ => ?_
    simp only [diagnoses_current, diagnoses_found]
    exact report hs rfl (by exact nofun) fun _ _ hs₁ behind _ => .pure hs₁ behind
  exact named.bind h

/-! ### Loops -/

/-- What holds before every round of a loop, and what follows when a round is the last. -/
theorem loop {body : α → Parse (Round α)} (adv : Advances body) (hs : s.Sound src)
    {I : α → State → Prop} {a : α} (h : I a s)
    (hbody : ∀ a s', s'.Sound src → I a s' → Diagnoses src (body a) s' (Round.Post I Q)) :
    Diagnoses src (loop body a) s Q := by
  refine Ensures.loop_inv adv hs.ends (I := fun a s' => s'.Sound src ∧ I a s') ⟨hs, h⟩ ?_
  rintro a s' _ ⟨hs', ha⟩
  refine Ensures.imp (hbody a s' hs' ha) ?_
  rintro (a' | a') s'' _ post
  · exact post
  · exact post

end Diagnoses

end Parse

end LuaFront
