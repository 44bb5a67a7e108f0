import LuaFront.Proofs.Lexemes
import LuaFront.Proofs.Routines

/-!
# A machine that counts levels

The readers know by their type how many levels they may go down, and their loops are bounded by the
lexemes to come. This module runs the same routines on a machine that has neither: it counts the
levels that it enters and leaves, stops where the count is at its limit, and repeats a loop until it
is done. Nothing but the proof says that it ends.

`Runs` is the result of a routine on the machine, and `Comes` are the routines that the machine
comes to on the way, with the number of calls that have entered a level and not left it again.

* `performs`: a routine runs to what its reader comes to, on the level where it started.
* `Comes.good`: the count of levels is the number of active calls.
* `Source.bounded`: reading a source ends, in bounded recursion.
-/

namespace LuaFront

namespace Parse

variable {α β : Type}

/-! ## Runs -/

/-- A state of reading, and how many levels have been entered and not left. -/
structure Machine where
  state : State
  depth : Nat := 0

/-- What a run comes to. Where reading stops, levels are left open. -/
inductive Outcome (α : Type) where
  | done (a : α) (m : Machine)
  | stopped (s : State)

namespace Machine

def enter (m : Machine) : Machine := { m with depth := m.depth + 1 }

def leave (m : Machine) : Machine := { m with depth := m.depth - 1 }

/-- What a reader comes to, on the level where it started. -/
def outcome (m : Machine) : EStateM.Result Stop State α → Outcome α
  | .ok a s => .done a { m with state := s }
  | .error _ s => .stopped s

/-- In front of the first token of a source, on no level. -/
def ofSource (s : Source) (limit : Nat) : Machine := ⟨.ofSource s limit, 0⟩

end Machine

/-- The routine that a call runs. -/
def Call.routine : {α : Type} → Call α → Routine α
  | _, .exp limit => (Coded.subexpression limit).routine
  | _, .block => Coded.block.routine

/-- The run of a routine. A loop goes on for as long as its rounds ask for another one, and a call
enters a level if there is one left. -/
inductive Runs : {α : Type} → Routine α → Machine → Outcome α → Prop
  | pure {α : Type} (a : α) (m : Machine) : Runs (.pure a) m (.done a m)
  | act {α : Type} (a : Action α) (m : Machine) : Runs (.act a) m (m.outcome (a.read m.state))
  | bind {α β : Type} {r : Routine β} {f : β → Routine α} {m m' : Machine} {b : β}
      {o : Outcome α} : Runs r m (.done b m') → Runs (f b) m' o → Runs (.bind r f) m o
  | bindStopped {α β : Type} {r : Routine β} {f : β → Routine α} {m : Machine} {s : State} :
      Runs r m (.stopped s) → Runs (.bind r f) m (.stopped s)
  | again {α : Type} {body : α → Routine (Round α)} {a b : α} {m m' : Machine} {o : Outcome α} :
      Runs (body a) m (.done (.again b) m') → Runs (.loop body b) m' o → Runs (.loop body a) m o
  | last {α : Type} {body : α → Routine (Round α)} {a b : α} {m m' : Machine} :
      Runs (body a) m (.done (.done b) m') → Runs (.loop body a) m (.done b m')
  | loopStopped {α : Type} {body : α → Routine (Round α)} {a : α} {m : Machine} {s : State} :
      Runs (body a) m (.stopped s) → Runs (.loop body a) m (.stopped s)
  | call {α : Type} {c : Call α} {m m' : Machine} {a : α} : m.depth < maxLevels →
      Runs c.routine m.enter (.done a m') → Runs (.call c) m (.done a m'.leave)
  | callStopped {α : Type} {c : Call α} {m : Machine} {s : State} : m.depth < maxLevels →
      Runs c.routine m.enter (.stopped s) → Runs (.call c) m (.stopped s)
  | tooDeep {α : Type} {c : Call α} {m : Machine} : ¬ m.depth < maxLevels →
      Runs (.call c) m (.stopped m.state.aborted)

/-- While it runs a routine, the machine comes to another one, with so many calls more active that
have entered their level. The run need not end. -/
inductive Comes : {α β : Type} → Routine α → Machine → Nat → Routine β → Machine → Prop
  | here {α : Type} (r : Routine α) (m : Machine) : Comes r m 0 r m
  | first {α β γ : Type} {r : Routine β} {f : β → Routine α} {m n : Machine} {k : Nat}
      {q : Routine γ} : Comes r m k q n → Comes (.bind r f) m k q n
  | second {α β γ : Type} {r : Routine β} {f : β → Routine α} {m m' n : Machine} {b : β} {k : Nat}
      {q : Routine γ} :
      Runs r m (.done b m') → Comes (f b) m' k q n → Comes (.bind r f) m k q n
  | round {α γ : Type} {body : α → Routine (Round α)} {a : α} {m n : Machine} {k : Nat}
      {q : Routine γ} : Comes (body a) m k q n → Comes (.loop body a) m k q n
  | again {α γ : Type} {body : α → Routine (Round α)} {a b : α} {m m' n : Machine} {k : Nat}
      {q : Routine γ} : Runs (body a) m (.done (.again b) m') → Comes (.loop body b) m' k q n →
      Comes (.loop body a) m k q n
  | call {α γ : Type} {c : Call α} {m n : Machine} {k : Nat} {q : Routine γ} :
      m.depth < maxLevels → Comes c.routine m.enter k q n → Comes (.call c) m (k + 1) q n

/-- A routine comes to one outcome at most. -/
theorem Runs.unique {r : Routine α} {m : Machine} {o o' : Outcome α} (h : Runs r m o)
    (h' : Runs r m o') : o = o' := by
  induction h with
  | pure a m =>
    cases h'
    rfl
  | act a m =>
    cases h'
    rfl
  | bind _ _ first second =>
    cases h' with
    | bind hr hf =>
      cases first hr
      exact second hf
    | bindStopped hr => cases first hr
  | bindStopped _ first =>
    cases h' with
    | bind hr hf => cases first hr
    | bindStopped hr =>
      cases first hr
      rfl
  | again _ _ round rest =>
    cases h' with
    | again hb hl =>
      cases round hb
      exact rest hl
    | last hb => cases round hb
    | loopStopped hb => cases round hb
  | last _ round =>
    cases h' with
    | again hb hl => cases round hb
    | last hb =>
      cases round hb
      rfl
    | loopStopped hb => cases round hb
  | loopStopped _ round =>
    cases h' with
    | again hb hl => cases round hb
    | last hb => cases round hb
    | loopStopped hb =>
      cases round hb
      rfl
  | call lt _ called =>
    cases h' with
    | call _ hc =>
      cases called hc
      rfl
    | callStopped _ hc => cases called hc
    | tooDeep deep => exact absurd lt deep
  | callStopped lt _ called =>
    cases h' with
    | call _ hc => cases called hc
    | callStopped _ hc =>
      cases called hc
      rfl
    | tooDeep deep => exact absurd lt deep
  | tooDeep deep =>
    cases h' with
    | call lt _ => exact absurd lt deep
    | callStopped lt _ => exact absurd lt deep
    | tooDeep _ => rfl

/-! ## The machine comes to what the readers come to -/

namespace Call

theorem sound_routine (c : Call α) : c.routine.Sound := by
  cases c with
  | exp limit => exact (Coded.subexpression limit).sound
  | block => exact Coded.block.sound

theorem read_routine (c : Call α) (n : Nat) :
    c.routine.read (nested n) = (nested (n + 1)).read c := by
  cases c with
  | exp limit => exact (Coded.subexpression limit).read_eq (nested n)
  | block => exact Coded.block.read_eq (nested n)

end Call

variable {n : Nat} {m m' : Machine}

/-- With `n` levels left, the machine comes to what the reader comes to, and goes on in front of the
end of input. -/
structure Performs (n : Nat) (r : Routine α) (m : Machine) : Prop where
  runs : Runs r m (m.outcome (r.read (nested n) m.state))
  ends : ∀ a s, r.read (nested n) m.state = .ok a s → s.Ends

namespace Performs

variable {r : Routine α} {s : State}

theorem run_error {e : Stop} (h : Performs n r m)
    (read : r.read (nested n) m.state = .error e s) : Runs r m (.stopped s) := by
  have runs := h.runs
  rw [read] at runs
  exact runs

theorem run_ok {a : α} (h : Performs n r m) (read : r.read (nested n) m.state = .ok a s) :
    Runs r m (.done a { m with state := s }) := by
  have runs := h.runs
  rw [read] at runs
  exact runs

theorem of_error {e : Stop} (read : r.read (nested n) m.state = .error e s)
    (run : Runs r m (.stopped s)) : Performs n r m := by
  refine ⟨?_, fun a t ok => ?_⟩
  · rw [read]
    exact run
  · rw [read] at ok
    cases ok

theorem of_ok {a : α} (read : r.read (nested n) m.state = .ok a s)
    (run : Runs r m (.done a { m with state := s })) (ends : s.Ends) : Performs n r m := by
  refine ⟨?_, fun b t ok => ?_⟩
  · rw [read]
    exact run
  · rw [read] at ok
    cases ok
    exact ends

/-- A routine that ends with another one. -/
theorem of_last {q : Routine α} (h : Performs n q { m with state := s })
    (read : r.read (nested n) m.state = q.read (nested n) s)
    (run : ∀ o, Runs q { m with state := s } o → Runs r m o) : Performs n r m := by
  refine ⟨?_, fun a t ok => h.ends a t ?_⟩
  · rw [read]
    exact run _ h.runs
  · rw [read] at ok
    exact ok

end Performs

theorem performs_act (a : Action α) (hs : m.state.Ends) : Performs n (.act a) m := by
  refine ⟨.act a m, fun x s ok => ?_⟩
  change a.read m.state = .ok x s at ok
  cases a with
  | look f =>
    cases ok
    exact hs
  | check =>
    rw [Action.read, run_check] at ok
    split at ok
    · cases ok
    · cases ok
      exact hs
  | report cause place =>
    rw [Action.read, run_report] at ok
    split at ok
    · cases ok
    · cases ok
      exact hs.noting cause place
  | advance => exact ((Composed.advance.ensures m.state).of_ok ok).1.ends hs
  | peek => exact ((Composed.peek.ensures m.state).of_ok ok).1.ends hs

theorem Performs.bind {r : Routine β} {f : β → Routine α} (h : Performs n r m)
    (k : ∀ b s, s.Ends → Performs n (f b) { m with state := s }) :
    Performs n (.bind r f) m := by
  have eq : (Routine.bind r f).read (nested n) m.state = _ := run_bind _ _ _
  cases read : r.read (nested n) m.state with
  | error e s =>
    rw [read] at eq
    exact .of_error eq (.bindStopped (h.run_error read))
  | ok b s =>
    rw [read] at eq
    exact (k b s (h.ends b s read)).of_last eq fun o => .bind (h.run_ok read)

/-- The induction is on the tokens that are left, of which each round takes some. -/
theorem performs_loop {body : α → Routine (Round α)}
    (adv : Advances fun a => (body a).read (nested n)) {a : α} (hs : m.state.Ends)
    (h : ∀ a s, s.Ends → Performs n (body a) { m with state := s }) :
    Performs n (.loop body a) m := by
  induction left : m.state.left using Nat.strongRecOn generalizing a m with
  | _ l ih =>
    have eq : (Routine.loop body a).read (nested n) m.state = _ := loop_eq adv hs a
    rw [run_bind] at eq
    have round := h a m.state hs
    cases read : (body a).read (nested n) m.state with
    | error e s =>
      rw [read] at eq
      exact .of_error eq (.loopStopped (round.run_error read))
    | ok r s =>
      have ends := round.ends r s read
      have post := ((adv a m.state hs).of_ok read).2
      have run := round.run_ok read
      rw [read] at eq
      cases r with
      | done b => exact .of_ok eq (.last run) ends
      | again b =>
        have lt : s.left < m.state.left := post
        have rest : Performs n (.loop body b) { m with state := s } :=
          ih s.left (left ▸ lt) ends h rfl
        exact rest.of_last eq fun o => .again run

theorem performs_tooDeep {c : Call α} (deep : ¬ m.depth < maxLevels) :
    Performs 0 (.call c) m := by
  have read : (Routine.call c).read (nested 0) m.state = .error .stop m.state.aborted := by
    cases c <;> rfl
  exact .of_error read (.tooDeep deep)

theorem Performs.call {c : Call α} (lt : m.depth < maxLevels)
    (h : Performs n c.routine m.enter) : Performs (n + 1) (.call c) m := by
  have eq : (Routine.call c).read (nested (n + 1)) m.state = _ :=
    congrFun (c.read_routine n).symm m.state
  cases read : c.routine.read (nested n) m.state with
  | error e s =>
    rw [read] at eq
    exact .of_error eq (.callStopped lt (h.run_error read))
  | ok a s =>
    rw [read] at eq
    exact .of_ok eq (.call lt (h.run_ok read)) (h.ends a s read)

/-- The induction is on the levels that are left, and on the routine for each of them: only a call
goes on with a routine that is no part of it, and it enters a level. -/
theorem performs {r : Routine α} (sound : r.Sound) (levels : m.depth + n = maxLevels)
    (hs : m.state.Ends) : Performs n r m := by
  induction n using Nat.strongRecOn generalizing α r m with
  | _ n deeper =>
    induction r generalizing m with
    | pure a =>
      refine ⟨.pure a m, fun b s ok => ?_⟩
      cases ok
      exact hs
    | act a => exact performs_act a hs
    | bind r f first second =>
      exact (first sound.1 levels hs).bind fun b s ends => second b (sound.2 b) levels ends
    | loop body a round =>
      exact performs_loop (sound.2 n) hs fun a s ends => round a (sound.1 a) levels ends
    | call c =>
      cases n with
      | zero => exact performs_tooDeep (by omega)
      | succ n =>
        refine .call (by omega) (deeper n (Nat.lt_succ_self n) c.sound_routine ?_ hs)
        show m.depth + 1 + n = maxLevels
        omega

/-! ## What holds on the way -/

/-- The count of levels is within its limit, and the last token is the end of input. -/
structure Machine.Good (m : Machine) : Prop where
  depth_le : m.depth ≤ maxLevels
  ends : m.state.Ends

/-- A routine that ends without stopping does what its reader does, and leaves the levels that it
has entered. -/
theorem Runs.done {r : Routine α} {a : α} (run : Runs r m (.done a m')) (sound : r.Sound)
    (good : m.Good) :
    ∃ s, r.read (nested (maxLevels - m.depth)) m.state = .ok a s ∧
      m' = { m with state := s } ∧ s.Ends := by
  have performs := performs sound (Nat.add_sub_cancel' good.depth_le) good.ends
  cases read : r.read (nested (maxLevels - m.depth)) m.state with
  | error e s => cases run.unique (performs.run_error read)
  | ok b s =>
    cases run.unique (performs.run_ok read)
    exact ⟨s, rfl, rfl, performs.ends a s read⟩

theorem Runs.good {r : Routine α} {a : α} (run : Runs r m (.done a m')) (sound : r.Sound)
    (good : m.Good) : m'.Good ∧ m'.depth = m.depth := by
  obtain ⟨s, -, rfl, ends⟩ := run.done sound good
  exact ⟨⟨good.depth_le, ends⟩, rfl⟩

/-- Wherever the machine comes, its count has grown by the number of calls that have become
active. -/
theorem Comes.good {r : Routine α} {q : Routine β} {k : Nat} (comes : Comes r m k q m')
    (sound : r.Sound) (good : m.Good) : q.Sound ∧ m'.Good ∧ m'.depth = m.depth + k := by
  induction comes with
  | here r m => exact ⟨sound, good, rfl⟩
  | first _ ih => exact ih sound.1 good
  | second run _ ih =>
    obtain ⟨good', depth⟩ := run.good sound.1 good
    rw [← depth]
    exact ih (sound.2 _) good'
  | round _ ih => exact ih (sound.1 _) good
  | again run _ ih =>
    obtain ⟨good', depth⟩ := run.good (sound.1 _) good
    rw [← depth]
    exact ih sound good'
  | call lt _ ih =>
    obtain ⟨sound', good', depth⟩ := ih (Call.sound_routine _) ⟨lt, good.ends⟩
    refine ⟨sound', good', depth.trans ?_⟩
    show _ + 1 + _ = _ + (_ + 1)
    omega

/-- Every round that is followed by another one takes a token. -/
theorem left_lt_of_round {body : α → Routine (Round α)} {a b : α}
    (run : Runs (body a) m (.done (.again b) m')) (sound : (Routine.loop body a).Sound)
    (good : m.Good) : m'.state.left < m.state.left := by
  obtain ⟨s, read, rfl, -⟩ := run.done (sound.1 a) good
  exact ((sound.2 _ a m.state good.ends).of_ok read).2

/-- A statement takes a token if it starts at none that ends a block. -/
theorem left_lt_of_statement {x : Option Stat}
    (run : Runs Coded.statement.routine m (.done x m')) (good : m.Good)
    (hk : m.state.current.kind.isBlockEnd = false) : m'.state.left < m.state.left := by
  obtain ⟨s, read, rfl, -⟩ := run.done Coded.statement.sound good
  rw [Coded.statement.read_eq] at read
  exact ((takes_statement (composed_nested _) good.ends hk).of_ok read).2

end Parse

/-! ## Programs -/

namespace Source

open Parse

/-- While it reads a source, the machine comes to a routine with `k` active calls. -/
def Visits (s : Source) (limit k : Nat) (r : Routine α) (m : Machine) : Prop :=
  Comes Coded.chunk.routine (.ofSource s limit) k r m

/-- Reading a source ends, in bounded recursion. -/
structure Bounded (s : Source) (limit : Nat) : Prop where
  /-- The tokens are cut off the text up to its end. -/
  scans : (Piece.ofText s.text).flatMap Piece.spelling = s.text
  /-- The machine ends, and comes to nothing but the result of reading the source. -/
  ends : ∀ o, Runs Coded.chunk.routine (.ofSource s limit) o ↔
    o = (Machine.ofSource s limit).outcome (s.parse limit)
  /-- The count of levels is the number of active calls, and never beyond its limit. -/
  depth : ∀ {α : Type} (r : Routine α) {k m}, s.Visits limit k r m → m.depth = k ∧ k ≤ maxLevels
  /-- What ends without stopping has left the levels that it has entered. -/
  restores : ∀ {α : Type} {r : Routine α} {k m a m'}, s.Visits limit k r m →
    Runs r m (.done a m') → m'.depth = m.depth
  /-- No level is left that has not been entered. -/
  leaves : ∀ {α : Type} {c : Call α} {k m a m'}, s.Visits limit k (.call c) m →
    m.depth < maxLevels → Runs c.routine m.enter (.done a m') → 0 < m'.depth
  /-- In every loop, a round that is followed by another one takes a token in front of the end. -/
  rounds : ∀ {α : Type} {body : α → Routine (Round α)} {a b k m m'},
    s.Visits limit k (.loop body a) m → Runs (body a) m (.done (.again b) m') →
    m'.state.left < m.state.left
  /-- So does a statement that starts at no token that ends a block, or reading stops there. -/
  statements : ∀ {k m o}, s.Visits limit k Coded.statement.routine m →
    m.state.current.kind.isBlockEnd = false → Runs Coded.statement.routine m o →
    (∃ st, o = .stopped st) ∨ ∃ x m', o = .done x m' ∧ m'.state.left < m.state.left
  /-- A routine is read again within itself only by way of a call. -/
  cycles : WellFounded Routine.Part

/-- The machine that counts levels and goes on until it is done ends for every source and every
limit on errors, and enters no more levels than there are. -/
theorem bounded (s : Source) (limit : Nat) : s.Bounded limit := by
  have sound := Coded.chunk.sound
  have start : (Machine.ofSource s limit).Good := ⟨Nat.zero_le _, State.ends_ofSource s limit⟩
  have visit : ∀ {α : Type} {r : Routine α} {k m}, s.Visits limit k r m →
      r.Sound ∧ m.Good ∧ m.depth = k := by
    intro α r k m visits
    obtain ⟨sound', good, depth⟩ := visits.good sound start
    exact ⟨sound', good, depth.trans (Nat.zero_add k)⟩
  have whole : Runs Coded.chunk.routine (.ofSource s limit)
      ((Machine.ofSource s limit).outcome (s.parse limit)) := by
    have runs := (performs (n := maxLevels) sound (Nat.zero_add _) start.ends).runs
    rw [Coded.chunk.read_eq] at runs
    exact runs
  constructor
  case scans => exact Piece.flatMap_spelling_ofText s.text
  case ends =>
    intro o
    constructor
    · exact fun run => run.unique whole
    · rintro rfl
      exact whole
  case depth =>
    intro α r k m visits
    obtain ⟨-, good, depth⟩ := visit visits
    exact ⟨depth, depth ▸ good.depth_le⟩
  case restores =>
    intro α r k m a m' visits run
    obtain ⟨sound', good, -⟩ := visit visits
    exact (run.good sound' good).2
  case leaves =>
    intro α c k m a m' visits lt run
    obtain ⟨-, good, -⟩ := visit visits
    rw [(run.good c.sound_routine ⟨lt, good.ends⟩).2]
    exact Nat.succ_pos _
  case rounds =>
    intro α body a b k m m' visits run
    obtain ⟨sound', good, -⟩ := visit visits
    exact left_lt_of_round run sound' good
  case statements =>
    intro k m o visits hk run
    obtain ⟨-, good, -⟩ := visit visits
    cases o with
    | stopped st => exact .inl ⟨st, rfl⟩
    | done x m' => exact .inr ⟨x, m', rfl, left_lt_of_statement run good hk⟩
  case cycles => exact Routine.wellFounded_part

end Source

end LuaFront
