import LuaFront.Build.Program
import LuaFront.Proofs.Ensures
import LuaFront.Proofs.Ownership

/-!
# Readers of arenas and of trees

A reader that builds in an arena takes the same tokens and reports the same errors as the reader
that answers a tree, and what it has built is that tree. `Tracks q b p Q` says so of two readers `q`
and `p`, where `q` starts with `b`: from each state they come to the same state and either both stop
there, or `Q` holds of their answers and of what has been built.

Between two readers stands `Built.Held`: the nodes read so far, which no other node owns. Each
lemma `tracks_` about a reader says that it holds one thing more when it is done, and the lemma
about the parent puts these things together.
-/

namespace LuaFront

namespace Built

/-- A token is recorded for each block, and an empty block is where its token starts. -/
structure Recorded (b : Built) : Prop where
  size : b.ends.size = b.arena.blocks.size
  empty : ∀ (i : Nat) x, b.arena.blocks[i]? = some x →
    ∃ t, b.ends[i]? = some t ∧ (x.stats = [] → x.place = .point t.location.start)

/-- What is recorded depends on blocks alone. -/
theorem Recorded.of_blocks {b : Built} {a : Arena} (h : b.Recorded)
    (same : a.blocks = b.arena.blocks) : Recorded { b with arena := a } :=
  ⟨by rw [same]; exact h.size, by rw [same]; exact h.empty⟩

/-- Since `b₀` was built, the trees `ts` were read. Their tops are the nodes `ns`, and have no
parents yet. -/
structure Held (b₀ b : Built) (ns : List NodeId) (ts : List Node) : Prop where
  arena : b₀.arena.Held b.arena ns ts
  recorded : b.Recorded

/-- One node is held. -/
abbrev HeldExp (b₀ : Built) (i : ExpId) (b : Built) (e : Exp) : Prop :=
  b₀.Held b [.exp i] [.exp e]

abbrev HeldStat (b₀ : Built) (i : StatId) (b : Built) (x : Stat) : Prop :=
  b₀.Held b [.stat i] [.stat x]

abbrev HeldBlock (b₀ : Built) (i : BlockId) (b : Built) (x : Block) : Prop :=
  b₀.Held b [.block i] [.block x]

/-- Nothing is held that would have to be taken in. -/
abbrev Sound (b : Built) : Prop := b.Held b [] []

/-- Expressions are held. -/
abbrev HeldExps (b₀ : Built) (is : List ExpId) (b : Built) (es : List Exp) : Prop :=
  b₀.Held b (is.map .exp) (es.map .exp)

/-- The parts of a field are held. -/
def HeldField (b₀ : Built) (f : FieldCell ExpId) (b : Built) (f' : Field) : Prop :=
  b₀.Held b (f.parts.map .exp) (Node.ofField f') ∧ f.blank = f'.cell.blank

/-- The parts of fields are held. -/
def HeldFields (b₀ : Built) (fs : List (FieldCell ExpId)) (b : Built) (fs' : List Field) : Prop :=
  b₀.Held b (fs.flatMap fun f => f.parts.map .exp) (fs'.flatMap Node.ofField) ∧
    fs.map FieldCell.blank = fs'.map fun f => f.cell.blank

/-- The parts of a clause are held. -/
abbrev HeldClause (b₀ : Built) (c : ClauseCell ExpId BlockId) (b : Built) (c' : Clause) : Prop :=
  b₀.Held b [.exp c.condition, .block c.body] (Node.ofClause c')

/-- The parts of clauses are held. -/
def HeldClauses (b₀ : Built) (cs : List (ClauseCell ExpId BlockId)) (b : Built)
    (cs' : List Clause) : Prop :=
  b₀.Held b (cs.flatMap fun c => [.exp c.condition, .block c.body]) (cs'.flatMap Node.ofClause) ∧
    cs.length = cs'.length

/-- An expression is held, or there is none. -/
abbrev HeldExp? (b₀ : Built) (i : Option ExpId) (b : Built) (e : Option Exp) : Prop :=
  b₀.Held b (i.toList.map .exp) (e.toList.map .exp)

/-- A block is held, or there is none. -/
abbrev HeldBlock? (b₀ : Built) (i : Option BlockId) (b : Built) (x : Option Block) : Prop :=
  b₀.Held b (i.toList.map .block) (x.toList.map .block)

/-- A statement is held, or there is none. -/
abbrev HeldStat? (b₀ : Built) (i : Option StatId) (b : Built) (x : Option Stat) : Prop :=
  b₀.Held b (i.toList.map .stat) (x.toList.map .stat)

/-- Statements are held. -/
abbrev HeldStats (b₀ : Built) (is : List StatId) (b : Built) (xs : List Stat) : Prop :=
  b₀.Held b (is.map .stat) (xs.map .stat)

variable {α β : Type} {b₀ b b' : Built} {n k : NodeId} {ns ms : List NodeId} {t u : Node}
  {ts us : List Node}

theorem sound_empty : Sound {} := ⟨.start Arena.owned_empty, rfl, by simp⟩

namespace Held

theorem sound (h : b₀.Held b ns ts) : b.Sound := ⟨.start h.arena.owned, h.recorded⟩

theorem drop (h : b₀.Held b ns ts) : b₀.Held b [] [] := ⟨h.arena.drop, h.recorded⟩

theorem append (h : b₀.Held b ns ts) (k : b.Held b' ms us) :
    b₀.Held b' (ns ++ ms) (ts ++ us) := ⟨h.arena.append k.arena, k.recorded⟩

theorem shows (h : b₀.Held b (n :: ns) (t :: ts)) : b.arena.Shows n t := by
  cases h.arena.shows with
  | cons first _ => exact first

theorem length_eq {is : List ExpId} {es : List Exp} (h : b₀.Held b (is.map .exp) (es.map .exp)) :
    is.length = es.length := by
  simpa using h.arena.shows.length_eq

/-- What is held stays where it is while more is built. -/
theorem keep (h : b₀.Held b (n :: ns) (t :: ts)) (k : b.Held b' ms us) : b'.arena.Shows n t :=
  h.shows.mono k.arena.grows.cell

/-- A new expression over all that is held. -/
theorem add_exp {x : ExpCell ExpId BlockId} {e : Exp} (h : b₀.Held b ns ts)
    (parts : (Cell.exp x).ids = ns) (blank : x.blank = e.cell.blank)
    (below : (Node.exp e).children = ts) :
    b₀.HeldExp (b.arena.addExp x).1 { b with arena := (b.arena.addExp x).2 } e where
  arena := h.arena.add (h.arena.owned.adds_exp x) parts (congrArg Cell.exp blank) below
  recorded := h.recorded.of_blocks (b.arena.nodes_link _ _).1

/-- A new statement over all that is held. -/
theorem add_stat {x : StatCell ExpId BlockId} {y : Stat} (h : b₀.Held b ns ts)
    (parts : (Cell.stat x).ids = ns) (blank : x.blank = y.cell.blank)
    (below : (Node.stat y).children = ts) :
    b₀.HeldStat (b.arena.addStat x).1 { b with arena := (b.arena.addStat x).2 } y where
  arena := h.arena.add (h.arena.owned.adds_stat x) parts (congrArg Cell.stat blank) below
  recorded := h.recorded.of_blocks (b.arena.nodes_link _ _).1

/-- A new block over all that is held, which ends in front of the token `u`. -/
theorem add_block {x : BlockCell StatId} {y : Block} {u : Token} (h : b₀.Held b ns ts)
    (parts : (Cell.block x).ids = ns) (blank : x.blank = y.cell.blank)
    (below : (Node.block y).children = ts)
    (empty : x.stats = [] → x.place = .point u.location.start) :
    b₀.HeldBlock (b.arena.addBlock x).1 ⟨(b.arena.addBlock x).2, b.ends.push u⟩ y where
  arena := h.arena.add (h.arena.owned.adds_block x) parts (congrArg Cell.block blank) below
  recorded := by
    have blocks : (b.arena.addBlock x).2.blocks = b.arena.blocks.push x :=
      congrArg (·.push x) (b.arena.nodes_link _ _).1
    refine ⟨by simp [blocks, h.recorded.size], fun i z hz => ?_⟩
    rw [blocks, Array.getElem?_push] at hz
    rw [Array.getElem?_push, h.recorded.size]
    split at hz
    · next last =>
      obtain rfl := Option.some.inj hz
      exact ⟨u, if_pos last, empty⟩
    · next other =>
      rw [if_neg other]
      exact h.recorded.empty i z hz

end Held

theorem HeldFields.concat {fs : List (FieldCell ExpId)} {f : FieldCell ExpId} {fs' : List Field}
    {f' : Field} (h : b₀.HeldFields fs b fs') (k : b.HeldField f b' f') :
    b₀.HeldFields (fs ++ [f]) b' (fs' ++ [f']) := by
  refine ⟨?_, by simp [h.2, k.2]⟩
  simpa using h.1.append k.1

theorem HeldClauses.concat {cs : List (ClauseCell ExpId BlockId)} {c : ClauseCell ExpId BlockId}
    {cs' : List Clause} {c' : Clause} (h : b₀.HeldClauses cs b cs') (k : b.HeldClause c b' c') :
    b₀.HeldClauses (cs ++ [c]) b' (cs' ++ [c']) := by
  refine ⟨?_, by simp [h.2]⟩
  simpa using h.1.append k

theorem HeldExps.concat {is : List ExpId} {i : ExpId} {es : List Exp} {e : Exp}
    (h : b₀.HeldExps is b es) (k : b.HeldExp i b' e) : b₀.HeldExps (is ++ [i]) b' (es ++ [e]) := by
  simpa [HeldExps] using Held.append h k

theorem HeldStats.extend {is : List StatId} {i : Option StatId} {xs : List Stat} {x : Option Stat}
    (h : b₀.HeldStats is b xs) (k : b.HeldStat? i b' x) :
    b₀.HeldStats (is ++ i.toList) b' (xs ++ x.toList) := by
  simpa [HeldStats] using Held.append h k

/-- What may be missing is there on both sides or on neither. -/
theorem map_unit_eq {i : Option α} {x : Option β} {f : α → NodeId} {g : β → Node}
    (h : b₀.Held b (i.toList.map f) (x.toList.map g)) :
    (i.map fun _ => ()) = x.map fun _ => () := by
  have length := h.arena.shows.length_eq
  cases i <;> cases x <;> simp_all

end Built

namespace Build

open Built

variable {α β α' β' : Type} {b₀ b b' : Built} {q : Build α} {p : Parse β}
  {Q R : α → Built → β → Prop} {ns ms : List NodeId} {ts us : List Node}

/-- From every state, `q` on top of `b` comes to the same state as `p`, and to an answer with `Q`
if `p` comes to one. -/
def Tracks (q : Build α) (b : Built) (p : Parse β) (Q : α → Built → β → Prop) : Prop :=
  ∀ s, match p s with
    | .ok y s' => ∃ x b', q b s = .ok (x, b') s' ∧ Q x b' y
    | .error e s' => q b s = .error e s'

namespace Tracks

theorem imp (h : Tracks q b p Q) (k : ∀ x b' y, Q x b' y → R x b' y) : Tracks q b p R := by
  intro s
  have run := h s
  cases hp : p s with
  | ok y s' =>
    rw [hp] at run
    obtain ⟨x, b', hq, post⟩ := run
    exact ⟨x, b', hq, k x b' y post⟩
  | error e s' =>
    rw [hp] at run
    exact run

protected theorem pure {x : α} {y : β} (h : Q x b y) : Tracks (pure x) b (pure y) Q :=
  fun _ => ⟨x, b, rfl, h⟩

/-- A reader behind another one goes on with what that one has built. -/
theorem run_bind (q : Build α') (f : α' → Build α) (b : Built) (s : Parse.State) :
    (q >>= f) b s = match q b s with
      | .ok x s' => f x.1 x.2 s'
      | .error e s' => .error e s' := by
  show EStateM.bind (q b) _ s = _
  unfold EStateM.bind
  cases q b s <;> rfl

theorem bind {q : Build α'} {p : Parse β'} {Q : α' → Built → β' → Prop} {f : α' → Build α}
    {g : β' → Parse β} (h : Tracks q b p Q) (k : ∀ x b' y, Q x b' y → Tracks (f x) b' (g y) R) :
    Tracks (q >>= f) b (p >>= g) R := by
  intro s
  rw [Parse.run_bind]
  have run := h s
  cases hp : p s with
  | ok y s' =>
    rw [hp] at run
    obtain ⟨x, b', hq, post⟩ := run
    rw [run_bind, hq]
    exact k x b' y post s'
  | error e s' =>
    rw [hp] at run
    show (q >>= f) b s = _
    rw [run_bind, run]

/-- A reader of tokens builds nothing. -/
theorem lift (p : Parse α) : Tracks (p : Build α) b p fun x b' y => x = y ∧ b' = b := by
  intro s
  have run : (p : Build α) b s = (p >>= fun y => pure (y, b)) s := rfl
  rw [run, Parse.run_bind]
  cases p s with
  | ok y s' => exact ⟨y, b, rfl, rfl, rfl⟩
  | error e s' => rfl

/-- Both readers take the same step. -/
theorem step {p : Parse β'} {f : β' → Build α} {g : β' → Parse β}
    (k : ∀ y, Tracks (f y) b (g y) R) : Tracks ((p : Build β') >>= f) b (p >>= g) R := by
  refine (lift p).bind ?_
  rintro x _ y ⟨rfl, rfl⟩
  exact k x

protected theorem ite {c : Prop} [Decidable c] {q' : Build α} {p' : Parse β}
    (yes : c → Tracks q b p Q) (no : ¬c → Tracks q' b p' Q) :
    Tracks (if c then q else q') b (if c then p else p') Q := by
  by_cases h : c
  · rw [if_pos h, if_pos h]
    exact yes h
  · rw [if_neg h, if_neg h]
    exact no h

/-- A step that is chosen on both sides, with the same rest behind it. -/
theorem ite_bind {c : Prop} [Decidable c] {q q' : Build α'} {p p' : Parse β'}
    {Q : α' → Built → β' → Prop} {f : α' → Build α} {g : β' → Parse β}
    (yes : c → Tracks q b p Q) (no : ¬c → Tracks q' b p' Q)
    (k : ∀ x b' y, Q x b' y → Tracks (f x) b' (g y) R) :
    Tracks (if c then q >>= f else q' >>= f) b (if c then p >>= g else p' >>= g) R :=
  .ite (fun h => (yes h).bind k) fun h => (no h).bind k

theorem map {q : Build α'} {p : Parse β'} {f : α' → α} {g : β' → β}
    (h : Tracks q b p fun x b' y => R (f x) b' (g y)) : Tracks (f <$> q) b (g <$> p) R := by
  rw [map_eq_pure_bind, map_eq_pure_bind]
  exact h.bind fun x b' y post => .pure post

/-! ### Loops -/

/-- An answer to each of both rounds, of which both ask for another one or neither does. -/
inductive Both (Q : α → Built → β → Prop) : Parse.Round α → Built → Parse.Round β → Prop
  | again {x : α} {b : Built} {y : β} : Q x b y → Both Q (.again x) b (.again y)
  | done {x : α} {b : Built} {y : β} : Q x b y → Both Q (.done x) b (.done y)

/-- The induction is on the lexemes that bound both loops. -/
theorem rounds {body : α → Build (Parse.Round α)} {body' : β → Parse (Parse.Round β)}
    (round : ∀ x b y, Q x b y → Tracks (body x) b (body' y) (Both Q)) (xs : List Lexeme)
    {x : α} {y : β} (h : Q x b y) :
    Tracks (Build.rounds body xs x) b (Parse.rounds body' xs y) Q := by
  induction xs generalizing x y b with
  | nil => exact .pure h
  | cons _ xs ih =>
    refine (round x b y h).bind fun r b' r' both => ?_
    cases both with
    | again h => exact ih h
    | done h => exact .pure h

theorem loop {body : α → Build (Parse.Round α)} {body' : β → Parse (Parse.Round β)}
    (round : ∀ x b y, Q x b y → Tracks (body x) b (body' y) (Both Q)) {x : α} {y : β}
    (h : Q x b y) : Tracks (Build.loop body x) b (Parse.loop body' y) Q :=
  .step fun xs => rounds round xs h

/-- Lists that get one item more on both sides. -/
theorem further {separator : Kind} {item : Build α} {item' : Parse β}
    {Q : List α → Built → List β → Prop}
    (one : ∀ {xs b ys}, Q xs b ys →
      Tracks item b item' fun x b' y => Q (xs ++ [x]) b' (ys ++ [y]))
    {xs : List α} {ys : List β} (h : Q xs b ys) :
    Tracks (Build.further separator item xs) b (Parse.further separator item' ys) Q := by
  refine loop (fun xs b ys h => ?_) h
  unfold furtherRound Parse.furtherRound
  refine .step fun _ => .ite (fun _ => ?_) fun _ => .pure (.done h)
  exact (one h).bind fun x b' y h => .pure (.again h)

/-! ### Nodes -/

/-- A new expression over all that is held. -/
theorem add_exp (e : Exp) {x : ExpCell ExpId BlockId} {f : ExpId → Build α} (h : b₀.Held b ns ts)
    (parts : (Cell.exp x).ids = ns) (blank : x.blank = e.cell.blank)
    (below : (Node.exp e).children = ts) (k : ∀ i b', b₀.HeldExp i b' e → Tracks (f i) b' p R) :
    Tracks (addExp x >>= f) b p R :=
  k _ { b with arena := (b.arena.addExp x).2 } (h.add_exp parts blank below)

theorem last_exp {x : ExpCell ExpId BlockId} {e : Exp} (h : b₀.Held b ns ts)
    (parts : (Cell.exp x).ids = ns) (blank : x.blank = e.cell.blank)
    (below : (Node.exp e).children = ts) : Tracks (addExp x) b (pure e) b₀.HeldExp :=
  fun _ => ⟨_, _, rfl, h.add_exp parts blank below⟩

/-- A new statement over all that is held. -/
theorem last_stat {x : StatCell ExpId BlockId} {y : Stat} (h : b₀.Held b ns ts)
    (parts : (Cell.stat x).ids = ns) (blank : x.blank = y.cell.blank)
    (below : (Node.stat y).children = ts) : Tracks (addStat x) b (pure y) b₀.HeldStat :=
  fun _ => ⟨_, _, rfl, h.add_stat parts blank below⟩

theorem stat_some {x : StatCell ExpId BlockId} {y : Stat} (h : b₀.Held b ns ts)
    (parts : (Cell.stat x).ids = ns) (blank : x.blank = y.cell.blank)
    (below : (Node.stat y).children = ts) :
    Tracks (some <$> addStat x) b (pure (some y)) b₀.HeldStat? :=
  fun _ => ⟨_, _, rfl, h.add_stat parts blank below⟩

/-- Looking at an expression builds nothing. -/
theorem look {i : ExpId} {f : ExpCell ExpId BlockId → Build α}
    (k : Tracks (f (b.arena.exp i)) b p R) : Tracks (exp i >>= f) b p R := k

theorem exp_place {i : ExpId} {e : Exp} {f : Location → Build α}
    (h : b.arena.Shows (.exp i) (.exp e)) (k : Tracks (f e.place) b p R) :
    Tracks (expPlace i >>= f) b p R := by
  rw [← h.place_exp] at k
  exact k

theorem exp_places {is : List ExpId} {es : List Exp} {f : List Location → Build α}
    (h : List.Forall₂ b.arena.Shows (is.map .exp) (es.map .exp))
    (k : Tracks (f (es.map Exp.place)) b p R) : Tracks (is.mapM expPlace >>= f) b p R := by
  induction is generalizing es f with
  | nil =>
    obtain rfl : es = [] := by simpa using h
    exact k
  | cons i is ih =>
    cases es with
    | nil => cases h
    | cons e es =>
      obtain ⟨first, rest⟩ := List.forall₂_cons.1 h
      rw [List.mapM_cons, bind_assoc]
      refine .exp_place first ?_
      rw [bind_assoc]
      exact ih rest k

end Tracks

/-! ## Expressions -/

theorem tracks_numeral (t : Token) (sound : b.Sound) :
    Tracks (numeral t) b (Parse.numeral t) b.HeldExp := by
  unfold numeral Parse.numeral
  cases Numeral.value? t.text.toList with
  | none => exact .step fun _ => .last_exp sound rfl rfl rfl
  | some value =>
    cases value with
    | integer n => exact .last_exp sound rfl rfl rfl
    | float x => exact .last_exp sound rfl rfl rfl

/-- The readers one level further down build what the readers of trees answer. -/
structure Nested.Tracks (deeper : Nested) (deeper' : Parse.Nested) : Prop where
  exp : ∀ {b} limit, b.Sound → Build.Tracks (deeper.exp limit) b (deeper'.exp limit) b.HeldExp
  block : ∀ {b}, b.Sound → Build.Tracks deeper.block b deeper'.block b.HeldBlock

section

variable {deeper : Nested} {deeper' : Parse.Nested} (h : deeper.Tracks deeper')
include h

theorem tracks_field (sound : b.Sound) :
    Tracks (field deeper) b (Parse.field deeper') b.HeldField := by
  have plain : ∀ named : Bool, Tracks (do
      if named then
        let name ← Parse.advance
        let _ ← Parse.advance
        let key ← addExp (.string name.text name.location)
        return ⟨some key, ← deeper.fullExp⟩
      else return ⟨none, ← deeper.fullExp⟩) b (do
      if named then
        let name ← Parse.advance
        let _ ← Parse.advance
        return .keyed (.string name.text name.location) (← deeper'.fullExp)
      else return .item (← deeper'.fullExp)) b.HeldField := by
    intro named
    refine .ite (fun _ => .step fun name => .step fun _ => ?_) fun _ => ?_
    · refine .add_exp (.string name.text name.location) sound rfl rfl rfl fun key b₁ hkey => ?_
      refine (h.exp 0 hkey.sound).bind fun value b₂ value' hvalue => .pure ?_
      exact ⟨hkey.append hvalue, rfl⟩
    · exact (h.exp 0 sound).bind fun value b₁ value' hvalue => .pure ⟨hvalue, rfl⟩
  unfold field Parse.field
  refine .step fun bracket => ?_
  cases bracket with
  | some bracket =>
    refine (h.exp 0 sound).bind fun key b₁ key' hkey => .step fun _ => .step fun _ => ?_
    refine (h.exp 0 hkey.sound).bind fun value b₂ value' hvalue => .pure ?_
    exact ⟨hkey.append hvalue, rfl⟩
  | none => exact .step fun _ => .ite (fun _ => .step fun k => plain _) fun _ => plain false

theorem tracks_fieldRound {fs : List (FieldCell ExpId)} {fs' : List Field}
    (held : b₀.HeldFields fs b fs') :
    Tracks (fieldRound deeper fs) b (Parse.fieldRound deeper' fs')
      (Tracks.Both b₀.HeldFields) := by
  unfold fieldRound Parse.fieldRound
  refine .step fun t => .ite (fun _ => .pure (.done held)) fun _ => ?_
  refine (tracks_field h held.1.sound).bind fun f b₁ f' hf => ?_
  have all := held.concat hf
  refine .step fun t => .ite (fun _ => .step fun _ => ?_) fun _ => ?_
  · exact .pure (.again all)
  · exact .pure (.done all)

theorem tracks_table (sound : b.Sound) :
    Tracks (table deeper) b (Parse.table deeper') b.HeldExp := by
  unfold table Parse.table
  refine .step fun brace => ?_
  have start : b.HeldFields [] b [] := ⟨sound, rfl⟩
  refine (Tracks.loop (fun _ _ _ => tracks_fieldRound h) start).bind fun fs b₁ fs' hfs => ?_
  refine .step fun close => .last_exp hfs.1 rfl ?_ rfl
  simp [ExpCell.blank, Exp.cell, hfs.2]

theorem tracks_functionBody (start : Location) (isMethod : Bool) (sound : b.Sound) :
    Tracks (functionBody deeper start isMethod) b (Parse.functionBody deeper' start isMethod)
      b.HeldExp := by
  unfold functionBody Parse.functionBody
  refine .step fun paren => .step fun params => .step fun _ => ?_
  refine (h.block sound).bind fun body b₁ body' hbody => .step fun close => ?_
  exact .last_exp hbody rfl rfl rfl

theorem tracks_expList (sound : b.Sound) :
    Tracks deeper.expList b deeper'.expList b.HeldExps := by
  refine (h.exp 0 sound).bind fun i b₁ e he => ?_
  have start : b.HeldExps [i] b₁ [e] := he
  refine .further (fun held => ?_) start
  exact (h.exp 0 held.sound).imp fun i b₂ e he => HeldExps.concat held he

theorem tracks_arguments (place : Location) (sound : b.Sound) :
    Tracks (arguments deeper place) b (Parse.arguments deeper' place) fun x b' y =>
      b.HeldExps x.1 b' y.1 ∧ x.2 = y.2 := by
  unfold arguments Parse.arguments
  refine .step fun t => ?_
  cases t.kind with
  | leftParen =>
    refine .step fun paren => .step fun _ => ?_
    refine .ite_bind (fun _ => .pure sound) (fun _ => tracks_expList h sound) ?_
    exact fun args b₁ args' hargs => .step fun close => .pure ⟨hargs, rfl⟩
  | leftBrace =>
    refine (tracks_table h sound).bind fun t b₁ t' ht => .exp_place ht.shows ?_
    exact .pure ⟨ht, rfl⟩
  | string =>
    refine .step fun t => ?_
    refine .add_exp (.string t.text t.location) sound rfl rfl rfl fun s b₁ hs => ?_
    exact .pure ⟨hs, rfl⟩
  | _ => exact .step fun _ => .step fun _ => .step fun _ => .pure ⟨sound, rfl⟩

theorem tracks_primary (sound : b.Sound) :
    Tracks (primary deeper) b (Parse.primary deeper') b.HeldExp := by
  unfold primary Parse.primary
  refine .step fun t => ?_
  cases t.kind with
  | ident => exact .step fun t => .last_exp sound rfl rfl rfl
  | leftParen =>
    refine .step fun paren => (h.exp 0 sound).bind fun inner b₁ inner' hinner => ?_
    refine .step fun close => .look ?_
    rw [hinner.shows.keepsParens_exp]
    split
    · exact .last_exp hinner rfl rfl rfl
    · exact .pure hinner
  | _ =>
    have bad : Tracks (addExp (.bad t.location)) b (pure (.bad t.location)) b.HeldExp :=
      .last_exp sound rfl rfl rfl
    refine .ite (fun _ => ?_) fun _ => .step fun _ => ?_
    all_goals exact .ite (fun _ => bad) fun _ => .step fun _ => bad

theorem tracks_suffix {i : ExpId} {e : Exp} (held : b₀.HeldExp i b e) :
    Tracks (suffix deeper i) b (Parse.suffix deeper' e) (Tracks.Both b₀.HeldExp) := by
  have call : ∀ p : Location, Tracks (do
      let r ← arguments deeper p
      let place := (← expPlace i).cover r.2
      return .again (← addExp (.call i none r.1 place))) b (do
      let r ← Parse.arguments deeper' p
      pure (.again (.call e none r.1 (e.place.cover r.2)))) (Tracks.Both b₀.HeldExp) := by
    intro p
    refine (tracks_arguments h p held.sound).bind ?_
    rintro ⟨args, last⟩ b₁ ⟨args', _⟩ ⟨hargs, rfl⟩
    refine .exp_place (held.keep hargs) ?_
    refine .add_exp _ (held.append hargs) rfl ?_ rfl fun _ _ hnew => .pure (.again hnew)
    simp [ExpCell.blank, Exp.cell, hargs.length_eq]
  unfold suffix Parse.suffix
  refine .step fun t => ?_
  cases t.kind with
  | dot =>
    refine .step fun _ => .step fun name => ?_
    refine .add_exp (Parse.nameKey name) held.sound rfl rfl rfl fun key b₁ hkey => ?_
    refine .exp_place (held.keep hkey) (.exp_place hkey.shows ?_)
    exact .add_exp _ (held.append hkey) rfl rfl rfl fun _ _ hnew => .pure (.again hnew)
  | leftBracket =>
    refine .step fun bracket => ?_
    refine (h.exp 0 held.sound).bind fun key b₁ key' hkey => .step fun close => ?_
    refine .exp_place (held.keep hkey) ?_
    exact .add_exp _ (held.append hkey) rfl rfl rfl fun _ _ hnew => .pure (.again hnew)
  | colon =>
    refine .step fun _ => .step fun name => ?_
    refine .add_exp (Parse.nameKey name) held.sound rfl rfl rfl fun key b₁ hkey => ?_
    refine .exp_place hkey.shows ?_
    refine (tracks_arguments h _ hkey.sound).bind ?_
    rintro ⟨args, last⟩ b₂ ⟨args', _⟩ ⟨hargs, rfl⟩
    have behind := hkey.append hargs
    refine .exp_place (held.keep behind) ?_
    refine .add_exp _ (held.append behind) rfl ?_ rfl fun _ _ hnew => .pure (.again hnew)
    simp [ExpCell.blank, Exp.cell, hargs.length_eq]
  | leftParen => exact call _
  | leftBrace => exact call _
  | string => exact call _
  | _ => exact .pure (.done held)

theorem tracks_suffixed (sound : b.Sound) :
    Tracks (suffixed deeper) b (Parse.suffixed deeper') b.HeldExp := by
  refine (tracks_primary h sound).bind fun i b₁ e he => ?_
  exact .loop (fun _ _ _ => tracks_suffix h) he

theorem tracks_simple (sound : b.Sound) :
    Tracks (simple deeper) b (Parse.simple deeper') b.HeldExp := by
  unfold simple Parse.simple
  refine .step fun t => ?_
  cases t.kind with
  | kwNil => exact .step fun _ => .last_exp sound rfl rfl rfl
  | kwTrue => exact .step fun _ => .last_exp sound rfl rfl rfl
  | kwFalse => exact .step fun _ => .last_exp sound rfl rfl rfl
  | vararg => exact .step fun _ => .last_exp sound rfl rfl rfl
  | number => exact .step fun t => tracks_numeral t sound
  | string => exact .step fun t => .last_exp sound rfl rfl rfl
  | leftBrace => exact tracks_table h sound
  | kwFunction => exact .step fun _ => tracks_functionBody h t.location false sound
  | _ => exact tracks_suffixed h sound

theorem tracks_operand (sound : b.Sound) :
    Tracks (operand deeper) b (Parse.operand deeper') b.HeldExp := by
  unfold operand Parse.operand
  refine .step fun t => ?_
  cases UnaryOp.ofKind? t.kind with
  | none => exact tracks_simple h sound
  | some op =>
    refine .step fun t => (h.exp _ sound).bind fun i b₁ e he => .exp_place he.shows ?_
    exact .last_exp he rfl rfl rfl

theorem tracks_operation (limit : Nat) {i : ExpId} {e : Exp} (held : b₀.HeldExp i b e) :
    Tracks (operation deeper limit i) b (Parse.operation deeper' limit e)
      (Tracks.Both b₀.HeldExp) := by
  unfold operation Parse.operation
  refine .step fun t => ?_
  cases BinaryOp.ofKind? t.kind with
  | none => exact .pure (.done held)
  | some op =>
    refine .ite (fun _ => .pure (.done held)) fun _ => .step fun _ => ?_
    refine (h.exp _ held.sound).bind fun rhs b₁ rhs' hrhs => ?_
    refine .exp_place (held.keep hrhs) (.exp_place hrhs.shows ?_)
    exact .add_exp _ (held.append hrhs) rfl rfl rfl fun _ _ hnew => .pure (.again hnew)

theorem tracks_subexpression (limit : Nat) (sound : b.Sound) :
    Tracks (subexpression deeper limit) b (Parse.subexpression deeper' limit) b.HeldExp := by
  refine (tracks_operand h sound).bind fun i b₁ e he => ?_
  exact .loop (fun _ _ _ => tracks_operation h limit) he

end

/-! ## Statements -/

section

variable {deeper : Nested} {deeper' : Parse.Nested} (h : deeper.Tracks deeper')
include h

omit h in
theorem tracks_gotoStat (sound : b.Sound) : Tracks gotoStat b Parse.gotoStat b.HeldStat :=
  .step fun _ => .step fun _ => .last_stat sound rfl rfl rfl

omit h in
theorem tracks_labelStat (sound : b.Sound) : Tracks labelStat b Parse.labelStat b.HeldStat :=
  .step fun _ => .step fun _ => .step fun _ => .last_stat sound rfl rfl rfl

theorem tracks_scopeStat (sound : b.Sound) :
    Tracks (scopeStat deeper) b (Parse.scopeStat deeper') b.HeldStat := by
  refine .step fun t => (h.block sound).bind fun body b₁ body' hbody => .step fun close => ?_
  exact .last_stat hbody rfl rfl rfl

theorem tracks_whileStat (sound : b.Sound) :
    Tracks (whileStat deeper) b (Parse.whileStat deeper') b.HeldStat := by
  refine .step fun t => (h.exp 0 sound).bind fun c b₁ c' hc => .step fun _ => ?_
  refine (h.block hc.sound).bind fun body b₂ body' hbody => .step fun close => ?_
  exact .last_stat (hc.append hbody) rfl rfl rfl

theorem tracks_repeatStat (sound : b.Sound) :
    Tracks (repeatStat deeper) b (Parse.repeatStat deeper') b.HeldStat := by
  refine .step fun t => (h.block sound).bind fun body b₁ body' hbody => .step fun _ => ?_
  refine (h.exp 0 hbody.sound).bind fun c b₂ c' hc => .exp_place hc.shows ?_
  exact .last_stat (hbody.append hc) rfl rfl rfl

theorem tracks_clause (sound : b.Sound) :
    Tracks (clause deeper) b (Parse.clause deeper') b.HeldClause := by
  refine (h.exp 0 sound).bind fun c b₁ c' hc => .step fun _ => ?_
  exact (h.block hc.sound).bind fun body b₂ body' hbody => .pure (hc.append hbody)

theorem tracks_branchStat (sound : b.Sound) :
    Tracks (branchStat deeper) b (Parse.branchStat deeper') b.HeldStat := by
  refine .step fun t => (tracks_clause h sound).bind fun first b₁ first' hfirst => ?_
  have none : b.HeldClauses [] b [] := ⟨sound, rfl⟩
  have start : b.HeldClauses [first] b₁ [first'] := none.concat hfirst
  refine (Tracks.further (fun held => ?_) start).bind fun clauses b₂ clauses' hclauses => ?_
  · exact (tracks_clause h held.1.sound).imp fun c b₂ c' hc => held.concat hc
  · refine .step fun _ => .ite_bind (Q := b₂.HeldBlock?) (fun _ => ?_) (fun _ => ?_) ?_
    · exact .map (h.block hclauses.1.sound)
    · exact .pure hclauses.1.sound
    · intro other b₃ other' hother
      refine .step fun close => .last_stat (hclauses.1.append hother) rfl ?_ rfl
      simp [StatCell.blank, Stat.cell, hclauses.2, map_unit_eq hother]

theorem tracks_numericForStat (opener : Location) (var : Ident) (sound : b.Sound) :
    Tracks (numericForStat deeper opener var) b (Parse.numericForStat deeper' opener var)
      b.HeldStat := by
  refine (h.exp 0 sound).bind fun start b₁ start' hstart => .step fun _ => ?_
  refine (h.exp 0 hstart.sound).bind fun limit b₂ limit' hlimit => .step fun _ => ?_
  refine .ite_bind (Q := b₂.HeldExp?) (fun _ => .map (h.exp 0 hlimit.sound))
    (fun _ => .pure hlimit.sound) fun step b₃ step' hstep => .step fun _ => ?_
  refine (h.block hstep.sound).bind fun body b₄ body' hbody => .step fun close => ?_
  refine .last_stat (hstart.append (hlimit.append (hstep.append hbody))) rfl ?_ rfl
  simp [StatCell.blank, Stat.cell, map_unit_eq hstep]

theorem tracks_genericForStat (opener : Location) (first : Ident) (sound : b.Sound) :
    Tracks (genericForStat deeper opener first) b (Parse.genericForStat deeper' opener first)
      b.HeldStat := by
  refine .step fun names => .step fun _ => ?_
  refine (tracks_expList h sound).bind fun exps b₁ exps' hexps => .step fun _ => ?_
  refine (h.block hexps.sound).bind fun body b₂ body' hbody => .step fun close => ?_
  refine .last_stat (hexps.append hbody) rfl ?_ rfl
  simp [StatCell.blank, Stat.cell, hexps.length_eq]

theorem tracks_forStat (sound : b.Sound) :
    Tracks (forStat deeper) b (Parse.forStat deeper') b.HeldStat := by
  refine .step fun t => .step fun first => .step fun _ => ?_
  exact .ite (fun _ => tracks_numericForStat h _ _ sound) fun _ => tracks_genericForStat h _ _ sound

omit h in
theorem tracks_targetRound {x : ExpId × Bool} {y : Exp × Bool}
    (held : b₀.HeldExp x.1 b y.1 ∧ x.2 = y.2) :
    Tracks (targetRound x) b (Parse.targetRound y)
      (Tracks.Both fun x b y => b₀.HeldExp x.1 b y.1 ∧ x.2 = y.2) := by
  refine .step fun t => .ite (fun _ => .step fun _ => .step fun name => ?_) fun _ => ?_
  · refine .add_exp (Parse.nameKey name) held.1.sound rfl rfl rfl fun key b₁ hkey => ?_
    refine .exp_place (held.1.keep hkey) (.exp_place hkey.shows ?_)
    refine .add_exp (.index y.1 (Parse.nameKey name) (y.1.place.cover name.location))
      (held.1.append hkey) rfl rfl rfl fun i b₂ hi => .pure ?_
    split
    · exact .done ⟨hi, rfl⟩
    · exact .again ⟨hi, rfl⟩
  · exact .pure (.done ⟨held.1, rfl⟩)

omit h in
theorem tracks_functionTarget (first : Ident) (sound : b.Sound) :
    Tracks (functionTarget first) b (Parse.functionTarget first) fun x b' y =>
      b.HeldExp x.1 b' y.1 ∧ x.2 = y.2 := by
  refine .add_exp (.name first.text first.location) sound rfl rfl rfl fun i b₁ hi => ?_
  exact .loop (fun _ _ _ => tracks_targetRound) ⟨hi, rfl⟩

theorem tracks_functionStat (sound : b.Sound) :
    Tracks (functionStat deeper) b (Parse.functionStat deeper') b.HeldStat := by
  refine .step fun t => .step fun first => (tracks_functionTarget first sound).bind ?_
  rintro ⟨target, isMethod⟩ b₁ ⟨target', _⟩ ⟨htarget, rfl⟩
  refine (tracks_functionBody h t.location isMethod htarget.sound).bind fun f b₂ f' hf => ?_
  refine .exp_place hf.shows ?_
  exact .last_stat (htarget.append hf) rfl rfl rfl

theorem tracks_localFunctionStat (opener : Location) (sound : b.Sound) :
    Tracks (localFunctionStat deeper opener) b (Parse.localFunctionStat deeper' opener)
      b.HeldStat := by
  refine .step fun t => .step fun name => ?_
  refine (tracks_functionBody h t.location false sound).bind fun f b₁ f' hf => ?_
  refine .exp_place hf.shows ?_
  exact .last_stat hf rfl rfl rfl

theorem tracks_localsStat (opener : Location) (sound : b.Sound) :
    Tracks (localsStat deeper opener) b (Parse.localsStat deeper' opener) b.HeldStat := by
  refine .step fun names => .step fun _ => ?_
  refine .ite_bind (fun _ => tracks_expList h sound) (fun _ => .pure sound) ?_
  intro values b₁ values' hvalues
  refine .exp_places hvalues.arena.shows (.last_stat hvalues rfl ?_ rfl)
  simp [StatCell.blank, Stat.cell, hvalues.length_eq]

theorem tracks_localStat (sound : b.Sound) :
    Tracks (localStat deeper) b (Parse.localStat deeper') b.HeldStat := by
  refine .step fun t => .step fun _ => ?_
  exact .ite (fun _ => tracks_localFunctionStat h _ sound) fun _ => tracks_localsStat h _ sound

omit h in
theorem tracks_checkTargets {is : List ExpId} {es : List Exp}
    (shows : List.Forall₂ b.arena.Shows (is.map .exp) (es.map .exp)) :
    Tracks (is.forM checkTarget) b (es.forM Parse.checkTarget) fun _ b' _ => b' = b := by
  induction is generalizing es with
  | nil =>
    obtain rfl : es = [] := by simpa using shows
    exact .pure rfl
  | cons i is ih =>
    cases es with
    | nil => cases shows
    | cons e es =>
      obtain ⟨first, rest⟩ := List.forall₂_cons.1 shows
      refine Tracks.bind (Q := fun _ b' _ => b' = b) (.look ?_) ?_
      · rw [first.isAssignable_exp, first.isBad_exp, first.place_exp]
        exact .ite (fun _ => .pure rfl) fun _ => (Tracks.lift _).imp fun _ _ _ same => same.2
      · rintro _ _ _ rfl
        exact ih rest

theorem tracks_assignStat {i : ExpId} {e : Exp} (held : b₀.HeldExp i b e) :
    Tracks (assignStat deeper i) b (Parse.assignStat deeper' e) b₀.HeldStat := by
  have start : b₀.HeldExps [i] b [e] ∧ b.arena.Shows (.exp i) (.exp e) := ⟨held, held.shows⟩
  refine (Tracks.further (Q := fun is b' es => b₀.HeldExps is b' es ∧
    b'.arena.Shows (.exp i) (.exp e)) (fun all => ?_) start).bind ?_
  · refine (tracks_suffixed h all.1.sound).imp fun i b₂ e he => ?_
    exact ⟨all.1.concat he, all.2.mono he.arena.grows.cell⟩
  · rintro targets b₁ targets' ⟨htargets, first⟩
    refine (tracks_checkTargets htargets.arena.shows).bind ?_
    rintro _ _ _ rfl
    refine .step fun _ => (tracks_expList h htargets.sound).bind fun values b₂ values' hvalues => ?_
    have all := htargets.append hvalues
    have shows : List.Forall₂ b₂.arena.Shows ((targets ++ values).map .exp)
        ((targets' ++ values').map .exp) := by simpa using all.arena.shows
    refine .exp_places shows (.exp_place (first.mono hvalues.arena.grows.cell) ?_)
    refine .last_stat all rfl ?_ rfl
    simp [StatCell.blank, Stat.cell, htargets.length_eq, hvalues.length_eq]

theorem tracks_expStat (sound : b.Sound) :
    Tracks (expStat deeper) b (Parse.expStat deeper') b.HeldStat? := by
  refine (tracks_suffixed h sound).bind fun i b₁ e he => .step fun t => ?_
  refine .ite (fun _ => .map (tracks_assignStat h he)) fun _ => .look ?_
  rw [he.shows.isCall_exp, he.shows.isBad_exp, he.shows.place_exp]
  refine .ite (fun _ => ?_) fun _ => .ite (fun _ => .pure he.drop) fun _ => ?_
  · exact .stat_some he rfl rfl rfl
  · exact .map (tracks_assignStat h he)

theorem tracks_returnStat (sound : b.Sound) :
    Tracks (returnStat deeper) b (Parse.returnStat deeper') b.HeldStat := by
  refine .step fun t => .step fun k => ?_
  refine .ite_bind (fun _ => .pure sound) (fun _ => tracks_expList h sound) ?_
  intro values b₁ values' hvalues
  refine .exp_places hvalues.arena.shows (.step fun close => .last_stat hvalues rfl ?_ rfl)
  simp [StatCell.blank, Stat.cell, hvalues.length_eq]

theorem tracks_statement (sound : b.Sound) :
    Tracks (statement deeper) b (Parse.statement deeper') b.HeldStat? := by
  unfold statement Parse.statement
  refine .step fun t => ?_
  cases t.kind with
  | semicolon => exact .step fun _ => .pure sound
  | illegal => exact .step fun _ => .pure sound
  | kwBreak => exact .step fun t => .stat_some sound rfl rfl rfl
  | doubleColon => exact .map (tracks_labelStat sound)
  | kwGoto => exact .map (tracks_gotoStat sound)
  | kwDo => exact .map (tracks_scopeStat h sound)
  | kwWhile => exact .map (tracks_whileStat h sound)
  | kwRepeat => exact .map (tracks_repeatStat h sound)
  | kwIf => exact .map (tracks_branchStat h sound)
  | kwFor => exact .map (tracks_forStat h sound)
  | kwFunction => exact .map (tracks_functionStat h sound)
  | kwLocal => exact .map (tracks_localStat h sound)
  | _ => exact tracks_expStat h sound

theorem tracks_statementRound {is : List StatId} {xs : List Stat} (held : b₀.HeldStats is b xs) :
    Tracks (statementRound deeper is) b (Parse.statementRound deeper' xs)
      (Tracks.Both b₀.HeldStats) := by
  refine .step fun t => .step fun before => .ite (fun _ => .pure (.done held)) fun _ => ?_
  refine .ite (fun _ => ?_) fun _ => ?_
  · refine (tracks_returnStat h held.sound).bind fun i b₁ x hx => .pure (.done ?_)
    have last : b.HeldStat? (some i) b₁ (some x) := hx
    exact held.extend last
  · refine (tracks_statement h held.sound).bind fun i b₁ x hx => .step fun _ => ?_
    have all := held.extend hx
    exact .ite (fun _ => .step fun _ => .pure (.again all)) fun _ => .pure (.again all)

theorem tracks_statements {is : List StatId} {xs : List Stat} (held : b₀.HeldStats is b xs) :
    Tracks (statements deeper is) b (Parse.statements deeper' xs) b₀.HeldStats :=
  .loop (fun _ _ _ => tracks_statementRound h) held

omit h in
theorem tracks_finish {is : List StatId} {xs : List Stat} (held : b₀.HeldStats is b xs) :
    Tracks (finish is) b (Parse.finish xs) b₀.HeldBlock := by
  intro s
  have length : is.length = xs.length := by simpa using held.arena.shows.length_eq
  cases xs with
  | nil =>
    obtain rfl := List.eq_nil_of_length_eq_zero length
    exact ⟨_, _, rfl, held.add_block rfl rfl rfl fun _ => rfl⟩
  | cons x xs =>
    cases is with
    | nil => exact nomatch length
    | cons i is =>
      have last {j : StatId} {y : Stat} (hj : (i :: is).getLast? = some j)
          (hy : (x :: xs).getLast? = some y) : (b.arena.stat j).place = y.place := by
        rw [List.getLast?_eq_getElem?] at hj hy
        obtain ⟨z, hz, shows⟩ := Arena.Shows.exists_stat held.arena.shows hj
        rw [length] at hz
        rw [shows.place_stat, Option.some.inj (hz.symm.trans hy)]
      refine ⟨_, _, rfl, held.add_block rfl ?_ rfl nofun⟩
      simp [BlockCell.blank, Block.cell, Block.stats, Block.place, Nat.succ.inj length,
        held.shows.place_stat, last rfl rfl]

theorem tracks_block (sound : b.Sound) :
    Tracks (block deeper) b (Parse.block deeper') b.HeldBlock :=
  (tracks_statements h sound).bind fun _ _ _ held => tracks_finish held

theorem tracks_chunkRound {is : List StatId} {xs : List Stat} (held : b₀.HeldStats is b xs) :
    Tracks (chunkRound deeper is) b (Parse.chunkRound deeper' xs)
      (Tracks.Both b₀.HeldStats) := by
  refine (tracks_statements h held).bind fun is b₁ xs held => .step fun _ => ?_
  refine .ite (fun _ => .pure (.done held)) fun _ => ?_
  exact .step fun _ => .step fun _ => .step fun _ => .step fun _ => .pure (.again held)

theorem tracks_chunk (sound : b.Sound) :
    Tracks (chunk deeper) b (Parse.chunk deeper') b.HeldBlock := by
  refine .step fun _ => ?_
  refine (Tracks.loop (fun _ _ _ => tracks_chunkRound h) sound).bind fun _ _ _ held => ?_
  exact tracks_finish held

end

theorem tracks_nested (n : Nat) : (nested n).Tracks (Parse.nested n) := by
  induction n with
  | zero => exact ⟨fun _ _ _ => rfl, fun _ _ => rfl⟩
  | succ n ih => exact ⟨fun limit => tracks_subexpression ih limit, tracks_block ih⟩

end Build

/-! ## Programs -/

namespace Source

/-- The arena of a source holds its tree. -/
theorem build_of_parse {s : Source} {limit : Nat} {tree : Block} {st : Parse.State}
    (h : s.parse limit = .ok tree st) :
    ∃ root b, s.build limit = .ok (root, b) st ∧ Built.HeldBlock {} root b tree := by
  have run := Build.tracks_chunk (Build.tracks_nested Parse.maxLevels) Built.sound_empty
    (.ofSource s limit)
  rw [show Parse.chunk _ _ = _ from h] at run
  exact run

/-- Where reading stops, it stops for both. -/
theorem build_of_stopped {s : Source} {limit : Nat} {e : Parse.Stop} {st : Parse.State}
    (h : s.parse limit = .error e st) : s.build limit = .error e st := by
  have run := Build.tracks_chunk (Build.tracks_nested Parse.maxLevels) Built.sound_empty
    (.ofSource s limit)
  rw [show Parse.chunk _ _ = _ from h] at run
  exact run

end Source

end LuaFront
