import LuaFront.Program
import LuaFront.Proofs.Composed
import LuaFront.Proofs.Nodes

/-!
# How deep trees are

A node has as many ancestors as the path that leads to it has steps. The limit on levels does not
bound them: an operator behind an operand, a field and a call are read in loops that enter no level,
and each of them puts one more node over what was read before, its *stem*. Only the steps to other
children than stems, the `bends` of a path, are bounded by the levels.

* `Source.bends_le_program`: the path to a node has no more than five bends for each level.
* `Source.not_ancestors_le_program`: nodes can have more ancestors than that.
-/

namespace LuaFront

namespace Node

/-- The node to which a path of child positions leads. -/
def at? (n : Node) : List Nat → Option Node
  | [] => some n
  | k :: path => n.children[k]?.bind (·.at? path)

/-- Whether the first child of a node is its stem: the left operand, the object, or the callee. -/
def hasStem : Node → Bool
  | exp (.binary ..) | exp (.index ..) | exp (.call ..) => true
  | _ => false

/-- One for a step from a node to any other child than its stem. -/
def turn (n : Node) (k : Nat) : Nat := if n.hasStem && k == 0 then 0 else 1

/-- How many steps of a path below a node do not lead to a stem. -/
def bends (n : Node) : List Nat → Nat
  | [] => 0
  | k :: path => n.turn k + n.children[k]?.elim 0 (·.bends path)

/-- No path below the node has more than `d` bends. -/
def Shallow (d : Nat) (n : Node) : Prop :=
  ∀ path m, n.at? path = some m → n.bends path ≤ d

namespace Shallow

variable {d e : Nat} {n c : Node} {cs : List Node}

theorem mono (h : n.Shallow d) (le : d ≤ e) : n.Shallow e := fun path m at? =>
  Nat.le_trans (h path m at?) le

theorem of_children
    (h : ∀ k c, n.children[k]? = some c → ∃ e, c.Shallow e ∧ n.turn k + e ≤ d) : n.Shallow d := by
  intro path m at?
  cases path with
  | nil => exact Nat.zero_le d
  | cons k path =>
    obtain ⟨c, child, at?⟩ := Option.bind_eq_some_iff.1 at?
    obtain ⟨e, shallow, le⟩ := h k c child
    have below := shallow path m at?
    rw [bends, child, Option.elim_some]
    omega

/-- A parent is one bend above its children. -/
theorem parent (h : ∀ c ∈ n.children, c.Shallow d) : n.Shallow (d + 1) := by
  refine of_children fun k c child => ⟨d, h c (List.mem_of_getElem? child), ?_⟩
  unfold turn
  split <;> omega

/-- A parent is not above its stem. -/
theorem grow (hs : n.hasStem) (children : n.children = c :: cs) (stem : c.Shallow (d + 1))
    (h : ∀ c ∈ cs, c.Shallow d) : n.Shallow (d + 1) := by
  refine of_children fun k b child => ?_
  rw [children] at child
  cases k with
  | zero =>
    obtain rfl := Option.some.inj child
    exact ⟨d + 1, stem, by simp [turn, hs]⟩
  | succ k => exact ⟨d, h b (List.mem_of_getElem? child), by simp [turn, Nat.add_comm]⟩

theorem leaf (h : n.children = []) : n.Shallow d := by
  refine of_children fun k c child => ?_
  rw [h] at child
  cases child

end Shallow

end Node

/-! ## Ancestors and paths -/

/-- A node is listed with one more ancestor for each step of its path. -/
theorem Node.exists_entry_of_at? {n m : Node} {path : List Nat} (at? : n.at? path = some m)
    (ancestors : List Nat) (index : Nat) :
    ∃ e ∈ n.outline.entriesFrom ancestors index, e.node = m ∧
      e.ancestors.length = ancestors.length + path.length := by
  induction path generalizing n ancestors index with
  | nil =>
    rw [outline_eq, Outline.entriesFrom]
    exact ⟨_, List.mem_cons_self, Option.some.inj at?, rfl⟩
  | cons k path ih =>
    obtain ⟨c, child, at?⟩ := Option.bind_eq_some_iff.1 at?
    have below : c.outline ∈ n.children.map outline :=
      List.mem_map_of_mem (List.mem_of_getElem? child)
    obtain ⟨start, sub⟩ := exists_entriesFrom_subset below (index :: ancestors) (index + 1)
    obtain ⟨e, he, node, length⟩ := ih at? (index :: ancestors) start
    rw [outline_eq, Outline.entriesFrom]
    refine ⟨e, List.mem_cons_of_mem _ (sub he), node, ?_⟩
    rw [length, List.length_cons, List.length_cons]
    omega

namespace Parse

variable {α β : Type} {d : Nat}

/-! ## What readers answer -/

/-- Whatever the reader answers, `Q` holds of it. -/
def Yields (p : Parse α) (Q : α → Prop) : Prop := ∀ s a s', p s = .ok a s' → Q a

namespace Yields

variable {p : Parse β} {q q' : Parse α} {f : β → Parse α} {P : β → Prop} {Q R : α → Prop}

theorem imp (h : Yields q Q) (imp : ∀ a, Q a → R a) : Yields q R := fun s a s' run =>
  imp a (h s a s' run)

protected theorem pure {a : α} (h : Q a) : Yields (pure a) Q := by
  intro s b s' run
  cases run
  exact h

theorem bind (h : Yields p P) (k : ∀ b, P b → Yields (f b) Q) : Yields (p >>= f) Q := by
  intro s a s' run
  rw [run_bind] at run
  cases first : p s with
  | ok b t =>
    rw [first] at run
    exact k b (h s b t first) t a s' run
  | error e t =>
    rw [first] at run
    cases run

/-- A reader whose answer does not matter. -/
theorem skip (k : ∀ b, Yields (f b) Q) : Yields (p >>= f) Q :=
  bind (P := fun _ => True) (fun _ _ _ _ => trivial) fun b _ => k b

theorem map {g : β → α} (h : Yields p fun b => Q (g b)) : Yields (g <$> p) Q :=
  h.bind fun _ hb => Yields.pure hb

protected theorem ite {c : Prop} [Decidable c] (yes : c → Yields q Q) (no : ¬c → Yields q' Q) :
    Yields (if c then q else q') Q := by
  split
  · next hc => exact yes hc
  · next hc => exact no hc

/-- A reader whose answer may be missing, and is not. -/
theorem map_some (h : Yields q Q) : Yields (some <$> q) fun x => ∀ a ∈ x, Q a := by
  refine map (h.imp fun a ha b hb => ?_)
  obtain rfl := Option.some.inj hb
  exact ha

theorem tooDeep : Yields Parse.tooDeep Q := fun _ _ _ run => nomatch run

end Yields

/-- Whatever a round comes to. -/
def Round.All (Q : α → Prop) : Round α → Prop
  | .again a | .done a => Q a

theorem Yields.loop {body : α → Parse (Round α)} {Q : α → Prop} {a : α}
    (h : ∀ a, Q a → Yields (body a) (Round.All Q)) (ha : Q a) : Yields (loop body a) Q := by
  refine .skip fun bound => ?_
  induction bound generalizing a with
  | nil => exact .pure ha
  | cons x xs ih =>
    refine (h a ha).bind fun r hr => ?_
    cases r with
    | again b => exact ih hr
    | done b => exact .pure hr

theorem yields_further {separator : Kind} {item : Parse α} {Q : α → Prop} {xs : List α}
    (h : Yields item Q) (hxs : ∀ x ∈ xs, Q x) :
    Yields (further separator item xs) fun ys => ∀ y ∈ ys, Q y := by
  refine .loop (fun xs hxs => ?_) hxs
  refine .skip fun separated => .ite (fun _ => ?_) fun _ => .pure hxs
  refine h.bind fun x hx => .pure ?_
  exact List.forall_mem_append.2 ⟨hxs, List.forall_mem_singleton.2 hx⟩

theorem yields_commaList {item : Parse α} {Q : α → Prop} (h : Yields item Q) :
    Yields (commaList item) fun ys => ∀ y ∈ ys, Q y :=
  h.bind fun _ hx => yields_further h (List.forall_mem_singleton.2 hx)

/-! ## Expressions -/

/-- What the readers for one level further down answer has few bends. -/
structure Nested.Shallow (deeper : Nested) (d : Nat) : Prop where
  exp : ∀ limit, Yields (deeper.exp limit) fun e => (Node.exp e).Shallow d
  block : Yields deeper.block fun b => (Node.block b).Shallow d

section Expression

variable {deeper : Nested} (h : deeper.Shallow d)

theorem yields_numeral (t : Token) : Yields (numeral t) fun e => (Node.exp e).Shallow d := by
  unfold numeral
  split
  · exact .pure (.leaf rfl)
  · exact .pure (.leaf rfl)
  · exact .skip fun _ => .pure (.leaf rfl)

include h

theorem Nested.Shallow.expList :
    Yields deeper.expList fun es => ∀ e ∈ es, (Node.exp e).Shallow d :=
  yields_commaList (h.exp 0)

theorem yields_field : Yields (field deeper) fun f => ∀ n ∈ Node.ofField f, n.Shallow d := by
  have keyed : ∀ key, (Node.exp key).Shallow d →
      Yields (do return Field.keyed key (← deeper.fullExp)) fun f =>
        ∀ n ∈ Node.ofField f, n.Shallow d := by
    intro key hkey
    refine (h.exp 0).bind fun value hvalue => .pure ?_
    exact List.forall_mem_cons.2 ⟨hkey, List.forall_mem_singleton.2 hvalue⟩
  have rest : ∀ named : Bool, Yields (if named = true then (do
      let name ← advance
      let _ ← advance
      return Field.keyed (.string name.text name.location) (← deeper.fullExp))
      else (do return Field.item (← deeper.fullExp)))
      fun f => ∀ n ∈ Node.ofField f, n.Shallow d := by
    intro named
    refine .ite (fun _ => ?_) fun _ => ?_
    · exact .skip fun name => .skip fun _ => keyed _ (.leaf rfl)
    · exact (h.exp 0).bind fun value hvalue => .pure (List.forall_mem_singleton.2 hvalue)
  refine .skip fun bracket => ?_
  cases bracket with
  | some bracket =>
    exact (h.exp 0).bind fun key hkey => .skip fun _ => .skip fun _ => keyed key hkey
  | none => exact .skip fun ident => .ite (fun _ => .skip fun k => rest _) fun _ => rest false

theorem yields_table : Yields (table deeper) fun e => (Node.exp e).Shallow (d + 1) := by
  have fields : Yields (fields deeper) fun fs => ∀ f ∈ fs, ∀ n ∈ Node.ofField f, n.Shallow d := by
    refine .loop (fun fs hfs => ?_) (by simp)
    refine .skip fun t => .ite (fun _ => .pure hfs) fun _ => ?_
    refine (yields_field h).bind fun f hf => .skip fun t => ?_
    have all := List.forall_mem_append.2 ⟨hfs, List.forall_mem_singleton.2 hf⟩
    exact .ite (fun _ => .skip fun _ => .pure all) fun _ => .pure all
  refine .skip fun brace => fields.bind fun fs hfs => .skip fun close => .pure (.parent ?_)
  intro c hc
  obtain ⟨f, hf, hc⟩ := List.mem_flatMap.1 hc
  exact hfs f hf c hc

theorem yields_functionBody (start : Location) (isMethod : Bool) :
    Yields (functionBody deeper start isMethod) fun e => (Node.exp e).Shallow (d + 1) := by
  refine .skip fun paren => .skip fun params => .skip fun _ => ?_
  refine h.block.bind fun body hbody => .skip fun close => .pure (.parent ?_)
  exact List.forall_mem_singleton.2 hbody

theorem yields_arguments (before : Location) :
    Yields (arguments deeper before) fun args => ∀ e ∈ args.1, (Node.exp e).Shallow (d + 1) := by
  refine .skip fun t => ?_
  split
  · refine .skip fun paren => .skip fun empty => ?_
    have rest : ∀ args : List Exp, (∀ e ∈ args, (Node.exp e).Shallow (d + 1)) → Yields (do
        let close ← expectEnd .rightParen .leftParen paren.location
        pure (args, paren.location.cover close.location))
        fun args => ∀ e ∈ args.1, (Node.exp e).Shallow (d + 1) :=
      fun args hargs => .skip fun close => .pure hargs
    refine .ite (fun _ => rest [] (by simp)) fun _ => ?_
    exact h.expList.bind fun args hargs => rest args fun e he => (hargs e he).mono (Nat.le_succ d)
  · exact (yields_table h).bind fun t ht => .pure (List.forall_mem_singleton.2 ht)
  · exact .skip fun t => .pure (List.forall_mem_singleton.2 (.leaf rfl))
  · exact .skip fun found => .skip fun t => .skip fun _ => .pure (by simp)

theorem yields_primary : Yields (primary deeper) fun e => (Node.exp e).Shallow (d + 1) := by
  refine .skip fun t => ?_
  split
  · exact .skip fun t => .pure (.leaf rfl)
  · refine .skip fun paren => (h.exp 0).bind fun inner hinner => .skip fun close => .pure ?_
    split
    · exact .parent (List.forall_mem_singleton.2 hinner)
    · exact hinner.mono (Nat.le_succ d)
  · have bad : Yields (pure (Exp.bad t.location)) fun e => (Node.exp e).Shallow (d + 1) :=
      .pure (.leaf rfl)
    have rest : ∀ k : Kind, Yields (do
        unless k.isBlockEnd do let _ ← advance
        pure (Exp.bad t.location)) fun e => (Node.exp e).Shallow (d + 1) :=
      fun k => .ite (fun _ => bad) fun _ => .skip fun _ => bad
    exact .ite (fun _ => rest _) fun _ => .skip fun _ => rest _

theorem yields_suffix {e : Exp} (he : (Node.exp e).Shallow (d + 2)) :
    Yields (suffix deeper e) (Round.All fun e => (Node.exp e).Shallow (d + 2)) := by
  have call : ∀ (method : Option Exp) (before : Location),
      (∀ m ∈ method, (Node.exp m).Shallow (d + 1)) → Yields (do
        let args ← arguments deeper before
        pure (Round.again (Exp.call e method args.1 (e.place.cover args.2))))
        (Round.All fun e => (Node.exp e).Shallow (d + 2)) := by
    intro method before hmethod
    refine (yields_arguments h before).bind fun args hargs => .pure (.grow rfl rfl he ?_)
    refine List.forall_mem_append.2 ⟨?_, List.forall_mem_map.2 hargs⟩
    exact List.forall_mem_map.2 fun m hm => hmethod m (Option.mem_toList.1 hm)
  have index : ∀ (key : Exp) (place : Location), (Node.exp key).Shallow (d + 1) →
      (Node.exp (.index e key place)).Shallow (d + 2) := fun key place hkey =>
    .grow rfl rfl he (List.forall_mem_singleton.2 hkey)
  refine .skip fun t => ?_
  split
  · exact .skip fun _ => .skip fun name => .pure (index _ _ (.leaf rfl))
  · refine .skip fun bracket => (h.exp 0).bind fun key hkey => .skip fun close => .pure ?_
    exact index _ _ (hkey.mono (Nat.le_succ d))
  · refine .skip fun _ => .skip fun name => call _ _ fun m hm => ?_
    obtain rfl := Option.some.inj hm
    exact .leaf rfl
  · exact call none _ nofun
  · exact call none _ nofun
  · exact call none _ nofun
  · exact .pure he

theorem yields_suffixed : Yields (suffixed deeper) fun e => (Node.exp e).Shallow (d + 2) :=
  (yields_primary h).bind fun _ he =>
    .loop (fun _ he => yields_suffix h he) (he.mono (Nat.le_succ _))

theorem yields_simple : Yields (simple deeper) fun e => (Node.exp e).Shallow (d + 2) := by
  refine .skip fun t => ?_
  split
  · exact .skip fun _ => .pure (.leaf rfl)
  · exact .skip fun _ => .pure (.leaf rfl)
  · exact .skip fun _ => .pure (.leaf rfl)
  · exact .skip fun _ => .pure (.leaf rfl)
  · exact .skip fun t => yields_numeral t
  · exact .skip fun _ => .pure (.leaf rfl)
  · exact (yields_table h).imp fun e he => he.mono (Nat.le_succ _)
  · exact .skip fun _ => (yields_functionBody h _ _).imp fun e he => he.mono (Nat.le_succ _)
  · exact yields_suffixed h

theorem yields_operand : Yields (operand deeper) fun e => (Node.exp e).Shallow (d + 2) := by
  refine .skip fun t => ?_
  split
  · refine .skip fun t => (h.exp _).bind fun e he => .pure (.parent ?_)
    exact List.forall_mem_singleton.2 (he.mono (Nat.le_succ d))
  · exact yields_simple h

theorem yields_subexpression (limit : Nat) :
    Yields (subexpression deeper limit) fun e => (Node.exp e).Shallow (d + 2) := by
  refine (yields_operand h).bind fun e he => .loop (fun lhs hlhs => .skip fun t => ?_) he
  split
  · refine .ite (fun _ => .pure hlhs) fun _ => .skip fun _ => ?_
    refine (h.exp _).bind fun rhs hrhs => .pure (.grow rfl rfl hlhs ?_)
    exact List.forall_mem_singleton.2 (hrhs.mono (Nat.le_succ d))
  · exact .pure hlhs

end Expression

/-! ## Statements -/

section Statement

variable {deeper : Nested} (h : deeper.Shallow d)

theorem yields_functionTarget (first : Ident) :
    Yields (functionTarget first) fun target => (Node.exp target.1).Shallow (d + 1) := by
  refine .loop (fun target htarget => .skip fun t => ?_) (.leaf rfl)
  refine .ite (fun _ => .skip fun _ => .skip fun name => .pure ?_) fun _ => .pure htarget
  have field : (Node.exp (.index target.1 (nameKey name)
      (target.1.place.cover name.location))).Shallow (d + 1) :=
    .grow rfl rfl htarget (List.forall_mem_singleton.2 (.leaf rfl))
  split
  · exact field
  · exact field

include h

theorem yields_scopeStat : Yields (scopeStat deeper) fun s => (Node.stat s).Shallow (d + 3) := by
  refine .skip fun t => h.block.bind fun body hbody => .skip fun close => .pure ?_
  exact .mono (.parent (List.forall_mem_singleton.2 hbody)) (by omega)

theorem yields_whileStat : Yields (whileStat deeper) fun s => (Node.stat s).Shallow (d + 3) := by
  refine .skip fun t => (h.exp 0).bind fun condition hcondition => .skip fun _ => ?_
  refine h.block.bind fun body hbody => .skip fun close => .pure ?_
  refine .mono (.parent (d := d) ?_) (by omega)
  exact List.forall_mem_cons.2 ⟨hcondition, List.forall_mem_singleton.2 hbody⟩

theorem yields_repeatStat :
    Yields (repeatStat deeper) fun s => (Node.stat s).Shallow (d + 3) := by
  refine .skip fun t => h.block.bind fun body hbody => .skip fun _ => ?_
  refine (h.exp 0).bind fun condition hcondition => .pure ?_
  refine .mono (.parent (d := d) ?_) (by omega)
  exact List.forall_mem_cons.2 ⟨hbody, List.forall_mem_singleton.2 hcondition⟩

theorem yields_clause :
    Yields (clause deeper) fun c => ∀ n ∈ Node.ofClause c, n.Shallow d := by
  refine (h.exp 0).bind fun condition hcondition => .skip fun _ => ?_
  refine h.block.bind fun body hbody => .pure ?_
  exact List.forall_mem_cons.2 ⟨hcondition, List.forall_mem_singleton.2 hbody⟩

theorem yields_branchStat :
    Yields (branchStat deeper) fun s => (Node.stat s).Shallow (d + 3) := by
  refine .skip fun t => (yields_clause h).bind fun first hfirst => ?_
  refine (yields_further (yields_clause h) (List.forall_mem_singleton.2 hfirst)).bind
    fun clauses hclauses => .skip fun other => ?_
  have rest : ∀ otherwise : Option Block, (∀ b ∈ otherwise, (Node.block b).Shallow d) → Yields (do
      let close ← expectEnd .kwEnd .kwIf t.location
      pure (Stat.branch clauses otherwise (t.location.cover close.location)))
      fun s => (Node.stat s).Shallow (d + 3) := by
    intro otherwise hotherwise
    refine .skip fun close => .pure (.mono (.parent (d := d) ?_) (by omega))
    refine List.forall_mem_append.2 ⟨fun n hn => ?_, List.forall_mem_map.2 fun b hb => ?_⟩
    · obtain ⟨c, hc, hn⟩ := List.mem_flatMap.1 hn
      exact hclauses c hc n hn
    · exact hotherwise b (Option.mem_toList.1 hb)
  refine .ite (fun _ => ?_) fun _ => rest none nofun
  exact h.block.map_some.bind rest

theorem yields_numericForStat (opener : Location) (var : Ident) :
    Yields (numericForStat deeper opener var) fun s => (Node.stat s).Shallow (d + 3) := by
  refine (h.exp 0).bind fun start hstart => .skip fun _ => ?_
  refine (h.exp 0).bind fun limit hlimit => .skip fun more => ?_
  have rest : ∀ step : Option Exp, (∀ e ∈ step, (Node.exp e).Shallow d) → Yields (do
      let _ ← expect .kwDo
      let body ← deeper.block
      let close ← expectEnd .kwEnd .kwFor opener
      pure (Stat.numericFor var start limit step body (opener.cover close.location)))
      fun s => (Node.stat s).Shallow (d + 3) := by
    intro step hstep
    refine .skip fun _ => h.block.bind fun body hbody => .skip fun close => .pure ?_
    refine .mono (.parent (d := d) ?_) (by omega)
    refine List.forall_mem_cons.2 ⟨hstart, List.forall_mem_cons.2 ⟨hlimit, ?_⟩⟩
    refine List.forall_mem_append.2 ⟨List.forall_mem_map.2 fun e he => ?_, ?_⟩
    · exact hstep e (Option.mem_toList.1 he)
    · exact List.forall_mem_singleton.2 hbody
  refine .ite (fun _ => ?_) fun _ => rest none nofun
  exact (h.exp 0).map_some.bind rest

theorem yields_genericForStat (opener : Location) (first : Ident) :
    Yields (genericForStat deeper opener first) fun s => (Node.stat s).Shallow (d + 3) := by
  refine .skip fun names => .skip fun _ => h.expList.bind fun exps hexps => .skip fun _ => ?_
  refine h.block.bind fun body hbody => .skip fun close => .pure ?_
  refine .mono (.parent (d := d) ?_) (by omega)
  exact List.forall_mem_append.2 ⟨List.forall_mem_map.2 hexps, List.forall_mem_singleton.2 hbody⟩

theorem yields_forStat : Yields (forStat deeper) fun s => (Node.stat s).Shallow (d + 3) := by
  refine .skip fun t => .skip fun first => .skip fun numeric => .ite (fun _ => ?_) fun _ => ?_
  · exact yields_numericForStat h _ _
  · exact yields_genericForStat h _ _

theorem yields_functionStat :
    Yields (functionStat deeper) fun s => (Node.stat s).Shallow (d + 3) := by
  refine .skip fun t => .skip fun first => ?_
  refine (yields_functionTarget (d := d) first).bind fun target htarget => ?_
  refine (yields_functionBody h _ _).bind fun value hvalue => .pure ?_
  refine .mono (.parent (d := d + 1) ?_) (by omega)
  exact List.forall_mem_cons.2 ⟨htarget, List.forall_mem_singleton.2 hvalue⟩

theorem yields_localStat : Yields (localStat deeper) fun s => (Node.stat s).Shallow (d + 3) := by
  refine .skip fun t => .skip fun function => .ite (fun _ => ?_) fun _ => ?_
  · refine .skip fun _ => .skip fun name => ?_
    refine (yields_functionBody h _ _).bind fun value hvalue => .pure ?_
    exact .mono (.parent (List.forall_mem_singleton.2 hvalue)) (by omega)
  · refine .skip fun names => .skip fun equals => ?_
    have answer : ∀ values : List Exp, (∀ e ∈ values, (Node.exp e).Shallow d) → ∀ place,
        (Node.stat (.locals (names.map (·.1)) values place)).Shallow (d + 3) :=
      fun values hvalues place => .mono (.parent (List.forall_mem_map.2 hvalues)) (by omega)
    refine .ite (fun _ => ?_) fun _ => .pure (answer [] (by simp) _)
    exact h.expList.bind fun values hvalues => .pure (answer values hvalues _)

theorem yields_assignStat {first : Exp} (hfirst : (Node.exp first).Shallow (d + 2)) :
    Yields (assignStat deeper first) fun s => (Node.stat s).Shallow (d + 3) := by
  refine (yields_further (yields_suffixed h) (List.forall_mem_singleton.2 hfirst)).bind
    fun targets htargets => .skip fun _ => .skip fun _ => ?_
  refine h.expList.bind fun values hvalues => .pure (.parent ?_)
  refine List.forall_mem_append.2 ⟨List.forall_mem_map.2 htargets, List.forall_mem_map.2 ?_⟩
  exact fun e he => (hvalues e he).mono (Nat.le_add_right d 2)

theorem yields_expStat :
    Yields (expStat deeper) fun s? => ∀ s ∈ s?, (Node.stat s).Shallow (d + 3) := by
  refine (yields_suffixed h).bind fun first hfirst => .skip fun t => ?_
  have assign : Yields (some <$> assignStat deeper first) fun s? =>
      ∀ s ∈ s?, (Node.stat s).Shallow (d + 3) :=
    (yields_assignStat h hfirst).map_some
  refine .ite (fun _ => assign) fun _ => .ite (fun _ => .pure fun s hs => ?_) fun _ => ?_
  · obtain rfl := Option.some.inj hs
    exact .parent (List.forall_mem_singleton.2 hfirst)
  · exact .ite (fun _ => .pure nofun) fun _ => assign

theorem yields_returnStat :
    Yields (returnStat deeper) fun s => (Node.stat s).Shallow (d + 3) := by
  refine .skip fun t => .skip fun next => ?_
  have rest : ∀ values : List Exp, (∀ e ∈ values, (Node.exp e).Shallow d) → Yields (do
      let place := t.location.coverAll (values.map Exp.place)
      let close ← accept .semicolon
      pure (Stat.ret values (place.cover? (close.map (·.location)))))
      fun s => (Node.stat s).Shallow (d + 3) := by
    intro values hvalues
    refine .skip fun close => .pure ?_
    exact .mono (.parent (List.forall_mem_map.2 hvalues)) (by omega)
  exact .ite (fun _ => rest [] (by simp)) fun _ =>
    h.expList.bind fun values hvalues => rest values hvalues

theorem yields_statement :
    Yields (statement deeper) fun s? => ∀ s ∈ s?, (Node.stat s).Shallow (d + 3) := by
  have leaf : ∀ {s : Stat}, (Node.stat s).children = [] →
      ∀ t ∈ some s, (Node.stat t).Shallow (d + 3) := by
    intro s none t ht
    obtain rfl := Option.some.inj ht
    exact .leaf none
  refine .skip fun t => ?_
  split
  · exact .skip fun _ => .pure nofun
  · exact .skip fun _ => .pure nofun
  · exact .skip fun t => .pure (leaf rfl)
  · exact .map <| .skip fun _ => .skip fun _ => .skip fun _ => .pure (leaf rfl)
  · exact .map <| .skip fun _ => .skip fun _ => .pure (leaf rfl)
  · exact (yields_scopeStat h).map_some
  · exact (yields_whileStat h).map_some
  · exact (yields_repeatStat h).map_some
  · exact (yields_branchStat h).map_some
  · exact (yields_forStat h).map_some
  · exact (yields_functionStat h).map_some
  · exact (yields_localStat h).map_some
  · exact yields_expStat h

theorem yields_statements {stats : List Stat}
    (hstats : ∀ s ∈ stats, (Node.stat s).Shallow (d + 3)) :
    Yields (statements deeper stats) fun stats => ∀ s ∈ stats, (Node.stat s).Shallow (d + 3) := by
  refine .loop (fun stats hstats => .skip fun t => .skip fun before => ?_) hstats
  refine .ite (fun _ => .pure hstats) fun _ => .ite (fun _ => ?_) fun _ => ?_
  · refine (yields_returnStat h).bind fun s hs => .pure ?_
    exact List.forall_mem_append.2 ⟨hstats, List.forall_mem_singleton.2 hs⟩
  · refine (yields_statement h).bind fun s? hs? => .skip fun after => ?_
    have all := List.forall_mem_append.2 ⟨hstats, fun s hs => hs? s (Option.mem_toList.1 hs)⟩
    exact .ite (fun _ => .skip fun _ => .pure all) fun _ => .pure all

omit h in
theorem yields_finish {stats : List Stat} (hstats : ∀ s ∈ stats, (Node.stat s).Shallow d) :
    Yields (finish stats) fun b => (Node.block b).Shallow (d + 1) := by
  have answer : ∀ place, (Node.block (.mk stats place)).Shallow (d + 1) := fun place =>
    .parent (List.forall_mem_map.2 hstats)
  unfold finish
  split
  · exact .pure (answer _)
  · exact .skip fun t => .pure (answer _)

theorem yields_block : Yields (block deeper) fun b => (Node.block b).Shallow (d + 4) :=
  (yields_statements h (by simp)).bind fun _ hstats => yields_finish hstats

theorem yields_chunk : Yields (chunk deeper) fun b => (Node.block b).Shallow (d + 4) := by
  refine .skip fun _ => ?_
  refine .bind (P := fun stats => ∀ s ∈ stats, (Node.stat s).Shallow (d + 3)) ?_ fun _ hstats =>
    yields_finish hstats
  refine .loop (fun stats hstats => ?_) (by simp)
  refine (yields_statements h hstats).bind fun stats hstats => .skip fun eof => ?_
  refine .ite (fun _ => .pure hstats) fun _ => ?_
  exact .skip fun _ => .skip fun _ => .skip fun _ => .skip fun _ => .pure hstats

end Statement

/-- Each level is good for four bends: a block, a statement, and two in its expressions. -/
theorem shallow_nested (n : Nat) : (nested n).Shallow (4 * n) := by
  induction n with
  | zero => exact ⟨fun _ => .tooDeep, .tooDeep⟩
  | succ n ih =>
    exact ⟨fun limit => (yields_subexpression ih limit).imp fun e he => he.mono (by omega),
      yields_block ih⟩

end Parse

namespace Source

open Parse (maxLevels shallow_nested yields_chunk)

/-! ## Programs -/

/-- The path to a node has a bounded number of bends: of its ancestors, only those count in whose
stem it does not stand. -/
theorem bends_le_program {s : Source} {limit : Nat} {tree : Block}
    (h : (s.program limit).tree = some tree) {path : List Nat} {n : Node}
    (at? : (Node.block tree).at? path = some n) :
    (Node.block tree).bends path ≤ 5 * maxLevels := by
  obtain ⟨st, run, -⟩ := exists_parse_of_tree h
  have shallow := yields_chunk (shallow_nested maxLevels) _ _ _ run
  exact (shallow.mono (by decide)) path n at?

/-- The path to a name in an argument of a call goes over two stems, and then bends twice. -/
theorem bends_le_program_argument :
    ∃ tree n, (Source.program ⟨"", ["f(a)(-b).c(d)".toList]⟩ 0).tree = some tree ∧
      (Node.block tree).at? [0, 0, 0, 0, 1, 0] = some n ∧
      (Node.block tree).bends [0, 0, 0, 0, 1, 0] = 4 ∧
      (Node.block tree).bends [0, 0, 0, 0, 1, 0] ≤ 5 * maxLevels := by
  have parsed :
      ((Source.program ⟨"", ["f(a)(-b).c(d)".toList]⟩ 0).tree.any fun tree =>
        ((Node.block tree).at? [0, 0, 0, 0, 1, 0]).isSome &&
          (Node.block tree).bends [0, 0, 0, 0, 1, 0] == 4) := by
    decide +kernel
  obtain ⟨tree, h, found⟩ := (Option.any_eq_true _ _).1 parsed
  obtain ⟨some, four⟩ := Bool.and_eq_true_iff.1 found
  obtain ⟨n, at?⟩ := Option.isSome_iff_exists.1 some
  exact ⟨tree, n, h, at?, of_decide_eq_true four, bends_le_program h at?⟩

/-- A call of a call of a call, and so on, with an empty string each. -/
def manyCalls : Source := ⟨"", [('f' :: List.replicate 2000 '\x22')]⟩

/-- Nodes can have more ancestors than five for each level. -/
theorem not_ancestors_le_program :
    ¬ ∀ (s : Source) (limit : Nat) (tree : Block), (s.program limit).tree = some tree →
      ∀ e ∈ tree.outline.entries, e.ancestors.length ≤ 5 * maxLevels := by
  intro all
  have deep : ((manyCalls.program 30).tree.any fun tree =>
      ((Node.block tree).at? (List.replicate 1002 0)).isSome) := by
    decide +kernel
  obtain ⟨tree, h, found⟩ := (Option.any_eq_true _ _).1 deep
  obtain ⟨n, at?⟩ := Option.isSome_iff_exists.1 found
  obtain ⟨e, he, -, length⟩ := Node.exists_entry_of_at? at? [] 0
  have le := all manyCalls 30 tree h e he
  rw [length, List.length_replicate] at le
  exact absurd le (by decide)

end Source

end LuaFront
