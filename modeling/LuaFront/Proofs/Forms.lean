import LuaFront.Proofs.Holes
import LuaFront.Proofs.Loops

/-!
# Forms of nodes

Whatever a program has for errors, the nodes of its tree keep to their forms: a call that is a
statement is a call, lists that cannot be empty are not, parentheses stand around what they change
the meaning of, and a method is declared by an assignment to a named field. `Node.Formed` says so of
one node. Two more things are up to the reader of blocks and assignments: `Node.ReturnsLast` and
`Node.Targets`.

Readers gather names and nodes as they go on (`Gathered`), pay for the holes among them, and
`Gathered.node` puts the parent over all of them; nothing is asked of a parent that is plain
(`Gathered.plain`).
-/

namespace LuaFront

namespace Exp

def isString : Exp → Bool
  | string .. => true
  | _ => false

/-- Whether an expression is a function with an implicit first parameter. -/
def isMethod : Exp → Bool
  | function _ _ isMethod .. => isMethod
  | _ => false

/-- Whether an expression is a field that a word names. -/
def isNamedField : Exp → Bool
  | index _ key _ => key.isString
  | _ => false

end Exp

def Stat.isReturn : Stat → Bool
  | ret .. => true
  | _ => false

namespace Ident

/-- The name without its attribute. -/
def unmarked (n : Ident) : Ident := { n with attrib := none }

theorem unmarked_eq_self {n : Ident} (h : n.attrib = none) : n.unmarked = n := by
  cases n
  cases h
  rfl

@[simp] theorem holes_unmarked (n : Ident) : n.unmarked.holes = n.holes := rfl

end Ident

namespace Node

def isMethod : Node → Bool
  | exp e => e.isMethod
  | _ => false

/-- Whether a node declares local variables. -/
def isLocals : Node → Bool
  | stat (.locals ..) => true
  | _ => false

/-- What a node is made of, as far as its kind alone does not tell. -/
def Proper : Node → Prop
  | stat (.call call _) => call.isCall
  | stat (.branch clauses _ _) => clauses ≠ []
  | stat (.assign targets values _) => targets ≠ [] ∧ values ≠ []
  | stat (.genericFor names exps _ _) => names ≠ [] ∧ exps ≠ []
  | stat (.locals names _ _) => names ≠ []
  | exp (.parens inner _) => inner.keepsParens
  | exp (.call _ method _ _) => ∀ m ∈ method, m.isString
  | _ => True

/-- A `return` is the last statement of a block. -/
def ReturnsLast : Node → Prop
  | block b => ∀ x ∈ b.stats.dropLast, x.isReturn = false
  | _ => True

/-- Whether the kind alone tells that a node keeps to its form. -/
def isPlain : Node → Bool
  | stat (.call ..) | stat (.branch ..) | stat (.assign ..) | stat (.genericFor ..)
  | stat (.locals ..) | exp (.parens ..) | exp (.call ..) | exp (.bad _) | block _ => false
  | exp (.function _ _ isMethod ..) => !isMethod
  | _ => true

/-- The condition holds of all targets of an assignment. -/
def Targets (P : Exp → Prop) : Node → Prop
  | stat (.assign targets _ _) => ∀ e ∈ targets, P e
  | _ => True

/-- A node that keeps to its form. Only local variables have attributes, and only the declaration of
a method contains one. -/
structure Formed (n : Node) : Prop where
  proper : n.Proper
  attribs : ∀ i ∈ n.idents, i.attrib ≠ none → n.isLocals
  methods : ∀ e, exp e ∈ n.children → e.isMethod →
    ∃ target place, n = stat (.assign [target] [e] place) ∧ target.isNamedField

/-- What is known of every node below the top: `clean` tells that there are no errors. -/
structure Shaped (clean : Prop) (n : Node) : Prop where
  formed : n.Formed
  returns : n.ReturnsLast
  targets : clean → n.Targets fun e => e.isAssignable || e.isBad

theorem Shaped.weaken {c c' : Prop} {n : Node} (h : n.Shaped c) (hc : c' → c) : n.Shaped c' :=
  ⟨h.formed, h.returns, fun clean => h.targets (hc clean)⟩

/-- Where no hole is left, a target that is not bad can be assigned to. -/
theorem Targets.assignable {n : Node} (h : n.Targets fun e => e.isAssignable || e.isBad)
    (whole : ∀ c ∈ n.children, c.holes = []) : n.Targets fun e => e.isAssignable := by
  cases n with
  | stat x =>
    cases x with
    | assign targets values place =>
      intro e he
      have below : exp e ∈ (stat (.assign targets values place)).children :=
        List.mem_append_left _ (List.mem_map_of_mem he)
      have ok := h e he
      cases e with
      | bad place => exact absurd rfl (ne_bad (whole _ below) place)
      | _ => simpa [Exp.isBad] using ok
    | _ => trivial
  | _ => trivial

end Node

namespace Parse

variable {α β : Type} {r s s' s'' : State}

theorem Steps.entries_eq_nil (steps : Steps s s') (h : s'.log.entries = []) :
    s.log.entries = [] := List.prefix_nil.1 (h ▸ Steps.keeps_entries steps)

/-- The names and nodes that were read between two states. Their holes are paid for, no attribute
and no method is among them, and all nodes below keep to their forms. -/
structure Gathered (r s : State) (names : List Ident) (nodes : List Node) : Prop where
  steps : Steps r s
  ends : s.Ends
  pays : Pays r s (names.flatMap Ident.holes ++ nodes.flatMap Node.allHoles)
  attribs : ∀ i ∈ names, i.attrib = none
  methods : ∀ n ∈ nodes, n.isMethod = false
  shaped : ∀ n ∈ nodes, n.All (Node.Shaped (s.log.entries = []))

namespace Gathered

variable {is js : List Ident} {ns ms : List Node} {n : Node}

theorem start (ends : s.Ends) : Gathered s s [] [] := ⟨.refl, ends, .refl s, nofun, nofun, nofun⟩

theorem append (g : Gathered r s is ns) (g' : Gathered s s' js ms) :
    Gathered r s' (is ++ js) (ns ++ ms) where
  steps := g.steps.trans g'.steps
  ends := g'.ends
  pays := by
    refine (g.pays.trans g'.pays).of_perm (List.perm_iff_count.2 fun k => ?_)
    simp only [List.flatMap_append, List.count_append]
    omega
  attribs i hi := (List.mem_append.1 hi).elim (g.attribs i) (g'.attribs i)
  methods n hn := (List.mem_append.1 hn).elim (g.methods n) (g'.methods n)
  shaped n hn := (List.mem_append.1 hn).elim
    (fun hn => (g.shaped n hn).imp fun _ h => h.weaken (Steps.entries_eq_nil g'.steps))
    (g'.shaped n)

theorem widen (g : Gathered r s is ns) (steps : Steps s s') : Gathered r s' is ns := by
  have ends := Steps.ends steps g.ends
  have none : Gathered s s' [] [] := ⟨steps, ends, Steps.pays steps g.ends, nofun, nofun, nofun⟩
  simpa using g.append none

theorem addAll (g : Gathered r s is ns) (g' : Gathered s s' [] ms) :
    Gathered r s' is (ns ++ ms) := by
  simpa using g.append g'

theorem name {i : Ident} (g : Gathered r s is ns) (g' : Gathered s s' [i] []) :
    Gathered r s' (is ++ [i]) ns := by
  simpa using g.append g'

/-- What was gathered need not be used. -/
theorem drop (g : Gathered r s is ns) : Gathered r s [] [] :=
  ⟨g.steps, g.ends, g.pays.weaken (List.nil_sublist _), nofun, nofun, nofun⟩

/-- A node is gathered with what is below it. -/
theorem parent (g : Gathered r s is ns) (holes : n.allHoles.Perm
    (is.flatMap Ident.holes ++ ns.flatMap Node.allHoles)) (method : n.isMethod = false)
    (shaped : n.All (Node.Shaped (s.log.entries = []))) : Gathered r s [] [n] where
  steps := g.steps
  ends := g.ends
  pays := g.pays.of_perm (by simpa using holes)
  attribs := nofun
  methods := List.forall_mem_singleton.2 method
  shaped := List.forall_mem_singleton.2 shaped

theorem perm_allHoles (gap : n.gap = []) :
    n.allHoles.Perm (n.idents.flatMap Ident.holes ++ n.children.flatMap Node.allHoles) := by
  rw [n.allHoles_eq, Node.holes, gap]
  exact .refl _

/-- The nodes below a parent keep to their forms if those that were gathered do. -/
theorem all_shaped (g : Gathered r s is n.children) (proper : n.Proper)
    (attribs : ∀ i ∈ n.idents, i.attrib ≠ none → n.isLocals) (returns : n.ReturnsLast)
    (targets : s.log.entries = [] → n.Targets fun e => e.isAssignable || e.isBad) :
    n.All (Node.Shaped (s.log.entries = [])) := by
  refine Node.all_iff.2 ⟨⟨⟨proper, attribs, fun e he method => ?_⟩, returns, targets⟩, g.shaped⟩
  exact nomatch (g.methods _ he).symm.trans method

/-- A parent with all that was gathered below it. -/
theorem node (g : Gathered r s n.idents n.children) (gap : n.gap = [])
    (method : n.isMethod = false) (proper : n.Proper) (returns : n.ReturnsLast)
    (targets : s.log.entries = [] → n.Targets fun e => e.isAssignable || e.isBad) :
    Gathered r s [] [n] := by
  refine g.parent (perm_allHoles gap) method (g.all_shaped proper (fun i hi marked => ?_) returns
    targets)
  exact absurd (g.attribs i hi) marked

/-- A parent that is plain. -/
theorem plain (g : Gathered r s n.idents n.children) (h : n.isPlain) : Gathered r s [] [n] := by
  cases n with
  | stat x =>
    cases x with
    | call | branch | assign | genericFor | locals => exact absurd h Bool.false_ne_true
    | _ => exact g.node rfl rfl trivial trivial fun _ => trivial
  | exp e =>
    cases e with
    | parens | call | bad => exact absurd h Bool.false_ne_true
    | function params isVararg isMethod body place =>
      exact g.node rfl (Bool.not_eq_eq_eq_not.1 h) trivial trivial fun _ => trivial
    | _ => exact g.node rfl rfl trivial trivial fun _ => trivial
  | block b => exact absurd h Bool.false_ne_true

/-- A string can be gathered anywhere. -/
theorem addString (g : Gathered r s is ns) (text : String) (place : Location) :
    Gathered r s is (ns ++ [.exp (.string text place)]) :=
  g.addAll ((start g.ends).plain rfl)

/-- Where an expression is missing, a hole that was paid for is the only thing that is gathered. -/
theorem gap {place : Location} (ends : s.Ends) (steps : Steps s s')
    (pays : Pays s s' [.exp place]) : Gathered s s' [] [.exp (.bad place)] where
  steps := steps
  ends := Steps.ends steps ends
  pays := by
    rw [List.flatMap_singleton, Node.allHoles_eq]
    exact pays
  attribs := nofun
  methods := List.forall_mem_singleton.2 rfl
  shaped := List.forall_mem_singleton.2
    (Node.all_iff.2 ⟨⟨⟨trivial, nofun, nofun⟩, trivial, fun _ => trivial⟩, nofun⟩)

/-- Local variables with their attributes. -/
theorem locals {names : List Ident} {values : List Exp} {place : Location}
    (g : Gathered r s (names.map Ident.unmarked) (values.map .exp)) (ne : names ≠ []) :
    Gathered r s [] [.stat (.locals names values place)] := by
  have holes : (names.map Ident.unmarked).flatMap Ident.holes = names.flatMap Ident.holes := by
    simp [List.flatMap_map]
  refine g.parent ?_ rfl (g.all_shaped ne (fun _ _ _ => rfl) trivial fun _ => trivial)
  rw [holes]
  exact perm_allHoles rfl

/-- The declaration of a function, which is a method only if a word names its field. -/
theorem declaration {target : Exp} {params : List Ident} {isVararg isMethod : Bool} {body : Block}
    {inner place : Location} (g : Gathered r s [] [.exp target])
    (g' : Gathered s s' params [.block body]) (assignable : target.isAssignable)
    (named : isMethod → target.isNamedField) :
    Gathered r s' []
      [.stat (.assign [target] [.function params isVararg isMethod body inner] place)] := by
  have both := g.append g'
  have holes : (Node.exp (.function params isVararg isMethod body inner)).allHoles =
      params.flatMap Ident.holes ++ (Node.block body).allHoles := by
    rw [Node.allHoles_eq]
    exact congrArg _ (List.flatMap_singleton Node.allHoles _)
  refine both.parent ?_ rfl ?_
  · rw [Node.allHoles_eq]
    show List.Perm ([.exp target, .exp (.function params isVararg isMethod body inner)].flatMap
      Node.allHoles) _
    refine List.perm_iff_count.2 fun k => ?_
    simp only [List.flatMap_append, List.flatMap_cons, List.flatMap_nil, List.append_nil,
      List.nil_append, List.count_append, holes]
    omega
  · have function : (Node.exp (.function params isVararg isMethod body inner)).All
        (Node.Shaped (s'.log.entries = [])) :=
      g'.all_shaped trivial (fun i hi marked => absurd (g'.attribs i hi) marked) trivial
        fun _ => trivial
    refine Node.all_iff.2 ⟨⟨⟨⟨nofun, nofun⟩, nofun, fun e he method => ?_⟩, trivial, ?_⟩, ?_⟩
    · rcases List.mem_cons.1 he with he | he
      · obtain rfl := Node.exp.inj he
        exact nomatch (g.methods _ List.mem_cons_self).symm.trans method
      · obtain rfl := Node.exp.inj (List.mem_singleton.1 he)
        exact ⟨target, place, rfl, named method⟩
    · intro _ e he
      obtain rfl := List.mem_singleton.1 he
      simp [assignable]
    · intro c hc
      rcases List.mem_cons.1 hc with rfl | hc
      · exact both.shaped _ List.mem_cons_self
      · obtain rfl := List.mem_singleton.1 hc
        exact function

/-! ## Readers -/

variable {p : Parse β} {f : β → Parse α} {Q : α → State → Prop}

/-- A reader whose answer is not needed. -/
theorem skip (g : Gathered r s is ns) (hp : Composed p)
    (next : ∀ b s', Gathered r s' is ns → Ensures (f b) s' Q fun _ => True) :
    Ensures (p >>= f) s Q fun _ => True :=
  (hp.ensures s).bind fun b s' steps _ => next b s' (g.widen steps)

/-- A reader that answers nodes. -/
theorem take (g : Gathered r s is ns) {ms : β → List Node}
    (hp : Ensures p s (fun b s' => Gathered s s' [] (ms b)) fun _ => True)
    (next : ∀ b s', Gathered r s' is (ns ++ ms b) → Ensures (f b) s' Q fun _ => True) :
    Ensures (p >>= f) s Q fun _ => True :=
  hp.bind fun b s' _ g' => next b s' (g.addAll g')

end Gathered

/-- A name is gathered, and a missing name is paid for. -/
theorem gathers_expectName {k : Kind} (ends : s.Ends) :
    Ensures (expectName k) s (fun i s' => Gathered s s' [i] []) fun _ => True := by
  have one : ∀ {i : Ident} {s'}, Steps s s' → Pays s s' i.holes → i.attrib = none →
      Gathered s s' [i] [] := by
    intro i s' steps pays unmarked
    refine ⟨steps, Steps.ends steps ends, by simpa using pays, fun j hj => ?_, nofun, nofun⟩
    obtain rfl := List.mem_singleton.1 hj
    exact unmarked
  unfold expectName
  rw [ensures_at?]
  by_cases h : s.current.kind = .ident
  · rw [decide_eq_true h]
    refine .advance_alive fun more => .pure (one (.single (.advance s more)) ?_ rfl)
    have pays := Pays.advanced ends more
    rw [Token.holes, h] at pays
    exact pays
  · rw [decide_eq_false h]
    simp only [Bool.false_eq_true, if_false, ensures_found, ensures_current]
    refine .report_alive rfl fun more => .pure (one (.single (.report s _ rfl more)) ?_ rfl)
    exact Pays.noting more

/-- A name that is gathered. -/
theorem Gathered.takeName {is : List Ident} {ns : List Node} {k : Kind} {f : Ident → Parse α}
    {Q : α → State → Prop} (g : Gathered r s is ns)
    (next : ∀ i s', Gathered r s' (is ++ [i]) ns → Ensures (f i) s' Q fun _ => True) :
    Ensures (expectName k >>= f) s Q fun _ => True :=
  (gathers_expectName g.ends).bind fun i s' _ g' => next i s' (g.name g')

/-- The error that reports a missing expression pays for it. -/
theorem gathers_report {cause : Cause} {place : Location} (ends : s.Ends)
    (ordinary : cause.isMarker = false)
    (hole : SyntaxError.hole? ⟨cause, place⟩ = some (.exp place)) :
    Ensures (report cause place) s (fun _ s' => Gathered s s' [] [.exp (.bad place)])
      fun _ => True := by
  refine .of_bind_pure (.report_alive ordinary fun more => .pure ?_)
  have pays := Pays.noting more
  rw [hole] at pays
  exact .gap ends (.single (.report s place ordinary more)) pays

/-- An illegal token pays for the expression that is missing in its place. -/
theorem gathers_illegal (ends : s.Ends) (h : s.current.kind = .illegal) :
    Ensures advance s (fun _ s' => Gathered s s' [] [.exp (.bad s.current.location)])
      fun _ => True := by
  refine .of_bind_pure (.advance_alive fun more => .pure ?_)
  have pays := Pays.advanced ends more
  rw [Token.holes, h] at pays
  exact .gap ends (.single (.advance s more)) pays

/-! ## Lists -/

section Lists

@[simp] theorem flatMap_no_items {γ : Type} (xs : List α) :
    xs.flatMap (fun _ => ([] : List γ)) = [] := List.flatMap_eq_nil_iff.2 fun _ _ => rfl

variable {item : Parse α} {is : α → List Ident} {ns : α → List Node}

theorem gathers_further {separator : Kind} (hk : separator ≠ .eof) (composed : Composed item)
    (h : ∀ {s}, s.Ends → Ensures item s (fun x s' => Gathered s s' (is x) (ns x)) fun _ => True)
    {xs : List α} (g : Gathered r s (xs.flatMap is) (xs.flatMap ns)) :
    Ensures (further separator item xs) s
      (fun ys s' => Gathered r s' (ys.flatMap is) (ys.flatMap ns) ∧ xs <+: ys) fun _ => True := by
  refine .loop_inv
    (I := fun ys s' => Gathered r s' (ys.flatMap is) (ys.flatMap ns) ∧ xs <+: ys)
    (advances_furtherRound hk composed) g.ends ⟨g, List.prefix_rfl⟩ fun ys s₁ _ ⟨g, more⟩ => ?_
  refine g.skip (composed_accept _) fun _ s₂ g => .ite (fun _ => ?_) fun _ => .pure ⟨g, more⟩
  refine (h g.ends).bind fun x s₃ _ g' => .pure ⟨?_, more.trans (List.prefix_append _ _)⟩
  simpa using g.append g'

theorem gathers_commaList (composed : Composed item)
    (h : ∀ {s}, s.Ends → Ensures item s (fun x s' => Gathered s s' (is x) (ns x)) fun _ => True)
    (ends : s.Ends) :
    Ensures (commaList item) s
      (fun ys s' => Gathered s s' (ys.flatMap is) (ys.flatMap ns) ∧ ys ≠ []) fun _ => True := by
  refine (h ends).bind fun x s₁ _ g => ?_
  have one : Gathered s s₁ ([x].flatMap is) ([x].flatMap ns) := by simpa using g
  refine (gathers_further (by decide) composed h one).imp fun ys s₂ _ ⟨g, more⟩ => ⟨g, ?_⟩
  exact List.ne_nil_of_mem (more.subset List.mem_cons_self)

end Lists

end Parse

end LuaFront
