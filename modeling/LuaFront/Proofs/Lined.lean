import LuaFront.Proofs.Frames
import LuaFront.Proofs.Nodes

/-!
# Nodes in the order of the text

When a source is read without errors, every node goes over tokens that were taken between two
states, and no token is taken twice. So nodes that are read one after the other stand in the order
of the text, and apart. `Lined` says so of the nodes that a reader has gathered; the places of
tokens that a location still has to go over are gathered with them.

The one node whose children overlap is the assignment that a function declaration stands for
(`Node.Declares`): the function starts with the word that the declaration starts with, in front of
the field that it is assigned to.

* `Lined.append`: what is read behind other nodes is lined up behind them.
* `Lined.parent`: a node with all that was gathered below it.
* `Lined.declaration`: a function declaration with its field and its function.
-/

namespace LuaFront

namespace Node

variable {ts : List Token}

/-- One node ends before another one starts. -/
def Apart (c d : Node) : Prop := c.place.stop ≤ d.place.start

/-- The assignment that a function declaration stands for. The function starts with the word
`function`, with which the declaration starts, and goes over the field that it is assigned to. -/
def Declares (ts : List Token) (n : Node) : Prop :=
  ∃ target params isVararg isMethod body inner place t,
    n = stat (.assign [target] [.function params isVararg isMethod body inner] place) ∧
    t ∈ ts ∧ t.kind = .kwFunction ∧ place.start = t.location.start ∧
    inner.start = t.location.start ∧ inner.contains target.place

/-- The children of a node stand in the order of the text, and apart, unless it declares a
function. -/
def InOrder (ts : List Token) (n : Node) : Prop := n.children.Pairwise Apart ∨ n.Declares ts

end Node

namespace Parse

variable {α β : Type} {r s s' t : State} {l m : Location} {ts : List Token}

/-! ## Locations between two states -/

/-- A location between the current tokens of two states. -/
structure Between (s s' : State) (l : Location) : Prop where
  start : s.current.location.start ≤ l.start
  proper : l.start ≤ l.stop
  stop : l.stop ≤ s'.current.location.start

namespace Between

/-- A token that is taken. -/
theorem token (hs : s.Ordered) : Between s s.advanced s.current.location :=
  ⟨le_refl _, hs.start_le_stop, hs.current_precedes.2⟩

theorem point (h : s.current.location.start ≤ s'.current.location.start) :
    Between s s' (.point s'.current.location.start) := ⟨h, le_refl _, le_refl _⟩

theorem cover (h : Between s s' l) (k : Between s s' m) : Between s s' (l.cover m) where
  start := le_min h.start k.start
  proper := le_trans (min_le_left _ _) (le_trans h.proper (le_max_left _ _))
  stop := max_le h.stop k.stop

theorem coverAll (h : Between s s' l) {ms : List Location} (hms : ∀ m ∈ ms, Between s s' m) :
    Between s s' (l.coverAll ms) := by
  induction ms generalizing l with
  | nil => exact h
  | cons m ms ih =>
    exact ih (h.cover (hms m List.mem_cons_self)) fun k hk => hms k (List.mem_cons_of_mem m hk)

end Between

/-! ## States in front of tokens of a source -/

/-- A state from which reading goes on without errors, in front of the last of the tokens `ts`. -/
structure State.Along (ts : List Token) (s : State) : Prop extends s.Smooth where
  pending : s.pending <:+ ts

namespace State.Along

theorem next (hs : s.Along ts) (steps : Steps s s') : s'.Along ts :=
  ⟨hs.toSmooth.next steps, steps.pending_suffix.trans hs.pending⟩

theorem current_mem (hs : s.Along ts) (hk : s.current.kind ≠ .eof) : s.current ∈ ts := by
  refine hs.pending.subset ?_
  rw [hs.ends.pending_eq hk]
  exact List.mem_cons_self

end State.Along

/-! ## What was gathered -/

/-- The places of tokens and the nodes that were read between two states. The nodes stand in the
order of the text, and apart, and so do the children of all nodes below. -/
structure Lined (ts : List Token) (r s : State) (places : List Location) (nodes : List Node) :
    Prop where
  front : r.Along ts
  steps : Steps r s
  tokens : ∀ l ∈ places, Between r s l
  within : ∀ n ∈ nodes, Between r s n.place
  apart : nodes.Pairwise Node.Apart
  below : ∀ n ∈ nodes, n.All (Node.InOrder ts)

namespace Lined

variable {ls ks : List Location} {ns ms : List Node} {n : Node}

theorem start (hs : s.Along ts) : Lined ts s s [] [] := ⟨hs, .refl, nofun, nofun, .nil, nofun⟩

theorem along (g : Lined ts r s ls ns) : s.Along ts := g.front.next g.steps

/-- What lies between two states lies between two that are further apart. -/
theorem widen_between (g : Lined ts r s ls ns) (steps : Steps s s') :
    (∀ {l}, Between r s l → Between r s' l) ∧ ∀ {l}, Between s s' l → Between r s' l := by
  have front := g.steps.start_le g.front.ordered
  have back := steps.start_le g.along.ordered
  exact ⟨fun h => ⟨h.start, h.proper, le_trans h.stop back⟩,
    fun h => ⟨le_trans front h.start, h.proper, h.stop⟩⟩

theorem append (g : Lined ts r s ls ns) (g' : Lined ts s s' ks ms) :
    Lined ts r s' (ls ++ ks) (ns ++ ms) where
  front := g.front
  steps := g.steps.trans g'.steps
  tokens l hl := (List.mem_append.1 hl).elim
    (fun hl => (g.widen_between g'.steps).1 (g.tokens l hl))
    fun hl => (g.widen_between g'.steps).2 (g'.tokens l hl)
  within n hn := (List.mem_append.1 hn).elim
    (fun hn => (g.widen_between g'.steps).1 (g.within n hn))
    fun hn => (g.widen_between g'.steps).2 (g'.within n hn)
  -- The state in between stands behind the nodes in front and in front of those behind.
  apart := List.pairwise_append.2 ⟨g.apart, g'.apart, fun c hc d hd =>
    le_trans (g.within c hc).stop (g'.within d hd).start⟩
  below n hn := (List.mem_append.1 hn).elim (g.below n) (g'.below n)

theorem widen (g : Lined ts r s ls ns) (steps : Steps s s') : Lined ts r s' ls ns := by
  have none : Lined ts s s' [] [] := ⟨g.along, steps, nofun, nofun, .nil, nofun⟩
  simpa using g.append none

theorem addAll (g : Lined ts r s ls ns) (g' : Lined ts s s' [] ms) :
    Lined ts r s' ls (ns ++ ms) := by
  simpa using g.append g'

theorem addPlaces (g : Lined ts r s ls ns) (g' : Lined ts s s' ks []) :
    Lined ts r s' (ls ++ ks) ns := by
  simpa using g.append g'

/-- Other places that lie between the two states. -/
theorem moveTokens (g : Lined ts r s ls ns) (h : ∀ l ∈ ks, Between r s l) : Lined ts r s ks ns :=
  { g with tokens := h }

/-- The nodes that were gathered need not be used. -/
theorem drop (g : Lined ts r s ls ns) : Lined ts r s ls [] :=
  { g with within := nofun, apart := .nil, below := nofun }

/-- The nodes below a parent are those that were gathered. -/
theorem all_inOrder (g : Lined ts r s ls n.children) : n.All (Node.InOrder ts) :=
  Node.all_iff.2 ⟨.inl g.apart, g.below⟩

/-- A parent with all that was gathered below it. -/
theorem parent (g : Lined ts r s ls n.children) (place : Between r s n.place) :
    Lined ts r s [] [n] where
  front := g.front
  steps := g.steps
  tokens := nofun
  within := List.forall_mem_singleton.2 place
  apart := List.pairwise_singleton _ _
  below := List.forall_mem_singleton.2 g.all_inOrder

/-- An expression that is a token. -/
theorem leaf {e : Exp} (g : Lined ts r s [e.place] []) (none : (Node.exp e).children = []) :
    Lined ts r s [] [.exp e] :=
  parent (by rw [none]; exact g) (g.tokens _ List.mem_cons_self)

/-- A function declaration: first its field was read, and then the rest of its function. -/
theorem declaration {target : Exp} {params : List Ident} {isVararg isMethod : Bool} {body : Block}
    {close : Location} (hk : r.current.kind = .kwFunction)
    (g : Lined ts r s [r.current.location] [.exp target])
    (g' : Lined ts s s' [close] [.block body]) :
    let inner := r.current.location.cover close
    Lined ts r s' [] [.stat (.assign [target] [.function params isVararg isMethod body inner]
      (r.current.location.cover inner))] := by
  intro inner
  have all := g.append g'
  have word : Between r s' r.current.location := all.tokens _ (by simp)
  have behind : Between r s' close := all.tokens _ (by simp)
  have start : inner.start = r.current.location.start := min_eq_left behind.start
  have declares : (Node.stat (.assign [target] [.function params isVararg isMethod body inner]
      (r.current.location.cover inner))).Declares ts := by
    refine ⟨_, _, _, _, _, _, _, _, rfl, g.front.current_mem (by simp [hk]), hk, ?_, start, ?_⟩
    · exact min_eq_left (start ▸ le_refl _)
    · have field := g.within _ List.mem_cons_self
      have last := g'.tokens _ List.mem_cons_self
      refine (Location.contains_iff _ _).2 ⟨start ▸ field.start, ?_⟩
      exact le_trans field.stop (le_trans last.start (le_trans last.proper (le_max_right _ _)))
  have function : (Node.exp (.function params isVararg isMethod body inner)).All
      (Node.InOrder ts) := g'.all_inOrder (n := .exp _)
  refine ⟨g.front, all.steps, nofun, List.forall_mem_singleton.2 (word.cover (word.cover behind)),
    List.pairwise_singleton _ _, List.forall_mem_singleton.2 ?_⟩
  refine Node.all_iff.2 ⟨.inr declares, fun c hc => ?_⟩
  rcases List.mem_cons.1 hc with rfl | hc
  · exact g.below _ List.mem_cons_self
  · obtain rfl := List.mem_singleton.1 hc
    exact function

/-! ## Readers -/

variable {p : Parse β} {f : β → Parse α} {Q : α → State → Prop}

/-- A reader whose answer is not needed. -/
theorem skip (g : Lined ts r s ls ns) (hp : Composed p)
    (next : ∀ b s', Lined ts r s' ls ns → Ensures (f b) s' Q fun _ => True) :
    Ensures (p >>= f) s Q fun _ => True :=
  (hp.ensures s).bind fun b s' steps _ => next b s' (g.widen steps)

/-- A reader that answers nodes. -/
theorem take (g : Lined ts r s ls ns) {ms : β → List Node}
    (hp : Ensures p s (fun b s' => Lined ts s s' [] (ms b)) fun _ => True)
    (next : ∀ b s', Lined ts r s' ls (ns ++ ms b) → Ensures (f b) s' Q fun _ => True) :
    Ensures (p >>= f) s Q fun _ => True :=
  hp.bind fun b s' _ g' => next b s' (g.addAll g')

theorem token (hs : s.Along ts) : Lined ts s s.advanced [s.current.location] [] :=
  ⟨hs, hs.step, List.forall_mem_singleton.2 (.token hs.ordered), nofun, .nil, nofun⟩

/-- A token that is taken, and may be gone over. -/
theorem advance {f : Token → Parse α} (g : Lined ts r s ls ns)
    (next : Lined ts r s.advanced (ls ++ [s.current.location]) ns →
      Ensures (f s.current) s.advanced Q fun _ => True) :
    Ensures (Parse.advance >>= f) s Q fun _ => True :=
  g.along.advance (next (g.addPlaces (token g.along)))

theorem expect {f : Token → Parse α} {k : Kind} (g : Lined ts r s ls ns)
    (next : Lined ts r s.advanced (ls ++ [s.current.location]) ns →
      Ensures (f s.current) s.advanced Q fun _ => True) :
    Ensures (Parse.expect k >>= f) s Q fun _ => True :=
  g.along.expect fun _ => next (g.addPlaces (token g.along))

theorem expectEnd {f : Token → Parse α} {k opener : Kind} {place : Location}
    (g : Lined ts r s ls ns)
    (next : Lined ts r s.advanced (ls ++ [s.current.location]) ns →
      Ensures (f s.current) s.advanced Q fun _ => True) :
    Ensures (Parse.expectEnd k opener place >>= f) s Q fun _ => True :=
  g.along.expectEnd fun _ => next (g.addPlaces (token g.along))

/-- A name, with its place. -/
theorem expectName {f : Ident → Parse α} {k : Kind} (g : Lined ts r s ls ns)
    (next : ∀ name s', Lined ts s s' [name.location] [] → Ensures (f name) s' Q fun _ => True) :
    Ensures (Parse.expectName k >>= f) s Q fun _ => True :=
  g.along.expectName fun _ => next _ _ (token g.along)

/-- A name as the key of a field. -/
theorem key {name : Ident} (g : Lined ts r s [name.location] []) :
    Lined ts r s [] [.exp (nameKey name)] := leaf g rfl

end Lined

/-! ## Lists -/

section Lists

variable {item : Parse α} {ls : α → List Location} {ns : α → List Node}

theorem lined_further {separator : Kind} (hk : separator ≠ .eof) (composed : Composed item)
    (h : ∀ {s}, s.Along ts → Ensures item s (fun x s' => Lined ts s s' (ls x) (ns x)) fun _ => True)
    {xs : List α} (g : Lined ts r s (xs.flatMap ls) (xs.flatMap ns)) :
    Ensures (further separator item xs) s
      (fun ys s' => Lined ts r s' (ys.flatMap ls) (ys.flatMap ns)) fun _ => True := by
  refine .loop_inv (I := fun ys s' => Lined ts r s' (ys.flatMap ls) (ys.flatMap ns))
    (advances_furtherRound hk composed) g.along.ends g fun ys s₁ _ g => ?_
  refine g.skip (composed_accept _) fun _ s₂ g => .ite (fun _ => ?_) fun _ => .pure g
  refine (h g.along).bind fun x s₃ _ g' => .pure ?_
  show Lined ts r s₃ ((ys ++ [x]).flatMap ls) ((ys ++ [x]).flatMap ns)
  simpa using g.append g'

theorem lined_commaList (composed : Composed item)
    (h : ∀ {s}, s.Along ts → Ensures item s (fun x s' => Lined ts s s' (ls x) (ns x)) fun _ => True)
    (hs : s.Along ts) :
    Ensures (commaList item) s
      (fun ys s' => Lined ts s s' (ys.flatMap ls) (ys.flatMap ns)) fun _ => True := by
  refine (h hs).bind fun x s₁ _ g => ?_
  have one : Lined ts s s₁ ([x].flatMap ls) ([x].flatMap ns) := by simpa using g
  exact lined_further (by decide) composed h one

end Lists

end Parse

end LuaFront
