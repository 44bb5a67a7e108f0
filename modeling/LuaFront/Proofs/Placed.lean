import LuaFront.Proofs.Loops
import LuaFront.Proofs.Nodes
import LuaFront.Proofs.Spans

/-!
# Nodes in their places

A node is `Placed` if its location is ordered and contains those of its children, and if it is a
block with statements, it goes from its first one to its last one. What a reader
answers `Fits` between the states in front of it and behind it: its location is a span, and it and
all nodes below are placed.

Readers gather nodes as they go on (`Seen`), and `Seen.fits` puts the parent over all of them.
-/

namespace LuaFront.Parse

/-- In a state between `o` and `st`, a reader of blocks answers the block `b`. -/
def BlockRead (o st : State) (b : Block) : Prop :=
  (∃ n s s', Steps o s ∧ block (nested n) s = .ok b s' ∧ Steps s' st) ∨
    rootBlock (nested maxLevels) o = .ok b st

/-- A block that was read is where its statements are, from the first to the last one. -/
structure BlockPlaced (o st : State) (b : Block) : Prop where
  read : BlockRead o st b
  filled : ∀ first ∈ b.stats.head?, ∀ last ∈ b.stats.getLast?,
    b.place = ⟨first.place.start, last.place.stop⟩

/-- A node with an ordered location around those of its children. -/
structure Placed (o st : State) (n : Node) : Prop where
  ordered : n.place.start ≤ n.place.stop
  contains : ∀ c ∈ n.children, n.place.contains c.place
  block : ∀ b, n = .block b → BlockPlaced o st b

/-- A state in the run from `o`. -/
structure Reached (o s : State) : Prop where
  steps : Steps o s
  ordered : s.Ordered
  ends : s.Ends

/-- A node that lies between two states. It is placed, as far as the run goes on to `st`. -/
structure Lies (o st s s' : State) (n : Node) : Prop where
  inside : Inside s s' n.place
  placed : Steps s' st → n.All (Placed o st)

/-- A node that spans what lies between two states. -/
structure Fits (o st r s s' : State) (n : Node) : Prop where
  spans : Spans r s s' n.place
  placed : Steps s' st → n.All (Placed o st)

/-- A node below one with the location `p` that is complete in the state `s`. -/
structure Part (o st s : State) (p : Location) (n : Node) : Prop where
  contains : p.contains n.place
  placed : Steps s st → n.All (Placed o st)

/-- The nodes that were read between two states. -/
structure Seen (o st r s : State) (ns : List Node) : Prop where
  reached : Reached o s
  later : Later r s
  lies : ∀ n ∈ ns, Lies o st r s n

variable {o st q r s s' s₁ s₂ s₃ : State} {n c : Node} {ns ms : List Node} {l m p : Location}

namespace Reached

theorem next (h : Reached o s) (steps : Steps s s') : Reached o s' :=
  ⟨h.steps.trans steps, steps.ordered h.ordered, steps.ends h.ends⟩

theorem later (h : Reached o s) (steps : Steps s s') : Later s s' := steps.later h.ordered

end Reached

theorem Lies.widen (h : Lies o st s s' n) (a : Later r s) (hs : Reached o s')
    (steps : Steps s' s₁) : Lies o st r s₁ n :=
  ⟨h.inside.widen a (hs.later steps), fun k => h.placed (steps.trans k)⟩

theorem Part.widen (h : Part o st s p n) (hp : l.contains p) (steps : Steps s s') :
    Part o st s' l n := ⟨Location.contains_trans hp h.contains, fun k => h.placed (steps.trans k)⟩

theorem Lies.part (h : Lies o st s s' n) (contains : p.contains n.place) (steps : Steps s' s₁) :
    Part o st s₁ p n := ⟨contains, fun k => h.placed (steps.trans k)⟩

namespace Fits

theorem lies (h : Fits o st r s s' n) : Lies o st r s' n := ⟨h.spans.toInside, h.placed⟩

theorem widen (h : Fits o st r s s' n) (a : Later q r) (hs : Reached o s') (steps : Steps s' s₁) :
    Fits o st q s s₁ n :=
  ⟨h.spans.widen a (hs.later steps), fun k => h.placed (steps.trans k)⟩

theorem weaken (h : Fits o st r s s' n) (a : Later s₁ s) : Fits o st r s₁ s' n :=
  ⟨h.spans.weaken a, h.placed⟩

theorem part (h : Fits o st r s s' n) : Part o st s' n.place n :=
  ⟨Location.contains_refl _, h.placed⟩

/-- A statement or an expression fits if its span contains placed children. -/
theorem node (hn : ∀ b, n ≠ .block b) (spans : Spans r s s' n.place)
    (below : ∀ c ∈ n.children, Part o st s' n.place c) : Fits o st r s s' n where
  spans := spans
  placed k := by
    refine Node.all_iff.2 ⟨⟨spans.ordered, fun c hc => (below c hc).contains, ?_⟩, ?_⟩
    · exact fun b eq => absurd eq (hn b)
    · exact fun c hc => (below c hc).placed k

/-- A node without children fits where its location does. -/
theorem leaf (hn : ∀ b, n ≠ .block b) (spans : Spans r s s' n.place) (none : n.children = []) :
    Fits o st r s s' n := node hn spans fun c hc => by simp [none] at hc

/-- A node that takes in what is hung onto an expression behind it. -/
theorem grow {e : Exp} (he : Fits o st r r s (.exp e)) (hs : Reached o s) (steps : Steps s s')
    (hm : Inside r s' m) (hn : ∀ b, n ≠ .block b) (place : n.place = e.place.cover m)
    (below : ∀ c ∈ n.children, c = .exp e ∨ Part o st s' n.place c) : Fits o st r r s' n := by
  refine .node hn ?_ fun c hc => ?_
  · rw [place]
    exact (he.spans.widen (.refl r) (hs.later steps)).cover hm
  · rcases below c hc with rfl | part
    · rw [place]
      exact he.part.widen (Location.contains_cover_left _ m) steps
    · exact part

end Fits

namespace Seen

theorem start (st : State) (h : Reached o s) : Seen o st s s [] := ⟨h, .refl s, nofun⟩

theorem skip (seen : Seen o st r s ns) (steps : Steps s s') : Seen o st r s' ns where
  reached := seen.reached.next steps
  later := seen.later.trans (seen.reached.later steps)
  lies n hn := (seen.lies n hn).widen (.refl r) seen.reached steps

theorem addAll (seen : Seen o st r s ns) (steps : Steps s s')
    (h : ∀ n ∈ ms, Lies o st s s' n) : Seen o st r s' (ns ++ ms) where
  reached := seen.reached.next steps
  later := seen.later.trans (seen.reached.later steps)
  lies n hn := by
    rcases List.mem_append.1 hn with hn | hn
    · exact (seen.lies n hn).widen (.refl r) seen.reached steps
    · exact (h n hn).widen seen.later (seen.reached.next steps) .refl

theorem add (seen : Seen o st r s ns) (steps : Steps s s') (h : Lies o st s s' n) :
    Seen o st r s' (ns ++ [n]) := seen.addAll steps fun c hc => by
  obtain rfl := List.mem_singleton.1 hc
  exact h

/-- What was read between two parts is part of their cover. -/
theorem part (seen : Seen o st s₁ s₂ ns) (left : Spans r s s₁ l) (right : Spans q s₂ s₃ m)
    (steps : Steps s₂ s₃) (hc : c ∈ ns) : Part o st s₃ (l.cover m) c :=
  (seen.lies c hc).part (left.contains_between (seen.lies c hc).inside right) steps

/-- A parent around all that was read between an opening and a closing part takes in the token
behind the opening one. -/
theorem fits_behind (seen : Seen o st s₁ s₂ ns) (left : Spans r s s₁ l) (right : Spans q s₂ s₃ m)
    (hq : Later r q) (steps : Steps s₂ s₃) (hn : ∀ b, n ≠ .block b) (place : n.place = l.cover m)
    (below : ∀ c ∈ n.children, c ∈ ns ∨ Part o st s₃ m c) : Fits o st r s₁ s₃ n := by
  have later : Later s₁ s₃ := seen.later.trans (seen.reached.later steps)
  refine .node hn ?_ fun c hc => ?_
  · rw [place]
    exact (left.widen (.refl r) later).cover_right (right.weaken seen.later) hq
  · rw [place]
    rcases below c hc with hc | part
    · exact seen.part left right steps hc
    · exact ⟨Location.contains_cover_of_right part.contains, part.placed⟩

/-- A parent around all that was read between an opening and a closing part. -/
theorem fits (seen : Seen o st s₁ s₂ ns) (left : Spans s s s₁ l) (right : Spans q s₂ s₃ m)
    (hq : Later s q) (steps : Steps s₂ s₃) (hn : ∀ b, n ≠ .block b) (place : n.place = l.cover m)
    (below : ∀ c ∈ n.children, c ∈ ns ∨ Part o st s₃ m c) : Fits o st s s s₃ n :=
  (seen.fits_behind left right hq steps hn place below).weaken left.later

/-- A parent around all that was read between an opening and a closing token. -/
theorem enclosed (seen : Seen o st s₁ s₂ ns) (left : Spans s s s₁ l) (right : Spans s₂ s₂ s₃ m)
    (steps : Steps s₂ s₃) (hn : ∀ b, n ≠ .block b) (place : n.place = l.cover m)
    (sub : ∀ c ∈ n.children, c ∈ ns) : Fits o st s s s₃ n :=
  seen.fits left right (left.later.trans seen.later) steps hn place fun c hc => .inl (sub c hc)

end Seen

end LuaFront.Parse
