import LuaFront.Proofs.Tracking
import Mathlib.Data.List.Chain
import Mathlib.Logic.Relation

/-!
# The nodes of a chunk are one tree

The arena of a source is owned: the parts of a node are parts of no other node. So above a node
there is only one way up, and what stands below two parts of a node has nothing in common. Below the
root of a chunk the arena shows a tree, so no way leads from a node back to it. From this it follows
that the loops which list the nodes and go up to the root come to an end, and what they come to.

* `Arena.Lists`: a stack and what a walk lists from it, one step at a time.
* `Lists.mem_iff`, `Lists.nodup`, `Lists.ordered`: what is listed is what can be reached, once each,
  and parents in front of their children.
* `Arena.Owned.exists_climbs`: the ancestors of a node are the nodes below which it stands.
* `Source.listing_nodes`: the listing of every chunk.
-/

namespace LuaFront

namespace Arena

open Relation (ReflTransGen TransGen)

variable {a : Arena} {n m k x : NodeId} {ns cs l as : List NodeId} {t u : Node} {ts : List Node}

/-- The node `k` is a child of the node `n`. -/
def Down (a : Arena) (n k : NodeId) : Prop := k ∈ a.children n

theorem down_iff (h : a.children? n = some cs) : a.Down n k ↔ k ∈ cs := by
  simp [Down, Arena.children, h]

theorem Owned.parent?_of_down (h : a.Owned) (down : a.Down n k) :
    a.parent? k = some (some n) := by
  unfold Down Arena.children children? at down
  cases cell : a.cell? n with
  | none => simp [cell] at down
  | some x => exact h.parent n x cell k (by simpa [cell] using down)

theorem Owned.nodup_children (h : a.Owned) (n : NodeId) : (a.children n).Nodup := by
  unfold Arena.children children?
  cases cell : a.cell? n with
  | none => exact .nil
  | some x => exact h.nodup n x cell

/-- A node has one parent. -/
theorem Owned.eq_of_down (h : a.Owned) (left : a.Down n k) (right : a.Down m k) : n = m := by
  have same := (h.parent?_of_down left).symm.trans (h.parent?_of_down right)
  exact Option.some.inj (Option.some.inj same)

/-- Of two nodes above the same one, one is above the other. -/
theorem Owned.comparable (h : a.Owned) (left : ReflTransGen a.Down n x)
    (right : ReflTransGen a.Down m x) :
    ReflTransGen a.Down n m ∨ ReflTransGen a.Down m n := by
  have unique : Relator.RightUnique (Function.swap a.Down) := fun _ _ _ => h.eq_of_down
  have up := Relation.ReflTransGen.total_of_right_unique unique
    (Relation.reflTransGen_swap.2 left) (Relation.reflTransGen_swap.2 right)
  exact (up.imp Relation.reflTransGen_swap.1 Relation.reflTransGen_swap.1).symm

/-! ## Below a node with a tree -/

namespace Shows

theorem down (h : a.Shows n t) (down : a.Down n k) : ∃ u ∈ t.children, a.Shows k u :=
  exists_of_mem h.children down

/-- What can be reached from an id is shown below its tree. -/
theorem reach (h : a.Shows n t) (below : ReflTransGen a.Down n k) :
    ∃ u, ReflTransGen (fun t u => u ∈ t.children) t u ∧ a.Shows k u := by
  induction below with
  | refl => exact ⟨t, .refl, h⟩
  | tail _ down ih =>
    obtain ⟨u, above, hu⟩ := ih
    obtain ⟨v, child, hv⟩ := hu.down down
    exact ⟨v, above.tail child, hv⟩

/-- Going down from a node comes to an end. -/
theorem acc (h : a.Shows n t) : Acc (fun k n => a.Down n k) n := by
  induction h with
  | @node n x t cell _ length _ below =>
    refine ⟨n, fun k down => ?_⟩
    have children : a.children? n = some x.ids := by simp [children?, cell]
    have mem := (down_iff children).1 down
    obtain ⟨i, lt, rfl⟩ := List.mem_iff_getElem.1 mem
    have lt' : i < t.children.length := length ▸ lt
    refine below _ t.children[i] (List.mem_iff_getElem.2 ⟨i, ?_, List.getElem_zip⟩)
    rw [List.length_zip]
    exact Nat.lt_min.2 ⟨lt, lt'⟩

/-- No way leads from a node back to it. -/
theorem acyclic (h : a.Shows n t) : ¬TransGen a.Down n n := by
  have acc := h.acc
  clear h
  induction acc with
  | intro n _ ih =>
    intro cycle
    obtain ⟨c, down, back⟩ := TransGen.head'_iff.1 cycle
    exact ih c down (TransGen.tail' back down)

end Shows

/-! ## Walks -/

/-- What stands below two nodes has nothing in common. -/
def Apart (a : Arena) (n m : NodeId) : Prop :=
  ∀ x, ReflTransGen a.Down n x → ¬ReflTransGen a.Down m x

/-- The stacks of a walk below a tree: nothing stands below two of their nodes. -/
structure Stack (a : Arena) (ns : List NodeId) : Prop where
  shows : ∀ n ∈ ns, ∃ t, a.Shows n t
  apart : ns.Pairwise a.Apart

namespace Stack

theorem push (h : a.Stack (n :: ns)) (owned : a.Owned) (children : a.children? n = some cs) :
    a.Stack (cs ++ ns) := by
  obtain ⟨t, ht⟩ := h.shows n List.mem_cons_self
  obtain ⟨apart, rest⟩ := List.pairwise_cons.1 h.apart
  constructor
  case shows =>
    intro m hm
    rcases List.mem_append.1 hm with hm | hm
    · obtain ⟨u, -, hu⟩ := ht.down ((down_iff children).2 hm)
      exact ⟨u, hu⟩
    · exact h.shows m (List.mem_cons_of_mem n hm)
  case apart =>
    refine List.pairwise_append.2 ⟨?_, rest, fun c hc m hm x below => ?_⟩
    · have nodup := owned.nodup_children n
      simp only [Arena.children, children, Option.getD_some] at nodup
      refine nodup.imp_of_mem fun {c d} hc hd ne x left right => ?_
      -- Of two siblings, none is above the other.
      have siblings : ∀ {c d}, c ∈ cs → d ∈ cs → c ≠ d → ¬ReflTransGen a.Down c d := by
        intro c d hc hd ne above
        rcases ReflTransGen.cases_tail above with same | ⟨p, above, last⟩
        · exact ne same.symm
        · obtain rfl := owned.eq_of_down last ((down_iff children).2 hd)
          exact ht.acyclic (.head' ((down_iff children).2 hc) above)
      exact (owned.comparable left right).elim (siblings hc hd ne) (siblings hd hc ne.symm)
    · exact apart m hm x (.head ((down_iff children).2 hc) below)

/-- Nothing comes back to a node that has been taken from the stack. -/
theorem not_reach (h : a.Stack (n :: ns)) (children : a.children? n = some cs) (hm : m ∈ cs ++ ns) :
    ¬ReflTransGen a.Down m n := by
  obtain ⟨t, ht⟩ := h.shows n List.mem_cons_self
  intro back
  rcases List.mem_append.1 hm with hm | hm
  · exact ht.acyclic (.head' ((down_iff children).2 hm) back)
  · exact (List.pairwise_cons.1 h.apart).1 m hm n .refl back

end Stack

/-- From the stack `ns` the nodes `l` are listed. -/
inductive Lists (a : Arena) : List NodeId → List NodeId → Prop
  | nil : Lists a [] []
  | node {n : NodeId} {cs ns l : List NodeId} : a.children? n = some cs → Lists a (cs ++ ns) l →
      Lists a (n :: ns) (n :: l)

namespace Lists

/-- A walk takes one round for each node, and one more to end. -/
theorem walk_eq (h : a.Lists ns l) (rounds : Nat) (listed : Array NodeId) :
    a.walk rounds ns listed = if l.length < rounds then some (listed ++ l.toArray) else none := by
  induction h generalizing rounds listed with
  | nil => cases rounds <;> simp [walk]
  | node children _ ih =>
    cases rounds with
    | zero => rfl
    | succ rounds =>
      rw [walk, children]
      show a.walk _ _ _ = _
      simp [ih]

/-- The listing of a node is put in front of that of a stack. -/
theorem exists_cons (h : a.Shows n t) (below : a.Lists ns l) : ∃ l', a.Lists (n :: ns) l' := by
  induction h.acc generalizing t ns l with
  | intro n _ ih =>
    obtain ⟨x, cell, -, -⟩ := h.exists_cell
    have children : a.children? n = some x.ids := by simp [children?, cell]
    have all : ∀ cs : List NodeId, (∀ c ∈ cs, a.Down n c) → ∃ l', a.Lists (cs ++ ns) l' := by
      intro cs
      induction cs with
      | nil => exact fun _ => ⟨l, below⟩
      | cons c cs rest =>
        intro down
        obtain ⟨l', hl'⟩ := rest fun k hk => down k (List.mem_cons_of_mem c hk)
        obtain ⟨u, -, hu⟩ := h.down (down c List.mem_cons_self)
        exact ih c (down c List.mem_cons_self) hu hl'
    obtain ⟨l', hl'⟩ := all x.ids fun c => (down_iff children).2
    exact ⟨n :: l', .node children hl'⟩

/-- What is listed is what stands below the stack. -/
theorem mem_iff (h : a.Lists ns l) : x ∈ l ↔ ∃ n ∈ ns, ReflTransGen a.Down n x := by
  induction h with
  | nil => simp
  | @node n cs ns l children _ ih =>
    rw [List.mem_cons, ih]
    constructor
    · rintro (rfl | ⟨m, hm, below⟩)
      · exact ⟨x, List.mem_cons_self, .refl⟩
      · rcases List.mem_append.1 hm with hm | hm
        · exact ⟨n, List.mem_cons_self, .head ((down_iff children).2 hm) below⟩
        · exact ⟨m, List.mem_cons_of_mem n hm, below⟩
    · rintro ⟨m, hm, below⟩
      rcases List.mem_cons.1 hm with rfl | hm
      · rcases ReflTransGen.cases_head below with rfl | ⟨c, hc, below⟩
        · exact .inl rfl
        · exact .inr ⟨c, List.mem_append_left ns ((down_iff children).1 hc), below⟩
      · exact .inr ⟨m, List.mem_append_right cs hm, below⟩

theorem nodup (h : a.Lists ns l) (owned : a.Owned) (stack : a.Stack ns) : l.Nodup := by
  induction h with
  | nil => exact .nil
  | node children rest ih =>
    refine List.nodup_cons.2 ⟨fun mem => ?_, ih (stack.push owned children)⟩
    obtain ⟨m, hm, back⟩ := rest.mem_iff.1 mem
    exact stack.not_reach children hm back

/-- No node is listed behind one of its children. -/
theorem ordered (h : a.Lists ns l) (owned : a.Owned) (stack : a.Stack ns) :
    l.Pairwise fun k n => ¬a.Down n k := by
  induction h with
  | nil => exact .nil
  | node children rest ih =>
    refine List.pairwise_cons.2 ⟨fun x mem down => ?_, ih (stack.push owned children)⟩
    obtain ⟨m, hm, above⟩ := rest.mem_iff.1 mem
    exact stack.not_reach children hm (above.tail down)

end Lists

/-! ## Ancestors -/

/-- Going up from a node passes `as`, in one round for each of them, and one more to end. -/
def Climbs (a : Arena) (n : NodeId) (as : List NodeId) : Prop :=
  ∀ rounds, a.ancestors rounds n = if as.length < rounds then some as else none

theorem climbs_nil (top : a.parent? n = some none) : a.Climbs n [] := by
  intro rounds
  cases rounds with
  | zero => rfl
  | succ rounds => simp [ancestors, top]

theorem Climbs.cons (h : a.Climbs m as) (parent : a.parent? n = some (some m)) :
    a.Climbs n (m :: as) := by
  intro rounds
  cases rounds with
  | zero => rfl
  | succ rounds =>
    rw [ancestors, parent]
    show (do let above ← a.ancestors rounds m; pure (m :: above)) = _
    rw [h, List.length_cons]
    by_cases lt : as.length < rounds <;> simp [lt]

/-- From the root `r` down, a node knows its ancestors. -/
theorem Owned.exists_climbs (owned : a.Owned) {r : NodeId} (ht : a.Shows r t)
    (top : a.parent? r = some none) (below : ReflTransGen a.Down r k) :
    ∃ as, a.Climbs k as ∧ (k :: as).getLast? = some r ∧
      (k :: as).IsChain (fun x p => a.parent x = some p) ∧
      (∀ n, n ∈ as ↔ TransGen a.Down n k) ∧ as.Nodup := by
  induction below with
  | refl =>
    refine ⟨[], climbs_nil top, rfl, .singleton r, fun n => ⟨nofun, fun above => ?_⟩, .nil⟩
    obtain ⟨p, -, down⟩ := TransGen.tail'_iff.1 above
    exact nomatch top.symm.trans (owned.parent?_of_down down)
  | @tail p k above down ih =>
    obtain ⟨as, climbs, last, chain, mem, nodup⟩ := ih
    have parent := owned.parent?_of_down down
    refine ⟨p :: as, climbs.cons parent, ?_, ?_, fun n => ?_, ?_⟩
    · rw [List.getLast?_cons_cons, last]
    · exact .cons_cons (by rw [Arena.parent, parent]; rfl) chain
    · rw [List.mem_cons, mem]
      constructor
      · rintro (rfl | above)
        · exact .single down
        · exact above.tail down
      · intro above
        obtain ⟨q, above, last⟩ := TransGen.tail'_iff.1 above
        obtain rfl := owned.eq_of_down down last
        exact (Relation.reflTransGen_iff_eq_or_transGen.1 above).imp Eq.symm id
    · refine List.nodup_cons.2 ⟨fun cycle => ?_, nodup⟩
      obtain ⟨u, -, hu⟩ := ht.reach above
      exact hu.acyclic ((mem p).1 cycle)

end Arena

/-! ## Chunks -/

namespace Chunk

open Relation (ReflTransGen TransGen)

/-- The list has the nodes of the chunk below its root, and they are one tree. -/
structure Listing (c : Chunk) (l : List NodeId) : Prop where
  /-- All nodes are listed that can be reached from the root, and no other ones. -/
  mem_iff : ∀ n, n ∈ l ↔ ReflTransGen c.Down (.block c.root) n
  /-- They are in the arena. -/
  cell : ∀ n ∈ l, ∃ x, c.cell? n = some x
  /-- No node is listed twice. -/
  nodup : l.Nodup
  /-- Parents are listed in front of their children. -/
  ordered : ∀ (i j : Nat) n k, l[i]? = some n → l[j]? = some k → c.Down n k → i < j
  /-- Every node but the root occurs once among the children of its parent, and of no other node. -/
  owner : ∀ k ∈ l, k ≠ .block c.root → ∃ p ∈ l, c.parent k = some p ∧
    ∀ n ∈ l, (c.children n).count k = if n = p then 1 else 0
  /-- The root has no parent. -/
  top : c.parent? (.block c.root) = some none
  /-- Going up from a node ends at the root, without coming back to a node, and passes exactly the
  nodes below which it stands. -/
  chain : ∀ k ∈ l, k ≠ .block c.root → ∃ as,
    (∀ rounds, c.ancestors rounds k = if as.length < rounds then some as else none) ∧ as.Nodup ∧
    as.getLast? = some (.block c.root) ∧ (k :: as).IsChain (fun x p => c.parent x = some p) ∧
    ∀ n, n ∈ as ↔ TransGen c.Down n k

/-- Where the arena is owned and shows a tree below a root without a parent, the nodes are listed.
-/
theorem exists_listing {c : Chunk} {t : Node} (owned : c.Owned)
    (ht : c.Shows (.block c.root) t) (top : c.parent? (.block c.root) = some none) :
    ∃ l, (∀ rounds, c.nodes rounds = if l.length < rounds then some l.toArray else none) ∧
      c.Lists [.block c.root] l ∧ c.Listing l := by
  obtain ⟨l, hl⟩ := Arena.Lists.exists_cons ht .nil
  have stack : c.Stack [.block c.root] :=
    ⟨fun n hn => ⟨t, List.mem_singleton.1 hn ▸ ht⟩, List.pairwise_singleton _ _⟩
  have mem : ∀ n, n ∈ l ↔ ReflTransGen c.Down (.block c.root) n := by simp [hl.mem_iff]
  refine ⟨l, fun rounds => by simp [nodes, hl.walk_eq], hl, ?_⟩
  have shows : ∀ n ∈ l, ∃ u, c.Shows n u := fun n hn => by
    obtain ⟨u, -, hu⟩ := ht.reach ((mem n).1 hn)
    exact ⟨u, hu⟩
  constructor
  case mem_iff => exact mem
  case cell =>
    intro n hn
    obtain ⟨u, hu⟩ := shows n hn
    obtain ⟨x, cell, -⟩ := hu.exists_cell
    exact ⟨x, cell⟩
  case nodup => exact hl.nodup owned stack
  case ordered =>
    intro i j n k hn hk down
    obtain ⟨lti, rfl⟩ := List.getElem?_eq_some_iff.1 hn
    obtain ⟨ltj, rfl⟩ := List.getElem?_eq_some_iff.1 hk
    rcases Nat.lt_trichotomy i j with lt | rfl | lt
    · exact lt
    · obtain ⟨u, hu⟩ := shows _ (List.getElem_mem lti)
      exact absurd (.single down) hu.acyclic
    · exact absurd down (List.pairwise_iff_getElem.1 (hl.ordered owned stack) j i ltj lti lt)
  case owner =>
    intro k hk ne
    obtain ⟨p, above, down⟩ := (ReflTransGen.cases_tail ((mem k).1 hk)).resolve_left ne
    refine ⟨p, (mem p).2 above, ?_, fun n hn => ?_⟩
    · rw [Arena.parent, owned.parent?_of_down down]
      rfl
    · rw [(owned.nodup_children n).count]
      have iff : k ∈ c.children n ↔ n = p := by
        refine ⟨fun mem => owned.eq_of_down mem down, ?_⟩
        rintro rfl
        exact down
      simp only [iff]
  case top => exact top
  case chain =>
    intro k hk ne
    obtain ⟨as, climbs, last, chain, below, nodup⟩ := owned.exists_climbs ht top ((mem k).1 hk)
    refine ⟨as, climbs, nodup, ?_, chain, below⟩
    cases as with
    | nil => exact absurd (Option.some.inj last) ne
    | cons p as => rwa [List.getLast?_cons_cons] at last

end Chunk

/-- A block that is held is the root of a chunk whose nodes are listed. -/
theorem Built.HeldBlock.exists_listing {b₀ b : Built} {root : BlockId} {tree : Block}
    (h : Built.HeldBlock b₀ root b tree) :
    ∃ l, (∀ rounds, ({ b.arena with root := root } : Chunk).nodes rounds =
        if l.length < rounds then some l.toArray else none) ∧
      b.arena.Lists [.block root] l ∧ ({ b.arena with root := root } : Chunk).Listing l :=
  Chunk.exists_listing h.arena.owned h.shows (h.arena.free _ List.mem_cons_self)

namespace Source

/-- A chunk comes from what was built while its tree was read. -/
theorem exists_built_of_chunk {s : Source} {limit : Nat} {c : Chunk}
    (h : s.chunk limit = some c) :
    ∃ root b tree st, s.built? limit = some (root, b) ∧ s.parse limit = .ok tree st ∧
      c = { b.arena with root := root } ∧ Built.HeldBlock {} root b tree := by
  cases run : s.parse limit with
  | error e st =>
    rw [chunk, built?, build_of_stopped run] at h
    exact nomatch h
  | ok tree st =>
    obtain ⟨root, b, built, held⟩ := build_of_parse run
    have built : s.built? limit = some (root, b) := by rw [built?, built]
    rw [chunk, built] at h
    exact ⟨root, b, tree, st, built, rfl, (Option.some.inj h).symm, held⟩

/-- The nodes of every chunk are listed, in one round for each of them and one more, and they are
one tree. -/
theorem listing_nodes (s : Source) (limit : Nat) {c : Chunk} (h : s.chunk limit = some c) :
    ∃ l, (∀ rounds, c.nodes rounds = if l.length < rounds then some l.toArray else none) ∧
      c.Listing l := by
  obtain ⟨root, b, tree, st, -, -, rfl, held⟩ := exists_built_of_chunk h
  obtain ⟨l, nodes, -, listing⟩ := held.exists_listing
  exact ⟨l, nodes, listing⟩

/-- The parentheses of the first line are dropped, the second line declares a function in which a
call is a statement, and nothing can be read from the third one: its expression has no parent, and
is not listed. -/
theorem listing_nodes_unread :
    ∃ c l, (Source.mk "" ["local x = (1)".toList, "function t.f() g(x) end".toList,
        ")".toList]).chunk 1 = some c ∧
      c.expParents = #[some (.stat ⟨0⟩), some (.exp ⟨3⟩), some (.exp ⟨3⟩), some (.stat ⟨2⟩),
        some (.exp ⟨6⟩), some (.exp ⟨6⟩), some (.stat ⟨1⟩), some (.stat ⟨2⟩), none] ∧
      l = [.block ⟨1⟩, .stat ⟨0⟩, .exp ⟨0⟩, .stat ⟨2⟩, .exp ⟨3⟩, .exp ⟨1⟩, .exp ⟨2⟩, .exp ⟨7⟩,
        .block ⟨0⟩, .stat ⟨1⟩, .exp ⟨6⟩, .exp ⟨4⟩, .exp ⟨5⟩] ∧
      c.Listing l := by
  have parsed : ((Source.mk "" ["local x = (1)".toList, "function t.f() g(x) end".toList,
      ")".toList]).chunk 1).any (fun c =>
        c.expParents = #[some (.stat ⟨0⟩), some (.exp ⟨3⟩), some (.exp ⟨3⟩), some (.stat ⟨2⟩),
          some (.exp ⟨6⟩), some (.exp ⟨6⟩), some (.stat ⟨1⟩), some (.stat ⟨2⟩), none] ∧
        c.nodes 14 = some #[.block ⟨1⟩, .stat ⟨0⟩, .exp ⟨0⟩, .stat ⟨2⟩, .exp ⟨3⟩, .exp ⟨1⟩,
          .exp ⟨2⟩, .exp ⟨7⟩, .block ⟨0⟩, .stat ⟨1⟩, .exp ⟨6⟩, .exp ⟨4⟩, .exp ⟨5⟩]) = true := by
    decide +kernel
  obtain ⟨c, h, tables⟩ := (Option.any_eq_true _ _).1 parsed
  obtain ⟨parents, listed⟩ := of_decide_eq_true tables
  obtain ⟨l, nodes, listing⟩ := listing_nodes _ 1 h
  rw [nodes, Option.ite_none_right_eq_some] at listed
  exact ⟨c, l, h, parents, congrArg Array.toList (Option.some.inj listed.2), listing⟩

end Source

end LuaFront
