import LuaFront.Proofs.Walks

/-!
# Entries of a tree and nodes of a chunk

The entries of a tree are numbered as the nodes of its chunk are listed: each entry has the node,
the children and the ancestors of the id at its number. So what is said of the entries of a program
is said of the nodes of its chunk.

* `Arena.Matches`: an id and the entry for it.
* `Source.matches_entries`: the entries of a program match the nodes of its chunk.
-/

namespace LuaFront

namespace Arena

/-- In the list `full` the ids have the given numbers. -/
abbrev Numbered (full : List NodeId) (numbers : List Nat) (ids : List NodeId) : Prop :=
  List.Forall₂ (fun (j : Nat) k => full[j]? = some k) numbers ids

/-- An entry knows of its tree what the arena knows of the id, with numbers in the list `full` in
the place of ids. -/
structure Matches (a : Arena) (full : List NodeId) (n : NodeId) (e : Outline.Entry) : Prop where
  shows : a.Shows n e.node
  children : Numbered full e.children (a.children n)
  ancestors : ∃ above, a.Climbs n above ∧ Numbered full e.ancestors above

variable {a : Arena}

mutual

/-- The node on top of a stack and all nodes below it match the entries of its outline. -/
theorem matches_entriesFrom (full : List NodeId) (owned : a.Owned) (as : List Nat) (i : Nat) :
    ∀ (o : Outline) {t : Node} {n : NodeId} {ns l above : List NodeId}, t.outline = o →
      a.Shows n t → a.Lists (n :: ns) l → full.drop i = l → a.Climbs n above →
      Numbered full as above →
      ∃ l₁ l₂, l = l₁ ++ l₂ ∧ a.Lists ns l₂ ∧
        List.Forall₂ (a.Matches full) l₁ (o.entriesFrom as i)
  | .mk m os, t, n, ns, l, above, eq, shows, lists, drop, climbs, numbers => by
    obtain ⟨rfl, below⟩ := Outline.mk.inj (t.outline_eq.symm.trans eq)
    cases lists with
    | @node _ cs _ l children rest =>
      have children_eq : a.children n = cs := by simp [Arena.children, children]
      have here : full[i]? = some n := by
        rw [← Nat.add_zero i, ← List.getElem?_drop, drop]
        rfl
      have behind : full.drop (i + 1) = l := by
        rw [← List.drop_drop, drop]
        rfl
      have up : ∀ c ∈ cs, a.Climbs c (n :: above) := fun c hc =>
        climbs.cons (owned.parent?_of_down ((down_iff children).2 hc))
      obtain ⟨l₁, l₂, rfl, rest, matched, starts⟩ :=
        matches_allEntriesFrom full owned (i :: as) (i + 1) os below
          (children_eq ▸ shows.children) rest behind up (.cons here numbers)
      refine ⟨n :: l₁, l₂, rfl, rest, ?_⟩
      rw [Outline.entriesFrom]
      exact .cons ⟨shows, children_eq.symm ▸ starts, above, climbs, numbers⟩ matched

/-- The nodes of one parent on top of a stack and all nodes below them match the entries of their
outlines. -/
theorem matches_allEntriesFrom (full : List NodeId) (owned : a.Owned) (as : List Nat) (i : Nat) :
    ∀ (os : List Outline) {ts : List Node} {cs ns l above : List NodeId},
      ts.map Node.outline = os → List.Forall₂ a.Shows cs ts → a.Lists (cs ++ ns) l →
      full.drop i = l → (∀ c ∈ cs, a.Climbs c above) →
      Numbered full as above →
      ∃ l₁ l₂, l = l₁ ++ l₂ ∧ a.Lists ns l₂ ∧
        List.Forall₂ (a.Matches full) l₁ (Outline.allEntriesFrom as i os) ∧
        Numbered full (Outline.starts i os) cs
  | [], ts, cs, ns, l, above, eq, shows, lists, drop, climbs, numbers => by
    obtain rfl := List.map_eq_nil_iff.1 eq
    obtain rfl := List.forall₂_nil_right_iff.1 shows
    exact ⟨[], l, rfl, lists, .nil, .nil⟩
  | o :: os, ts, cs, ns, l, above, eq, shows, lists, drop, climbs, numbers => by
    obtain ⟨t, ts, rfl, rfl, eqs⟩ := List.map_eq_cons_iff.1 eq
    cases shows with
    | @cons c _ cs _ first others =>
      have here : full[i]? = some c := by
        rw [← Nat.add_zero i, ← List.getElem?_drop, drop]
        cases lists
        rfl
      obtain ⟨l₁, l₂, rfl, lists, matched⟩ := matches_entriesFrom full owned as i t.outline rfl
        first lists drop (climbs c List.mem_cons_self) numbers
      have length : l₁.length = t.outline.size := by
        rw [matched.length_eq, Outline.length_entriesFrom]
      have behind : full.drop (i + t.outline.size) = l₂ := by
        rw [← List.drop_drop, drop, ← length, List.drop_left]
      obtain ⟨l₂, l₃, rfl, lists, matched', starts⟩ := matches_allEntriesFrom full owned as _ os eqs
        others lists behind (fun d hd => climbs d (List.mem_cons_of_mem c hd)) numbers
      refine ⟨l₁ ++ l₂, l₃, (List.append_assoc ..).symm, lists, ?_, ?_⟩
      · rw [Outline.allEntriesFrom]
        exact List.rel_append matched matched'
      · rw [Outline.starts]
        exact .cons here starts

end

end Arena

namespace Source

/-- A source has a chunk where it has a tree. -/
theorem isSome_chunk (s : Source) (limit : Nat) :
    (s.chunk limit).isSome = (s.program limit).tree.isSome := by
  cases run : s.parse limit with
  | error e st =>
    rw [chunk, built?, program, build_of_stopped run, run]
    rfl
  | ok tree st =>
    obtain ⟨root, b, built, -⟩ := build_of_parse run
    rw [chunk, built?, program, built, run]
    rfl

/-- The entries of a program match the nodes of its chunk, in the same order. -/
theorem matches_entries {s : Source} {limit : Nat} {c : Chunk} (h : s.chunk limit = some c) :
    ∃ tree l, (s.program limit).tree = some tree ∧
      (∀ rounds, c.nodes rounds = if l.length < rounds then some l.toArray else none) ∧
      List.Forall₂ (c.Matches l) l tree.outline.entries := by
  obtain ⟨root, b, tree, st, -, run, rfl, held⟩ := exists_built_of_chunk h
  obtain ⟨l, nodes, lists, listing⟩ := held.exists_listing
  have tree_eq : (s.program limit).tree = some tree := by
    unfold program
    rw [run]
  obtain ⟨l₁, l₂, eq, rest, matched⟩ := Arena.matches_entriesFrom l held.arena.owned [] 0
    tree.outline rfl held.shows lists rfl (Arena.climbs_nil listing.top) .nil
  cases rest
  rw [List.append_nil] at eq
  exact ⟨tree, l, tree_eq, nodes, eq ▸ matched⟩

end Source

end LuaFront
