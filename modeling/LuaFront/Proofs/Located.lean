import LuaFront.Proofs.Containment
import LuaFront.Proofs.Walks

/-!
# Locations in a chunk

The nodes of a chunk have the locations of the tree that its arena shows, so what is known of the
tree holds of the chunk. What a tree does not tell is at which token an empty block ended. That is
recorded when the block is added to the arena, under its id.

* `Source.contains_children`: the nodes of every chunk are in their places.
-/

namespace LuaFront

namespace Arena

variable {a : Arena} {n : NodeId} {i : BlockId} {t : Node}

/-- A block of an arena with the tree of the block that it shows. -/
theorem Shows.exists_block (h : a.Shows (.block i) t) :
    ∃ b x, t = .block b ∧ a.blocks[i.index]? = some x ∧ x.place = b.place ∧
      List.Forall₂ a.Shows (x.stats.map .stat) (b.stats.map .stat) := by
  obtain ⟨_, cell, blank, below⟩ := h.exists_cell
  obtain ⟨x, hx, rfl⟩ := Option.map_eq_some_iff.1 cell
  cases t with
  | block b => exact ⟨b, x, rfl, hx, congrArg BlockCell.place (Cell.block.inj blank), below⟩
  | stat s => exact nomatch blank
  | exp e => exact nomatch blank

end Arena

namespace Source

open Parse

/-- The nodes of every chunk are in their places: locations are ordered, a node contains its
children, and a block goes from its first statement to its last one or is empty where the token
starts that was current when this block ended. -/
theorem contains_children (name : String) (bytes : List UInt8) (m : Nat) {c : Chunk}
    (h : (ofBytes name bytes).chunk m = some c) :
    ∃ root b, (ofBytes name bytes).built? m = some (root, b) ∧
      c = { b.arena with root := root } ∧ ∃ l : List NodeId,
      (∀ rounds, c.nodes rounds = if l.length < rounds then some l.toArray else none) ∧ ∀ n ∈ l,
        (c.place n).start ≤ (c.place n).stop ∧
        (∀ k ∈ c.children n, (c.place n).contains (c.place k)) ∧
        ∀ i, n = .block i → ∃ x t, c.blocks[i.index]? = some x ∧ b.ends[i.index]? = some t ∧
          (∀ first ∈ x.stats.head?, ∀ last ∈ x.stats.getLast?,
            x.place = ⟨(c.place (.stat first)).start, (c.place (.stat last)).stop⟩) ∧
          (x.stats = [] → x.place = .point t.location.start) := by
  obtain ⟨root, b, tree, st, built, run, rfl, held⟩ := exists_built_of_chunk h
  obtain ⟨l, nodes, -, listing⟩ := held.exists_listing
  refine ⟨root, b, built, rfl, l, nodes, fun n hn => ?_⟩
  obtain ⟨u, below, shows⟩ := held.shows.reach ((listing.mem_iff n).1 hn)
  have placed : Placed _ st u := all_placed_of_rootBlock
    (State.ordered_ofSource (isSplit_ofBytes name bytes) m) (State.ends_ofSource _ m)
    (rootBlock_of_parse run).2 u below
  refine ⟨?_, fun k down => ?_, ?_⟩
  · show (b.arena.place n).start ≤ (b.arena.place n).stop
    rw [shows.place]
    exact placed.ordered
  · obtain ⟨v, hv, child⟩ := shows.down down
    show (b.arena.place n).contains (b.arena.place k)
    rw [shows.place, child.place]
    exact placed.contains v hv
  · rintro i rfl
    obtain ⟨y, x, rfl, hx, place, stats⟩ := shows.exists_block
    obtain ⟨t, ht, empty⟩ := held.recorded.empty i.index x hx
    refine ⟨x, t, hx, ht, fun first hf last hl => ?_, empty⟩
    have length : x.stats.length = y.stats.length := by simpa using stats.length_eq
    rw [Option.mem_def, List.head?_eq_getElem?] at hf
    rw [Option.mem_def, List.getLast?_eq_getElem?] at hl
    obtain ⟨f, hf, showsFirst⟩ := Arena.Shows.exists_stat stats hf
    obtain ⟨g, hl, showsLast⟩ := Arena.Shows.exists_stat stats hl
    rw [← List.head?_eq_getElem?] at hf
    rw [length, ← List.getLast?_eq_getElem?] at hl
    show x.place = ⟨(b.arena.place _).start, (b.arena.place _).stop⟩
    rw [showsFirst.place, showsLast.place, place]
    exact (placed.block y rfl).filled f hf g hl

/-- An empty block in front of a filled one: the first one is where its `end` starts, the second one
where its call is. -/
theorem contains_children_scopes :
    ∃ c root b, (ofBytes "a" "do end do x() end".toUTF8.toList).chunk 0 = some c ∧
      (ofBytes "a" "do end do x() end".toUTF8.toList).built? 0 = some (root, b) ∧
      (c.place (.stat ⟨0⟩)).contains (c.place (.block ⟨0⟩)) ∧
      (∃ x t, c.blocks[0]? = some x ∧ x.stats = [] ∧ b.ends[0]? = some t ∧
        (t.kind, t.location.start) = (.kwEnd, ⟨0, 3⟩) ∧ x.place = .point t.location.start) ∧
      ∃ x, c.blocks[1]? = some x ∧ x.stats = [⟨1⟩] ∧
        x.place = ⟨(c.place (.stat ⟨1⟩)).start, (c.place (.stat ⟨1⟩)).stop⟩ := by
  have parsed : ((ofBytes "a" "do end do x() end".toUTF8.toList).chunk 0).any (fun c =>
      c.nodes 9 = some #[.block ⟨2⟩, .stat ⟨0⟩, .block ⟨0⟩, .stat ⟨2⟩, .block ⟨1⟩, .stat ⟨1⟩,
        .exp ⟨1⟩, .exp ⟨0⟩] ∧ c.children (.stat ⟨0⟩) = [.block ⟨0⟩] ∧
      c.blocks.map (·.stats) = #[[], [⟨1⟩], [⟨0⟩, ⟨2⟩]]) = true := by
    decide +kernel
  have ended : ((ofBytes "a" "do end do x() end".toUTF8.toList).built? 0).map
      (fun r => r.2.ends.map fun t => (t.kind, t.location.start)) =
        some #[(.kwEnd, ⟨0, 3⟩), (.kwEnd, ⟨0, 14⟩), (.eof, ⟨0, 17⟩)] := by
    decide +kernel
  obtain ⟨c, h, tables⟩ := (Option.any_eq_true _ _).1 parsed
  obtain ⟨listed, children, stats⟩ := of_decide_eq_true tables
  obtain ⟨r, b, built, -, l, nodes, placed⟩ :=
    contains_children "a" "do end do x() end".toUTF8.toList 0 h
  rw [built] at ended
  have ends : b.ends.map (fun t => (t.kind, t.location.start)) = _ := Option.some.inj ended
  rw [nodes, Option.ite_none_right_eq_some] at listed
  obtain rfl : l = _ := congrArg Array.toList (Option.some.inj listed.2)
  refine ⟨c, r, b, h, built, ?_, ?_, ?_⟩
  · exact (placed (.stat ⟨0⟩) (by simp)).2.1 _ (by simp [children])
  · obtain ⟨x, t, hx, ht, -, empty⟩ := (placed (.block ⟨0⟩) (by simp)).2.2 _ rfl
    have none : x.stats = [] := by
      have entry : (c.blocks.map (·.stats))[0]? = some [] := by rw [stats]; rfl
      simpa [hx] using entry
    have token : (t.kind, t.location.start) = (.kwEnd, ⟨0, 3⟩) := by
      have entry : (b.ends.map fun t => (t.kind, t.location.start))[0]? =
          some (.kwEnd, ⟨0, 3⟩) := by
        rw [ends]; rfl
      simpa [ht] using entry
    exact ⟨x, t, hx, none, ht, token, empty none⟩
  · obtain ⟨x, -, hx, -, bounds, -⟩ := (placed (.block ⟨1⟩) (by simp)).2.2 _ rfl
    have one : x.stats = [⟨1⟩] := by
      have entry : (c.blocks.map (·.stats))[1]? = some [⟨1⟩] := by rw [stats]; rfl
      simpa [hx] using entry
    exact ⟨x, hx, one, bounds ⟨1⟩ (by simp [one]) ⟨1⟩ (by simp [one])⟩

end Source

end LuaFront
