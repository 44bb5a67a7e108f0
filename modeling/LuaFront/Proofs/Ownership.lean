import LuaFront.Build.State
import LuaFront.Proofs.Cells
import LuaFront.Proofs.Nodes
import Mathlib.Data.List.Forall2

/-!
# Who owns what in an arena

In an arena that is `Owned`, every part of a node has that node for its parent, and is a part of it
once. So no node is a part of two nodes. While a source is read, the nodes at the top of what has
been read have no parent yet. They are `Held`, and wait for the one node that takes them in.

* `Shows`: what stands below an id is a given tree.
* `Held.append`: what is held stays held while more is read.
* `Held.add`: a new node over all that is held, in the order in which it was read, is held in its
  place.
* `Held.drop`: what is held and never taken in does no harm.
-/

namespace LuaFront

namespace Arena

variable {a a' a₀ : Arena} {n k : NodeId} {ns ms : List NodeId} {t u : Node} {ts us : List Node}
  {x y : Cell ExpId StatId BlockId}

/-! ## Trees below ids -/

/-- What the arena holds below an id is a given tree. -/
inductive Shows (a : Arena) : NodeId → Node → Prop
  | node {n : NodeId} {x : Cell ExpId StatId BlockId} {t : Node} : a.cell? n = some x →
      x.blank = t.cell.blank → x.ids.length = t.children.length →
      (∀ k u, (k, u) ∈ x.ids.zip t.children → Shows a k u) → Shows a n t

namespace Shows

theorem of_cell (cell : a.cell? n = some x) (blank : x.blank = t.cell.blank)
    (below : List.Forall₂ a.Shows x.ids t.children) : a.Shows n t :=
  .node cell blank below.length_eq fun _ _ => (List.forall₂_iff_zip.1 below).2

theorem exists_cell (h : a.Shows n t) : ∃ x, a.cell? n = some x ∧ x.blank = t.cell.blank ∧
    List.Forall₂ a.Shows x.ids t.children := by
  cases h with
  | @node _ x _ cell blank length below =>
    exact ⟨x, cell, blank, List.forall₂_iff_zip.2 ⟨length, fun h => below _ _ h⟩⟩

theorem children (h : a.Shows n t) : List.Forall₂ a.Shows (a.children n) t.children := by
  obtain ⟨x, cell, -, below⟩ := h.exists_cell
  simpa [Arena.children, children?, cell] using below

theorem place (h : a.Shows n t) : a.place n = t.place := by
  obtain ⟨x, cell, blank, -⟩ := h.exists_cell
  have same := congrArg Cell.place blank
  simpa [Arena.place, cell] using same

theorem blank_exp {i : ExpId} {e : Exp} (h : a.Shows (.exp i) (.exp e)) :
    (a.exp i).blank = e.cell.blank := by
  obtain ⟨x, cell, blank, -⟩ := h.exists_cell
  obtain ⟨y, hy, rfl⟩ := Option.map_eq_some_iff.1 cell
  rw [exp, hy]
  exact Cell.exp.inj blank

section

variable {i : ExpId} {e : Exp} (h : a.Shows (.exp i) (.exp e))
include h

theorem place_exp : (a.exp i).place = e.place := by
  rw [← ExpCell.place_blank, h.blank_exp, ExpCell.place_blank, Exp.place_cell]

theorem isAssignable_exp : (a.exp i).isAssignable = e.isAssignable := by
  rw [← ExpCell.isAssignable_blank, h.blank_exp, ExpCell.isAssignable_blank, Exp.isAssignable_cell]

theorem isCall_exp : (a.exp i).isCall = e.isCall := by
  rw [← ExpCell.isCall_blank, h.blank_exp, ExpCell.isCall_blank, Exp.isCall_cell]

theorem isBad_exp : (a.exp i).isBad = e.isBad := by
  rw [← ExpCell.isBad_blank, h.blank_exp, ExpCell.isBad_blank, Exp.isBad_cell]

theorem keepsParens_exp : (a.exp i).keepsParens = e.keepsParens := by
  rw [← ExpCell.keepsParens_blank, h.blank_exp, ExpCell.keepsParens_blank, Exp.keepsParens_cell]

end

theorem place_stat {i : StatId} {s : Stat} (h : a.Shows (.stat i) (.stat s)) :
    (a.stat i).place = s.place := by
  obtain ⟨x, cell, blank, -⟩ := h.exists_cell
  obtain ⟨y, hy, rfl⟩ := Option.map_eq_some_iff.1 cell
  have same := congrArg Cell.place blank
  rw [Cell.place_blank, Cell.place_blank] at same
  rw [stat, hy]
  exact same.trans s.place_cell

/-- Nodes that are there stay as they are. -/
theorem mono (h : a.Shows n t) (cells : ∀ k x, a.cell? k = some x → a'.cell? k = some x) :
    a'.Shows n t := by
  induction h with
  | node cell blank length _ below => exact .node (cells _ _ cell) blank length below

theorem exists_of_mem (h : List.Forall₂ a.Shows ns ts) (hn : n ∈ ns) : ∃ t ∈ ts, a.Shows n t := by
  induction h with
  | nil => exact nomatch hn
  | @cons _ t _ ts first _ ih =>
    rcases List.mem_cons.1 hn with rfl | hn
    · exact ⟨t, List.mem_cons_self, first⟩
    · obtain ⟨u, hu, shows⟩ := ih hn
      exact ⟨u, List.mem_cons_of_mem t hu, shows⟩

/-- Statements at the same place belong together. -/
theorem exists_stat {is : List StatId} {xs : List Stat}
    (h : List.Forall₂ a.Shows (is.map .stat) (xs.map .stat)) {j : Nat} {i : StatId}
    (hi : is[j]? = some i) : ∃ x, xs[j]? = some x ∧ a.Shows (.stat i) (.stat x) := by
  have length : is.length = xs.length := by simpa using h.length_eq
  obtain ⟨lt, rfl⟩ := List.getElem?_eq_some_iff.1 hi
  have lt' : j < xs.length := length ▸ lt
  refine ⟨xs[j], List.getElem?_eq_getElem lt', ?_⟩
  have left : j < (is.map NodeId.stat).length := by rwa [List.length_map]
  have right : j < (xs.map Node.stat).length := by rwa [List.length_map]
  have both := h.get left right
  rwa [List.get_eq_getElem, List.get_eq_getElem, List.getElem_map, List.getElem_map] at both

end Shows

/-! ## Owned arenas -/

theorem Even.isSome_parent? (h : a.Even) (k : NodeId) :
    (a.parent? k).isSome = (a.cell? k).isSome := by
  rw [Bool.eq_iff_iff]
  cases k <;> simp [parent?, cell?, h.blocks, h.stats, h.exps]

/-- The parts of every node are parts of no other node, and know it. -/
structure Owned (a : Arena) : Prop extends Even a where
  nodup : ∀ n x, a.cell? n = some x → x.ids.Nodup
  parent : ∀ n x, a.cell? n = some x →
    ∀ k ∈ x.ids, a.parent? k = some (some n)

theorem owned_empty : Owned {} where
  toEven := even_empty
  nodup n x h := by cases n <;> simp [cell?] at h
  parent n x h := by cases n <;> simp [cell?] at h

/-- The arena `a'` has all nodes of `a`, with the same parents. -/
structure Grows (a a' : Arena) : Prop where
  cell : ∀ k x, a.cell? k = some x → a'.cell? k = some x
  parent : ∀ k x, a.cell? k = some x → a'.parent? k = a.parent? k

namespace Grows

theorem refl (a : Arena) : Grows a a := ⟨fun _ _ h => h, fun _ _ _ => rfl⟩

theorem trans (h : Grows a₀ a) (k : Grows a a') : Grows a₀ a' where
  cell n x hn := k.cell n x (h.cell n x hn)
  parent n x hn := (k.parent n x (h.cell n x hn)).trans (h.parent n x hn)

end Grows

namespace Adds

/-- Only the parts of the new node get another parent. -/
theorem parent_of_not_mem (h : a.Adds a' n x) (hk : a.cell? k = some y)
    (not : k ∉ x.ids) : a'.parent? k = a.parent? k := by
  have ne : k ≠ n := by
    rintro rfl
    exact nomatch h.fresh.symm.trans hk
  rw [h.parent, if_neg ne, if_neg not]

theorem cell_of_some (h : a.Adds a' n x) (hk : a.cell? k = some y) : a'.cell? k = some y := by
  have ne : k ≠ n := by
    rintro rfl
    exact nomatch h.fresh.symm.trans hk
  rw [h.cell, if_neg ne, hk]

end Adds

/-! ## What is held -/

/-- Since the arena was `a₀`, the trees `ts` were read. Their tops are the nodes `ns`, and have no
parents yet. -/
structure Held (a₀ a : Arena) (ns : List NodeId) (ts : List Node) : Prop where
  owned : a.Owned
  grows : a₀.Grows a
  fresh : ∀ n ∈ ns, a₀.cell? n = none
  free : ∀ n ∈ ns, a.parent? n = some none
  nodup : ns.Nodup
  shows : List.Forall₂ a.Shows ns ts

namespace Held

theorem start (h : a.Owned) : Held a a [] [] := ⟨h, .refl a, nofun, nofun, .nil, .nil⟩

theorem drop (h : Held a₀ a ns ts) : Held a₀ a [] [] :=
  ⟨h.owned, h.grows, nofun, nofun, .nil, .nil⟩

theorem exists_cell (h : Held a₀ a ns ts) (hn : n ∈ ns) : ∃ x, a.cell? n = some x := by
  have some := h.owned.isSome_parent? n
  rw [h.free n hn] at some
  exact Option.isSome_iff_exists.1 some.symm

theorem append (h : Held a₀ a ns ts) (k : Held a a' ms us) :
    Held a₀ a' (ns ++ ms) (ts ++ us) where
  owned := k.owned
  grows := h.grows.trans k.grows
  fresh n hn := by
    rcases List.mem_append.1 hn with hn | hn
    · exact h.fresh n hn
    · by_contra some
      obtain ⟨x, hx⟩ := Option.ne_none_iff_exists'.1 some
      exact nomatch (k.fresh n hn).symm.trans (h.grows.cell n x hx)
  free n hn := by
    rcases List.mem_append.1 hn with hn | hn
    · obtain ⟨x, hx⟩ := h.exists_cell hn
      rw [k.grows.parent n x hx, h.free n hn]
    · exact k.free n hn
  nodup := by
    refine List.nodup_append.2 ⟨h.nodup, k.nodup, ?_⟩
    rintro n hn _ hm rfl
    obtain ⟨x, hx⟩ := h.exists_cell hn
    exact nomatch (k.fresh n hm).symm.trans hx
  shows := by
    have old := h.shows.imp fun _ _ shows => shows.mono k.grows.cell
    exact List.rel_append old k.shows

theorem owned_add (h : Held a₀ a ns ts) (adds : a.Adds a' n x)
    (parts : x.ids = ns) : a'.Owned where
  toEven := adds.even
  nodup k y hy := by
    rw [adds.cell] at hy
    split at hy
    · obtain rfl := Option.some.inj hy
      rw [parts]
      exact h.nodup
    · exact h.owned.nodup k y hy
  parent k y hy c hc := by
    rw [adds.cell] at hy
    split at hy
    · next same =>
      obtain rfl := Option.some.inj hy
      obtain ⟨z, hz⟩ := h.exists_cell (parts ▸ hc)
      have ne : c ≠ n := by
        rintro rfl
        exact nomatch adds.fresh.symm.trans hz
      rw [adds.parent, if_neg ne, if_pos hc, h.free c (parts ▸ hc), same]
      rfl
    · have owner := h.owned.parent k y hy c hc
      have some := h.owned.isSome_parent? c
      rw [owner] at some
      obtain ⟨z, hz⟩ := Option.isSome_iff_exists.1 some.symm
      -- What has an owner is not held.
      refine (adds.parent_of_not_mem hz fun held => ?_).trans owner
      have free := h.free c (parts ▸ held)
      exact nomatch owner.symm.trans free

theorem add (h : Held a₀ a ns ts) (adds : a.Adds a' n x)
    (parts : x.ids = ns) (blank : x.blank = t.cell.blank)
    (below : t.children = ts) : Held a₀ a' [n] [t] where
  owned := h.owned_add adds parts
  grows := by
    refine ⟨fun k y hk => adds.cell_of_some (h.grows.cell k y hk), fun k y hk => ?_⟩
    rw [← h.grows.parent k y hk]
    refine adds.parent_of_not_mem (h.grows.cell k y hk) fun held => ?_
    exact nomatch (h.fresh k (parts ▸ held)).symm.trans hk
  fresh := by
    rintro _ (_ | ⟨_, ⟨⟩⟩)
    by_contra some
    obtain ⟨y, hy⟩ := Option.ne_none_iff_exists'.1 some
    exact nomatch adds.fresh.symm.trans (h.grows.cell n y hy)
  free := by
    rintro _ (_ | ⟨_, ⟨⟩⟩)
    rw [adds.parent, if_pos rfl]
  nodup := List.nodup_cons.2 ⟨List.not_mem_nil, .nil⟩
  shows := by
    have cell : a'.cell? n = some x := by rw [adds.cell, if_pos rfl]
    refine .cons (.of_cell cell blank ?_) .nil
    rw [parts, below]
    exact h.shows.imp fun _ _ shows => shows.mono fun _ _ => adds.cell_of_some

end Held

end Arena

end LuaFront
