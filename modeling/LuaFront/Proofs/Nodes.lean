import LuaFront.Tree.Node
import Mathlib.Logic.Relation

/-!
# All nodes of a tree

A property holds of all nodes below a node if it holds of the node and, the same way, of its
children. The entries of an outline are the nodes below its top, so what is shown along the children
holds for every entry.

* `Node.all_iff`: from the children to the node.
* `Node.All.of_mem_entries`: from the node to the entries of its outline.
* `Node.all_iff_entries`: and back to the node.
* `Node.All.stats`: from the statements of blocks to all statements.
-/

namespace LuaFront

namespace Node

/-- The property holds of the node and of all nodes below it. -/
def All (P : Node → Prop) (n : Node) : Prop :=
  ∀ m, Relation.ReflTransGen (fun a b => b ∈ a.children) n m → P m

variable {P Q : Node → Prop} {n m : Node}

theorem All.imp (h : n.All P) (imp : ∀ m, P m → Q m) : n.All Q := fun m hm => imp m (h m hm)

theorem All.self (h : n.All P) : P n := h n .refl

theorem All.child (h : n.All P) (hm : m ∈ n.children) : m.All P :=
  fun k hk => h k (.head hm hk)

theorem all_iff : n.All P ↔ P n ∧ ∀ c ∈ n.children, c.All P := by
  refine ⟨fun h => ⟨h.self, fun c hc => h.child hc⟩, fun ⟨self, below⟩ m hm => ?_⟩
  rcases Relation.ReflTransGen.cases_head hm with rfl | ⟨c, hc, hm⟩
  · exact self
  · exact below c hc m hm

/-- The outline of a node. -/
def outline : Node → Outline
  | block b => b.outline
  | stat s => s.outline
  | exp e => e.outline

@[simp] theorem node_outline (n : Node) : n.outline.node = n := by
  cases n with
  | block b => exact b.node_outline
  | stat s => exact s.node_outline
  | exp e => exact e.node_outline

theorem map_outline_ofField (fields : List Field) :
    (fields.flatMap ofField).map outline = Field.outlines fields := by
  induction fields with
  | nil => rfl
  | cons f fields ih =>
    rw [List.flatMap_cons, List.map_append, ih]
    cases f <;> rfl

theorem map_outline_ofClause (clauses : List Clause) :
    (clauses.flatMap ofClause).map outline = Clause.outlines clauses := by
  induction clauses with
  | nil => rfl
  | cons c clauses ih =>
    rw [List.flatMap_cons, List.map_append, ih]
    cases c
    rfl

/-- The outlines below a node are those of its children. -/
theorem children_outline (n : Node) : n.outline.children = n.children.map outline := by
  cases n with
  | block b =>
    cases b
    simp [outline, Block.outline, Outline.children, children, Stat.outlines_eq_map, Block.stats]
  | stat s =>
    cases s <;>
      simp [outline, Stat.outline, Outline.children, children, Exp.outlines_eq_map,
        Exp.outline?_eq_map, Block.outline?_eq_map, ← map_outline_ofClause, Function.comp_def]
  | exp e =>
    cases e <;>
      simp [outline, Exp.outline, Outline.children, children, Exp.outlines_eq_map,
        Exp.outline?_eq_map, ← map_outline_ofField, Function.comp_def]

theorem outline_eq (n : Node) : n.outline = .mk n (n.children.map outline) := by
  have eta : n.outline = .mk n.outline.node n.outline.children := by
    cases n.outline
    rfl
  rw [eta, node_outline, children_outline]

mutual

theorem all_entriesFrom (ancestors : List Nat) (index : Nat) :
    ∀ (t : Outline) {n : Node}, n.outline = t → n.All P →
      ∀ e ∈ t.entriesFrom ancestors index, P e.node
  | .mk m children, n, eq, h => by
    obtain ⟨rfl, below⟩ := Outline.mk.inj (n.outline_eq.symm.trans eq)
    intro e he
    rw [Outline.entriesFrom] at he
    rcases List.mem_cons.1 he with rfl | he
    · exact h.self
    · exact all_allEntriesFrom _ _ children below (fun c hc => h.child hc) e he

theorem all_allEntriesFrom (ancestors : List Nat) (index : Nat) :
    ∀ (ts : List Outline) {ns : List Node}, ns.map outline = ts → (∀ n ∈ ns, n.All P) →
      ∀ e ∈ Outline.allEntriesFrom ancestors index ts, P e.node
  | [], _, _, _ => nofun
  | t :: ts, ns, eq, h => by
    obtain ⟨n, ns, rfl, rfl, eq'⟩ := List.map_eq_cons_iff.1 eq
    intro e he
    rw [Outline.allEntriesFrom] at he
    rcases List.mem_append.1 he with he | he
    · exact all_entriesFrom _ _ n.outline rfl (h n List.mem_cons_self) e he
    · exact all_allEntriesFrom _ _ ts eq' (fun m hm => h m (List.mem_cons_of_mem n hm)) e he

end

/-- What holds of all nodes below the top of an outline holds of all its entries. -/
theorem All.of_mem_entries (h : n.All P) {e : Outline.Entry} (he : e ∈ n.outline.entries) :
    P e.node := all_entriesFrom [] 0 n.outline rfl h e he

/-- The entries of an outline are among those of a list that it is in. -/
theorem exists_entriesFrom_subset {t : Outline} {ts : List Outline} (h : t ∈ ts)
    (ancestors : List Nat) (index : Nat) :
    ∃ start, t.entriesFrom ancestors start ⊆ Outline.allEntriesFrom ancestors index ts := by
  induction ts generalizing index with
  | nil => exact nomatch h
  | cons u ts ih =>
    rw [Outline.allEntriesFrom]
    rcases List.mem_cons.1 h with rfl | h
    · exact ⟨index, List.subset_append_left _ _⟩
    · obtain ⟨start, sub⟩ := ih h (index + u.size)
      exact ⟨start, fun e he => List.mem_append_right _ (sub he)⟩

/-- Every node below the top of an outline has an entry. -/
theorem exists_mem_entriesFrom (h : Relation.ReflTransGen (fun a b => b ∈ a.children) n m)
    (ancestors : List Nat) (index : Nat) :
    ∃ e ∈ n.outline.entriesFrom ancestors index, e.node = m := by
  induction h using Relation.ReflTransGen.head_induction_on generalizing ancestors index with
  | refl =>
    rw [outline_eq, Outline.entriesFrom]
    exact ⟨_, List.mem_cons_self, rfl⟩
  | @head n c hc _ ih =>
    rw [outline_eq, Outline.entriesFrom]
    obtain ⟨start, sub⟩ := exists_entriesFrom_subset (List.mem_map_of_mem hc) (index :: ancestors)
      (index + 1)
    obtain ⟨e, he, eq⟩ := ih (index :: ancestors) start
    exact ⟨e, List.mem_cons_of_mem _ (sub he), eq⟩

/-- What holds of all entries of an outline holds of all nodes below its top, and the other way
round. -/
theorem all_iff_entries : n.All P ↔ ∀ e ∈ n.outline.entries, P e.node := by
  refine ⟨fun h e he => h.of_mem_entries he, fun h m hm => ?_⟩
  obtain ⟨e, he, rfl⟩ := exists_mem_entriesFrom hm [] 0
  exact h e he

instance [DecidablePred P] : Decidable (n.All P) := decidable_of_iff' _ all_iff_entries

/-- Only blocks have statements for children. -/
theorem eq_block_of_stat_mem {x : Stat} (h : .stat x ∈ n.children) :
    ∃ b, n = .block b ∧ x ∈ b.stats := by
  cases n with
  | block b => exact ⟨b, rfl, by simpa [children] using h⟩
  | stat y =>
    cases y with
    | branch clauses otherwise place =>
      simp only [children, List.mem_append, List.mem_flatMap, List.mem_map] at h
      rcases h with ⟨⟨condition, body⟩, -, h⟩ | ⟨_, -, h⟩
      · simp [ofClause] at h
      · cases h
    | _ => simp [children] at h
  | exp e =>
    cases e with
    | table fields place =>
      simp only [children, List.mem_flatMap] at h
      obtain ⟨f, -, h⟩ := h
      cases f <;> simp [ofField] at h
    | _ => simp [children] at h

/-- What holds of the statements of all blocks holds of all statements below a block. -/
theorem All.stats {b : Block} {Q : Stat → Prop}
    (h : (block b).All fun n => ∀ c, n = .block c → ∀ x ∈ c.stats, Q x) :
    (block b).All fun n => ∀ x, n = .stat x → Q x := by
  rintro m hm x rfl
  rcases Relation.ReflTransGen.cases_tail hm with same | ⟨parent, above, child⟩
  · exact nomatch same
  · obtain ⟨c, rfl, hx⟩ := eq_block_of_stat_mem child
    exact h _ above c rfl x hx

end Node

end LuaFront
