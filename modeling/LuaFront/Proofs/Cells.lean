import LuaFront.Tree.Arena

/-!
# Cells of trees and of arenas

A node of a tree is a cell over the trees below it (`Node.cell`), and an arena holds cells over ids.
A cell without its parts is `blank`: two nodes with equal blank cells are alike but for what stands
in the place of their parts.

`Arena.Adds` is what adding a node does to the tables: one equation for cells and one for parents.
It holds of all three kinds of nodes as long as each node has a slot for its parent (`Arena.Even`).
-/

namespace LuaFront

/-! ## Cells of trees -/

def Field.cell : Field → FieldCell Exp
  | .item value => ⟨none, value⟩
  | .keyed key value => ⟨some key, value⟩

def Clause.cell : Clause → ClauseCell Exp Block
  | .mk condition body => ⟨condition, body⟩

def Exp.cell : Exp → ExpCell Exp Block
  | .nil p => .nil p
  | .boolean b p => .boolean b p
  | .vararg p => .vararg p
  | .integer n p => .integer n p
  | .float x p => .float x p
  | .string s p => .string s p
  | .unary op x p => .unary op x p
  | .binary op x y p => .binary op x y p
  | .table fields p => .table (fields.map Field.cell) p
  | .function ps v m body p => .function ps v m body p
  | .name s p => .name s p
  | .parens x p => .parens x p
  | .index x k p => .index x k p
  | .call f m args p => .call f m args p
  | .bad p => .bad p

def Stat.cell : Stat → StatCell Exp Block
  | .breakOut p => .breakOut p
  | .label n p => .label n p
  | .goto n p => .goto n p
  | .scope body p => .scope body p
  | .whileLoop c body p => .whileLoop c body p
  | .repeatLoop body c p => .repeatLoop body c p
  | .branch clauses other p => .branch (clauses.map Clause.cell) other p
  | .numericFor v start limit step body p => .numericFor v start limit step body p
  | .genericFor ns es body p => .genericFor ns es body p
  | .assign ts vs p => .assign ts vs p
  | .locals ns vs p => .locals ns vs p
  | .localFunction n f p => .localFunction n f p
  | .call c p => .call c p
  | .ret vs p => .ret vs p

def Block.cell (b : Block) : BlockCell Stat := ⟨b.stats, b.place⟩

/-- A node of a tree over the trees below it. -/
def Node.cell : Node → Cell Exp Stat Block
  | .block b => .block b.cell
  | .stat s => .stat s.cell
  | .exp e => .exp e.cell

/-! ## Cells without their parts -/

section

variable {E S B : Type}

def FieldCell.blank (x : FieldCell E) : FieldCell Unit := ⟨x.key.map fun _ => (), ()⟩

def ExpCell.blank : ExpCell E B → ExpCell Unit Unit
  | .nil p => .nil p
  | .boolean b p => .boolean b p
  | .vararg p => .vararg p
  | .integer n p => .integer n p
  | .float x p => .float x p
  | .string s p => .string s p
  | .unary op _ p => .unary op () p
  | .binary op _ _ p => .binary op () () p
  | .table fields p => .table (fields.map FieldCell.blank) p
  | .function ps v m _ p => .function ps v m () p
  | .name s p => .name s p
  | .parens _ p => .parens () p
  | .index _ _ p => .index () () p
  | .call _ m args p => .call () (m.map fun _ => ()) (.replicate args.length ()) p
  | .bad p => .bad p

def StatCell.blank : StatCell E B → StatCell Unit Unit
  | .breakOut p => .breakOut p
  | .label n p => .label n p
  | .goto n p => .goto n p
  | .scope _ p => .scope () p
  | .whileLoop _ _ p => .whileLoop () () p
  | .repeatLoop _ _ p => .repeatLoop () () p
  | .branch clauses other p =>
    .branch (.replicate clauses.length ⟨(), ()⟩) (other.map fun _ => ()) p
  | .numericFor v _ _ step _ p => .numericFor v () () (step.map fun _ => ()) () p
  | .genericFor ns es _ p => .genericFor ns (.replicate es.length ()) () p
  | .assign ts vs p => .assign (.replicate ts.length ()) (.replicate vs.length ()) p
  | .locals ns vs p => .locals ns (.replicate vs.length ()) p
  | .localFunction n _ p => .localFunction n () p
  | .call _ p => .call () p
  | .ret vs p => .ret (.replicate vs.length ()) p

def BlockCell.blank (x : BlockCell S) : BlockCell Unit := ⟨.replicate x.stats.length (), x.place⟩

/-- A node without its parts. Their number is kept. -/
def Cell.blank : Cell E S B → Cell Unit Unit Unit
  | .block x => .block x.blank
  | .stat x => .stat x.blank
  | .exp x => .exp x.blank

@[simp] theorem ExpCell.place_blank (x : ExpCell E B) : x.blank.place = x.place := by
  cases x <;> rfl

@[simp] theorem StatCell.place_blank (x : StatCell E B) : x.blank.place = x.place := by
  cases x <;> rfl

@[simp] theorem BlockCell.place_blank (x : BlockCell S) : x.blank.place = x.place := rfl

@[simp] theorem Cell.place_blank (x : Cell E S B) : x.blank.place = x.place := by
  cases x <;> simp [blank, place]

@[simp] theorem ExpCell.isAssignable_blank (x : ExpCell E B) :
    x.blank.isAssignable = x.isAssignable := by
  cases x <;> rfl

@[simp] theorem ExpCell.isCall_blank (x : ExpCell E B) : x.blank.isCall = x.isCall := by
  cases x <;> rfl

@[simp] theorem ExpCell.isBad_blank (x : ExpCell E B) : x.blank.isBad = x.isBad := by
  cases x <;> rfl

@[simp] theorem ExpCell.keepsParens_blank (x : ExpCell E B) :
    x.blank.keepsParens = x.keepsParens := by
  cases x <;> rfl

end

namespace Exp

@[simp] theorem place_cell (e : Exp) : e.cell.place = e.place := by
  cases e <;> rfl

@[simp] theorem isAssignable_cell (e : Exp) : e.cell.isAssignable = e.isAssignable := by
  cases e <;> rfl

@[simp] theorem isCall_cell (e : Exp) : e.cell.isCall = e.isCall := by
  cases e <;> rfl

@[simp] theorem isBad_cell (e : Exp) : e.cell.isBad = e.isBad := by
  cases e <;> rfl

@[simp] theorem keepsParens_cell (e : Exp) : e.cell.keepsParens = e.keepsParens := by
  cases e <;> rfl

end Exp

@[simp] theorem Stat.place_cell (s : Stat) : s.cell.place = s.place := by
  cases s <;> rfl

namespace Node

@[simp] theorem place_cell (n : Node) : n.cell.place = n.place := by
  cases n with
  | block b => rfl
  | stat s => exact s.place_cell
  | exp e => exact e.place_cell

end Node

/-! ## Tables -/

namespace Arena

variable {a : Arena} {n k : NodeId} {ks : List NodeId}

/-- Each node has a slot for its parent. -/
structure Even (a : Arena) : Prop where
  blocks : a.blockParents.size = a.blocks.size
  stats : a.statParents.size = a.stats.size
  exps : a.expParents.size = a.exps.size

theorem even_empty : Even {} := ⟨rfl, rfl, rfl⟩

@[simp] theorem cell?_setParent (a : Arena) (n k m : NodeId) :
    (a.setParent n k).cell? m = a.cell? m := by
  cases k <;> cases m <;> rfl

/-- Only the slot that is set changes, if there is such a slot. -/
theorem getElem?_setSlot (table : Array (Option NodeId)) (i j : Nat) (n : NodeId) :
    (table.setIfInBounds i (some n))[j]? =
      if j = i then table[j]?.map fun _ => some n else table[j]? := by
  rw [Array.getElem?_setIfInBounds]
  by_cases h : i = j
  · subst h
    by_cases lt : i < table.size <;> simp [lt]
  · simp [h, Ne.symm h]

theorem parent?_setParent (a : Arena) (n k m : NodeId) :
    (a.setParent n k).parent? m =
      if m = k then (a.parent? m).map fun _ => some n else a.parent? m := by
  cases k <;> cases m <;>
    simp [setParent, parent?, getElem?_setSlot, BlockId.ext_iff, StatId.ext_iff, ExpId.ext_iff]

@[simp] theorem cell?_link (a : Arena) (ks : List NodeId) (n m : NodeId) :
    (a.link ks n).cell? m = a.cell? m := by
  unfold link
  induction ks generalizing a with
  | nil => rfl
  | cons k ks ih => rw [List.foldl_cons, ih, cell?_setParent]

theorem parent?_link (a : Arena) (ks : List NodeId) (n m : NodeId) :
    (a.link ks n).parent? m =
      if m ∈ ks then (a.parent? m).map fun _ => some n else a.parent? m := by
  unfold link
  induction ks generalizing a with
  | nil => rfl
  | cons k ks ih =>
    rw [List.foldl_cons, ih, parent?_setParent]
    by_cases first : m = k <;> by_cases rest : m ∈ ks <;> simp [first, rest, Function.comp_def]

/-- Linking changes none of the nodes. -/
theorem nodes_link (a : Arena) (ks : List NodeId) (n : NodeId) :
    (a.link ks n).blocks = a.blocks ∧ (a.link ks n).stats = a.stats ∧
      (a.link ks n).exps = a.exps := by
  unfold link
  induction ks generalizing a with
  | nil => exact ⟨rfl, rfl, rfl⟩
  | cons k ks ih =>
    rw [List.foldl_cons]
    cases k <;> exact ih _

theorem Even.link (h : a.Even) (ks : List NodeId) (n : NodeId) : (a.link ks n).Even := by
  unfold Arena.link
  induction ks generalizing a with
  | nil => exact h
  | cons k ks ih =>
    refine ih ?_
    cases k <;> exact ⟨by simp [setParent, h.blocks], by simp [setParent, h.stats],
      by simp [setParent, h.exps]⟩

/-- The id of the next node of the kind of `x`. -/
def next (a : Arena) : Cell ExpId StatId BlockId → NodeId
  | .block _ => .block ⟨a.blocks.size⟩
  | .stat _ => .stat ⟨a.stats.size⟩
  | .exp _ => .exp ⟨a.exps.size⟩

/-- One node more, with an empty slot for its parent. -/
def push (a : Arena) : Cell ExpId StatId BlockId → Arena
  | .block x => { a with blocks := a.blocks.push x, blockParents := a.blockParents.push none }
  | .stat x => { a with stats := a.stats.push x, statParents := a.statParents.push none }
  | .exp x => { a with exps := a.exps.push x, expParents := a.expParents.push none }

variable (x : Cell ExpId StatId BlockId)

theorem cell?_next (a : Arena) : a.cell? (a.next x) = none := by
  cases x <;> simp [next, cell?]

theorem cell?_push (a : Arena) (k : NodeId) :
    (a.push x).cell? k = if k = a.next x then some x else a.cell? k := by
  cases x <;> cases k <;>
    simp [push, next, cell?, Array.getElem?_push, BlockId.ext_iff, StatId.ext_iff, ExpId.ext_iff]
  all_goals split <;> simp

theorem Even.parent?_push (h : a.Even) (k : NodeId) :
    (a.push x).parent? k = if k = a.next x then some none else a.parent? k := by
  cases x <;> cases k <;>
    simp [push, next, parent?, Array.getElem?_push, BlockId.ext_iff, StatId.ext_iff,
      ExpId.ext_iff, h.blocks, h.stats, h.exps]

theorem Even.push (h : a.Even) : (a.push x).Even := by
  cases x with
  | block x => exact ⟨by simp [Arena.push, h.blocks], h.stats, h.exps⟩
  | stat x => exact ⟨h.blocks, by simp [Arena.push, h.stats], h.exps⟩
  | exp x => exact ⟨h.blocks, h.stats, by simp [Arena.push, h.exps]⟩

theorem next_link (a : Arena) (ks : List NodeId) (n : NodeId) :
    (a.link ks n).next x = a.next x := by
  obtain ⟨blocks, stats, exps⟩ := a.nodes_link ks n
  cases x <;> simp [next, blocks, stats, exps]

/-- The arena `a'` has one node more than `a`. It has no parent, and is the parent of its parts. -/
structure Adds (a a' : Arena) (n : NodeId) (x : Cell ExpId StatId BlockId) : Prop where
  fresh : a.cell? n = none
  even : a'.Even
  cell : ∀ k, a'.cell? k = if k = n then some x else a.cell? k
  parent : ∀ k, a'.parent? k =
    if k = n then some none
    else if k ∈ x.ids then (a.parent? k).map fun _ => some n
    else a.parent? k

theorem Even.adds (h : a.Even) :
    a.Adds ((a.link (x.ids) (a.next x)).push x) (a.next x) x where
  fresh := a.cell?_next x
  even := (h.link _ _).push x
  cell k := by rw [cell?_push, next_link, cell?_link]
  parent k := by rw [(h.link _ _).parent?_push, next_link, parent?_link]

theorem Even.adds_block (h : a.Even) (x : BlockCell StatId) :
    a.Adds (a.addBlock x).2 (.block (a.addBlock x).1) (.block x) := h.adds (.block x)

theorem Even.adds_stat (h : a.Even) (x : StatCell ExpId BlockId) :
    a.Adds (a.addStat x).2 (.stat (a.addStat x).1) (.stat x) := h.adds (.stat x)

theorem Even.adds_exp (h : a.Even) (x : ExpCell ExpId BlockId) :
    a.Adds (a.addExp x).2 (.exp (a.addExp x).1) (.exp x) := h.adds (.exp x)

end Arena

end LuaFront
