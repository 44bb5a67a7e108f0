import LuaFront.Tree

/-!
# Nodes of a tree

A `Node` is a block, a statement or an expression. Its `children` are the nodes that it is directly
made of, in the order of the program text.

An `Outline` is a node with the outlines of its children. `Outline.entries` lists all its nodes,
each in front of its children. A node is known by its number in this list, and an `Entry` has the
numbers of the nodes around it. An arena lists its nodes in the same order.
-/

namespace LuaFront

/-- A node of a tree. -/
inductive Node where
  | block (b : Block)
  | stat (s : Stat)
  | exp (e : Exp)

namespace Node

/-- The location of a node. -/
def place : Node → Location
  | block b => b.place
  | stat s => s.place
  | exp e => e.place

/-- The nodes of a field: the key if there is one, and the value. -/
def ofField : Field → List Node
  | .item value => [exp value]
  | .keyed key value => [exp key, exp value]

/-- The nodes of a condition and the block it guards. -/
def ofClause : Clause → List Node
  | .mk condition body => [exp condition, block body]

/-- The nodes that a node is directly made of. -/
def children : Node → List Node
  | block b => b.stats.map stat
  | stat s => match s with
    | .breakOut _ | .label .. | .goto .. => []
    | .scope body _ => [block body]
    | .whileLoop condition body _ => [exp condition, block body]
    | .repeatLoop body condition _ => [block body, exp condition]
    | .branch clauses otherwise _ => clauses.flatMap ofClause ++ otherwise.toList.map block
    | .numericFor _ start limit step body _ =>
      exp start :: exp limit :: (step.toList.map exp ++ [block body])
    | .genericFor _ exps body _ => exps.map exp ++ [block body]
    | .assign targets values _ => targets.map exp ++ values.map exp
    | .locals _ values _ => values.map exp
    | .localFunction _ function _ => [exp function]
    | .call call _ => [exp call]
    | .ret values _ => values.map exp
  | exp e => match e with
    | .nil _ | .boolean .. | .vararg _ | .integer .. | .float .. | .string .. | .name ..
    | .bad _ => []
    | .unary _ operand _ => [exp operand]
    | .binary _ lhs rhs _ => [exp lhs, exp rhs]
    | .table fields _ => fields.flatMap ofField
    | .function _ _ _ body _ => [block body]
    | .parens inner _ => [exp inner]
    | .index object key _ => [exp object, exp key]
    | .call callee method args _ => exp callee :: (method.toList.map exp ++ args.map exp)

/-- The names that a node declares or refers to. -/
def idents : Node → List Ident
  | stat (.label name _) | stat (.goto name _) | stat (.numericFor name ..)
  | stat (.localFunction name ..) => [name]
  | stat (.genericFor names ..) | stat (.locals names ..) => names
  | exp (.function params ..) => params
  | _ => []

end Node

/-- A node with the outlines of its children. -/
inductive Outline where
  | mk (node : Node) (children : List Outline)

mutual

/-- The outline of an expression. -/
def Exp.outline : Exp → Outline
  | .nil p => .mk (.exp (.nil p)) []
  | .boolean b p => .mk (.exp (.boolean b p)) []
  | .vararg p => .mk (.exp (.vararg p)) []
  | .integer n p => .mk (.exp (.integer n p)) []
  | .float x p => .mk (.exp (.float x p)) []
  | .string s p => .mk (.exp (.string s p)) []
  | .unary op x p => .mk (.exp (.unary op x p)) [x.outline]
  | .binary op x y p => .mk (.exp (.binary op x y p)) [x.outline, y.outline]
  | .table fields p => .mk (.exp (.table fields p)) (Field.outlines fields)
  | .function ps v m body p => .mk (.exp (.function ps v m body p)) [body.outline]
  | .name s p => .mk (.exp (.name s p)) []
  | .parens x p => .mk (.exp (.parens x p)) [x.outline]
  | .index x k p => .mk (.exp (.index x k p)) [x.outline, k.outline]
  | .call f m args p =>
    .mk (.exp (.call f m args p)) (f.outline :: (Exp.outline? m ++ Exp.outlines args))
  | .bad p => .mk (.exp (.bad p)) []

/-- The outlines of expressions. -/
def Exp.outlines : List Exp → List Outline
  | [] => []
  | e :: es => e.outline :: Exp.outlines es

/-- The outline of an expression that may be missing. -/
def Exp.outline? : Option Exp → List Outline
  | none => []
  | some e => [e.outline]

/-- The outlines of the keys and values of fields. -/
def Field.outlines : List Field → List Outline
  | [] => []
  | .item value :: fields => value.outline :: Field.outlines fields
  | .keyed key value :: fields => key.outline :: value.outline :: Field.outlines fields

/-- The outline of a block. -/
def Block.outline : Block → Outline
  | .mk stats p => .mk (.block (.mk stats p)) (Stat.outlines stats)

/-- The outline of a block that may be missing. -/
def Block.outline? : Option Block → List Outline
  | none => []
  | some b => [b.outline]

/-- The outline of a statement. -/
def Stat.outline : Stat → Outline
  | .breakOut p => .mk (.stat (.breakOut p)) []
  | .label n p => .mk (.stat (.label n p)) []
  | .goto n p => .mk (.stat (.goto n p)) []
  | .scope body p => .mk (.stat (.scope body p)) [body.outline]
  | .whileLoop c body p => .mk (.stat (.whileLoop c body p)) [c.outline, body.outline]
  | .repeatLoop body c p => .mk (.stat (.repeatLoop body c p)) [body.outline, c.outline]
  | .branch clauses other p =>
    .mk (.stat (.branch clauses other p)) (Clause.outlines clauses ++ Block.outline? other)
  | .numericFor v start limit step body p =>
    .mk (.stat (.numericFor v start limit step body p))
      (start.outline :: limit.outline :: (Exp.outline? step ++ [body.outline]))
  | .genericFor ns es body p =>
    .mk (.stat (.genericFor ns es body p)) (Exp.outlines es ++ [body.outline])
  | .assign ts vs p => .mk (.stat (.assign ts vs p)) (Exp.outlines ts ++ Exp.outlines vs)
  | .locals ns vs p => .mk (.stat (.locals ns vs p)) (Exp.outlines vs)
  | .localFunction n f p => .mk (.stat (.localFunction n f p)) [f.outline]
  | .call c p => .mk (.stat (.call c p)) [c.outline]
  | .ret vs p => .mk (.stat (.ret vs p)) (Exp.outlines vs)

/-- The outlines of statements. -/
def Stat.outlines : List Stat → List Outline
  | [] => []
  | s :: ss => s.outline :: Stat.outlines ss

/-- The outlines of the conditions and blocks of clauses. -/
def Clause.outlines : List Clause → List Outline
  | [] => []
  | .mk c body :: clauses => c.outline :: body.outline :: Clause.outlines clauses

end

namespace Outline

/-- The node at the top. -/
def node : Outline → Node
  | .mk n _ => n

/-- The outlines below the top. -/
def children : Outline → List Outline
  | .mk _ children => children

end Outline

/-! ## Outlines and children -/

theorem Exp.outlines_eq_map (es : List Exp) : Exp.outlines es = es.map Exp.outline := by
  induction es with
  | nil => rfl
  | cons e es ih => simp [Exp.outlines, ih]

theorem Stat.outlines_eq_map (ss : List Stat) : Stat.outlines ss = ss.map Stat.outline := by
  induction ss with
  | nil => rfl
  | cons s ss ih => simp [Stat.outlines, ih]

theorem Exp.outline?_eq_map (e : Option Exp) : Exp.outline? e = e.toList.map Exp.outline := by
  cases e <;> rfl

theorem Block.outline?_eq_map (b : Option Block) :
    Block.outline? b = b.toList.map Block.outline := by
  cases b <;> rfl

@[simp] theorem Exp.node_outline (e : Exp) : e.outline.node = .exp e := by
  cases e <;> rfl

@[simp] theorem Stat.node_outline (s : Stat) : s.outline.node = .stat s := by
  cases s <;> rfl

@[simp] theorem Block.node_outline (b : Block) : b.outline.node = .block b := by
  cases b; rfl

/-! ## Numbers of nodes -/

namespace Outline

mutual

/-- The number of nodes. -/
def size : Outline → Nat
  | .mk _ children => 1 + sizes children

/-- The number of nodes of several outlines. -/
def sizes : List Outline → Nat
  | [] => 0
  | t :: ts => t.size + sizes ts

end

/-- The numbers of the top nodes of outlines that are listed one after the other from `start` on. -/
def starts (start : Nat) : List Outline → List Nat
  | [] => []
  | t :: ts => start :: starts (start + t.size) ts

/-- A node with the numbers of the nodes around it. -/
structure Entry where
  node : Node
  /-- The nodes that contain it, nearest first. -/
  ancestors : List Nat
  children : List Nat

namespace Entry

/-- The node that directly contains it. -/
def parent? (e : Entry) : Option Nat := e.ancestors.head?

end Entry

mutual

/-- The entries of an outline whose top node has the number `index`. -/
def entriesFrom (ancestors : List Nat) (index : Nat) : Outline → List Entry
  | .mk n children =>
    ⟨n, ancestors, starts (index + 1) children⟩ ::
      allEntriesFrom (index :: ancestors) (index + 1) children

/-- The entries of outlines that are listed one after the other from the number `index` on. -/
def allEntriesFrom (ancestors : List Nat) (index : Nat) : List Outline → List Entry
  | [] => []
  | t :: ts => t.entriesFrom ancestors index ++ allEntriesFrom ancestors (index + t.size) ts

end

/-- All nodes, each in front of its children. -/
def entries (t : Outline) : List Entry := t.entriesFrom [] 0

mutual

theorem length_entriesFrom (ancestors : List Nat) (index : Nat) :
    ∀ t : Outline, (t.entriesFrom ancestors index).length = t.size
  | .mk _ children => by
    simp [entriesFrom, size, length_allEntriesFrom _ _ children, Nat.add_comm]

theorem length_allEntriesFrom (ancestors : List Nat) (index : Nat) :
    ∀ ts : List Outline, (allEntriesFrom ancestors index ts).length = sizes ts
  | [] => rfl
  | t :: ts => by
    simp [allEntriesFrom, sizes, length_entriesFrom _ _ t, length_allEntriesFrom _ _ ts]

end

end Outline

end LuaFront
