import LuaFront.Tree.Node

/-!
# Nodes in an arena

Reading a source puts its nodes into an `Arena`: one table each for blocks, statements and
expressions, in which nodes refer to each other by typed ids, and three more tables with the parent
of each node. A node is added when its children are there already. It is linked to them at that
moment, and has no parent itself until it is added to one.

A `Chunk` is an arena with the id of its root block. `Chunk.nodes` lists the nodes below the root,
and `Arena.ancestors` goes up from a node. Nothing in the tables says that these loops end. They are
cut off after a given number of rounds, and answer `none` then, as they do for an id without a node.

What an arena holds for an id is a `Cell`: a node with ids in the place of its parts.
-/

namespace LuaFront

/-! ## Cells -/

/-- A field of a table constructor, with its key if it has one. -/
structure FieldCell (E : Type) where
  key : Option E
  value : E
deriving DecidableEq

/-- A condition with the block that it guards. -/
structure ClauseCell (E B : Type) where
  condition : E
  body : B
deriving DecidableEq

/-- An expression over its parts. -/
inductive ExpCell (E B : Type) where
  | nil (place : Location)
  | boolean (value : Bool) (place : Location)
  | vararg (place : Location)
  | integer (value : Int64) (place : Location)
  | float (value : Float) (place : Location)
  | string (value : String) (place : Location)
  | unary (op : UnaryOp) (operand : E) (place : Location)
  | binary (op : BinaryOp) (lhs rhs : E) (place : Location)
  | table (fields : List (FieldCell E)) (place : Location)
  | function (params : List Ident) (isVararg isMethod : Bool) (body : B) (place : Location)
  | name (text : String) (place : Location)
  | parens (inner : E) (place : Location)
  | index (object key : E) (place : Location)
  | call (callee : E) (method : Option E) (args : List E) (place : Location)
  | bad (place : Location)

/-- A statement over its parts. -/
inductive StatCell (E B : Type) where
  | breakOut (place : Location)
  | label (name : Ident) (place : Location)
  | goto (name : Ident) (place : Location)
  | scope (body : B) (place : Location)
  | whileLoop (condition : E) (body : B) (place : Location)
  | repeatLoop (body : B) (condition : E) (place : Location)
  | branch (clauses : List (ClauseCell E B)) (otherwise : Option B) (place : Location)
  | numericFor (var : Ident) (start limit : E) (step : Option E) (body : B) (place : Location)
  | genericFor (names : List Ident) (exps : List E) (body : B) (place : Location)
  | assign (targets values : List E) (place : Location)
  | locals (names : List Ident) (values : List E) (place : Location)
  | localFunction (name : Ident) (function : E) (place : Location)
  | call (call : E) (place : Location)
  | ret (values : List E) (place : Location)

/-- A block over its statements. -/
structure BlockCell (S : Type) where
  stats : List S
  place : Location
deriving DecidableEq

/-- A node over its parts. -/
inductive Cell (E S B : Type) where
  | block (x : BlockCell S)
  | stat (x : StatCell E B)
  | exp (x : ExpCell E B)

section

variable {E S B α : Type}

/-- The location of an expression. -/
def ExpCell.place : ExpCell E B → Location
  | .nil p | .boolean _ p | .vararg p | .integer _ p | .float _ p | .string _ p | .unary _ _ p
  | .binary _ _ _ p | .table _ p | .function _ _ _ _ p | .name _ p | .parens _ p | .index _ _ p
  | .call _ _ _ p | .bad p => p

/-- The location of a statement. -/
def StatCell.place : StatCell E B → Location
  | .breakOut p | .label _ p | .goto _ p | .scope _ p | .whileLoop _ _ p | .repeatLoop _ _ p
  | .branch _ _ p | .numericFor _ _ _ _ _ p | .genericFor _ _ _ p | .assign _ _ p | .locals _ _ p
  | .localFunction _ _ p | .call _ p | .ret _ p => p

/-- The location of a node. -/
def Cell.place : Cell E S B → Location
  | .block x => x.place
  | .stat x => x.place
  | .exp x => x.place

/-- The key of a field if there is one, and the value. -/
def FieldCell.parts (x : FieldCell E) : List E := x.key.toList ++ [x.value]

/-- The parts of an expression in the order of the program text. -/
def ExpCell.children (exp : E → α) (block : B → α) : ExpCell E B → List α
  | .nil _ | .boolean .. | .vararg _ | .integer .. | .float .. | .string .. | .name ..
  | .bad _ => []
  | .unary _ operand _ => [exp operand]
  | .binary _ lhs rhs _ => [exp lhs, exp rhs]
  | .table fields _ => fields.flatMap fun f => f.parts.map exp
  | .function _ _ _ body _ => [block body]
  | .parens inner _ => [exp inner]
  | .index object key _ => [exp object, exp key]
  | .call callee method args _ => exp callee :: (method.toList.map exp ++ args.map exp)

/-- The parts of a statement in the order of the program text. -/
def StatCell.children (exp : E → α) (block : B → α) : StatCell E B → List α
  | .breakOut _ | .label .. | .goto .. => []
  | .scope body _ => [block body]
  | .whileLoop condition body _ => [exp condition, block body]
  | .repeatLoop body condition _ => [block body, exp condition]
  | .branch clauses otherwise _ =>
    (clauses.flatMap fun c => [exp c.condition, block c.body]) ++ otherwise.toList.map block
  | .numericFor _ start limit step body _ =>
    exp start :: exp limit :: (step.toList.map exp ++ [block body])
  | .genericFor _ exps body _ => exps.map exp ++ [block body]
  | .assign targets values _ => targets.map exp ++ values.map exp
  | .locals _ values _ => values.map exp
  | .localFunction _ function _ => [exp function]
  | .call c _ => [exp c]
  | .ret values _ => values.map exp

/-- The parts of a node in the order of the program text. -/
def Cell.children (exp : E → α) (stat : S → α) (block : B → α) : Cell E S B → List α
  | .block x => x.stats.map stat
  | .stat x => x.children exp block
  | .exp x => x.children exp block

namespace ExpCell

/-- Whether an expression can stand on the left of an assignment. -/
def isAssignable : ExpCell E B → Bool
  | .name .. | .index .. => true
  | _ => false

def isCall : ExpCell E B → Bool
  | .call .. => true
  | _ => false

def isBad : ExpCell E B → Bool
  | .bad .. => true
  | _ => false

/-- Whether parentheses around an expression change its meaning. -/
def keepsParens : ExpCell E B → Bool
  | .vararg .. | .call .. | .name .. | .index .. => true
  | _ => false

end ExpCell

end

/-! ## Ids -/

@[ext]
structure BlockId where
  index : Nat
deriving DecidableEq, Repr

@[ext]
structure StatId where
  index : Nat
deriving DecidableEq, Repr

@[ext]
structure ExpId where
  index : Nat
deriving DecidableEq, Repr

/-- The id of any node. -/
inductive NodeId where
  | block (i : BlockId)
  | stat (i : StatId)
  | exp (i : ExpId)
deriving DecidableEq, Repr

/-- The ids of the parts of a node. -/
def Cell.ids (x : Cell ExpId StatId BlockId) : List NodeId := x.children .exp .stat .block

/-! ## Tables -/

/-- The nodes of a source, and their parents as far as they have one. -/
structure Arena where
  blocks : Array (BlockCell StatId) := #[]
  stats : Array (StatCell ExpId BlockId) := #[]
  exps : Array (ExpCell ExpId BlockId) := #[]
  blockParents : Array (Option NodeId) := #[]
  statParents : Array (Option NodeId) := #[]
  expParents : Array (Option NodeId) := #[]

namespace Arena

/-- What the arena holds for an id. -/
def cell? (a : Arena) : NodeId → Option (Cell ExpId StatId BlockId)
  | .block i => a.blocks[i.index]?.map .block
  | .stat i => a.stats[i.index]?.map .stat
  | .exp i => a.exps[i.index]?.map .exp

/-- The entry of an id in the table of parents. -/
def parent? (a : Arena) : NodeId → Option (Option NodeId)
  | .block i => a.blockParents[i.index]?
  | .stat i => a.statParents[i.index]?
  | .exp i => a.expParents[i.index]?

/-- The ids of the direct children of a node, in the order of the program text. -/
def children? (a : Arena) (n : NodeId) : Option (List NodeId) := (a.cell? n).map (·.ids)

/-- The children of a node of the arena. -/
def children (a : Arena) (n : NodeId) : List NodeId := (a.children? n).getD []

/-- The node that directly contains a node of the arena. -/
def parent (a : Arena) (n : NodeId) : Option NodeId := (a.parent? n).join

/-- The parent of an expression if it is an expression too. -/
def parentExp (a : Arena) (i : ExpId) : Option ExpId :=
  match a.parent (.exp i) with
  | some (.exp j) => some j
  | _ => none

/-- The location of a node of the arena. -/
def place (a : Arena) (n : NodeId) : Location := ((a.cell? n).map (·.place)).getD {}

/-- The expression of an id that is known to be in the arena. -/
def exp (a : Arena) (i : ExpId) : ExpCell ExpId BlockId := a.exps[i.index]?.getD (.bad {})

/-- The statement of an id that is known to be in the arena. -/
def stat (a : Arena) (i : StatId) : StatCell ExpId BlockId := a.stats[i.index]?.getD (.breakOut {})

/-! ## Adding nodes -/

/-- Notes the parent of a node. -/
def setParent (a : Arena) (parent : NodeId) : NodeId → Arena
  | .block i => { a with blockParents := a.blockParents.setIfInBounds i.index (some parent) }
  | .stat i => { a with statParents := a.statParents.setIfInBounds i.index (some parent) }
  | .exp i => { a with expParents := a.expParents.setIfInBounds i.index (some parent) }

/-- Notes the parent of several nodes. -/
def link (a : Arena) (children : List NodeId) (parent : NodeId) : Arena :=
  children.foldl (fun a c => a.setParent parent c) a

/-- Adds a block, and links its statements to it. -/
def addBlock (a : Arena) (x : BlockCell StatId) : BlockId × Arena :=
  let i : BlockId := ⟨a.blocks.size⟩
  let a := a.link (x.stats.map .stat) (.block i)
  (i, { a with blocks := a.blocks.push x, blockParents := a.blockParents.push none })

/-- Adds a statement, and links its parts to it. -/
def addStat (a : Arena) (x : StatCell ExpId BlockId) : StatId × Arena :=
  let i : StatId := ⟨a.stats.size⟩
  let a := a.link (x.children .exp .block) (.stat i)
  (i, { a with stats := a.stats.push x, statParents := a.statParents.push none })

/-- Adds an expression, and links its parts to it. -/
def addExp (a : Arena) (x : ExpCell ExpId BlockId) : ExpId × Arena :=
  let i : ExpId := ⟨a.exps.size⟩
  let a := a.link (x.children .exp .block) (.exp i)
  (i, { a with exps := a.exps.push x, expParents := a.expParents.push none })

/-! ## Going through an arena -/

/-- Lists the nodes on the stack, each followed by those below it, if that takes no more than
`rounds` rounds. -/
def walk (a : Arena) (rounds : Nat) (stack : List NodeId) (listed : Array NodeId) :
    Option (Array NodeId) :=
  match rounds, stack with
  | 0, _ => none
  | _ + 1, [] => some listed
  | rounds + 1, n :: stack => do
    let children ← a.children? n
    a.walk rounds (children ++ stack) (listed.push n)

/-- The nodes that contain a node, nearest first, if going up to the last one takes no more than
`rounds` rounds. -/
def ancestors (a : Arena) (rounds : Nat) (n : NodeId) : Option (List NodeId) :=
  match rounds with
  | 0 => none
  | rounds + 1 => do
    match ← a.parent? n with
    | none => pure []
    | some parent =>
      let above ← a.ancestors rounds parent
      pure (parent :: above)

end Arena

/-- The arena of a whole source with its top block. -/
structure Chunk extends Arena where
  root : BlockId

/-- All nodes below the root, each in front of its children, if listing them takes no more than
`rounds` rounds. -/
def Chunk.nodes (c : Chunk) (rounds : Nat) : Option (Array NodeId) :=
  c.walk rounds [.block c.root] #[]

end LuaFront
