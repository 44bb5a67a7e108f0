import LuaFront.Tree

/-!
# Trees without their locations

The `shape` of a tree is the tree with all its locations left out. Two trees of one shape say the
same, whatever the layout of the sources that they were read from.
-/

namespace LuaFront

/-- A name without its location. -/
def Ident.shape (n : Ident) : Ident := { n with location := {} }

mutual

/-- An expression without its locations. -/
def Exp.shape : Exp → Exp
  | .nil _ => .nil {}
  | .boolean value _ => .boolean value {}
  | .vararg _ => .vararg {}
  | .integer value _ => .integer value {}
  | .float value _ => .float value {}
  | .string value _ => .string value {}
  | .unary op operand _ => .unary op operand.shape {}
  | .binary op lhs rhs _ => .binary op lhs.shape rhs.shape {}
  | .table fields _ => .table (Field.shapes fields) {}
  | .function params isVararg isMethod body _ =>
    .function (params.map Ident.shape) isVararg isMethod body.shape {}
  | .name text _ => .name text {}
  | .parens inner _ => .parens inner.shape {}
  | .index object key _ => .index object.shape key.shape {}
  | .call callee method args _ => .call callee.shape (Exp.shape? method) (Exp.shapes args) {}
  | .bad _ => .bad {}

/-- Expressions without their locations. -/
def Exp.shapes : List Exp → List Exp
  | [] => []
  | e :: es => e.shape :: Exp.shapes es

/-- An expression that may be missing, without its locations. -/
def Exp.shape? : Option Exp → Option Exp
  | none => none
  | some e => some e.shape

/-- A field without its locations. -/
def Field.shape : Field → Field
  | .item value => .item value.shape
  | .keyed key value => .keyed key.shape value.shape

/-- Fields without their locations. -/
def Field.shapes : List Field → List Field
  | [] => []
  | f :: fs => f.shape :: Field.shapes fs

/-- A block without its locations. -/
def Block.shape : Block → Block
  | .mk stats _ => .mk (Stat.shapes stats) {}

/-- A block that may be missing, without its locations. -/
def Block.shape? : Option Block → Option Block
  | none => none
  | some b => some b.shape

/-- A statement without its locations. -/
def Stat.shape : Stat → Stat
  | .breakOut _ => .breakOut {}
  | .label name _ => .label name.shape {}
  | .goto name _ => .goto name.shape {}
  | .scope body _ => .scope body.shape {}
  | .whileLoop condition body _ => .whileLoop condition.shape body.shape {}
  | .repeatLoop body condition _ => .repeatLoop body.shape condition.shape {}
  | .branch clauses otherwise _ => .branch (Clause.shapes clauses) (Block.shape? otherwise) {}
  | .numericFor var start limit step body _ =>
    .numericFor var.shape start.shape limit.shape (Exp.shape? step) body.shape {}
  | .genericFor names exps body _ =>
    .genericFor (names.map Ident.shape) (Exp.shapes exps) body.shape {}
  | .assign targets values _ => .assign (Exp.shapes targets) (Exp.shapes values) {}
  | .locals names values _ => .locals (names.map Ident.shape) (Exp.shapes values) {}
  | .localFunction name function _ => .localFunction name.shape function.shape {}
  | .call call _ => .call call.shape {}
  | .ret values _ => .ret (Exp.shapes values) {}

/-- Statements without their locations. -/
def Stat.shapes : List Stat → List Stat
  | [] => []
  | s :: ss => s.shape :: Stat.shapes ss

/-- A condition with its block, without their locations. -/
def Clause.shape : Clause → Clause
  | .mk condition body => .mk condition.shape body.shape

/-- Conditions with their blocks, without their locations. -/
def Clause.shapes : List Clause → List Clause
  | [] => []
  | c :: cs => c.shape :: Clause.shapes cs

end

theorem Exp.shapes_eq_map (es : List Exp) : Exp.shapes es = es.map Exp.shape := by
  induction es with
  | nil => rfl
  | cons e es ih => rw [Exp.shapes, ih, List.map_cons]

theorem Field.shapes_eq_map (fs : List Field) : Field.shapes fs = fs.map Field.shape := by
  induction fs with
  | nil => rfl
  | cons f fs ih => rw [Field.shapes, ih, List.map_cons]

theorem Stat.shapes_eq_map (ss : List Stat) : Stat.shapes ss = ss.map Stat.shape := by
  induction ss with
  | nil => rfl
  | cons s ss ih => rw [Stat.shapes, ih, List.map_cons]

theorem Clause.shapes_eq_map (cs : List Clause) : Clause.shapes cs = cs.map Clause.shape := by
  induction cs with
  | nil => rfl
  | cons c cs ih => rw [Clause.shapes, ih, List.map_cons]

theorem Exp.shape?_eq_map (e : Option Exp) : Exp.shape? e = e.map Exp.shape := by
  cases e <;> rfl

theorem Block.shape?_eq_map (b : Option Block) : Block.shape? b = b.map Block.shape := by
  cases b <;> rfl

/-! ## What a shape still tells -/

@[simp] theorem Exp.isAssignable_shape (e : Exp) : e.shape.isAssignable = e.isAssignable := by
  cases e <;> rfl

@[simp] theorem Exp.isCall_shape (e : Exp) : e.shape.isCall = e.isCall := by
  cases e <;> rfl

@[simp] theorem Exp.isBad_shape (e : Exp) : e.shape.isBad = e.isBad := by
  cases e <;> rfl

@[simp] theorem Exp.keepsParens_shape (e : Exp) : e.shape.keepsParens = e.keepsParens := by
  cases e <;> rfl

end LuaFront
