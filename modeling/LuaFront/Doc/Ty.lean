import LuaFront.Decimal.Style
import LuaFront.Position
import LuaFront.Text.Quote

/-!
# Documented types

The types that documentation tags describe. They are plain data: names are kept as they are written,
and nothing is looked up. `Ty.render` writes a type the way tags do, `Ty.union` joins two types, and
`Ty.same` compares two types, with locations and comments.
-/

namespace LuaFront.Doc

/-- A name where it is written. -/
structure Name where
  text : String
  location : Location := {}
deriving DecidableEq, Repr, Inhabited

/-- Types with a single value. -/
inductive Literal where
  | nil
  | boolean (value : Bool)
  | number (value : Float)
  | string (value : String)
deriving Repr, Inhabited

/-- A name that may have a type: a field of a table, or a type parameter with its bound. -/
structure Slot (α : Type) where
  name : Name
  type : Option α
deriving Repr, Inhabited

/-- A parameter of a function; three dots stand for any number of them. -/
structure Param (α : Type) where
  name : Name
  type : α
  isOptional : Bool := false
  comment : String := ""
deriving Repr, Inhabited

/-- A value that a function returns. -/
structure Return (α : Type) where
  type : α
  comment : String := ""
deriving Repr, Inhabited

/-- Who a field of a class is for. -/
inductive Visibility where
  | everyone
  | subclasses
  | owner
deriving DecidableEq, Repr, Inhabited

/-- How a visibility is written in front of a field. -/
def Visibility.spelling : Visibility → String
  | .everyone => "public"
  | .subclasses => "protected"
  | .owner => "private"

/-- A field of a class. -/
structure Member (α : Type) where
  name : Name
  type : α
  isOptional : Bool := false
  visibility : Visibility := .everyone
  comment : String := ""
deriving Repr, Inhabited

/-- Types. -/
inductive Ty where
  | literal (value : Literal)
  | table (fields : List (Slot Ty))
  | array (element : Ty)
  /-- Any one of several types. -/
  | union (alternatives : List Ty)
  /-- A type that is known by its name alone. -/
  | named (name : Name) (isParam : Bool)
  | function (params : List (Param Ty)) (returns : List (Return Ty)) (comment : String)
  /-- A named type for certain values of its parameters. -/
  | applied (name : Name) (args : List Ty)
  | classType (name : Name) (parents : List Ty) (generics : List (Slot Ty))
      (fields : List (Member Ty)) (comment : String)
  | aliasType (name : Name) (target : Ty) (comment : String)
  | enumType (name : Name) (comment : String)
deriving Inhabited

/-! ## Writing types -/

/-- The text of a literal. -/
def Literal.render : Literal → Chars
  | .nil => "nil".toList
  | .boolean value => (if value then "true" else "false").toList
  | .number value => Decimal.Style.bare.render value
  | .string value => Text.quote value.toList

/-- A slot whose type is written already. -/
def Slot.render (s : Slot Chars) : Chars :=
  s.name.text.toList ++ s.type.elim [] ([':', ' '] ++ ·)

/-- A parameter whose type is written already. -/
def Param.render (p : Param Chars) : Chars :=
  p.name.text.toList ++ (if p.isOptional then ['?'] else []) ++ [':', ' '] ++ p.type

/-- Texts with commas between them. -/
def commas (texts : List Chars) : Chars := [',', ' '].intercalate texts

namespace Ty

/-- Whether an array of these needs parentheses. -/
def isLoose : Ty → Bool
  | union _ | function .. => true
  | _ => false

mutual

/-- The text of a type. -/
def render : Ty → Chars
  | literal value => value.render
  | table fields => '\x7b' :: (commas (renderSlots fields) ++ ['\x7d'])
  | array element =>
    (if element.isLoose then '(' :: (render element ++ [')']) else render element) ++ ['[', ']']
  | union alternatives => ['|'].intercalate (renderAll alternatives)
  | named name _ => name.text.toList
  | function params returns _ =>
    "fun(".toList ++ commas (renderParams params) ++ [')'] ++
      if returns.isEmpty then [] else [':', ' '] ++ commas (renderReturns returns)
  | applied name args => name.text.toList ++ ['<'] ++ commas (renderAll args) ++ ['>']
  | classType name .. => name.text.toList
  | aliasType name .. => name.text.toList
  | enumType name _ => name.text.toList

/-- The texts of types. -/
def renderAll : List Ty → List Chars
  | [] => []
  | t :: ts => render t :: renderAll ts

/-- The text of a type that may be missing. -/
def render? : Option Ty → Option Chars
  | none => none
  | some t => some (render t)

/-- The texts of slots. -/
def renderSlots : List (Slot Ty) → List Chars
  | [] => []
  | ⟨name, type⟩ :: slots => Slot.render ⟨name, render? type⟩ :: renderSlots slots

/-- The texts of parameters. -/
def renderParams : List (Param Ty) → List Chars
  | [] => []
  | ⟨name, type, isOptional, comment⟩ :: params =>
    Param.render ⟨name, render type, isOptional, comment⟩ :: renderParams params

/-- The texts of returned values. -/
def renderReturns : List (Return Ty) → List Chars
  | [] => []
  | ⟨type, _⟩ :: returns => render type :: renderReturns returns

end

theorem renderAll_eq_map (ts : List Ty) : renderAll ts = ts.map render := by
  induction ts with
  | nil => rfl
  | cons t ts ih => simp [renderAll, ih]

/-! ## Joining types -/

/-- The types that a union is made of; any other type stands for itself. -/
def alternatives : Ty → List Ty
  | union ts => ts
  | t => [t]

/-- Either of two types; the alternatives of unions are taken over. -/
def or (t u : Ty) : Ty := union (t.alternatives ++ u.alternatives)

mutual

/-- Whether `nil` is one of the values. -/
def isNilable : Ty → Bool
  | literal .nil => true
  | named name _ => name.text == "nil"
  | union alternatives => anyNilable alternatives
  | _ => false

/-- Whether `nil` is a value of one of the types. -/
def anyNilable : List Ty → Bool
  | [] => false
  | t :: ts => isNilable t || anyNilable ts

end

/-- The name of a type that has one. -/
def name? : Ty → Option Name
  | named name _ | applied name _ | classType name .. | aliasType name .. | enumType name _ =>
    some name
  | _ => none

end Ty

/-! ## Comparing types -/

/-- Whether two literals are the same. A number that is none differs from itself. -/
def Literal.same : Literal → Literal → Bool
  | .nil, .nil => true
  | .boolean a, .boolean b => a == b
  | .number a, .number b => a == b
  | .string a, .string b => a == b
  | _, _ => false

namespace Ty

mutual

/-- Whether two types are the same, with all names, locations and comments. -/
def same : Ty → Ty → Bool
  | literal a, literal b => a.same b
  | table fs, table gs => sameSlots fs gs
  | array t, array u => same t u
  | union ts, union us => sameAll ts us
  | named n p, named m q => n == m && p == q
  | function ps rs c, function qs ss d => sameParams ps qs && sameReturns rs ss && c == d
  | applied n ts, applied m us => n == m && sameAll ts us
  | classType n ts gs fs c, classType m us hs es d =>
    n == m && sameAll ts us && sameSlots gs hs && sameMembers fs es && c == d
  | aliasType n t c, aliasType m u d => n == m && same t u && c == d
  | enumType n c, enumType m d => n == m && c == d
  | _, _ => false

/-- Whether two lists hold the same types. -/
def sameAll : List Ty → List Ty → Bool
  | [], [] => true
  | t :: ts, u :: us => same t u && sameAll ts us
  | _, _ => false

/-- Whether two types are the same or both missing. -/
def same? : Option Ty → Option Ty → Bool
  | none, none => true
  | some t, some u => same t u
  | _, _ => false

/-- Whether two lists hold the same slots. -/
def sameSlots : List (Slot Ty) → List (Slot Ty) → Bool
  | [], [] => true
  | ⟨n, t⟩ :: ss, ⟨m, u⟩ :: rs => n == m && same? t u && sameSlots ss rs
  | _, _ => false

/-- Whether two lists hold the same parameters. -/
def sameParams : List (Param Ty) → List (Param Ty) → Bool
  | [], [] => true
  | ⟨n, t, o, c⟩ :: ps, ⟨m, u, o', d⟩ :: qs =>
    n == m && same t u && o == o' && c == d && sameParams ps qs
  | _, _ => false

/-- Whether two lists hold the same returned values. -/
def sameReturns : List (Return Ty) → List (Return Ty) → Bool
  | [], [] => true
  | ⟨t, c⟩ :: rs, ⟨u, d⟩ :: ss => same t u && c == d && sameReturns rs ss
  | _, _ => false

/-- Whether two lists hold the same fields. -/
def sameMembers : List (Member Ty) → List (Member Ty) → Bool
  | [], [] => true
  | ⟨n, t, o, v, c⟩ :: ms, ⟨m, u, o', v', d⟩ :: ls =>
    n == m && same t u && o == o' && v == v' && c == d && sameMembers ms ls
  | _, _ => false

end

end Ty

end LuaFront.Doc
