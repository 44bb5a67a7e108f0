import LuaFront.Doc.Ty

/-!
# Types from tags

The tags of a comment block describe a function or a class together. `FunctionTags` and `ClassTags`
are what they say, and `toTy` is the type that it comes to.
-/

namespace LuaFront.Doc

/-- The types behind a `@return` tag, with its comment. -/
structure ReturnTag where
  types : List Ty
  comment : String := ""

/-- What `@param`, `@vararg` and `@return` tags say about a function. -/
structure FunctionTags where
  params : List (Param Ty)
  vararg : Option Ty := none
  returns : List ReturnTag

namespace FunctionTags

/-- How the parameter that takes any number of values is called. -/
def varargName : String := "..."

/-- The parameter that a `@vararg` tag declares; it stands where the name of its type does. -/
def varargParam (type : Ty) : Param Ty :=
  ⟨⟨varargName, (type.name?.map (·.location)).getD {}⟩, type, true, ""⟩

/-- All parameters. A `@vararg` tag counts only if no `@param` tag has declared its parameter. -/
def allParams (t : FunctionTags) : List (Param Ty) :=
  if t.params.any (·.name.text == varargName) then t.params
  else t.params ++ (t.vararg.map varargParam).toList

/-- All returned values, each with the comment of its tag. -/
def allReturns (t : FunctionTags) : List (Return Ty) :=
  t.returns.flatMap fun tag => tag.types.map fun type => ⟨type, tag.comment⟩

/-- The type of the function. -/
def toTy (t : FunctionTags) : Ty := .function t.allParams t.allReturns ""

end FunctionTags

/-- What a `@class` tag and the `@generic` and `@field` tags below it say about a class. -/
structure ClassTags where
  name : Name
  parents : List Ty
  /-- The type parameters of each `@generic` tag. -/
  generics : List (List (Slot Ty))
  fields : List (Member Ty)
  comment : String := ""

namespace ClassTags

/-- The type of the class. -/
def toTy (t : ClassTags) : Ty := .classType t.name t.parents t.generics.flatten t.fields t.comment

end ClassTags

example : String.ofList (FunctionTags.toTy ⟨[⟨⟨"a", {}⟩, .named ⟨"number", {}⟩ false, false, ""⟩],
    some (.named ⟨"any", {}⟩ false), []⟩).render = "fun(a: number, ...?: any)" := by
  decide +kernel

end LuaFront.Doc
