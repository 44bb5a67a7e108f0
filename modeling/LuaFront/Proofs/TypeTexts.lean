import LuaFront.Proofs.TypeReading

/-!
# Types are told apart by their texts

The text of a type leaves out locations and comments, and whether a name is that of a type
parameter; `Ty.bare` is the type without them. All else can be read back from the text, for any
type in which functions and unions stand only where the text has a place for them
(`Ty.Readable`): a union is not an alternative of another one, and a function is the whole type or
the element of an array, which has parentheses around it.

* `Ty.render_bare`: the text of a type is the text of what is left of it.
* `Reading.ty_render`: a type is read back from its text, in front of any text that ends it.
* `Ty.render_eq_iff`: two types have the same text if and only if they differ in nothing but what
  texts leave out.
-/

namespace LuaFront.Doc

open Text

/-! ## What texts leave out -/

/-- A name without its location. -/
def Name.bare (n : Name) : Name := ⟨n.text, {}⟩

namespace Ty

mutual

/-- A type without locations and comments, and without what its names stand for. -/
def bare : Ty → Ty
  | literal value => literal value
  | table fields => table (bareSlots fields)
  | array element => array element.bare
  | union alternatives => union (bareAll alternatives)
  | named name _ => named name.bare false
  | function params returns _ => function (bareParams params) (bareReturns returns) ""
  | applied name args => applied name.bare (bareAll args)
  | classType name parents generics fields _ =>
    classType name.bare (bareAll parents) (bareSlots generics) (bareMembers fields) ""
  | aliasType name target _ => aliasType name.bare target.bare ""
  | enumType name _ => enumType name.bare ""

/-- Types without what texts leave out. -/
def bareAll : List Ty → List Ty
  | [] => []
  | t :: ts => t.bare :: bareAll ts

/-- A type that may be missing, without what texts leave out. -/
def bare? : Option Ty → Option Ty
  | none => none
  | some t => some t.bare

/-- Slots without what texts leave out. -/
def bareSlots : List (Slot Ty) → List (Slot Ty)
  | [] => []
  | ⟨name, type⟩ :: slots => ⟨name.bare, bare? type⟩ :: bareSlots slots

/-- Parameters without what texts leave out. -/
def bareParams : List (Param Ty) → List (Param Ty)
  | [] => []
  | ⟨name, type, isOptional, _⟩ :: params =>
    ⟨name.bare, type.bare, isOptional, ""⟩ :: bareParams params

/-- Returned values without what texts leave out. -/
def bareReturns : List (Return Ty) → List (Return Ty)
  | [] => []
  | ⟨type, _⟩ :: returns => ⟨type.bare, ""⟩ :: bareReturns returns

/-- Fields of a class without what texts leave out. -/
def bareMembers : List (Member Ty) → List (Member Ty)
  | [] => []
  | ⟨name, type, isOptional, visibility, _⟩ :: members =>
    ⟨name.bare, type.bare, isOptional, visibility, ""⟩ :: bareMembers members

end

theorem isLoose_bare (t : Ty) : t.bare.isLoose = t.isLoose := by
  cases t <;> rfl

mutual

/-- The text of a type is the text of what is left of it. -/
theorem render_bare : ∀ t : Ty, t.bare.render = t.render
  | literal _ => rfl
  | table fields => by rw [bare, render, render, renderSlots_bare fields]
  | array element => by rw [bare, render, render, isLoose_bare, render_bare element]
  | union alternatives => by rw [bare, render, render, renderAll_bare alternatives]
  | named .. => rfl
  | function params returns _ => by
    have same : (bareReturns returns).isEmpty = returns.isEmpty := by cases returns <;> rfl
    rw [bare, render, render, renderParams_bare params, renderReturns_bare returns, same]
  | applied _ args => by
    rw [bare, render, render, renderAll_bare args]
    rfl
  | classType .. => rfl
  | aliasType .. => rfl
  | enumType .. => rfl

theorem renderAll_bare : ∀ ts : List Ty, renderAll (bareAll ts) = renderAll ts
  | [] => rfl
  | t :: ts => by rw [bareAll, renderAll, renderAll, render_bare t, renderAll_bare ts]

theorem render?_bare : ∀ t : Option Ty, render? (bare? t) = render? t
  | none => rfl
  | some t => by rw [bare?, render?, render?, render_bare t]

theorem renderSlots_bare : ∀ slots : List (Slot Ty),
    renderSlots (bareSlots slots) = renderSlots slots
  | [] => rfl
  | ⟨_, type⟩ :: slots => by
    rw [bareSlots, renderSlots, renderSlots, render?_bare type, renderSlots_bare slots]
    rfl

theorem renderParams_bare : ∀ params : List (Param Ty),
    renderParams (bareParams params) = renderParams params
  | [] => rfl
  | ⟨_, type, _, _⟩ :: params => by
    rw [bareParams, renderParams, renderParams, render_bare type, renderParams_bare params]
    rfl

theorem renderReturns_bare : ∀ returns : List (Return Ty),
    renderReturns (bareReturns returns) = renderReturns returns
  | [] => rfl
  | ⟨type, _⟩ :: returns => by
    rw [bareReturns, renderReturns, renderReturns, render_bare type, renderReturns_bare returns]

end

end Ty

/-! ## Items of lists -/

/-- The text of a field of a table. -/
def Slot.text (s : Slot Ty) : Chars := Slot.render ⟨s.name, Ty.render? s.type⟩

/-- The text of a parameter. -/
def Param.text (p : Param Ty) : Chars := Param.render ⟨p.name, p.type.render, p.isOptional, ""⟩

/-- A slot without what texts leave out. -/
def Slot.bare (s : Slot Ty) : Slot Ty := ⟨s.name.bare, Ty.bare? s.type⟩

/-- A parameter without what texts leave out. -/
def Param.bare (p : Param Ty) : Param Ty := ⟨p.name.bare, p.type.bare, p.isOptional, ""⟩

/-- A returned value without what texts leave out. -/
def Return.bare (r : Return Ty) : Return Ty := ⟨r.type.bare, ""⟩

namespace Ty

theorem bareAll_eq_map (ts : List Ty) : bareAll ts = ts.map bare := by
  induction ts with
  | nil => rfl
  | cons t ts ih => rw [bareAll, ih, List.map_cons]

theorem renderSlots_eq_map (slots : List (Slot Ty)) : renderSlots slots = slots.map Slot.text := by
  induction slots with
  | nil => rfl
  | cons s slots ih => rw [renderSlots, ih, List.map_cons, Slot.text]

theorem bareSlots_eq_map (slots : List (Slot Ty)) : bareSlots slots = slots.map Slot.bare := by
  induction slots with
  | nil => rfl
  | cons s slots ih => rw [bareSlots, ih, List.map_cons, Slot.bare]

theorem renderParams_eq_map (params : List (Param Ty)) :
    renderParams params = params.map Param.text := by
  induction params with
  | nil => rfl
  | cons p params ih =>
    rw [renderParams, ih, List.map_cons]
    rfl

theorem bareParams_eq_map (params : List (Param Ty)) :
    bareParams params = params.map Param.bare := by
  induction params with
  | nil => rfl
  | cons p params ih => rw [bareParams, ih, List.map_cons, Param.bare]

theorem renderReturns_eq_map (returns : List (Return Ty)) :
    renderReturns returns = returns.map (render ·.type) := by
  induction returns with
  | nil => rfl
  | cons r returns ih => rw [renderReturns, ih, List.map_cons]

theorem bareReturns_eq_map (returns : List (Return Ty)) :
    bareReturns returns = returns.map Return.bare := by
  induction returns with
  | nil => rfl
  | cons r returns ih => rw [bareReturns, ih, List.map_cons, Return.bare]

/-! ## Types that are told apart -/

def isUnion : Ty → Bool
  | union _ => true
  | _ => false

def isFunction : Ty → Bool
  | function .. => true
  | _ => false

end Ty

/-- The words that are no names of types. -/
def reserved : List String := ["nil", "true", "false", "fun"]

/-- A name that a type can have. -/
def IsTypeName (n : Name) : Prop := n.text.toList ∈ Form.name.language ∧ n.text ∉ reserved

/-- A name that a parameter of a function can have. -/
def IsParamName (n : Name) : Prop := n.text.toList ∈ Form.name.language ∨ n.text = "..."

namespace Ty

/-- Types that are told apart by their texts. `outer` tells whether the type may be a function,
which stands alone or is the element of an array. -/
inductive Readable : (outer : Bool) → Ty → Prop
  | nil {outer} : Readable outer (literal .nil)
  | boolean {outer value} : Readable outer (literal (.boolean value))
  | string {outer value} : Readable outer (literal (.string value))
  | named {outer name isParam} : IsTypeName name → Readable outer (named name isParam)
  | applied {outer name args} : IsTypeName name → (∀ t ∈ args, Readable false t) →
      Readable outer (applied name args)
  | array {outer element} : Readable true element → Readable outer (array element)
  | table {outer fields} : (∀ f ∈ fields, f.name.text.toList ∈ Form.name.language) →
      (∀ f ∈ fields, f.type.isSome) → (∀ f ∈ fields, ∀ t ∈ f.type, Readable false t) →
      Readable outer (table fields)
  | union {outer alternatives} : 2 ≤ alternatives.length →
      (∀ t ∈ alternatives, t.isUnion = false) → (∀ t ∈ alternatives, Readable false t) →
      Readable outer (union alternatives)
  | function {params returns comment} : (∀ p ∈ params, IsParamName p.name) →
      (∀ p ∈ params, Readable false p.type) → (∀ r ∈ returns, Readable false r.type) →
      Readable true (function params returns comment)

theorem Readable.isFunction_eq {t : Ty} (h : Readable false t) : t.isFunction = false := by
  cases h <;> rfl

end Ty

namespace Reading

/-! ## Words -/

theorem ofWord_of_isTypeName {name : Name} (h : IsTypeName name) :
    ofWord name.text.toList = .named name.bare false := by
  have differ {word : String} (mem : word ∈ reserved) : name.text.toList ≠ word.toList :=
    fun same => h.2 (String.toList_inj.1 same ▸ mem)
  rw [ofWord, if_neg (differ (by decide)), if_neg (differ (by decide)),
    if_neg (differ (by decide)), String.ofList_toList]
  rfl

theorem isWordChar_of_isParamName {name : Name} (h : IsParamName name) :
    ∀ c ∈ name.text.toList, isWordChar c := by
  rcases h with h | h
  · exact (starts_of_mem_name h).1
  · rw [h]
    exact List.all_eq_true.1 (by decide)

theorem opens_of_isParamName {name : Name} (h : IsParamName name) : Opens name.text.toList := by
  refine opens_of_word ?_ (isWordChar_of_isParamName h)
  rcases h with h | h
  · obtain ⟨c, v, eq, -⟩ := (starts_of_mem_name h).2
    simp [eq]
  · simp [h]

/-! ## Items -/

section

variable {inner : Reading Ty} {n : Nat} {rest : Chars}

/-- Whether a type is read back in front of whatever ends it. -/
def Reads (inner : Reading Ty) (t : Ty) : Prop :=
  ∀ rest, Stops enders rest → inner (t.render ++ rest) = some (t.bare, rest)

theorem typed_append (text : Chars) : typed inner (':' :: ' ' :: text) = inner text := rfl

theorem slot_text {s : Slot Ty} {t : Ty} (name : s.name.text.toList ∈ Form.name.language)
    (type : s.type = some t) (reads : Reads inner t) (h : Stops enders rest) :
    slot inner (s.text ++ rest) = some (s.bare, rest) := by
  have split : s.text ++ rest = s.name.text.toList ++ ':' :: ' ' :: (t.render ++ rest) := by
    simp [Slot.text, Slot.render, type, Ty.render?]
  have cut : word (s.text ++ rest) = (s.name.text.toList, ':' :: ' ' :: (t.render ++ rest)) := by
    rw [split]
    exact (stops_cons.2 (List.mem_singleton_self ':')).word (by decide) (starts_of_mem_name name).1
  simp only [slot, cut, typed_append, reads rest h, Option.map_some, String.ofList_toList]
  rw [Slot.bare, type]
  rfl

theorem opens_slot {s : Slot Ty} (name : s.name.text.toList ∈ Form.name.language) :
    Opens s.text :=
  (opens_of_isParamName (.inl name)).append _

theorem opens_param {p : Param Ty} (name : IsParamName p.name) : Opens p.text :=
  (((opens_of_isParamName name).append _).append _).append _

theorem param_text {p : Param Ty} (name : IsParamName p.name) (reads : Reads inner p.type)
    (h : Stops enders rest) : param inner (p.text ++ rest) = some (p.bare, rest) := by
  let mark : Chars := if p.isOptional then ['?'] else []
  let behind : Chars := ':' :: ' ' :: (p.type.render ++ rest)
  have split : p.text ++ rest = p.name.text.toList ++ (mark ++ behind) := by
    simp [Param.text, Param.render, mark, behind]
  have cut : word (p.text ++ rest) = (p.name.text.toList, mark ++ behind) := by
    have stops : Stops [':', '?'] (mark ++ behind) := by
      cases eq : p.isOptional <;> simp [mark, behind, eq, Stops]
    rw [split]
    exact stops.word (by decide) (isWordChar_of_isParamName name)
  have optional : Cut.one (· = '?') (mark ++ behind) = (mark, behind) := by
    cases eq : p.isOptional <;> simp [mark, behind, eq, Cut.one]
  have marked : (!mark.isEmpty) = p.isOptional := by
    cases eq : p.isOptional <;> simp [mark, eq]
  simp only [param, cut, optional, marked, behind, typed_append, reads rest h, Option.map_some,
    String.ofList_toList]
  rfl

theorem returned_render {r : Return Ty} (reads : Reads inner r.type) (h : Stops enders rest) :
    returned inner (r.type.render ++ rest) = some (r.bare, rest) := by
  rw [returned, reads rest h]
  rfl

/-! ## Parts -/

theorem tight_of_atom {text : Chars} {t : Ty} (h : atom inner n text = some (t, rest)) :
    tight inner n text = some (brackets t rest) := by
  rw [tight, h]
  rfl

theorem atom_eq_worded {w text : Chars} {c : Char} (h : w.head? = some c) (start : isNameStart c) :
    atom inner n (w ++ text) = worded inner n (w ++ text) := by
  obtain ⟨v, rfl⟩ := List.head?_eq_some_iff.1 h
  rw [List.cons_append, atom] <;> rintro more ⟨⟩ <;> exact absurd start (by decide)

/-- A word that stands by itself. -/
theorem tight_word {w : Chars} {c : Char} (h : w.head? = some c) (start : isNameStart c)
    (all : ∀ c ∈ w, isWordChar c) (stops : Stops parters rest) :
    tight inner n (w ++ rest) = some (brackets (ofWord w) rest) := by
  refine tight_of_atom ?_
  simp only [atom_eq_worded h start, worded, stops.word (by decide) all]
  split
  · exact absurd (stops_cons.1 stops) (by decide)
  · exact absurd (stops_cons.1 stops) (by decide)
  · rfl

/-- What stands behind the parameters of a function. -/
def returnsText (returns : List (Return Ty)) : Chars :=
  if returns.isEmpty then [] else [':', ' '] ++ commas (returns.map (Ty.render ·.type))

theorem function_returnsText {params : List (Param Ty)} {returns : List (Return Ty)}
    (fewParams : params.length ≤ n) (fewReturns : returns.length ≤ n)
    (names : ∀ p ∈ params, IsParamName p.name) (ofParams : ∀ p ∈ params, Reads inner p.type)
    (ofReturns : ∀ r ∈ returns, Reads inner r.type) (ends : Stops closers rest) :
    function inner n (commas (params.map Param.text) ++ ')' :: (returnsText returns ++ rest)) =
      some (.function (params.map Param.bare) (returns.map Return.bare) "", rest) := by
  have front : closed ')' (param inner) n
      (commas (params.map Param.text) ++ ')' :: (returnsText returns ++ rest)) =
      some (params.map Param.bare, returnsText returns ++ rest) :=
    closed_commas fewParams (by decide) (fun p hp => opens_param (names p hp))
      (fun p hp r stops => param_text (names p hp) (ofParams p hp) stops) _
  rw [function, front, Option.bind_some]
  by_cases ne : returns = []
  · subst ne
    have none : strip? [':', ' '] ([] ++ rest) = none := ends.not_strip (by decide)
    simp only [returnsText, List.isEmpty_nil, if_true, none]
    rfl
  · have behind : separated [',', ' '] (returned inner) n
        (commas (returns.map (Ty.render ·.type)) ++ rest) =
        some (returns.map Return.bare, rest) := by
      refine separated_intercalate ne fewReturns (ends.not_strip (by decide)) ?_
      intro r hr more next
      refine returned_render (ofReturns r hr) ?_
      obtain rfl | ⟨further, rfl⟩ := next
      · exact ends.mono (List.subset_cons_self _ _)
      · exact stops_cons.2 List.mem_cons_self
    have text : returnsText returns ++ rest =
        [':', ' '] ++ (commas (returns.map (Ty.render ·.type)) ++ rest) := by
      rw [returnsText, if_neg (by simpa using ne), List.append_assoc]
    have colon := strip?_eq_some_iff.2 text
    simp only [colon, behind, Option.map_some]

end

/-! ## Types -/

/-- Whether a type is read back, in front of any text that ends it. A function takes what stands
behind a comma for a value that it returns. -/
def TyReads (t : Ty) : Prop := ∀ n rest, sizeOf t ≤ n → Stops enders rest →
  (t.isFunction → Stops closers rest) → ty n (t.render ++ rest) = some (t.bare, rest)

/-- Whether a type is read back, with the brackets behind it. -/
def TightReads (t : Ty) : Prop := ∀ n rest, sizeOf t ≤ n + 1 → Stops parters rest →
  (t.isFunction → Stops closers rest) →
  tight (ty n) n (t.render ++ rest) = some (brackets t.bare rest)

theorem TyReads.reads {t : Ty} (h : TyReads t) (plain : t.isFunction = false) {n : Nat}
    (bound : sizeOf t ≤ n) : Reads (ty n) t :=
  fun rest stops => h n rest bound stops fun isFunction => by simp [plain] at isFunction

theorem TightReads.tyReads {t : Ty} (h : TightReads t) : TyReads t := by
  intro n rest bound stops outer
  obtain ⟨n, rfl⟩ : ∃ m, n = m + 1 := by
    refine Nat.exists_eq_add_one.2 (Nat.lt_of_lt_of_le ?_ bound)
    cases t <;> simp +arith
  have alone : strip? ['|'] rest = none := stops.not_strip (by decide)
  have read := h n rest bound (stops.mono (by decide)) outer
  rw [stops.brackets (by decide)] at read
  simp [ty, separated, read, alone, joined]

/-! ### Sizes of parts -/

theorem length_le_of_sizeOf_le [SizeOf α] {xs : List α} {n : Nat} (h : sizeOf xs ≤ n) :
    xs.length ≤ n := by
  refine Nat.le_trans ?_ h
  clear h
  induction xs with
  | nil => exact Nat.zero_le _
  | cons x xs ih =>
    rw [List.length_cons, List.cons.sizeOf_spec]
    omega

theorem sizeOf_le_of_mem [SizeOf α] {xs : List α} {x : α} {n : Nat} (h : sizeOf xs ≤ n)
    (hx : x ∈ xs) : sizeOf x ≤ n :=
  Nat.le_trans (Nat.le_of_lt (List.sizeOf_lt_of_mem hx)) h

theorem sizeOf_slot_le {f : Slot Ty} {t : Ty} (h : f.type = some t) : sizeOf t ≤ sizeOf f := by
  obtain ⟨name, type⟩ := f
  obtain rfl : type = some t := h
  rw [Slot.mk.sizeOf_spec, Option.some.sizeOf_spec]
  omega

theorem sizeOf_param_le (p : Param Ty) : sizeOf p.type ≤ sizeOf p := by
  obtain ⟨name, type, isOptional, comment⟩ := p
  show sizeOf type ≤ _
  rw [Param.mk.sizeOf_spec]
  omega

theorem sizeOf_return_le (r : Return Ty) : sizeOf r.type ≤ sizeOf r := by
  obtain ⟨type, comment⟩ := r
  show sizeOf type ≤ _
  rw [Return.mk.sizeOf_spec]
  omega

/-! ### All types -/

theorem tightReads_word {t : Ty} {w : Chars} {c : Char} (text : t.render = w)
    (h : w.head? = some c) (start : isNameStart c) (all : w.all isWordChar)
    (same : ofWord w = t.bare) : TightReads t := by
  intro n rest _ stops _
  rw [text, tight_word h start (List.all_eq_true.1 all) stops, same]

theorem tightReads_string (value : String) : TightReads (.literal (.string value)) := by
  intro n rest _ _ _
  refine tight_of_atom ?_
  rw [Ty.render, Literal.render, quote, List.cons_append, atom, List.append_assoc,
    List.singleton_append, unquote_flatMap_escape, Option.map_some]
  simp only [String.ofList_toList]
  rfl

theorem tightReads_table {fields : List (Slot Ty)}
    (names : ∀ f ∈ fields, f.name.text.toList ∈ Form.name.language)
    (types : ∀ f ∈ fields, f.type.isSome) (reads : ∀ f ∈ fields, ∀ t ∈ f.type, TyReads t)
    (plain : ∀ f ∈ fields, ∀ t ∈ f.type, t.isFunction = false) : TightReads (.table fields) := by
  intro n rest bound _ _
  have small : sizeOf fields ≤ n := by
    simp at bound
    omega
  have items : closed '\x7d' (slot (ty n)) n (commas (fields.map Slot.text) ++ '\x7d' :: rest) =
      some (fields.map Slot.bare, rest) := by
    refine closed_commas (length_le_of_sizeOf_le small) (by decide)
      (fun f hf => opens_slot (names f hf)) ?_ rest
    intro f hf r stops
    obtain ⟨t, type⟩ := Option.isSome_iff_exists.1 (types f hf)
    have within := Nat.le_trans (sizeOf_slot_le type) (sizeOf_le_of_mem small hf)
    exact slot_text (names f hf) type ((reads f hf t type).reads (plain f hf t type) within) stops
  refine tight_of_atom ?_
  rw [Ty.render, Ty.renderSlots_eq_map, List.cons_append, atom, List.append_assoc,
    List.singleton_append, items, Option.map_some, ← Ty.bareSlots_eq_map]
  rfl

theorem tightReads_applied {name : Name} {args : List Ty} (named : IsTypeName name)
    (starts : ∀ t ∈ args, Opens t.render) (reads : ∀ t ∈ args, TyReads t)
    (plain : ∀ t ∈ args, t.isFunction = false) : TightReads (.applied name args) := by
  intro n rest bound _ _
  have small : sizeOf args ≤ n := by
    simp at bound
    omega
  have items : closed '>' (ty n) n (commas (args.map Ty.render) ++ '>' :: rest) =
      some (args.map Ty.bare, rest) := by
    refine closed_commas (length_le_of_sizeOf_le small) (by decide) starts ?_ rest
    intro t ht r stops
    exact (reads t ht).reads (plain t ht) (sizeOf_le_of_mem small ht) r stops
  obtain ⟨all, c, v, eq, start⟩ := starts_of_mem_name named.1
  have angle : Stops ['<'] ('<' :: (commas (args.map Ty.render) ++ '>' :: rest)) :=
    stops_cons.2 List.mem_cons_self
  have split : (Ty.applied name args).render ++ rest =
      name.text.toList ++ '<' :: (commas (args.map Ty.render) ++ '>' :: rest) := by
    simp [Ty.render, Ty.renderAll_eq_map]
  refine tight_of_atom ?_
  rw [split, atom_eq_worded (by rw [eq]; rfl) start]
  simp only [worded, angle.word (by decide) all, items, Option.map_some, String.ofList_toList]
  rw [Ty.bare, Ty.bareAll_eq_map]
  rfl

theorem tightReads_function {params : List (Param Ty)} {returns : List (Return Ty)}
    {comment : String} (names : ∀ p ∈ params, IsParamName p.name)
    (paramReads : ∀ p ∈ params, TyReads p.type)
    (paramPlain : ∀ p ∈ params, p.type.isFunction = false)
    (returnReads : ∀ r ∈ returns, TyReads r.type)
    (returnPlain : ∀ r ∈ returns, r.type.isFunction = false) :
    TightReads (.function params returns comment) := by
  intro n rest bound _ outer
  have small : sizeOf params ≤ n ∧ sizeOf returns ≤ n := by
    simp at bound
    omega
  have ofParams : ∀ p ∈ params, Reads (ty n) p.type := fun p hp =>
    (paramReads p hp).reads (paramPlain p hp)
      (Nat.le_trans (sizeOf_param_le p) (sizeOf_le_of_mem small.1 hp))
  have ofReturns : ∀ r ∈ returns, Reads (ty n) r.type := fun r hr =>
    (returnReads r hr).reads (returnPlain r hr)
      (Nat.le_trans (sizeOf_return_le r) (sizeOf_le_of_mem small.2 hr))
  have read := function_returnsText (length_le_of_sizeOf_le small.1)
    (length_le_of_sizeOf_le small.2) names ofParams ofReturns (outer rfl)
  have split : (Ty.function params returns comment).render ++ rest = "fun".toList ++
      '(' :: (commas (params.map Param.text) ++ ')' :: (returnsText returns ++ rest)) := by
    simp [Ty.render, Ty.renderParams_eq_map, Ty.renderReturns_eq_map, returnsText]
  have paren (text : Chars) : word ("fun".toList ++ '(' :: text) = ("fun".toList, '(' :: text) :=
    (stops_cons.2 (List.mem_singleton_self '(')).word (by decide) (List.all_eq_true.1 (by decide))
  refine tight_of_atom ?_
  rw [split, atom_eq_worded (c := 'f') rfl (by decide)]
  simp only [worded, paren, read]
  rw [Ty.bare, Ty.bareParams_eq_map, Ty.bareReturns_eq_map]

theorem tightReads_array {element : Ty} (tight : element.isUnion = false → TightReads element)
    (ty : TyReads element) : TightReads (.array element) := by
  intro n rest bound stops _
  have small : sizeOf element ≤ n := by
    simp at bound
    omega
  cases loose : element.isLoose with
  | false =>
    have union : element.isUnion = false := by
      cases element <;> first | rfl | exact nomatch loose
    have function : element.isFunction = false := by
      cases element <;> first | rfl | exact nomatch loose
    have read := tight union n ('[' :: ']' :: rest) (Nat.le_succ_of_le small)
      (stops_cons.2 (by decide)) (by simp [function])
    rw [brackets] at read
    simpa [Ty.render, loose, Ty.bare] using read
  | true =>
    have closes : Stops closers (')' :: '[' :: ']' :: rest) := stops_cons.2 (by decide)
    have read := ty n (')' :: '[' :: ']' :: rest) small (closes.mono (List.subset_cons_self _ _))
      fun _ => closes
    have split : (Ty.array element).render ++ rest =
        '(' :: (element.render ++ ')' :: '[' :: ']' :: rest) := by
      simp [Ty.render, loose]
    refine tight_of_atom ?_
    rw [split, atom, read]
    rfl

theorem tyReads_union {alternatives : List Ty} (many : 2 ≤ alternatives.length)
    (tights : ∀ t ∈ alternatives, TightReads t)
    (plain : ∀ t ∈ alternatives, t.isFunction = false) : TyReads (.union alternatives) := by
  intro n rest bound stops _
  obtain ⟨n, rfl⟩ : ∃ m, n = m + 1 := by
    refine Nat.exists_eq_add_one.2 (Nat.lt_of_lt_of_le ?_ bound)
    simp +arith
  have small : sizeOf alternatives ≤ n + 1 := by
    simp at bound
    omega
  have items : separated ['|'] (tight (ty n) n) (n + 1)
      (['|'].intercalate (alternatives.map Ty.render) ++ rest) =
      some (alternatives.map Ty.bare, rest) := by
    have some : alternatives ≠ [] :=
      List.ne_nil_of_length_pos (Nat.lt_of_lt_of_le Nat.two_pos many)
    refine separated_intercalate some (length_le_of_sizeOf_le small)
      (stops.not_strip (by decide)) ?_
    intro t ht r next
    have behind : Stops ('|' :: enders) r := by
      obtain rfl | ⟨more, rfl⟩ := next
      · exact stops.mono (List.subset_cons_self _ _)
      · exact stops_cons.2 List.mem_cons_self
    have read := tights t ht n r (sizeOf_le_of_mem small ht) (behind.mono (by decide))
      (by simp [plain t ht])
    rwa [behind.brackets (by decide)] at read
  have whole : joined (alternatives.map Ty.bare) = .union (alternatives.map Ty.bare) := by
    obtain _ | ⟨a, _ | ⟨b, more⟩⟩ := alternatives
    · exact absurd many (by decide)
    · exact absurd many (by simp)
    · rfl
  rw [Ty.render, Ty.renderAll_eq_map, ty, items, Option.map_some, Ty.bare, Ty.bareAll_eq_map,
    ← whole]

end Reading

open Reading

namespace Ty

variable {outer : Bool} {t u : Ty}

/-- No type starts like the end of a list. -/
theorem Readable.opens (h : Readable outer t) : Opens t.render := by
  induction h with
  | nil => exact ⟨'n', "il".toList, rfl, by decide⟩
  | @boolean _ value =>
    cases value
    · exact ⟨'f', "alse".toList, rfl, by decide⟩
    · exact ⟨'t', "rue".toList, rfl, by decide⟩
  | string => exact ⟨'\x22', _, rfl, by decide⟩
  | named name => exact opens_of_isParamName (.inl name.1)
  | applied name => exact (((opens_of_isParamName (.inl name.1)).append _).append _).append _
  | @array _ element _ ih =>
    cases loose : element.isLoose with
    | false =>
      rw [render, loose]
      exact ih.append _
    | true =>
      rw [render, loose]
      exact ⟨'(', _, rfl, by decide⟩
  | table => exact ⟨'\x7b', _, rfl, by decide⟩
  | union many _ _ ih =>
    rw [render, renderAll_eq_map]
    exact opens_intercalate (List.ne_nil_of_length_pos (Nat.lt_of_lt_of_le Nat.two_pos many)) ih
  | function => exact ⟨'f', _, rfl, by decide⟩

/-- A type is read back from its text, and with the brackets behind it if it is no union. -/
theorem Readable.reads (h : Readable outer t) :
    TyReads t ∧ (t.isUnion = false → TightReads t) := by
  have both {t : Ty} (tight : TightReads t) : TyReads t ∧ (t.isUnion = false → TightReads t) :=
    ⟨tight.tyReads, fun _ => tight⟩
  induction h with
  | nil => exact both (tightReads_word rfl (c := 'n') rfl (by decide) (by decide) rfl)
  | @boolean _ value =>
    cases value
    · exact both (tightReads_word rfl (c := 'f') rfl (by decide) (by decide) rfl)
    · exact both (tightReads_word rfl (c := 't') rfl (by decide) (by decide) rfl)
  | string => exact both (tightReads_string _)
  | @named _ name isParam proper =>
    obtain ⟨all, c, v, eq, start⟩ := starts_of_mem_name proper.1
    have head : name.text.toList.head? = some c := by rw [eq, List.head?_cons]
    exact both
      (tightReads_word rfl head start (List.all_eq_true.2 all) (ofWord_of_isTypeName proper))
  | applied name args ih =>
    exact both (tightReads_applied name (fun t ht => (args t ht).opens) (fun t ht => (ih t ht).1)
      fun t ht => (args t ht).isFunction_eq)
  | array _ ih => exact both (tightReads_array ih.2 ih.1)
  | table names types fields ih =>
    exact both (tightReads_table names types (fun f hf t ht => (ih f hf t ht).1)
      fun f hf t ht => (fields f hf t ht).isFunction_eq)
  | union many plain alternatives ih =>
    exact ⟨tyReads_union many (fun t ht => (ih t ht).2 (plain t ht)) fun t ht =>
      (alternatives t ht).isFunction_eq, nofun⟩
  | function names params returns paramReads returnReads =>
    exact both (tightReads_function names (fun p hp => (paramReads p hp).1)
      (fun p hp => (params p hp).isFunction_eq) (fun r hr => (returnReads r hr).1)
      fun r hr => (returns r hr).isFunction_eq)

end Ty

/-- A type is read back from its text, in front of any text that ends it. -/
theorem Reading.ty_render {outer : Bool} {t : Ty} (h : t.Readable outer) {n : Nat}
    (bound : sizeOf t ≤ n) {rest : Chars} (stops : Stops closers rest) :
    ty n (t.render ++ rest) = some (t.bare, rest) :=
  h.reads.1 n rest bound (stops.mono (List.subset_cons_self _ _)) fun _ => stops

/-- Two types have the same text if and only if they differ in nothing but what texts leave out. -/
theorem Ty.render_eq_iff {t u : Ty} (ht : t.Readable true) (hu : u.Readable true) :
    t.render = u.render ↔ t.bare = u.bare := by
  constructor
  · intro same
    have ends : Stops closers [] := nofun
    have first := Reading.ty_render ht (Nat.le_add_right _ (sizeOf u)) ends
    have second := Reading.ty_render hu (Nat.le_add_left _ (sizeOf t)) ends
    rw [same, second] at first
    exact (Prod.mk.inj (Option.some.inj first)).1.symm
  · intro same
    rw [← render_bare t, same, render_bare u]

/-! ### A documented type -/

/-- The type of an array of functions that may stand for several things. -/
def Ty.callbacks (place : Location) (isParam : Bool) (comment : String) : Ty :=
  .applied ⟨"table", place⟩ [.named ⟨"string", place⟩ isParam,
    .array (.function
      [⟨⟨"a", place⟩, .named ⟨"number", place⟩ isParam, false, comment⟩,
        ⟨⟨"b", place⟩, .union [.named ⟨"string", place⟩ isParam, .literal .nil], true, comment⟩]
      [⟨.literal (.string "ok"), comment⟩] comment)]

theorem Ty.readable_callbacks (place : Location) (isParam : Bool) (comment : String) :
    (callbacks place isParam comment).Readable true := by
  have proper {word : String} (name : Rule.name.pattern word.toList = some word.toList.length)
      (free : word ∉ reserved) : IsTypeName ⟨word, place⟩ :=
    ⟨Reading.mem_name_of_pattern name, free⟩
  have string : Readable false (.named ⟨"string", place⟩ isParam) :=
    .named (proper (by decide) (by decide))
  have number : Readable false (.named ⟨"number", place⟩ isParam) :=
    .named (proper (by decide) (by decide))
  have field {word : String} (name : Rule.name.pattern word.toList = some word.toList.length) :
      IsParamName ⟨word, place⟩ := .inl (Reading.mem_name_of_pattern name)
  have several : Readable false (.union [.named ⟨"string", place⟩ isParam, .literal .nil]) :=
    .union (Nat.le_refl 2) (List.forall_mem_cons.2 ⟨rfl, List.forall_mem_singleton.2 rfl⟩)
      (List.forall_mem_cons.2 ⟨string, List.forall_mem_singleton.2 .nil⟩)
  refine .applied (proper (by decide) (by decide)) (List.forall_mem_cons.2 ⟨string,
    List.forall_mem_singleton.2 (.array (.function ?_ ?_ (List.forall_mem_singleton.2 .string)))⟩)
  · exact List.forall_mem_cons.2
      ⟨field (by decide), List.forall_mem_singleton.2 (field (by decide))⟩
  · exact List.forall_mem_cons.2 ⟨number, List.forall_mem_singleton.2 several⟩

/-- The type is written twice, at two places and with two comments. -/
theorem Ty.render_eq_iff_callbacks :
    (callbacks {} false "").Readable true ∧
      (callbacks ⟨⟨0, 4⟩, ⟨0, 9⟩⟩ true "called in turn").Readable true ∧
      (callbacks {} false "").render =
        "table<string, (fun(a: number, b?: string|nil): \"ok\")[]>".toList ∧
      ((callbacks {} false "").render =
          (callbacks ⟨⟨0, 4⟩, ⟨0, 9⟩⟩ true "called in turn").render ↔
        (callbacks {} false "").bare =
          (callbacks ⟨⟨0, 4⟩, ⟨0, 9⟩⟩ true "called in turn").bare) :=
  ⟨readable_callbacks _ _ _, readable_callbacks _ _ _, by decide +kernel,
    Ty.render_eq_iff (readable_callbacks _ _ _) (readable_callbacks _ _ _)⟩

end LuaFront.Doc
