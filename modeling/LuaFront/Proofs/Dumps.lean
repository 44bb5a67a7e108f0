import LuaFront.Proofs.Decimals
import LuaFront.Proofs.Nodes
import LuaFront.Proofs.Shapes
import LuaFront.Proofs.Spellings
import LuaFront.Tree.Dump

/-!
# Dumps are read back

What an s-expression of a dump stands for depends on where it stands: `break` is a statement in a
block and a name elsewhere. So a `Meaning` says it for all places at once, and `Sexp.meaning` finds
the meaning of a list from those of its elements and from the word in front of them.

A dump leaves out that a name is missing, and it does not tell a call from any other expression
that is taken for a statement. For trees that rely on neither (`Node.Evident`), with finite floats
only, the meaning of the dump is the shape of the tree.

* `Exp.meaning_toSexp`, `Stat.meaning_toSexp`, `Block.meaning_toSexp`: trees are read back.
* `Block.shape_inj`: trees with the same dump have the same shape.
-/

namespace LuaFront

open Text

/-! ## Trees that are told apart -/

/-- A name that is no reserved word. -/
def Text.isIdentifier (w : Chars) : Bool :=
  w.head?.any isNameStart && w.all isNameChar && (Kind.keyword? (String.ofList w)).isNone

/-- A name that is there. -/
structure Ident.Proper (n : Ident) : Prop where
  word : isIdentifier n.text.toList
  valid : n.valid = true

/-- A name that is there, without an attribute. -/
structure Ident.Plain (n : Ident) : Prop extends n.Proper where
  attrib : n.attrib = none

namespace Node

/-- What is true of all nodes of programs without errors, as far as the dump leaves it open. -/
def Evident : Node → Prop
  | exp (.name text _) => isIdentifier text.toList
  | exp (.bad _) => False
  | exp (.function params ..) => ∀ n ∈ params, n.Plain
  | stat (.label name _) | stat (.goto name _) => name.Plain
  | stat (.numericFor name ..) | stat (.localFunction name ..) => name.Plain
  | stat (.genericFor names ..) => ∀ n ∈ names, n.Plain
  | stat (.locals names ..) => ∀ n ∈ names, n.Proper
  | stat (.call call _) => call.isCall
  | _ => True

/-- Whether a node is no float that is infinite or not a number. -/
def isFinite : Node → Bool
  | exp (.float value _) => value.isFinite
  | _ => true

end Node

/-! ## Meanings -/

/-- A way to tell the finite floats from their texts. -/
structure FloatReader where
  read : Chars → Float
  read_render : ∀ x : Float, x.isFinite → read (Decimal.Style.literal.render x) = x

theorem nonempty_floatReader : Nonempty FloatReader := by
  have inj : Set.InjOn Decimal.Style.literal.render {x : Float | x.isFinite} :=
    fun _ hx _ hy => Decimal.Style.literal.render_inj hx hy
  exact ⟨⟨_, fun _ hx => inj.leftInvOn_invFunOn hx⟩⟩

/-- What an s-expression stands for: as an expression, as a statement, as a block, as an atom, and
as a list. -/
structure Meaning where
  exp : Exp
  stat : Stat
  block : Block
  word : Chars
  parts : List Meaning

namespace UnaryOp

/-- The operator that is written in a given way. -/
def ofSpelling? (text : String) : Option UnaryOp :=
  [not, length, negate, bitNot].find? (·.spelling == text)

theorem ofSpelling?_spelling (op : UnaryOp) : ofSpelling? op.spelling = some op := by
  cases op <;> decide

end UnaryOp

namespace BinaryOp

/-- The operator that is written in a given way. -/
def ofSpelling? (text : String) : Option BinaryOp :=
  [or, and, less, greater, lessEqual, greaterEqual, notEqual, equal, bitOr, bitXor, bitAnd,
    shiftLeft, shiftRight, concat, add, sub, mul, div, floorDiv, mod, pow].find?
      (·.spelling == text)

theorem ofSpelling?_spelling (op : BinaryOp) : ofSpelling? op.spelling = some op := by
  cases op <;> decide

end BinaryOp

namespace Meaning

/-- The meaning of nothing. -/
def nothing : Meaning := ⟨.bad {}, .breakOut {}, .mk [] {}, [], []⟩

/-- The meaning at a place in a list. -/
def part (items : List Meaning) (i : Nat) : Meaning := items.getD i nothing

/-- A name, with its attribute behind it if it has one. -/
def ident (m : Meaning) : Ident :=
  let (name, behind) := Cut.many (· ≠ '<') m.word
  ⟨String.ofList name, {}, true, Attribute.ofName? (String.ofList (behind.drop 1).dropLast)⟩

/-- A list that starts with the given word. -/
def isTagged (m : Meaning) (tag : String) : Bool := (part m.parts 0).word = tag.toList

/-- A field of a table. -/
def field (m : Meaning) : Field :=
  if m.isTagged "=" then .keyed (part m.parts 1).exp (part m.parts 2).exp else .item m.exp

/-- A condition with the block that it guards. -/
def clause? (m : Meaning) : Option Clause :=
  if m.isTagged "clause" then some (.mk (part m.parts 1).exp (part m.parts 2).block) else none

/-- What follows all conditions. -/
def otherwise? (m : Meaning) : Option Block :=
  if m.isTagged "else" then some (part m.parts 1).block else none

/-- A function from its parameters and its body. -/
def function (isMethod : Bool) (params body : Meaning) : Exp :=
  .function ((params.parts.filter (·.word ≠ "...".toList)).map ident)
    (params.parts.any (·.word = "...".toList)) isMethod body.block {}

/-- A list as an expression. -/
def taggedExp (tag : String) (items : List Meaning) : Exp :=
  if tag = "table" then .table (items.map field) {}
  else if tag = "function" then function false (part items 0) (part items 1)
  else if tag = "method" then function true (part items 0) (part items 1)
  else if tag = "parens" then .parens (part items 0).exp {}
  else if tag = "index" then .index (part items 0).exp (part items 1).exp {}
  else if tag = "call" then .call (part items 0).exp none ((items.drop 1).map (·.exp)) {}
  else if tag = "method-call" then
    .call (part items 0).exp (some (part items 1).exp) ((items.drop 2).map (·.exp)) {}
  else if items.length = 1 then
    (UnaryOp.ofSpelling? tag).elim (.bad {}) fun op => .unary op (part items 0).exp {}
  else
    (BinaryOp.ofSpelling? tag).elim (.bad {}) fun op =>
      .binary op (part items 0).exp (part items 1).exp {}

/-- A list as a statement; what is none is an expression. -/
def taggedStat (tag : String) (items : List Meaning) (e : Exp) : Stat :=
  if tag = "label" then .label (part items 0).ident {}
  else if tag = "goto" then .goto (part items 0).ident {}
  else if tag = "do" then .scope (part items 0).block {}
  else if tag = "while" then .whileLoop (part items 0).exp (part items 1).block {}
  else if tag = "repeat" then .repeatLoop (part items 0).block (part items 1).exp {}
  else if tag = "if" then
    .branch (items.filterMap clause?) (items.getLast?.bind otherwise?) {}
  else if tag = "for" then
    if items.length = 4 then
      .numericFor (part items 0).ident (part items 1).exp (part items 2).exp none
        (part items 3).block {}
    else
      .numericFor (part items 0).ident (part items 1).exp (part items 2).exp
        (some (part items 3).exp) (part items 4).block {}
  else if tag = "for-in" then
    .genericFor ((part items 0).parts.map ident) ((part items 1).parts.map (·.exp))
      (part items 2).block {}
  else if tag = "assign" then
    .assign ((part items 0).parts.map (·.exp)) ((part items 1).parts.map (·.exp)) {}
  else if tag = "local" then
    .locals ((part items 0).parts.map ident) ((part items 1).parts.map (·.exp)) {}
  else if tag = "local-function" then .localFunction (part items 0).ident (part items 1).exp {}
  else if tag = "return" then .ret (items.map (·.exp)) {}
  else .call e {}

/-- The meaning of a list from those of its elements. -/
def ofParts (parts : List Meaning) : Meaning :=
  let tag := String.ofList (part parts 0).word
  let items := parts.drop 1
  ⟨taggedExp tag items, taggedStat tag items (taggedExp tag items), .mk (items.map (·.stat)) {}, [],
    parts⟩

variable (floats : FloatReader)

/-- An atom as an expression. -/
def atomExp (w : Chars) : Exp :=
  match w with
  | [] => .bad {}
  | c :: rest =>
    if c = '\x22' then .string (String.ofList ((unquote none rest).elim [] (·.1))) {}
    else if isDigit c ∨ c = '-' then .float (floats.read w) {}
    else if w = "...".toList then .vararg {}
    else if w = "nil".toList then .nil {}
    else if w = "true".toList then .boolean true {}
    else if w = "false".toList then .boolean false {}
    else .name (String.ofList w) {}

/-- The meaning of an atom. -/
def ofAtom (w : Chars) : Meaning := ⟨atomExp floats w, .breakOut {}, .mk [] {}, w, []⟩

mutual

/-- What an s-expression stands for. -/
def ofSexp : Sexp → Meaning
  | .int value => { nothing with exp := .integer value {} }
  | .atom w => ofAtom floats w
  | .list elements => ofParts (ofSexps elements)

/-- What s-expressions stand for. -/
def ofSexps : List Sexp → List Meaning
  | [] => []
  | e :: es => ofSexp e :: ofSexps es

end

/-! ## Atoms -/

variable {floats : FloatReader}

theorem atomExp_quote (text : Chars) :
    atomExp floats (quote text) = .string (String.ofList text) {} := by
  rw [quote, atomExp, if_pos rfl, unquote_flatMap_escape]
  rfl

theorem atomExp_render {x : Float} (h : x.isFinite) :
    atomExp floats (Decimal.Style.literal.render x) =
      .float x {} := by
  have start : ∃ c rest, Decimal.Style.literal.render x = c :: rest ∧ (isDigit c ∨ c = '-') := by
    obtain ⟨text, v, eq, shows, -⟩ := Decimal.Style.literal.render_of_isFinite h
    rw [eq]
    split
    · obtain ⟨c, head, digit⟩ := (Option.any_eq_true _ _).1 shows.starts
      obtain ⟨rest, rfl⟩ := List.head?_eq_some_iff.1 head
      exact ⟨c, rest, rfl, .inl digit⟩
    · exact ⟨'-', text, rfl, .inr rfl⟩
  obtain ⟨c, rest, eq, start⟩ := start
  have unquoted : c ≠ '\x22' := by
    rintro rfl
    exact absurd start (by decide)
  rw [eq, atomExp, if_neg unquoted, if_pos start, ← eq, floats.read_render x h]

theorem atomExp_identifier {w : Chars} (h : isIdentifier w) :
    atomExp floats w = .name (String.ofList w) {} := by
  simp only [isIdentifier, Bool.and_eq_true] at h
  obtain ⟨⟨start, -⟩, free⟩ := h
  have differ {word : String} (reserved : (Kind.keyword? word).isSome) : w ≠ word.toList := by
    rintro rfl
    rw [String.ofList_toList, Option.isNone_iff_eq_none] at free
    rw [free] at reserved
    exact nomatch reserved
  obtain ⟨c, head, start⟩ := (Option.any_eq_true _ _).1 start
  obtain ⟨rest, rfl⟩ := List.head?_eq_some_iff.1 head
  have other {d : Char} (hd : ¬ isNameStart d) : c ≠ d := fun same => hd (same ▸ start)
  have quoted : c ≠ '\x22' := other (by decide)
  have number : ¬ (isDigit c ∨ c = '-') :=
    not_or.2 ⟨Piece.not_isDigit_of_isNameStart start, other (by decide)⟩
  have dots : c :: rest ≠ "...".toList := fun same => other (by decide) (List.cons.inj same).1
  rw [atomExp, if_neg quoted, if_neg number, if_neg dots, if_neg (differ (by decide)),
    if_neg (differ (by decide)), if_neg (differ (by decide))]

/-! ## Names -/

theorem word_ofSexp_atom (w : Chars) : (ofSexp floats (.atom w)).word = w := rfl

theorem notMem_identifier {text : Chars} (h : isIdentifier text) {c : Char}
    (out : isNameChar c = false) : c ∉ text := by
  intro mem
  simp only [isIdentifier, Bool.and_eq_true] at h
  have name := List.all_eq_true.1 h.1.2 c mem
  rw [out] at name
  exact nomatch name

/-- A name is read back with its attribute. -/
theorem ident_toSexp {n : Ident} (h : n.Proper) : (ofSexp floats n.toSexp).ident = n.shape := by
  have name : ∀ c ∈ n.text.toList, decide (c ≠ '<') := by
    intro c mem
    rw [decide_eq_true_iff]
    rintro rfl
    exact notMem_identifier h.word (by decide) mem
  obtain ⟨text, place, valid, attrib⟩ := n
  obtain rfl : valid = true := h.valid
  rw [Ident.toSexp, ident, word_ofSexp_atom]
  cases attrib with
  | none =>
    have cut := Cut.many_of_all name
    simp only [Option.elim_none, List.append_nil, cut, String.ofList_toList]
    rfl
  | some a =>
    have cut : Cut.many (· ≠ '<') (text.toList ++ '<' :: (a.spelling.toList ++ ['>'])) =
        (text.toList, '<' :: (a.spelling.toList ++ ['>'])) := by
      refine Cut.many_append name ?_
      rintro c ⟨⟩
      decide
    simp only [Option.elim_some, cut, String.ofList_toList]
    cases a <;> rfl

theorem ident_bare {n : Ident} (h : n.Plain) : (ofSexp floats n.bare).ident = n.shape := by
  have bare : n.bare = n.toSexp := by
    rw [Ident.bare, Ident.toSexp, h.attrib, Option.elim_none, List.append_nil]
  rw [bare, ident_toSexp h.toProper]

/-! ## Lists -/

theorem ofSexps_eq_map (es : List Sexp) : ofSexps floats es = es.map (ofSexp floats) := by
  induction es with
  | nil => rfl
  | cons e es ih => rw [ofSexps, ih, List.map_cons]

theorem ofSexps_append (es fs : List Sexp) :
    ofSexps floats (es ++ fs) = ofSexps floats es ++ ofSexps floats fs := by
  rw [ofSexps_eq_map, List.map_append, ← ofSexps_eq_map, ← ofSexps_eq_map]

section

variable (tag : String) (es : List Sexp)

theorem parts_list : (ofSexp floats (.list es)).parts = ofSexps floats es := rfl

theorem exp_tagged :
    (ofSexp floats (.tagged tag es)).exp = taggedExp tag (ofSexps floats es) := by
  show taggedExp (String.ofList tag.toList) _ = _
  rw [String.ofList_toList]
  rfl

theorem stat_tagged : (ofSexp floats (.tagged tag es)).stat =
    taggedStat tag (ofSexps floats es) (taggedExp tag (ofSexps floats es)) := by
  show taggedStat (String.ofList tag.toList) _ (taggedExp (String.ofList tag.toList) _) = _
  rw [String.ofList_toList]
  rfl

theorem block_tagged :
    (ofSexp floats (.tagged tag es)).block = .mk ((ofSexps floats es).map (·.stat)) {} := rfl

theorem part_tagged (i : Nat) :
    part (ofSexp floats (.tagged tag es)).parts (i + 1) = part (ofSexps floats es) i := rfl

theorem isTagged_tagged (other : String) :
    (ofSexp floats (.tagged tag es)).isTagged other = decide (tag = other) :=
  decide_eq_decide.2 String.toList_inj

end

@[simp] theorem part_zero (m : Meaning) (ms : List Meaning) : part (m :: ms) 0 = m := rfl

@[simp] theorem part_succ (m : Meaning) (ms : List Meaning) (i : Nat) :
    part (m :: ms) (i + 1) = part ms i := rfl

theorem exp_atom (w : Chars) : (ofSexp floats (.atom w)).exp = atomExp floats w := rfl

/-! ### Operators -/

theorem taggedExp_unary (op : UnaryOp) (x : Meaning) :
    taggedExp op.spelling [x] = .unary op x.exp {} := by
  have found := op.ofSpelling?_spelling
  cases op <;> simp [taggedExp, UnaryOp.spelling] at found ⊢ <;> rw [found] <;> rfl

theorem taggedExp_binary (op : BinaryOp) (x y : Meaning) :
    taggedExp op.spelling [x, y] = .binary op x.exp y.exp {} := by
  have found := op.ofSpelling?_spelling
  cases op <;> simp [taggedExp, BinaryOp.spelling] at found ⊢ <;> rw [found] <;> rfl

/-- No expression looks like a field with a key. -/
theorem not_isTagged_exp (e : Exp) : (ofSexp floats e.toSexp).isTagged "=" = false := by
  have other {tag : String} (es : List Sexp) (apart : tag ≠ "=") :
      (ofSexp floats (.tagged tag es)).isTagged "=" = false := by
    rw [isTagged_tagged, decide_eq_false apart]
  cases e with
  | unary op => exact other _ (by cases op <;> decide)
  | binary op => exact other _ (by cases op <;> decide)
  | call callee method => exact other _ (by cases method <;> simp)
  | function params isVararg isMethod => exact other _ (by cases isMethod <;> decide)
  | table | parens | index => exact other _ (by decide)
  | _ => rfl

/-- No condition looks like what follows all conditions. -/
theorem otherwise?_clauses (cs : List Clause) :
    ∀ m ∈ ofSexps floats (Clause.toSexps cs), m.otherwise? = none := by
  induction cs with
  | nil => exact List.forall_mem_nil _
  | cons c cs ih =>
    obtain ⟨c, body⟩ := c
    refine List.forall_mem_cons.2 ⟨?_, ih⟩
    rw [otherwise?, isTagged_tagged, if_neg (by decide)]

theorem idents_toSexp {names : List Ident} (h : ∀ n ∈ names, n.Proper) :
    (ofSexps floats (names.map Ident.toSexp)).map ident = names.map Ident.shape := by
  rw [ofSexps_eq_map, List.map_map, List.map_map]
  exact List.map_congr_left fun n hn => ident_toSexp (h n hn)

/-- A call is no other statement. -/
theorem stat_of_isCall {e : Exp} (h : e.isCall) :
    (ofSexp floats e.toSexp).stat = .call (ofSexp floats e.toSexp).exp {} := by
  cases e with
  | call callee method args =>
    rw [Exp.toSexp, stat_tagged, exp_tagged]
    cases method <;> simp [taggedStat]
  | _ => exact absurd h Bool.false_ne_true

/-- The parameters of a function, and the dots at their end. -/
theorem function_bare {params : List Ident} (h : ∀ n ∈ params, n.Plain)
    (isVararg isMethod : Bool) (body : Meaning) :
    function isMethod
      (ofSexp floats (.list (params.map Ident.bare ++ if isVararg then [dots] else []))) body =
      .function (params.map Ident.shape) isVararg isMethod body.block {} := by
  have word (n : Ident) : (ofSexp floats n.bare).word = n.text.toList := rfl
  have name : ∀ n ∈ params, n.text.toList ≠ "...".toList := by
    intro n hn same
    have point : '.' ∈ n.text.toList := same ▸ List.mem_cons_self
    exact notMem_identifier (h n hn).word (by decide) point
  have names : (ofSexps floats (params.map Ident.bare)).filter (·.word ≠ "...".toList) =
      ofSexps floats (params.map Ident.bare) := by
    rw [ofSexps_eq_map, List.filter_eq_self]
    simpa [word] using name
  have shapes : (ofSexps floats (params.map Ident.bare)).map ident = params.map Ident.shape := by
    rw [ofSexps_eq_map, List.map_map, List.map_map]
    exact List.map_congr_left fun n hn => ident_bare (h n hn)
  have none : (ofSexps floats (params.map Ident.bare)).any (·.word = "...".toList) = false := by
    rw [ofSexps_eq_map]
    simpa [word] using name
  rw [function, parts_list, ofSexps_append, List.filter_append, List.any_append, names, none]
  cases isVararg with
  | false => simp [ofSexps, shapes]
  | true =>
    have last : (ofSexp floats dots).word = "...".toList := rfl
    simp [ofSexps, shapes, last]

end Meaning

/-! ## Trees -/

/-- A node that the dump tells all about, with all nodes below it. -/
def Node.Told (n : Node) : Prop := n.All fun m => m.Evident ∧ m.isFinite

open Meaning

section

variable {floats : FloatReader}

mutual

/-- An expression is read back from its dump. -/
theorem Exp.meaning_toSexp : ∀ e : Exp, (Node.exp e).Told → (ofSexp floats e.toSexp).exp = e.shape
  | .nil _, _ => rfl
  | .boolean value _, _ => by cases value <;> rfl
  | .vararg _, _ => rfl
  | .integer .., _ => rfl
  | .float value _, h => by
    have finite : value.isFinite := h.self.2
    rw [Exp.toSexp, exp_atom, atomExp_render finite, Exp.shape]
  | .string value _, _ => by
    rw [Exp.toSexp, exp_atom, atomExp_quote, String.ofList_toList, Exp.shape]
  | .name text _, h => by
    have word : isIdentifier text.toList := h.self.1
    rw [Exp.toSexp, exp_atom, atomExp_identifier word, String.ofList_toList, Exp.shape]
  | .unary op x _, h => by
    have hx := h.child (m := .exp x) (by simp [Node.children])
    rw [Exp.toSexp, exp_tagged, ofSexps, ofSexps, taggedExp_unary, Exp.meaning_toSexp x hx,
      Exp.shape]
  | .binary op x y _, h => by
    have hx := h.child (m := .exp x) (by simp [Node.children])
    have hy := h.child (m := .exp y) (by simp [Node.children])
    rw [Exp.toSexp, exp_tagged, ofSexps, ofSexps, ofSexps, taggedExp_binary,
      Exp.meaning_toSexp x hx, Exp.meaning_toSexp y hy, Exp.shape]
  | .table fields _, h => by
    have hfs : ∀ f ∈ fields, ∀ n ∈ Node.ofField f, n.Told := fun f hf n hn =>
      h.child (List.mem_flatMap.2 ⟨f, hf, hn⟩)
    have read := Field.meaning_toSexps fields hfs
    simp [Exp.toSexp, exp_tagged, taggedExp, read, Exp.shape]
  | .function params isVararg isMethod body _, h => by
    have plain : ∀ n ∈ params, n.Plain := h.self.1
    have hb := h.child (m := .block body) (by simp [Node.children])
    have read := Block.meaning_toSexp body hb
    have whole := @function_bare floats _ plain isVararg isMethod (ofSexp floats body.toSexp)
    rw [read] at whole
    cases isMethod <;> simpa [Exp.toSexp, exp_tagged, taggedExp, ofSexps, Exp.shape] using whole
  | .parens x _, h => by
    have hx := h.child (m := .exp x) (by simp [Node.children])
    have read := Exp.meaning_toSexp x hx
    simp [Exp.toSexp, exp_tagged, taggedExp, ofSexps, read, Exp.shape]
  | .index x k _, h => by
    have hx := h.child (m := .exp x) (by simp [Node.children])
    have hk := h.child (m := .exp k) (by simp [Node.children])
    have readx := Exp.meaning_toSexp x hx
    have readk := Exp.meaning_toSexp k hk
    simp [Exp.toSexp, exp_tagged, taggedExp, ofSexps, readx, readk, Exp.shape]
  | .call f none args _, h => by
    have hf := h.child (m := .exp f) (by simp [Node.children])
    have hargs : ∀ e ∈ args, (Node.exp e).Told := fun e he =>
      h.child (by simp [Node.children, he])
    have readf := Exp.meaning_toSexp f hf
    have readargs := Exp.meaning_toSexps args hargs
    simp [Exp.toSexp, Exp.toSexp?, exp_tagged, taggedExp, ofSexps, readf, readargs, Exp.shape,
      Exp.shape?]
  | .call f (some m) args _, h => by
    have hf := h.child (m := .exp f) (by simp [Node.children])
    have hm := h.child (m := .exp m) (by simp [Node.children])
    have hargs : ∀ e ∈ args, (Node.exp e).Told := fun e he =>
      h.child (by simp [Node.children, he])
    have readf := Exp.meaning_toSexp f hf
    have readm := Exp.meaning_toSexp m hm
    have readargs := Exp.meaning_toSexps args hargs
    simp [Exp.toSexp, Exp.toSexp?, exp_tagged, taggedExp, ofSexps, readf, readm, readargs,
      Exp.shape, Exp.shape?]
  | .bad _, h => h.self.1.elim

theorem Exp.meaning_toSexps : ∀ es : List Exp, (∀ e ∈ es, (Node.exp e).Told) →
    (ofSexps floats (Exp.toSexps es)).map (·.exp) = Exp.shapes es
  | [], _ => rfl
  | e :: es, h => by
    have first := Exp.meaning_toSexp e (h e List.mem_cons_self)
    have more := Exp.meaning_toSexps es fun x hx => h x (List.mem_cons_of_mem e hx)
    rw [Exp.toSexps, ofSexps, List.map_cons, first, more, Exp.shapes]

theorem Field.meaning_toSexps : ∀ fs : List Field, (∀ f ∈ fs, ∀ n ∈ Node.ofField f, n.Told) →
    (ofSexps floats (Field.toSexps fs)).map field = Field.shapes fs
  | [], _ => rfl
  | .item x :: fs, h => by
    have hx := h _ List.mem_cons_self (.exp x) (by simp [Node.ofField])
    have more := Field.meaning_toSexps fs fun f hf => h f (List.mem_cons_of_mem _ hf)
    have first : (ofSexp floats x.toSexp).field = .item x.shape := by
      rw [field, not_isTagged_exp, if_neg Bool.false_ne_true, Exp.meaning_toSexp x hx]
    rw [Field.toSexps, ofSexps, List.map_cons, first, more, Field.shapes, Field.shape]
  | .keyed k x :: fs, h => by
    have hk := h _ List.mem_cons_self (.exp k) (by simp [Node.ofField])
    have hx := h _ List.mem_cons_self (.exp x) (by simp [Node.ofField])
    have more := Field.meaning_toSexps fs fun f hf => h f (List.mem_cons_of_mem _ hf)
    have first : (ofSexp floats (.tagged "=" [k.toSexp, x.toSexp])).field =
        .keyed k.shape x.shape := by
      rw [field, isTagged_tagged, if_pos (decide_eq_true rfl), part_tagged, part_tagged, ofSexps,
        ofSexps, ofSexps, part_zero, part_succ, part_zero, Exp.meaning_toSexp k hk,
        Exp.meaning_toSexp x hx]
    rw [Field.toSexps, ofSexps, List.map_cons, first, more, Field.shapes, Field.shape]

theorem Block.meaning_toSexp : ∀ b : Block, (Node.block b).Told →
    (ofSexp floats b.toSexp).block = b.shape
  | .mk stats _, h => by
    have hs : ∀ s ∈ stats, (Node.stat s).Told := fun s hs =>
      h.child (List.mem_map.2 ⟨s, hs, rfl⟩)
    rw [Block.toSexp, block_tagged, Stat.meaning_toSexps stats hs, Block.shape]

theorem Stat.meaning_toSexps : ∀ ss : List Stat, (∀ s ∈ ss, (Node.stat s).Told) →
    (ofSexps floats (Stat.toSexps ss)).map (·.stat) = Stat.shapes ss
  | [], _ => rfl
  | s :: ss, h => by
    have first := Stat.meaning_toSexp s (h s List.mem_cons_self)
    have more := Stat.meaning_toSexps ss fun x hx => h x (List.mem_cons_of_mem s hx)
    rw [Stat.toSexps, ofSexps, List.map_cons, first, more, Stat.shapes]

theorem Stat.meaning_toSexp : ∀ s : Stat, (Node.stat s).Told →
    (ofSexp floats s.toSexp).stat = s.shape
  | .breakOut _, _ => rfl
  | .label name _, h => by
    have plain : name.Plain := h.self.1
    simp [Stat.toSexp, stat_tagged, taggedStat, ofSexps, ident_bare plain, Stat.shape]
  | .goto name _, h => by
    have plain : name.Plain := h.self.1
    simp [Stat.toSexp, stat_tagged, taggedStat, ofSexps, ident_bare plain, Stat.shape]
  | .scope body _, h => by
    have hb := h.child (m := .block body) (by simp [Node.children])
    have read := Block.meaning_toSexp body hb
    simp [Stat.toSexp, stat_tagged, taggedStat, ofSexps, read, Stat.shape]
  | .whileLoop c body _, h => by
    have hc := h.child (m := .exp c) (by simp [Node.children])
    have hb := h.child (m := .block body) (by simp [Node.children])
    have readc := Exp.meaning_toSexp c hc
    have readb := Block.meaning_toSexp body hb
    simp [Stat.toSexp, stat_tagged, taggedStat, ofSexps, readc, readb, Stat.shape]
  | .repeatLoop body c _, h => by
    have hc := h.child (m := .exp c) (by simp [Node.children])
    have hb := h.child (m := .block body) (by simp [Node.children])
    have readc := Exp.meaning_toSexp c hc
    have readb := Block.meaning_toSexp body hb
    simp [Stat.toSexp, stat_tagged, taggedStat, ofSexps, readc, readb, Stat.shape]
  | .branch clauses none _, h => by
    have hcs : ∀ c ∈ clauses, ∀ n ∈ Node.ofClause c, n.Told := fun c hc n hn =>
      h.child (List.mem_append_left _ (List.mem_flatMap.2 ⟨c, hc, hn⟩))
    have read := Clause.meaning_toSexps clauses hcs
    have last : (ofSexps floats (Clause.toSexps clauses)).getLast?.bind otherwise? = none :=
      Option.bind_eq_none_iff.2 fun m hm =>
        otherwise?_clauses clauses m (List.mem_of_getLast? hm)
    simp [Stat.toSexp, Block.toElse, stat_tagged, taggedStat, read, last, Stat.shape, Block.shape?]
  | .branch clauses (some body) _, h => by
    have hcs : ∀ c ∈ clauses, ∀ n ∈ Node.ofClause c, n.Told := fun c hc n hn =>
      h.child (List.mem_append_left _ (List.mem_flatMap.2 ⟨c, hc, hn⟩))
    have hb := h.child (m := .block body) (by simp [Node.children])
    have readcs := Clause.meaning_toSexps clauses hcs
    have readb := Block.meaning_toSexp body hb
    have last : (ofSexp floats (.tagged "else" [body.toSexp])).otherwise? = some body.shape := by
      rw [otherwise?, isTagged_tagged, if_pos (decide_eq_true rfl), part_tagged, ofSexps, part_zero,
        readb]
    have other : (ofSexp floats (.tagged "else" [body.toSexp])).clause? = none := by
      rw [clause?, isTagged_tagged, if_neg (by decide)]
    simp [Stat.toSexp, Block.toElse, stat_tagged, taggedStat, ofSexps_append, ofSexps, readcs, last,
      other, Stat.shape, Block.shape?]
  | .numericFor var start limit none body _, h => by
    have plain : var.Plain := h.self.1
    have hs := h.child (m := .exp start) (by simp [Node.children])
    have hl := h.child (m := .exp limit) (by simp [Node.children])
    have hb := h.child (m := .block body) (by simp [Node.children])
    have reads := Exp.meaning_toSexp start hs
    have readl := Exp.meaning_toSexp limit hl
    have readb := Block.meaning_toSexp body hb
    simp [Stat.toSexp, Exp.toSexp?, stat_tagged, taggedStat, ofSexps, ident_bare plain, reads,
      readl, readb, Stat.shape, Exp.shape?]
  | .numericFor var start limit (some step) body _, h => by
    have plain : var.Plain := h.self.1
    have hs := h.child (m := .exp start) (by simp [Node.children])
    have hl := h.child (m := .exp limit) (by simp [Node.children])
    have hp := h.child (m := .exp step) (by simp [Node.children])
    have hb := h.child (m := .block body) (by simp [Node.children])
    have reads := Exp.meaning_toSexp start hs
    have readl := Exp.meaning_toSexp limit hl
    have readp := Exp.meaning_toSexp step hp
    have readb := Block.meaning_toSexp body hb
    simp [Stat.toSexp, Exp.toSexp?, stat_tagged, taggedStat, ofSexps, ident_bare plain, reads,
      readl, readp, readb, Stat.shape, Exp.shape?]
  | .genericFor names exps body _, h => by
    have plain : ∀ n ∈ names, n.Plain := h.self.1
    have hes : ∀ e ∈ exps, (Node.exp e).Told := fun e he =>
      h.child (by simp [Node.children, he])
    have hb := h.child (m := .block body) (by simp [Node.children])
    have reades := Exp.meaning_toSexps exps hes
    have readb := Block.meaning_toSexp body hb
    simp [Stat.toSexp, stat_tagged, taggedStat, ofSexps, parts_list, reades, readb, Stat.shape,
      @idents_toSexp floats _ fun n hn => (plain n hn).toProper]
  | .assign targets values _, h => by
    have hts : ∀ e ∈ targets, (Node.exp e).Told := fun e he =>
      h.child (by simp [Node.children, he])
    have hvs : ∀ e ∈ values, (Node.exp e).Told := fun e he =>
      h.child (by simp [Node.children, he])
    have readts := Exp.meaning_toSexps targets hts
    have readvs := Exp.meaning_toSexps values hvs
    simp [Stat.toSexp, stat_tagged, taggedStat, ofSexps, parts_list, readts, readvs, Stat.shape]
  | .locals names values _, h => by
    have proper : ∀ n ∈ names, n.Proper := h.self.1
    have hvs : ∀ e ∈ values, (Node.exp e).Told := fun e he =>
      h.child (by simp [Node.children, he])
    have readvs := Exp.meaning_toSexps values hvs
    simp [Stat.toSexp, stat_tagged, taggedStat, ofSexps, parts_list, readvs, Stat.shape,
      @idents_toSexp floats _ proper]
  | .localFunction name f _, h => by
    have plain : name.Plain := h.self.1
    have hf := h.child (m := .exp f) (by simp [Node.children])
    have read := Exp.meaning_toSexp f hf
    simp [Stat.toSexp, stat_tagged, taggedStat, ofSexps, ident_bare plain, read, Stat.shape]
  | .call c _, h => by
    have isCall : c.isCall := h.self.1
    have hc := h.child (m := .exp c) (by simp [Node.children])
    rw [Stat.toSexp, stat_of_isCall isCall, Exp.meaning_toSexp c hc, Stat.shape]
  | .ret values _, h => by
    have hvs : ∀ e ∈ values, (Node.exp e).Told := fun e he =>
      h.child (by simp [Node.children, he])
    have read := Exp.meaning_toSexps values hvs
    simp [Stat.toSexp, stat_tagged, taggedStat, read, Stat.shape]

theorem Clause.meaning_toSexps : ∀ cs : List Clause, (∀ c ∈ cs, ∀ n ∈ Node.ofClause c, n.Told) →
    (ofSexps floats (Clause.toSexps cs)).filterMap clause? = Clause.shapes cs
  | [], _ => rfl
  | .mk c body :: cs, h => by
    have hc := h _ List.mem_cons_self (.exp c) (by simp [Node.ofClause])
    have hb := h _ List.mem_cons_self (.block body) (by simp [Node.ofClause])
    have more := Clause.meaning_toSexps cs fun x hx => h x (List.mem_cons_of_mem _ hx)
    have first : (ofSexp floats (.tagged "clause" [c.toSexp, body.toSexp])).clause? =
        some (.mk c.shape body.shape) := by
      rw [clause?, isTagged_tagged, if_pos (decide_eq_true rfl), part_tagged, part_tagged, ofSexps,
        ofSexps, ofSexps, part_zero, part_succ, part_zero, Exp.meaning_toSexp c hc,
        Block.meaning_toSexp body hb]
    rw [Clause.toSexps, ofSexps, List.filterMap_cons, first, more, Clause.shapes, Clause.shape]

end

end

/-- Trees with the same dump have the same shape. -/
theorem Block.shape_inj {b c : Block} (hb : (Node.block b).Told) (hc : (Node.block c).Told)
    (same : b.toSexp = c.toSexp) : b.shape = c.shape := by
  obtain ⟨floats⟩ := nonempty_floatReader
  rw [← @Block.meaning_toSexp floats b hb, same, Block.meaning_toSexp c hc]

end LuaFront
