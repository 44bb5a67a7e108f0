import LuaFront.Proofs.Dumps
import LuaFront.Proofs.NumberTokens
import LuaFront.Proofs.Wording

/-!
# Dumps tell programs apart

What a dump leaves open is settled in a program without errors: its names are identifiers of the
source, nothing is missing, only calls are statements, and only local variables have attributes.
This is read off the grammar, phrase by phrase (`Grammar.Yields`). So the dump of a program without
errors and with finite floats decides everything in its tree but the locations.

* `Source.named_terminals`: the names of a source are identifiers.
* `Grammar.yields_level`: the phrases of every level yield clear trees.
* `Source.toSexp_eq_iff_shape_eq`: programs have the same dump if and only if they differ in
  nothing but locations.
-/

namespace LuaFront

open Text

/-! ## Names of a source -/

namespace Piece

variable {c : Char} {text : Chars}

/-- A word that is taken for a name is an identifier. -/
theorem isIdentifier_word (start : isNameStart c) (h : (word (c :: text)).1.kind = .ident) :
    isIdentifier (word (c :: text)).1.text := by
  have keywords : ∀ k ∈ Kind.keywords, k ≠ .ident := by decide
  have name : (Cut.many isNameChar (c :: text)).1 = c :: text.takeWhile isNameChar :=
    List.takeWhile_cons_of_pos (by simp [isNameChar, start])
  have free : Kind.keyword? (String.ofList (Cut.many isNameChar (c :: text)).1) = none := by
    cases found : Kind.keyword? (String.ofList (Cut.many isNameChar (c :: text)).1) with
    | none => rfl
    | some k =>
      have kind : (word (c :: text)).1.kind = k := by
        show (Kind.keyword? (String.ofList (Cut.many isNameChar (c :: text)).1)).getD .ident = k
        rw [found, Option.getD_some]
      exact absurd (kind.symm.trans h) (keywords k (List.mem_of_find?_eq_some found))
  show isIdentifier (Cut.many isNameChar (c :: text)).1
  rw [isIdentifier, free, name]
  simp [start, isNameChar]

theorem isIdentifier_of_lexical (h : (lexical c text).1.kind = .ident) :
    isIdentifier (lexical c text).1.text := by
  have symbols : ∀ k ∈ Kind.symbols, k ≠ .ident := by decide
  revert h
  unfold lexical
  split
  · exact nofun
  split
  · rw [kind_bracketed]
    exact nofun
  split
  · exact nofun
  split
  · next start => exact isIdentifier_word start
  cases found : symbol? (c :: text) with
  | none => exact nofun
  | some found => exact fun h => absurd h (symbols _ (kind_symbol? ‹_›))

end Piece

namespace Grammar

/-- All names in a text are identifiers. -/
def Named (ts : List Terminal) : Prop := ∀ n, .name n ∈ ts → isIdentifier n.toList

end Grammar

/-- The names of a source are identifiers. -/
theorem Source.named_terminals (s : Source) : Grammar.Named s.terminals := by
  intro n hn
  obtain ⟨x, hx, terminal⟩ := List.mem_map.1 hn
  obtain ⟨xs, m', eq, all⟩ := Lexeme.ofPieces_eq_concat {} (Piece.ofText s.text)
  have lexemes : s.lexemes = xs ++ [Margin.endOfInput m'] := eq
  rw [tokens, lexemes, List.map_append, List.map_singleton, List.dropLast_concat] at hx
  obtain ⟨y, hy, rfl⟩ := List.mem_map.1 hx
  obtain ⟨m, t, ht, rfl⟩ := all y hy
  obtain ⟨c, rest, first⟩ := Piece.exists_first_of_mem_ofText ht
  have kind : t.kind = .ident := by
    have look := (m.lexeme t).token.look_terminal []
    rw [terminal] at look
    exact look.symm
  have text : String.ofList t.text = n := Token.text_of_terminal_name terminal
  have lexical : (Piece.lexical c rest).1 = t := congrArg Prod.fst (Piece.lexical_of_first first)
  rw [← text, String.toList_ofList, ← lexical]
  exact Piece.isIdentifier_of_lexical ((congrArg Lexical.kind lexical).trans kind)

/-! ## What phrases yield -/

/-- Every node, down to the leaves, is one of a program without errors. -/
def Node.Clear (n : Node) : Prop := n.All Node.Evident

theorem Node.clear_iff {n : Node} : n.Clear ↔ n.Evident ∧ ∀ c ∈ n.children, c.Clear := all_iff

namespace Grammar

variable {α : Type} {P : Phrase α} {good : α → Prop} {k : Kind} {t : Terminal} {ts : List Terminal}

theorem Named.head {n : String} (h : Named (.name n :: ts)) : isIdentifier n.toList :=
  h n List.mem_cons_self

theorem Named.tail (h : Named (t :: ts)) : Named ts := fun n hn => h n (List.mem_cons_of_mem t hn)

/-- In front of a text whose names are identifiers, all that a phrase means is good, and the names
behind it are identifiers still. -/
def Yields (P : Phrase α) (good : α → Prop) : Prop :=
  ∀ ⦃ts a rest⦄, P ts a rest → Named ts → good a ∧ Named rest

/-! ### Lists and options -/

theorem yields_further (h : Yields P good) : Yields (Further k P) fun xs => ∀ x ∈ xs, good x := by
  intro ts xs rest hxs
  induction hxs with
  | nil => exact fun named => ⟨nofun, named⟩
  | cons hx _ ih =>
    intro named
    obtain ⟨first, named⟩ := h hx named.tail
    obtain ⟨more, named⟩ := ih named
    exact ⟨List.forall_mem_cons.2 ⟨first, more⟩, named⟩

theorem yields_listed (h : Yields P good) : Yields (Listed k P) fun xs => ∀ x ∈ xs, good x := by
  rintro ts xs rest ⟨hx, hxs⟩ named
  obtain ⟨first, named⟩ := h hx named
  obtain ⟨more, named⟩ := yields_further h hxs named
  exact ⟨List.forall_mem_cons.2 ⟨first, more⟩, named⟩

theorem yields_maybe {items : Phrase (List α)} (h : Yields items fun xs => ∀ x ∈ xs, good x) :
    Yields (Maybe items) fun xs => ∀ x ∈ xs, good x := by
  intro ts xs rest hxs named
  cases hxs with
  | none => exact ⟨nofun, named⟩
  | some hxs => exact h hxs named

theorem yields_led (h : Yields P good) : Yields (Led k P) fun x => ∀ a ∈ x, good a := by
  intro ts x rest hx named
  cases hx with
  | none => exact ⟨nofun, named⟩
  | some hx =>
    obtain ⟨found, named⟩ := h hx named.tail
    exact ⟨by simpa using found, named⟩

/-! ### Names -/

theorem plain_plainName {n : String} (h : isIdentifier n.toList) : (plainName n).Plain :=
  ⟨⟨h, rfl⟩, rfl⟩

theorem yields_name : Yields Name Ident.Plain := by
  rintro ts n rest ⟨⟩ named
  exact ⟨plain_plainName named.head, named.tail⟩

theorem yields_attName : Yields AttName Ident.Proper := by
  intro ts n rest hn named
  cases hn with
  | plain => exact ⟨(plain_plainName named.head).toProper, named.tail⟩
  | attrib => exact ⟨⟨named.head, rfl⟩, named.tail.tail.tail.tail⟩

theorem yields_params : Yields Params fun ps => ∀ n ∈ ps.1, n.Plain := by
  intro ts ps rest hps named
  cases hps with
  | none => exact ⟨nofun, named⟩
  | names hns => exact yields_listed yields_name hns named
  | namesDots hns =>
    obtain ⟨plain, named⟩ := yields_listed yields_name hns named
    exact ⟨plain, named.tail.tail⟩
  | dots => exact ⟨nofun, named.tail⟩

theorem clear_name {n : String} (h : isIdentifier n.toList) : (Node.exp (.name n {})).Clear :=
  Node.clear_iff.2 ⟨h, nofun⟩

theorem clear_string (text : String) : (Node.exp (.string text {})).Clear :=
  Node.clear_iff.2 ⟨trivial, nofun⟩

theorem clear_index {e key : Exp} (he : (Node.exp e).Clear) (hkey : (Node.exp key).Clear) :
    (Node.exp (.index e key {})).Clear :=
  Node.clear_iff.2 ⟨trivial, List.forall_mem_cons.2 ⟨he, List.forall_mem_singleton.2 hkey⟩⟩

theorem yields_path : Yields Path fun e => (Node.exp e).Clear := by
  intro ts e rest he
  induction he with
  | name => exact fun named => ⟨clear_name named.head, named.tail⟩
  | field _ ih =>
    intro named
    obtain ⟨clear, named⟩ := ih named
    exact ⟨clear_index clear (clear_string _), named.tail.tail⟩

theorem yields_funcName : Yields FuncName fun target => (Node.exp target.1).Clear := by
  intro ts target rest h named
  cases h with
  | plain he => exact yields_path he named
  | method he =>
    obtain ⟨clear, named⟩ := yields_path he named
    exact ⟨clear_index clear (clear_string _), named.tail.tail⟩

/-! ### Expressions -/

/-- All that the phrases of a level mean is clear. -/
structure Level.Yields (d : Level) : Prop where
  exp (rank : Nat) : Grammar.Yields (d.exp rank) fun e => (Node.exp e).Clear
  block : Grammar.Yields d.block fun b => (Node.block b).Clear

variable {d : Level} (hd : d.Yields)

include hd

theorem yields_exps : Yields d.exps fun es => ∀ e ∈ es, (Node.exp e).Clear :=
  yields_listed (hd.exp 0)

theorem yields_tableField : Yields (TableField d) fun f => ∀ n ∈ Node.ofField f, n.Clear := by
  intro ts f rest hf named
  cases hf with
  | keyed key value =>
    obtain ⟨hkey, named⟩ := hd.exp 0 key named.tail
    obtain ⟨hvalue, named⟩ := hd.exp 0 value named.tail.tail
    exact ⟨List.forall_mem_cons.2 ⟨hkey, List.forall_mem_singleton.2 hvalue⟩, named⟩
  | named value =>
    obtain ⟨hvalue, named⟩ := hd.exp 0 value named.tail.tail
    exact ⟨List.forall_mem_cons.2 ⟨clear_string _, List.forall_mem_singleton.2 hvalue⟩, named⟩
  | item value =>
    obtain ⟨hvalue, named⟩ := hd.exp 0 value named
    exact ⟨List.forall_mem_singleton.2 hvalue, named⟩

theorem yields_fields :
    Yields (Fields d) fun fs => ∀ f ∈ fs, ∀ n ∈ Node.ofField f, n.Clear := by
  intro ts fs rest hfs
  induction hfs with
  | nil => exact fun named => ⟨nofun, named⟩
  | last hf =>
    intro named
    obtain ⟨clear, named⟩ := yields_tableField hd hf named
    exact ⟨List.forall_mem_singleton.2 clear, named⟩
  | cons hf _ _ ih =>
    intro named
    obtain ⟨first, named⟩ := yields_tableField hd hf named
    obtain ⟨more, named⟩ := ih named.tail
    exact ⟨List.forall_mem_cons.2 ⟨first, more⟩, named⟩

theorem yields_table : Yields (Table d) fun e => (Node.exp e).Clear := by
  rintro ts e rest ⟨hfs⟩ named
  obtain ⟨clear, named⟩ := yields_fields hd hfs named.tail
  refine ⟨Node.clear_iff.2 ⟨trivial, fun n hn => ?_⟩, named.tail⟩
  obtain ⟨f, hf, hn⟩ := List.mem_flatMap.1 hn
  exact clear f hf n hn

theorem yields_funcBody {isMethod : Bool} :
    Yields (FuncBody d isMethod) fun e => (Node.exp e).Clear := by
  rintro ts e rest ⟨params, body⟩ named
  obtain ⟨plain, named⟩ := yields_params params named.tail
  obtain ⟨clear, named⟩ := hd.block body named.tail
  exact ⟨Node.clear_iff.2 ⟨plain, List.forall_mem_singleton.2 clear⟩, named.tail⟩

theorem yields_args : Yields (Args d) fun es => ∀ e ∈ es, (Node.exp e).Clear := by
  intro ts es rest hes named
  cases hes with
  | exps hes =>
    obtain ⟨clear, named⟩ := yields_maybe (yields_exps hd) hes named.tail
    exact ⟨clear, named.tail⟩
  | table he =>
    obtain ⟨clear, named⟩ := yields_table hd he named
    exact ⟨List.forall_mem_singleton.2 clear, named⟩
  | string => exact ⟨List.forall_mem_singleton.2 (clear_string _), named.tail⟩

omit hd in
theorem clear_enclose {e : Exp} (h : (Node.exp e).Clear) : (Node.exp (enclose e)).Clear := by
  unfold enclose
  split
  · exact Node.clear_iff.2 ⟨trivial, List.forall_mem_singleton.2 h⟩
  · exact h

omit hd in
theorem clear_call {f : Exp} {method : Option Exp} {args : List Exp} (hf : (Node.exp f).Clear)
    (hmethod : ∀ m ∈ method, (Node.exp m).Clear) (hargs : ∀ e ∈ args, (Node.exp e).Clear) :
    (Node.exp (.call f method args {})).Clear := by
  refine Node.clear_iff.2 ⟨trivial, List.forall_mem_cons.2 ⟨hf, List.forall_mem_append.2 ⟨?_, ?_⟩⟩⟩
  · simpa using hmethod
  · simpa using hargs

theorem yields_prefixed : Yields (Prefixed d) fun e => (Node.exp e).Clear := by
  intro ts e rest he
  induction he with
  | name => exact fun named => ⟨clear_name named.head, named.tail⟩
  | parens he =>
    intro named
    obtain ⟨clear, named⟩ := hd.exp 0 he named.tail
    exact ⟨clear_enclose clear, named.tail⟩
  | field _ ih =>
    intro named
    obtain ⟨clear, named⟩ := ih named
    exact ⟨clear_index clear (clear_string _), named.tail.tail⟩
  | index _ key ih =>
    intro named
    obtain ⟨clear, named⟩ := ih named
    obtain ⟨hkey, named⟩ := hd.exp 0 key named.tail
    exact ⟨clear_index clear hkey, named.tail⟩
  | call _ args ih =>
    intro named
    obtain ⟨clear, named⟩ := ih named
    obtain ⟨hargs, named⟩ := yields_args hd args named
    exact ⟨clear_call clear nofun hargs, named⟩
  | method _ args ih =>
    intro named
    obtain ⟨clear, named⟩ := ih named
    obtain ⟨hargs, named⟩ := yields_args hd args named.tail.tail
    exact ⟨clear_call clear (by simpa using clear_string _) hargs, named⟩

theorem yields_complete : Yields (Complete d) fun e => (Node.exp e).Clear := by
  rintro ts e rest ⟨he, -⟩ named
  exact yields_prefixed hd he named

theorem yields_simple : Yields (Simple d) fun e => (Node.exp e).Clear := by
  intro ts e rest he named
  cases he with
  | function he => exact yields_funcBody hd he named.tail
  | table he => exact yields_table hd he named
  | complete he => exact yields_complete hd he named
  | _ => exact ⟨Node.clear_iff.2 ⟨trivial, nofun⟩, named.tail⟩

theorem yields_expression (rank : Nat) :
    Yields (Expression d rank) fun e => (Node.exp e).Clear := by
  intro ts e rest he
  induction he with
  | simple he => exact yields_simple hd he
  | unary _ _ he =>
    intro named
    obtain ⟨clear, named⟩ := hd.exp _ he named.tail
    exact ⟨Node.clear_iff.2 ⟨trivial, List.forall_mem_singleton.2 clear⟩, named⟩
  | binary _ _ _ rhs ih =>
    intro named
    obtain ⟨hlhs, named⟩ := ih named
    obtain ⟨hrhs, named⟩ := hd.exp _ rhs named.tail
    exact ⟨Node.clear_iff.2
      ⟨trivial, List.forall_mem_cons.2 ⟨hlhs, List.forall_mem_singleton.2 hrhs⟩⟩, named⟩

/-! ### Statements -/

theorem yields_branch : Yields (Branch d) fun c => ∀ n ∈ Node.ofClause c, n.Clear := by
  rintro ts c rest ⟨condition, body⟩ named
  obtain ⟨hcondition, named⟩ := hd.exp 0 condition named
  obtain ⟨hbody, named⟩ := hd.block body named.tail
  exact ⟨List.forall_mem_cons.2 ⟨hcondition, List.forall_mem_singleton.2 hbody⟩, named⟩

theorem yields_target : Yields (Target d) fun e => (Node.exp e).Clear := by
  rintro ts e rest ⟨he, -⟩ named
  exact yields_complete hd he named

theorem yields_statement : Yields (Statement d) fun st => ∀ x ∈ st, (Node.stat x).Clear := by
  -- It remains to look at the names of the statement and at the nodes below it.
  have of {x : Stat} {rest : List Terminal} (evident : (Node.stat x).Evident)
      (below : ∀ n ∈ (Node.stat x).children, n.Clear) (named : Named rest) :
      (∀ y ∈ some x, (Node.stat y).Clear) ∧ Named rest :=
    ⟨by simpa using Node.clear_iff.2 ⟨evident, below⟩, named⟩
  intro ts st rest hst named
  cases hst with
  | empty => exact ⟨nofun, named.tail⟩
  | breakOut => exact of trivial nofun named.tail
  | label => exact of (plain_plainName named.tail.head) nofun named.tail.tail.tail
  | goto => exact of (plain_plainName named.tail.head) nofun named.tail.tail
  | scope body =>
    obtain ⟨hbody, named⟩ := hd.block body named.tail
    exact of trivial (List.forall_mem_singleton.2 hbody) named.tail
  | whileLoop condition body =>
    obtain ⟨hcondition, named⟩ := hd.exp 0 condition named.tail
    obtain ⟨hbody, named⟩ := hd.block body named.tail
    exact of trivial (by simp [Node.children, hcondition, hbody]) named.tail
  | repeatLoop body condition =>
    obtain ⟨hbody, named⟩ := hd.block body named.tail
    obtain ⟨hcondition, named⟩ := hd.exp 0 condition named.tail
    exact of trivial (by simp [Node.children, hcondition, hbody]) named
  | branch clauses other =>
    obtain ⟨hclauses, named⟩ := yields_listed (yields_branch hd) clauses named.tail
    obtain ⟨hother, named⟩ := yields_led hd.block other named
    refine of trivial (List.forall_mem_append.2 ⟨fun n hn => ?_, by simpa using hother⟩) named.tail
    obtain ⟨c, hc, hn⟩ := List.mem_flatMap.1 hn
    exact hclauses c hc n hn
  | numericFor start limit step body =>
    have plain := plain_plainName named.tail.head
    obtain ⟨hstart, named⟩ := hd.exp 0 start named.tail.tail.tail
    obtain ⟨hlimit, named⟩ := hd.exp 0 limit named.tail
    obtain ⟨hstep, named⟩ := yields_led (hd.exp 0) step named
    obtain ⟨hbody, named⟩ := hd.block body named.tail
    refine of plain ?_ named.tail
    simpa [Node.children, hstart, hlimit, hbody, or_imp, forall_and] using hstep
  | genericFor names exps body =>
    obtain ⟨plain, named⟩ := yields_listed yields_name names named.tail
    obtain ⟨hexps, named⟩ := yields_exps hd exps named.tail
    obtain ⟨hbody, named⟩ := hd.block body named.tail
    refine of plain ?_ named.tail
    simpa [Node.children, hbody, or_imp, forall_and] using hexps
  | function target f =>
    obtain ⟨htarget, named⟩ := yields_funcName target named.tail
    obtain ⟨hf, named⟩ := yields_funcBody hd f named
    exact of trivial (by simp [Node.children, htarget, hf]) named
  | localFunction f =>
    have plain := plain_plainName named.tail.tail.head
    obtain ⟨hf, named⟩ := yields_funcBody hd f named.tail.tail.tail
    exact of plain (List.forall_mem_singleton.2 hf) named
  | @locals _ _ _ es _ names exps =>
    obtain ⟨proper, named⟩ := yields_listed yields_attName names named.tail
    obtain ⟨hexps, named⟩ := yields_led (yields_exps hd) exps named
    refine of proper (List.forall_mem_map.2 ?_) named
    cases es with
    | none => exact nofun
    | some es => exact hexps es rfl
  | assign targets exps =>
    obtain ⟨htargets, named⟩ := yields_listed (yields_target hd) targets named
    obtain ⟨hexps, named⟩ := yields_exps hd exps named.tail
    exact of trivial (List.forall_mem_append.2
      ⟨List.forall_mem_map.2 htargets, List.forall_mem_map.2 hexps⟩) named
  | call he isCall =>
    obtain ⟨clear, named⟩ := yields_complete hd he named
    exact of isCall (List.forall_mem_singleton.2 clear) named

theorem yields_return : Yields (Return d) fun st => (Node.stat st).Clear := by
  intro ts st rest hst named
  cases hst with
  | plain exps =>
    obtain ⟨hexps, named⟩ := yields_maybe (yields_exps hd) exps named.tail
    exact ⟨Node.clear_iff.2 ⟨trivial, List.forall_mem_map.2 hexps⟩, named⟩
  | ended exps =>
    obtain ⟨hexps, named⟩ := yields_maybe (yields_exps hd) exps named.tail
    exact ⟨Node.clear_iff.2 ⟨trivial, List.forall_mem_map.2 hexps⟩, named.tail⟩

theorem yields_stats : Yields (Stats d) fun ss => ∀ x ∈ ss, (Node.stat x).Clear := by
  intro ts ss rest hss
  induction hss with
  | nil => exact fun named => ⟨nofun, named⟩
  | last hst =>
    intro named
    obtain ⟨clear, named⟩ := yields_return hd hst named
    exact ⟨List.forall_mem_singleton.2 clear, named⟩
  | cons hst _ ih =>
    intro named
    obtain ⟨first, named⟩ := yields_statement hd hst named
    obtain ⟨more, named⟩ := ih named
    exact ⟨List.forall_mem_append.2 ⟨by simpa using first, more⟩, named⟩

theorem yields_body : Yields (Body d) fun b => (Node.block b).Clear := by
  rintro ts b rest ⟨hss⟩ named
  obtain ⟨clear, named⟩ := yields_stats hd hss named
  exact ⟨Node.clear_iff.2 ⟨trivial, List.forall_mem_map.2 clear⟩, named⟩

omit hd in
/-- The phrases of every level yield clear trees. -/
theorem yields_level (n : Nat) : (level n).Yields := by
  induction n with
  | zero => exact ⟨fun _ _ _ _ no => no.elim, fun _ _ _ no => no.elim⟩
  | succ n ih => exact ⟨yields_expression ih, yields_body ih⟩

end Grammar

/-! ## Shapes -/

namespace Node

/-- A node without its locations. -/
def shape : Node → Node
  | block b => block b.shape
  | stat x => stat x.shape
  | exp e => exp e.shape

theorem ofField_shape (f : Field) : ofField f.shape = (ofField f).map shape := by
  cases f <;> simp [Field.shape, ofField, shape]

theorem ofClause_shape (c : Clause) : ofClause c.shape = (ofClause c).map shape := by
  cases c
  simp [Clause.shape, ofClause, shape]

/-- The nodes below a shape are the shapes of the nodes below. -/
theorem children_shape (n : Node) : n.shape.children = n.children.map shape := by
  cases n with
  | block b =>
    cases b
    simp [shape, Block.shape, children, Block.stats, Stat.shapes_eq_map, Function.comp_def]
  | stat x =>
    cases x <;>
      simp [shape, Stat.shape, children, Exp.shapes_eq_map, Exp.shape?_eq_map, Block.shape?_eq_map,
        Clause.shapes_eq_map, List.flatMap_map, List.map_flatMap, ofClause_shape, Option.toList_map,
        Function.comp_def]
  | exp e =>
    cases e <;>
      simp [shape, Exp.shape, children, Exp.shapes_eq_map, Exp.shape?_eq_map, Field.shapes_eq_map,
        List.flatMap_map, List.map_flatMap, ofField_shape, Option.toList_map, Function.comp_def]

theorem evident_of_shape {n : Node} (h : n.shape.Evident) : n.Evident := by
  have proper {x : Ident} (hx : x.shape.Proper) : x.Proper := ⟨hx.word, hx.valid⟩
  have plain {x : Ident} (hx : x.shape.Plain) : x.Plain := ⟨proper hx.toProper, hx.attrib⟩
  cases n with
  | block => trivial
  | stat x =>
    cases x with
    | label | goto | numericFor | localFunction => exact plain h
    | genericFor => exact fun x hx => plain (h _ (List.mem_map_of_mem hx))
    | locals => exact fun x hx => proper (h _ (List.mem_map_of_mem hx))
    | call c =>
      show c.isCall
      rw [← c.isCall_shape]
      exact h
    | _ => trivial
  | exp e =>
    cases e with
    | name => exact h
    | function => exact fun x hx => plain (h _ (List.mem_map_of_mem hx))
    | bad => exact h
    | _ => trivial

/-- A tree is clear if its shape is. -/
theorem Clear.of_shape {n : Node} (h : n.shape.Clear) : n.Clear := by
  intro m hm
  refine evident_of_shape (h m.shape (hm.lift shape fun a b child => ?_))
  show b.shape ∈ a.shape.children
  rw [children_shape]
  exact List.mem_map_of_mem child

end Node

/-! ## Programs -/

namespace Source

/-- All nodes of a program without errors are clear. -/
theorem clear_of_program {s : Source} {m : Nat} {tree : Block} (h : (s.program m).tree = some tree)
    (errors : (s.program m).errors = []) : (Node.block tree).Clear := by
  have zero := s.program_eq_of_errors_eq_nil (Nat.zero_le m) errors
  rw [← zero] at h
  have derives := (derives_of_program (clean_of_program h (zero ▸ errors)) h).1
  exact .of_shape (Grammar.yields_body (Grammar.yields_level _) derives s.named_terminals).1

/-- Two programs without errors and with finite floats have the same dump if and only if they differ
in nothing but locations. -/
theorem toSexp_eq_iff_shape_eq {s s' : Source} {m m' : Nat} {tree tree' : Block}
    (h : (s.program m).tree = some tree) (errors : (s.program m).errors = [])
    (h' : (s'.program m').tree = some tree') (errors' : (s'.program m').errors = [])
    (finite : (Node.block tree).All fun n => n.isFinite)
    (finite' : (Node.block tree').All fun n => n.isFinite) :
    tree.toSexp = tree'.toSexp ↔ tree.shape = tree'.shape := by
  refine ⟨fun same => ?_, fun same => ?_⟩
  · have told : (Node.block tree).Told := fun n hn => ⟨clear_of_program h errors n hn, finite n hn⟩
    have told' : (Node.block tree').Told :=
      fun n hn => ⟨clear_of_program h' errors' n hn, finite' n hn⟩
    exact Block.shape_inj told told' same
  · rw [← tree.toSexp_shape, same, tree'.toSexp_shape]

/-- An attribute may stand apart from its name, and numbers and texts have other spellings. -/
theorem toSexp_eq_iff_shape_eq_locals :
    let s := ofBytes "a" "local x <const>, y = -2 ^ 0.5, \"z\"".toUTF8.toList
    let s' := ofBytes "b" "local x<const>,y=-2^5e-1,[[z]]".toUTF8.toList
    ∃ tree tree', (s.program 30).tree = some tree ∧ (s.program 30).errors = [] ∧
      (s'.program 0).tree = some tree' ∧ (s'.program 0).errors = [] ∧
      ((Node.block tree).All fun n => n.isFinite) ∧ ((Node.block tree').All fun n => n.isFinite) ∧
      tree.toSexp = tree'.toSexp ∧ tree.shape = tree'.shape := by
  intro s s'
  have isSome : (s.program 30).tree.isSome := by decide +kernel
  have isSome' : (s'.program 0).tree.isSome := by decide +kernel
  have errors : (s.program 30).errors = [] := by decide +kernel
  have errors' : (s'.program 0).errors = [] := by decide +kernel
  have finite : ∀ tree ∈ (s.program 30).tree, (Node.block tree).All fun n => n.isFinite := by
    decide +kernel
  have finite' : ∀ tree ∈ (s'.program 0).tree, (Node.block tree).All fun n => n.isFinite := by
    decide +kernel
  have same : (s.program 30).tree.map Block.toSexp = (s'.program 0).tree.map Block.toSexp := by
    decide +kernel
  obtain ⟨tree, h⟩ := Option.isSome_iff_exists.1 isSome
  obtain ⟨tree', h'⟩ := Option.isSome_iff_exists.1 isSome'
  rw [h, h'] at same
  have same := Option.some.inj same
  exact ⟨tree, tree', h, errors, h', errors', finite tree h, finite' tree' h', same,
    (toSexp_eq_iff_shape_eq h errors h' errors' (finite tree h) (finite' tree' h')).1 same⟩

end Source

end LuaFront
