import LuaFront.Proofs.Grammar

/-!
# Phrases without what is behind them

A phrase stands in front of a text, and the grammar looks at this text in a single place: no opening
parenthesis follows a complete name or parenthesised expression. So the end of the text can be taken
away, and the phrase is still one (`Separable`). In particular a phrase is one by itself, and what
it means depends on nothing but its own tokens.

* `separable_level`: the phrases of every level are separable.
-/

namespace LuaFront.Grammar

variable {α : Type} {P : Phrase α} {k : Kind}

/-- A phrase remains one if the end of what is left behind it is taken away. -/
def Separable (P : Phrase α) : Prop :=
  ∀ ⦃ts a r⦄ (rest : List Terminal), P ts a (r ++ rest) → ∃ front, ts = front ++ rest ∧ P front a r

/-- The first terminal of a text, if there is one, is that of all longer texts. -/
theorem look_eq_or_eof (r rest : List Terminal) : look r = look (r ++ rest) ∨ look r = .eof := by
  cases r with
  | nil => exact .inr rfl
  | cons t r => cases t <;> exact .inl rfl

/-! ## Lists and options -/

theorem separable_further (h : Separable P) : Separable (Further k P) := by
  intro ts xs r rest hxs
  generalize eq : r ++ rest = back at hxs
  induction hxs generalizing r with
  | nil => exact ⟨r, eq.symm, .nil⟩
  | cons hx _ ih =>
    obtain ⟨back, rfl, more⟩ := ih eq
    obtain ⟨front, rfl, hx'⟩ := h rest hx
    exact ⟨_ :: front, rfl, .cons hx' more⟩

theorem separable_listed (h : Separable P) : Separable (Listed k P) := by
  intro ts xs r rest hxs
  obtain ⟨hx, more⟩ := hxs
  obtain ⟨back, rfl, more'⟩ := separable_further h rest more
  obtain ⟨front, rfl, hx'⟩ := h rest hx
  exact ⟨front, rfl, .mk hx' more'⟩

theorem separable_maybe {items : Phrase (List α)} (h : Separable items) :
    Separable (Maybe items) := by
  intro ts xs r rest hxs
  cases hxs with
  | none => exact ⟨r, rfl, .none⟩
  | some hxs =>
    obtain ⟨front, rfl, hxs'⟩ := h rest hxs
    exact ⟨front, rfl, .some hxs'⟩

theorem separable_led (h : Separable P) : Separable (Led k P) := by
  intro ts x r rest hx
  cases hx with
  | none => exact ⟨r, rfl, .none⟩
  | some hx =>
    obtain ⟨front, rfl, hx'⟩ := h rest hx
    exact ⟨_ :: front, rfl, .some hx'⟩

/-! ## Names -/

theorem separable_name : Separable Name := by
  rintro ts n r rest ⟨⟩
  exact ⟨_ :: r, rfl, .mk⟩

theorem separable_attName : Separable AttName := by
  intro ts n r rest hn
  cases hn with
  | plain => exact ⟨_ :: r, rfl, .plain⟩
  | attrib value => exact ⟨_ :: _ :: _ :: _ :: r, rfl, .attrib value⟩

theorem separable_params : Separable Params := by
  intro ts ps r rest hps
  cases hps with
  | none => exact ⟨r, rfl, .none⟩
  | names hns =>
    obtain ⟨front, rfl, hns'⟩ := separable_listed separable_name rest hns
    exact ⟨front, rfl, .names hns'⟩
  | namesDots hns =>
    obtain ⟨front, rfl, hns'⟩ := separable_listed separable_name (r := _ :: _ :: r) rest hns
    exact ⟨front, rfl, .namesDots hns'⟩
  | dots => exact ⟨_ :: r, rfl, .dots⟩

theorem separable_path : Separable Path := by
  intro ts e r rest he
  generalize eq : r ++ rest = back at he
  induction he generalizing r with
  | name =>
    subst eq
    exact ⟨_ :: r, rfl, .name⟩
  | field _ ih =>
    subst eq
    obtain ⟨front, rfl, he⟩ := ih (r := _ :: _ :: r) rfl
    exact ⟨front, rfl, .field he⟩

theorem separable_funcName : Separable FuncName := by
  intro ts target r rest h
  cases h with
  | plain he =>
    obtain ⟨front, rfl, he'⟩ := separable_path rest he
    exact ⟨front, rfl, .plain he'⟩
  | method he =>
    obtain ⟨front, rfl, he'⟩ := separable_path (r := _ :: _ :: r) rest he
    exact ⟨front, rfl, .method he'⟩

/-! ## Expressions -/

/-- The phrases of a level are separable. -/
structure Level.Separable (d : Level) : Prop where
  exp (rank : Nat) : Grammar.Separable (d.exp rank)
  block : Grammar.Separable d.block

variable {d : Level} (hd : d.Separable)

include hd

theorem separable_exps : Separable d.exps := separable_listed (hd.exp 0)

theorem separable_tableField : Separable (TableField d) := by
  intro ts f r rest hf
  cases hf with
  | keyed key value =>
    obtain ⟨back, rfl, value'⟩ := hd.exp 0 rest value
    obtain ⟨front, rfl, key'⟩ := hd.exp 0 (r := _ :: _ :: back) rest key
    exact ⟨_ :: front, rfl, .keyed key' value'⟩
  | named value =>
    obtain ⟨front, rfl, value'⟩ := hd.exp 0 rest value
    exact ⟨_ :: _ :: front, rfl, .named value'⟩
  | item value =>
    obtain ⟨front, rfl, value'⟩ := hd.exp 0 rest value
    exact ⟨front, rfl, .item value'⟩

theorem separable_fields : Separable (Fields d) := by
  intro ts fs r rest hfs
  generalize eq : r ++ rest = back at hfs
  induction hfs generalizing r with
  | nil => exact ⟨r, eq.symm, .nil⟩
  | last hf =>
    subst eq
    obtain ⟨front, rfl, hf'⟩ := separable_tableField hd rest hf
    exact ⟨front, rfl, .last hf'⟩
  | cons hf sep _ ih =>
    obtain ⟨back, rfl, more⟩ := ih eq
    obtain ⟨front, rfl, hf'⟩ := separable_tableField hd (r := _ :: back) rest hf
    exact ⟨front, rfl, .cons hf' sep more⟩

theorem separable_table : Separable (Table d) := by
  rintro ts e r rest ⟨hfs⟩
  obtain ⟨front, rfl, hfs'⟩ := separable_fields hd (r := _ :: r) rest hfs
  exact ⟨_ :: front, rfl, .mk hfs'⟩

theorem separable_funcBody {isMethod : Bool} : Separable (FuncBody d isMethod) := by
  rintro ts e r rest ⟨params, body⟩
  obtain ⟨back, rfl, body'⟩ := hd.block (r := _ :: r) rest body
  obtain ⟨front, rfl, params'⟩ := separable_params (r := _ :: back) rest params
  exact ⟨_ :: front, rfl, .mk params' body'⟩

theorem separable_args : Separable (Args d) := by
  intro ts es r rest hes
  cases hes with
  | exps hes =>
    obtain ⟨front, rfl, hes'⟩ := separable_maybe (separable_exps hd) (r := _ :: r) rest hes
    exact ⟨_ :: front, rfl, .exps hes'⟩
  | table he =>
    obtain ⟨front, rfl, he'⟩ := separable_table hd rest he
    exact ⟨front, rfl, .table he'⟩
  | string => exact ⟨_ :: r, rfl, .string⟩

theorem separable_prefixed : Separable (Prefixed d) := by
  intro ts e r rest he
  generalize eq : r ++ rest = back at he
  induction he generalizing r with
  | name =>
    subst eq
    exact ⟨_ :: r, rfl, .name⟩
  | parens he =>
    subst eq
    obtain ⟨front, rfl, he'⟩ := hd.exp 0 (r := _ :: r) rest he
    exact ⟨_ :: front, rfl, .parens he'⟩
  | field _ ih =>
    subst eq
    obtain ⟨front, rfl, he⟩ := ih (r := _ :: _ :: r) rfl
    exact ⟨front, rfl, .field he⟩
  | index _ key ih =>
    subst eq
    obtain ⟨back, rfl, key'⟩ := hd.exp 0 (r := _ :: r) rest key
    obtain ⟨front, rfl, he⟩ := ih (r := _ :: back) rfl
    exact ⟨front, rfl, .index he key'⟩
  | call _ args ih =>
    subst eq
    obtain ⟨back, rfl, args'⟩ := separable_args hd rest args
    obtain ⟨front, rfl, he⟩ := ih rfl
    exact ⟨front, rfl, .call he args'⟩
  | method _ args ih =>
    subst eq
    obtain ⟨back, rfl, args'⟩ := separable_args hd rest args
    obtain ⟨front, rfl, he⟩ := ih (r := _ :: _ :: back) rfl
    exact ⟨front, rfl, .method he args'⟩

theorem separable_complete : Separable (Complete d) := by
  rintro ts e r rest ⟨he, ends⟩
  obtain ⟨front, rfl, he'⟩ := separable_prefixed hd rest he
  refine ⟨front, rfl, .mk he' ?_⟩
  rcases look_eq_or_eof r rest with eq | eq
  · rw [eq]
    exact ends
  · rw [eq]
    exact nofun

theorem separable_simple : Separable (Simple d) := by
  intro ts e r rest he
  cases he with
  | kwNil => exact ⟨_ :: r, rfl, .kwNil⟩
  | kwTrue => exact ⟨_ :: r, rfl, .kwTrue⟩
  | kwFalse => exact ⟨_ :: r, rfl, .kwFalse⟩
  | integer value => exact ⟨_ :: r, rfl, .integer value⟩
  | float value => exact ⟨_ :: r, rfl, .float value⟩
  | string => exact ⟨_ :: r, rfl, .string⟩
  | vararg => exact ⟨_ :: r, rfl, .vararg⟩
  | function he =>
    obtain ⟨front, rfl, he'⟩ := separable_funcBody hd rest he
    exact ⟨_ :: front, rfl, .function he'⟩
  | table he =>
    obtain ⟨front, rfl, he'⟩ := separable_table hd rest he
    exact ⟨front, rfl, .table he'⟩
  | complete he =>
    obtain ⟨front, rfl, he'⟩ := separable_complete hd rest he
    exact ⟨front, rfl, .complete he'⟩

theorem separable_expression (rank : Nat) : Separable (Expression d rank) := by
  intro ts e r rest he
  generalize eq : r ++ rest = back at he
  induction he generalizing r with
  | simple he =>
    subst eq
    obtain ⟨front, rfl, he'⟩ := separable_simple hd rest he
    exact ⟨front, rfl, .simple he'⟩
  | unary hop le he =>
    subst eq
    obtain ⟨front, rfl, he'⟩ := hd.exp _ rest he
    exact ⟨_ :: front, rfl, .unary hop le he'⟩
  | binary hop le _ rhs ih =>
    subst eq
    obtain ⟨back, rfl, rhs'⟩ := hd.exp _ rest rhs
    obtain ⟨front, rfl, lhs⟩ := ih (r := _ :: back) rfl
    exact ⟨front, rfl, .binary hop le lhs rhs'⟩

/-! ## Statements -/

theorem separable_branch : Separable (Branch d) := by
  rintro ts c r rest ⟨condition, body⟩
  obtain ⟨back, rfl, body'⟩ := hd.block rest body
  obtain ⟨front, rfl, condition'⟩ := hd.exp 0 (r := _ :: back) rest condition
  exact ⟨front, rfl, .mk condition' body'⟩

theorem separable_target : Separable (Target d) := by
  rintro ts e r rest ⟨he, ok⟩
  obtain ⟨front, rfl, he'⟩ := separable_complete hd rest he
  exact ⟨front, rfl, .mk he' ok⟩

theorem separable_statement : Separable (Statement d) := by
  intro ts st r rest hst
  cases hst with
  | empty => exact ⟨_ :: r, rfl, .empty⟩
  | breakOut => exact ⟨_ :: r, rfl, .breakOut⟩
  | label => exact ⟨_ :: _ :: _ :: r, rfl, .label⟩
  | goto => exact ⟨_ :: _ :: r, rfl, .goto⟩
  | scope body =>
    obtain ⟨front, rfl, body'⟩ := hd.block (r := _ :: r) rest body
    exact ⟨_ :: front, rfl, .scope body'⟩
  | whileLoop condition body =>
    obtain ⟨back, rfl, body'⟩ := hd.block (r := _ :: r) rest body
    obtain ⟨front, rfl, condition'⟩ := hd.exp 0 (r := _ :: back) rest condition
    exact ⟨_ :: front, rfl, .whileLoop condition' body'⟩
  | repeatLoop body condition =>
    obtain ⟨back, rfl, condition'⟩ := hd.exp 0 rest condition
    obtain ⟨front, rfl, body'⟩ := hd.block (r := _ :: back) rest body
    exact ⟨_ :: front, rfl, .repeatLoop body' condition'⟩
  | branch clauses other =>
    obtain ⟨back, rfl, other'⟩ := separable_led hd.block (r := _ :: r) rest other
    obtain ⟨front, rfl, clauses'⟩ := separable_listed (separable_branch hd) rest clauses
    exact ⟨_ :: front, rfl, .branch clauses' other'⟩
  | numericFor start limit step body =>
    obtain ⟨inner, rfl, body'⟩ := hd.block (r := _ :: r) rest body
    obtain ⟨more, rfl, step'⟩ := separable_led (hd.exp 0) (r := _ :: inner) rest step
    obtain ⟨back, rfl, limit'⟩ := hd.exp 0 rest limit
    obtain ⟨front, rfl, start'⟩ := hd.exp 0 (r := _ :: back) rest start
    exact ⟨_ :: _ :: _ :: front, rfl, .numericFor start' limit' step' body'⟩
  | genericFor names exps body =>
    obtain ⟨inner, rfl, body'⟩ := hd.block (r := _ :: r) rest body
    obtain ⟨back, rfl, exps'⟩ := separable_exps hd (r := _ :: inner) rest exps
    obtain ⟨front, rfl, names'⟩ := separable_listed separable_name (r := _ :: back) rest names
    exact ⟨_ :: front, rfl, .genericFor names' exps' body'⟩
  | function target f =>
    obtain ⟨back, rfl, f'⟩ := separable_funcBody hd rest f
    obtain ⟨front, rfl, target'⟩ := separable_funcName rest target
    exact ⟨_ :: front, rfl, .function target' f'⟩
  | localFunction f =>
    obtain ⟨front, rfl, f'⟩ := separable_funcBody hd rest f
    exact ⟨_ :: _ :: _ :: front, rfl, .localFunction f'⟩
  | locals names exps =>
    obtain ⟨back, rfl, exps'⟩ := separable_led (separable_exps hd) rest exps
    obtain ⟨front, rfl, names'⟩ := separable_listed separable_attName rest names
    exact ⟨_ :: front, rfl, .locals names' exps'⟩
  | assign targets exps =>
    obtain ⟨back, rfl, exps'⟩ := separable_exps hd rest exps
    obtain ⟨front, rfl, targets'⟩ :=
      separable_listed (separable_target hd) (r := _ :: back) rest targets
    exact ⟨front, rfl, .assign targets' exps'⟩
  | call he isCall =>
    obtain ⟨front, rfl, he'⟩ := separable_complete hd rest he
    exact ⟨front, rfl, .call he' isCall⟩

theorem separable_return : Separable (Return d) := by
  intro ts st r rest hst
  cases hst with
  | plain exps =>
    obtain ⟨front, rfl, exps'⟩ := separable_maybe (separable_exps hd) rest exps
    exact ⟨_ :: front, rfl, .plain exps'⟩
  | ended exps =>
    obtain ⟨front, rfl, exps'⟩ := separable_maybe (separable_exps hd) (r := _ :: r) rest exps
    exact ⟨_ :: front, rfl, .ended exps'⟩

theorem separable_stats : Separable (Stats d) := by
  intro ts ss r rest hss
  generalize eq : r ++ rest = back at hss
  induction hss generalizing r with
  | nil => exact ⟨r, eq.symm, .nil⟩
  | last hst =>
    subst eq
    obtain ⟨front, rfl, hst'⟩ := separable_return hd rest hst
    exact ⟨front, rfl, .last hst'⟩
  | cons hst _ ih =>
    obtain ⟨back, rfl, more⟩ := ih eq
    obtain ⟨front, rfl, hst'⟩ := separable_statement hd rest hst
    exact ⟨front, rfl, .cons hst' more⟩

theorem separable_body : Separable (Body d) := by
  rintro ts b r rest ⟨hss⟩
  obtain ⟨front, rfl, hss'⟩ := separable_stats hd rest hss
  exact ⟨front, rfl, .mk hss'⟩

omit hd in
/-- The phrases of every level are separable. -/
theorem separable_level (n : Nat) : (level n).Separable := by
  induction n with
  | zero => exact ⟨fun _ _ _ _ _ no => no.elim, fun _ _ _ _ no => no.elim⟩
  | succ n ih => exact ⟨separable_expression ih, separable_body ih⟩

end LuaFront.Grammar
