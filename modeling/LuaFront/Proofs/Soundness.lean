import LuaFront.Proofs.Loops
import LuaFront.Proofs.Phrases
import LuaFront.Proofs.Spent

/-!
# What is read without errors is in the grammar

From a spent state, every reader that answers has read a phrase of the grammar, and the answer has
the shape that the phrase means (`Reads`). For operators the priorities that a reader compares are
matched with the ranks of the grammar (`Binds`).

* `sound_nested`: expressions and blocks are phrases of their level.
* `reads_rootBlock`: a program that is read without errors is in the grammar.
-/

namespace LuaFront

theorem BinaryOp.isFixed_of_ofKind? {k : Kind} {op : BinaryOp} (h : BinaryOp.ofKind? k = some op) :
    k.isFixed := by
  revert h
  cases k <;> first | exact fun _ => rfl | exact nofun

theorem UnaryOp.isFixed_of_ofKind? {k : Kind} {op : UnaryOp} (h : UnaryOp.ofKind? k = some op) :
    k.isFixed := by
  revert h
  cases k <;> first | exact fun _ => rfl | exact nofun

namespace Parse

open Grammar

variable {α β : Type}

/-- From `s` on, an answer of `p` is what a phrase means, once `f` has taken its locations away. -/
abbrev Reads (p : Parse α) (s : State) (f : α → β) (P : Phrase β) : Prop :=
  Ensures p s (fun a s' => P s.terms (f a) s'.terms) fun _ => True

/-! ## Priorities and ranks -/

/-- The operators that bind their left operand more tightly than the limit are those of at least a
given rank, and operators in front of an operand have at least this rank too. -/
structure Binds (limit rank : Nat) : Prop where
  lt_iff : ∀ op : BinaryOp, limit < op.leftPriority ↔ rank ≤ op.rank
  le_unary : rank ≤ UnaryOp.rank

theorem binds_zero : Binds 0 0 := by
  refine ⟨fun op => ?_, by decide⟩
  cases op <;> decide

theorem binds_unary : Binds UnaryOp.priority UnaryOp.rank := by
  refine ⟨fun op => ?_, by decide⟩
  cases op <;> decide

theorem binds_right (op : BinaryOp) : Binds op.rightPriority op.rightRank := by
  refine ⟨fun next => ?_, by cases op <;> decide⟩
  cases op <;> cases next <;> decide

/-- Only operators of a lower rank can follow. -/
def Below (rank : Nat) (k : Kind) : Prop := ∀ op, BinaryOp.ofKind? k = some op → op.rank < rank

theorem leftRank_le_of_rank_lt_rightRank {op next : BinaryOp} (h : next.rank < op.rightRank) :
    next.leftRank ≤ op.rank := by
  revert h
  cases op <;> cases next <;> decide

theorem leftRank_le_of_rank_lt_unary {next : BinaryOp} (h : next.rank < UnaryOp.rank) :
    next.leftRank ≤ UnaryOp.rank := by
  revert h
  cases next <;> decide

/-- The readers of one level further down read the phrases of a level. -/
structure Nested.Sound (d : Level) (deeper : Nested) : Prop where
  composed : deeper.Composed
  regular : d.Regular
  exp {limit rank : Nat} {s : State} : Binds limit rank → s.Spent →
    Ensures (deeper.exp limit) s
      (fun e s' => d.exp rank s.terms e.shape s'.terms ∧ Below rank s'.current.kind) fun _ => True
  block {s : State} : s.Spent → Reads deeper.block s Block.shape d.block

/-! ## Lists -/

variable {s : State} {f : α → β} {P : Phrase β} {item : Parse α} {k : Kind}

theorem reads_further (hk : k.isFixed) (composed : Composed item)
    (hitem : ∀ {s}, s.Spent → Reads item s f P) (hs : s.Spent) (xs : List α) :
    Ensures (further k item xs) s
      (fun ys s' => ∃ zs, ys.map f = xs.map f ++ zs ∧ Further k P s.terms zs s'.terms)
      fun _ => True := by
  have ne : k ≠ .eof := by rintro rfl; exact nomatch hk
  have adv : Advances (furtherRound k item) := advances_furtherRound ne composed
  refine .loop_inv adv hs.ends
    (I := fun ys s' => ∃ zs, ys.map f = xs.map f ++ zs ∧
      ∀ ws rest, Further k P s'.terms ws rest → Further k P s.terms (zs ++ ws) rest)
    ⟨[], by simp, fun _ _ h => h⟩ ?_
  rintro ys s₁ steps ⟨zs, eq, read⟩
  have hs₁ := (hs.steps steps).1
  refine .accept (fun hc => ?_) fun _ => .pure ⟨zs, eq, ?_⟩
  · refine hs₁.advanced.bind (hitem hs₁.advanced) fun y s₂ hs₂ hy => .pure ?_
    refine ⟨zs ++ [f y], by simp [eq], fun ws rest more => ?_⟩
    rw [List.append_assoc]
    refine read _ _ ?_
    rw [hs₁.ends.terms_fixed hc hk]
    exact .cons hy more
  · have last := read [] s₁.terms .nil
    rw [List.append_nil] at last
    exact last

theorem reads_commaList (composed : Composed item)
    (hitem : ∀ {s}, s.Spent → Reads item s f P) (hs : s.Spent) :
    Reads (commaList item) s (List.map f) (Listed .comma P) := by
  refine hs.bind (hitem hs) fun x s₁ hs₁ hx => ?_
  refine (reads_further rfl composed hitem hs₁ [x]).imp fun ys s' _ ⟨zs, eq, more⟩ => ?_
  rw [eq]
  exact .mk hx more

section Expression

variable {d : Level} {deeper : Nested} (h : deeper.Sound d)

include h

theorem reads_fullExp (hs : s.Spent) : Reads deeper.fullExp s Exp.shape (d.exp 0) :=
  (h.exp binds_zero hs).imp fun _ _ _ he => he.1

theorem reads_expList (hs : s.Spent) : Reads deeper.expList s (List.map Exp.shape) d.exps :=
  reads_commaList h.composed.fullExp (reads_fullExp h) hs

/-! ## Table constructors -/

theorem reads_field (hs : s.Spent) : Reads (field deeper) s Field.shape (TableField d) := by
  refine .accept (fun hk => ?_) fun _ => ?_
  · refine hs.advanced.bind (reads_fullExp h hs.advanced) fun key s₁ hs₁ hkey => ?_
    refine hs₁.full.expectEnd fun hk₁ => hs₁.advanced.full.expect fun hk₂ => ?_
    refine hs₁.advanced.advanced.bind (reads_fullExp h hs₁.advanced.advanced) fun v s₂ hs₂ hv => ?_
    refine .pure ?_
    rw [hs₁.ends.terms_fixed hk₁ rfl, hs₁.advanced.ends.terms_fixed hk₂ rfl] at hkey
    rw [hs.ends.terms_fixed hk rfl]
    exact .keyed hkey hv
  · have item : ∀ {t : State}, t.Spent → t.terms = s.terms →
        Ensures (do return Field.item (← deeper.fullExp)) t
          (fun f s' => TableField d s.terms f.shape s'.terms) fun _ => True := fun ht eq =>
      ht.bind (reads_fullExp h ht) fun e s₁ hs₁ he => .pure (.item (eq ▸ he))
    rw [ensures_at?]
    split
    · next hk =>
      have hk := of_decide_eq_true hk
      refine hs.peek (by rw [hk]; exact nofun) ?_
      have hp := hs.peeked
      have name := hp.ends.terms_name hk
      rw [State.terms_peeked] at name
      refine .ite (fun equals => ?_) fun _ => item hp (State.terms_peeked s)
      · refine .advance ?_
        have hk₁ : s.peeked.advanced.current.kind = .singleEquals := by
          rw [← hp.advanced.ends.look_terms, ← (hs.ends.of_terms_cons name).2]
          exact LawfulBEq.eq_of_beq equals
        refine .advance ?_
        refine hp.advanced.advanced.bind (reads_fullExp h hp.advanced.advanced)
          fun v s₂ hs₂ hv => .pure ?_
        rw [name, hp.advanced.ends.terms_fixed hk₁ rfl]
        exact .named hv
    · exact item hs rfl

theorem reads_fields (hs : s.Spent) :
    Reads (fields deeper) s (List.map Field.shape) (Fields d) := by
  refine .loop_inv (I := fun fs s' => ∀ gs rest, Fields d s'.terms gs rest →
    Fields d s.terms (fs.map Field.shape ++ gs) rest) (advances_fieldRound h.composed) hs.ends
    (fun _ _ read => read) fun fs s₁ steps read => ?_
  have hs₁ := (hs.steps steps).1
  unfold fieldRound
  simp only [ensures_current]
  split
  · have last := read [] s₁.terms .nil
    rw [List.append_nil] at last
    exact .pure last
  · refine hs₁.bind (reads_field h hs₁) fun f s₂ hs₂ hf => ?_
    simp only [ensures_current]
    split
    · next sep =>
      refine .advance (.pure fun gs rest more => ?_)
      rw [List.map_append, List.append_assoc]
      refine read _ _ ?_
      have fixed : s₂.current.kind.isFixed := by rcases sep with sep | sep <;> rw [sep] <;> rfl
      rw [hs₂.ends.terms_fixed rfl fixed] at hf
      exact .cons hf sep more
    · have last := read _ _ (.last hf)
      rw [← List.map_singleton, ← List.map_append] at last
      exact .pure last

theorem reads_table (hs : s.Spent) (hk : s.current.kind = .leftBrace) :
    Reads (table deeper) s Exp.shape (Table d) := by
  refine .advance (hs.advanced.bind (reads_fields h hs.advanced) fun fs s₁ hs₁ hfs => ?_)
  refine hs₁.full.expectEnd fun hk₁ => .pure ?_
  rw [hs₁.ends.terms_fixed hk₁ rfl] at hfs
  rw [hs.ends.terms_fixed hk rfl, Exp.shape, Field.shapes_eq_map]
  exact .mk hfs

/-! ## Functions -/

omit h in
theorem reads_params (hs : s.Spent) :
    Reads params s (fun ps => (ps.1.map Ident.shape, ps.2)) Params := by
  unfold Reads params
  rw [ensures_at?]
  refine .ite (fun _ => .pure .none) fun _ => ?_
  -- Before a round there is nothing yet, or a comma behind the names so far.
  refine .loop_inv (I := fun (ps : List Ident × Bool) s' => ps.2 = false ∧
    (ps.1 = [] ∧ s'.terms = s.terms ∨
      ∀ ns rest, Further .comma Name (.fixed .comma :: s'.terms) ns rest →
        Listed .comma Name s.terms (ps.1.map Ident.shape ++ ns) rest))
    advances_paramRound hs.ends ⟨rfl, .inl ⟨rfl, rfl⟩⟩ ?_
  rintro ps s₁ steps ⟨-, read⟩
  have hs₁ := (hs.steps steps).1
  refine .accept (fun hk => .pure ?_) fun _ => ?_
  · rcases read with ⟨none, eq⟩ | read
    · rw [none, ← eq, hs₁.ends.terms_fixed hk rfl]
      exact .dots
    · have names := read [] _ .nil
      rw [List.append_nil, hs₁.ends.terms_fixed hk rfl] at names
      exact .namesDots names
  · refine hs₁.expectName fun hk => ?_
    have name : Name s₁.terms (plainName s₁.current.text) s₁.advanced.terms := by
      rw [hs₁.ends.terms_name hk]
      exact .mk
    have read : ∀ ns rest, Further .comma Name s₁.advanced.terms ns rest →
        Listed .comma Name s.terms
          ((ps.1 ++ [Ident.mk s₁.current.text s₁.current.location true none]).map Ident.shape ++ ns)
          rest := by
      intro ns rest more
      rw [List.map_append, List.append_assoc]
      rcases read with ⟨none, eq⟩ | read
      · rw [none, ← eq]
        exact .mk name more
      · exact read _ _ (.cons name more)
    refine .accept (fun hk => .pure ⟨rfl, .inr ?_⟩) fun _ => .pure ?_
    · rw [hs₁.advanced.ends.terms_fixed hk rfl] at read
      exact read
    · have names := read [] _ .nil
      rw [List.append_nil] at names
      exact .names names

theorem reads_functionBody {start : Location} {isMethod : Bool} (hs : s.Spent) :
    Reads (functionBody deeper start isMethod) s Exp.shape (FuncBody d isMethod) := by
  refine hs.full.expect fun hk => ?_
  refine hs.advanced.bind (reads_params hs.advanced) fun ps s₁ hs₁ hps => ?_
  refine hs₁.full.expectEnd fun hk₁ => ?_
  refine hs₁.advanced.bind (h.block hs₁.advanced) fun b s₂ hs₂ hb => ?_
  refine hs₂.full.expectEnd fun hk₂ => .pure ?_
  rw [hs₁.ends.terms_fixed hk₁ rfl] at hps
  rw [hs₂.ends.terms_fixed hk₂ rfl] at hb
  rw [hs.ends.terms_fixed hk rfl]
  exact .mk hps hb

/-! ## Calls and fields -/

theorem reads_arguments {before : Location} (hs : s.Spent) :
    Reads (arguments deeper before) s (fun args => args.1.map Exp.shape) (Args d) := by
  unfold Reads arguments
  rw [ensures_current]
  split
  · next hk =>
    have rest : ∀ {es : List Exp} {t : State}, t.Spent →
        Maybe d.exps s.advanced.terms (es.map Exp.shape) t.terms → Ensures (do
          let close ← expectEnd .rightParen .leftParen s.current.location
          pure (es, s.current.location.cover close.location)) t
          (fun args s' => Args d s.terms (args.1.map Exp.shape) s'.terms) fun _ => True := by
      intro es t ht hes
      refine ht.full.expectEnd fun hk₁ => .pure ?_
      rw [ht.ends.terms_fixed hk₁ rfl] at hes
      rw [hs.ends.terms_fixed hk rfl]
      exact .exps hes
    refine .advance ?_
    rw [ensures_at?]
    refine .ite (fun _ => rest hs.advanced .none) fun _ => ?_
    exact hs.advanced.bind (reads_expList h hs.advanced) fun es s₁ hs₁ hes => rest hs₁ (.some hes)
  · next hk => exact hs.bind (reads_table h hs hk) fun t s₁ hs₁ ht => .pure (.table ht)
  · next hk =>
    refine .advance (.pure ?_)
    rw [hs.ends.terms_string hk]
    exact .string
  · rw [ensures_found, ensures_current]
    exact hs.full.report rfl

theorem reads_primary (hs : s.Spent) : Reads (primary deeper) s Exp.shape (Prefixed d) := by
  unfold Reads primary
  rw [ensures_current]
  split
  · next hk =>
    refine .advance (.pure ?_)
    rw [hs.ends.terms_name hk]
    exact .name
  · next hk =>
    refine .advance (hs.advanced.bind (reads_fullExp h hs.advanced) fun e s₁ hs₁ he => ?_)
    refine hs₁.full.expectEnd fun hk₁ => .pure ?_
    rw [hs₁.ends.terms_fixed hk₁ rfl] at he
    have prefixed := Prefixed.parens he
    rw [← hs.ends.terms_fixed hk rfl, enclose, Exp.keepsParens_shape] at prefixed
    split
    · next keeps =>
      rw [if_pos keeps] at prefixed
      exact prefixed
    · next keeps =>
      rw [if_neg keeps] at prefixed
      exact prefixed
  · refine .ite (fun hk => ?_) fun _ => hs.full.report rfl
    exact .ite (fun ends => absurd ends (by rw [hk]; decide)) fun _ => hs.advance_illegal hk

theorem reads_suffix {r : State} {e : Exp} (hs : s.Spent)
    (he : Prefixed d r.terms e.shape s.terms) :
    Ensures (suffix deeper e) s
      (Round.Post (fun e s' => Prefixed d r.terms e.shape s'.terms)
        fun e s' => Complete d r.terms e.shape s'.terms) fun _ => True := by
  have call : Ensures (do
      let args ← arguments deeper s.current.location
      pure (Round.again (Exp.call e none args.1 (e.place.cover args.2)))) s
      (Round.Post (fun e s' => Prefixed d r.terms e.shape s'.terms)
        fun e s' => Complete d r.terms e.shape s'.terms) fun _ => True := by
    refine hs.bind (reads_arguments h hs) fun args s₁ _ hargs => .pure ?_
    show Prefixed _ _ (Exp.shape _) _
    rw [Exp.shape, Exp.shapes_eq_map]
    exact .call he hargs
  unfold suffix
  rw [ensures_current]
  split
  · next hk =>
    refine .advance (hs.advanced.expectName fun hk₁ => .pure ?_)
    rw [hs.ends.terms_fixed hk rfl, hs.advanced.ends.terms_name hk₁] at he
    exact Prefixed.field he
  · next hk =>
    refine .advance (hs.advanced.bind (reads_fullExp h hs.advanced) fun key s₁ hs₁ hkey => ?_)
    refine hs₁.full.expectEnd fun hk₁ => .pure ?_
    rw [hs.ends.terms_fixed hk rfl] at he
    rw [hs₁.ends.terms_fixed hk₁ rfl] at hkey
    exact Prefixed.index he hkey
  · next hk =>
    refine .advance (hs.advanced.expectName fun hk₁ => ?_)
    refine hs.advanced.advanced.bind (reads_arguments h hs.advanced.advanced)
      fun args s₁ _ hargs => .pure ?_
    rw [hs.ends.terms_fixed hk rfl, hs.advanced.ends.terms_name hk₁] at he
    show Prefixed _ _ (Exp.shape _) _
    rw [Exp.shape, Exp.shapes_eq_map]
    exact .method he hargs
  · exact call
  · exact call
  · exact call
  · next hk _ _ =>
    refine .pure (Complete.mk he ?_)
    rw [hs.ends.look_terms]
    exact hk

theorem reads_suffixed (hs : s.Spent) : Reads (suffixed deeper) s Exp.shape (Complete d) := by
  refine hs.bind (reads_primary h hs) fun e s₁ hs₁ he => ?_
  refine .loop_inv (I := fun e s' => Prefixed d s.terms e.shape s'.terms)
    (advances_suffix h.composed) hs₁.ends he fun e s₂ steps he => ?_
  exact reads_suffix h (hs₁.steps steps).1 he

/-! ## Operators -/

omit h in
theorem reads_numeral {t : Token} {rest : List Terminal} (hs : s.Spent) (eq : s.terms = rest) :
    Ensures (numeral t) s (fun e s' => Simple d (.number t.text :: rest) e.shape s'.terms)
      fun _ => True := by
  unfold numeral
  split
  · next value hv => exact .pure (eq ▸ .integer hv)
  · next value hv => exact .pure (eq ▸ .float hv)
  · exact hs.full.report rfl

theorem reads_simple (hs : s.Spent) : Reads (simple deeper) s Exp.shape (Simple d) := by
  unfold Reads simple
  rw [ensures_current]
  split
  · next hk => exact .advance (.pure (hs.ends.terms_fixed hk rfl ▸ .kwNil))
  · next hk => exact .advance (.pure (hs.ends.terms_fixed hk rfl ▸ .kwTrue))
  · next hk => exact .advance (.pure (hs.ends.terms_fixed hk rfl ▸ .kwFalse))
  · next hk => exact .advance (.pure (hs.ends.terms_fixed hk rfl ▸ .vararg))
  · next hk =>
    refine .advance ?_
    rw [hs.ends.terms_number hk]
    exact reads_numeral hs.advanced rfl
  · next hk => exact .advance (.pure (hs.ends.terms_string hk ▸ .string))
  · next hk => exact (reads_table h hs hk).imp fun _ _ _ ht => .table ht
  · next hk =>
    refine .advance ((reads_functionBody h hs.advanced).imp fun e s₁ _ he => ?_)
    rw [hs.ends.terms_fixed hk rfl]
    exact .function he
  · exact (reads_suffixed h hs).imp fun _ _ _ he => .complete he

omit h in
/-- An expression as a left operand: of at least the rank that is wanted, and of the rank that the
operator behind it asks for, if there is one. -/
structure Lhs (d : Level) (rank : Nat) (r : State) (e : Exp) (s : State) : Prop where
  exp : Expression d rank r.terms e.shape s.terms
  operand : ∀ op, BinaryOp.ofKind? s.current.kind = some op →
    Expression d op.leftRank r.terms e.shape s.terms

theorem reads_operand {rank : Nat} (hr : rank ≤ UnaryOp.rank) (hs : s.Spent) :
    Ensures (operand deeper) s (Lhs d rank s) fun _ => True := by
  unfold operand
  rw [ensures_current]
  split
  · next op hop =>
    refine .advance (hs.advanced.bind (h.exp binds_unary hs.advanced) ?_)
    rintro e s₁ hs₁ ⟨he, below⟩
    have unary : ∀ {rank}, rank ≤ UnaryOp.rank →
        Expression d rank s.terms (.unary op e.shape {}) s₁.terms := fun hr => by
      rw [hs.ends.terms_fixed rfl (UnaryOp.isFixed_of_ofKind? hop)]
      exact .unary hop hr he
    refine .pure ⟨unary hr, fun next hnext => unary ?_⟩
    exact leftRank_le_of_rank_lt_unary (below next hnext)
  · exact (reads_simple h hs).imp fun e s₁ _ he => ⟨.simple he, fun _ _ => .simple he⟩

theorem reads_operation {limit rank : Nat} (hb : Binds limit rank) {r : State} {lhs : Exp}
    (hs : s.Spent) (hl : Lhs d rank r lhs s) :
    Ensures (operation deeper limit lhs) s
      (Round.Post (Lhs d rank r) fun e s' =>
        Expression d rank r.terms e.shape s'.terms ∧ Below rank s'.current.kind)
      fun _ => True := by
  unfold operation
  rw [ensures_current]
  split
  · next op hop =>
    refine .ite (fun le => .pure ⟨hl.exp, fun op' hop' => ?_⟩) fun lt => ?_
    · obtain rfl := Option.some.inj (hop.symm.trans hop')
      exact Nat.lt_of_not_le fun ge => Nat.not_lt.2 le ((hb.lt_iff op).2 ge)
    refine .advance (hs.advanced.bind (h.exp (binds_right op) hs.advanced) ?_)
    rintro rhs s₁ hs₁ ⟨hrhs, below⟩
    have lhs' := hl.operand op hop
    rw [hs.ends.terms_fixed rfl (BinaryOp.isFixed_of_ofKind? hop)] at lhs'
    have binary : ∀ {rank}, rank ≤ op.rank →
        Expression d rank r.terms (.binary op lhs.shape rhs.shape {}) s₁.terms :=
      fun hr => .binary hop hr lhs' hrhs
    refine .pure ⟨binary ((hb.lt_iff op).1 (Nat.lt_of_not_le lt)), fun next hnext => binary ?_⟩
    exact leftRank_le_of_rank_lt_rightRank (below next hnext)
  · next none => exact .pure ⟨hl.exp, fun op hop => nomatch none.symm.trans hop⟩

theorem reads_subexpression {limit rank : Nat} (hb : Binds limit rank) (hs : s.Spent) :
    Ensures (subexpression deeper limit) s
      (fun e s' => Expression d rank s.terms e.shape s'.terms ∧ Below rank s'.current.kind)
      fun _ => True := by
  refine hs.bind (reads_operand h hb.le_unary hs) fun e s₁ hs₁ he => ?_
  refine .loop_inv (advances_operation h.composed limit) hs₁.ends he fun e s₂ steps he => ?_
  exact reads_operation h hb (hs₁.steps steps).1 he

end Expression

/-! ## Statements -/

section Statement

variable {d : Level} {deeper : Nested} (h : deeper.Sound d)

theorem reads_name (hs : s.Spent) : Reads (expectName k) s Ident.shape Name := by
  refine .of_bind_pure (hs.expectName fun hk => .pure ?_)
  rw [hs.ends.terms_name hk]
  exact .mk

theorem reads_gotoStat (hs : s.Spent) (hk : s.current.kind = .kwGoto) :
    Reads gotoStat s (fun x => some x.shape) (Statement d) := by
  refine .advance (hs.advanced.expectName fun hk₁ => .pure ?_)
  rw [hs.ends.terms_fixed hk rfl, hs.advanced.ends.terms_name hk₁]
  exact .goto

theorem reads_labelStat (hs : s.Spent) (hk : s.current.kind = .doubleColon) :
    Reads labelStat s (fun x => some x.shape) (Statement d) := by
  refine .advance (hs.advanced.expectName fun hk₁ => ?_)
  refine hs.advanced.advanced.full.expect fun hk₂ => .pure ?_
  rw [hs.ends.terms_fixed hk rfl, hs.advanced.ends.terms_name hk₁,
    hs.advanced.advanced.ends.terms_fixed hk₂ rfl]
  exact .label

theorem reads_functionTarget {r : State} {first : Ident} (hs : s.Spent)
    (hf : Path r.terms (.name first.text {}) s.terms) :
    Ensures (functionTarget first) s
      (fun target s' => FuncName r.terms (target.1.shape, target.2) s'.terms) fun _ => True := by
  refine .loop_inv (I := fun (target : Exp × Bool) s' =>
    target.2 = false ∧ Path r.terms target.1.shape s'.terms) advances_targetRound hs.ends
    ⟨rfl, hf⟩ ?_
  rintro ⟨target, isMethod⟩ s₁ steps ⟨-, path⟩
  have hs₁ := (hs.steps steps).1
  unfold targetRound
  rw [ensures_current]
  refine .ite (fun hk => ?_) fun _ => .pure (FuncName.plain path)
  refine .advance (hs₁.advanced.expectName fun hk₁ => .pure ?_)
  dsimp only at path
  split
  · next colon =>
    rw [hs₁.ends.terms_fixed colon rfl, hs₁.advanced.ends.terms_name hk₁] at path
    exact FuncName.method path
  · next noColon =>
    have dot := hk.resolve_right noColon
    rw [hs₁.ends.terms_fixed dot rfl, hs₁.advanced.ends.terms_name hk₁] at path
    exact ⟨rfl, .field path⟩

theorem reads_localName (hs : s.Spent) :
    Reads localName s (fun name => name.1.shape) AttName := by
  refine hs.expectName fun hk => ?_
  refine .accept (fun hk₁ => ?_) fun _ => .pure ?_
  · refine hs.advanced.advanced.bind (P := fun value s' => ∃ a ∈ value.1,
        AttName s.terms { plainName s.current.text with attrib := some a } s'.terms) ?_ ?_
    · unfold attrib
      refine hs.advanced.advanced.expectName fun hk₂ => ?_
      refine .ite (fun _ => hs.advanced.advanced.advanced.full.report rfl) fun known => ?_
      refine hs.advanced.advanced.advanced.full.expectEnd fun hk₃ => .pure ?_
      cases value : Attribute.ofName? s.advanced.advanced.current.text with
      | none => exact absurd ⟨by rw [value]; rfl, rfl⟩ known
      | some a =>
        refine ⟨a, rfl, ?_⟩
        rw [hs.ends.terms_name hk, hs.advanced.ends.terms_fixed hk₁ rfl,
          hs.advanced.advanced.ends.terms_name hk₂,
          hs.advanced.advanced.advanced.ends.terms_fixed hk₃ rfl]
        exact .attrib value
    · rintro ⟨value, close⟩ s₁ _ ⟨a, rfl, name⟩
      exact .pure name
  · rw [hs.ends.terms_name hk]
    exact .plain

include h

theorem reads_scopeStat (hs : s.Spent) (hk : s.current.kind = .kwDo) :
    Reads (scopeStat deeper) s (fun x => some x.shape) (Statement d) := by
  refine .advance (hs.advanced.bind (h.block hs.advanced) fun b s₁ hs₁ hb => ?_)
  refine hs₁.full.expectEnd fun hk₁ => .pure ?_
  rw [hs₁.ends.terms_fixed hk₁ rfl] at hb
  rw [hs.ends.terms_fixed hk rfl]
  exact .scope hb

theorem reads_whileStat (hs : s.Spent) (hk : s.current.kind = .kwWhile) :
    Reads (whileStat deeper) s (fun x => some x.shape) (Statement d) := by
  refine .advance (hs.advanced.bind (reads_fullExp h hs.advanced) fun c s₁ hs₁ hc => ?_)
  refine hs₁.full.expect fun hk₁ => ?_
  refine hs₁.advanced.bind (h.block hs₁.advanced) fun b s₂ hs₂ hb => ?_
  refine hs₂.full.expectEnd fun hk₂ => .pure ?_
  rw [hs₁.ends.terms_fixed hk₁ rfl] at hc
  rw [hs₂.ends.terms_fixed hk₂ rfl] at hb
  rw [hs.ends.terms_fixed hk rfl]
  exact .whileLoop hc hb

theorem reads_repeatStat (hs : s.Spent) (hk : s.current.kind = .kwRepeat) :
    Reads (repeatStat deeper) s (fun x => some x.shape) (Statement d) := by
  refine .advance (hs.advanced.bind (h.block hs.advanced) fun b s₁ hs₁ hb => ?_)
  refine hs₁.full.expectEnd fun hk₁ => ?_
  refine hs₁.advanced.bind (reads_fullExp h hs₁.advanced) fun c s₂ hs₂ hc => .pure ?_
  rw [hs₁.ends.terms_fixed hk₁ rfl] at hb
  rw [hs.ends.terms_fixed hk rfl]
  exact .repeatLoop hb hc

theorem reads_clause (hs : s.Spent) : Reads (clause deeper) s Clause.shape (Branch d) := by
  refine hs.bind (reads_fullExp h hs) fun c s₁ hs₁ hc => hs₁.full.expect fun hk₁ => ?_
  refine hs₁.advanced.bind (h.block hs₁.advanced) fun b s₂ hs₂ hb => .pure ?_
  rw [hs₁.ends.terms_fixed hk₁ rfl] at hc
  exact .mk hc hb

theorem reads_branchStat (hs : s.Spent) (hk : s.current.kind = .kwIf) :
    Reads (branchStat deeper) s (fun x => some x.shape) (Statement d) := by
  refine .advance (hs.advanced.bind (reads_clause h hs.advanced) fun c s₁ hs₁ hc => ?_)
  refine hs₁.bind (reads_further rfl (composed_clause h.composed) (reads_clause h) hs₁ [c]) ?_
  rintro cs s₂ hs₂ ⟨more, eq, hmore⟩
  have rest : ∀ {other : Option Block} {t : State}, t.Spent →
      Led .kwElse d.block s₂.terms (Block.shape? other) t.terms → Ensures (do
        let close ← expectEnd .kwEnd .kwIf s.current.location
        pure (Stat.branch cs other (s.current.location.cover close.location))) t
        (fun x s' => Statement d s.terms (some x.shape) s'.terms) fun _ => True := by
    intro other t ht hother
    refine ht.full.expectEnd fun hk₁ => .pure ?_
    rw [ht.ends.terms_fixed hk₁ rfl] at hother
    rw [hs.ends.terms_fixed hk rfl, Stat.shape, Clause.shapes_eq_map, eq]
    exact .branch (.mk hc hmore) hother
  refine .accept (fun hk₂ => ?_) fun _ => rest hs₂ .none
  have body : Ensures (some <$> deeper.block) s₂.advanced
      (fun other s' => Led .kwElse d.block s₂.terms (Block.shape? other) s'.terms)
      fun _ => True := by
    refine .map ((h.block hs₂.advanced).imp fun b s₃ _ hb => ?_)
    rw [hs₂.ends.terms_fixed hk₂ rfl]
    exact .some hb
  exact hs₂.advanced.bind body fun other s₃ hs₃ hother => rest hs₃ hother

theorem reads_numericForStat {r : State} {opener : Location} {var : Ident} {n : String}
    (hs : s.Spent) (hv : var.shape = plainName n)
    (hr : r.terms = .fixed .kwFor :: .name n :: .fixed .singleEquals :: s.terms) :
    Ensures (numericForStat deeper opener var) s
      (fun x s' => Statement d r.terms (some x.shape) s'.terms) fun _ => True := by
  refine hs.bind (reads_fullExp h hs) fun start s₁ hs₁ hstart => hs₁.full.expect fun hk₁ => ?_
  refine hs₁.advanced.bind (reads_fullExp h hs₁.advanced) fun limit s₂ hs₂ hlimit => ?_
  rw [hs₁.ends.terms_fixed hk₁ rfl] at hstart
  have rest : ∀ {step : Option Exp} {t : State}, t.Spent →
      Led .comma (d.exp 0) s₂.terms (Exp.shape? step) t.terms → Ensures (do
        let _ ← expect .kwDo
        let body ← deeper.block
        let close ← expectEnd .kwEnd .kwFor opener
        pure (Stat.numericFor var start limit step body (opener.cover close.location))) t
        (fun x s' => Statement d r.terms (some x.shape) s'.terms) fun _ => True := by
    intro step t ht hstep
    refine ht.full.expect fun hk₃ => ?_
    refine ht.advanced.bind (h.block ht.advanced) fun b s₄ hs₄ hb => ?_
    refine hs₄.full.expectEnd fun hk₄ => .pure ?_
    rw [ht.ends.terms_fixed hk₃ rfl] at hstep
    rw [hs₄.ends.terms_fixed hk₄ rfl] at hb
    rw [hr, Stat.shape, hv]
    exact .numericFor hstart hlimit hstep hb
  refine .accept (fun hk₂ => ?_) fun _ => rest hs₂ .none
  have stepped : Ensures (some <$> deeper.fullExp) s₂.advanced
      (fun step s' => Led .comma (d.exp 0) s₂.terms (Exp.shape? step) s'.terms)
      fun _ => True := by
    refine .map ((reads_fullExp h hs₂.advanced).imp fun e s₃ _ he => ?_)
    rw [hs₂.ends.terms_fixed hk₂ rfl]
    exact .some he
  exact hs₂.advanced.bind stepped fun step s₃ hs₃ hstep => rest hs₃ hstep

theorem reads_genericForStat {r : State} {opener : Location} {first : Ident} {ts : List Terminal}
    (hs : s.Spent) (hf : Name ts first.shape s.terms) (hr : r.terms = .fixed .kwFor :: ts) :
    Ensures (genericForStat deeper opener first) s
      (fun x s' => Statement d r.terms (some x.shape) s'.terms) fun _ => True := by
  refine hs.bind (reads_further rfl (composed_expectName .comma) reads_name hs [first]) ?_
  rintro names s₁ hs₁ ⟨more, eq, hmore⟩
  refine hs₁.full.expect fun hk₁ => ?_
  refine hs₁.advanced.bind (reads_expList h hs₁.advanced) fun es s₂ hs₂ hes => ?_
  refine hs₂.full.expect fun hk₂ => ?_
  refine hs₂.advanced.bind (h.block hs₂.advanced) fun b s₃ hs₃ hb => ?_
  refine hs₃.full.expectEnd fun hk₃ => .pure ?_
  rw [hs₁.ends.terms_fixed hk₁ rfl] at hmore
  rw [hs₂.ends.terms_fixed hk₂ rfl] at hes
  rw [hs₃.ends.terms_fixed hk₃ rfl] at hb
  rw [hr, Stat.shape, eq, Exp.shapes_eq_map]
  exact .genericFor (.mk hf hmore) hes hb

theorem reads_forStat (hs : s.Spent) (hk : s.current.kind = .kwFor) :
    Reads (forStat deeper) s (fun x => some x.shape) (Statement d) := by
  refine .advance (hs.advanced.expectName fun hk₁ => ?_)
  have name := hs.advanced.ends.terms_name hk₁
  refine .accept (fun hk₂ => ?_) fun _ => ?_
  · have hs₁ := hs.advanced.advanced.advanced
    refine reads_numericForStat h hs₁ (n := s.advanced.current.text) rfl ?_
    rw [hs.ends.terms_fixed hk rfl, name, hs.advanced.advanced.ends.terms_fixed hk₂ rfl]
  · refine reads_genericForStat h hs.advanced.advanced ?_ (hs.ends.terms_fixed hk rfl)
    rw [name]
    exact .mk

theorem reads_functionStat (hs : s.Spent) (hk : s.current.kind = .kwFunction) :
    Reads (functionStat deeper) s (fun x => some x.shape) (Statement d) := by
  refine .advance (hs.advanced.expectName fun hk₁ => ?_)
  have path : Path s.advanced.terms (.name s.advanced.current.text {})
      s.advanced.advanced.terms := by
    rw [hs.advanced.ends.terms_name hk₁]
    exact .name
  refine hs.advanced.advanced.bind (reads_functionTarget hs.advanced.advanced path) ?_
  rintro ⟨target, isMethod⟩ s₁ hs₁ htarget
  refine hs₁.bind (reads_functionBody h hs₁) fun f s₂ _ hf => .pure ?_
  rw [hs.ends.terms_fixed hk rfl]
  exact .function htarget hf

theorem reads_localFunctionStat {r : State} {opener : Location} (hs : s.Spent)
    (hk : s.current.kind = .kwFunction) (hr : r.terms = .fixed .kwLocal :: s.terms) :
    Ensures (localFunctionStat deeper opener) s
      (fun x s' => Statement d r.terms (some x.shape) s'.terms) fun _ => True := by
  refine .advance (hs.advanced.expectName fun hk₁ => ?_)
  refine hs.advanced.advanced.bind (reads_functionBody h hs.advanced.advanced)
    fun f s₁ _ hf => .pure ?_
  rw [hr, hs.ends.terms_fixed hk rfl, hs.advanced.ends.terms_name hk₁]
  exact .localFunction hf

theorem reads_localsStat {r : State} {opener : Location} (hs : s.Spent)
    (hr : r.terms = .fixed .kwLocal :: s.terms) :
    Ensures (localsStat deeper opener) s
      (fun x s' => Statement d r.terms (some x.shape) s'.terms) fun _ => True := by
  refine hs.bind (reads_commaList composed_localName reads_localName hs) ?_
  intro names s₁ hs₁ hnames
  have eq : (names.map (·.1)).map Ident.shape = names.map fun name => name.1.shape := by
    rw [List.map_map]
    rfl
  refine .accept (fun hk₁ => ?_) fun _ => .pure ?_
  · refine hs₁.advanced.bind (reads_expList h hs₁.advanced) fun es s₂ _ hes => .pure ?_
    have values : Led .singleEquals d.exps s₁.terms (some (es.map Exp.shape)) s₂.terms := by
      rw [hs₁.ends.terms_fixed hk₁ rfl]
      exact .some hes
    rw [hr, Stat.shape, eq, Exp.shapes_eq_map]
    exact .locals hnames values
  · rw [hr, Stat.shape, eq]
    exact .locals hnames .none

theorem reads_localStat (hs : s.Spent) (hk : s.current.kind = .kwLocal) :
    Reads (localStat deeper) s (fun x => some x.shape) (Statement d) := by
  refine .advance ?_
  rw [ensures_at?]
  refine .ite (fun hk₁ => ?_) fun _ => ?_
  · exact reads_localFunctionStat h hs.advanced (of_decide_eq_true hk₁) (hs.ends.terms_fixed hk rfl)
  · exact reads_localsStat h hs.advanced (hs.ends.terms_fixed hk rfl)

/-! ## Assignments and calls -/

omit h in
/-- All targets that pass the check can be assigned to. -/
theorem checks_targets {es : List Exp} (hs : s.Spent) (hb : ∀ e ∈ es, e.isBad = false) :
    Ensures (es.forM checkTarget) s (fun _ s' => s' = s ∧ ∀ e ∈ es, e.isAssignable = true)
      fun _ => True := by
  induction es with
  | nil => exact .pure ⟨rfl, nofun⟩
  | cons e es ih =>
    show Ensures (checkTarget e >>= fun _ => es.forM checkTarget) _ _ _
    have first : Ensures (checkTarget e) s (fun _ s' => s' = s ∧ e.isAssignable = true)
        fun _ => True := by
      unfold checkTarget
      refine .ite (fun ok => .pure ⟨rfl, ?_⟩) fun _ => .of_bind_pure (hs.full.report rfl)
      rw [hb e List.mem_cons_self, Bool.or_false] at ok
      exact ok
    refine first.bind ?_
    rintro _ _ - ⟨rfl, ok⟩
    refine (ih fun e he => hb e (List.mem_cons_of_mem _ he)).imp ?_
    rintro _ _ - ⟨rfl, all⟩
    exact ⟨rfl, List.forall_mem_cons.2 ⟨ok, all⟩⟩

omit h in
theorem targets_of_further {ts rest : List Terminal} {es : List Exp}
    (all : ∀ e ∈ es, e.isAssignable = true) (h : Further k (Complete d) ts es rest) :
    Further k (Target d) ts es rest := by
  induction h with
  | nil => exact .nil
  | cons he _ ih =>
    obtain ⟨ok, all⟩ := List.forall_mem_cons.1 all
    exact .cons (.mk he ok) (ih all)

omit h in
theorem isBad_of_further {ts rest : List Terminal} {es : List Exp} (hd : d.Regular)
    (h : Further k (Complete d) ts es rest) : ∀ e ∈ es, e.isBad = false := by
  induction h with
  | nil => exact nofun
  | cons he _ ih =>
    obtain ⟨he, -⟩ := he
    exact List.forall_mem_cons.2 ⟨he.isBad hd, ih⟩

theorem reads_assignStat {r : State} {first : Exp} (hs : s.Spent)
    (hf : Complete d r.terms first.shape s.terms) :
    Ensures (assignStat deeper first) s
      (fun x s' => Statement d r.terms (some x.shape) s'.terms) fun _ => True := by
  refine hs.bind
    (reads_further rfl (composed_suffixed h.composed) (reads_suffixed h) hs [first]) ?_
  rintro targets s₁ hs₁ ⟨more, eq, hmore⟩
  have hbad : ∀ e ∈ targets, e.isBad = false := by
    have all : ∀ e ∈ first.shape :: more, e.isBad = false := by
      obtain ⟨hf, -⟩ := hf
      exact List.forall_mem_cons.2 ⟨hf.isBad h.regular, isBad_of_further h.regular hmore⟩
    intro e he
    rw [← Exp.isBad_shape]
    refine all _ ?_
    rw [← List.singleton_append, ← List.map_singleton, ← eq]
    exact List.mem_map_of_mem he
  refine (checks_targets hs₁ hbad).bind ?_
  rintro _ _ - ⟨rfl, ok⟩
  have hok : ∀ e ∈ first.shape :: more, e.isAssignable = true := by
    rw [← List.singleton_append, ← List.map_singleton, ← eq]
    rintro _ he
    obtain ⟨e, mem, rfl⟩ := List.mem_map.1 he
    rw [Exp.isAssignable_shape]
    exact ok e mem
  obtain ⟨okFirst, okMore⟩ := List.forall_mem_cons.1 hok
  refine hs₁.full.expect fun hk₁ => ?_
  refine hs₁.advanced.bind (reads_expList h hs₁.advanced) fun es s₂ _ hes => .pure ?_
  rw [hs₁.ends.terms_fixed hk₁ rfl] at hmore
  rw [Stat.shape, Exp.shapes_eq_map, Exp.shapes_eq_map, eq]
  exact .assign (.mk (.mk hf okFirst) (targets_of_further okMore hmore)) hes

theorem reads_expStat (hs : s.Spent) :
    Reads (expStat deeper) s (Option.map Stat.shape) (Statement d) := by
  refine hs.bind (reads_suffixed h hs) fun first s₁ hs₁ hf => ?_
  have assign : Ensures (some <$> assignStat deeper first) s₁
      (fun x s' => Statement d s.terms (x.map Stat.shape) s'.terms) fun _ => True :=
    .map (reads_assignStat h hs₁ hf)
  simp only [ensures_current]
  refine .ite (fun _ => assign) fun _ => .ite (fun call => .pure (Statement.call hf ?_)) fun _ =>
    .ite (fun bad => ?_) fun _ => assign
  · rw [Exp.isCall_shape]
    exact call
  · obtain ⟨hf, -⟩ := hf
    have good := hf.isBad h.regular
    rw [Exp.isBad_shape, bad] at good
    exact absurd good (by decide)

/-! ## Sequences of statements -/

theorem reads_returnStat (hs : s.Spent) (hk : s.current.kind = .kwReturn) :
    Reads (returnStat deeper) s Stat.shape (Return d) := by
  have rest : ∀ {es : List Exp} {t : State}, t.Spent →
      Maybe d.exps s.advanced.terms (es.map Exp.shape) t.terms → Ensures (do
        let place := s.current.location.coverAll (es.map Exp.place)
        let close ← accept .semicolon
        pure (Stat.ret es (place.cover? (close.map (·.location))))) t
        (fun x s' => Return d s.terms x.shape s'.terms) fun _ => True := by
    intro es t ht hes
    refine .accept (fun hk₁ => .pure ?_) fun _ => .pure ?_
    · rw [ht.ends.terms_fixed hk₁ rfl] at hes
      rw [hs.ends.terms_fixed hk rfl, Stat.shape, Exp.shapes_eq_map]
      exact .ended hes
    · rw [hs.ends.terms_fixed hk rfl, Stat.shape, Exp.shapes_eq_map]
      exact .plain hes
  refine .advance ?_
  simp only [ensures_current]
  refine .ite (fun _ => rest hs.advanced .none) fun _ => ?_
  exact hs.advanced.bind (reads_expList h hs.advanced) fun es s₁ hs₁ hes => rest hs₁ (.some hes)

theorem reads_statement (hs : s.Spent) :
    Reads (statement deeper) s (Option.map Stat.shape) (Statement d) := by
  unfold Reads statement
  rw [ensures_current]
  split
  · next hk =>
    refine .advance (.pure ?_)
    rw [hs.ends.terms_fixed hk rfl]
    exact Statement.empty
  · next hk => exact hs.advance_illegal hk
  · next hk =>
    refine .advance (.pure ?_)
    rw [hs.ends.terms_fixed hk rfl]
    exact Statement.breakOut
  · next hk => exact .map (reads_labelStat hs hk)
  · next hk => exact .map (reads_gotoStat hs hk)
  · next hk => exact .map (reads_scopeStat h hs hk)
  · next hk => exact .map (reads_whileStat h hs hk)
  · next hk => exact .map (reads_repeatStat h hs hk)
  · next hk => exact .map (reads_branchStat h hs hk)
  · next hk => exact .map (reads_forStat h hs hk)
  · next hk => exact .map (reads_functionStat h hs hk)
  · next hk => exact .map (reads_localStat h hs hk)
  · exact reads_expStat h hs

theorem reads_statements (hs : s.Spent) :
    Reads (statements deeper []) s (List.map Stat.shape) (Stats d) := by
  refine .loop_inv (I := fun stats s' => ∀ ss rest, Stats d s'.terms ss rest →
    Stats d s.terms (stats.map Stat.shape ++ ss) rest) (advances_statementRound h.composed) hs.ends
    (fun _ _ read => read) fun stats s₁ steps read => ?_
  have hs₁ := (hs.steps steps).1
  unfold statementRound
  simp only [ensures_current, ensures_reports]
  refine .ite (fun _ => .pure ?_) fun _ => .ite (fun hk => ?_) fun _ => ?_
  · have done := read [] s₁.terms .nil
    rw [List.append_nil] at done
    exact done
  · refine hs₁.bind (reads_returnStat h hs₁ hk) fun x s₂ _ hx => .pure ?_
    have done := read _ _ (.last hx)
    rw [← List.map_singleton, ← List.map_append] at done
    exact done
  · refine (reads_statement h hs₁).bind fun x s₂ steps₂ hx => ?_
    rw [ensures_reports]
    refine .ite (fun lt => ?_) fun _ => .pure fun ss rest more => ?_
    · rw [(hs₁.steps steps₂).2] at lt
      exact absurd lt (Nat.lt_irrefl _)
    · have all := read _ _ (.cons hx more)
      rw [List.map_append, List.append_assoc]
      cases x with
      | none => exact all
      | some x => exact all

omit h in
theorem shape_finish {stats : List Stat} {E : State → Prop} :
    Ensures (finish stats) s (fun b s' => b.shape = .mk (stats.map Stat.shape) {} ∧ s' = s) E := by
  have shape : ∀ place, (Block.mk stats place).shape = .mk (stats.map Stat.shape) {} := by
    intro place
    rw [Block.shape, Stat.shapes_eq_map]
  unfold finish
  split
  · exact .pure ⟨shape _, rfl⟩
  · exact ensures_current.2 (.pure ⟨shape _, rfl⟩)

theorem reads_block (hs : s.Spent) : Reads (block deeper) s Block.shape (Body d) := by
  refine hs.bind (reads_statements h hs) fun stats s₁ _ hstats => shape_finish.imp ?_
  rintro b s₂ - ⟨eq, rfl⟩
  rw [eq]
  exact .mk hstats

/-- A program that is read to the end of input without a report is in the grammar. -/
theorem reads_rootBlock (hs : s.Spent) :
    Ensures (rootBlock deeper) s (fun b _ => Body d s.terms b.shape []) fun _ => True := by
  have round : Ensures (chunkRound deeper []) s
      (Round.Post (fun _ _ => False) fun stats _ => Stats d s.terms (stats.map Stat.shape) [])
      fun _ => True := by
    refine hs.bind (reads_statements h hs) fun stats s₁ hs₁ hstats => ?_
    rw [ensures_at?]
    refine .ite (fun eof => .pure ?_) fun _ => ?_
    · rw [hs₁.ends.terms_eq_nil (of_decide_eq_true eof)] at hstats
      exact hstats
    · rw [ensures_found, ensures_current]
      exact hs₁.full.report rfl
  have all : Ensures (loop (chunkRound deeper) []) s
      (fun stats _ => Stats d s.terms (stats.map Stat.shape) []) fun _ => True := by
    refine .loop_step (advances_chunkRound h.composed) hs.ends (round.imp ?_)
    rintro (stats | stats) s₁ - hr
    · exact hr.elim
    · exact hr
  refine hs.bind all fun stats s₁ _ hstats => shape_finish.imp ?_
  rintro b s₂ - ⟨eq, -⟩
  rw [eq]
  exact .mk hstats

end Statement

/-- On every level, what is read without errors is a phrase. -/
theorem sound_nested (n : Nat) : (nested n).Sound (level n) := by
  induction n with
  | zero =>
    exact ⟨composed_nested 0, regular_level 0, fun _ _ => .tooDeep trivial,
      fun _ => .tooDeep trivial⟩
  | succ n ih =>
    exact ⟨composed_nested (n + 1), regular_level (n + 1), reads_subexpression ih, reads_block ih⟩

end Parse

end LuaFront
