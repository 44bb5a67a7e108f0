import LuaFront.Proofs.Soundness

/-!
# What is in the grammar is read

From a strict state in front of a phrase, a reader comes to the end of the phrase, and its answer
has the shape that the phrase means (`Arrives`), as long as no token behind the phrase goes on with
it. It may stop for one reason only: the phrase is too deep (`complete_nested`).

Phrases that are built from the left, such as operands with what hangs onto them, are taken apart
from the right: a reader that has come to the end of the inner phrase goes on behind it.
-/

namespace LuaFront.Parse

open Grammar

variable {α β : Type}

/-- From `s` on, `p` comes to `rest` with an answer that `f` takes to `x`, or stops with `E`. -/
abbrev Arrives (p : Parse α) (s : State) (f : α → β) (x : β) (rest : List Terminal)
    (E : State → Prop) : Prop :=
  Ensures p s (fun a s' => f a = x ∧ s'.terms = rest) E

/-! ## What follows an expression -/

theorem rank_lt_rightRank_of_leftRank_le {op next : BinaryOp} (h : next.leftRank ≤ op.rank) :
    next.rank < op.rightRank := by
  revert h
  cases op <;> cases next <;> decide

theorem rank_lt_unary_of_leftRank_le {next : BinaryOp} (h : next.leftRank ≤ UnaryOp.rank) :
    next.rank < UnaryOp.rank := by
  revert h
  cases next <;> decide

theorem rank_le_leftRank (op : BinaryOp) : op.rank ≤ op.leftRank := by
  cases op <;> decide

theorem leftRank_le_of_rank_lt {op : BinaryOp} {rank : Nat} (h : op.rank < rank) :
    op.leftRank ≤ rank := by
  have le : op.leftRank ≤ op.rank + 1 := by cases op <;> decide
  exact Nat.le_trans le h

/-- Nothing goes on with an expression of at least a rank. -/
structure Clear (rank : Nat) (rest : List Terminal) : Prop where
  hangs : (look rest).hangs = false
  below : Below rank (look rest)

/-- Nothing goes on with an operand of at least a rank, but an operator may take it. -/
structure Settles (rank : Nat) (rest : List Terminal) : Prop where
  hangs : (look rest).hangs = false
  operand : ∀ op, BinaryOp.ofKind? (look rest) = some op → op.leftRank ≤ rank

theorem Clear.settles {rank : Nat} {rest : List Terminal} (h : Clear rank rest) :
    Settles rank rest :=
  ⟨h.hangs, fun op hop => leftRank_le_of_rank_lt (h.below op hop)⟩

/-- Behind a token that is neither an operator nor hangs onto something, any expression ends. -/
theorem clear {rank : Nat} {rest : List Terminal} (hangs : (look rest).hangs = false)
    (binary : BinaryOp.ofKind? (look rest) = none) : Clear rank rest :=
  ⟨hangs, fun _ hop => nomatch binary.symm.trans hop⟩

/-- What is known of a token that goes on with no expression and no list. -/
theorem clear_of_loose {rest : List Terminal} (h : (look rest).loose = true) :
    (∀ {rank}, Clear rank rest) ∧ look rest ≠ .comma ∧ look rest ≠ .singleEquals := by
  simp only [Kind.loose, Bool.and_eq_true, Bool.not_eq_true', Option.isNone_iff_eq_none,
    bne_iff_ne] at h
  obtain ⟨⟨⟨hangs, binary⟩, comma⟩, equals⟩ := h
  exact ⟨clear hangs binary, comma, equals⟩

/-- The readers of one level further down read all phrases of a level, or stop with `E`. -/
structure Nested.Complete (d : Level) (deeper : Nested) (E : State → Prop) : Prop where
  composed : deeper.Composed
  regular : d.Regular
  exp {limit rank : Nat} {s : State} {ts rest : List Terminal} {e : Exp} : Binds limit rank →
    s.Strict → s.terms = ts → d.exp rank ts e rest → Clear rank rest →
    Arrives (deeper.exp limit) s Exp.shape e rest E
  block {s : State} {ts rest : List Terminal} {b : Block} : s.Strict → s.terms = ts →
    d.block ts b rest → (look rest).isBlockEnd = true →
    Arrives deeper.block s Block.shape b rest E

/-! ## Lists -/

variable {s : State} {f : α → β} {P : Phrase β} {item : Parse α} {k : Kind} {E : State → Prop}
  {ts rest : List Terminal}

/-- A phrase that may be missing, and is not. -/
theorem arrives_some {p : Parse α} {g : Option α → Option β} {y : β}
    (hg : ∀ a, g (some a) = some (f a)) (hp : Arrives p s f y rest E) :
    Arrives (some <$> p) s g (some y) rest E := by
  refine .map (hp.imp ?_)
  rintro a s' - ⟨rfl, ht⟩
  exact ⟨hg a, ht⟩

theorem arrives_further {ys : List β} (hk : k ≠ .eof) (composed : Composed item)
    (hitem : ∀ {s ts y r}, s.Strict → s.terms = ts → P ts y r → look r = k ∨ r = rest →
      Arrives item s f y r E)
    (h : Further k P ts ys rest) (ends : look rest ≠ k) (hs : s.Strict) (ht : s.terms = ts)
    (xs : List α) : Arrives (further k item xs) s (List.map f) (xs.map f ++ ys) rest E := by
  have adv := advances_furtherRound hk composed
  induction h generalizing s xs with
  | nil =>
    refine .loop_step adv hs.ends (hs.accept_none ht ends (.pure ⟨?_, ht⟩))
    rw [List.append_nil]
  | cons hx more ih =>
    refine .loop_step adv hs.ends (hs.accept_at ht fun ht₁ => ?_)
    refine hs.advanced.bind (hitem hs.advanced ht₁ hx more.look_eq) ?_
    rintro y s₂ hs₂ ⟨rfl, ht₂⟩
    refine .pure ?_
    have all := ih hitem ends hs₂ ht₂ (xs ++ [y])
    rw [List.map_append, List.append_assoc] at all
    exact all

theorem arrives_commaList {ys : List β} (composed : Composed item)
    (hitem : ∀ {s ts y r}, s.Strict → s.terms = ts → P ts y r → look r = .comma ∨ r = rest →
      Arrives item s f y r E)
    (h : Listed .comma P ts ys rest) (ends : look rest ≠ .comma) (hs : s.Strict)
    (ht : s.terms = ts) : Arrives (commaList item) s (List.map f) ys rest E := by
  obtain ⟨hx, more⟩ := h
  refine hs.bind (hitem hs ht hx more.look_eq) ?_
  rintro y s₁ hs₁ ⟨rfl, ht₁⟩
  exact arrives_further (by simp) composed hitem more ends hs₁ ht₁ [y]

section Expression

variable {d : Level} {deeper : Nested} {e : Exp} (h : deeper.Complete d E)

include h

theorem arrives_fullExp (hs : s.Strict) (ht : s.terms = ts) (he : d.exp 0 ts e rest)
    (ends : Clear 0 rest) : Arrives deeper.fullExp s Exp.shape e rest E :=
  h.exp binds_zero hs ht he ends

theorem arrives_expList {es : List Exp} (hs : s.Strict) (ht : s.terms = ts)
    (he : d.exps ts es rest) (ends : Clear 0 rest) (comma : look rest ≠ .comma) :
    Arrives deeper.expList s (List.map Exp.shape) es rest E := by
  refine arrives_commaList h.composed.fullExp (fun hs ht he next => ?_) he comma hs ht
  refine arrives_fullExp h hs ht he ?_
  rcases next with next | rfl
  · exact clear (by rw [next]; rfl) (by rw [next]; rfl)
  · exact ends

/-! ## Table constructors -/

theorem arrives_field {f : Field} (hs : s.Strict) (ht : s.terms = ts) (hf : TableField d ts f rest)
    (ends : Clear 0 rest) (equals : look rest ≠ .singleEquals) :
    Arrives (field deeper) s Field.shape f rest E := by
  cases hf with
  | keyed hkey hv =>
    refine hs.accept_at ht fun ht₁ => ?_
    refine hs.advanced.bind (arrives_fullExp h hs.advanced ht₁ hkey (clear rfl rfl)) ?_
    rintro key s₂ hs₂ ⟨rfl, ht₂⟩
    refine hs₂.expectEnd_at ht₂ fun ht₃ => hs₂.advanced.expect_at ht₃ fun ht₄ => ?_
    refine hs₂.advanced.advanced.bind (arrives_fullExp h hs₂.advanced.advanced ht₄ hv ends) ?_
    rintro v s₅ - ⟨rfl, ht₅⟩
    exact .pure ⟨rfl, ht₅⟩
  | named hv =>
    refine hs.accept_none ht nofun ?_
    have hk : s.current.kind = .ident := hs.kind_eq ht rfl
    rw [ensures_at?, decide_eq_true hk]
    refine hs.peek (by rw [hk]; exact nofun) ?_
    rw [hs.rest_eq ht]
    refine hs.peeked.advance_at ((State.terms_peeked s).trans ht) fun name ht₁ => ?_
    refine hs.peeked.advanced.advance_at ht₁ fun _ ht₂ => ?_
    refine hs.peeked.advanced.advanced.bind
      (arrives_fullExp h hs.peeked.advanced.advanced ht₂ hv ends) ?_
    rintro v s₃ - ⟨rfl, ht₃⟩
    rw [Token.text_of_terminal_name name]
    exact .pure ⟨rfl, ht₃⟩
  | @item _ value _ hv =>
    have item : ∀ {t : State}, t.Strict → t.terms = ts →
        Ensures (do return Field.item (← deeper.fullExp)) t
          (fun f s' => f.shape = .item value ∧ s'.terms = rest) E := by
      intro t hs ht
      refine hs.bind (arrives_fullExp h hs ht hv ends) ?_
      rintro v s₁ - ⟨rfl, ht₁⟩
      exact .pure ⟨rfl, ht₁⟩
    obtain ⟨-, -, -, -, bracket⟩ := Kind.not_closes_of_startsExp (h.regular.starts hv)
    refine hs.accept_none ht bracket ?_
    rw [ensures_at?]
    split
    · next hk =>
      have hk := of_decide_eq_true hk
      refine hs.peek (by rw [hk]; exact nofun) ?_
      rw [ensures_pure_bind]
      refine .ite (fun named => ?_) fun _ => item hs.peeked ((State.terms_peeked s).trans ht)
      -- A name in front of an equals sign is no expression that could end here.
      have next : look s.advanced.terms = .singleEquals := LawfulBEq.eq_of_beq named
      have hk₁ : s.advanced.current.kind = .singleEquals := hs.advanced.ends.look_terms ▸ next
      rw [← ht, hs.ends.terms_name hk, hs.advanced.ends.terms_fixed hk₁ rfl] at hv
      rw [h.regular.equals hv] at equals
      exact absurd rfl equals
    · exact item hs ht

theorem arrives_fields {fs : List Field} (hf : Fields d ts fs rest) (ends : look rest = .rightBrace)
    (hs : s.Strict) (ht : s.terms = ts) (gs : List Field) :
    Arrives (loop (fieldRound deeper) gs) s (List.map Field.shape) (gs.map Field.shape ++ fs) rest
      E := by
  have adv := advances_fieldRound h.composed
  have goes_on : ∀ {s : State} {ts f r}, s.Strict → s.terms = ts → TableField d ts f r →
      ¬(s.current.kind = .rightBrace ∨ s.current.kind.isBlockEnd = true) := by
    intro s ts f r hs ht hf
    rw [hs.kind_eq ht rfl]
    rcases hf.starts h.regular with eq | starts
    · rw [eq]
      decide
    · obtain ⟨block, -, -, brace, -⟩ := Kind.not_closes_of_startsExp starts
      simp [block, brace]
  induction hf generalizing s gs with
  | nil =>
    refine .loop_step adv hs.ends ?_
    unfold fieldRound
    simp only [ensures_current]
    rw [if_pos (.inl (hs.kind_eq ht ends))]
    refine .pure ⟨?_, ht⟩
    rw [List.append_nil]
  | last hf =>
    refine .loop_step adv hs.ends ?_
    unfold fieldRound
    simp only [ensures_current]
    rw [if_neg (goes_on hs ht hf)]
    refine hs.bind (arrives_field h hs ht hf (clear (by rw [ends]; rfl) (by rw [ends]; rfl))
      (by rw [ends]; decide)) ?_
    rintro f s₁ hs₁ ⟨rfl, ht₁⟩
    simp only [ensures_current]
    rw [if_neg (by rw [hs₁.kind_eq ht₁ ends]; decide)]
    exact .pure ⟨List.map_append, ht₁⟩
  | @cons ts f k r fs rest hf sep _ ih =>
    refine .loop_step adv hs.ends ?_
    unfold fieldRound
    simp only [ensures_current]
    rw [if_neg (goes_on hs ht hf)]
    have hk : Clear 0 (.fixed k :: r) ∧ k ≠ .singleEquals := by
      rcases sep with rfl | rfl
      · exact ⟨clear rfl rfl, by decide⟩
      · exact ⟨clear rfl rfl, by decide⟩
    refine hs.bind (arrives_field h hs ht hf hk.1 hk.2) ?_
    rintro f s₁ hs₁ ⟨rfl, ht₁⟩
    simp only [ensures_current]
    rw [if_pos (by rw [hs₁.kind_eq ht₁ rfl]; exact sep)]
    refine hs₁.advance_at ht₁ fun _ ht₂ => .pure ?_
    have all := ih ends hs₁.advanced ht₂ (gs ++ [f])
    rw [List.map_append, List.append_assoc] at all
    exact all

theorem arrives_table (hs : s.Strict) (ht : s.terms = ts) (he : Table d ts e rest) :
    Arrives (table deeper) s Exp.shape e rest E := by
  obtain ⟨hf⟩ := he
  refine hs.advance_at ht fun _ ht₁ => ?_
  refine hs.advanced.bind (arrives_fields h hf rfl hs.advanced ht₁ []) ?_
  rintro fs s₂ hs₂ ⟨rfl, ht₂⟩
  refine hs₂.expectEnd_at ht₂ fun ht₃ => .pure ⟨?_, ht₃⟩
  rw [Exp.shape, Field.shapes_eq_map]

/-! ## Functions -/

omit h in
/-- Names that end in front of a parenthesis, or of a comma and three dots. -/
theorem arrives_names {r : List Terminal} {isVararg : Bool} {n : String} {ns : List Ident}
    {us : List Terminal} (hn : Further .comma Name us ns r)
    (ends : r = rest ∧ look rest = .rightParen ∧ isVararg = false ∨
      r = .fixed .comma :: .fixed .vararg :: rest ∧ isVararg = true)
    (hs : s.Strict) (ht : s.terms = .name n :: us) (ms : List Ident) :
    Arrives (loop paramRound (ms, false)) s (fun ps => (ps.1.map Ident.shape, ps.2))
      (ms.map Ident.shape ++ plainName n :: ns, isVararg) rest E := by
  have shape : ∀ place : Location, (ms ++ [Ident.mk n place true none]).map Ident.shape =
      ms.map Ident.shape ++ [plainName n] := fun _ => List.map_append
  induction hn generalizing s n ms with
  | nil =>
    refine .loop_step advances_paramRound hs.ends ?_
    refine hs.accept_none ht nofun (hs.expectName_at ht fun ht₁ => ?_)
    rcases ends with ⟨rfl, close, rfl⟩ | ⟨rfl, rfl⟩
    · refine hs.advanced.accept_none ht₁ (by rw [close]; exact nofun) (.pure ⟨?_, ht₁⟩)
      exact congrArg (·, false) (shape _)
    · refine hs.advanced.accept_at ht₁ fun ht₂ => .pure ?_
      refine .loop_step advances_paramRound hs.advanced.advanced.ends ?_
      refine hs.advanced.advanced.accept_at ht₂ fun ht₃ => .pure ⟨?_, ht₃⟩
      exact congrArg (·, true) (shape _)
  | cons hx _ ih =>
    obtain ⟨⟩ := hx
    refine .loop_step advances_paramRound hs.ends ?_
    refine hs.accept_none ht nofun (hs.expectName_at ht fun ht₁ => ?_)
    refine hs.advanced.accept_at ht₁ fun ht₂ => .pure ?_
    have all := ih ends hs.advanced.advanced ht₂ (ms ++ [⟨n, s.current.location, true, none⟩])
      fun _ => List.map_append
    rw [shape, List.append_assoc] at all
    exact all

omit h in
theorem arrives_params {ps : List Ident × Bool} (hs : s.Strict) (ht : s.terms = ts)
    (hp : Params ts ps rest) (ends : look rest = .rightParen) :
    Arrives params s (fun ps => (ps.1.map Ident.shape, ps.2)) ps rest E := by
  have none_of : ∀ {k}, look ts = k → k ≠ .rightParen →
      decide (s.current.kind = .rightParen) = false :=
    fun eq ne => decide_eq_false (by rw [hs.kind_eq ht eq]; exact ne)
  unfold Arrives params
  rw [ensures_at?]
  cases hp with
  | none =>
    rw [decide_eq_true (hs.kind_eq ht ends)]
    exact .pure ⟨rfl, ht⟩
  | names hn =>
    obtain ⟨⟨⟩, more⟩ := hn
    rw [none_of rfl nofun]
    exact arrives_names more (.inl ⟨rfl, ends, rfl⟩) hs ht []
  | namesDots hn =>
    obtain ⟨⟨⟩, more⟩ := hn
    rw [none_of rfl nofun]
    exact arrives_names more (.inr ⟨rfl, rfl⟩) hs ht []
  | dots =>
    rw [none_of rfl nofun]
    refine .loop_step advances_paramRound hs.ends ?_
    exact hs.accept_at ht fun ht₁ => .pure ⟨rfl, ht₁⟩

theorem arrives_functionBody {start : Location} {isMethod : Bool} (hs : s.Strict)
    (ht : s.terms = ts) (he : FuncBody d isMethod ts e rest) :
    Arrives (functionBody deeper start isMethod) s Exp.shape e rest E := by
  obtain ⟨hp, hb⟩ := he
  refine hs.expect_at ht fun ht₁ => ?_
  refine hs.advanced.bind (arrives_params hs.advanced ht₁ hp rfl) ?_
  rintro ps s₂ hs₂ ⟨eq, ht₂⟩
  obtain ⟨rfl, rfl⟩ := Prod.mk.inj eq
  refine hs₂.expectEnd_at ht₂ fun ht₃ => ?_
  refine hs₂.advanced.bind (h.block hs₂.advanced ht₃ hb rfl) ?_
  rintro b s₄ hs₄ ⟨rfl, ht₄⟩
  exact hs₄.expectEnd_at ht₄ fun ht₅ => .pure ⟨rfl, ht₅⟩

/-! ## Calls and fields -/

theorem arrives_arguments {before : Location} {args : List Exp} (hs : s.Strict) (ht : s.terms = ts)
    (ha : Args d ts args rest) :
    Arrives (arguments deeper before) s (fun as => as.1.map Exp.shape) args rest E := by
  unfold Arrives arguments
  rw [ensures_current]
  cases ha with
  | exps hes =>
    simp only [hs.kind_eq ht rfl]
    have close : ∀ {es : List Exp} {t : State}, t.Strict → es.map Exp.shape = args →
        t.terms = .fixed .rightParen :: rest → Ensures (do
          let close ← expectEnd .rightParen .leftParen s.current.location
          pure (es, s.current.location.cover close.location)) t
          (fun as s' => as.1.map Exp.shape = args ∧ s'.terms = rest) E :=
      fun ht eq ht₁ => ht.expectEnd_at ht₁ fun ht₂ => .pure ⟨eq, ht₂⟩
    refine hs.advance_at ht fun _ ht₁ => ?_
    rw [ensures_at?]
    cases hes with
    | none =>
      have hk : s.advanced.current.kind = .rightParen := hs.advanced.kind_eq ht₁ rfl
      rw [decide_eq_true hk]
      exact close hs.advanced rfl ht₁
    | some hes =>
      obtain ⟨-, -, paren, -⟩ := Kind.not_closes_of_startsExp (Level.exps_starts h.regular hes)
      rw [decide_eq_false (by rw [hs.advanced.kind_eq ht₁ rfl]; exact paren)]
      refine hs.advanced.bind (arrives_expList h hs.advanced ht₁ hes (clear rfl rfl) nofun) ?_
      rintro es s₂ hs₂ ⟨eq, ht₂⟩
      exact close hs₂ eq ht₂
  | table he =>
    have brace : s.current.kind = .leftBrace := hs.kind_eq ht (by cases he; rfl)
    simp only [brace]
    refine hs.bind (arrives_table h hs ht he) ?_
    rintro t s₁ - ⟨rfl, ht₁⟩
    exact .pure ⟨rfl, ht₁⟩
  | string =>
    simp only [hs.kind_eq ht rfl]
    refine hs.advance_at ht fun text ht₁ => .pure ⟨?_, ht₁⟩
    rw [Token.text_of_terminal_string text]
    rfl

/-! ## Operands -/

omit h in
theorem arrives_primary_name {n : String} (hs : s.Strict) (ht : s.terms = .name n :: rest) :
    Arrives (primary deeper) s Exp.shape (.name n {}) rest E := by
  unfold Arrives primary
  rw [ensures_current]
  simp only [hs.kind_eq ht rfl]
  refine hs.advance_at ht fun text ht₁ => .pure ⟨?_, ht₁⟩
  rw [Token.text_of_terminal_name text]
  rfl

theorem arrives_primary_parens (hs : s.Strict) (ht : s.terms = .fixed .leftParen :: ts)
    (he : d.exp 0 ts e (.fixed .rightParen :: rest)) :
    Arrives (primary deeper) s Exp.shape (enclose e) rest E := by
  unfold Arrives primary
  rw [ensures_current]
  simp only [hs.kind_eq ht rfl]
  refine hs.advance_at ht fun _ ht₁ => ?_
  refine hs.advanced.bind (arrives_fullExp h hs.advanced ht₁ he (clear rfl rfl)) ?_
  rintro inner s₂ hs₂ ⟨rfl, ht₂⟩
  refine hs₂.expectEnd_at ht₂ fun ht₃ => .pure ⟨?_, ht₃⟩
  rw [enclose, Exp.keepsParens_shape]
  split
  · rfl
  · rfl

/-- What is known of a round that hangs something onto an operand: the operand has a new shape, and
what follows it comes next. -/
abbrev GoesOn (x : Exp) (rest : List Terminal) (r : Round Exp) (s : State) : Prop :=
  ∃ e, r = .again e ∧ s.Strict ∧ e.shape = x ∧ s.terms = rest

section Suffix

variable {n : String} {r : List Terminal} {key : Exp} {args : List Exp}

omit h in
theorem goesOn_field (hs : s.Strict) (ht : s.terms = .fixed .dot :: .name n :: rest) :
    Ensures (suffix deeper e) s (GoesOn (.index e.shape (.string n {}) {}) rest) E := by
  unfold suffix
  rw [ensures_current]
  simp only [hs.kind_eq ht rfl]
  refine hs.advance_at ht fun _ ht₁ => hs.advanced.expectName_at ht₁ fun ht₂ => ?_
  exact .pure ⟨_, rfl, hs.advanced.advanced, rfl, ht₂⟩

theorem goesOn_index (hs : s.Strict) (ht : s.terms = .fixed .leftBracket :: r)
    (hkey : d.exp 0 r key (.fixed .rightBracket :: rest)) :
    Ensures (suffix deeper e) s (GoesOn (.index e.shape key {}) rest) E := by
  unfold suffix
  rw [ensures_current]
  simp only [hs.kind_eq ht rfl]
  refine hs.advance_at ht fun _ ht₁ => ?_
  refine hs.advanced.bind (arrives_fullExp h hs.advanced ht₁ hkey (clear rfl rfl)) ?_
  rintro key s₂ hs₂ ⟨rfl, ht₂⟩
  exact hs₂.expectEnd_at ht₂ fun ht₃ => .pure ⟨_, rfl, hs₂.advanced, rfl, ht₃⟩

/-- Arguments are those of a call of what stands in front of them. -/
theorem goesOn_arguments {method : Option Exp} {before : Location} (hs : s.Strict)
    (ht : s.terms = r) (hargs : Args d r args rest) :
    Ensures (do
      let args ← arguments deeper before
      pure (Round.again (Exp.call e method args.1 (e.place.cover args.2)))) s
      (GoesOn (.call e.shape (Exp.shape? method) args {}) rest) E := by
  refine hs.bind (arrives_arguments h hs ht hargs) ?_
  rintro as s₁ hs₁ ⟨rfl, ht₁⟩
  refine .pure ⟨_, rfl, hs₁, ?_, ht₁⟩
  rw [Exp.shape, Exp.shapes_eq_map]

theorem goesOn_call (hs : s.Strict) (ht : s.terms = r) (hargs : Args d r args rest) :
    Ensures (suffix deeper e) s (GoesOn (.call e.shape none args {}) rest) E := by
  have call : Ensures (do
      let args ← arguments deeper s.current.location
      pure (Round.again (Exp.call e none args.1 (e.place.cover args.2)))) s
      (GoesOn (.call e.shape none args {}) rest) E := goesOn_arguments h hs ht hargs
  unfold suffix
  rw [ensures_current]
  rcases hargs.starts with hk | hk | hk
  · simp only [hs.kind_eq ht hk]
    exact call
  · simp only [hs.kind_eq ht hk]
    exact call
  · simp only [hs.kind_eq ht hk]
    exact call

theorem goesOn_method (hs : s.Strict) (ht : s.terms = .fixed .colon :: .name n :: r)
    (hargs : Args d r args rest) :
    Ensures (suffix deeper e) s (GoesOn (.call e.shape (some (.string n {})) args {}) rest) E := by
  unfold suffix
  rw [ensures_current]
  simp only [hs.kind_eq ht rfl]
  refine hs.advance_at ht fun _ ht₁ => hs.advanced.expectName_at ht₁ fun ht₂ => ?_
  exact goesOn_arguments h hs.advanced.advanced ht₂ hargs

end Suffix

/-- A reader of a phrase that is built from the left goes on where an inner phrase ends. -/
theorem leads_suffixed {Q : Exp → State → Prop} (he : Prefixed d ts e rest) (hs : s.Strict)
    (ht : s.terms = ts)
    (next : ∀ e' s', s'.Strict → e'.shape = e → s'.terms = rest →
      Ensures (loop (suffix deeper) e') s' Q E) : Ensures (suffixed deeper) s Q E := by
  -- One more round hangs something onto an operand that the induction leads to.
  have round {x x' : Exp} {r : List Terminal} {s' : State} (hs' : s'.Strict)
      (goesOn : Ensures (suffix deeper x) s' (GoesOn x' r) E)
      (next : ∀ e' s', s'.Strict → e'.shape = x' → s'.terms = r →
        Ensures (loop (suffix deeper) e') s' Q E) : Ensures (loop (suffix deeper) x) s' Q E := by
    refine .loop_step (advances_suffix h.composed) hs'.ends (goesOn.imp ?_)
    rintro _ s'' - ⟨e', rfl, hs'', eq, ht''⟩
    exact next e' s'' hs'' eq ht''
  induction he generalizing s with
  | name =>
    refine hs.bind (arrives_primary_name hs ht) ?_
    exact fun e' s' hs' ⟨eq, ht'⟩ => next e' s' hs' eq ht'
  | parens he =>
    refine hs.bind (arrives_primary_parens h hs ht he) ?_
    exact fun e' s' hs' ⟨eq, ht'⟩ => next e' s' hs' eq ht'
  | field _ ih =>
    refine ih hs ht ?_
    rintro e' s' hs' rfl ht'
    exact round hs' (goesOn_field hs' ht') next
  | index _ hkey ih =>
    refine ih hs ht ?_
    rintro e' s' hs' rfl ht'
    exact round hs' (goesOn_index h hs' ht' hkey) next
  | call _ hargs ih =>
    refine ih hs ht ?_
    rintro e' s' hs' rfl ht'
    exact round hs' (goesOn_call h hs' ht' hargs) next
  | method _ hargs ih =>
    refine ih hs ht ?_
    rintro e' s' hs' rfl ht'
    exact round hs' (goesOn_method h hs' ht' hargs) next

theorem arrives_suffixed (hs : s.Strict) (ht : s.terms = ts) (he : Complete d ts e rest)
    (hangs : (look rest).hangs = false) : Arrives (suffixed deeper) s Exp.shape e rest E := by
  obtain ⟨he, paren⟩ := he
  refine leads_suffixed h he hs ht fun e' s' hs' eq ht' => ?_
  refine .loop_step (advances_suffix h.composed) hs'.ends ?_
  have hk : s'.current.kind = look rest := hs'.kind_eq ht' rfl
  rw [← hk] at hangs paren
  unfold suffix
  rw [ensures_current]
  split
  · next eq => rw [eq] at hangs; exact nomatch hangs
  · next eq => rw [eq] at hangs; exact nomatch hangs
  · next eq => rw [eq] at hangs; exact nomatch hangs
  · next eq => exact absurd eq paren
  · next eq => rw [eq] at hangs; exact nomatch hangs
  · next eq => rw [eq] at hangs; exact nomatch hangs
  · exact .pure ⟨eq, ht'⟩

/-! ## Operators -/

theorem arrives_simple (hs : s.Strict) (ht : s.terms = ts) (he : Simple d ts e rest)
    (hangs : (look rest).hangs = false) : Arrives (simple deeper) s Exp.shape e rest E := by
  unfold Arrives simple
  rw [ensures_current]
  cases he with
  | kwNil =>
    simp only [hs.kind_eq ht rfl]
    exact hs.advance_at ht fun _ ht₁ => .pure ⟨rfl, ht₁⟩
  | kwTrue =>
    simp only [hs.kind_eq ht rfl]
    exact hs.advance_at ht fun _ ht₁ => .pure ⟨rfl, ht₁⟩
  | kwFalse =>
    simp only [hs.kind_eq ht rfl]
    exact hs.advance_at ht fun _ ht₁ => .pure ⟨rfl, ht₁⟩
  | vararg =>
    simp only [hs.kind_eq ht rfl]
    exact hs.advance_at ht fun _ ht₁ => .pure ⟨rfl, ht₁⟩
  | integer hv =>
    simp only [hs.kind_eq ht rfl]
    refine hs.advance_at ht fun text ht₁ => ?_
    unfold numeral
    rw [Token.text_of_terminal_number text, hv]
    exact .pure ⟨rfl, ht₁⟩
  | float hv =>
    simp only [hs.kind_eq ht rfl]
    refine hs.advance_at ht fun text ht₁ => ?_
    unfold numeral
    rw [Token.text_of_terminal_number text, hv]
    exact .pure ⟨rfl, ht₁⟩
  | string =>
    simp only [hs.kind_eq ht rfl]
    refine hs.advance_at ht fun text ht₁ => .pure ⟨?_, ht₁⟩
    rw [Token.text_of_terminal_string text]
    rfl
  | table he =>
    have brace : s.current.kind = .leftBrace := hs.kind_eq ht (by cases he; rfl)
    simp only [brace]
    exact arrives_table h hs ht he
  | function he =>
    simp only [hs.kind_eq ht rfl]
    exact hs.advance_at ht fun _ ht₁ => arrives_functionBody h hs.advanced ht₁ he
  | complete he =>
    rcases he.starts with hk | hk
    · simp only [hs.kind_eq ht hk]
      exact arrives_suffixed h hs ht he hangs
    · simp only [hs.kind_eq ht hk]
      exact arrives_suffixed h hs ht he hangs

/-- The operators of an expression are taken from the left, as long as they bind tightly enough. -/
theorem leads_subexpression {limit least rank : Nat} {Q : Exp → State → Prop}
    (hb : Binds limit least) (he : Expression d rank ts e rest) (hr : least ≤ rank)
    (ends : Settles rank rest) (hs : s.Strict) (ht : s.terms = ts)
    (next : ∀ e' s', s'.Strict → e'.shape = e → s'.terms = rest →
      Ensures (loop (operation deeper limit) e') s' Q E) :
    Ensures (subexpression deeper limit) s Q E := by
  have adv := advances_operation h.composed limit
  induction he generalizing s with
  | @simple _ _ e rest he =>
    refine hs.bind (P := fun e' s' => e'.shape = e ∧ s'.terms = rest) ?_
      fun e' s' hs' ⟨eq, ht'⟩ => next e' s' hs' eq ht'
    unfold operand
    rw [ensures_current, hs.kind_eq ht rfl, Kind.unary_of_startsSimple he.starts]
    exact arrives_simple h hs ht he ends.hangs
  | @unary _ k op _ e rest hop le he =>
    refine hs.bind (P := fun e' s' => e'.shape = .unary op e {} ∧ s'.terms = rest) ?_
      fun e' s' hs' ⟨eq, ht'⟩ => next e' s' hs' eq ht'
    unfold operand
    rw [ensures_current, (hs.kind_eq ht rfl : s.current.kind = k), hop]
    refine hs.advance_at ht fun _ ht₁ => ?_
    have stop : Clear UnaryOp.rank rest := by
      refine ⟨ends.hangs, fun op hop => rank_lt_unary_of_leftRank_le ?_⟩
      exact Nat.le_trans (ends.operand op hop) le
    refine hs.advanced.bind (h.exp binds_unary hs.advanced ht₁ he stop) ?_
    rintro e' s₂ - ⟨rfl, ht₂⟩
    exact .pure ⟨rfl, ht₂⟩
  | @binary rank k op _ lhs r rhs rest hop le _ hrhs ih =>
    have settles : Settles op.leftRank (.fixed k :: r) := by
      refine ⟨Kind.hangs_of_binary hop, fun op' hop' => ?_⟩
      obtain rfl := Option.some.inj (hop.symm.trans hop')
      exact Nat.le_refl _
    have tight : least ≤ op.rank := Nat.le_trans hr le
    refine ih (Nat.le_trans tight (rank_le_leftRank op)) settles hs ht fun e' s' hs' eq ht' => ?_
    refine .loop_step adv hs'.ends ?_
    unfold operation
    rw [ensures_current, (hs'.kind_eq ht' rfl : s'.current.kind = k), hop]
    dsimp only
    rw [if_neg (Nat.not_le.2 ((hb.lt_iff op).2 tight))]
    refine hs'.advance_at ht' fun _ ht₁ => ?_
    have stop : Clear op.rightRank rest := ⟨ends.hangs, fun next hnext =>
      rank_lt_rightRank_of_leftRank_le (Nat.le_trans (ends.operand next hnext) le)⟩
    refine hs'.advanced.bind (h.exp (binds_right op) hs'.advanced ht₁ hrhs stop) ?_
    rintro e₂ s₂ hs₂ ⟨rfl, ht₂⟩
    refine .pure (next _ _ hs₂ ?_ ht₂)
    rw [Exp.shape, eq]

theorem arrives_subexpression {limit rank : Nat} (hb : Binds limit rank) (hs : s.Strict)
    (ht : s.terms = ts) (he : Expression d rank ts e rest) (ends : Clear rank rest) :
    Arrives (subexpression deeper limit) s Exp.shape e rest E := by
  refine leads_subexpression h hb he (Nat.le_refl _) ends.settles hs ht fun e' s' hs' eq ht' => ?_
  refine .loop_step (advances_operation h.composed limit) hs'.ends ?_
  unfold operation
  rw [ensures_current, hs'.kind_eq ht' rfl]
  split
  · next op hop =>
    have loose : op.leftPriority ≤ limit := by
      refine Nat.le_of_not_lt fun lt => ?_
      exact Nat.not_lt.2 ((hb.lt_iff op).1 lt) (ends.below op hop)
    rw [if_pos loose]
    exact .pure ⟨eq, ht'⟩
  · exact .pure ⟨eq, ht'⟩

end Expression

/-! ## Statements -/

section Statement

variable {d : Level} {deeper : Nested} {n : String} (h : deeper.Complete d E)

theorem arrives_name {name : Ident} (hs : s.Strict) (ht : s.terms = ts) (hn : Name ts name rest) :
    Arrives (expectName k) s Ident.shape name rest E := by
  obtain ⟨⟩ := hn
  exact .of_bind_pure (hs.expectName_at ht fun ht₁ => .pure ⟨rfl, ht₁⟩)

theorem arrives_gotoStat (hs : s.Strict)
    (ht : s.terms = .fixed .kwGoto :: .name n :: rest) :
    Arrives gotoStat s Stat.shape (.goto (plainName n) {}) rest E :=
  hs.advance_at ht fun _ ht₁ => hs.advanced.expectName_at ht₁ fun ht₂ => .pure ⟨rfl, ht₂⟩

theorem arrives_labelStat (hs : s.Strict)
    (ht : s.terms = .fixed .doubleColon :: .name n :: .fixed .doubleColon :: rest) :
    Arrives labelStat s Stat.shape (.label (plainName n) {}) rest E :=
  hs.advance_at ht fun _ ht₁ => hs.advanced.expectName_at ht₁ fun ht₂ =>
    hs.advanced.advanced.expect_at ht₂ fun ht₃ => .pure ⟨rfl, ht₃⟩

/-- The words of a function's name are taken from the left. -/
theorem leads_functionTarget {e : Exp} {Q : Exp × Bool → State → Prop} {first : Ident}
    {us : List Terminal} (hp : Path ts e rest) (start : ts = .name first.text :: us)
    (hs : s.Strict) (ht : s.terms = us)
    (next : ∀ e' s', s'.Strict → e'.shape = e → s'.terms = rest →
      Ensures (loop targetRound (e', false)) s' Q E) : Ensures (functionTarget first) s Q E := by
  induction hp with
  | name =>
    obtain ⟨name, rfl⟩ := List.cons.inj start
    injection name with name
    exact next _ s hs (by rw [Exp.shape, name]) ht
  | field _ ih =>
    refine ih start fun e' s' hs' eq ht' => .loop_step advances_targetRound hs'.ends ?_
    unfold targetRound
    rw [ensures_current, if_pos (.inl (hs'.kind_eq ht' rfl))]
    refine hs'.advance_at ht' fun _ ht₁ => hs'.advanced.expectName_at ht₁ fun ht₂ => .pure ?_
    rw [if_neg (by rw [hs'.kind_eq ht' rfl]; simp [look])]
    refine next _ _ hs'.advanced.advanced ?_ ht₂
    rw [Exp.shape, eq]
    rfl

theorem arrives_functionTarget {target : Exp × Bool} {first : Ident} {us : List Terminal}
    (hf : FuncName ts target rest) (start : ts = .name first.text :: us) (hs : s.Strict)
    (ht : s.terms = us) (paren : look rest = .leftParen) :
    Arrives (functionTarget first) s (fun target => (target.1.shape, target.2)) target rest E := by
  cases hf with
  | plain hp =>
    refine leads_functionTarget hp start hs ht fun e' s' hs' eq ht' => ?_
    refine .loop_step advances_targetRound hs'.ends ?_
    unfold targetRound
    rw [ensures_current, if_neg (by rw [hs'.kind_eq ht' paren]; decide)]
    exact .pure ⟨congrArg (·, false) eq, ht'⟩
  | method hp =>
    refine leads_functionTarget hp start hs ht fun e' s' hs' eq ht' => ?_
    refine .loop_step advances_targetRound hs'.ends ?_
    unfold targetRound
    have hk : s'.current.kind = .colon := hs'.kind_eq ht' rfl
    rw [ensures_current, if_pos (.inr hk)]
    refine hs'.advance_at ht' fun _ ht₁ => hs'.advanced.expectName_at ht₁ fun ht₂ => .pure ?_
    rw [if_pos hk]
    refine ⟨?_, ht₂⟩
    dsimp only
    rw [Exp.shape, eq]
    rfl

theorem arrives_localName {name : Ident} (hs : s.Strict) (ht : s.terms = ts)
    (hn : AttName ts name rest) (less : look rest ≠ .less) :
    Arrives localName s (fun name => name.1.shape) name rest E := by
  cases hn with
  | plain =>
    refine hs.expectName_at ht fun ht₁ => ?_
    exact hs.advanced.accept_none ht₁ less (.pure ⟨rfl, ht₁⟩)
  | @attrib n a value _ ha =>
    refine hs.expectName_at ht fun ht₁ => hs.advanced.accept_at ht₁ fun ht₂ => ?_
    have hs₂ := hs.advanced.advanced
    refine hs₂.bind (P := fun v s' => v.1 = some value ∧ s'.terms = rest) ?_ ?_
    · refine hs₂.expectName_at ht₂ fun ht₃ => ?_
      dsimp only
      rw [ha, if_neg (by simp)]
      exact hs₂.advanced.expectEnd_at ht₃ fun ht₄ => .pure ⟨rfl, ht₄⟩
    · rintro ⟨v, close⟩ s' - ⟨eq, ht'⟩
      dsimp only at eq
      rw [eq]
      exact .pure ⟨rfl, ht'⟩

theorem checks_assignable {es : List Exp} (all : ∀ e ∈ es, e.isAssignable = true) :
    Ensures (es.forM checkTarget) s (fun _ s' => s' = s) E := by
  induction es with
  | nil => exact .pure rfl
  | cons e es ih =>
    obtain ⟨ok, all⟩ := List.forall_mem_cons.1 all
    show Ensures (checkTarget e >>= fun _ => es.forM checkTarget) _ _ _
    unfold checkTarget
    rw [ok]
    exact ih all

include h

theorem arrives_scopeStat {b : Block} (hs : s.Strict) (ht : s.terms = .fixed .kwDo :: ts)
    (hb : d.block ts b (.fixed .kwEnd :: rest)) :
    Arrives (scopeStat deeper) s Stat.shape (.scope b {}) rest E := by
  refine hs.advance_at ht fun _ ht₁ => hs.advanced.bind (h.block hs.advanced ht₁ hb rfl) ?_
  rintro b s₂ hs₂ ⟨rfl, ht₂⟩
  exact hs₂.expectEnd_at ht₂ fun ht₃ => .pure ⟨rfl, ht₃⟩

theorem arrives_whileStat {c : Exp} {b : Block} {r : List Terminal} (hs : s.Strict)
    (ht : s.terms = .fixed .kwWhile :: ts) (hc : d.exp 0 ts c (.fixed .kwDo :: r))
    (hb : d.block r b (.fixed .kwEnd :: rest)) :
    Arrives (whileStat deeper) s Stat.shape (.whileLoop c b {}) rest E := by
  refine hs.advance_at ht fun _ ht₁ => ?_
  refine hs.advanced.bind (arrives_fullExp h hs.advanced ht₁ hc (clear rfl rfl)) ?_
  rintro c s₂ hs₂ ⟨rfl, ht₂⟩
  refine hs₂.expect_at ht₂ fun ht₃ => hs₂.advanced.bind (h.block hs₂.advanced ht₃ hb rfl) ?_
  rintro b s₄ hs₄ ⟨rfl, ht₄⟩
  exact hs₄.expectEnd_at ht₄ fun ht₅ => .pure ⟨rfl, ht₅⟩

theorem arrives_repeatStat {c : Exp} {b : Block} {r : List Terminal} (hs : s.Strict)
    (ht : s.terms = .fixed .kwRepeat :: ts) (hb : d.block ts b (.fixed .kwUntil :: r))
    (hc : d.exp 0 r c rest) (ends : Clear 0 rest) :
    Arrives (repeatStat deeper) s Stat.shape (.repeatLoop b c {}) rest E := by
  refine hs.advance_at ht fun _ ht₁ => hs.advanced.bind (h.block hs.advanced ht₁ hb rfl) ?_
  rintro b s₂ hs₂ ⟨rfl, ht₂⟩
  refine hs₂.expectEnd_at ht₂ fun ht₃ => ?_
  refine hs₂.advanced.bind (arrives_fullExp h hs₂.advanced ht₃ hc ends) ?_
  rintro c s₄ - ⟨rfl, ht₄⟩
  exact .pure ⟨rfl, ht₄⟩

theorem arrives_clause {c : Clause} (hs : s.Strict) (ht : s.terms = ts) (hc : Branch d ts c rest)
    (ends : (look rest).isBlockEnd = true) : Arrives (clause deeper) s Clause.shape c rest E := by
  obtain ⟨hc, hb⟩ := hc
  refine hs.bind (arrives_fullExp h hs ht hc (clear rfl rfl)) ?_
  rintro c s₁ hs₁ ⟨rfl, ht₁⟩
  refine hs₁.expect_at ht₁ fun ht₂ => hs₁.advanced.bind (h.block hs₁.advanced ht₂ hb ends) ?_
  rintro b s₃ - ⟨rfl, ht₃⟩
  exact .pure ⟨rfl, ht₃⟩

theorem arrives_branchStat {cs : List Clause} {other : Option Block} {r : List Terminal}
    (hs : s.Strict) (ht : s.terms = .fixed .kwIf :: ts) (hcs : Listed .kwElseif (Branch d) ts cs r)
    (hother : Led .kwElse d.block r other (.fixed .kwEnd :: rest)) :
    Arrives (branchStat deeper) s Stat.shape (.branch cs other {}) rest E := by
  obtain @⟨_, _, _, xs, _, hc, more⟩ := hcs
  have ends : (look r).isBlockEnd = true ∧ look r ≠ .kwElseif := by
    cases hother with
    | none => exact ⟨rfl, by simp [look]⟩
    | some _ => exact ⟨rfl, by simp [look]⟩
  have item : ∀ {s : State} {ts y r'}, s.Strict → s.terms = ts → Branch d ts y r' →
      look r' = .kwElseif ∨ r' = r → Arrives (clause deeper) s Clause.shape y r' E := by
    intro s ts y r' hs ht hc next
    refine arrives_clause h hs ht hc ?_
    rcases next with next | rfl
    · rw [next]
      rfl
    · exact ends.1
  refine hs.advance_at ht fun _ ht₁ => ?_
  refine hs.advanced.bind (item hs.advanced ht₁ hc more.look_eq) ?_
  rintro c s₂ hs₂ ⟨rfl, ht₂⟩
  refine hs₂.bind (arrives_further (by simp) (composed_clause h.composed) item more ends.2 hs₂ ht₂
    [c]) ?_
  rintro cs s₃ hs₃ ⟨eq, ht₃⟩
  have close : ∀ {b : Option Block} {t : State}, t.Strict → Block.shape? b = other →
      t.terms = .fixed .kwEnd :: rest → Ensures (do
        let close ← expectEnd .kwEnd .kwIf s.current.location
        pure (Stat.branch cs b (s.current.location.cover close.location))) t
        (fun x s' => x.shape = .branch (c.shape :: xs) other {} ∧ s'.terms = rest) E := by
    intro b t hs eqOther ht
    refine hs.expectEnd_at ht fun ht' => .pure ⟨?_, ht'⟩
    rw [Stat.shape, Clause.shapes_eq_map, eq, eqOther]
    rfl
  cases hother with
  | none => exact hs₃.accept_none ht₃ (by simp [look]) (close hs₃ rfl ht₃)
  | @some _ other _ hb =>
    refine hs₃.accept_at ht₃ fun ht₄ => ?_
    have body : Arrives (some <$> deeper.block) s₃.advanced Block.shape? (some other) _ E :=
      arrives_some (fun _ => rfl) (h.block hs₃.advanced ht₄ hb rfl)
    refine hs₃.advanced.bind body ?_
    rintro b s₅ hs₅ ⟨eqOther, ht₅⟩
    exact close hs₅ eqOther ht₅

theorem arrives_numericForStat {opener : Location} {var : Ident} {start limit : Exp}
    {step : Option Exp} {b : Block} {r r' r'' : List Terminal} (hs : s.Strict) (ht : s.terms = ts)
    (hstart : d.exp 0 ts start (.fixed .comma :: r)) (hlimit : d.exp 0 r limit r')
    (hstep : Led .comma (d.exp 0) r' step (.fixed .kwDo :: r''))
    (hb : d.block r'' b (.fixed .kwEnd :: rest)) :
    Arrives (numericForStat deeper opener var) s Stat.shape
      (.numericFor var.shape start limit step b {}) rest E := by
  have ends : Clear 0 r' := by
    cases hstep with
    | none => exact clear rfl rfl
    | some _ => exact clear rfl rfl
  refine hs.bind (arrives_fullExp h hs ht hstart (clear rfl rfl)) ?_
  rintro start s₁ hs₁ ⟨rfl, ht₁⟩
  refine hs₁.expect_at ht₁ fun ht₂ => ?_
  refine hs₁.advanced.bind (arrives_fullExp h hs₁.advanced ht₂ hlimit ends) ?_
  rintro limit s₃ hs₃ ⟨rfl, ht₃⟩
  have close : ∀ {e : Option Exp} {t : State}, t.Strict → Exp.shape? e = step →
      t.terms = .fixed .kwDo :: r'' → Ensures (do
        let _ ← expect .kwDo
        let body ← deeper.block
        let close ← expectEnd .kwEnd .kwFor opener
        pure (Stat.numericFor var start limit e body (opener.cover close.location))) t
        (fun x s' => x.shape = .numericFor var.shape start.shape limit.shape step b {} ∧
          s'.terms = rest) E := by
    rintro e t hs rfl ht
    refine hs.expect_at ht fun ht₁ => hs.advanced.bind (h.block hs.advanced ht₁ hb rfl) ?_
    rintro b s₂ hs₂ ⟨rfl, ht₂⟩
    exact hs₂.expectEnd_at ht₂ fun ht₃ => .pure ⟨rfl, ht₃⟩
  cases hstep with
  | none => exact hs₃.accept_none ht₃ nofun (close hs₃ rfl ht₃)
  | @some _ step _ hstep =>
    refine hs₃.accept_at ht₃ fun ht₄ => ?_
    have stepped : Arrives (some <$> deeper.fullExp) s₃.advanced Exp.shape? (some step) _ E :=
      arrives_some (fun _ => rfl) (arrives_fullExp h hs₃.advanced ht₄ hstep (clear rfl rfl))
    exact hs₃.advanced.bind stepped fun e s₅ hs₅ ⟨eqStep, ht₅⟩ => close hs₅ eqStep ht₅

theorem arrives_genericForStat {opener : Location} {first : Ident} {ns : List Ident}
    {es : List Exp} {b : Block} {r r' : List Terminal} (hs : s.Strict) (ht : s.terms = ts)
    (more : Further .comma Name ts ns (.fixed .kwIn :: r)) (hes : d.exps r es (.fixed .kwDo :: r'))
    (hb : d.block r' b (.fixed .kwEnd :: rest)) :
    Arrives (genericForStat deeper opener first) s Stat.shape
      (.genericFor (first.shape :: ns) es b {}) rest E := by
  refine hs.bind (arrives_further (by simp) (composed_expectName .comma)
    (fun hs ht hn _ => arrives_name hs ht hn) more nofun hs ht [first]) ?_
  rintro names s₁ hs₁ ⟨eq, ht₁⟩
  refine hs₁.expect_at ht₁ fun ht₂ => ?_
  refine hs₁.advanced.bind (arrives_expList h hs₁.advanced ht₂ hes (clear rfl rfl) nofun) ?_
  rintro es s₃ hs₃ ⟨rfl, ht₃⟩
  refine hs₃.expect_at ht₃ fun ht₄ => hs₃.advanced.bind (h.block hs₃.advanced ht₄ hb rfl) ?_
  rintro b s₅ hs₅ ⟨rfl, ht₅⟩
  refine hs₅.expectEnd_at ht₅ fun ht₆ => .pure ⟨?_, ht₆⟩
  rw [Stat.shape, eq, Exp.shapes_eq_map]
  rfl

theorem arrives_functionStat {target f : Exp} {isMethod : Bool} {r : List Terminal}
    (hs : s.Strict) (ht : s.terms = .fixed .kwFunction :: ts)
    (htarget : FuncName ts (target, isMethod) r) (hf : FuncBody d isMethod r f rest) :
    Arrives (functionStat deeper) s Stat.shape (.assign [target] [f] {}) rest E := by
  obtain ⟨n, us, rfl⟩ := htarget.starts
  have paren : look r = .leftParen := by cases hf; rfl
  refine hs.advance_at ht fun _ ht₁ => hs.advanced.expectName_at ht₁ fun ht₂ => ?_
  have hs₂ := hs.advanced.advanced
  refine hs₂.bind (arrives_functionTarget htarget rfl hs₂ ht₂ paren) ?_
  rintro ⟨target, isMethod⟩ s₃ hs₃ ⟨eq, ht₃⟩
  obtain ⟨rfl, rfl⟩ := Prod.mk.inj eq
  refine hs₃.bind (arrives_functionBody h hs₃ ht₃ hf) ?_
  rintro f s₄ - ⟨rfl, ht₄⟩
  exact .pure ⟨rfl, ht₄⟩

theorem arrives_localFunctionStat {opener : Location} {f : Exp} (hs : s.Strict)
    (ht : s.terms = .fixed .kwFunction :: .name n :: ts) (hf : FuncBody d false ts f rest) :
    Arrives (localFunctionStat deeper opener) s Stat.shape (.localFunction (plainName n) f {}) rest
      E := by
  refine hs.advance_at ht fun _ ht₁ => hs.advanced.expectName_at ht₁ fun ht₂ => ?_
  have hs₂ := hs.advanced.advanced
  refine hs₂.bind (arrives_functionBody h hs₂ ht₂ hf) ?_
  rintro f s₃ - ⟨rfl, ht₃⟩
  exact .pure ⟨rfl, ht₃⟩

theorem arrives_localsStat {opener : Location} {ns : List Ident} {es : Option (List Exp)}
    {r : List Terminal} (hs : s.Strict) (ht : s.terms = ts)
    (hns : Listed .comma AttName ts ns r) (hes : Led .singleEquals d.exps r es rest)
    (loose : (look rest).loose = true) :
    Arrives (localsStat deeper opener) s Stat.shape (.locals ns (es.getD []) {}) rest E := by
  obtain ⟨stop, comma, equals⟩ := clear_of_loose loose
  have ends : look r ≠ .comma ∧ look r ≠ .less := by
    cases hes with
    | none =>
      refine ⟨comma, fun less => ?_⟩
      rw [less] at loose
      exact nomatch loose
    | some _ => exact ⟨nofun, nofun⟩
  have read : Arrives (commaList localName) s (List.map fun name => name.1.shape) ns r E := by
    refine arrives_commaList composed_localName (fun hs ht hn next => ?_) hns ends.1 hs ht
    refine arrives_localName hs ht hn ?_
    rcases next with next | rfl
    · rw [next]
      exact nofun
    · exact ends.2
  refine hs.bind read ?_
  rintro names s₁ hs₁ ⟨rfl, ht₁⟩
  have eq : (names.map (·.1)).map Ident.shape = names.map fun name => name.1.shape := by
    rw [List.map_map]
    rfl
  cases hes with
  | none =>
    refine hs₁.accept_none ht₁ equals (.pure ⟨?_, ht₁⟩)
    rw [Stat.shape, eq]
    rfl
  | some hes =>
    refine hs₁.accept_at ht₁ fun ht₂ => ?_
    refine hs₁.advanced.bind (arrives_expList h hs₁.advanced ht₂ hes stop comma) ?_
    rintro es s₃ - ⟨rfl, ht₃⟩
    refine .pure ⟨?_, ht₃⟩
    rw [Stat.shape, eq, Exp.shapes_eq_map]
    rfl

theorem arrives_assignStat {first : Exp} {targets es : List Exp} {r : List Terminal}
    (hs : s.Strict) (ht : s.terms = ts) (hf : first.isAssignable = true)
    (more : Further .comma (Target d) ts targets (.fixed .singleEquals :: r))
    (hes : d.exps r es rest) (loose : (look rest).loose = true) :
    Arrives (assignStat deeper first) s Stat.shape (.assign (first.shape :: targets) es {}) rest
      E := by
  obtain ⟨stop, comma, -⟩ := clear_of_loose loose
  have item : ∀ {s : State} {ts y r'}, s.Strict → s.terms = ts → Target d ts y r' →
      look r' = .comma ∨ r' = .fixed .singleEquals :: r →
      Arrives (suffixed deeper) s Exp.shape y r' E := by
    rintro s ts y r' hs ht ⟨hy, -⟩ next
    refine arrives_suffixed h hs ht hy ?_
    rcases next with next | rfl
    · rw [next]
      rfl
    · rfl
  have assignable : ∀ {ts r' es}, Further .comma (Target d) ts es r' →
      ∀ e ∈ es, e.isAssignable = true := by
    intro ts r' es more
    induction more with
    | nil => exact nofun
    | cons hx _ ih =>
      obtain ⟨-, ok⟩ := hx
      exact List.forall_mem_cons.2 ⟨ok, ih⟩
  refine hs.bind (arrives_further (by simp) (composed_suffixed h.composed) item more nofun hs ht
    [first]) ?_
  rintro all s₁ hs₁ ⟨eq, ht₁⟩
  have ok : ∀ e ∈ all, e.isAssignable = true := by
    intro e he
    rw [← Exp.isAssignable_shape]
    have mem := List.mem_map_of_mem (f := Exp.shape) he
    rw [eq] at mem
    rcases List.mem_cons.1 mem with eq | mem
    · rw [eq, Exp.isAssignable_shape, hf]
    · exact assignable more _ mem
  refine (checks_assignable ok).bind ?_
  rintro _ _ - rfl
  refine hs₁.expect_at ht₁ fun ht₂ => ?_
  refine hs₁.advanced.bind (arrives_expList h hs₁.advanced ht₂ hes stop comma) ?_
  rintro es s₃ - ⟨rfl, ht₃⟩
  refine .pure ⟨?_, ht₃⟩
  rw [Stat.shape, Exp.shapes_eq_map, Exp.shapes_eq_map, eq]
  rfl

theorem arrives_numericFor {start limit : Exp} {step : Option Exp} {b : Block}
    {r r' r'' : List Terminal} (hs : s.Strict)
    (ht : s.terms = .fixed .kwFor :: .name n :: .fixed .singleEquals :: ts)
    (hstart : d.exp 0 ts start (.fixed .comma :: r)) (hlimit : d.exp 0 r limit r')
    (hstep : Led .comma (d.exp 0) r' step (.fixed .kwDo :: r''))
    (hb : d.block r'' b (.fixed .kwEnd :: rest)) :
    Arrives (forStat deeper) s Stat.shape (.numericFor (plainName n) start limit step b {}) rest
      E := by
  refine hs.advance_at ht fun _ ht₁ => hs.advanced.expectName_at ht₁ fun ht₂ => ?_
  have hs₂ := hs.advanced.advanced
  exact hs₂.accept_at ht₂ fun ht₃ =>
    arrives_numericForStat h hs₂.advanced ht₃ hstart hlimit hstep hb

theorem arrives_genericFor {ns : List Ident} {es : List Exp} {b : Block} {r r' : List Terminal}
    (hs : s.Strict) (ht : s.terms = .fixed .kwFor :: ts)
    (hns : Listed .comma Name ts ns (.fixed .kwIn :: r)) (hes : d.exps r es (.fixed .kwDo :: r'))
    (hb : d.block r' b (.fixed .kwEnd :: rest)) :
    Arrives (forStat deeper) s Stat.shape (.genericFor ns es b {}) rest E := by
  obtain ⟨⟨⟩, more⟩ := hns
  refine hs.advance_at ht fun _ ht₁ => hs.advanced.expectName_at ht₁ fun ht₂ => ?_
  have hs₂ := hs.advanced.advanced
  refine hs₂.accept_none ht₂ ?_ (arrives_genericForStat h hs₂ ht₂ more hes hb)
  rcases more.look_eq with next | rfl
  · rw [next]
    exact nofun
  · exact nofun

theorem arrives_locals {ns : List Ident} {es : Option (List Exp)} {r : List Terminal}
    (hs : s.Strict) (ht : s.terms = .fixed .kwLocal :: ts) (hns : Listed .comma AttName ts ns r)
    (hes : Led .singleEquals d.exps r es rest) (loose : (look rest).loose = true) :
    Arrives (localStat deeper) s Stat.shape (.locals ns (es.getD []) {}) rest E := by
  have name : look ts = .ident := by
    obtain ⟨first, -⟩ := hns
    cases first with
    | plain => rfl
    | attrib _ => rfl
  refine hs.advance_at ht fun _ ht₁ => ?_
  rw [ensures_at?, decide_eq_false (by rw [hs.advanced.kind_eq ht₁ name]; exact nofun)]
  exact arrives_localsStat h hs.advanced ht₁ hns hes loose

theorem arrives_assign {targets es : List Exp} {r : List Terminal} (hs : s.Strict)
    (ht : s.terms = ts) (htargets : Listed .comma (Target d) ts targets (.fixed .singleEquals :: r))
    (hes : d.exps r es rest) (loose : (look rest).loose = true) :
    Arrives (expStat deeper) s (Option.map Stat.shape) (some (.assign targets es {})) rest E := by
  obtain @⟨_, _, r₁, _, _, ⟨first, assignable⟩, more⟩ := htargets
  have next : look r₁ = .singleEquals ∨ look r₁ = .comma := by
    rcases more.look_eq with next | rfl
    · exact .inr next
    · exact .inl rfl
  refine hs.bind (arrives_suffixed h hs ht first ?_) ?_
  · rcases next with next | next
    · rw [next]
      rfl
    · rw [next]
      rfl
  rintro e s₁ hs₁ ⟨rfl, ht₁⟩
  simp only [ensures_current]
  rw [if_pos (by rw [hs₁.kind_eq ht₁ rfl]; exact next)]
  rw [Exp.isAssignable_shape] at assignable
  exact arrives_some (fun _ => rfl) (arrives_assignStat h hs₁ ht₁ assignable more hes loose)

theorem arrives_call {e : Exp} (hs : s.Strict) (ht : s.terms = ts) (he : Complete d ts e rest)
    (call : e.isCall = true) (loose : (look rest).loose = true) :
    Arrives (expStat deeper) s (Option.map Stat.shape) (some (.call e {})) rest E := by
  obtain ⟨stop, comma, equals⟩ := clear_of_loose loose
  have hangs : (look rest).hangs = false := (@stop 0).hangs
  refine hs.bind (arrives_suffixed h hs ht he hangs) ?_
  rintro e s₁ hs₁ ⟨rfl, ht₁⟩
  rw [Exp.isCall_shape] at call
  simp only [ensures_current]
  rw [if_neg (by rw [hs₁.kind_eq ht₁ rfl]; exact not_or.2 ⟨equals, comma⟩), if_pos call]
  exact .pure ⟨rfl, ht₁⟩

/-- All statements are read, whatever word or symbol they start with. -/
theorem arrives_statement {st : Option Stat} (hs : s.Strict) (ht : s.terms = ts)
    (hst : Statement d ts st rest) (loose : (look rest).loose = true) :
    Arrives (statement deeper) s (Option.map Stat.shape) st rest E := by
  have some_of {p : Parse Stat} {x : Stat} (hp : Arrives p s Stat.shape x rest E) :
      Arrives (some <$> p) s (Option.map Stat.shape) (some x) rest E :=
    arrives_some (fun _ => rfl) hp
  have of_expStat : look ts = .ident ∨ look ts = .leftParen →
      Arrives (expStat deeper) s (Option.map Stat.shape) st rest E →
      Arrives (statement deeper) s (Option.map Stat.shape) st rest E := by
    intro starts hp
    unfold Arrives statement
    rw [ensures_current]
    rcases starts with hk | hk
    · simp only [hs.kind_eq ht hk]
      exact hp
    · simp only [hs.kind_eq ht hk]
      exact hp
  unfold Arrives statement
  rw [ensures_current]
  cases hst with
  | empty =>
    simp only [hs.kind_eq ht rfl]
    exact hs.advance_at ht fun _ ht₁ => .pure ⟨rfl, ht₁⟩
  | breakOut =>
    simp only [hs.kind_eq ht rfl]
    exact hs.advance_at ht fun _ ht₁ => .pure ⟨rfl, ht₁⟩
  | label =>
    simp only [hs.kind_eq ht rfl]
    exact some_of (arrives_labelStat hs ht)
  | goto =>
    simp only [hs.kind_eq ht rfl]
    exact some_of (arrives_gotoStat hs ht)
  | scope hb =>
    simp only [hs.kind_eq ht rfl]
    exact some_of (arrives_scopeStat h hs ht hb)
  | whileLoop hc hb =>
    simp only [hs.kind_eq ht rfl]
    exact some_of (arrives_whileStat h hs ht hc hb)
  | repeatLoop hb hc =>
    simp only [hs.kind_eq ht rfl]
    exact some_of (arrives_repeatStat h hs ht hb hc (clear_of_loose loose).1)
  | branch hcs hother =>
    simp only [hs.kind_eq ht rfl]
    exact some_of (arrives_branchStat h hs ht hcs hother)
  | numericFor hstart hlimit hstep hb =>
    simp only [hs.kind_eq ht rfl]
    exact some_of (arrives_numericFor h hs ht hstart hlimit hstep hb)
  | genericFor hns hes hb =>
    simp only [hs.kind_eq ht rfl]
    exact some_of (arrives_genericFor h hs ht hns hes hb)
  | function htarget hf =>
    simp only [hs.kind_eq ht rfl]
    exact some_of (arrives_functionStat h hs ht htarget hf)
  | localFunction hf =>
    simp only [hs.kind_eq ht rfl]
    refine some_of (hs.advance_at ht fun _ ht₁ => ?_)
    have hk : s.advanced.current.kind = .kwFunction := hs.advanced.kind_eq ht₁ rfl
    rw [ensures_at?, decide_eq_true hk]
    exact arrives_localFunctionStat h hs.advanced ht₁ hf
  | locals hns hes =>
    simp only [hs.kind_eq ht rfl]
    exact some_of (arrives_locals h hs ht hns hes loose)
  | assign htargets hes =>
    refine of_expStat ?_ (arrives_assign h hs ht htargets hes loose)
    obtain ⟨first, -⟩ := htargets
    exact first.starts
  | call he call => exact of_expStat he.starts (arrives_call h hs ht he call loose)

/-! ## Sequences of statements -/

theorem arrives_returnStat {st : Stat} (hs : s.Strict) (ht : s.terms = ts)
    (hst : Return d ts st rest) (ends : (look rest).isBlockEnd = true) :
    Arrives (returnStat deeper) s Stat.shape st rest E := by
  obtain ⟨stop, comma, -⟩ := clear_of_loose (Kind.loose_of_isBlockEnd ends)
  have semicolon : look rest ≠ .semicolon := fun eq => by
    rw [eq] at ends
    exact absurd ends (by decide)
  have close : ∀ {es : List Exp} {t : State}, t.Strict →
      t.terms = rest ∨ t.terms = .fixed .semicolon :: rest → Ensures (do
        let place := s.current.location.coverAll (es.map Exp.place)
        let close ← accept .semicolon
        pure (Stat.ret es (place.cover? (close.map (·.location))))) t
        (fun x s' => x.shape = .ret (es.map Exp.shape) {} ∧ s'.terms = rest) E := by
    intro es t hs ht
    have shape : ∀ place, (Stat.ret es place).shape = .ret (es.map Exp.shape) {} := fun _ => by
      rw [Stat.shape, Exp.shapes_eq_map]
    rcases ht with ht | ht
    · exact hs.accept_none ht semicolon (.pure ⟨shape _, ht⟩)
    · exact hs.accept_at ht fun ht₁ => .pure ⟨shape _, ht₁⟩
  have values : ∀ {ts r es}, s.terms = .fixed .kwReturn :: ts → Maybe d.exps ts es r →
      (∀ {rank}, Clear rank r) ∧ look r ≠ .comma →
      (look r).isBlockEnd = true ∨ look r = .semicolon →
      r = rest ∨ r = .fixed .semicolon :: rest →
      Arrives (returnStat deeper) s Stat.shape (.ret es {}) rest E := by
    intro ts r es ht hes after stop eq
    refine hs.advance_at ht fun _ ht₁ => ?_
    simp only [ensures_current]
    have hs₁ := hs.advanced
    cases hes with
    | none =>
      rw [if_pos (by rw [hs₁.kind_eq ht₁ rfl]; exact stop)]
      exact close hs₁ (ht₁ ▸ eq)
    | some hes =>
      obtain ⟨block, semi, -⟩ := Kind.not_closes_of_startsExp (Level.exps_starts h.regular hes)
      rw [if_neg (by rw [hs₁.kind_eq ht₁ rfl, block]; exact not_or.2 ⟨by decide, semi⟩)]
      refine hs₁.bind (arrives_expList h hs₁ ht₁ hes after.1 after.2) ?_
      rintro es s₂ hs₂ ⟨rfl, ht₂⟩
      exact close hs₂ (ht₂ ▸ eq)
  cases hst with
  | plain hes => exact values ht hes ⟨stop, comma⟩ (.inl ends) (.inl rfl)
  | ended hes => exact values ht hes ⟨clear rfl rfl, by simp [look]⟩ (.inr rfl) (.inr rfl)

theorem arrives_statements {ss : List Stat} (hss : Stats d ts ss rest)
    (ends : (look rest).isBlockEnd = true) (hs : s.Strict) (ht : s.terms = ts)
    (before : List Stat) :
    Arrives (statements deeper before) s (List.map Stat.shape) (before.map Stat.shape ++ ss) rest
      E := by
  have adv := advances_statementRound h.composed
  induction hss generalizing s before with
  | nil =>
    refine .loop_step adv hs.ends ?_
    unfold statementRound
    simp only [ensures_current, ensures_reports]
    rw [if_pos (by rw [hs.kind_eq ht rfl]; exact ends)]
    refine .pure ⟨?_, ht⟩
    rw [List.append_nil]
  | last hst =>
    refine .loop_step adv hs.ends ?_
    unfold statementRound
    simp only [ensures_current, ensures_reports]
    have hk : s.current.kind = .kwReturn := hs.kind_eq ht hst.starts
    rw [if_neg (by rw [hk]; decide), if_pos hk]
    refine hs.bind (arrives_returnStat h hs ht hst ends) ?_
    rintro st s₁ - ⟨rfl, ht₁⟩
    exact .pure ⟨List.map_append, ht₁⟩
  | cons hst more ih =>
    obtain ⟨block, ret⟩ := Kind.not_ends_of_startsStat hst.starts
    have hk := hs.kind_eq ht rfl
    refine .loop_step adv hs.ends ?_
    unfold statementRound
    simp only [ensures_current, ensures_reports]
    rw [if_neg (by rw [hk, block]; decide), if_neg (by rw [hk]; exact ret)]
    refine (arrives_statement h hs ht hst (more.loose ends)).bind ?_
    rintro st s₁ steps ⟨rfl, ht₁⟩
    obtain ⟨hs₁, same⟩ := hs.steps steps
    rw [ensures_reports, same, if_neg (Nat.lt_irrefl _)]
    refine .pure ?_
    have all := ih ends hs₁ ht₁ (before ++ st.toList)
    rw [List.map_append, List.append_assoc] at all
    cases st with
    | none => exact all
    | some st => exact all

theorem arrives_block {b : Block} (hs : s.Strict) (ht : s.terms = ts) (hb : Body d ts b rest)
    (ends : (look rest).isBlockEnd = true) :
    Arrives (block deeper) s Block.shape b rest E := by
  obtain ⟨hss⟩ := hb
  refine hs.bind (arrives_statements h hss ends hs ht []) ?_
  rintro stats s₁ - ⟨rfl, ht₁⟩
  refine shape_finish.imp ?_
  rintro b s₂ - ⟨eq, rfl⟩
  exact ⟨eq, ht₁⟩

/-- A text in the grammar is read to its end. -/
theorem arrives_rootBlock {b : Block} (hs : s.Strict) (hb : Body d s.terms b []) :
    Arrives (rootBlock deeper) s Block.shape b [] E := by
  obtain @⟨_, ss, _, hss⟩ := hb
  have all : Arrives (loop (chunkRound deeper) []) s (List.map Stat.shape) ss [] E := by
    refine .loop_step (advances_chunkRound h.composed) hs.ends ?_
    refine hs.bind (arrives_statements h hss rfl hs rfl []) ?_
    rintro stats s₁ hs₁ ⟨rfl, ht₁⟩
    have hk : s₁.current.kind = .eof := hs₁.kind_eq ht₁ rfl
    rw [ensures_at?, decide_eq_true hk]
    exact .pure ⟨rfl, ht₁⟩
  refine hs.bind all ?_
  rintro stats s₁ - ⟨rfl, ht₁⟩
  refine shape_finish.imp ?_
  rintro b s₂ - ⟨eq, rfl⟩
  exact ⟨eq, ht₁⟩

end Statement

/-- On every level, phrases of the level are read. Only with less levels left than the phrases may
nest can one be too deep. -/
theorem complete_nested (m : Nat) {n : Nat} (deep : m < n → ∀ s : State, s.Strict → E s.aborted) :
    (nested m).Complete (level n) E := by
  induction m generalizing n with
  | zero =>
    cases n with
    | zero => exact ⟨composed_nested 0, regular_level 0, fun _ _ _ no => no.elim,
        fun _ _ no => no.elim⟩
    | succ n =>
      exact ⟨composed_nested 0, regular_level (n + 1),
        fun _ hs _ _ _ => .tooDeep (deep (Nat.succ_pos n) _ hs),
        fun hs _ _ _ => .tooDeep (deep (Nat.succ_pos n) _ hs)⟩
  | succ m ih =>
    cases n with
    | zero => exact ⟨composed_nested (m + 1), regular_level 0, fun _ _ _ no => no.elim,
        fun _ _ no => no.elim⟩
    | succ n =>
      have inner := ih fun lt => deep (Nat.succ_lt_succ lt)
      exact ⟨composed_nested (m + 1), regular_level (n + 1), arrives_subexpression inner,
        arrives_block inner⟩

end LuaFront.Parse
