import LuaFront.Proofs.Limit
import LuaFront.Proofs.Loops
import LuaFront.Proofs.Reports

/-!
# The errors of a program

All readers keep up what `State.Sound` says of the errors so far, whatever they are in front of. So
the errors of a program can be shown, and they come in the order of the text but for two kinds:
errors about what was taken already, and errors at a token that breaks off.

* `Source.labels_program`: every label of every error is a range of bytes of the text, and neither
  end of it is inside a character.
* `Source.precedes_program`: how the errors of a program follow one another.
-/

namespace LuaFront.Parse

variable {α : Type} {src : Source} {s : State}

/-- The answer is an expression at a place of the source. -/
def Places (src : Source) (p : Parse Exp) (s : State) : Prop :=
  Diagnoses src p s fun e s' => Behind src s' e.place

/-- Nothing is said of the answer. -/
def Keeps (src : Source) (p : Parse α) (s : State) : Prop := Diagnoses src p s fun _ _ => True

/-- The readers of one level further down keep the errors sound. -/
structure Nested.Diagnosing (src : Source) (deeper : Nested) : Prop where
  composed : deeper.Composed
  exp : ∀ limit {s : State}, s.Ready src → Places src (deeper.exp limit) s
  block : ∀ {s : State}, s.Sound src → Keeps src deeper.block s

/-! ## Lists -/

/-- What holds of every item as it is read holds of all items at the end. -/
theorem all_diagnosed_further {P : α → State → Prop}
    (later : ∀ {a s s'}, P a s → Steps s s' → s.Sound src → P a s') {separator : Kind}
    (hk : separator ≠ .eof) {item : Parse α} (composed : Composed item)
    (read : ∀ {s}, s.Sound src → Diagnoses src item s P) (hs : s.Sound src) {xs : List α}
    (h : ∀ x ∈ xs, P x s) :
    Diagnoses src (further separator item xs) s fun ys s' => ∀ y ∈ ys, P y s' := by
  refine .loop (I := fun ys s' => ∀ y ∈ ys, P y s') (advances_furtherRound hk composed) hs h
    fun ys s₁ hs₁ h => ?_
  refine .accept hs₁ fun t s₂ st₂ hs₂ _ => .ite (fun _ => ?_) fun _ => ?_
  · refine (read hs₂).bind fun x s₃ st₃ hs₃ hx => .pure hs₃ fun y hy => ?_
    rcases List.mem_append.1 hy with hy | hy
    · exact later (later (h y hy) st₂ hs₁) st₃ hs₂
    · exact List.mem_singleton.1 hy ▸ hx
  · exact .pure hs₂ fun y hy => later (h y hy) st₂ hs₁

theorem keeps_further {separator : Kind} (hk : separator ≠ .eof) {item : Parse α}
    (composed : Composed item) (read : ∀ {s}, s.Sound src → Keeps src item s) (hs : s.Sound src)
    (xs : List α) : Keeps src (further separator item xs) s :=
  (all_diagnosed_further (P := fun _ _ => True) (fun _ _ _ => trivial) hk composed read hs
    fun _ _ => trivial).imp fun _ _ _ _ => trivial

namespace Nested.Diagnosing

variable {deeper : Nested} (h : deeper.Diagnosing src)
include h

theorem fullExp (hs : s.Ready src) : Places src deeper.fullExp s := h.exp 0 hs

theorem expList (hs : s.Ready src) : Keeps src deeper.expList s := by
  have comma : Kind.comma ≠ .eof := nofun
  refine (h.fullExp hs).bind fun _ _ _ hs₁ _ => ?_
  exact keeps_further comma (h.composed.exp 0)
    (fun hs => (h.fullExp hs.ready).imp fun _ _ _ _ => trivial) hs₁ _

end Nested.Diagnosing

/-! ## Expressions -/

section Expression

variable {deeper : Nested} (h : deeper.Diagnosing src)

theorem places_numeral {t : Token} (ht : Behind src s t.location) (hs : s.Sound src) :
    Places src (numeral t) s := by
  unfold numeral
  split
  · exact .pure hs ht
  · exact .pure hs ht
  · refine (Diagnoses.report_late (Q := fun _ _ => True) hs rfl ht fun _ => trivial).bind
      fun _ s₁ st₁ hs₁ _ => .pure hs₁ ?_
    exact ht.later st₁ hs

include h

theorem keeps_field (hs : s.Sound src) : Keeps src (field deeper) s := by
  unfold field
  refine .accept hs fun bracket s₁ st₁ hs₁ hb => ?_
  cases bracket with
  | some bracket =>
    refine (h.fullExp hs₁.ready).bind fun key s₂ st₂ hs₂ _ => ?_
    refine .expectEnd hs₂ (hb bracket rfl).has fun _ s₃ _ hs₃ _ => ?_
    refine .expect hs₃ fun _ s₄ _ hs₄ _ => ?_
    exact (h.fullExp hs₄.ready).bind fun value s₅ _ hs₅ _ => .pure hs₅ trivial
  | none =>
    have rest : ∀ (named : Bool) {t : State}, t.Ready src → Keeps src (if named = true then (do
        let name ← advance
        let _ ← advance
        return Field.keyed (.string name.text name.location) (← deeper.fullExp))
        else (do return Field.item (← deeper.fullExp))) t := by
      intro named t ht
      refine .ite (fun _ => ?_) fun _ => ?_
      · refine .advance ht fun s₂ _ hs₂ _ => .advance hs₂.ready fun s₃ _ hs₃ _ => ?_
        exact (h.fullExp hs₃.ready).bind fun value s₄ _ hs₄ _ => .pure hs₄ trivial
      · exact (h.fullExp ht).bind fun value s₂ _ hs₂ _ => .pure hs₂ trivial
    -- Whether a name is a key is seen from the token behind it, whose error comes up now.
    rw [diagnoses_at?]
    refine .ite (fun ident => ?_) fun _ => rest false hs₁.ready
    exact .peek hs₁ (of_decide_eq_true ident) fun k s₂ hs₂ _ => rest _ hs₂

theorem keeps_fields (hs : s.Sound src) : Keeps src (fields deeper) s := by
  refine .loop (I := fun _ _ => True) (advances_fieldRound h.composed) hs trivial
    fun fs s₁ hs₁ _ => ?_
  unfold fieldRound
  rw [diagnoses_current]
  refine .ite (fun _ => .pure hs₁ trivial) fun _ => ?_
  refine (keeps_field h hs₁).bind fun f s₂ _ hs₂ _ => ?_
  rw [diagnoses_current]
  refine .ite (fun _ => ?_) fun _ => .pure hs₂ trivial
  exact .advance hs₂.ready fun s₃ _ hs₃ _ => .pure hs₃ trivial

theorem places_table (hs : s.Ready src) : Places src (table deeper) s := by
  unfold table
  refine .advance hs fun s₁ _ hs₁ brace => ?_
  refine (keeps_fields h hs₁).bind fun fs s₂ st₂ hs₂ _ => ?_
  refine .expectEnd hs₂ brace.has fun close s₃ st₃ hs₃ hclose => .pure hs₃ ?_
  exact (brace.later (st₂.trans st₃) hs₁).cover hclose.has

omit h in
theorem keeps_params (hs : s.Sound src) : Keeps src params s := by
  unfold params
  rw [Keeps, diagnoses_at?]
  refine .ite (fun _ => .pure hs trivial) fun _ => ?_
  refine .loop (I := fun _ _ => True) advances_paramRound hs trivial fun ps s₁ hs₁ _ => ?_
  unfold paramRound
  refine .accept hs₁ fun _ s₂ _ hs₂ _ => .ite (fun _ => .pure hs₂ trivial) fun _ => ?_
  refine .expectName hs₂ fun name s₃ _ hs₃ _ => .accept hs₃ fun _ s₄ _ hs₄ _ => ?_
  exact .ite (fun _ => .pure hs₄ trivial) fun _ => .pure hs₄ trivial

theorem places_functionBody {start : Location} (hstart : Behind src s start) (isMethod : Bool)
    (hs : s.Sound src) : Places src (functionBody deeper start isMethod) s := by
  unfold functionBody
  refine .expect hs fun paren s₁ st₁ hs₁ hparen => ?_
  refine (keeps_params hs₁).bind fun ps s₂ st₂ hs₂ _ => ?_
  refine .expectEnd hs₂ hparen.has fun _ s₃ st₃ hs₃ _ => ?_
  refine (h.block hs₃).bind fun body s₄ st₄ hs₄ _ => ?_
  refine .expectEnd hs₄ hstart.has fun close s₅ st₅ hs₅ hclose => .pure hs₅ ?_
  have steps : Steps s s₅ := (((st₁.trans st₂).trans st₃).trans st₄).trans st₅
  exact (hstart.later steps hs).cover hclose.has

theorem keeps_arguments {before : Location} (hb : src.Has before) (hs : s.Sound src) :
    Diagnoses src (arguments deeper before) s fun args _ => src.Has args.2 := by
  unfold arguments
  rw [diagnoses_current]
  split
  · refine .advance hs.ready fun s₁ _ hs₁ paren => ?_
    have rest : ∀ (args : List Exp) {t : State}, t.Sound src → Diagnoses src (do
        let close ← expectEnd .rightParen .leftParen s.current.location
        pure (args, s.current.location.cover close.location)) t
        fun args _ => src.Has args.2 := fun args t ht =>
      .expectEnd ht paren.has fun close s₂ _ hs₂ hclose =>
        .pure hs₂ (paren.has.cover hclose.has)
    rw [diagnoses_at?]
    refine .ite (fun _ => rest [] hs₁) fun _ => ?_
    exact (h.expList hs₁.ready).bind fun args s₂ _ hs₂ _ => rest args hs₂
  · exact (places_table h hs.ready).bind fun t s₁ _ hs₁ ht => .pure hs₁ ht.has
  · exact .advance hs.ready fun s₁ _ hs₁ ht => .pure hs₁ ht.has
  · simp only [diagnoses_found, diagnoses_current]
    exact .report hs rfl (by exact List.forall_mem_nil _) fun s₁ _ hs₁ _ _ => .pure hs₁ hb

theorem places_primary (hs : s.Ready src) : Places src (primary deeper) s := by
  unfold primary
  rw [Places, diagnoses_current]
  split
  · exact .advance hs fun s₁ _ hs₁ ht => .pure hs₁ ht
  · refine .advance hs fun s₁ _ hs₁ paren => ?_
    refine (h.fullExp hs₁.ready).bind fun inner s₂ st₂ hs₂ hinner => ?_
    refine .expectEnd hs₂ paren.has fun close s₃ st₃ hs₃ hclose => .pure hs₃ ?_
    split
    · exact (paren.later (st₂.trans st₃) hs₁).cover hclose.has
    · exact hinner.later st₃ hs₂
  · next other _ =>
    -- Nothing was looked at behind this token, since it is no name.
    have hs : s.Sound src := hs.sound other
    have rest : ∀ {t : State}, t.Sound src → t.current = s.current → Places src (do
        unless s.current.kind.isBlockEnd do let _ ← advance
        pure (Exp.bad s.current.location)) t := by
      intro t ht same
      refine .ite (fun _ => .pure ht (same ▸ ht.behind_current)) fun _ => ?_
      exact .advance ht.ready fun s₁ _ hs₁ place => .pure hs₁ (same ▸ place)
    refine .ite (fun _ => rest hs rfl) fun _ => ?_
    exact .report hs rfl (by exact nofun) fun s₁ _ hs₁ _ same => rest hs₁ same

theorem places_suffix {e : Exp} (he : Behind src s e.place) (hs : s.Sound src) :
    Diagnoses src (suffix deeper e) s
      (Round.Post (fun e s' => Behind src s' e.place) fun e s' => Behind src s' e.place) := by
  have call : ∀ (method : Option Exp) {before : Location} {t : State}, Steps s t → t.Sound src →
      src.Has before → Diagnoses src (do
        let args ← arguments deeper before
        pure (Round.again (Exp.call e method args.1 (e.place.cover args.2)))) t
        (Round.Post (fun e s' => Behind src s' e.place) fun e s' => Behind src s' e.place) := by
    intro method before t steps ht hb
    refine (keeps_arguments h hb ht).bind fun args s₁ st₁ hs₁ hargs => .pure hs₁ ?_
    exact (he.later (steps.trans st₁) hs).cover hargs
  unfold suffix
  rw [diagnoses_current]
  split
  · refine .advance hs.ready fun s₁ st₁ hs₁ _ => ?_
    refine .expectName hs₁ fun name s₂ st₂ hs₂ hname => .pure hs₂ ?_
    exact (he.later (st₁.trans st₂) hs).cover hname.has
  · refine .advance hs.ready fun s₁ st₁ hs₁ bracket => ?_
    refine (h.fullExp hs₁.ready).bind fun key s₂ st₂ hs₂ _ => ?_
    refine .expectEnd hs₂ bracket.has fun close s₃ st₃ hs₃ hclose => .pure hs₃ ?_
    exact (he.later ((st₁.trans st₂).trans st₃) hs).cover hclose.has
  · refine .advance hs.ready fun s₁ st₁ hs₁ _ => ?_
    refine .expectName hs₁ fun name s₂ st₂ hs₂ hname => ?_
    exact call (some (nameKey name)) (st₁.trans st₂) hs₂ hname.has
  · exact call none .refl hs hs.has_current
  · exact call none .refl hs hs.has_current
  · exact call none .refl hs hs.has_current
  · exact .pure hs he

theorem places_suffixed (hs : s.Ready src) : Places src (suffixed deeper) s := by
  refine (places_primary h hs).bind fun e s₁ _ hs₁ he => ?_
  exact .loop (I := fun e s' => Behind src s' e.place) (advances_suffix h.composed) hs₁ he
    fun e s₂ hs₂ he => places_suffix h he hs₂

theorem places_simple (hs : s.Ready src) : Places src (simple deeper) s := by
  unfold simple
  rw [Places, diagnoses_current]
  split
  · exact .advance hs fun s₁ _ hs₁ ht => .pure hs₁ ht
  · exact .advance hs fun s₁ _ hs₁ ht => .pure hs₁ ht
  · exact .advance hs fun s₁ _ hs₁ ht => .pure hs₁ ht
  · exact .advance hs fun s₁ _ hs₁ ht => .pure hs₁ ht
  · exact .advance hs fun s₁ _ hs₁ ht => places_numeral ht hs₁
  · exact .advance hs fun s₁ _ hs₁ ht => .pure hs₁ ht
  · exact places_table h hs
  · exact .advance hs fun s₁ _ hs₁ ht => places_functionBody h ht false hs₁
  · exact places_suffixed h hs

theorem places_operand (hs : s.Ready src) : Places src (operand deeper) s := by
  unfold operand
  rw [Places, diagnoses_current]
  split
  · refine .advance hs fun s₁ _ hs₁ ht => ?_
    refine (h.exp _ hs₁.ready).bind fun e s₂ st₂ hs₂ he => .pure hs₂ ?_
    exact (ht.later st₂ hs₁).cover he.has
  · exact places_simple h hs

theorem places_subexpression (limit : Nat) (hs : s.Ready src) :
    Places src (subexpression deeper limit) s := by
  refine (places_operand h hs).bind fun e s₁ _ hs₁ he => ?_
  refine .loop (I := fun e s' => Behind src s' e.place) (advances_operation h.composed limit) hs₁ he
    fun lhs s₂ hs₂ hl => ?_
  unfold operation
  rw [diagnoses_current]
  split
  · refine .ite (fun _ => .pure hs₂ hl) fun _ => .advance hs₂.ready fun s₃ st₃ hs₃ _ => ?_
    refine (h.exp _ hs₃.ready).bind fun rhs s₄ st₄ hs₄ hr => .pure hs₄ ?_
    exact (hl.later (st₃.trans st₄) hs₂).cover hr.has
  · exact .pure hs₂ hl

end Expression

/-! ## Statements -/

section Statement

variable {deeper : Nested} (h : deeper.Diagnosing src)

theorem keeps_gotoStat (hs : s.Sound src) : Keeps src gotoStat s := by
  refine .advance hs.ready fun s₁ _ hs₁ _ => ?_
  exact .expectName hs₁ fun name s₂ _ hs₂ _ => .pure hs₂ trivial

theorem keeps_labelStat (hs : s.Sound src) : Keeps src labelStat s := by
  refine .advance hs.ready fun s₁ _ hs₁ _ => ?_
  refine .expectName hs₁ fun name s₂ _ hs₂ _ => ?_
  exact .expect hs₂ fun _ s₃ _ hs₃ _ => .pure hs₃ trivial

theorem keeps_functionTarget (first : Ident) (hs : s.Sound src) :
    Keeps src (functionTarget first) s := by
  refine .loop (I := fun _ _ => True) advances_targetRound hs trivial fun target s₁ hs₁ _ => ?_
  unfold targetRound
  rw [diagnoses_current]
  refine .ite (fun _ => ?_) fun _ => .pure hs₁ trivial
  refine .advance hs₁.ready fun s₂ _ hs₂ _ => .expectName hs₂ fun name s₃ _ hs₃ _ => ?_
  refine .pure hs₃ ?_
  split <;> trivial

theorem keeps_attrib {opener : Location} (ho : src.Has opener) (hs : s.Sound src) :
    Keeps src (attrib opener) s := by
  unfold attrib
  refine .expectName hs fun name s₁ _ hs₁ hname => ?_
  have rest : ∀ {t : State}, t.Sound src → Keeps src (do
      let close ← expectEnd .greater .less opener
      pure (Attribute.ofName? name.text, close.location)) t := fun ht =>
    .expectEnd ht ho fun _ s₂ _ hs₂ _ => .pure hs₂ trivial
  refine .ite (fun _ => ?_) fun _ => rest hs₁
  exact (Diagnoses.report_late (Q := fun _ _ => True) hs₁ rfl hname fun _ => trivial).bind
    fun _ s₂ _ hs₂ _ => rest hs₂

theorem keeps_localName (hs : s.Sound src) : Keeps src localName s := by
  unfold localName
  refine .expectName hs fun name s₁ _ hs₁ _ => .accept hs₁ fun opener s₂ _ hs₂ ho => ?_
  cases opener with
  | some opener =>
    exact (keeps_attrib (ho opener rfl).has hs₂).bind fun _ s₃ _ hs₃ _ => .pure hs₃ trivial
  | none => exact .pure hs₂ trivial

theorem keeps_checkTargets {targets : List Exp} (hs : s.Sound src)
    (ht : ∀ e ∈ targets, Behind src s e.place) : Keeps src (targets.forM checkTarget) s := by
  induction targets generalizing s with
  | nil => exact .pure hs trivial
  | cons e targets ih =>
    have one : Keeps src (checkTarget e) s := by
      unfold checkTarget
      refine .ite (fun _ => .pure hs trivial) fun _ => ?_
      exact Diagnoses.report_late hs rfl (ht e List.mem_cons_self) fun _ => trivial
    refine one.bind fun _ s₁ st₁ hs₁ _ => ih hs₁ fun e he => ?_
    exact (ht e (List.mem_cons_of_mem _ he)).later st₁ hs

theorem keeps_skipErrorLine (hs : s.Sound src) : Keeps src skipErrorLine s := by
  unfold skipErrorLine
  simp only [Keeps, diagnoses_reported, diagnoses_previous]
  refine .ite (fun _ => .pure hs trivial) fun _ => ?_
  refine .loop (I := fun _ _ => True) (advances_skipRound _) hs trivial fun _ s₁ hs₁ _ => ?_
  unfold skipRound
  rw [diagnoses_current]
  refine .ite (fun _ => .pure hs₁ trivial) fun _ => ?_
  exact .advance hs₁.ready fun s₂ _ hs₂ _ => .pure hs₂ trivial

theorem keeps_finish (stats : List Stat) (hs : s.Sound src) : Keeps src (finish stats) s := by
  unfold finish
  split
  · exact .pure hs trivial
  · rw [Keeps, diagnoses_current]
    exact .pure hs trivial

include h

theorem keeps_scopeStat (hs : s.Sound src) : Keeps src (scopeStat deeper) s := by
  refine .advance hs.ready fun s₁ _ hs₁ ht => (h.block hs₁).bind fun body s₂ _ hs₂ _ => ?_
  exact .expectEnd hs₂ ht.has fun _ s₃ _ hs₃ _ => .pure hs₃ trivial

theorem keeps_whileStat (hs : s.Sound src) : Keeps src (whileStat deeper) s := by
  refine .advance hs.ready fun s₁ _ hs₁ ht => ?_
  refine (h.fullExp hs₁.ready).bind fun condition s₂ _ hs₂ _ => .expect hs₂ fun _ s₃ _ hs₃ _ => ?_
  refine (h.block hs₃).bind fun body s₄ _ hs₄ _ => ?_
  exact .expectEnd hs₄ ht.has fun _ s₅ _ hs₅ _ => .pure hs₅ trivial

theorem keeps_repeatStat (hs : s.Sound src) : Keeps src (repeatStat deeper) s := by
  refine .advance hs.ready fun s₁ _ hs₁ ht => (h.block hs₁).bind fun body s₂ _ hs₂ _ => ?_
  refine .expectEnd hs₂ ht.has fun _ s₃ _ hs₃ _ => ?_
  exact (h.fullExp hs₃.ready).bind fun condition s₄ _ hs₄ _ => .pure hs₄ trivial

theorem keeps_clause (hs : s.Sound src) : Keeps src (clause deeper) s := by
  refine (h.fullExp hs.ready).bind fun condition s₁ _ hs₁ _ => .expect hs₁ fun _ s₂ _ hs₂ _ => ?_
  exact (h.block hs₂).bind fun body s₃ _ hs₃ _ => .pure hs₃ trivial

theorem keeps_branchStat (hs : s.Sound src) : Keeps src (branchStat deeper) s := by
  refine .advance hs.ready fun s₁ _ hs₁ ht => (keeps_clause h hs₁).bind fun first s₂ _ hs₂ _ => ?_
  have clauses : Keeps src (elseifs deeper first) s₂ :=
    keeps_further (by exact nofun) (composed_clause h.composed) (keeps_clause h) hs₂ _
  refine clauses.bind fun clauses s₃ _ hs₃ _ => .accept hs₃ fun _ s₄ _ hs₄ _ => ?_
  have rest : ∀ (otherwise : Option Block) {t : State}, t.Sound src → Keeps src (do
      let close ← expectEnd .kwEnd .kwIf s.current.location
      pure (Stat.branch clauses otherwise (s.current.location.cover close.location))) t :=
    fun _ _ hs => .expectEnd hs ht.has fun _ _ _ hs' _ => .pure hs' trivial
  refine .ite (fun _ => ?_) fun _ => rest none hs₄
  have body : Keeps src (some <$> deeper.block) s₄ := .map (h.block hs₄)
  exact body.bind fun otherwise s₅ _ hs₅ _ => rest otherwise hs₅

theorem keeps_numericForStat {opener : Location} (ho : src.Has opener) (var : Ident)
    (hs : s.Sound src) : Keeps src (numericForStat deeper opener var) s := by
  refine (h.fullExp hs.ready).bind fun start s₁ _ hs₁ _ => .expect hs₁ fun _ s₂ _ hs₂ _ => ?_
  refine (h.fullExp hs₂.ready).bind fun limit s₃ _ hs₃ _ => .accept hs₃ fun _ s₄ _ hs₄ _ => ?_
  have rest : ∀ (step : Option Exp) {t : State}, t.Sound src → Keeps src (do
      let _ ← expect .kwDo
      let body ← deeper.block
      let close ← expectEnd .kwEnd .kwFor opener
      pure (Stat.numericFor var start limit step body (opener.cover close.location))) t := by
    intro step t ht
    refine .expect ht fun _ s₅ _ hs₅ _ => (h.block hs₅).bind fun body s₆ _ hs₆ _ => ?_
    exact .expectEnd hs₆ ho fun _ s₇ _ hs₇ _ => .pure hs₇ trivial
  refine .ite (fun _ => ?_) fun _ => rest none hs₄
  have step : Keeps src (some <$> deeper.fullExp) s₄ :=
    .map ((h.fullExp hs₄.ready).imp fun _ _ _ _ => trivial)
  exact step.bind fun step s₅ _ hs₅ _ => rest step hs₅

theorem keeps_genericForStat {opener : Location} (ho : src.Has opener) (first : Ident)
    (hs : s.Sound src) : Keeps src (genericForStat deeper opener first) s := by
  have names : Keeps src (moreNames first) s :=
    keeps_further (by exact nofun) (composed_expectName _)
      (fun hs => Diagnoses.of_bind_pure (.expectName hs fun _ _ _ hs' _ => .pure hs' trivial)) hs _
  refine names.bind fun names s₁ _ hs₁ _ => .expect hs₁ fun _ s₂ _ hs₂ _ => ?_
  refine (h.expList hs₂.ready).bind fun exps s₃ _ hs₃ _ => .expect hs₃ fun _ s₄ _ hs₄ _ => ?_
  refine (h.block hs₄).bind fun body s₅ _ hs₅ _ => ?_
  exact .expectEnd hs₅ ho fun _ s₆ _ hs₆ _ => .pure hs₆ trivial

theorem keeps_forStat (hs : s.Sound src) : Keeps src (forStat deeper) s := by
  refine .advance hs.ready fun s₁ _ hs₁ ht => .expectName hs₁ fun first s₂ _ hs₂ _ => ?_
  refine .accept hs₂ fun _ s₃ _ hs₃ _ => .ite (fun _ => ?_) fun _ => ?_
  · exact keeps_numericForStat h ht.has first hs₃
  · exact keeps_genericForStat h ht.has first hs₃

theorem keeps_functionStat (hs : s.Sound src) : Keeps src (functionStat deeper) s := by
  refine .advance hs.ready fun s₁ st₁ hs₁ ht => .expectName hs₁ fun first s₂ st₂ hs₂ _ => ?_
  refine (keeps_functionTarget first hs₂).bind fun target s₃ st₃ hs₃ _ => ?_
  have start := ht.later (st₂.trans st₃) hs₁
  exact (places_functionBody h start _ hs₃).bind fun value s₄ _ hs₄ _ => .pure hs₄ trivial

theorem keeps_localFunctionStat (opener : Location) (hs : s.Sound src) :
    Keeps src (localFunctionStat deeper opener) s := by
  refine .advance hs.ready fun s₁ _ hs₁ ht => .expectName hs₁ fun name s₂ st₂ hs₂ _ => ?_
  have start := ht.later st₂ hs₁
  exact (places_functionBody h start _ hs₂).bind fun value s₃ _ hs₃ _ => .pure hs₃ trivial

theorem keeps_localsStat (opener : Location) (hs : s.Sound src) :
    Keeps src (localsStat deeper opener) s := by
  have names : Keeps src (commaList localName) s :=
    (keeps_localName hs).bind fun _ _ _ hs₁ _ =>
      keeps_further (by exact nofun) composed_localName keeps_localName hs₁ _
  refine names.bind fun names s₁ _ hs₁ _ => .accept hs₁ fun _ s₂ _ hs₂ _ => ?_
  refine .ite (fun _ => ?_) fun _ => .pure hs₂ trivial
  exact (h.expList hs₂.ready).bind fun values s₃ _ hs₃ _ => .pure hs₃ trivial

theorem keeps_localStat (hs : s.Sound src) : Keeps src (localStat deeper) s := by
  refine .advance hs.ready fun s₁ _ hs₁ _ => ?_
  rw [diagnoses_at?]
  refine .ite (fun _ => ?_) fun _ => ?_
  · exact keeps_localFunctionStat h _ hs₁
  · exact keeps_localsStat h _ hs₁

theorem keeps_assignStat {first : Exp} (hf : Behind src s first.place) (hs : s.Sound src) :
    Keeps src (assignStat deeper first) s := by
  have one : ∀ e ∈ [first], Behind src s e.place := fun e he => List.mem_singleton.1 he ▸ hf
  have targets : Diagnoses src (moreTargets deeper first) s
      fun es s' => ∀ e ∈ es, Behind src s' e.place :=
    all_diagnosed_further (P := fun (e : Exp) s => Behind src s e.place) Behind.later
      (by exact nofun)
      (composed_suffixed h.composed) (fun hs => places_suffixed h hs.ready) hs one
  refine targets.bind fun targets s₁ _ hs₁ ht => ?_
  refine (keeps_checkTargets hs₁ ht).bind fun _ s₂ _ hs₂ _ => .expect hs₂ fun _ s₃ _ hs₃ _ => ?_
  exact (h.expList hs₃.ready).bind fun values s₄ _ hs₄ _ => .pure hs₄ trivial

theorem keeps_expStat (hs : s.Sound src) : Keeps src (expStat deeper) s := by
  refine (places_suffixed h hs.ready).bind fun first s₁ _ hs₁ hf => ?_
  rw [diagnoses_current]
  refine .ite (fun _ => .map (keeps_assignStat h hf hs₁)) fun _ => ?_
  refine .ite (fun _ => .pure hs₁ trivial) fun _ => .ite (fun _ => .pure hs₁ trivial) fun _ => ?_
  exact .map (keeps_assignStat h hf hs₁)

theorem keeps_returnStat (hs : s.Sound src) : Keeps src (returnStat deeper) s := by
  refine .advance hs.ready fun s₁ _ hs₁ _ => ?_
  rw [diagnoses_current]
  have rest : ∀ (values : List Exp) {t : State}, t.Sound src → Keeps src (do
      let place := s.current.location.coverAll (values.map Exp.place)
      let close ← accept .semicolon
      pure (Stat.ret values (place.cover? (close.map (·.location))))) t :=
    fun _ _ ht => .accept ht fun _ _ _ hs' _ => .pure hs' trivial
  refine .ite (fun _ => rest [] hs₁) fun _ => ?_
  exact (h.expList hs₁.ready).bind fun values s₂ _ hs₂ _ => rest values hs₂

theorem keeps_statement (hs : s.Sound src) : Keeps src (statement deeper) s := by
  unfold statement
  rw [Keeps, diagnoses_current]
  split
  · exact .advance hs.ready fun s₁ _ hs₁ _ => .pure hs₁ trivial
  · exact .advance hs.ready fun s₁ _ hs₁ _ => .pure hs₁ trivial
  · exact .advance hs.ready fun s₁ _ hs₁ _ => .pure hs₁ trivial
  · exact .map (keeps_labelStat hs)
  · exact .map (keeps_gotoStat hs)
  · exact .map (keeps_scopeStat h hs)
  · exact .map (keeps_whileStat h hs)
  · exact .map (keeps_repeatStat h hs)
  · exact .map (keeps_branchStat h hs)
  · exact .map (keeps_forStat h hs)
  · exact .map (keeps_functionStat h hs)
  · exact .map (keeps_localStat h hs)
  · exact keeps_expStat h hs

theorem keeps_statements (stats : List Stat) (hs : s.Sound src) :
    Keeps src (statements deeper stats) s := by
  refine .loop (I := fun _ _ => True) (advances_statementRound h.composed) hs trivial
    fun stats s₁ hs₁ _ => ?_
  unfold statementRound
  simp only [diagnoses_current, diagnoses_reports]
  refine .ite (fun _ => .pure hs₁ trivial) fun _ => .ite (fun _ => ?_) fun _ => ?_
  · exact (keeps_returnStat h hs₁).bind fun _ s₂ _ hs₂ _ => .pure hs₂ trivial
  · refine (keeps_statement h hs₁).bind fun _ s₂ _ hs₂ _ => ?_
    rw [diagnoses_reports]
    refine .ite (fun _ => ?_) fun _ => .pure hs₂ trivial
    exact (keeps_skipErrorLine hs₂).bind fun _ s₃ _ hs₃ _ => .pure hs₃ trivial

theorem keeps_block (hs : s.Sound src) : Keeps src (block deeper) s :=
  (keeps_statements h [] hs).bind fun _ _ _ hs₁ _ => keeps_finish _ hs₁

theorem keeps_rootBlock (hs : s.Sound src) : Keeps src (rootBlock deeper) s := by
  have all : Keeps src (loop (chunkRound deeper) []) s := by
    refine .loop (I := fun _ _ => True) (advances_chunkRound h.composed) hs trivial
      fun stats s₁ hs₁ _ => ?_
    refine (keeps_statements h stats hs₁).bind fun stats s₂ _ hs₂ _ => ?_
    rw [diagnoses_at?]
    refine .ite (fun _ => .pure hs₂ trivial) fun _ => ?_
    simp only [diagnoses_found, diagnoses_current]
    refine .report hs₂ rfl (by exact List.forall_mem_nil _) fun s₃ _ hs₃ _ _ => ?_
    exact .advance hs₃.ready fun s₄ _ hs₄ _ => .pure hs₄ trivial
  exact all.bind fun _ _ _ hs₁ _ => keeps_finish _ hs₁

omit h in
theorem diagnosing_nested (n : Nat) : (nested n).Diagnosing src := by
  induction n with
  | zero => exact ⟨composed_nested 0, fun _ _ hs => .tooDeep hs, fun hs => .tooDeep hs.ready⟩
  | succ n ih =>
    exact ⟨composed_nested (n + 1), fun limit _ hs => places_subexpression ih limit hs,
      keeps_block ih⟩

end Statement

end LuaFront.Parse

namespace LuaFront.Source

open Parse

/-- The errors of a program point at places of the source and follow one another. -/
theorem sound_parse {s : Source} (split : s.IsSplit) (limit : Nat) :
    (endState (s.parse limit)).log.Sound s := by
  have start := State.sound_ofSource split limit
  have read := keeps_rootBlock (diagnosing_nested maxLevels) start
  show (endState (Parse.chunk (nested maxLevels) (.ofSource s limit))).log.Sound s
  rw [run_chunk]
  split
  · exact start.log
  cases run : rootBlock (nested maxLevels) (.ofSource s limit) with
  | ok tree st => exact (read.of_ok run).2.1.log
  | error e st => exact (read.of_error run).2

/-- Every label of every error is a range of bytes of the text between two of its characters. -/
theorem labels_program (name : String) (bytes : List UInt8) (limit : Nat) {e : SyntaxError}
    (he : e ∈ ((ofBytes name bytes).program limit).errors) {l : SyntaxError.Label}
    (hl : l ∈ e.labels (ofBytes name bytes)) :
    let text := (ofBytes name bytes).text
    l.start ≤ l.stop ∧ l.stop ≤ Text.byteSize text ∧
      (∃ front, front <+: text ∧ l.start = Text.byteSize front) ∧
      ∃ front, front <+: text ∧ l.stop = Text.byteSize front := by
  have split := isSplit_ofBytes name bytes
  rw [errors_program] at he
  obtain ⟨place, has, start, stop⟩ := ((sound_parse split limit).shown e he).exists_place hl
  obtain ⟨le, hstart, front, hfront, size⟩ := has.offsets split
  rw [start, stop]
  refine ⟨le, ?_, hstart, front, hfront, size⟩
  obtain ⟨rest, whole⟩ := hfront
  rw [size, ← whole, Text.byteSize_append]
  exact Nat.le_add_right _ _

/-- The note at the opening parenthesis of a call whose arguments do not end. -/
theorem labels_program_unclosed :
    let s := ofBytes "a" "f(é".toUTF8.toList
    ∃ e ∈ (s.program 9).errors, ∃ l ∈ e.labels s, l.primary = false ∧ l.start ≤ l.stop ∧
      l.stop ≤ Text.byteSize s.text := by
  have noted : ∃ e ∈ ((ofBytes "a" "f(é".toUTF8.toList).program 9).errors,
      ∃ l ∈ e.labels (ofBytes "a" "f(é".toUTF8.toList), l.primary = false := by
    decide +kernel
  obtain ⟨e, he, l, hl, note⟩ := noted
  obtain ⟨ordered, inside, -⟩ := labels_program "a" "f(é".toUTF8.toList 9 he hl
  exact ⟨e, he, l, hl, note, ordered, inside⟩

/-- The errors of the text come in the order of their places, except for errors about what was taken
already, and for errors about a token behind the one that says where the token breaks off. -/
theorem precedes_program (name : String) (bytes : List UInt8) (limit : Nat) :
    (((ofBytes name bytes).program limit).errors.filter fun e => !e.cause.isMarker).Pairwise
      SyntaxError.Precedes := by
  rw [errors_program]
  exact (sound_parse (isSplit_ofBytes name bytes) limit).follow

/-- A malformed numeral is reported when the token behind it is known, and so behind the error of
that token. -/
theorem not_sorted_program :
    ¬ (((ofBytes "a" "x = 08x $".toUTF8.toList).program 30).errors.filter
      fun e => !e.cause.isMarker).Pairwise fun d e => d.location.start ≤ e.location.start := by
  decide +kernel

end LuaFront.Source
