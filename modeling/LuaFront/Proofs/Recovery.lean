import LuaFront.Proofs.Forms

/-!
# What a tree has in spite of errors

However a reader goes on after an error, every hole that it leaves in the tree has an error of its
own at the same place, and every node keeps to its form.

* `Nested.Gathering`: what readers ensure of the names and nodes they answer.
* `Source.holes_program`: the holes of a tree can be matched with errors, no two with the same one.
* `Source.formed_program`: the nodes of a tree keep to their forms.
-/

namespace LuaFront.Parse

variable {r s s' : State}

/-- All expressions and blocks that are read one level further down are gathered. -/
structure Nested.Gathering (deeper : Nested) : Prop where
  composed : deeper.Composed
  exp : ∀ limit {s : State}, s.Ends →
    Ensures (deeper.exp limit) s (fun e s' => Gathered s s' [] [.exp e]) fun _ => True
  block : ∀ {s : State}, s.Ends →
    Ensures deeper.block s (fun b s' => Gathered s s' [] [.block b]) fun _ => True

namespace Nested.Gathering

variable {deeper : Nested} (h : deeper.Gathering)
include h

theorem fullExp (ends : s.Ends) :
    Ensures deeper.fullExp s (fun e s' => Gathered s s' [] [.exp e]) fun _ => True := h.exp 0 ends

theorem nonempty_expList (ends : s.Ends) :
    Ensures deeper.expList s (fun es s' => Gathered s s' [] (es.map .exp) ∧ es ≠ [])
      fun _ => True := by
  refine (gathers_commaList (h.composed.exp 0) (h.exp 0) ends).imp fun es s' _ ⟨g, ne⟩ => ?_
  exact ⟨by simpa [List.map_eq_flatMap] using g, ne⟩

theorem expList (ends : s.Ends) :
    Ensures deeper.expList s (fun es s' => Gathered s s' [] (es.map .exp)) fun _ => True :=
  (h.nonempty_expList ends).imp fun _ _ _ g => g.1

end Nested.Gathering

/-! ## Expressions -/

section Expression

variable {deeper : Nested} (h : deeper.Gathering)

theorem gathers_numeral {t : Token} (g : Gathered r s [] []) :
    Ensures (numeral t) s (fun e s' => Gathered r s' [] [.exp e]) fun _ => True := by
  unfold numeral
  split
  · exact .pure (g.plain rfl)
  · exact .pure (g.plain rfl)
  · exact g.take (gathers_report g.ends rfl rfl) fun _ s₁ g => .pure g

include h

theorem gathers_field (ends : s.Ends) :
    Ensures (field deeper) s (fun f s' => Gathered s s' [] (Node.ofField f)) fun _ => True := by
  unfold field
  refine (Gathered.start ends).skip (composed_accept _) fun bracket s₁ g => ?_
  cases bracket with
  | some bracket =>
    refine g.take (h.fullExp g.ends) fun key s₂ g => ?_
    refine g.skip (composed_expectEnd _ _ _) fun _ s₃ g => ?_
    refine g.skip (composed_expect _) fun _ s₄ g => ?_
    exact g.take (h.fullExp g.ends) fun value s₅ g => .pure g
  | none =>
    have rest : ∀ (named : Bool) {t}, Gathered s t [] [] → Ensures (if named = true then (do
        let name ← advance
        let _ ← advance
        return Field.keyed (.string name.text name.location) (← deeper.fullExp))
        else (do return Field.item (← deeper.fullExp))) t
        (fun f s' => Gathered s s' [] (Node.ofField f)) fun _ => True := by
      intro named t g
      split
      · refine g.skip .advance fun name s₂ g => ?_
        refine g.skip .advance fun _ s₃ g => ?_
        have g := g.addString name.text name.location
        exact g.take (h.fullExp g.ends) fun value s₄ g => .pure g
      · exact g.take (h.fullExp g.ends) fun value s₂ g => .pure g
    rw [ensures_at?]
    split
    · exact g.skip .peek fun k s₂ g => rest _ g
    · exact rest false g

theorem gathers_fields (ends : s.Ends) :
    Ensures (fields deeper) s (fun fs s' => Gathered s s' [] (fs.flatMap Node.ofField))
      fun _ => True := by
  refine .loop_inv (I := fun fs s' => Gathered s s' [] (fs.flatMap Node.ofField))
    (advances_fieldRound h.composed) ends (.start ends) fun fs s₁ _ g => ?_
  unfold fieldRound
  simp only [ensures_current]
  split
  · exact .pure g
  · refine g.take (gathers_field h g.ends) fun f s₂ g => ?_
    have g : Gathered s s₂ [] ((fs ++ [f]).flatMap Node.ofField) := by simpa using g
    simp only [ensures_current]
    split
    · exact g.skip .advance fun _ s₃ g => .pure g
    · exact .pure g

theorem gathers_table (ends : s.Ends) :
    Ensures (table deeper) s (fun e s' => Gathered s s' [] [.exp e]) fun _ => True := by
  unfold table
  refine (Gathered.start ends).skip .advance fun brace s₁ g => ?_
  refine g.take (gathers_fields h g.ends) fun fs s₂ g => ?_
  refine g.skip (composed_expectEnd _ _ _) fun close s₃ g => .pure ?_
  exact g.plain rfl

omit h in
theorem gathers_params (ends : s.Ends) :
    Ensures params s (fun ps s' => Gathered s s' ps.1 []) fun _ => True := by
  unfold params
  rw [ensures_at?]
  refine .ite (fun _ => .pure (.start ends)) fun _ => ?_
  refine .loop_inv (I := fun ps s' => Gathered s s' ps.1 []) advances_paramRound ends
    (.start ends) fun ps s₁ _ g => ?_
  unfold paramRound
  refine g.skip (composed_accept _) fun _ s₂ g => .ite (fun _ => .pure g) fun _ => ?_
  refine g.takeName fun name s₃ g => ?_
  exact g.skip (composed_accept _) fun _ s₄ g => .ite (fun _ => .pure g) fun _ => .pure g

/-- What is read of a function is its parameters and its body; whether it is a method is up to the
statement that declares it. -/
theorem gathers_functionBody {start : Location} {isMethod : Bool} (ends : s.Ends) :
    Ensures (functionBody deeper start isMethod) s (fun e s' => ∃ params isVararg body place,
      e = .function params isVararg isMethod body place ∧ Gathered s s' params [.block body])
      fun _ => True := by
  unfold functionBody
  refine (Gathered.start ends).skip (composed_expect _) fun paren s₁ g => ?_
  refine (gathers_params g.ends).bind fun ps s₂ _ g' => ?_
  have g : Gathered s s₂ ps.1 [] := g.append g'
  refine g.skip (composed_expectEnd _ _ _) fun _ s₃ g => ?_
  refine g.take (h.block g.ends) fun body s₄ g => ?_
  exact g.skip (composed_expectEnd _ _ _) fun close s₅ g => .pure ⟨_, _, _, _, rfl, g⟩

theorem gathers_function {start : Location} (ends : s.Ends) :
    Ensures (functionBody deeper start false) s (fun e s' => Gathered s s' [] [.exp e])
      fun _ => True := by
  refine (gathers_functionBody h ends).imp ?_
  rintro _ s' - ⟨params, isVararg, body, place, rfl, g⟩
  exact g.plain rfl

theorem gathers_arguments {before : Location} (ends : s.Ends) :
    Ensures (arguments deeper before) s (fun args s' => Gathered s s' [] (args.1.map .exp))
      fun _ => True := by
  unfold arguments
  rw [ensures_current]
  split
  · refine (Gathered.start ends).skip .advance fun paren s₁ g => ?_
    have rest : ∀ {args : List Exp} {s₂}, Gathered s s₂ [] (args.map .exp) → Ensures (do
        let close ← expectEnd .rightParen .leftParen paren.location
        pure (args, paren.location.cover close.location)) s₂
        (fun args s' => Gathered s s' [] (args.1.map .exp)) fun _ => True :=
      fun g => g.skip (composed_expectEnd _ _ _) fun close s₃ g => .pure g
    rw [ensures_at?]
    split
    · exact rest g
    · exact g.take (h.expList g.ends) fun args s₂ g => rest g
  · exact (gathers_table h ends).bind fun t s₁ _ g => .pure g
  · exact (Gathered.start ends).skip .advance fun t s₁ g => .pure (g.addString _ _)
  · simp only [ensures_found, ensures_current]
    exact (Gathered.start ends).skip (.report _ rfl) fun _ s₁ g => .pure g

theorem gathers_primary (ends : s.Ends) :
    Ensures (primary deeper) s (fun e s' => Gathered s s' [] [.exp e]) fun _ => True := by
  unfold primary
  rw [ensures_current]
  split
  · refine (Gathered.start ends).skip .advance fun t s₁ g => .pure ?_
    exact g.plain rfl
  · refine (Gathered.start ends).skip .advance fun paren s₁ g => ?_
    refine g.take (h.fullExp g.ends) fun inner s₂ g => ?_
    refine g.skip (composed_expectEnd _ _ _) fun close s₃ g => .pure ?_
    split
    · next keeps => exact g.node rfl rfl keeps trivial fun _ => trivial
    · exact g
  · refine .ite (fun illegal => ?_) fun _ => ?_
    · -- The error came up with the token, which is taken and pays for the hole.
      refine .ite (fun blockEnd => ?_) fun _ => ?_
      · rw [illegal] at blockEnd
        exact nomatch blockEnd
      · exact (gathers_illegal ends illegal).bind fun _ s₁ _ g => .pure g
    · refine (gathers_report ends rfl rfl).bind fun _ s₁ _ g => ?_
      exact .ite (fun _ => .pure g) fun _ => g.skip .advance fun _ s₂ g => .pure g

theorem gathers_suffix {e : Exp} (g : Gathered r s [] [.exp e]) :
    Ensures (suffix deeper e) s
      (Round.Post (fun e s' => Gathered r s' [] [.exp e]) fun e s' => Gathered r s' [] [.exp e])
      fun _ => True := by
  have call : ∀ {method : Option Exp} {before : Location} {t}, (∀ m ∈ method, m.isString) →
      Gathered r t [] (.exp e :: method.toList.map .exp) → Ensures (do
        let args ← arguments deeper before
        pure (Round.again (Exp.call e method args.1 (e.place.cover args.2)))) t
        (Round.Post (fun e s' => Gathered r s' [] [.exp e]) fun e s' => Gathered r s' [] [.exp e])
        fun _ => True := by
    intro method before t string g
    refine g.take (gathers_arguments h g.ends) fun args s₁ g => .pure ?_
    exact g.node rfl rfl string trivial fun _ => trivial
  unfold suffix
  rw [ensures_current]
  split
  · refine g.skip .advance fun _ s₁ g => ?_
    refine g.skip (composed_expectName _) fun name s₂ g => .pure ?_
    exact (g.addString name.text name.location).plain rfl
  · refine g.skip .advance fun bracket s₁ g => ?_
    refine g.take (h.fullExp g.ends) fun key s₂ g => ?_
    refine g.skip (composed_expectEnd _ _ _) fun close s₃ g => .pure ?_
    exact g.plain rfl
  · refine g.skip .advance fun _ s₁ g => ?_
    refine g.skip (composed_expectName _) fun name s₂ g => ?_
    refine call (fun m hm => ?_) (g.addString name.text name.location)
    obtain rfl := Option.some.inj hm
    rfl
  · exact call nofun g
  · exact call nofun g
  · exact call nofun g
  · exact .pure g

theorem gathers_suffixed (ends : s.Ends) :
    Ensures (suffixed deeper) s (fun e s' => Gathered s s' [] [.exp e]) fun _ => True := by
  refine (gathers_primary h ends).bind fun e s₁ _ g => ?_
  exact .loop_inv (I := fun e s' => Gathered s s' [] [.exp e]) (advances_suffix h.composed) g.ends g
    fun e s₂ _ g => gathers_suffix h g

theorem gathers_simple (ends : s.Ends) :
    Ensures (simple deeper) s (fun e s' => Gathered s s' [] [.exp e]) fun _ => True := by
  have start := Gathered.start ends
  unfold simple
  rw [ensures_current]
  split
  · exact start.skip .advance fun _ s₁ g => .pure (g.plain rfl)
  · exact start.skip .advance fun _ s₁ g => .pure (g.plain rfl)
  · exact start.skip .advance fun _ s₁ g => .pure (g.plain rfl)
  · exact start.skip .advance fun _ s₁ g => .pure (g.plain rfl)
  · exact start.skip .advance fun t s₁ g => gathers_numeral g
  · exact start.skip .advance fun _ s₁ g => .pure (g.addString _ _)
  · exact gathers_table h ends
  · exact start.skip .advance fun _ s₁ g =>
      (gathers_function h g.ends).imp fun e s₂ _ g' => g.addAll g'
  · exact gathers_suffixed h ends

theorem gathers_operand (ends : s.Ends) :
    Ensures (operand deeper) s (fun e s' => Gathered s s' [] [.exp e]) fun _ => True := by
  unfold operand
  rw [ensures_current]
  split
  · refine (Gathered.start ends).skip .advance fun t s₁ g => ?_
    refine g.take (h.exp _ g.ends) fun e s₂ g => .pure ?_
    exact g.plain rfl
  · exact gathers_simple h ends

theorem gathers_operation {limit : Nat} {lhs : Exp} (g : Gathered r s [] [.exp lhs]) :
    Ensures (operation deeper limit lhs) s
      (Round.Post (fun e s' => Gathered r s' [] [.exp e]) fun e s' => Gathered r s' [] [.exp e])
      fun _ => True := by
  unfold operation
  rw [ensures_current]
  split
  · split
    · exact .pure g
    · refine g.skip .advance fun _ s₁ g => ?_
      refine g.take (h.exp _ g.ends) fun rhs s₂ g => .pure ?_
      exact g.plain rfl
  · exact .pure g

theorem gathers_subexpression (limit : Nat) (ends : s.Ends) :
    Ensures (subexpression deeper limit) s (fun e s' => Gathered s s' [] [.exp e])
      fun _ => True := by
  refine (gathers_operand h ends).bind fun e s₁ _ g => ?_
  exact .loop_inv (I := fun e s' => Gathered s s' [] [.exp e])
    (advances_operation h.composed limit) g.ends g fun e s₂ _ g => gathers_operation h g

end Expression

/-! ## Statements -/

/-- A statement other than `return` is gathered. -/
def GathersStat (p : Parse Stat) (r s : State) : Prop :=
  Ensures p s (fun x s' => Gathered r s' [] [.stat x] ∧ x.isReturn = false) fun _ => True

/-- A statement other than `return` is gathered if there is one. -/
def GathersStat? (p : Parse (Option Stat)) (r s : State) : Prop :=
  Ensures p s (fun x s' => Gathered r s' [] (x.toList.map .stat) ∧ ∀ y ∈ x, y.isReturn = false)
    fun _ => True

theorem GathersStat.map_some {p : Parse Stat} (h : GathersStat p r s) :
    GathersStat? (some <$> p) r s :=
  .map (h.imp fun x s' _ ⟨g, other⟩ => ⟨g, fun y hy => by
    obtain rfl := Option.some.inj hy
    exact other⟩)

/-- An error that is reported is kept. -/
theorem entries_report {cause : Cause} {place : Location} (ordinary : cause.isMarker = false) :
    Ensures (report cause place) s (fun _ s' => s'.log.entries ≠ []) fun _ => True := by
  refine .of_bind_pure (.report_alive ordinary fun more => .pure ?_)
  have entries : (s.noting cause place).log.entries = s.log.entries ++ [⟨cause, place⟩] :=
    (ErrorLog.entries_report_of_more more).1
  rw [entries]
  exact List.append_ne_nil_of_right_ne_nil _ (List.cons_ne_nil _ _)

/-- Every target can be assigned to or is bad already, or an error says that it cannot. -/
theorem targets_checkTargets (targets : List Exp) :
    Ensures (targets.forM checkTarget) s
      (fun _ s' => s'.log.entries = [] → ∀ e ∈ targets, e.isAssignable || e.isBad)
      fun _ => True := by
  induction targets generalizing s with
  | nil => exact .pure fun _ => nofun
  | cons e targets ih =>
    have first : Ensures (checkTarget e) s
        (fun _ s' => s'.log.entries = [] → e.isAssignable || e.isBad) fun _ => True :=
      .ite (fun ok => .pure fun _ => ok) fun _ =>
        (entries_report rfl).imp fun _ _ _ ne none => absurd none ne
    refine first.bind fun _ s₁ _ ok => ih.imp fun _ s₂ steps rest none => ?_
    exact List.forall_mem_cons.2 ⟨ok (Steps.entries_eq_nil steps none), rest none⟩

section Statement

variable {deeper : Nested} (h : deeper.Gathering)

theorem gathers_gotoStat (ends : s.Ends) : GathersStat gotoStat s s := by
  refine (Gathered.start ends).skip .advance fun goto s₁ g => ?_
  refine g.takeName fun name s₂ g => .pure ⟨?_, rfl⟩
  exact g.plain rfl

theorem gathers_labelStat (ends : s.Ends) : GathersStat labelStat s s := by
  refine (Gathered.start ends).skip .advance fun opener s₁ g => ?_
  refine g.takeName fun name s₂ g => ?_
  refine g.skip (composed_expect _) fun close s₃ g => .pure ⟨?_, rfl⟩
  exact g.plain rfl

/-- The names of a generic loop. -/
theorem gathers_moreNames {first : Ident} (g : Gathered r s [first] []) :
    Ensures (moreNames first) s (fun names s' => Gathered r s' names [] ∧ names ≠ [])
      fun _ => True := by
  have one : Gathered r s ([first].flatMap fun i => [i]) ([first].flatMap fun _ => []) := g
  refine (gathers_further (by decide) (composed_expectName _) gathers_expectName one).imp ?_
  rintro names s' - ⟨g, more⟩
  exact ⟨by simpa using g, List.ne_nil_of_mem (more.subset List.mem_cons_self)⟩

/-- The field that a function declaration names is assigned to, and behind a colon it is a field. -/
theorem gathers_functionTarget {first : Ident} (ends : s.Ends) :
    Ensures (functionTarget first) s (fun target s' => Gathered s s' [] [.exp target.1] ∧
      target.1.isAssignable ∧ (target.2 → target.1.isNamedField)) fun _ => True := by
  have start : Gathered s s [] [.exp (.name first.text first.location)] :=
    (Gathered.start ends).plain rfl
  refine .loop_inv (I := fun target s' => Gathered s s' [] [.exp target.1] ∧
    target.1.isAssignable ∧ (target.2 → target.1.isNamedField)) advances_targetRound ends
    ⟨start, rfl, by simp⟩ fun target s₁ _ gathered => ?_
  obtain ⟨g, assignable, named⟩ := gathered
  unfold targetRound
  simp only [ensures_current]
  split
  · refine g.skip .advance fun _ s₂ g => ?_
    refine g.skip (composed_expectName _) fun name s₃ g => .pure ?_
    have field : Gathered s s₃ []
        [.exp (.index target.1 (nameKey name) (target.1.place.cover name.location))] :=
      (g.addString name.text name.location).plain rfl
    split
    · exact ⟨field, rfl, fun _ => rfl⟩
    · exact ⟨field, rfl, by simp⟩
  · exact .pure ⟨g, assignable, by simp⟩

/-- A local name is gathered without its attribute. -/
theorem gathers_localName (ends : s.Ends) :
    Ensures localName s (fun name s' => Gathered s s' [name.1.unmarked] []) fun _ => True := by
  unfold localName
  refine (Gathered.start ends).takeName fun name s₁ g => ?_
  refine g.skip (composed_accept _) fun opener s₂ g => ?_
  have unmarked : name.unmarked = name :=
    Ident.unmarked_eq_self (g.attribs name List.mem_cons_self)
  have g : Gathered s s₂ [name.unmarked] [] := unmarked.symm ▸ g
  cases opener with
  | some opener => exact g.skip (composed_attrib _) fun v s₃ g => .pure g
  | none => exact .pure g

include h

theorem gathers_scopeStat (ends : s.Ends) : GathersStat (scopeStat deeper) s s := by
  refine (Gathered.start ends).skip .advance fun t s₁ g => ?_
  refine g.take (h.block g.ends) fun body s₂ g => ?_
  refine g.skip (composed_expectEnd _ _ _) fun close s₃ g => .pure ⟨?_, rfl⟩
  exact g.plain rfl

theorem gathers_whileStat (ends : s.Ends) : GathersStat (whileStat deeper) s s := by
  refine (Gathered.start ends).skip .advance fun t s₁ g => ?_
  refine g.take (h.fullExp g.ends) fun condition s₂ g => ?_
  refine g.skip (composed_expect _) fun _ s₃ g => ?_
  refine g.take (h.block g.ends) fun body s₄ g => ?_
  refine g.skip (composed_expectEnd _ _ _) fun close s₅ g => .pure ⟨?_, rfl⟩
  exact g.plain rfl

theorem gathers_repeatStat (ends : s.Ends) : GathersStat (repeatStat deeper) s s := by
  refine (Gathered.start ends).skip .advance fun t s₁ g => ?_
  refine g.take (h.block g.ends) fun body s₂ g => ?_
  refine g.skip (composed_expectEnd _ _ _) fun _ s₃ g => ?_
  refine g.take (h.fullExp g.ends) fun condition s₄ g => .pure ⟨?_, rfl⟩
  exact g.plain rfl

theorem gathers_clause (ends : s.Ends) :
    Ensures (clause deeper) s (fun c s' => Gathered s s' [] (Node.ofClause c)) fun _ => True := by
  unfold clause
  refine (Gathered.start ends).take (h.fullExp ends) fun condition s₁ g => ?_
  refine g.skip (composed_expect _) fun _ s₂ g => ?_
  exact g.take (h.block g.ends) fun body s₃ g => .pure g

theorem gathers_elseifs {first : Clause} (g : Gathered r s [] (Node.ofClause first)) :
    Ensures (elseifs deeper first) s
      (fun cs s' => Gathered r s' [] (cs.flatMap Node.ofClause) ∧ cs ≠ []) fun _ => True := by
  have one : Gathered r s ([first].flatMap fun _ => []) ([first].flatMap Node.ofClause) := by
    simpa using g
  refine (gathers_further (by decide) (composed_clause h.composed) (gathers_clause h) one).imp ?_
  rintro cs s' - ⟨g, more⟩
  exact ⟨by simpa using g, List.ne_nil_of_mem (more.subset List.mem_cons_self)⟩

theorem gathers_branchStat (ends : s.Ends) : GathersStat (branchStat deeper) s s := by
  refine (Gathered.start ends).skip .advance fun t s₁ g => ?_
  refine g.take (gathers_clause h g.ends) fun first s₂ g => ?_
  refine (gathers_elseifs h g).bind fun clauses s₃ _ ⟨g, ne⟩ => ?_
  refine g.skip (composed_accept _) fun _ s₄ g => ?_
  have rest : ∀ {otherwise : Option Block} {s₅},
      Gathered s s₅ [] (clauses.flatMap Node.ofClause ++ otherwise.toList.map .block) →
      GathersStat (do
        let close ← expectEnd .kwEnd .kwIf t.location
        pure (Stat.branch clauses otherwise (t.location.cover close.location))) s s₅ := by
    intro otherwise s₅ g
    refine g.skip (composed_expectEnd _ _ _) fun close s₆ g => .pure ⟨?_, rfl⟩
    exact g.node rfl rfl ne trivial fun _ => trivial
  refine .ite (fun _ => ?_) fun _ => rest (by simpa using g)
  exact g.take (.map (h.block g.ends)) fun otherwise s₅ g => rest g

theorem gathers_numericForStat {opener : Location} {var : Ident} (g : Gathered r s [var] []) :
    GathersStat (numericForStat deeper opener var) r s := by
  refine g.take (h.fullExp g.ends) fun start s₁ g => ?_
  refine g.skip (composed_expect _) fun _ s₂ g => ?_
  refine g.take (h.fullExp g.ends) fun limit s₃ g => ?_
  refine g.skip (composed_accept _) fun _ s₄ g => ?_
  have rest : ∀ {step : Option Exp} {s₅},
      Gathered r s₅ [var] ([.exp start, .exp limit] ++ step.toList.map .exp) → GathersStat (do
        let _ ← expect .kwDo
        let body ← deeper.block
        let close ← expectEnd .kwEnd .kwFor opener
        pure (Stat.numericFor var start limit step body (opener.cover close.location))) r s₅ := by
    intro step s₅ g
    refine g.skip (composed_expect _) fun _ s₆ g => ?_
    refine g.take (h.block g.ends) fun body s₇ g => ?_
    refine g.skip (composed_expectEnd _ _ _) fun close s₈ g => .pure ⟨?_, rfl⟩
    exact g.plain rfl
  refine .ite (fun _ => ?_) fun _ => rest g
  exact g.take (.map (h.fullExp g.ends)) fun step s₅ g => rest g

theorem gathers_genericForStat {opener : Location} {first : Ident}
    (g : Gathered r s [first] []) : GathersStat (genericForStat deeper opener first) r s := by
  refine (gathers_moreNames g).bind fun names s₁ _ ⟨g, named⟩ => ?_
  refine g.skip (composed_expect _) fun _ s₂ g => ?_
  refine (h.nonempty_expList g.ends).bind fun exps s₃ _ ⟨g', ne⟩ => ?_
  have g : Gathered r s₃ names (exps.map .exp) := g.addAll g'
  refine g.skip (composed_expect _) fun _ s₄ g => ?_
  refine g.take (h.block g.ends) fun body s₅ g => ?_
  refine g.skip (composed_expectEnd _ _ _) fun close s₆ g => .pure ⟨?_, rfl⟩
  exact g.node rfl rfl ⟨named, ne⟩ trivial fun _ => trivial

theorem gathers_forStat (ends : s.Ends) : GathersStat (forStat deeper) s s := by
  refine (Gathered.start ends).skip .advance fun t s₁ g => ?_
  refine g.takeName fun first s₂ g => ?_
  refine g.skip (composed_accept _) fun _ s₃ g => .ite (fun _ => ?_) fun _ => ?_
  · exact gathers_numericForStat h g
  · exact gathers_genericForStat h g

theorem gathers_functionStat (ends : s.Ends) : GathersStat (functionStat deeper) s s := by
  refine (Gathered.start ends).skip .advance fun t s₁ g => ?_
  refine g.skip (composed_expectName _) fun first s₂ g => ?_
  refine (gathers_functionTarget g.ends).bind fun target s₃ _ ⟨g', assignable, named⟩ => ?_
  have g := g.addAll g'
  refine (gathers_functionBody h g.ends).bind ?_
  rintro _ s₄ - ⟨params, isVararg, body, place, rfl, g'⟩
  exact .pure ⟨g.declaration g' assignable named, rfl⟩

theorem gathers_localFunctionStat {opener : Location} (g : Gathered r s [] []) :
    GathersStat (localFunctionStat deeper opener) r s := by
  refine g.skip .advance fun t s₁ g => ?_
  refine g.takeName fun name s₂ g => ?_
  refine g.take (gathers_function h g.ends) fun value s₃ g => .pure ⟨?_, rfl⟩
  exact g.plain rfl

theorem gathers_localsStat {opener : Location} (g : Gathered r s [] []) :
    GathersStat (localsStat deeper opener) r s := by
  have names := gathers_commaList composed_localName gathers_localName g.ends
  refine names.bind fun names s₁ _ ⟨g', ne⟩ => ?_
  have g : Gathered r s₁ ((names.map (·.1)).map Ident.unmarked) [] := by
    rw [List.map_map, List.map_eq_flatMap]
    simpa using g.append g'
  have ne : names.map (·.1) ≠ [] := by simpa using ne
  refine g.skip (composed_accept _) fun _ s₂ g => .ite (fun _ => ?_) fun _ => ?_
  · exact g.take (h.expList g.ends) fun values s₃ g => .pure ⟨g.locals ne, rfl⟩
  · exact .pure ⟨g.locals ne, rfl⟩

theorem gathers_localStat (ends : s.Ends) : GathersStat (localStat deeper) s s := by
  refine (Gathered.start ends).skip .advance fun t s₁ g => ?_
  rw [ensures_at?]
  refine .ite (fun _ => ?_) fun _ => ?_
  · exact gathers_localFunctionStat h g
  · exact gathers_localsStat h g

theorem gathers_assignStat {first : Exp} (g : Gathered r s [] [.exp first]) :
    GathersStat (assignStat deeper first) r s := by
  have one : Gathered r s ([first].flatMap fun _ => []) ([first].flatMap fun e => [.exp e]) := g
  have targets := gathers_further (by decide : Kind.comma ≠ .eof) (composed_suffixed h.composed)
    (gathers_suffixed h) one
  refine targets.bind fun targets s₁ _ ⟨g, more⟩ => ?_
  have g : Gathered r s₁ [] (targets.map .exp) := by simpa [List.map_eq_flatMap] using g
  have ne : targets ≠ [] := List.ne_nil_of_mem (more.subset List.mem_cons_self)
  refine (targets_checkTargets targets).bind fun _ s₂ st₂ ok => ?_
  refine ((composed_expect _).ensures s₂).bind fun _ s₃ st₃ _ => ?_
  have g := g.widen (st₂.trans st₃)
  refine (h.nonempty_expList g.ends).bind fun values s₄ st₄ ⟨g', ne'⟩ => .pure ⟨?_, rfl⟩
  refine (g.addAll g').node rfl rfl ⟨ne, ne'⟩ trivial fun none => ?_
  exact ok (Steps.entries_eq_nil (st₃.trans st₄) none)

theorem gathers_expStat (ends : s.Ends) : GathersStat? (expStat deeper) s s := by
  refine (gathers_suffixed h ends).bind fun first s₁ _ g => ?_
  have assign := (gathers_assignStat h g).map_some
  simp only [ensures_current]
  refine .ite (fun _ => assign) fun _ => .ite (fun isCall => .pure ⟨?_, ?_⟩) fun _ =>
    .ite (fun _ => .pure ⟨g.drop, by simp⟩) fun _ => assign
  · exact g.node rfl rfl isCall trivial fun _ => trivial
  · rintro y ⟨⟩
    rfl

theorem gathers_returnStat (ends : s.Ends) :
    Ensures (returnStat deeper) s (fun x s' => Gathered s s' [] [.stat x]) fun _ => True := by
  refine (Gathered.start ends).skip .advance fun t s₁ g => ?_
  have rest : ∀ {values : List Exp} {s₂}, Gathered s s₂ [] (values.map .exp) → Ensures (do
      let place := t.location.coverAll (values.map Exp.place)
      let close ← accept .semicolon
      pure (Stat.ret values (place.cover? (close.map (·.location))))) s₂
      (fun x s' => Gathered s s' [] [.stat x]) fun _ => True := by
    intro values s₂ g
    refine g.skip (composed_accept _) fun close s₃ g => .pure ?_
    exact g.plain rfl
  simp only [ensures_current]
  refine .ite (fun _ => rest g) fun _ => ?_
  exact g.take (h.expList g.ends) fun values s₂ g => rest g

theorem gathers_statement (ends : s.Ends) : GathersStat? (statement deeper) s s := by
  have start := Gathered.start ends
  unfold GathersStat? statement
  rw [ensures_current]
  split
  · exact start.skip .advance fun _ s₁ g => .pure ⟨g, nofun⟩
  · exact start.skip .advance fun _ s₁ g => .pure ⟨g, nofun⟩
  · refine start.skip .advance fun t s₁ g => .pure ⟨?_, ?_⟩
    · exact g.plain rfl
    · rintro y ⟨⟩
      rfl
  · exact (gathers_labelStat ends).map_some
  · exact (gathers_gotoStat ends).map_some
  · exact (gathers_scopeStat h ends).map_some
  · exact (gathers_whileStat h ends).map_some
  · exact (gathers_repeatStat h ends).map_some
  · exact (gathers_branchStat h ends).map_some
  · exact (gathers_forStat h ends).map_some
  · exact (gathers_functionStat h ends).map_some
  · exact (gathers_localStat h ends).map_some
  · exact gathers_expStat h ends

/-! ## Blocks -/

/-- A `return` is the last statement that is read, if none was read before. -/
theorem gathers_statements {stats : List Stat} {c : Prop} (g : Gathered r s [] (stats.map .stat))
    (others : c → ∀ x ∈ stats, x.isReturn = false) :
    Ensures (statements deeper stats) s (fun stats s' => Gathered r s' [] (stats.map .stat) ∧
      (c → ∀ x ∈ stats.dropLast, x.isReturn = false)) fun _ => True := by
  refine .loop_inv (I := fun stats s' => Gathered r s' [] (stats.map .stat) ∧
    (c → ∀ x ∈ stats, x.isReturn = false)) (advances_statementRound h.composed) g.ends ⟨g, others⟩
    fun stats s₁ _ gathered => ?_
  obtain ⟨g, others⟩ := gathered
  unfold statementRound
  simp only [ensures_current, ensures_reports]
  refine .ite (fun _ => .pure ⟨g, fun hc x hx => ?_⟩) fun _ => .ite (fun _ => ?_) fun _ => ?_
  · exact others hc x (List.mem_of_mem_dropLast hx)
  · refine g.take (gathers_returnStat h g.ends) fun x s₂ g => .pure ⟨by simpa using g, ?_⟩
    rw [List.dropLast_concat]
    exact others
  · refine (gathers_statement h g.ends).bind fun x s₂ _ gathered => ?_
    obtain ⟨g', other⟩ := gathered
    have g : Gathered r s₂ [] ((stats ++ x.toList).map .stat) := by
      rw [List.map_append]
      exact g.addAll g'
    have others : c → ∀ y ∈ stats ++ x.toList, y.isReturn = false := by
      intro hc y hy
      rcases List.mem_append.1 hy with hy | hy
      · exact others hc y hy
      · exact other y (Option.mem_toList.1 hy)
    rw [ensures_reports]
    refine .ite (fun _ => ?_) fun _ => .pure ⟨g, others⟩
    exact g.skip composed_skipErrorLine fun _ s₃ g => .pure ⟨g, others⟩

theorem gathers_block (ends : s.Ends) :
    Ensures (block deeper) s (fun b s' => Gathered s s' [] [.block b]) fun _ => True := by
  have none : True → ∀ x ∈ ([] : List Stat), x.isReturn = false := fun _ => nofun
  refine (gathers_statements h (.start ends) none).bind fun stats s₁ _ ⟨g, last⟩ =>
    ensures_finish.imp ?_
  rintro b s₂ - ⟨rfl, rfl, -⟩
  exact g.node rfl rfl trivial (last trivial) fun _ => trivial

/-- At the top a `return` can be in front of what ends no block, but that is an error. -/
theorem gathers_rootBlock (ends : s.Ends) :
    Ensures (rootBlock deeper) s (fun b s' => Gathered s s' [] (b.stats.map .stat) ∧
      (s'.log.entries = [] → ∀ x ∈ b.stats.dropLast, x.isReturn = false)) fun _ => True := by
  have all : Ensures (loop (chunkRound deeper) []) s
      (fun stats s' => Gathered s s' [] (stats.map .stat) ∧
        (s'.log.entries = [] → ∀ x ∈ stats.dropLast, x.isReturn = false)) fun _ => True := by
    refine .loop_inv (I := fun stats s' => Gathered s s' [] (stats.map .stat) ∧
      (s'.log.entries = [] → ∀ x ∈ stats, x.isReturn = false)) (advances_chunkRound h.composed)
      ends ⟨.start ends, by simp⟩ fun stats s₁ _ gathered => ?_
    obtain ⟨g, others⟩ := gathered
    refine (gathers_statements h g others).bind fun stats s₂ st₂ gathered => ?_
    obtain ⟨g, last⟩ := gathered
    rw [ensures_at?]
    refine .ite (fun _ => .pure ⟨g, fun none => last (Steps.entries_eq_nil st₂ none)⟩) fun _ => ?_
    simp only [ensures_found, ensures_current]
    refine (entries_report rfl).bind fun _ s₃ st₃ ne => ?_
    refine (Composed.advance.ensures s₃).bind fun _ s₄ st₄ _ => .pure ?_
    exact ⟨g.widen (st₃.trans st₄), fun none => absurd (Steps.entries_eq_nil st₄ none) ne⟩
  refine all.bind fun stats s₁ _ gathered => ensures_finish.imp ?_
  rintro b s₂ - ⟨rfl, rfl, -⟩
  exact gathered

omit h in
theorem gathering_nested (n : Nat) : (nested n).Gathering := by
  induction n with
  | zero => exact ⟨composed_nested 0, fun _ _ _ => .tooDeep trivial, fun _ => .tooDeep trivial⟩
  | succ n ih =>
    exact ⟨composed_nested (n + 1), fun limit _ => gathers_subexpression ih limit, gathers_block ih⟩

end Statement

end LuaFront.Parse

/-! ## Whole programs -/

namespace LuaFront

open Parse

/-- What holds of all nodes below the statements of a tree holds of all entries but the top. -/
theorem Block.mem_entries_cases {b : Block} {P : Node → Prop}
    (all : ∀ x ∈ b.stats, (Node.stat x).All P) {e : Outline.Entry} (he : e ∈ b.outline.entries) :
    e.node = .block b ∧ e.parent? = none ∨ P e.node := by
  cases b with
  | mk stats place =>
    rw [Block.outline, Outline.entries, Outline.entriesFrom] at he
    rcases List.mem_cons.1 he with rfl | he
    · exact .inl ⟨rfl, rfl⟩
    · have below : (stats.map Node.stat).map Node.outline = Stat.outlines stats := by
        rw [Stat.outlines_eq_map, List.map_map]
        rfl
      refine .inr (Node.all_allEntriesFrom _ _ _ below (fun n hn => ?_) e he)
      obtain ⟨x, hx, rfl⟩ := List.mem_map.1 hn
      exact all x hx

namespace Source

/-- What was gathered when a tree is complete. -/
theorem gathered_program {s : Source} {m : Nat} {tree : Block}
    (h : (s.program m).tree = some tree) :
    (∀ k, tree.holes.count k ≤ ((s.program m).errors.filterMap SyntaxError.hole?).count k) ∧
      (∀ x ∈ tree.stats, (Node.stat x).All (Node.Shaped ((s.program m).errors = []))) ∧
      ((s.program m).errors = [] → (Node.block tree).ReturnsLast) := by
  obtain ⟨more, st, run, program⟩ := exists_run_of_tree h
  have ends := State.ends_ofSource s m
  obtain ⟨steps, g, last⟩ := (gathers_rootBlock (gathering_nested maxLevels) ends).of_ok run
  obtain ⟨-, eof⟩ := (eof_rootBlock (composed_nested maxLevels) ends).of_ok run
  have none : st.stream.upcoming = [] := g.ends.kind_eq_eof_iff.1 eof
  rw [program]
  refine ⟨fun k => ?_, fun x hx => g.shaped _ (List.mem_map_of_mem hx), last⟩
  have pays := g.pays k
  have start := State.dues_ofSource_le more k
  have funds : st.funds = st.log.entries.filterMap SyntaxError.hole? := by
    rw [State.funds, none, List.filterMap_nil, List.append_nil]
  rw [List.flatMap_nil, List.nil_append, ← Block.holes_eq, funds] at pays
  show tree.holes.count k ≤ (st.log.entries.filterMap SyntaxError.hole?).count k
  omega

/-- Without errors there are no holes. -/
theorem holes_eq_nil {s : Source} {m : Nat} {tree : Block} (h : (s.program m).tree = some tree)
    (none : (s.program m).errors = []) : tree.holes = [] := by
  refine List.eq_nil_iff_forall_not_mem.2 fun k hk => ?_
  have le := (gathered_program h).1 k
  rw [none] at le
  exact absurd (List.count_pos_iff.2 hk) (Nat.not_lt.2 le)

/-- Every hole of a tree has an error of its own at its place, and without errors no expression is
missing and every name is valid. -/
theorem holes_program (s : Source) (m : Nat) {tree : Block}
    (h : (s.program m).tree = some tree) :
    (∃ f : Fin tree.holes.length → Fin (s.program m).errors.length, Function.Injective f ∧
      ∀ i, ((s.program m).errors.get (f i)).TellsOf (tree.holes.get i)) ∧
    ((s.program m).errors = [] → ∀ e ∈ tree.outline.entries,
      (∀ place, e.node ≠ .exp (.bad place)) ∧ ∀ i ∈ e.node.idents, i.valid) := by
  constructor
  · obtain ⟨f, injective, partner⟩ := exists_injective_of_count_le (gathered_program h).1
    exact ⟨f, injective, fun i => SyntaxError.tellsOf_of_hole? (partner i)⟩
  · intro none e he
    have holes : e.node.holes = [] := List.flatMap_eq_nil_iff.1 (holes_eq_nil h none) e he
    exact ⟨Node.ne_bad holes, fun i => Node.valid_of_mem_idents holes⟩

/-- A hole for an illegal token, an unexpected symbol, a missing name and a malformed number. -/
def fourHoles : Source := ⟨"", ["x = $ + )".toList, "local = 0x".toList, "a.b( c d".toList]⟩

theorem holes_program_fourHoles :
    ∃ tree, (fourHoles.program 30).tree = some tree ∧
      tree.holes = [.exp ⟨⟨0, 4⟩, ⟨0, 5⟩⟩, .exp ⟨⟨0, 8⟩, ⟨0, 9⟩⟩, .name ⟨⟨1, 6⟩, ⟨1, 7⟩⟩,
        .exp ⟨⟨1, 8⟩, ⟨1, 10⟩⟩] ∧
      ∃ f : Fin tree.holes.length → Fin (fourHoles.program 30).errors.length,
        Function.Injective f ∧
          ∀ i, ((fourHoles.program 30).errors.get (f i)).TellsOf (tree.holes.get i) := by
  have holes : (fourHoles.program 30).tree.map Block.holes = some [.exp ⟨⟨0, 4⟩, ⟨0, 5⟩⟩,
      .exp ⟨⟨0, 8⟩, ⟨0, 9⟩⟩, .name ⟨⟨1, 6⟩, ⟨1, 7⟩⟩, .exp ⟨⟨1, 8⟩, ⟨1, 10⟩⟩] := by
    decide +kernel
  obtain ⟨tree, h, holes⟩ := Option.map_eq_some_iff.1 holes
  exact ⟨tree, h, holes, (holes_program fourHoles 30 h).1⟩

/-- The nodes of every tree keep to their forms, and a `return` is the last statement of every block
but the whole program. Without errors that is so of the whole program as well, and only names and
fields are assigned to. -/
theorem formed_program (s : Source) (m : Nat) {tree : Block}
    (h : (s.program m).tree = some tree) :
    (∀ e ∈ tree.outline.entries, e.node.Formed ∧ (e.parent? ≠ none → e.node.ReturnsLast)) ∧
    ((s.program m).errors = [] → ∀ e ∈ tree.outline.entries,
      e.node.ReturnsLast ∧ e.node.Targets fun t => t.isAssignable) := by
  obtain ⟨-, shaped, last⟩ := gathered_program h
  constructor
  · intro e he
    rcases Block.mem_entries_cases shaped he with ⟨top, root⟩ | node
    · refine ⟨?_, fun inner => absurd root inner⟩
      rw [top]
      refine ⟨trivial, nofun, fun x hx => ?_⟩
      obtain ⟨y, -, eq⟩ := List.mem_map.1 hx
      exact nomatch eq
    · exact ⟨node.formed, fun _ => node.returns⟩
  · intro none e he
    have whole : ∀ x ∈ tree.stats, (Node.stat x).allHoles = [] := fun x hx => by
      have holes := holes_eq_nil h none
      rw [Block.holes_eq] at holes
      exact List.flatMap_eq_nil_iff.1 holes _ (List.mem_map_of_mem hx)
    have all : ∀ x ∈ tree.stats, (Node.stat x).All fun n =>
        n.ReturnsLast ∧ n.Targets fun t => t.isAssignable := by
      intro x hx n below
      have node := shaped x hx n below
      refine ⟨node.returns, (node.targets none).assignable fun c hc => ?_⟩
      exact Node.all_holes_eq_nil (whole x hx) c (below.tail hc)
    rcases Block.mem_entries_cases all he with ⟨top, -⟩ | node
    · rw [top]
      exact ⟨last none, trivial⟩
    · exact node

/-- A method, and a `return` at the top in front of an `end` that ends nothing. -/
def strayEnd : Source :=
  ⟨"", ["function a:b() return c end".toList, "return d end".toList, "e = (f)()".toList]⟩

theorem formed_program_strayEnd :
    ∃ tree, (strayEnd.program 30).tree = some tree ∧
      tree.stats.map Stat.isReturn = [false, true, false] ∧
      tree.outline.entries.any (·.node.isMethod) ∧
      ∀ e ∈ tree.outline.entries, e.node.Formed ∧ (e.parent? ≠ none → e.node.ReturnsLast) := by
  have stats : (strayEnd.program 30).tree.map (fun tree => (tree.stats.map Stat.isReturn,
      tree.outline.entries.any (·.node.isMethod))) = some ([false, true, false], true) := by
    decide +kernel
  obtain ⟨tree, h, stats⟩ := Option.map_eq_some_iff.1 stats
  obtain ⟨returns, method⟩ := Prod.mk.inj stats
  exact ⟨tree, h, returns, method, (formed_program strayEnd 30 h).1⟩

end Source

end LuaFront
