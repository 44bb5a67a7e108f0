import LuaFront.Proofs.Acceptance
import LuaFront.Proofs.Lined

/-!
# Siblings stand in the order of the text

In the tree of a source that is read without errors, the children of every node stand in the order
of the text, each behind the end of the one before it. The only exception is a function declaration.

* `Nested.Lining`: what readers ensure of the nodes they answer.
* `Source.inOrder_program`: the children of every node of a tree.
-/

namespace LuaFront

namespace Parse

variable {r s s' : State} {ts : List Token}

/-- All expressions and blocks that are read one level further down are lined up. -/
structure Nested.Lining (ts : List Token) (deeper : Nested) : Prop where
  composed : deeper.Composed
  exp : ∀ limit {s : State}, s.Along ts →
    Ensures (deeper.exp limit) s (fun e s' => Lined ts s s' [] [.exp e]) fun _ => True
  block : ∀ {s : State}, s.Along ts →
    Ensures deeper.block s (fun b s' => Lined ts s s' [] [.block b]) fun _ => True

namespace Nested.Lining

variable {deeper : Nested} (h : deeper.Lining ts)
include h

theorem fullExp (hs : s.Along ts) :
    Ensures deeper.fullExp s (fun e s' => Lined ts s s' [] [.exp e]) fun _ => True := h.exp 0 hs

theorem expList (hs : s.Along ts) :
    Ensures deeper.expList s (fun es s' => Lined ts s s' [] (es.map .exp)) fun _ => True := by
  have list := lined_commaList (h.composed.exp 0) (h.exp 0) hs
  refine list.imp fun es s' _ g => ?_
  rw [List.map_eq_flatMap]
  exact g.moveTokens nofun

end Nested.Lining

/-! ## Expressions -/

section Expression

variable {deeper : Nested} (h : deeper.Lining ts)

theorem lined_numeral {t : Token} (g : Lined ts r s [t.location] []) :
    Ensures (numeral t) s (fun e s' => Lined ts r s' [] [.exp e]) fun _ => True := by
  unfold numeral
  split
  · exact .pure (g.leaf rfl)
  · exact .pure (g.leaf rfl)
  · exact g.along.report rfl trivial

include h

theorem lined_field (hs : s.Along ts) :
    Ensures (field deeper) s (fun f s' => Lined ts s s' [] (Node.ofField f)) fun _ => True := by
  unfold field
  refine (Lined.start hs).skip (composed_accept _) fun bracket s₁ g => ?_
  cases bracket with
  | some bracket =>
    refine g.take (h.fullExp g.along) fun key s₂ g => ?_
    refine g.skip (composed_expectEnd _ _ _) fun _ s₃ g => ?_
    refine g.skip (composed_expect _) fun _ s₄ g => ?_
    exact g.take (h.fullExp g.along) fun value s₅ g => .pure g
  | none =>
    have rest : ∀ (named : Bool) {t}, Lined ts s t [] [] → Ensures (if named = true then (do
        let name ← advance
        let _ ← advance
        return Field.keyed (.string name.text name.location) (← deeper.fullExp))
        else (do return Field.item (← deeper.fullExp))) t
        (fun f s' => Lined ts s s' [] (Node.ofField f)) fun _ => True := by
      intro named t g
      split
      · refine g.advance fun g => ?_
        have key : Lined ts s t.advanced [] [.exp (.string t.current.text t.current.location)] :=
          g.leaf rfl
        refine key.skip .advance fun _ s₃ g => ?_
        exact g.take (h.fullExp g.along) fun value s₄ g => .pure g
      · exact g.take (h.fullExp g.along) fun value s₂ g => .pure g
    rw [ensures_at?]
    split
    · exact g.skip .peek fun k s₂ g => rest _ g
    · exact rest false g

theorem lined_fields (hs : s.Along ts) :
    Ensures (fields deeper) s (fun fs s' => Lined ts s s' [] (fs.flatMap Node.ofField))
      fun _ => True := by
  refine .loop_inv (I := fun fs s' => Lined ts s s' [] (fs.flatMap Node.ofField))
    (advances_fieldRound h.composed) hs.ends (.start hs) fun fs s₁ _ g => ?_
  unfold fieldRound
  simp only [ensures_current]
  split
  · exact .pure g
  · refine g.take (lined_field h g.along) fun f s₂ g => ?_
    have g : Lined ts s s₂ [] ((fs ++ [f]).flatMap Node.ofField) := by simpa using g
    simp only [ensures_current]
    split
    · exact g.skip .advance fun _ s₃ g => .pure g
    · exact .pure g

theorem lined_table (hs : s.Along ts) :
    Ensures (table deeper) s (fun e s' => Lined ts s s' [] [.exp e]) fun _ => True := by
  unfold table
  refine (Lined.start hs).advance fun g => ?_
  refine g.take (lined_fields h g.along) fun fs s₂ g => ?_
  refine g.expectEnd fun g => .pure ?_
  exact g.parent ((g.tokens _ (by simp)).cover (g.tokens _ (by simp)))

/-- The body of a function is read in front of the word that ends it. -/
theorem lined_functionBody {start : Location} {isMethod : Bool} (hs : s.Along ts) :
    Ensures (functionBody deeper start isMethod) s (fun e s' => ∃ params isVararg body close,
      e = .function params isVararg isMethod body (start.cover close) ∧
      Lined ts s s' [close] [.block body]) fun _ => True := by
  unfold functionBody
  refine (Lined.start hs).skip (composed_expect _) fun paren s₁ g => ?_
  refine g.skip composed_params fun ps s₂ g => ?_
  refine g.skip (composed_expectEnd _ _ _) fun _ s₃ g => ?_
  refine g.take (h.block g.along) fun body s₄ g => ?_
  exact g.expectEnd fun g => .pure ⟨_, _, _, _, rfl, g⟩

theorem lined_function {start : Location} {ls : List Location} (g : Lined ts r s ls [])
    (mem : start ∈ ls) :
    Ensures (functionBody deeper start false) s (fun e s' => Lined ts r s' ls [.exp e])
      fun _ => True := by
  refine (lined_functionBody h g.along).imp ?_
  rintro _ s' - ⟨params, isVararg, body, close, rfl, g'⟩
  have all := g.append g'
  have before : ∀ l ∈ ls, Between r s' l := fun l hl => all.tokens l (List.mem_append_left _ hl)
  exact (all.parent ((before start mem).cover (all.tokens _ (by simp)))).moveTokens before

theorem lined_arguments {before : Location} (hs : s.Along ts) :
    Ensures (arguments deeper before) s
      (fun args s' => Lined ts s s' [args.2] (args.1.map .exp)) fun _ => True := by
  unfold arguments
  rw [ensures_current]
  split
  · refine (Lined.start hs).advance fun g => ?_
    have rest : ∀ {args : List Exp} {t}, Lined ts s t [s.current.location] (args.map .exp) →
        Ensures (do
          let close ← expectEnd .rightParen .leftParen s.current.location
          pure (args, s.current.location.cover close.location)) t
          (fun args s' => Lined ts s s' [args.2] (args.1.map .exp)) fun _ => True := by
      intro args t g
      refine g.expectEnd fun g => .pure (g.moveTokens (List.forall_mem_singleton.2 ?_))
      exact (g.tokens _ (by simp)).cover (g.tokens _ (by simp))
    rw [ensures_at?]
    split
    · exact rest g
    · exact g.take (h.expList g.along) fun args s₂ g => rest g
  · refine (lined_table h hs).bind fun t s₁ _ g => .pure ?_
    exact g.moveTokens (List.forall_mem_singleton.2 (g.within _ List.mem_cons_self))
  · refine (Lined.start hs).advance fun g => .pure ?_
    have place := g.tokens _ List.mem_cons_self
    have text := g.leaf (e := .string s.current.text s.current.location) rfl
    exact text.moveTokens (List.forall_mem_singleton.2 place)
  · simp only [ensures_found, ensures_current]
    exact hs.report rfl trivial

theorem lined_primary (hs : s.Along ts) :
    Ensures (primary deeper) s (fun e s' => Lined ts s s' [] [.exp e]) fun _ => True := by
  unfold primary
  rw [ensures_current]
  split
  · exact (Lined.start hs).advance fun g => .pure (g.leaf rfl)
  · refine (Lined.start hs).advance fun g => ?_
    refine g.take (h.fullExp g.along) fun inner s₂ g => ?_
    refine g.expectEnd fun g => .pure ?_
    split
    · exact g.parent (n := .exp _) ((g.tokens _ (by simp)).cover (g.tokens _ (by simp)))
    · exact g.moveTokens nofun
  · have bad := hs.kind_ne_illegal
    exact .ite (fun illegal => absurd illegal bad) fun _ => hs.report rfl trivial

theorem lined_suffix {e : Exp} (g : Lined ts r s [] [.exp e]) :
    Ensures (suffix deeper e) s
      (Round.Post (fun e s' => Lined ts r s' [] [.exp e]) fun e s' => Lined ts r s' [] [.exp e])
      fun _ => True := by
  have call : ∀ {method : Option Exp} {before : Location} {t},
      Lined ts r t [] (.exp e :: method.toList.map .exp) → Ensures (do
        let args ← arguments deeper before
        pure (Round.again (Exp.call e method args.1 (e.place.cover args.2)))) t
        (Round.Post (fun e s' => Lined ts r s' [] [.exp e]) fun e s' => Lined ts r s' [] [.exp e])
        fun _ => True := by
    intro method before t g
    refine (lined_arguments h g.along).bind fun args s₁ _ g' => .pure ?_
    have all := g.append g'
    exact all.parent (n := .exp (.call e method args.1 _))
      ((all.within (.exp e) (by simp)).cover (all.tokens _ (by simp)))
  unfold suffix
  rw [ensures_current]
  split
  · refine g.skip .advance fun _ s₁ g => g.expectName fun name s₂ g' => .pure ?_
    have all := g.addAll g'.key
    exact all.parent (n := .exp (.index e (nameKey name) _))
      ((all.within (.exp e) (by simp)).cover (all.within (.exp (nameKey name)) (by simp)))
  · refine g.skip .advance fun bracket s₁ g => ?_
    refine g.take (h.fullExp g.along) fun key s₂ g => ?_
    refine g.expectEnd fun g => .pure ?_
    exact g.parent (n := .exp (.index e key _))
      ((g.within (.exp e) (by simp)).cover (g.tokens _ (by simp)))
  · refine g.skip .advance fun _ s₁ g => g.expectName fun name s₂ g' => ?_
    exact call (g.addAll g'.key)
  · exact call g
  · exact call g
  · exact call g
  · exact .pure g

theorem lined_suffixed (hs : s.Along ts) :
    Ensures (suffixed deeper) s (fun e s' => Lined ts s s' [] [.exp e]) fun _ => True := by
  refine (lined_primary h hs).bind fun e s₁ _ g => ?_
  exact .loop_inv (I := fun e s' => Lined ts s s' [] [.exp e]) (advances_suffix h.composed)
    g.along.ends g fun e s₂ _ g => lined_suffix h g

theorem lined_simple (hs : s.Along ts) :
    Ensures (simple deeper) s (fun e s' => Lined ts s s' [] [.exp e]) fun _ => True := by
  have start := Lined.start hs
  unfold simple
  rw [ensures_current]
  split
  · exact start.advance fun g => .pure (g.leaf rfl)
  · exact start.advance fun g => .pure (g.leaf rfl)
  · exact start.advance fun g => .pure (g.leaf rfl)
  · exact start.advance fun g => .pure (g.leaf rfl)
  · exact start.advance fun g => lined_numeral g
  · exact start.advance fun g => .pure (g.leaf rfl)
  · exact lined_table h hs
  · exact start.advance fun g => (lined_function h g List.mem_cons_self).imp
      fun e s₂ _ g => g.moveTokens nofun
  · exact lined_suffixed h hs

theorem lined_operand (hs : s.Along ts) :
    Ensures (operand deeper) s (fun e s' => Lined ts s s' [] [.exp e]) fun _ => True := by
  unfold operand
  rw [ensures_current]
  split
  · refine (Lined.start hs).advance fun g => ?_
    refine g.take (h.exp _ g.along) fun e s₂ g => .pure ?_
    exact g.parent (n := .exp (.unary _ e _))
      ((g.tokens _ (by simp)).cover (g.within (.exp e) (by simp)))
  · exact lined_simple h hs

theorem lined_operation {limit : Nat} {lhs : Exp} (g : Lined ts r s [] [.exp lhs]) :
    Ensures (operation deeper limit lhs) s
      (Round.Post (fun e s' => Lined ts r s' [] [.exp e]) fun e s' => Lined ts r s' [] [.exp e])
      fun _ => True := by
  unfold operation
  rw [ensures_current]
  split
  · refine .ite (fun _ => .pure g) fun _ => ?_
    refine g.skip .advance fun _ s₁ g => ?_
    refine g.take (h.exp _ g.along) fun rhs s₂ g => .pure ?_
    exact g.parent (n := .exp (.binary _ lhs rhs _))
      ((g.within (.exp lhs) (by simp)).cover (g.within (.exp rhs) (by simp)))
  · exact .pure g

theorem lined_subexpression (limit : Nat) (hs : s.Along ts) :
    Ensures (subexpression deeper limit) s (fun e s' => Lined ts s s' [] [.exp e])
      fun _ => True := by
  refine (lined_operand h hs).bind fun e s₁ _ g => ?_
  exact .loop_inv (I := fun e s' => Lined ts s s' [] [.exp e]) (advances_operation h.composed limit)
    g.along.ends g fun e s₂ _ g => lined_operation h g

end Expression

/-! ## Statements -/

/-- A statement is lined up behind what was gathered before. -/
def LinesStat (ts : List Token) (p : Parse Stat) (r s : State) : Prop :=
  Ensures p s (fun x s' => Lined ts r s' [] [.stat x]) fun _ => True

/-- A statement is lined up if there is one. -/
def LinesStat? (ts : List Token) (p : Parse (Option Stat)) (s : State) : Prop :=
  Ensures p s (fun x s' => Lined ts s s' [] (x.toList.map .stat)) fun _ => True

theorem LinesStat.map_some {p : Parse Stat} (h : LinesStat ts p s s) :
    LinesStat? ts (some <$> p) s := .map h

section Statement

variable {deeper : Nested} (h : deeper.Lining ts)

theorem lined_gotoStat (hs : s.Along ts) : LinesStat ts gotoStat s s := by
  refine (Lined.start hs).advance fun g => g.expectName fun name s₂ g' => .pure ?_
  have all := g.addPlaces g'
  exact all.parent (n := .stat (.goto name _))
    ((all.tokens _ (by simp)).cover (all.tokens _ (by simp)))

theorem lined_labelStat (hs : s.Along ts) : LinesStat ts labelStat s s := by
  refine (Lined.start hs).advance fun g => ?_
  refine g.skip (composed_expectName _) fun name s₂ g => g.expect fun g => .pure ?_
  exact g.parent (n := .stat (.label name _))
    ((g.tokens _ (by simp)).cover (g.tokens _ (by simp)))

/-- The field that a function declaration names. -/
theorem lined_functionTarget {first : Ident} (g : Lined ts r s [first.location] []) :
    Ensures (functionTarget first) s (fun target s' => Lined ts r s' [] [.exp target.1])
      fun _ => True := by
  have name : Lined ts r s [] [.exp (.name first.text first.location)] := g.leaf rfl
  refine .loop_inv (I := fun target s' => Lined ts r s' [] [.exp target.1]) advances_targetRound
    g.along.ends name fun target s₁ _ g => ?_
  unfold targetRound
  simp only [ensures_current]
  refine .ite (fun _ => ?_) fun _ => .pure g
  refine g.skip .advance fun _ s₂ g => g.expectName fun name s₃ g' => .pure ?_
  have all := g.addAll g'.key
  have field := all.parent (n := .exp (.index target.1 (nameKey name) _))
    ((all.within (.exp target.1) (by simp)).cover (all.within (.exp (nameKey name)) (by simp)))
  split
  · exact field
  · exact field

/-- A local name with its attribute. -/
theorem lined_localName (hs : s.Along ts) :
    Ensures localName s (fun name s' => Lined ts s s' [name.2] []) fun _ => True := by
  unfold localName
  refine (Lined.start hs).expectName fun name s₁ g => ?_
  refine g.skip (composed_accept _) fun opener s₂ g => ?_
  cases opener with
  | none => exact .pure g
  | some opener =>
    have close : Ensures (attrib opener.location) s₂ (fun v s' => Lined ts s₂ s' [v.2] [])
        fun _ => True := by
      unfold attrib
      refine (Lined.start g.along).skip (composed_expectName _) fun word s₃ g => ?_
      refine .ite (fun _ => g.along.report rfl trivial) fun _ => ?_
      exact g.expectEnd fun g => .pure g
    refine close.bind fun v s₃ _ g' => .pure ?_
    have all := g.append g'
    refine all.moveTokens (List.forall_mem_singleton.2 ?_)
    exact (all.tokens _ (by simp)).cover (all.tokens _ (by simp))

include h

theorem lined_scopeStat (hs : s.Along ts) : LinesStat ts (scopeStat deeper) s s := by
  refine (Lined.start hs).advance fun g => ?_
  refine g.take (h.block g.along) fun body s₂ g => g.expectEnd fun g => .pure ?_
  exact g.parent (n := .stat (.scope body _))
    ((g.tokens _ (by simp)).cover (g.tokens _ (by simp)))

theorem lined_whileStat (hs : s.Along ts) : LinesStat ts (whileStat deeper) s s := by
  refine (Lined.start hs).advance fun g => ?_
  refine g.take (h.fullExp g.along) fun condition s₂ g => ?_
  refine g.skip (composed_expect _) fun _ s₃ g => ?_
  refine g.take (h.block g.along) fun body s₄ g => g.expectEnd fun g => .pure ?_
  exact g.parent (n := .stat (.whileLoop condition body _))
    ((g.tokens _ (by simp)).cover (g.tokens _ (by simp)))

theorem lined_repeatStat (hs : s.Along ts) : LinesStat ts (repeatStat deeper) s s := by
  refine (Lined.start hs).advance fun g => ?_
  refine g.take (h.block g.along) fun body s₂ g => ?_
  refine g.skip (composed_expectEnd _ _ _) fun _ s₃ g => ?_
  refine g.take (h.fullExp g.along) fun condition s₄ g => .pure ?_
  exact g.parent (n := .stat (.repeatLoop body condition _))
    ((g.tokens _ (by simp)).cover (g.within (.exp condition) (by simp)))

theorem lined_clause (hs : s.Along ts) :
    Ensures (clause deeper) s (fun c s' => Lined ts s s' [] (Node.ofClause c)) fun _ => True := by
  unfold clause
  refine (Lined.start hs).take (h.fullExp hs) fun condition s₁ g => ?_
  refine g.skip (composed_expect _) fun _ s₂ g => ?_
  exact g.take (h.block g.along) fun body s₃ g => .pure g

theorem lined_elseifs {first : Clause} (g : Lined ts r s [] (Node.ofClause first)) :
    Ensures (elseifs deeper first) s (fun cs s' => Lined ts r s' [] (cs.flatMap Node.ofClause))
      fun _ => True := by
  have one : Lined ts r s ([first].flatMap fun _ => []) ([first].flatMap Node.ofClause) := by
    simpa using g
  have all := lined_further (by decide : Kind.kwElseif ≠ .eof) (composed_clause h.composed)
    (lined_clause h) one
  exact all.imp fun cs s' _ g => g.moveTokens nofun

theorem lined_branchStat (hs : s.Along ts) : LinesStat ts (branchStat deeper) s s := by
  refine (Lined.start hs).advance fun g => ?_
  refine (lined_clause h g.along).bind fun first s₂ _ clause => ?_
  refine (lined_elseifs h clause).bind fun clauses s₃ _ g' => ?_
  have g := g.addAll g'
  refine g.skip (composed_accept _) fun _ s₄ g => ?_
  have rest : ∀ {otherwise : Option Block} {s₅}, Lined ts s s₅ [s.current.location]
      (clauses.flatMap Node.ofClause ++ otherwise.toList.map .block) → LinesStat ts (do
        let close ← expectEnd .kwEnd .kwIf s.current.location
        pure (Stat.branch clauses otherwise (s.current.location.cover close.location))) s s₅ := by
    intro otherwise s₅ g
    refine g.expectEnd fun g => .pure ?_
    exact g.parent (n := .stat (.branch clauses otherwise _))
      ((g.tokens _ (by simp)).cover (g.tokens _ (by simp)))
  refine .ite (fun _ => ?_) fun _ => rest (by simpa using g)
  exact g.take (.map (h.block g.along)) fun otherwise s₅ g => rest g

theorem lined_numericForStat {opener : Location} {var : Ident} (g : Lined ts r s [opener] []) :
    LinesStat ts (numericForStat deeper opener var) r s := by
  refine g.take (h.fullExp g.along) fun start s₁ g => ?_
  refine g.skip (composed_expect _) fun _ s₂ g => ?_
  refine g.take (h.fullExp g.along) fun limit s₃ g => ?_
  refine g.skip (composed_accept _) fun _ s₄ g => ?_
  have rest : ∀ {step : Option Exp} {s₅}, Lined ts r s₅ [opener]
      ([.exp start, .exp limit] ++ step.toList.map .exp) → LinesStat ts (do
        let _ ← expect .kwDo
        let body ← deeper.block
        let close ← expectEnd .kwEnd .kwFor opener
        pure (Stat.numericFor var start limit step body (opener.cover close.location))) r s₅ := by
    intro step s₅ g
    refine g.skip (composed_expect _) fun _ s₆ g => ?_
    refine g.take (h.block g.along) fun body s₇ g => g.expectEnd fun g => .pure ?_
    exact g.parent (n := .stat (.numericFor var start limit step body _))
      ((g.tokens _ (by simp)).cover (g.tokens _ (by simp)))
  refine .ite (fun _ => ?_) fun _ => rest g
  exact g.take (.map (h.fullExp g.along)) fun step s₅ g => rest g

theorem lined_genericForStat {opener : Location} {first : Ident} (g : Lined ts r s [opener] []) :
    LinesStat ts (genericForStat deeper opener first) r s := by
  refine g.skip (composed_moreNames first) fun names s₁ g => ?_
  refine g.skip (composed_expect _) fun _ s₂ g => ?_
  refine g.take (h.expList g.along) fun exps s₃ g => ?_
  refine g.skip (composed_expect _) fun _ s₄ g => ?_
  refine g.take (h.block g.along) fun body s₅ g => g.expectEnd fun g => .pure ?_
  exact g.parent (n := .stat (.genericFor names exps body _))
    ((g.tokens _ (by simp)).cover (g.tokens _ (by simp)))

theorem lined_forStat (hs : s.Along ts) : LinesStat ts (forStat deeper) s s := by
  refine (Lined.start hs).advance fun g => ?_
  refine g.skip (composed_expectName _) fun first s₂ g => ?_
  refine g.skip (composed_accept _) fun _ s₃ g => .ite (fun _ => ?_) fun _ => ?_
  · exact lined_numericForStat h g
  · exact lined_genericForStat h g

theorem lined_functionStat (hs : s.Along ts) (hk : s.current.kind = .kwFunction) :
    LinesStat ts (functionStat deeper) s s := by
  refine (Lined.start hs).advance fun g => g.expectName fun first s₂ g' => ?_
  refine (lined_functionTarget g').bind fun target s₃ _ g' => ?_
  have g := g.addAll g'
  refine (lined_functionBody h g.along).bind ?_
  rintro _ s₄ - ⟨params, isVararg, body, close, rfl, g'⟩
  exact .pure (g.declaration hk g')

theorem lined_localFunctionStat {opener : Location} (g : Lined ts r s [opener] []) :
    LinesStat ts (localFunctionStat deeper opener) r s := by
  refine g.advance fun g => ?_
  refine g.skip (composed_expectName _) fun name s₂ g => ?_
  refine (lined_function h g (by simp)).bind fun value s₃ _ g => .pure ?_
  exact g.parent (n := .stat (.localFunction name value _))
    ((g.tokens _ (by simp)).cover (g.within (.exp value) (by simp)))

theorem lined_localsStat {opener : Location} (g : Lined ts r s [opener] []) :
    LinesStat ts (localsStat deeper opener) r s := by
  have names := lined_commaList composed_localName lined_localName g.along
  refine names.bind fun names s₁ _ g' => ?_
  have g : Lined ts r s₁ (opener :: names.map (·.2)) [] := by
    simpa [List.map_eq_flatMap] using (g.append g').drop
  have answer : ∀ {values : List Exp} {s₂},
      Lined ts r s₂ (opener :: names.map (·.2)) (values.map .exp) →
      Lined ts r s₂ [] [.stat (.locals (names.map (·.1)) values
        (opener.coverAll (names.map (·.2) ++ values.map Exp.place)))] := by
    intro values s₂ g
    refine g.parent (n := .stat _) ((g.tokens opener List.mem_cons_self).coverAll fun l hl => ?_)
    rcases List.mem_append.1 hl with hl | hl
    · exact g.tokens l (List.mem_cons_of_mem _ hl)
    · obtain ⟨e, he, rfl⟩ := List.mem_map.1 hl
      exact g.within (.exp e) (List.mem_map_of_mem he)
  refine g.skip (composed_accept _) fun _ s₂ g => .ite (fun _ => ?_) fun _ => .pure (answer g)
  exact g.take (h.expList g.along) fun values s₃ g => .pure (answer g)

theorem lined_localStat (hs : s.Along ts) : LinesStat ts (localStat deeper) s s := by
  refine (Lined.start hs).advance fun g => ?_
  rw [ensures_at?]
  refine .ite (fun _ => ?_) fun _ => ?_
  · exact lined_localFunctionStat h g
  · exact lined_localsStat h g

theorem lined_assignStat {first : Exp} (g : Lined ts r s [] [.exp first]) :
    LinesStat ts (assignStat deeper first) r s := by
  have one : Lined ts r s ([first].flatMap fun _ => []) ([first].flatMap fun e => [.exp e]) := g
  have targets := lined_further (by decide : Kind.comma ≠ .eof) (composed_suffixed h.composed)
    (lined_suffixed h) one
  refine targets.bind fun targets s₁ st₁ g' => ?_
  rw [← List.map_eq_flatMap] at g'
  have place := (g.widen_between st₁).1 (g.within _ List.mem_cons_self)
  refine (g'.moveTokens (List.forall_mem_singleton.2 place)).skip (composed_checkTargets targets)
    fun _ s₂ g => ?_
  refine g.skip (composed_expect _) fun _ s₃ g => ?_
  refine g.take (h.expList g.along) fun values s₄ g => .pure ?_
  refine g.parent (n := .stat _) ((g.tokens _ List.mem_cons_self).coverAll fun l hl => ?_)
  obtain ⟨e, he, rfl⟩ := List.mem_map.1 hl
  refine g.within (.exp e) ?_
  rw [← List.map_append]
  exact List.mem_map_of_mem he

theorem lined_expStat (hs : s.Along ts) : LinesStat? ts (expStat deeper) s := by
  refine (lined_suffixed h hs).bind fun first s₁ _ g => ?_
  have assign : LinesStat ts (assignStat deeper first) s s₁ := lined_assignStat h g
  simp only [ensures_current]
  refine .ite (fun _ => .map assign) fun _ => .ite (fun _ => .pure ?_) fun _ =>
    .ite (fun _ => .pure g.drop) fun _ => .map assign
  exact g.parent (n := .stat (.call first _)) (g.within (.exp first) (by simp))

theorem lined_returnStat (hs : s.Along ts) : LinesStat ts (returnStat deeper) s s := by
  refine (Lined.start hs).advance fun g => ?_
  have rest : ∀ {values : List Exp} {s₂}, Lined ts s s₂ [s.current.location] (values.map .exp) →
      LinesStat ts (do
        let place := s.current.location.coverAll (values.map Exp.place)
        let close ← accept .semicolon
        pure (Stat.ret values (place.cover? (close.map (·.location))))) s s₂ := by
    intro values s₂ g
    have place : ∀ {t}, Lined ts s t [s.current.location] (values.map .exp) →
        Between s t (s.current.location.coverAll (values.map Exp.place)) := by
      intro t g
      refine (g.tokens _ List.mem_cons_self).coverAll fun l hl => ?_
      obtain ⟨e, he, rfl⟩ := List.mem_map.1 hl
      exact g.within (.exp e) (List.mem_map_of_mem he)
    refine g.along.accept (fun _ => .pure ?_) fun _ => .pure (g.parent (n := .stat _) (place g))
    have all := g.addPlaces (.token g.along)
    have before := place (g.widen g.along.step)
    exact all.parent (n := .stat _) (before.cover (all.tokens _ (by simp)))
  simp only [ensures_current]
  refine .ite (fun _ => rest g) fun _ => ?_
  exact g.take (h.expList g.along) fun values s₂ g => rest g

theorem lined_statement (hs : s.Along ts) : LinesStat? ts (statement deeper) s := by
  unfold LinesStat? statement
  have start := Lined.start hs
  rw [ensures_current]
  split
  · exact start.skip .advance fun _ s₁ g => .pure g
  · exact start.skip .advance fun _ s₁ g => .pure g
  · refine start.advance fun g => .pure ?_
    exact g.parent (n := .stat (.breakOut _)) (g.tokens _ List.mem_cons_self)
  · exact (lined_labelStat hs).map_some
  · exact (lined_gotoStat hs).map_some
  · exact (lined_scopeStat h hs).map_some
  · exact (lined_whileStat h hs).map_some
  · exact (lined_repeatStat h hs).map_some
  · exact (lined_branchStat h hs).map_some
  · exact (lined_forStat h hs).map_some
  · next hk => exact (lined_functionStat h hs hk).map_some
  · exact (lined_localStat h hs).map_some
  · exact lined_expStat h hs

/-! ## Blocks -/

theorem lined_statements {stats : List Stat} (g : Lined ts r s [] (stats.map .stat)) :
    Ensures (statements deeper stats) s (fun stats s' => Lined ts r s' [] (stats.map .stat))
      fun _ => True := by
  refine .loop_inv (I := fun stats s' => Lined ts r s' [] (stats.map .stat))
    (advances_statementRound h.composed) g.along.ends g fun stats s₁ _ g => ?_
  unfold statementRound
  simp only [ensures_current, ensures_reports]
  refine .ite (fun _ => .pure g) fun _ => .ite (fun _ => ?_) fun _ => ?_
  · refine g.take (lined_returnStat h g.along) fun x s₂ g => .pure ?_
    show Lined ts r s₂ [] ((stats ++ [x]).map .stat)
    simpa using g
  · refine g.take (lined_statement h g.along) fun x s₂ g => ?_
    have g : Lined ts r s₂ [] ((stats ++ x.toList).map .stat) := by simpa using g
    rw [ensures_reports]
    refine .ite (fun _ => ?_) fun _ => .pure g
    exact g.skip composed_skipErrorLine fun _ s₃ g => .pure g

omit h in
/-- A block goes over its statements, and one without any is empty where it ends. -/
theorem lined_finish {stats : List Stat} (g : Lined ts r s [] (stats.map .stat)) :
    Ensures (finish stats) s (fun b s' => Lined ts r s' [] [.block b]) fun _ => True := by
  refine ensures_finish.imp ?_
  rintro b s₁ - ⟨rfl, rfl, ends, empty⟩
  refine g.parent (n := .block b) ?_
  show Between r s₁ b.place
  cases hf : b.stats.head? with
  | none =>
    rw [empty (List.head?_eq_none_iff.1 hf)]
    exact .point (g.steps.start_le g.front.ordered)
  | some first =>
    have hl := List.getLast?_eq_some_getLast (List.ne_nil_of_mem (List.mem_of_head? hf))
    have stat : ∀ x ∈ b.stats, Between r s₁ x.place :=
      fun x hx => g.within (.stat x) (List.mem_map_of_mem hx)
    rw [ends first hf _ hl]
    exact (stat first (List.mem_of_head? hf)).cover (stat _ (List.mem_of_getLast? hl))

theorem lined_block (hs : s.Along ts) :
    Ensures (block deeper) s (fun b s' => Lined ts s s' [] [.block b]) fun _ => True :=
  (lined_statements h (.start hs)).bind fun _ _ _ g => lined_finish g

/-- With nothing to end, a token that ends a block is reported, and nothing is read behind it. -/
theorem lined_rootBlock (hs : s.Along ts) :
    Ensures (rootBlock deeper) s (fun b s' => Lined ts s s' [] [.block b]) fun _ => True := by
  have all : Ensures (loop (chunkRound deeper) []) s
      (fun stats s' => Lined ts s s' [] (stats.map .stat)) fun _ => True := by
    refine .loop_inv (I := fun stats s' => Lined ts s s' [] (stats.map .stat))
      (advances_chunkRound h.composed) hs.ends (.start hs) fun stats s₁ _ g => ?_
    refine (lined_statements h g).bind fun stats s₂ _ g => ?_
    rw [ensures_at?]
    refine .ite (fun _ => .pure g) fun _ => ?_
    simp only [ensures_found, ensures_current]
    exact g.along.report rfl trivial
  exact all.bind fun _ _ _ g => lined_finish g

omit h in
theorem lining_nested (n : Nat) : (nested n).Lining ts := by
  induction n with
  | zero => exact ⟨composed_nested 0, fun _ _ _ => .tooDeep trivial, fun _ => .tooDeep trivial⟩
  | succ n ih =>
    exact ⟨composed_nested (n + 1), fun limit _ => lined_subexpression ih limit, lined_block ih⟩

end Statement

end Parse

/-! ## Programs -/

namespace Source

open Parse

/-- In the tree of a source that is read without errors, the children of every node stand in the
order of the text, each behind the end of the one before it. The only exception is a function
declaration, which is an assignment: the function starts with the word `function`, and goes over
the field that it is assigned to. -/
theorem inOrder_program (name : String) (bytes : List UInt8) (m : Nat) {tree : Block}
    (h : ((ofBytes name bytes).program m).tree = some tree)
    (errors : ((ofBytes name bytes).program m).errors = []) :
    ∀ e ∈ tree.outline.entries, e.node.InOrder (ofBytes name bytes).tokens := by
  have clean := clean_of_program h errors
  have along : (State.ofSource (ofBytes name bytes) 0).Along (ofBytes name bytes).tokens := by
    refine ⟨⟨State.strict_ofSource _ clean, ?_⟩, ?_⟩
    · exact State.ordered_ofSource (isSplit_ofBytes name bytes) 0
    · exact State.pending_ofSource (ofBytes name bytes) 0 ▸ List.suffix_rfl
  -- Without errors, the run is the one in which none is wanted, under another limit.
  rw [← program_eq_of_errors_eq_nil _ (Nat.zero_le m) errors] at h
  obtain ⟨st, run, -⟩ := exists_parse_of_tree h
  rw [parse_eq_rootBlock clean] at run
  have lined := ((lined_rootBlock (lining_nested maxLevels) along).of_ok run).2
  have all := lined.below _ List.mem_cons_self
  exact fun e he => all.of_mem_entries he

theorem inOrder_program_function :
    ∃ tree, ((ofBytes "a" "function a.b() end f(x, (y))".toUTF8.toList).program 30).tree =
        some tree ∧
      ((ofBytes "a" "function a.b() end f(x, (y))".toUTF8.toList).program 30).errors = [] ∧
      ∀ e ∈ tree.outline.entries,
        e.node.InOrder (ofBytes "a" "function a.b() end f(x, (y))".toUTF8.toList).tokens := by
  have parsed :
      ((ofBytes "a" "function a.b() end f(x, (y))".toUTF8.toList).program 30).tree.isSome := by
    decide +kernel
  have errors :
      ((ofBytes "a" "function a.b() end f(x, (y))".toUTF8.toList).program 30).errors = [] := by
    decide +kernel
  obtain ⟨tree, h⟩ := Option.isSome_iff_exists.1 parsed
  exact ⟨tree, h, errors,
    inOrder_program "a" "function a.b() end f(x, (y))".toUTF8.toList 30 h errors⟩

end Source

end LuaFront
