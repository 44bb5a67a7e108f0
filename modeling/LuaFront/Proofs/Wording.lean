import LuaFront.Proofs.Acceptance
import LuaFront.Tree.Dump

/-!
# Only the words of a program count

A program without errors is read from the kinds and the texts of its tokens alone. Where the tokens
stand, what stands between them and how a string is written makes no difference to whether there are
errors, or to what the tree says.

* `Block.toSexp_shape`: the dump of a tree is the dump of its shape.
* `LexemeReader.clean_of_entries_all`: a source that is lexed without errors has none in its tokens.
* `Source.program_same_words`: two sources of the same words are both read without errors or both
  not, and their trees have the same dump.
-/

namespace LuaFront

/-! ## Dumps of shapes -/

@[simp] theorem Ident.bare_shape (n : Ident) : n.shape.bare = n.bare := rfl

@[simp] theorem Ident.toSexp_shape (n : Ident) : n.shape.toSexp = n.toSexp := rfl

mutual

@[simp] theorem Exp.toSexp_shape : ∀ e : Exp, e.shape.toSexp = e.toSexp
  | .nil _ | .boolean .. | .vararg _ | .integer .. | .float .. | .string .. | .name .. | .bad _ => rfl
  | .unary _ x _ => by simp [Exp.shape, Exp.toSexp, Exp.toSexp_shape x]
  | .binary _ x y _ => by simp [Exp.shape, Exp.toSexp, Exp.toSexp_shape x, Exp.toSexp_shape y]
  | .table fields _ => by simp [Exp.shape, Exp.toSexp, Field.toSexps_shapes fields]
  | .function _ _ _ body _ => by
    simp [Exp.shape, Exp.toSexp, Block.toSexp_shape body, Function.comp_def]
  | .parens x _ => by simp [Exp.shape, Exp.toSexp, Exp.toSexp_shape x]
  | .index x k _ => by simp [Exp.shape, Exp.toSexp, Exp.toSexp_shape x, Exp.toSexp_shape k]
  | .call f m args _ => by
    have same : (Exp.shape? m).isSome = m.isSome := by cases m <;> rfl
    simp [Exp.shape, Exp.toSexp, same, Exp.toSexp_shape f, Exp.toSexp?_shape? m,
      Exp.toSexps_shapes args]

theorem Exp.toSexps_shapes : ∀ es : List Exp, Exp.toSexps (Exp.shapes es) = Exp.toSexps es
  | [] => rfl
  | e :: es => by simp [Exp.shapes, Exp.toSexps, Exp.toSexp_shape e, Exp.toSexps_shapes es]

theorem Exp.toSexp?_shape? : ∀ e : Option Exp, Exp.toSexp? (Exp.shape? e) = Exp.toSexp? e
  | none => rfl
  | some e => by simp [Exp.shape?, Exp.toSexp?, Exp.toSexp_shape e]

theorem Field.toSexps_shapes : ∀ fs : List Field,
    Field.toSexps (Field.shapes fs) = Field.toSexps fs
  | [] => rfl
  | .item x :: fs => by
    simp [Field.shapes, Field.shape, Field.toSexps, Exp.toSexp_shape x, Field.toSexps_shapes fs]
  | .keyed k x :: fs => by
    simp [Field.shapes, Field.shape, Field.toSexps, Exp.toSexp_shape k, Exp.toSexp_shape x,
      Field.toSexps_shapes fs]

/-- The dump of a tree is the dump of its shape. -/
theorem Block.toSexp_shape : ∀ b : Block, b.shape.toSexp = b.toSexp
  | .mk stats _ => by simp [Block.shape, Block.toSexp, Stat.toSexps_shapes stats]

theorem Block.toElse_shape? : ∀ b : Option Block, Block.toElse (Block.shape? b) = Block.toElse b
  | none => rfl
  | some b => by simp [Block.shape?, Block.toElse, Block.toSexp_shape b]

theorem Stat.toSexp_shape : ∀ x : Stat, x.shape.toSexp = x.toSexp
  | .breakOut _ | .label .. | .goto .. => rfl
  | .scope body _ => by simp [Stat.shape, Stat.toSexp, Block.toSexp_shape body]
  | .whileLoop c body _ => by
    simp [Stat.shape, Stat.toSexp, Exp.toSexp_shape c, Block.toSexp_shape body]
  | .repeatLoop body c _ => by
    simp [Stat.shape, Stat.toSexp, Exp.toSexp_shape c, Block.toSexp_shape body]
  | .branch clauses otherwise _ => by
    simp [Stat.shape, Stat.toSexp, Clause.toSexps_shapes clauses, Block.toElse_shape? otherwise]
  | .numericFor _ start limit step body _ => by
    simp [Stat.shape, Stat.toSexp, Exp.toSexp_shape start, Exp.toSexp_shape limit,
      Exp.toSexp?_shape? step, Block.toSexp_shape body]
  | .genericFor _ exps body _ => by
    simp [Stat.shape, Stat.toSexp, Exp.toSexps_shapes exps, Block.toSexp_shape body,
      Function.comp_def]
  | .assign targets values _ => by
    simp [Stat.shape, Stat.toSexp, Exp.toSexps_shapes targets, Exp.toSexps_shapes values]
  | .locals _ values _ => by
    simp [Stat.shape, Stat.toSexp, Exp.toSexps_shapes values, Function.comp_def]
  | .localFunction _ f _ => by simp [Stat.shape, Stat.toSexp, Exp.toSexp_shape f]
  | .call c _ => by simp [Stat.shape, Stat.toSexp, Exp.toSexp_shape c]
  | .ret values _ => by simp [Stat.shape, Stat.toSexp, Exp.toSexps_shapes values]

theorem Stat.toSexps_shapes : ∀ xs : List Stat, Stat.toSexps (Stat.shapes xs) = Stat.toSexps xs
  | [] => rfl
  | x :: xs => by simp [Stat.shapes, Stat.toSexps, Stat.toSexp_shape x, Stat.toSexps_shapes xs]

theorem Clause.toSexps_shapes : ∀ cs : List Clause,
    Clause.toSexps (Clause.shapes cs) = Clause.toSexps cs
  | [] => rfl
  | .mk c body :: cs => by
    simp [Clause.shapes, Clause.shape, Clause.toSexps, Exp.toSexp_shape c,
      Block.toSexp_shape body, Clause.toSexps_shapes cs]

end

/-! ## Lexing without errors -/

theorem ErrorLog.entries_prefix_foldl (xs : List Lexeme) (log : ErrorLog) :
    log.entries <+: (xs.foldl (fun log x => log.report? x.fault) log).entries := by
  induction xs generalizing log with
  | nil => exact List.prefix_rfl
  | cons x xs ih => exact (log.entries_prefix_report? x.fault).trans (ih _)

/-- A log that is open takes in the first fault that there is. -/
theorem ErrorLog.faultless_of_foldl {xs : List Lexeme} {log : ErrorLog}
    (more : log.exhausted = false)
    (entries : (xs.foldl (fun log x => log.report? x.fault) log).entries = []) :
    ∀ x ∈ xs, x.fault = none := by
  induction xs generalizing log with
  | nil => exact nofun
  | cons x xs ih =>
    have kept : (log.report? x.fault).entries = [] :=
      List.prefix_nil.1 (entries ▸ entries_prefix_foldl xs _)
    have first : x.fault = none := by
      cases fault : x.fault with
      | none => rfl
      | some e =>
        rw [fault, report?_some, report, more, if_neg Bool.false_ne_true] at kept
        split at kept
        · exact absurd kept (List.append_ne_nil_of_right_ne_nil _ (List.cons_ne_nil e []))
        · exact absurd kept (List.append_ne_nil_of_right_ne_nil _ (List.cons_ne_nil _ []))
    intro y hy
    rcases List.mem_cons.1 hy with rfl | hy
    · exact first
    · rw [List.foldl_cons, first] at entries
      exact ih more entries y hy

/-- A source that is lexed without errors has none in its tokens. -/
theorem LexemeReader.clean_of_entries_all {s : Source} {limit : Nat}
    (h : (ofSource s limit).all.2.log.entries = []) : s.Clean := by
  rw [all_ofSource] at h
  exact ErrorLog.faultless_of_foldl rfl h

namespace Source

/-! ## Sources of the same words -/

/-- The terminals of a source are those of its words. -/
theorem terminals_eq_of_same {s s' : Source}
    (same : s.tokens.map (fun t => (t.kind, t.text)) = s'.tokens.map fun t => (t.kind, t.text)) :
    s.terminals = s'.terminals := by
  have read : ∀ ts : List Token, ts.map Token.terminal =
      (ts.map fun t => (t.kind, t.text)).map fun w => Token.terminal ⟨w.1, w.2, {}, true⟩ := by
    intro ts
    rw [List.map_map]
    rfl
  rw [terminals, read, same, ← read, terminals]

/-- What is read without errors is read under the limit of no errors. -/
theorem program_zero_of_isOk {s : Source} {m : Nat} (h : (s.program m).isOk) :
    s.program 0 = s.program m := by
  rw [Program.isOk, Bool.and_eq_true, List.isEmpty_iff] at h
  exact s.program_eq_of_errors_eq_nil (Nat.zero_le m) h.2

/-- From a source that is read without errors to another one of the same terminals. -/
theorem exists_tree_of_terminals {s s' : Source} {m : Nat} (m' : Nat) (clean : s.Clean)
    (clean' : s'.Clean) (same : s.terminals = s'.terminals) (h : (s.program m).isOk) :
    (s'.program m').isOk ∧ ∃ tree tree', (s.program m).tree = some tree ∧
      (s'.program m').tree = some tree' ∧ tree'.shape = tree.shape := by
  obtain ⟨tree, read⟩ := (isOk_program_iff clean m).1 h
  have derives := (derives_of_program clean read).1
  rw [same] at derives
  -- The grammar allows no more levels here than it does there, so levels are no obstacle.
  rcases program_of_derives clean' derives with ⟨tree', read', shape⟩ | ⟨lt, -⟩
  · have ok := (isOk_program_iff clean' m').2 ⟨tree', read'⟩
    rw [program_zero_of_isOk h] at read
    rw [program_zero_of_isOk ok] at read'
    exact ⟨ok, tree, tree', read, read', shape⟩
  · exact absurd lt (Nat.lt_irrefl _)

/-- Two sources that are lexed without errors to tokens of the same kinds and texts are both read
without errors or both not, under any limits. If they are, their trees have the same dump. -/
theorem program_same_words (s s' : Source) (m m' : Nat)
    (clean : (LexemeReader.ofSource s m).all.2.log.entries = [])
    (clean' : (LexemeReader.ofSource s' m').all.2.log.entries = [])
    (same : (LexemeReader.ofSource s m).all.1.map (fun t => (t.kind, t.text)) =
      (LexemeReader.ofSource s' m').all.1.map fun t => (t.kind, t.text)) :
    ((s.program m).isOk ↔ (s'.program m').isOk) ∧
      ((s.program m).isOk → ∃ tree tree', (s.program m).tree = some tree ∧
        (s'.program m').tree = some tree' ∧ tree.toSexp = tree'.toSexp) := by
  have clean := LexemeReader.clean_of_entries_all clean
  have clean' := LexemeReader.clean_of_entries_all clean'
  have words : s.tokens.map (fun t => (t.kind, t.text)) =
      s'.tokens.map fun t => (t.kind, t.text) := by
    rw [LexemeReader.all_ofSource, LexemeReader.all_ofSource] at same
    rw [tokens, tokens, List.map_dropLast, List.map_dropLast, same]
  have terminals := terminals_eq_of_same words
  refine ⟨⟨fun h => ?_, fun h => ?_⟩, fun h => ?_⟩
  · exact (exists_tree_of_terminals m' clean clean' terminals h).1
  · exact (exists_tree_of_terminals m clean' clean terminals.symm h).1
  · obtain ⟨-, tree, tree', read, read', shape⟩ :=
      exists_tree_of_terminals m' clean clean' terminals h
    refine ⟨tree, tree', read, read', ?_⟩
    rw [← tree.toSexp_shape, ← shape, tree'.toSexp_shape]

/-- An escaped line break and a line break in brackets make one text, and comments make none. -/
theorem program_same_words_call :
    let s := ofBytes "a" "f \"\\\n\"".toUTF8.toList
    let s' := ofBytes "b" "f--[[\n]]--\n[[\n]]".toUTF8.toList
    (LexemeReader.ofSource s 30).all.2.log.entries = [] ∧
      (LexemeReader.ofSource s' 0).all.2.log.entries = [] ∧
      (LexemeReader.ofSource s 30).all.1.map (fun t => (t.kind, t.text)) =
        (LexemeReader.ofSource s' 0).all.1.map (fun t => (t.kind, t.text)) ∧
      ((s.program 30).isOk ↔ (s'.program 0).isOk) ∧
      ∃ tree tree', (s.program 30).tree = some tree ∧ (s'.program 0).tree = some tree' ∧
        tree.toSexp = tree'.toSexp := by
  intro s s'
  have clean : (LexemeReader.ofSource s 30).all.2.log.entries = [] := by decide +kernel
  have clean' : (LexemeReader.ofSource s' 0).all.2.log.entries = [] := by decide +kernel
  have same : (LexemeReader.ofSource s 30).all.1.map (fun t => (t.kind, t.text)) =
      (LexemeReader.ofSource s' 0).all.1.map (fun t => (t.kind, t.text)) := by decide +kernel
  have ok : (s.program 30).isOk = true := by decide +kernel
  obtain ⟨iff, dumps⟩ := program_same_words s s' 30 0 clean clean' same
  exact ⟨clean, clean', same, iff, dumps ok⟩

end Source

end LuaFront
