import LuaFront.Proofs.Grammar

/-!
# How phrases start and end

What a reader needs to know of a phrase before it reads it: which tokens it starts with, and which
tokens behind it would be taken for a part of it.

* `regular_level`: how expressions start on every level.
* `Statement.starts`, `Return.starts`: how statements start, and with this, what can stand behind
  the statement before (`Stats.loose`).
-/

namespace LuaFront

namespace Kind

/-- What an operand without operators starts with. -/
def startsSimple : Kind → Bool
  | .ident | .number | .string | .kwNil | .kwTrue | .kwFalse | .vararg | .leftBrace | .kwFunction
  | .leftParen => true
  | _ => false

/-- What an expression starts with. -/
def startsExp (k : Kind) : Bool := k.startsSimple || (UnaryOp.ofKind? k).isSome

/-- What a statement other than `return` starts with. -/
def startsStat : Kind → Bool
  | .semicolon | .kwBreak | .doubleColon | .kwGoto | .kwDo | .kwWhile | .kwRepeat | .kwIf | .kwFor
  | .kwFunction | .kwLocal | .ident | .leftParen => true
  | _ => false

/-- What goes on with a name or parenthesised expression, apart from an opening parenthesis. -/
def hangs : Kind → Bool
  | .dot | .leftBracket | .colon | .leftBrace | .string => true
  | _ => false

/-- What neither goes on with an expression nor with a list of them. -/
def loose (k : Kind) : Bool :=
  !k.hangs && (BinaryOp.ofKind? k).isNone && k != .comma && k != .singleEquals

theorem unary_of_startsSimple {k : Kind} (h : k.startsSimple = true) :
    UnaryOp.ofKind? k = none := by
  revert h
  cases k <;> decide

theorem startsExp_of_unary {k : Kind} {op : UnaryOp} (h : UnaryOp.ofKind? k = some op) :
    k.startsExp = true := by
  rw [startsExp, h, Option.isSome_some, Bool.or_true]

/-- An expression starts with no token that could stand where one may be missing. -/
theorem not_closes_of_startsExp {k : Kind} (h : k.startsExp = true) :
    k.isBlockEnd = false ∧ k ≠ .semicolon ∧ k ≠ .rightParen ∧ k ≠ .rightBrace ∧
      k ≠ .leftBracket := by
  revert h
  cases k <;> decide

theorem not_ends_of_startsStat {k : Kind} (h : k.startsStat = true) :
    k.isBlockEnd = false ∧ k ≠ .kwReturn := by
  revert h
  cases k <;> decide

theorem hangs_of_binary {k : Kind} {op : BinaryOp} (h : BinaryOp.ofKind? k = some op) :
    k.hangs = false := by
  revert h
  cases k <;> first | exact fun _ => rfl | exact nofun

theorem loose_of_startsStat {k : Kind} (h : k.startsStat = true) : k.loose = true := by
  revert h
  cases k <;> decide

theorem loose_of_isBlockEnd {k : Kind} (h : k.isBlockEnd = true) : k.loose = true := by
  revert h
  cases k <;> decide

end Kind

namespace Grammar

/-- What is known of the expressions of a level. -/
structure Level.Regular (d : Level) : Prop where
  isBad {rank ts e rest} : d.exp rank ts e rest → e.isBad = false
  starts {rank ts e rest} : d.exp rank ts e rest → (look ts).startsExp = true
  /-- A name in front of an equals sign is an expression alone. -/
  equals {rank n r e rest} : d.exp rank (.name n :: .fixed .singleEquals :: r) e rest →
    rest = .fixed .singleEquals :: r

variable {d : Level} {ts rest : List Terminal} {e : Exp}

theorem isBad_enclose (h : e.isBad = false) : (enclose e).isBad = false := by
  unfold enclose
  split
  · rfl
  · exact h

/-! ## Operands -/

namespace Prefixed

theorem starts (h : Prefixed d ts e rest) : look ts = .ident ∨ look ts = .leftParen := by
  induction h with
  | name => exact .inl rfl
  | parens => exact .inr rfl
  | field _ ih => exact ih
  | index _ _ ih => exact ih
  | call _ _ ih => exact ih
  | method _ _ ih => exact ih

theorem isBad (hd : d.Regular) (h : Prefixed d ts e rest) : e.isBad = false := by
  cases h with
  | parens he => exact isBad_enclose (hd.isBad he)
  | name => rfl
  | field _ => rfl
  | index _ _ => rfl
  | call _ _ => rfl
  | method _ _ => rfl

/-- Nothing hangs onto a name in front of an equals sign. -/
theorem equals (h : Prefixed d ts e rest) {n : String} {r : List Terminal}
    (eq : ts = .name n :: .fixed .singleEquals :: r) : rest = .fixed .singleEquals :: r := by
  induction h with
  | name => exact (List.cons.inj eq).2
  | parens => exact nomatch eq
  | field _ ih => exact nomatch ih eq
  | index _ _ ih => exact nomatch ih eq
  | call _ args ih =>
    rw [ih eq] at args
    cases args with
    | table table => exact nomatch table
  | method _ _ ih => exact nomatch ih eq

end Prefixed

theorem Simple.isBad (hd : d.Regular) (h : Simple d ts e rest) : e.isBad = false := by
  cases h with
  | complete h =>
    obtain ⟨h, -⟩ := h
    exact h.isBad hd
  | function h => cases h; rfl
  | table h => cases h; rfl
  | kwNil => rfl
  | kwTrue => rfl
  | kwFalse => rfl
  | integer _ => rfl
  | float _ => rfl
  | string => rfl
  | vararg => rfl

theorem Simple.starts (h : Simple d ts e rest) : (look ts).startsSimple = true := by
  cases h with
  | complete h =>
    obtain ⟨h, -⟩ := h
    rcases h.starts with eq | eq
    · rw [eq]; rfl
    · rw [eq]; rfl
  | table h => cases h; rfl
  | function _ => rfl
  | kwNil => rfl
  | kwTrue => rfl
  | kwFalse => rfl
  | integer _ => rfl
  | float _ => rfl
  | string => rfl
  | vararg => rfl

theorem Simple.equals {n : String} {r : List Terminal}
    (h : Simple d (.name n :: .fixed .singleEquals :: r) e rest) :
    rest = .fixed .singleEquals :: r := by
  cases h with
  | complete h =>
    obtain ⟨h, -⟩ := h
    exact h.equals rfl
  | table h => exact nomatch h

theorem Args.starts {args : List Exp} (h : Args d ts args rest) :
    look ts = .leftParen ∨ look ts = .leftBrace ∨ look ts = .string := by
  cases h with
  | exps _ => exact .inl rfl
  | table h => cases h; exact .inr (.inl rfl)
  | string => exact .inr (.inr rfl)

/-! ## Expressions -/

namespace Expression

variable {rank : Nat}

theorem starts (h : Expression d rank ts e rest) : (look ts).startsExp = true := by
  induction h with
  | simple h => rw [Kind.startsExp, h.starts, Bool.true_or]
  | unary hop _ _ => exact Kind.startsExp_of_unary hop
  | binary _ _ _ _ ih => exact ih

theorem isBad (hd : d.Regular) (h : Expression d rank ts e rest) : e.isBad = false := by
  cases h with
  | simple h => exact h.isBad hd
  | unary _ _ _ => rfl
  | binary _ _ _ _ => rfl

theorem equals (h : Expression d rank ts e rest) {n : String} {r : List Terminal}
    (eq : ts = .name n :: .fixed .singleEquals :: r) : rest = .fixed .singleEquals :: r := by
  induction h with
  | simple h =>
    subst eq
    exact h.equals
  | unary _ _ _ => exact nomatch eq
  | binary hop _ _ _ ih =>
    obtain ⟨k, -⟩ := List.cons.inj (ih eq)
    injection k with k
    subst k
    exact nomatch hop

end Expression

theorem regular_level (n : Nat) : (level n).Regular := by
  induction n with
  | zero => exact ⟨False.elim, False.elim, False.elim⟩
  | succ n ih =>
    exact ⟨fun h => Expression.isBad ih h, fun h => Expression.starts h,
      fun h => Expression.equals h rfl⟩

theorem TableField.starts {f : Field} (hd : d.Regular) (h : TableField d ts f rest) :
    look ts = .leftBracket ∨ (look ts).startsExp = true := by
  cases h with
  | keyed _ _ => exact .inl rfl
  | named _ => exact .inr rfl
  | item h => exact .inr (hd.starts h)

theorem Level.exps_starts {es : List Exp} (hd : d.Regular) (h : d.exps ts es rest) :
    (look ts).startsExp = true := by
  obtain ⟨first, -⟩ := h
  exact hd.starts first

/-- Behind an item of a list there is a separator, or the list ends. -/
theorem Further.look_eq {α : Type} {k : Kind} {item : Phrase α} {xs : List α}
    (h : Further k item ts xs rest) : look ts = k ∨ ts = rest := by
  cases h with
  | nil => exact .inr rfl
  | cons _ _ => exact .inl rfl

/-! ## Statements -/

theorem Path.starts (h : Path ts e rest) : ∃ n us, ts = .name n :: us := by
  induction h with
  | name => exact ⟨_, _, rfl⟩
  | field _ ih => exact ih

theorem FuncName.starts {target : Exp × Bool} (h : FuncName ts target rest) :
    ∃ n us, ts = .name n :: us := by
  cases h with
  | plain h => exact h.starts
  | method h => exact h.starts

theorem Complete.starts (h : Complete d ts e rest) : look ts = .ident ∨ look ts = .leftParen := by
  obtain ⟨h, -⟩ := h
  exact h.starts

theorem Target.starts (h : Target d ts e rest) : look ts = .ident ∨ look ts = .leftParen := by
  obtain ⟨h, -⟩ := h
  exact h.starts

theorem Statement.starts {st : Option Stat} (h : Statement d ts st rest) :
    (look ts).startsStat = true := by
  have of_prefixed : look ts = .ident ∨ look ts = .leftParen → (look ts).startsStat = true := by
    rintro (eq | eq)
    · rw [eq]; rfl
    · rw [eq]; rfl
  cases h with
  | assign targets _ =>
    obtain ⟨first, -⟩ := targets
    exact of_prefixed first.starts
  | call h _ => exact of_prefixed h.starts
  | _ => rfl

theorem Return.starts {st : Stat} (h : Return d ts st rest) : look ts = .kwReturn := by
  cases h with
  | plain _ => rfl
  | ended _ => rfl

/-- Nothing in front of further statements and the end of a block goes on with an expression. -/
theorem Stats.loose {ss : List Stat} (h : Stats d ts ss rest)
    (ends : (look rest).isBlockEnd = true) : (look ts).loose = true := by
  cases h with
  | nil => exact Kind.loose_of_isBlockEnd ends
  | last h =>
    rw [h.starts]
    rfl
  | cons h _ => exact Kind.loose_of_startsStat h.starts

end Grammar

end LuaFront
