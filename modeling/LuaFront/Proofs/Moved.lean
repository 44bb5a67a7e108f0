import LuaFront.Proofs.Lexemes
import Mathlib.Data.List.Forall2

/-!
# Texts moved down

A text that starts at the beginning of a line further down is read to the same tokens and the same
errors, each of them as many lines further down. What an error says of other places moves with it.

* `Position.after_down`: reading on from a place further down leads to a place further down.
* `Lexeme.moved_ofPieces`: the lexemes of the same pieces at two places.
* `ErrorLog.foldl_moved`: a log of errors further down, whatever its limit.
-/

namespace LuaFront

/-! ## Places and errors further down -/

/-- The position as many lines further down, in the same column. -/
def Position.down (k : Nat) (p : Position) : Position := ⟨p.line + k, p.column⟩

/-- The location as many lines further down. -/
def Location.down (k : Nat) (l : Location) : Location := ⟨l.start.down k, l.stop.down k⟩

/-- The token as many lines further down. -/
def Token.down (k : Nat) (t : Token) : Token := { t with location := t.location.down k }

/-- What is wrong as many lines further down, with the other places it names. -/
def Cause.down (k : Nat) : Cause → Cause
  | .unfinishedBracket level opener => .unfinishedBracket level (opener.down k)
  | .unclosed expected found opener place => .unclosed expected found opener (place.down k)
  | .tooManyErrors limit next => .tooManyErrors limit (next.down k)
  | cause => cause

/-- The error as many lines further down. -/
def SyntaxError.down (k : Nat) (e : SyntaxError) : SyntaxError :=
  ⟨e.cause.down k, e.location.down k⟩

/-- The log of the errors as many lines further down. -/
def ErrorLog.down (k : Nat) (log : ErrorLog) : ErrorLog :=
  { log with entries := log.entries.map (·.down k) }

variable {k : Nat}

namespace Position

theorem advance_down (p : Position) (c : Char) : (p.down k).advance c = (p.advance c).down k := by
  unfold advance
  split
  · rw [down, down, mk.injEq]
    exact ⟨Nat.add_right_comm _ _ _, rfl⟩
  · rfl

theorem after_down (p : Position) (text : Chars) :
    (p.down k).after text = (p.after text).down k := by
  induction text generalizing p with
  | nil => rfl
  | cons c text ih => rw [after_cons, after_cons, advance_down, ih]

end Position

theorem Flaw.error_down (flaw : Flaw) (text : String) (place : Location) :
    flaw.error text (place.down k) = (flaw.error text place).down k := by
  cases flaw with
  | unclosed level =>
    simp only [error, SyntaxError.down, Cause.down, Location.down, Location.point,
      Position.after_down]
  | _ => rfl

namespace ErrorLog

theorem report_down (log : ErrorLog) (e : SyntaxError) :
    (log.down k).report (e.down k) = (log.report e).down k := by
  have length : (log.down k).entries.length = log.entries.length := List.length_map _
  unfold report
  rw [length]
  split
  · next exhausted => rw [if_pos (show log.exhausted = true from exhausted)]
  next more =>
  rw [if_neg (show ¬ log.exhausted = true from more)]
  split
  · next fits =>
    rw [if_pos (show log.entries.length < log.limit from fits)]
    simp [down]
  · next full =>
    rw [if_neg (show ¬ log.entries.length < log.limit from full)]
    simp [down, SyntaxError.overflow, SyntaxError.down, Cause.down]

theorem report?_down (log : ErrorLog) (e : Option SyntaxError) :
    (log.down k).report? (e.map (·.down k)) = (log.report? e).down k := by
  cases e with
  | none => rfl
  | some e => exact log.report_down e

end ErrorLog

/-! ## Lexemes further down -/

/-- A second margin stands further down, with the same error, whatever comments there are. -/
structure Margin.Moved (k : Nat) (m m' : Margin) : Prop where
  position : m'.position = m.position.down k
  fault : m'.fault = m.fault.map (·.down k)

/-- A second lexeme has the same token further down, with the same error. -/
structure Lexeme.Moved (k : Nat) (x y : Lexeme) : Prop where
  token : y.token = x.token.down k
  fault : y.fault = x.fault.map (·.down k)

namespace Margin.Moved

variable {m m' : Margin} (h : m.Moved k m')
include h

theorem place (t : Lexical) : m'.place t = (m.place t).down k := by
  simp only [Margin.place, Location.down, h.position, Position.after_down]

theorem past (piece : Piece) : (m.past piece).Moved k (m'.past piece) where
  position := by rw [Margin.position_past, Margin.position_past, h.position, Position.after_down]
  fault := by
    cases piece with
    | space c => exact h.fault
    | lineComment text => exact h.fault
    | blockComment level text closed alone =>
      cases closed with
      | true => exact h.fault
      | false =>
        simp only [Margin.past, Margin.blockComment, Bool.false_eq_true, if_false, h.position,
          Position.after_down, Option.map_some, SyntaxError.down, Cause.down, Location.down,
          Location.point]
    | token t => rfl

theorem lexeme (t : Lexical) : (m.lexeme t).Moved k (m'.lexeme t) where
  token := by simp only [Margin.lexeme, Token.down, h.place]
  fault := by
    simp only [Margin.lexeme, h.place, Flaw.error_down, Option.map_map]
    rfl

theorem endOfInput : m.endOfInput.Moved k m'.endOfInput where
  token := by simp only [Margin.endOfInput, Token.down, Location.down, Location.point, h.position]
  fault := h.fault

end Margin.Moved

namespace Lexeme

/-- From a margin further down, the same pieces make up the same lexemes further down. -/
theorem moved_ofPieces {m m' : Margin} (h : m.Moved k m') (ps : List Piece) :
    List.Forall₂ (Moved k) (ofPieces m ps) (ofPieces m' ps) := by
  induction ps generalizing m m' with
  | nil => exact .cons h.endOfInput .nil
  | cons piece ps ih =>
    rw [ofPieces_cons, ofPieces_cons]
    cases piece with
    | token t => exact .cons (h.lexeme t) (ih (h.past _))
    | _ => exact ih (h.past _)

theorem map_token_moved {xs ys : List Lexeme} (h : List.Forall₂ (Moved k) xs ys) :
    ys.map (·.token) = (xs.map (·.token)).map (·.down k) := by
  induction h with
  | nil => rfl
  | cons first _ ih => simp only [List.map_cons, first.token, ih]

end Lexeme

/-- A log takes errors further down as it takes the errors themselves. -/
theorem ErrorLog.foldl_moved {xs ys : List Lexeme} (h : List.Forall₂ (Lexeme.Moved k) xs ys)
    (log : ErrorLog) :
    ys.foldl (fun log y => log.report? y.fault) (log.down k) =
      (xs.foldl (fun log x => log.report? x.fault) log).down k := by
  induction h generalizing log with
  | nil => rfl
  | cons first _ ih => rw [List.foldl_cons, List.foldl_cons, first.fault, report?_down, ih]

end LuaFront
