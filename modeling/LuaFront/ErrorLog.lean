import LuaFront.SyntaxError

/-!
# Bounded error lists

An `ErrorLog` keeps errors in the order of their report, up to a limit. The first error beyond the
limit is kept as a marker that names it, and after it, or after an error that ends the work by
itself, the log is exhausted and takes nothing more.

* `ErrorLog.entries_prefix_report`, `ErrorLog.entries_prefix_abort`: an error that is kept stays
  where it is.
-/

namespace LuaFront

/-- Errors in the order of their report, with an upper bound. -/
structure ErrorLog where
  limit : Nat
  entries : List SyntaxError := []
  exhausted : Bool := false
deriving DecidableEq, Repr

namespace ErrorLog

/-- Adds an error, or a marker for it if the limit is reached. -/
def report (log : ErrorLog) (e : SyntaxError) : ErrorLog :=
  if log.exhausted then log
  else if log.entries.length < log.limit then { log with entries := log.entries ++ [e] }
  else { log with entries := log.entries ++ [e.overflow log.limit], exhausted := true }

/-- Adds an error that ends the work whatever the limit is. -/
def abort (log : ErrorLog) (e : SyntaxError) : ErrorLog :=
  if log.exhausted then log
  else { log with entries := log.entries ++ [e], exhausted := true }

/-- Adds an error if there is one. -/
def report? (log : ErrorLog) (e : Option SyntaxError) : ErrorLog := e.elim log log.report

variable (log : ErrorLog)

@[simp] theorem report?_none : log.report? none = log := rfl

@[simp] theorem report?_some (e : SyntaxError) : log.report? (some e) = log.report e := rfl

theorem entries_prefix_report (e : SyntaxError) : log.entries <+: (log.report e).entries := by
  unfold report
  split
  · exact List.prefix_rfl
  split
  · exact List.prefix_append _ _
  · exact List.prefix_append _ _

theorem entries_prefix_report? (e : Option SyntaxError) :
    log.entries <+: (log.report? e).entries := by
  cases e with
  | none => exact List.prefix_rfl
  | some e => exact log.entries_prefix_report e

theorem entries_prefix_abort (e : SyntaxError) : log.entries <+: (log.abort e).entries := by
  unfold abort
  split
  · exact List.prefix_rfl
  · exact List.prefix_append _ _

end ErrorLog

end LuaFront
