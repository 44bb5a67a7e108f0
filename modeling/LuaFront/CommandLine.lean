import LuaFront.Report

/-!
# The command line

Arguments are read from left to right. A word moves on to a subcommand or names the source file;
options belong to the command at which they stand, and each command takes each of them at most once.
Of several limits the one at the innermost command counts. An option that shows the version ends the
reading on the spot; all other faults are one and the same refusal.

`Action.ofArguments` is what the arguments ask for, and `Action.respond` what comes of it.
-/

namespace LuaFront

/-- The commands. -/
inductive Command where
  | root | check | tools | ast | comments
deriving DecidableEq, Repr

namespace Command

/-- The words that lead to a command. -/
def words : Command → List String
  | root => []
  | check => ["check"]
  | tools => ["tools"]
  | ast => ["tools", "ast"]
  | comments => ["tools", "comments"]

/-- The subcommand of the given name. -/
def sub? (c : Command) (word : String) : Option Command :=
  [check, tools, ast, comments].find? (·.words == c.words ++ [word])

/-- Whether a command has subcommands. -/
def hasSubs : Command → Bool
  | root | tools => true
  | check | ast | comments => false

/-- The tool that a command runs. -/
def tool? : Command → Option Tool
  | check => some .check
  | ast => some .tree
  | comments => some .comments
  | root | tools => none

/-- The name and version of a command. -/
def version : Command → String
  | root => "mylua 0.1.0"
  | c => "-".intercalate ("mylua-cli" :: c.words) ++ " "

/-- How a command is used. -/
def usage (c : Command) : String :=
  " ".intercalate ("usage: mylua-cli" :: c.words) ++
    " [--max-errors N] [-v] " ++ if c.hasSubs then "SUBCOMMAND" else "SOURCE"

end Command

/-- Why arguments are refused. -/
inductive Refusal where
  /-- The arguments do not fit the commands. -/
  | misuse
  /-- The command for tools names none. -/
  | noTool
deriving DecidableEq, Repr

/-- What arguments ask for. -/
inductive Action where
  | run (tool : Tool) (path : String) (limit : Nat) (verbose : Bool)
  | version (command : Command)
  | help (command : Command)
  | refuse (reason : Refusal)
deriving DecidableEq, Repr

namespace CommandLine

/-- What is given to one command. -/
structure Level where
  command : Command
  /-- The limits, with `none` for one whose value is missing. -/
  limits : List (Option String) := []
  /-- How often the flag for more messages is set. -/
  verbose : Nat := 0
  source : Option String := none
deriving DecidableEq, Repr

/-- Where reading the arguments stands. -/
structure State where
  level : Level := { command := .root }
  /-- The commands that lead to this one, nearest first. -/
  outer : List Level := []
  /-- Whether the value of a limit comes next. -/
  waiting : Bool := false
  /-- Whether all that follows are words. -/
  wordsOnly : Bool := false
deriving DecidableEq, Repr

/-- Reading goes on, or ends with an action. -/
abbrev Step := Except Action State

def misuse : Step := throw (.refuse .misuse)

/-- A limit as an option gives it: digits with an optional plus, within 64 bits. Anything else is
the usual limit. -/
def limitOf (text : String) : Nat :=
  let digits := match text.toList with
    | '+' :: digits => digits
    | digits => digits
  let n := Numeral.ofDigits 10 digits
  if digits ≠ [] ∧ digits.all Text.isDigit ∧ n < UInt64.size then n else defaultLimit

namespace State

/-- Sets the flag for more messages. -/
def setVerbose (s : State) : State :=
  { s with level := { s.level with verbose := s.level.verbose + 1 }, waiting := false }

/-- Sets the limit, now or with the next argument. -/
def setLimit (s : State) (value : Option String) : State :=
  { s with
    level := { s.level with limits := value :: s.level.limits }
    waiting := value.isNone }

/-- Takes a word as the value of the limit. -/
def fillLimit (s : State) (value : String) : State :=
  { s with level := { s.level with limits := some value :: s.level.limits.tail }, waiting := false }

/-- Goes on at a subcommand. -/
def enter (s : State) (c : Command) : State :=
  { level := { command := c }, outer := s.level :: s.outer }

/-- Takes a word as the source file. -/
def setSource (s : State) (path : String) : Step :=
  if s.level.command.tool?.isSome ∧ s.level.source.isNone then
    pure { s with level := { s.level with source := some path } }
  else misuse

/-- Takes an option with a long name, whatever the number of dashes. -/
def long (s : State) (text : Chars) : Step :=
  let body := text.dropWhile (· = '-')
  let name := String.ofList (body.takeWhile (· ≠ '='))
  let value := body.dropWhile (· ≠ '=')
  match name with
  | "max-errors" =>
    pure (s.setLimit (if value = [] then none else some (.ofList (value.dropWhile (· = '=')))))
  | "verbose" => pure s.setVerbose
  | "help" => throw (.help s.level.command)
  | "version" => throw (.version s.level.command)
  | _ => misuse

/-- Takes an option of one letter. -/
def short (s : State) : Char → Step
  | 'v' => pure s.setVerbose
  | 'h' => throw (.help s.level.command)
  | 'V' => throw (.version s.level.command)
  | _ => misuse

/-- Takes an argument that does not stand for a value or subcommand. -/
def argument (s : State) (arg : String) : Step :=
  match arg.toList with
  | '-' :: '-' :: text => s.long text
  | '-' :: c :: letters => (c :: letters).foldlM short s
  | _ => s.setSource arg

/-- The subcommand that an argument moves on to. -/
def sub? (s : State) (arg : String) : Option Command :=
  if s.wordsOnly then none else s.level.command.sub? arg

/-- Whether an argument is a value for an option that waits for one. -/
def isValue (s : State) (arg : String) : Bool :=
  s.waiting && !s.wordsOnly && (arg == "-" || arg.toList.head? != some '-')

end State

/-- Help on the command that words lead to. The word for help itself can stand there alone. -/
def helpOn (c : Command) : List String → Action
  | [] => .help c
  | word :: words => match c.sub? word with
    | some d => helpOn d words
    | none => .refuse .misuse

namespace Level

/-- Whether each option is given at most once, and with a value if it needs one. -/
def isSound (l : Level) : Bool :=
  l.limits.length ≤ 1 && l.limits.all (·.isSome) && l.verbose ≤ 1

end Level

/-- What all arguments come to. -/
def State.finish (s : State) : Action :=
  let levels := s.level :: s.outer
  let limit := (levels.findSome? (·.limits.head?)).join
  if !levels.all Level.isSound then .refuse .misuse
  else match s.level.command.tool?, s.level.source with
    | some tool, some path =>
      .run tool path ((limit.map limitOf).getD defaultLimit) (levels.any (0 < ·.verbose))
    | none, _ => .refuse (if s.level.command = .tools then .noTool else .misuse)
    | some _, none => .refuse .misuse

/-- Reads arguments from a state on. -/
def read (s : State) : List String → Action
  | [] => s.finish
  | arg :: args =>
    if s.isValue arg then read (s.fillLimit arg) args
    else if s.wordsOnly then
      match s.setSource arg with
      | .ok s => read s args
      | .error action => action
    else if arg = "--" then read { s with wordsOnly := true } args
    else match s.sub? arg with
      | some c => read (s.enter c) args
      | none =>
        if arg = "help" ∧ s.level.command.hasSubs then
          if args = ["help"] then .help s.level.command else helpOn s.level.command args
        else match s.argument arg with
          | .ok s => read s args
          | .error action => action

end CommandLine

namespace Action

/-- What the arguments behind the program's name ask for. -/
def ofArguments (args : List String) : Action := CommandLine.read {} args

/-- The file that has to be read. -/
def path? : Action → Option String
  | run _ path _ _ => some path
  | _ => none

end Action

/-- What the program answers. -/
structure Response where
  exit : Nat
  output : Chars := []
  errors : Chars := []
deriving DecidableEq, Repr

namespace Action

/-- The answer to an action, with the content of its file if that could be read. -/
def respond (a : Action) (content : Option (List UInt8)) : Response :=
  match a with
  | run tool path limit _ => match tool.report? limit path content with
    | some r => ⟨if r.verdict = .ok then 0 else 1, r.output, r.errorLines⟩
    | none => { exit := 101 }
  | version c => { exit := 0, output := ownLine c.version.toList }
  | help c => { exit := 0, output := ownLine c.usage.toList }
  | refuse .misuse => { exit := 1, errors := ownLine Command.root.usage.toList }
  | refuse .noTool => { exit := 101, errors := ownLine Command.tools.usage.toList }

example : ofArguments ["--max-errors", "7", "tools", "ast", "a.lua", "-v"] =
    run .tree "a.lua" 7 true := by decide +kernel

example : ofArguments ["check", "--max-errors"] = refuse .misuse := by decide +kernel

end Action

end LuaFront
