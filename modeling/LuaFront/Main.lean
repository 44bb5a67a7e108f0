import LuaFront.CommandLine

/-!
# The program

Reads the arguments and the file that they name, writes the answer, and ends with its exit code.
-/

open LuaFront

/-- The content of a file, if it can be read. -/
def contentOf (path : String) : IO (Option (List UInt8)) := do
  try
    let bytes ← IO.FS.readBinFile path
    pure (some bytes.toList)
  catch e =>
    IO.eprintln s!"Error while reading the source file:\n{e}"
    pure none

def main (args : List String) : IO UInt32 := do
  let action := Action.ofArguments args
  let content ← match action.path? with
    | some path => contentOf path
    | none => pure none
  let response := action.respond content
  IO.print (String.ofList response.output)
  IO.eprint (String.ofList response.errors)
  return UInt32.ofNat response.exit
