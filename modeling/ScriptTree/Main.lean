import ScriptTree.CommandLine

/-!
# The program

Reads the file that the arguments name and writes its tree or its tokens.
-/

open ScriptTree

def readText (file : String) : IO (Option String) := do
  try
    let bytes ← IO.FS.readBinFile file
    return String.fromUTF8? bytes
  catch _ => return none

def main (arguments : List String) : IO UInt32 := do
  match Command.ofArguments? arguments with
  | none =>
    IO.eprintln "usage: scripttree [--tokens] FILE"
    return Outcome.misused.code
  | some command =>
    let outcome := command.answer (← readText command.file)
    match outcome with
    | .misused => pure ()
    | .unreadable => IO.eprintln ("cannot read " ++ command.file)
    | .rejected report => IO.eprintln report
    | .crashed => IO.eprintln "the report is too wide to be drawn"
    | .shown text => IO.print text
    return outcome.code
