import ScriptTree.Parser.Run
import ScriptTree.Report
import ScriptTree.Tree.Outline

/-!
# The command line

The program is given a file and shows its tree, or its tokens if asked for them. What it answers is
decided here; reading the file and writing the answer is left to the program itself.
-/

namespace ScriptTree

structure Command where
  file : String
  showTokens : Bool
deriving DecidableEq

inductive Outcome where
  | misused
  | unreadable
  | rejected (report : String)
  /-- The script is rejected, and the run ends while the report is drawn. -/
  | crashed
  | shown (text : String)
deriving DecidableEq

namespace Command

/-- The arguments that name files, and how often the tokens were asked for; nothing if there is any
other option. Behind two dashes there are no options. -/
def readArguments : List String → Option (List String × Nat)
  | [] => some ([], 0)
  | argument :: rest =>
    if argument = "--" then some (rest, 0)
    else if argument = "--tokens" then
      (readArguments rest).map fun (files, count) => (files, count + 1)
    else if argument.startsWith "-" && argument ≠ "-" then none
    else (readArguments rest).map fun (files, count) => (argument :: files, count)

/-- The command of a list of arguments: just one file, whose name is not empty, and at most once a
wish for the tokens. -/
def ofArguments? (arguments : List String) : Option Command :=
  match readArguments arguments with
  | some ([file], count) => if file.isEmpty || 1 < count then none else some ⟨file, count == 1⟩
  | _ => none

def tokenLines (tokens : List Token) : String :=
  String.join (tokens.map fun t => t.line ++ "\n")

def shownText (command : Command) (script : String) : Except SyntaxError String := do
  let tokens ← tokensOf .standard script
  if command.showTokens then pure (tokenLines tokens)
  else
    let tree ← parseTokens .grammar tokens
    pure tree.outline

def answer (command : Command) (contents : Option String) : Outcome :=
  match contents with
  | none => .unreadable
  | some script =>
    match command.shownText script with
    | .ok text => .shown text
    | .error error => (error.report command.file script).elim .crashed .rejected

end Command

namespace Outcome

def code : Outcome → UInt32
  | misused => 2
  | unreadable => 1
  | rejected _ => 1
  | crashed => 101
  | shown _ => 0

end Outcome

end ScriptTree
