import ScriptTree.Source
import ScriptTree.SyntaxError
import ScriptTree.Text.Blank
import ScriptTree.Text.Field

/-!
# Reports

A report shows a syntax error to the writer of a script: what is wrong, in which file and where, and
the line itself with an arrow under the place. An arrow longer than the widest field cannot be drawn,
and then there is no report.
-/

namespace ScriptTree

def isIndent (c : Char) : Bool := c == ' ' || c == '\t'

/-- The line of an excerpt without its indentation, under a bar and over an arrow of the given
length. -/
def excerpt (number : String) (line : List Char) (arrow : Nat) : Option String := do
  let bar ← { align := .right, width := number.length + 2 : Field }.set? "|"
  let shaft ← { align := .right, width := arrow, fill := '-' : Field }.set? "^"
  pure (bar ++ "\n" ++ number ++ " | " ++ String.ofList (trimEnd (line.dropWhile isIndent)) ++
    "\n" ++ bar ++ " " ++ shaft)

namespace SyntaxError

def headline (error : SyntaxError) : String :=
  "Error: " ++ error.cause.name ++ " (" ++ error.cause.advice?.getD error.message ++ ")"

/-- The report of an error in a file with the given contents. The excerpt is left out if the file
has no such line. -/
def report (error : SyntaxError) (file source : String) : Option String := do
  let place := "-> " ++ file ++ ":" ++ error.position.text
  let shown ←
    match lineAt? source error.position.line.toNat with
    | none => pure ""
    | some line =>
      excerpt error.position.line.toNat.repr line
        (max 1 (error.position.column.toNat - (line.takeWhile isIndent).length))
  pure (error.headline ++ "\n" ++ place ++ "\n" ++ shown)

end SyntaxError

end ScriptTree
