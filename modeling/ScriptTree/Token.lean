import ScriptTree.Position
import ScriptTree.Text.Field
import ScriptTree.Text.Quoted

/-!
# Tokens

A token is a word of a script: its kind, its text, and where it stands. Operators and punctuation are
one kind; the parser tells them apart by their text.
-/

namespace ScriptTree

abbrev endId : String := "(end)"

inductive TokenKind where
  | name
  | operator
  | string
  | number
  | ending
deriving DecidableEq

def TokenKind.text : TokenKind → String
  | .name => "name"
  | .operator => "operator"
  | .string => "string"
  | .number => "number"
  | .ending => "end"

structure Token where
  kind : TokenKind
  /-- The text of the token in the script; of a string the text that it denotes. -/
  value : String
  position : Position
deriving DecidableEq

namespace Token

def ending (p : Position) : Token := ⟨.ending, endId, p⟩

def isName (t : Token) : Bool := t.kind == .name

def isLiteral (t : Token) : Bool := t.kind == .string || t.kind == .number

def line (t : Token) : String :=
  let place := { align := .right, width := 7 : Field }.set t.position.text
  let kind := { width := 8 : Field }.set t.kind.text
  place ++ " " ++ kind ++ " " ++ (if t.kind = .string then quoted t.value else t.value)

end Token

end ScriptTree
