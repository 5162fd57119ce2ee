import ScriptTree.Text.StringLiteral
import ScriptTree.Tree
import ScriptTree.Tree.Outline

/-!
# Trees as script text

A tree is written as a script in which every operation stands in parentheses of its own, so that the
script reads back as the tree without regard to binding powers.
-/

namespace ScriptTree

def Value.write : Value → String
  | .string s => StringLiteral.write s
  | value => value.text

/-- Where a node is written: as an operand, or as a statement at a depth of indentation. -/
inductive Place where
  | operand
  | statement (depth : Nat)

namespace Place

def depth : Place → Nat
  | operand => 0
  | statement depth => depth

def close (expression : String) : Place → String
  | operand => expression
  | statement _ => expression ++ ";"

end Place

def Node.propertyName? (node : Node) : Option String :=
  match node.form with
  | .literal (.string name) => some name
  | _ => none

def Node.isConditional (node : Node) : Bool :=
  match node.form with
  | .ifElse .. => true
  | _ => false

def braced (depth : Nat) (lines : String) : String :=
  "\x7b\n" ++ lines ++ indentation depth ++ "\x7d"

mutual

def Node.write (place : Place) : Node → String
  | .mk id _ _ form => form.write place id

/-- A form that was made by the symbol `id`. Named values stand for themselves. -/
def Form.write (place : Place) (id : String) : Form → String
  | .literal value => place.close (if id = literalId then value.write else id)
  | .name text => place.close text
  | .self => place.close "this"
  | .unary a => place.close ("(" ++ id ++ " " ++ a.write .operand ++ ")")
  | .array nodes => place.close ("[" ++ writeItems nodes ++ "]")
  | .object nodes => place.close ("\x7b" ++ writeEntries nodes ++ "\x7d")
  | .binary a b | .assignment a b =>
    place.close ("(" ++ a.write .operand ++ " " ++ id ++ " " ++ b.write .operand ++ ")")
  | .declaration a b =>
    match place with
    | .operand => "(" ++ a.write .operand ++ " " ++ id ++ " " ++ b.write .operand ++ ")"
    | .statement _ => "var " ++ a.write .operand ++ " = " ++ b.write .operand ++ ";"
  | .member a b =>
    place.close ("(" ++ a.write .operand ++ "." ++
      b.propertyName?.getD (b.write .operand) ++ ")")
  | .index a b => place.close ("(" ++ a.write .operand ++ "[" ++ b.write .operand ++ "])")
  | .call a nodes => place.close ("(" ++ a.write .operand ++ "(" ++ writeItems nodes ++ "))")
  | .ternary a b c =>
    place.close ("(" ++ a.write .operand ++ " ? " ++ b.write .operand ++ " : " ++
      c.write .operand ++ ")")
  | .block body => body.write place.depth
  | .whileLoop a body => "while (" ++ a.write .operand ++ ") " ++ body.write place.depth
  | .ifElse a s t =>
    "if (" ++ a.write .operand ++ ") " ++ s.write place.depth ++ t.writeElse place.depth
  | .breakOut => "break;"
  | .returnWith none => "return;"
  | .returnWith (some a) => "return " ++ a.write .operand ++ ";"
  | .function name nodes body =>
    place.close ("(function " ++ name.getD "" ++ "(" ++ writeItems nodes ++ ") " ++
      body.write 0 ++ ")")

def Statements.write (depth : Nat) : Statements → String
  | .empty => "\x7b\x7d"
  | .single a =>
    braced depth (indentation (depth + 1) ++ a.write (.statement (depth + 1)) ++ "\n")
  | .sequence nodes => braced depth (writeLines (depth + 1) nodes)

/-- The second branch of a conditional. A conditional that is the whole branch follows without
braces. -/
def Statements.writeElse (depth : Nat) : Statements → String
  | .empty => ""
  | .single a =>
    if a.isConditional then " else " ++ a.write (.statement depth)
    else
      " else " ++
        braced depth (indentation (depth + 1) ++ a.write (.statement (depth + 1)) ++ "\n")
  | .sequence nodes => " else " ++ braced depth (writeLines (depth + 1) nodes)

def writeLines (depth : Nat) : List Node → String
  | [] => ""
  | a :: rest =>
    indentation depth ++ a.write (.statement depth) ++ "\n" ++ writeLines depth rest

def writeItems : List Node → String
  | [] => ""
  | [a] => a.write .operand
  | a :: rest => a.write .operand ++ ", " ++ writeItems rest

def writeEntries : List Node → String
  | [] => ""
  | [a] => StringLiteral.write (a.key.getD "") ++ ": " ++ a.write .operand
  | a :: rest =>
    StringLiteral.write (a.key.getD "") ++ ": " ++ a.write .operand ++ ", " ++ writeEntries rest

end

def Statements.script (script : Statements) : String := writeLines 0 script.toList

end ScriptTree
