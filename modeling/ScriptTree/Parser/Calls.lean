import ScriptTree.Parser

/-!
# Parsers that call each other

The rules of the grammar call parsers for parts of the script, which call rules in turn. `Calls`
collects the parsers that a rule may call, so that each rule is a plain function of them.
-/

namespace ScriptTree

structure Calls where
  expression : BindingPower → Parse Node
  climb : BindingPower → Node → Parse Node
  items : Parse (List Node)
  entries : Parse (List Node)
  parameters : Parse (List Node)
  /-- One or more variables with commas between them; those with a value give a node. -/
  declarations : Parse (List Node)
  statement : Parse Statements
  statements : Parse (List Node)

namespace Calls

variable (act : Actions) (calls : Calls)

def continued (nodes : List Node) (more : Parse (List Node)) : Parse (List Node) := do
  if ← Parse.currentIs "," then
    let _ ← act.expect ","
    let rest ← more
    pure (nodes ++ rest)
  else pure nodes

def upTo (closing : String) (list : Parse (List Node)) : Parse (List Node) := do
  if ← Parse.currentIs closing then
    let _ ← act.expect closing
    pure []
  else
    let nodes ← list
    let _ ← act.expect closing
    pure nodes

def body : Parse Statements := do
  let nodes ← calls.statements
  pure (.ofList nodes)

def blockBody : Parse Statements := do
  act.openScope
  let body ← calls.body
  let _ ← act.expectScopeEnd "\x7d"
  pure body

def block : Parse Statements := do
  let _ ← act.expect "\x7b"
  calls.blockBody act

end Calls

end ScriptTree
