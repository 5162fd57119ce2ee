import ScriptTree.Parser.Calls

/-!
# Operands

What a symbol does at the front of an expression: names and literals, prefix operators, brackets,
objects and functions.
-/

namespace ScriptTree

namespace PrefixRule

variable (table : SymbolTable) (act : Actions) (calls : Calls) (token : SymbolToken)

def literalNode : Parse Node :=
  match token.token.kind with
  | .number =>
    match Number.ofText? token.value with
    | some number => pure (Node.ofValue (.number number) token.position)
    | none => Parse.fail (token.error (.badNumber token.value))
  | _ => pure (Node.ofValue (.string token.value) token.position)

def selfNode : Parse Node := do
  act.reserve token
  pure (token.node .self)

def constantNode : Parse Node := do
  act.reserve token
  let value := ((table.lookup? token.id).bind (·.constant?)).getD .null
  pure (token.node (.literal value))

def unaryNode : Parse Node := do
  act.reserve token
  let operand ← calls.expression .unary
  pure (token.node (.unary operand))

/-- An expression in parentheses, which leave no trace in the tree. -/
def grouped : Parse Node := do
  let inner ← calls.expression .none
  let _ ← act.expect ")"
  pure inner

def arrayNode : Parse Node := do
  let items ← Calls.upTo act "]" calls.items
  pure (token.node (.array items))

def objectNode : Parse Node := do
  let entries ← Calls.upTo act "\x7d" calls.entries
  pure (token.node (.object entries))

def functionName : Parse (Option String) := do
  let current ← Parse.current
  if current.isName then
    let _ ← act.define current
    let _ ← act.advance
    pure (some current.value)
  else pure none

def functionNode : Parse Node := do
  act.openScope
  let name ← functionName act
  let _ ← act.expect "("
  let parameters ← Calls.upTo act ")" calls.parameters
  let _ ← act.expect "\x7b"
  let body ← calls.body
  let _ ← act.expectScopeEnd "\x7d"
  pure (token.node (.function name parameters body))

def parse : PrefixRule → Parse Node
  | name => pure token.asName
  | literal => literalNode token
  | self => selfNode act token
  | constant => constantNode table act token
  | unary => unaryNode act calls token
  | grouping => grouped act calls
  | array => arrayNode act calls token
  | object => objectNode act calls token
  | function => functionNode act calls token

end PrefixRule

namespace Calls

variable (act : Actions) (calls : Calls)

def nextItems : Parse (List Node) := do
  let item ← calls.expression .none
  continued act [item] calls.items

/-- One or more entries of an object. A key is a word of any meaning, a string or a number. -/
def nextEntries : Parse (List Node) := do
  let key ← Parse.current
  if key.isName || key.token.isLiteral then
    let label ← act.label
    let _ ← act.expect ":"
    let value ← calls.expression .none
    continued act [value.withKey label.value] calls.entries
  else Parse.fail (key.error (.badKey key.value))

def nextParameters : Parse (List Node) := do
  let parameter ← Parse.current
  if parameter.isName then
    let node ← act.define parameter
    let _ ← act.advance
    continued act [node] calls.parameters
  else Parse.fail (parameter.error (.noParameterName parameter.value))

end Calls

end ScriptTree
