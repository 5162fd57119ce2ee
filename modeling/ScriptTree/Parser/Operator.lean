import ScriptTree.Parser.Calls

/-!
# Operators

What a symbol does behind an operand, and the climb: as long as the current symbol binds tighter than
the expression asks for, it takes what has been read as its left operand.
-/

namespace ScriptTree

namespace InfixRule

variable (act : Actions) (calls : Calls) (token : SymbolToken) (left : Node) (power : BindingPower)

def binaryNode : Parse Node := do
  let right ← calls.expression power
  pure (token.node (.binary left right))

def binaryRightNode : Parse Node := do
  let right ← calls.expression power.weaker
  pure (token.node (.binary left right))

def assignmentNode : Parse Node := do
  if left.form.isAssignable then
    let value ← calls.expression power.weaker
    pure (token.node (.assignment left value))
  else Parse.fail ⟨.notAssignable, left.position⟩

def ternaryNode : Parse Node := do
  let consequent ← calls.expression .none
  let _ ← act.expect ":"
  let alternative ← calls.expression .none
  pure (token.node (.ternary left consequent alternative))

def memberNode : Parse Node := do
  let property ← Parse.current
  if property.isName then
    let label ← act.label
    pure (token.node (.member left (Node.ofValue (.string label.value) label.position)))
  else Parse.fail (property.error (.noPropertyName property.value))

def indexNode : Parse Node := do
  let index ← calls.expression .none
  let _ ← act.expect "]"
  pure (token.node (.index left index))

def callNode : Parse Node := do
  if left.form.isCallable then
    let arguments ← Calls.upTo act ")" calls.items
    pure (token.node (.call left arguments))
  else Parse.fail ⟨.notCallable, left.position⟩

def parse : InfixRule → Parse Node
  | binary => binaryNode calls token left power
  | binaryRight => binaryRightNode calls token left power
  | assignment => assignmentNode calls token left power
  | ternary => ternaryNode act calls token left
  | member => memberNode act token left
  | index => indexNode act calls token left
  | .call => callNode act calls token left

end InfixRule

end ScriptTree
