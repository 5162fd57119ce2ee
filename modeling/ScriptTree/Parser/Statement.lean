import ScriptTree.Parser.Calls

/-!
# Statements

What a symbol does at the front of a statement. A statement may give several nodes or none: a
declaration of variables gives one for each variable with a value, an empty block none.
-/

namespace ScriptTree

namespace StatementRule

variable (act : Actions) (calls : Calls) (token : SymbolToken)

/-- Statements behind which nothing may follow must end their block. -/
def expectBlockEnd : Parse Unit := do
  let current ← Parse.current
  if current.id = "\x7d" then pure () else Parse.fail (current.error .unreachable)

def blockStatement : Parse Statements := do
  let body ← calls.blockBody act
  pure (if body.isEmpty then .empty else .single (token.node (.block body)))

def declarationStatement : Parse Statements := do
  let declarations ← calls.declarations
  let _ ← act.expect ";"
  pure (.ofList declarations)

def condition : Parse Node := do
  let _ ← act.expect "("
  let condition ← calls.expression .none
  let _ ← act.expect ")"
  pure condition

def whileStatement : Parse Statements := do
  let condition ← condition act calls
  let body ← calls.block act
  pure (.single (token.node (.whileLoop condition body)))

def alternative : Parse Statements := do
  if ← Parse.currentIs "else" then
    let word ← Parse.current
    act.reserve word
    let _ ← act.expect "else"
    if ← Parse.currentIs "if" then calls.statement else calls.block act
  else pure .empty

def ifStatement : Parse Statements := do
  let condition ← condition act calls
  let consequent ← calls.block act
  let alternative ← alternative act calls
  pure (.single (token.node (.ifElse condition consequent alternative)))

def breakStatement : Parse Statements := do
  let _ ← act.expect ";"
  expectBlockEnd
  pure (.single (token.node .breakOut))

def returnValue : Parse (Option Node) := do
  if ← Parse.currentIs ";" then pure none
  else
    let value ← calls.expression .none
    pure (some value)

def returnStatement : Parse Statements := do
  let value ← returnValue calls
  let _ ← act.expect ";"
  expectBlockEnd
  pure (.single (token.node (.returnWith value)))

def parse : StatementRule → Parse Statements
  | block => blockStatement act calls token
  | declaration => declarationStatement act calls
  | whileLoop => whileStatement act calls token
  | ifElse => ifStatement act calls token
  | breakOut => breakStatement act token
  | returnWith => returnStatement act calls token

end StatementRule

namespace Calls

variable (act : Actions) (calls : Calls)

def initialValue (name : Node) : Parse (List Node) := do
  if ← Parse.currentIs "=" then
    let sign ← act.advance
    let value ← calls.expression .none
    pure [sign.node (.declaration name value)]
  else pure []

def nextDeclarations : Parse (List Node) := do
  let word ← Parse.current
  if word.isName then
    let name ← act.define word
    let _ ← act.advance
    let nodes ← calls.initialValue act name
    continued act nodes calls.declarations
  else Parse.fail (word.error (.noVariableName word.value))

/-- An expression as a statement; only what has an effect can be one. -/
def expressionStatement : Parse Statements := do
  let expression ← calls.expression .none
  if expression.form.isAssignment || expression.form.isCall then
    let _ ← act.expect ";"
    pure (.single expression)
  else Parse.fail ⟨.notAStatement, expression.position⟩

end Calls

end ScriptTree
