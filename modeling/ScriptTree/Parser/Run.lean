import ScriptTree.Grammar
import ScriptTree.Piece
import ScriptTree.Parser.Operand
import ScriptTree.Parser.Operator
import ScriptTree.Parser.Statement

/-!
# Running the parsers

`Calls.next` makes the parsers of the grammar from parsers for the parts; it is repeated as often as
the script can be nested. Then come the parses of whole scripts and of single expressions.
-/

namespace ScriptTree

namespace Calls

variable (table : SymbolTable) (act : Actions) (calls : Calls)

def nextExpression (power : BindingPower) : Parse Node := do
  let token ← act.advance
  match (table.lookup? token.id).bind (·.prefixRule?) with
  | none => Parse.fail (token.error (.noOperand token.value))
  | some rule =>
    let left ← rule.parse table act calls token
    calls.climb power left

def nextClimb (power : BindingPower) (left : Node) : Parse Node := do
  let current ← Parse.current
  if power < table.power current.id then
    let token ← act.advance
    match table.lookup? token.id with
    | some { infixRule? := some rule, infixPower, .. } =>
      let left ← rule.parse act calls token left infixPower
      calls.climb power left
    | _ => Parse.fail (token.error (.noOperator token.value))
  else pure left

def nextStatement : Parse Statements := do
  let current ← Parse.current
  match (table.lookup? current.id).bind (·.statementRule?) with
  | none => calls.expressionStatement act
  | some rule =>
    let token ← act.advance
    act.reserve token
    rule.parse act calls token

def nextStatements : Parse (List Node) := do
  let current ← Parse.current
  if current.id = "\x7d" || current.id = endId then pure []
  else
    let statement ← calls.statement
    let rest ← calls.statements
    pure (statement.toList ++ rest)

def next : Calls where
  expression := nextExpression table act calls
  climb := nextClimb table act calls
  items := nextItems act calls
  entries := nextEntries act calls
  parameters := nextParameters act calls
  declarations := nextDeclarations act calls
  statement := nextStatement table act calls
  statements := nextStatements calls

def giveUp {α : Type} : Parse α := do
  let current ← Parse.current
  Parse.fail (current.error .endless)

def endless : Calls where
  expression _ := giveUp
  climb _ _ := giveUp
  items := giveUp
  entries := giveUp
  parameters := giveUp
  declarations := giveUp
  statement := giveUp
  statements := giveUp

/-- The parsers of the grammar for parts that are nested no deeper than given. -/
def nested (depth : Nat) : Calls := Nat.repeat (next table act) depth endless

def script : Parse Statements := do
  let _ ← act.advance
  let script ← calls.body
  let _ ← act.expect endId
  pure script

def singleExpression : Parse Node := do
  let _ ← act.advance
  let node ← calls.expression .none
  let _ ← act.expect endId
  pure node

end Calls

namespace Parser

/-- How deep the calls for the rest of a script can be nested: no more than three of them come
between two moves over a token. -/
def reach (parser : Parser) : Nat := 4 * (parser.unread.length + 4)

end Parser

namespace Parse

variable (table : SymbolTable) (act : Actions)

def withCalls {α : Type} (select : Calls → Parse α) : Parse α := fun p =>
  select (.nested table act p.reach) p

def expression (power : BindingPower) : Parse Node := withCalls table act (·.expression power)

def statement : Parse Statements := withCalls table act (·.statement)

def statements : Parse Statements := withCalls table act (·.body)

def block : Parse Statements := withCalls table act (·.block act)

def script : Parse Statements := withCalls table act (·.script act)

def singleExpression : Parse Node := withCalls table act (·.singleExpression act)

end Parse

def parseTokens (table : SymbolTable) (tokens : List Token) : Except SyntaxError Statements :=
  (Parse.script table (.standard table) (Parser.start tokens)).1

def parseExpression (table : SymbolTable) (tokens : List Token) : Except SyntaxError Node :=
  (Parse.singleExpression table (.standard table) (Parser.start tokens)).1

def parseScript (script : String) : Except SyntaxError Statements := do
  let tokens ← tokensOf .standard script
  parseTokens .grammar tokens

end ScriptTree
