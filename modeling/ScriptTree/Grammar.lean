import ScriptTree.Symbol
import ScriptTree.Token

/-!
# The grammar of the language

The symbol table of the whole language: punctuation, operators, named constants and the words that
start statements.
-/

namespace ScriptTree

namespace SymbolTable

def pi : Number := Number.ofDecimal false ⟨3141592653589793, -15⟩

def grammar : SymbolTable :=
  let structural := [":", ";", ",", ")", "]", "\x7d", "else", endId]
  let relational := ["===", "!==", "<", "<=", ">", ">="]
  let table := structural.foldl (fun table id => table.register id .none) empty
  let table := table
    |>.addPrefix nameId .name
    |>.addPrefix literalId .literal
    |>.addPrefix "this" .self
    |>.addBinary "+" .additive
    |>.addBinary "-" .additive
    |>.addBinary "*" .multiplicative
    |>.addBinary "/" .multiplicative
  let table := relational.foldl (fun table id => table.addBinary id .relational) table
  table
    |>.addInfix "?" .ternary .ternary
    |>.addInfix "." .member .member
    |>.addInfix "[" .member .index
    |>.addBinaryRight "&&" .logical
    |>.addBinaryRight "||" .logical
    |>.addUnary "-"
    |>.addUnary "!"
    |>.addUnary "typeof"
    |>.addPrefix "(" .grouping
    |>.addAssignment "="
    |>.addAssignment "+="
    |>.addAssignment "-="
    |>.addConstant "true" (.bool true)
    |>.addConstant "false" (.bool false)
    |>.addConstant "null" .null
    |>.addConstant "pi" (.number pi)
    |>.addStatement "\x7b" .block
    |>.addStatement "var" .declaration
    |>.addStatement "while" .whileLoop
    |>.addStatement "if" .ifElse
    |>.addStatement "break" .breakOut
    |>.addStatement "return" .returnWith
    |>.addPrefix "function" .function
    |>.addInfix "(" .call .call
    |>.addPrefix "[" .array
    |>.addPrefix "\x7b" .object

end SymbolTable

end ScriptTree
