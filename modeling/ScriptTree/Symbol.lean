import ScriptTree.Tree

/-!
# Symbols

A symbol is a word with a meaning of its own in the grammar: what it does at the front of an
expression, behind an operand, or at the front of a statement, and how tightly it binds. A
`SymbolTable` is built by registrations; a later one adds to what is known of a symbol or replaces
it, but never lowers the binding power.
-/

namespace ScriptTree

/-- How tightly a symbol binds to the operand on its left; higher binds tighter. -/
abbrev BindingPower := Nat

namespace BindingPower

def none : BindingPower := 0
def assignment : BindingPower := 10
def ternary : BindingPower := 20
def logical : BindingPower := 40
def relational : BindingPower := 50
def additive : BindingPower := 60
def multiplicative : BindingPower := 70
def unary : BindingPower := 80
def member : BindingPower := 90
def call : BindingPower := 90

/-- The power at which an operator that groups to the right reads its right operand. -/
def weaker (power : BindingPower) : BindingPower := power - 1

end BindingPower

inductive PrefixRule where
  | name
  | literal
  | self
  | constant
  | unary
  | grouping
  | array
  | object
  | function
deriving DecidableEq

inductive InfixRule where
  | binary
  | binaryRight
  | assignment
  | ternary
  | member
  | index
  | call
deriving DecidableEq

inductive StatementRule where
  | block
  | declaration
  | whileLoop
  | ifElse
  | breakOut
  | returnWith
deriving DecidableEq

structure Symbol where
  id : String
  power : BindingPower := .none
  prefixRule? : Option PrefixRule := none
  infixRule? : Option InfixRule := none
  /-- The power that the infix rule was given; `power` may be higher. -/
  infixPower : BindingPower := .none
  statementRule? : Option StatementRule := none
  constant? : Option Value := none
deriving DecidableEq

/-- The symbols by their ids, in order of first registration. -/
structure SymbolTable where
  symbols : List Symbol
deriving DecidableEq

namespace SymbolTable

def empty : SymbolTable := ⟨[]⟩

def lookup? (table : SymbolTable) (id : String) : Option Symbol :=
  table.symbols.find? (·.id == id)

def contains (table : SymbolTable) (id : String) : Bool := (table.lookup? id).isSome

def power (table : SymbolTable) (id : String) : BindingPower :=
  match table.lookup? id with
  | some symbol => symbol.power
  | none => .none

def updateIn (id : String) (change : Symbol → Symbol) : List Symbol → List Symbol
  | [] => [change { id }]
  | symbol :: rest =>
    if symbol.id = id then change symbol :: rest else symbol :: updateIn id change rest

def update (table : SymbolTable) (id : String) (change : Symbol → Symbol) : SymbolTable :=
  ⟨updateIn id change table.symbols⟩

/-- Makes sure that there is such a symbol and that it binds at least so tightly. -/
def register (table : SymbolTable) (id : String) (power : BindingPower) : SymbolTable :=
  table.update id fun symbol => { symbol with power := max symbol.power power }

def addPrefix (table : SymbolTable) (id : String) (rule : PrefixRule) : SymbolTable :=
  (table.register id .none).update id fun symbol => { symbol with prefixRule? := some rule }

def addInfix (table : SymbolTable) (id : String) (power : BindingPower) (rule : InfixRule) :
    SymbolTable :=
  (table.register id power).update id fun symbol =>
    { symbol with infixRule? := some rule, infixPower := power }

def addStatement (table : SymbolTable) (id : String) (rule : StatementRule) : SymbolTable :=
  (table.register id .none).update id fun symbol => { symbol with statementRule? := some rule }

def addBinary (table : SymbolTable) (id : String) (power : BindingPower) : SymbolTable :=
  table.addInfix id power .binary

def addBinaryRight (table : SymbolTable) (id : String) (power : BindingPower) : SymbolTable :=
  table.addInfix id power .binaryRight

def addUnary (table : SymbolTable) (id : String) : SymbolTable := table.addPrefix id .unary

def addAssignment (table : SymbolTable) (id : String) : SymbolTable :=
  table.addInfix id .assignment .assignment

def addConstant (table : SymbolTable) (id : String) (value : Value) : SymbolTable :=
  (table.addPrefix id .constant).update id fun symbol => { symbol with constant? := some value }

end SymbolTable

end ScriptTree
