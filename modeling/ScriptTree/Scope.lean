import ScriptTree.Symbol
import ScriptTree.SyntaxError

/-!
# Scopes

A scope holds the names that were declared as variables in it, and the words that were used as
keywords in it. A chain of scopes runs from the innermost to the global one, which is always there.
The nearest scope that knows a word decides whether it is a variable or a keyword.
-/

namespace ScriptTree

structure Definition where
  node : Node
  /-- The name was used as a keyword and is none of a variable. -/
  isReserved : Bool

structure Scope where
  definitions : List (String × Definition)

namespace Scope

def empty : Scope := ⟨[]⟩

def lookup? (scope : Scope) (name : String) : Option Definition :=
  scope.definitions.lookup name

def insert (scope : Scope) (name : String) (definition : Definition) : Scope :=
  ⟨(name, definition) :: scope.definitions⟩

end Scope

structure ScopeChain where
  /-- The scopes inside the global one, innermost first. -/
  nested : List Scope
  global : Scope

namespace ScopeChain

def empty : ScopeChain := ⟨[], .empty⟩

def depth (chain : ScopeChain) : Nat := chain.nested.length + 1

def push (chain : ScopeChain) : ScopeChain := { chain with nested := .empty :: chain.nested }

/-- Closes the innermost scope; the global one stays. -/
def pop (chain : ScopeChain) : ScopeChain := { chain with nested := chain.nested.tail }

def current (chain : ScopeChain) : Scope := chain.nested.headD chain.global

def toList (chain : ScopeChain) : List Scope := chain.nested ++ [chain.global]

def lookup? (chain : ScopeChain) (name : String) : Option Definition :=
  chain.toList.findSome? (·.lookup? name)

def isReserved (chain : ScopeChain) (name : String) : Bool :=
  (chain.lookup? name).any (·.isReserved)

def insert (chain : ScopeChain) (name : String) (definition : Definition) : ScopeChain :=
  match chain.nested with
  | [] => { chain with global := chain.global.insert name definition }
  | scope :: outer => { chain with nested := scope.insert name definition :: outer }

/-- Declares the name of a node as a variable of the innermost scope, which must not know it yet.
Outer scopes are not asked, so a variable may hide theirs. -/
def define (chain : ScopeChain) (node : Node) : Except SyntaxError ScopeChain :=
  match node.form with
  | .name name =>
    match chain.current.lookup? name with
    | none => .ok (chain.insert name ⟨node, false⟩)
    | some known =>
      .error ⟨if known.isReserved then .alreadyReserved name else .alreadyDefined name,
        node.position⟩
  | _ => .error ⟨.noVariableName node.id, node.position⟩

/-- Marks the name of a node as a keyword of the innermost scope. There is nothing to do for other
nodes, and for a name that counts as a keyword already. -/
def reserve (chain : ScopeChain) (node : Node) : Except SyntaxError ScopeChain :=
  match node.form with
  | .name name =>
    if chain.isReserved name then .ok chain
    else if (chain.current.lookup? name).isSome then
      .error ⟨.alreadyDefined name, node.position⟩
    else .ok (chain.insert name ⟨node, true⟩)
  | _ => .ok chain

/-- The symbol that a word is read as: its own if the table has one and the word is not declared as
a variable, else that of plain names. -/
def resolve (chain : ScopeChain) (table : SymbolTable) (name : String) : String :=
  if table.contains name && (chain.lookup? name).all (·.isReserved) then name else nameId

end ScopeChain

end ScriptTree
