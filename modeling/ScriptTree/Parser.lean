import ScriptTree.Scope
import ScriptTree.Token

/-!
# The state of a parse

A parser looks at one token ahead, which it has already resolved to a symbol, and keeps the tokens
behind it and the open scopes. `Parse` is a computation on that state that may fail; what it changed
before it failed stays changed. All changes are made by the few `Actions`.
-/

namespace ScriptTree

structure SymbolToken where
  id : String
  token : Token

namespace SymbolToken

def isName (t : SymbolToken) : Bool := t.token.isName

def value (t : SymbolToken) : String := t.token.value

def position (t : SymbolToken) : Position := t.token.position

def asName (t : SymbolToken) : Node := Node.ofName t.value t.position

def node (t : SymbolToken) (form : Form) : Node := Node.ofForm t.id form t.position

def error (t : SymbolToken) (cause : Cause) : SyntaxError := ⟨cause, t.position⟩

end SymbolToken

structure Parser where
  unread : List Token
  finish : Position
  current : SymbolToken
  scopes : ScopeChain
  moves : Nat

def Parser.start (tokens : List Token) : Parser where
  unread := tokens
  finish := (tokens.getLast?.map (·.position)).getD Position.start
  current := ⟨endId, Token.ending Position.start⟩
  scopes := .empty
  moves := 0

def Parse (α : Type) : Type := Parser → Except SyntaxError α × Parser

namespace Parse

instance : Monad Parse where
  pure a := fun p => (.ok a, p)
  bind x f := fun p =>
    match x p with
    | (.ok a, p) => f a p
    | (.error e, p) => (.error e, p)

def fail {α : Type} (error : SyntaxError) : Parse α := fun p => (.error error, p)

def current : Parse SymbolToken := fun p => (.ok p.current, p)

def currentIs (id : String) : Parse Bool := fun p => (.ok (p.current.id == id), p)

/-- Changes the scopes, or leaves them if that fails. -/
def changeScopes (change : ScopeChain → Except SyntaxError ScopeChain) : Parse Unit := fun p =>
  match change p.scopes with
  | .ok scopes => (.ok (), { p with scopes })
  | .error e => (.error e, p)

variable {α β : Type}

@[simp] theorem pure_apply (a : α) (p : Parser) : (pure a : Parse α) p = (.ok a, p) := rfl

theorem bind_apply (x : Parse α) (f : α → Parse β) (p : Parser) :
    (x >>= f) p = match x p with
      | (.ok a, p) => f a p
      | (.error e, p) => (.error e, p) := rfl

@[simp] theorem fail_apply (e : SyntaxError) (p : Parser) :
    (fail e : Parse α) p = (.error e, p) := rfl

@[simp] theorem current_apply (p : Parser) : current p = (.ok p.current, p) := rfl

@[simp] theorem currentIs_apply (id : String) (p : Parser) :
    currentIs id p = (.ok (p.current.id == id), p) := rfl

end Parse

/-- The symbol that a token is read as in the given scopes. Only the last token may be one of the
end. -/
def classify (table : SymbolTable) (scopes : ScopeChain) (isLast : Bool) (token : Token) :
    Except SyntaxError String :=
  match token.kind with
  | .name => .ok (scopes.resolve table token.value)
  | .operator =>
    if table.contains token.value then .ok token.value
    else .error ⟨.unknownOperator token.value, token.position⟩
  | .string | .number => .ok literalId
  | .ending =>
    if isLast then .ok endId else .error ⟨.misplacedToken TokenKind.ending.text, token.position⟩

/-- The steps in which a parse changes its state. -/
structure Actions where
  advance : Parse SymbolToken
  /-- Moves on by a token that is taken as it is spelled, whatever symbol it is: the name of a
  property or the key of an entry. -/
  label : Parse SymbolToken
  define : SymbolToken → Parse Node
  reserve : SymbolToken → Parse Unit
  openScope : Parse Unit
  closeScope : Parse Unit

namespace Actions

/-- Moves on. The next token is taken even if it cannot be resolved; behind the last one there are
always further ends. -/
def moveOn (table : SymbolTable) : Parse SymbolToken := fun p =>
  match p.unread with
  | [] =>
    (.ok p.current, { p with current := ⟨endId, Token.ending p.finish⟩, moves := p.moves + 1 })
  | token :: unread =>
    match classify table p.scopes unread.isEmpty token with
    | .ok id => (.ok p.current, { p with unread, current := ⟨id, token⟩, moves := p.moves + 1 })
    | .error e => (.error e, { p with unread, moves := p.moves + 1 })

def standard (table : SymbolTable) : Actions where
  advance := moveOn table
  label := moveOn table
  define t := do
    Parse.changeScopes (·.define t.asName)
    pure t.asName
  reserve t :=
    if t.isName then Parse.changeScopes (·.reserve t.asName) else pure ()
  openScope := Parse.changeScopes fun chain => .ok chain.push
  closeScope := Parse.changeScopes fun chain => .ok chain.pop

variable (act : Actions)

def expect (id : String) : Parse SymbolToken := do
  let current ← Parse.current
  if current.id = id then act.advance
  else Parse.fail (current.error (.expected id current.value))

/-- Moves over the symbol that ends a scope. The scope is closed first, so that the next token is
resolved outside it. -/
def expectScopeEnd (id : String) : Parse SymbolToken := do
  let current ← Parse.current
  if current.id = id then
    act.closeScope
    act.advance
  else Parse.fail (current.error (.expected id current.value))

end Actions

end ScriptTree
