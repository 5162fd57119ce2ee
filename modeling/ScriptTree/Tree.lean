import ScriptTree.Number
import ScriptTree.Position
import ScriptTree.Text.Quoted

/-!
# Syntax trees

A node of the tree is made by a symbol of the script, whose id it keeps, and has one of a fixed set of
forms. The statements of a body are none, a single one, or a sequence.
-/

namespace ScriptTree

abbrev nameId : String := "(name)"

abbrev literalId : String := "(literal)"

inductive Value where
  | number (value : Number)
  | string (value : String)
  | bool (value : Bool)
  | null
deriving DecidableEq

namespace Value

def text : Value → String
  | number n => n.text
  | string s => quoted s
  | bool b => if b then "true" else "false"
  | null => "null"

def equal : Value → Value → Bool
  | number m, number n => m == n
  | string s, string t => s == t
  | bool a, bool b => a == b
  | null, null => true
  | _, _ => false

end Value

mutual

inductive Node where
  /-- `id` is the symbol that the node was made by, `key` the name of an entry of an object. -/
  | mk (id : String) (key : Option String) (position : Position) (form : Form)

inductive Form where
  | literal (value : Value)
  | name (text : String)
  | self
  | unary (operand : Node)
  | array (items : List Node)
  | object (entries : List Node)
  | binary (left right : Node)
  | assignment (target value : Node)
  | declaration (name value : Node)
  | member (object property : Node)
  | index (object index : Node)
  | call (callee : Node) (arguments : List Node)
  | ternary (condition consequent alternative : Node)
  | block (body : Statements)
  | whileLoop (condition : Node) (body : Statements)
  | ifElse (condition : Node) (consequent alternative : Statements)
  | breakOut
  | returnWith (value : Option Node)
  | function (name : Option String) (parameters : List Node) (body : Statements)

inductive Statements where
  | empty
  | single (node : Node)
  | sequence (nodes : List Node)

end

inductive Arity where
  | literal
  | name
  | self
  | unary
  | binary
  | ternary
  | statement
  | function
deriving DecidableEq

def Arity.text : Arity → String
  | .literal => "literal"
  | .name => "name"
  | .self => "this"
  | .unary => "unary"
  | .binary => "binary"
  | .ternary => "ternary"
  | .statement => "statement"
  | .function => "function"

namespace Statements

def toList : Statements → List Node
  | empty => []
  | single node => [node]
  | sequence nodes => nodes

/-- The shape that a list of statements has of itself. -/
def ofList : List Node → Statements
  | [] => empty
  | [node] => single node
  | nodes => sequence nodes

/-- Whether there is no statement by shape; a sequence counts as some, also one of none. -/
def isEmpty : Statements → Bool
  | empty => true
  | _ => false

def single? : Statements → Option Node
  | single node => some node
  | _ => none

@[simp] theorem toList_ofList (nodes : List Node) : (ofList nodes).toList = nodes := by
  match nodes with
  | [] | [_] | _ :: _ :: _ => rfl

end Statements

namespace Form

def arity : Form → Arity
  | literal _ => .literal
  | name _ => .name
  | self => .self
  | unary _ | array _ | object _ => .unary
  | binary .. | assignment .. | declaration .. | member .. | index .. | call .. => .binary
  | ternary .. => .ternary
  | block _ | whileLoop .. | ifElse .. | breakOut | returnWith _ => .statement
  | function .. => .function

def children : Form → List Node
  | literal _ | name _ | self | breakOut => []
  | unary operand => [operand]
  | array nodes | object nodes => nodes
  | binary a b | assignment a b | declaration a b | member a b | index a b => [a, b]
  | call callee arguments => callee :: arguments
  | ternary a b c => [a, b, c]
  | block body => body.toList
  | whileLoop condition body => condition :: body.toList
  | ifElse condition consequent alternative =>
    condition :: (consequent.toList ++ alternative.toList)
  | returnWith value => value.toList
  | function _ parameters body => parameters ++ body.toList

def isAssignable : Form → Bool
  | name _ | member .. | index .. => true
  | _ => false

def isCallable : Form → Bool
  | name _ | function .. | member .. | index .. | call .. => true
  | _ => false

def isAssignment : Form → Bool
  | assignment .. => true
  | _ => false

def isCall : Form → Bool
  | call .. => true
  | _ => false

end Form

namespace Node

def id : Node → String
  | mk id _ _ _ => id

def key : Node → Option String
  | mk _ key _ _ => key

def position : Node → Position
  | mk _ _ position _ => position

def form : Node → Form
  | mk _ _ _ form => form

def ofForm (id : String) (form : Form) (position : Position) : Node := mk id none position form

def ofName (text : String) (position : Position) : Node := ofForm nameId (.name text) position

def ofValue (value : Value) (position : Position) : Node :=
  ofForm literalId (.literal value) position

def withKey (key : String) : Node → Node
  | mk id _ position form => mk id (some key) position form

def arity (node : Node) : Arity := node.form.arity

def children (node : Node) : List Node := node.form.children

end Node

end ScriptTree
