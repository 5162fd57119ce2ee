import ScriptTree.Tree

/-!
# Outlines

An outline shows a tree with one node on a line, indented by depth. Lists of nodes that play
different parts under one node, such as the condition and the body of a loop, are told apart by
labels, which have lines of their own.
-/

namespace ScriptTree

inductive OutlineItem where
  | node (node : Node)
  /-- The nodes on the lines below, one step deeper, play a part. -/
  | label (text : String) (isEmpty : Bool)

namespace OutlineItem

def detail (node : Node) : String :=
  match node.form with
  | .literal value => if node.id = literalId then " " ++ value.text else ""
  | .name text => " " ++ text
  | .function (some name) _ _ => " " ++ name
  | _ => ""

def text : OutlineItem → String
  | node n =>
    let key := match n.key with
      | some key => " key=" ++ quoted key
      | none => ""
    n.arity.text ++ " " ++ n.id ++ detail n ++ key ++ " @" ++ n.position.text
  | label text isEmpty => "[" ++ text ++ (if isEmpty then ": none]" else "]")

end OutlineItem

abbrev OutlineLine := Nat × OutlineItem

def indentation (depth : Nat) : String := String.ofList (List.replicate (2 * depth) ' ')

def OutlineLine.text : OutlineLine → String
  | (depth, item) => indentation depth ++ item.text ++ "\n"

mutual

def Node.outline (depth : Nat) : Node → List OutlineLine
  | node@(.mk _ _ _ form) => (depth, .node node) :: form.outline (depth + 1)

def Form.outline (depth : Nat) : Form → List OutlineLine
  | .literal _ | .name _ | .self | .breakOut => []
  | .unary a => a.outline depth
  | .array nodes => (depth, .label "elements" nodes.isEmpty) :: outlineNodes (depth + 1) nodes
  | .object nodes => (depth, .label "entries" nodes.isEmpty) :: outlineNodes (depth + 1) nodes
  | .binary a b | .assignment a b | .declaration a b | .member a b | .index a b =>
    a.outline depth ++ b.outline depth
  | .call a nodes =>
    a.outline depth ++
      (depth, .label "arguments" nodes.isEmpty) :: outlineNodes (depth + 1) nodes
  | .ternary a b c => a.outline depth ++ b.outline depth ++ c.outline depth
  | .block body => body.outlineAs depth "body"
  | .whileLoop a body => a.outline depth ++ body.outlineAs depth "body"
  | .ifElse a s t =>
    a.outline depth ++ s.outlineAs depth "then" ++
      (if t.isEmpty then [] else t.outlineAs depth "else")
  | .returnWith none => []
  | .returnWith (some a) => a.outline depth
  | .function _ nodes body =>
    (depth, .label "parameters" nodes.isEmpty) :: outlineNodes (depth + 1) nodes ++
      body.outlineAs depth "body"

def Statements.outlineAs (depth : Nat) (label : String) : Statements → List OutlineLine
  | .empty => [(depth, .label label true)]
  | .single a => (depth, .label label false) :: a.outline (depth + 1)
  | .sequence nodes => (depth, .label label nodes.isEmpty) :: outlineNodes (depth + 1) nodes

def outlineNodes (depth : Nat) : List Node → List OutlineLine
  | [] => []
  | a :: rest => a.outline depth ++ outlineNodes depth rest

end

def Statements.outline (script : Statements) : String :=
  if script.isEmpty then "<empty program>\n"
  else String.join ((outlineNodes 0 script.toList).map OutlineLine.text)

end ScriptTree
