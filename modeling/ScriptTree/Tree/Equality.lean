import ScriptTree.Tree

/-!
# Equality of trees

Two trees are the same if they differ in positions only. Numbers are compared as numbers, so a tree
that holds what is no number is not even the same as itself.
-/

namespace ScriptTree

mutual

def Node.same : Node → Node → Bool
  | .mk i k _ f, .mk j l _ g => i == j && k == l && f.same g

def Form.same : Form → Form → Bool
  | .literal v, .literal w => v.equal w
  | .name s, .name t => s == t
  | .self, .self => true
  | .unary a, .unary b => a.same b
  | .array as, .array bs => sameNodes as bs
  | .object as, .object bs => sameNodes as bs
  | .binary a b, .binary c d => a.same c && b.same d
  | .assignment a b, .assignment c d => a.same c && b.same d
  | .declaration a b, .declaration c d => a.same c && b.same d
  | .member a b, .member c d => a.same c && b.same d
  | .index a b, .index c d => a.same c && b.same d
  | .call a as, .call b bs => a.same b && sameNodes as bs
  | .ternary a b c, .ternary d e f => a.same d && b.same e && c.same f
  | .block s, .block t => s.same t
  | .whileLoop a s, .whileLoop b t => a.same b && s.same t
  | .ifElse a s t, .ifElse b u v => a.same b && s.same u && t.same v
  | .breakOut, .breakOut => true
  | .returnWith a, .returnWith b => sameOptional a b
  | .function m as s, .function n bs t => m == n && sameNodes as bs && s.same t
  | _, _ => false

/-- Bodies are the same only if their shapes are. -/
def Statements.same : Statements → Statements → Bool
  | .empty, .empty => true
  | .single a, .single b => a.same b
  | .sequence as, .sequence bs => sameNodes as bs
  | _, _ => false

def sameNodes : List Node → List Node → Bool
  | [], [] => true
  | a :: as, b :: bs => a.same b && sameNodes as bs
  | _, _ => false

def sameOptional : Option Node → Option Node → Bool
  | none, none => true
  | some a, some b => a.same b
  | _, _ => false

end

end ScriptTree
