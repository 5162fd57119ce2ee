import ScriptTree.Tree

/-!
# Walking a tree

`Node.walk` visits a node before its children, and those in the order of the script.
-/

namespace ScriptTree

theorem Statements.sizeOf_lt_of_mem {node : Node} {body : Statements} (h : node ∈ body.toList) :
    sizeOf node < sizeOf body := by
  cases body with
  | empty => simp [toList] at h
  | single n => simp [toList] at h; subst h; simp
  | sequence ns =>
    have := List.sizeOf_lt_of_mem h
    simp only [sequence.sizeOf_spec, toList] at *
    omega

theorem Form.sizeOf_lt_of_mem {child : Node} {form : Form} (h : child ∈ form.children) :
    sizeOf child < sizeOf form := by
  have list {nodes : List Node} (h : child ∈ nodes) := List.sizeOf_lt_of_mem h
  have body {body : Statements} (h : child ∈ body.toList) := Statements.sizeOf_lt_of_mem h
  cases form <;> simp only [children, List.mem_append, List.mem_cons, List.not_mem_nil,
    Option.mem_toList, or_false] at h <;> grind [Form, Option]

theorem Node.sizeOf_lt_of_mem {child node : Node} (h : child ∈ node.children) :
    sizeOf child < sizeOf node := by
  obtain ⟨id, key, position, form⟩ := node
  have : sizeOf child < sizeOf form := Form.sizeOf_lt_of_mem h
  rw [mk.sizeOf_spec]
  omega

/-- The nodes of a tree with their depths, each before its children. -/
def Node.walk (depth : Nat) (node : Node) : List (Nat × Node) :=
  (depth, node) :: node.children.attach.flatMap fun ⟨child, _⟩ => child.walk (depth + 1)
termination_by node
decreasing_by exact Node.sizeOf_lt_of_mem ‹_›

def Statements.walk (body : Statements) : List (Nat × Node) := body.toList.flatMap (Node.walk 0)

end ScriptTree
