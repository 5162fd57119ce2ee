import Mathlib.Data.List.Forall2
import ScriptTree.Proofs.Bare
import ScriptTree.Proofs.TextLines
import ScriptTree.Tree.Outline

/-!
# Outlines, line by line

An outline has one line for each node of a tree, in the order in which the tree is walked, and between
them lines in brackets that head groups of nodes. A line is indented by the nodes and the groups around
its node (`lines_of_outline`).

The outline goes down a tree form by form. In all forms alike, some children stand on their own and the
others behind them in groups (`Form.children_eq_append`), and so they are outlined (`Form.outline_eq`).
-/

namespace ScriptTree

/-! ## Groups -/

def groupLabels : List String :=
  ["elements", "entries", "arguments", "parameters", "body", "then", "else"]

namespace Form

def loose : Form → List Node
  | array _ | object _ | block _ | function .. => []
  | call a _ | whileLoop a _ | ifElse a _ _ => [a]
  | form => form.children

def groups : Form → List (String × List Node)
  | array nodes => [("elements", nodes)]
  | object nodes => [("entries", nodes)]
  | call _ nodes => [("arguments", nodes)]
  | block body | whileLoop _ body => [("body", body.toList)]
  | ifElse _ s t => ("then", s.toList) :: if t.isEmpty then [] else [("else", t.toList)]
  | function _ nodes body => [("parameters", nodes), ("body", body.toList)]
  | _ => []

def grouped (form : Form) : List Node := form.groups.flatMap Prod.snd

theorem mem_groupLabels {form : Form} {group : String × List Node} (h : group ∈ form.groups) :
    group.1 ∈ groupLabels := by
  revert group
  cases form with
  | ifElse a s t => cases t <;> simp [groups, groupLabels, Statements.isEmpty]
  | _ => simp [groups, groupLabels]

theorem children_eq_append (form : Form) : form.children = form.loose ++ form.grouped := by
  cases form with
  | ifElse a s t => cases t <;> simp [children, loose, grouped, groups, Statements.isEmpty,
      Statements.toList]
  | _ => simp [children, loose, grouped, groups]

end Form

/-- A node of a tree, with how many nodes and how many groups are around it. -/
structure Enclosed where
  nodes : Nat
  groups : Nat
  node : Node

theorem Node.mem_children_of_loose {child node : Node} (h : child ∈ node.form.loose) :
    child ∈ node.children := by
  rw [children, Form.children_eq_append]
  exact List.mem_append_left _ h

theorem Node.mem_children_of_grouped {child node : Node} (h : child ∈ node.form.grouped) :
    child ∈ node.children := by
  rw [children, Form.children_eq_append]
  exact List.mem_append_right _ h

def Node.enclosed (nodes groups : Nat) (node : Node) : List Enclosed :=
  ⟨nodes, groups, node⟩ ::
    ((node.form.loose.attach.flatMap fun ⟨child, _⟩ => child.enclosed (nodes + 1) groups) ++
      node.form.grouped.attach.flatMap fun ⟨child, _⟩ => child.enclosed (nodes + 1) (groups + 1))
termination_by node
decreasing_by
  · exact Node.sizeOf_lt_of_mem (mem_children_of_loose ‹_›)
  · exact Node.sizeOf_lt_of_mem (mem_children_of_grouped ‹_›)

def Statements.enclosed (script : Statements) : List Enclosed :=
  script.toList.flatMap (Node.enclosed 0 0)

theorem Node.enclosed_eq (nodes groups : Nat) (node : Node) : node.enclosed nodes groups =
    ⟨nodes, groups, node⟩ :: (node.form.loose.flatMap (enclosed (nodes + 1) groups) ++
      node.form.grouped.flatMap (enclosed (nodes + 1) (groups + 1))) := by
  rw [enclosed]
  simp

theorem Node.map_enclosed (nodes groups : Nat) (node : Node) :
    (node.enclosed nodes groups).map (fun e => (e.nodes, e.node)) = node.walk nodes := by
  have hloose : ∀ child ∈ node.form.loose,
      (child.enclosed (nodes + 1) groups).map (fun e => (e.nodes, e.node)) = child.walk (nodes + 1) :=
    fun child _ => child.map_enclosed _ _
  have hgrouped : ∀ child ∈ node.form.grouped,
      (child.enclosed (nodes + 1) (groups + 1)).map (fun e => (e.nodes, e.node)) =
        child.walk (nodes + 1) := fun child _ => child.map_enclosed _ _
  rw [enclosed_eq, walk_eq, children, Form.children_eq_append, List.map_cons, List.map_append,
    List.map_flatMap, List.map_flatMap, List.flatMap_congr hloose, List.flatMap_congr hgrouped,
    List.flatMap_append]
termination_by node
decreasing_by
  · exact Node.sizeOf_lt_of_mem (mem_children_of_loose ‹_›)
  · exact Node.sizeOf_lt_of_mem (mem_children_of_grouped ‹_›)

/-! ## Outlines of groups -/

theorem outlineNodes_eq (depth : Nat) (nodes : List Node) :
    outlineNodes depth nodes = nodes.flatMap (Node.outline depth) := by
  induction nodes with
  | nil => rfl
  | cons a rest ih => rw [outlineNodes, ih, List.flatMap_cons]

def groupOutline (depth : Nat) (group : String × List Node) : List OutlineLine :=
  (depth, .label group.1 group.2.isEmpty) :: group.2.flatMap (Node.outline (depth + 1))

theorem Statements.outlineAs_eq (depth : Nat) (label : String) (body : Statements) :
    body.outlineAs depth label = groupOutline depth (label, body.toList) := by
  cases body <;> simp [outlineAs, groupOutline, toList, outlineNodes_eq]

theorem Form.outline_eq (depth : Nat) (form : Form) : form.outline depth =
    form.loose.flatMap (Node.outline depth) ++ form.groups.flatMap (groupOutline depth) := by
  cases form with
  | ifElse a s t => cases t <;> simp [outline, loose, groups, Statements.outlineAs_eq,
      Statements.isEmpty]
  | returnWith value => cases value <;> simp [outline, loose, groups, children]
  | _ => simp [outline, loose, groups, children, outlineNodes_eq, groupOutline,
      Statements.outlineAs_eq]

theorem Node.outline_eq (depth : Nat) (node : Node) : node.outline depth =
    (depth, .node node) :: (node.form.loose.flatMap (outline (depth + 1)) ++
      node.form.groups.flatMap (groupOutline (depth + 1))) := by
  obtain ⟨id, key, position, form⟩ := node
  rw [outline, Form.outline_eq]
  rfl

def OutlineLine.node? : OutlineLine → Option (Nat × Node)
  | (depth, .node node) => some (depth, node)
  | (_, .label ..) => none

open OutlineLine in
theorem filterMap_groups (depth : Nat) (groups : List (String × List Node)) :
    (groups.flatMap (groupOutline depth)).filterMap node? =
      (groups.flatMap Prod.snd).flatMap fun child => (child.outline (depth + 1)).filterMap node? := by
  rw [List.filterMap_flatMap, List.flatMap_assoc]
  refine List.flatMap_congr fun group _ => ?_
  rw [groupOutline, List.filterMap_cons_none rfl, List.filterMap_flatMap]

/-- Each node has its line, as deep as there are nodes and groups around it. -/
theorem Node.filterMap_outline (nodes groups : Nat) (node : Node) :
    (node.outline (nodes + groups)).filterMap OutlineLine.node? =
      (node.enclosed nodes groups).map fun e => (e.nodes + e.groups, e.node) := by
  have hloose : ∀ child ∈ node.form.loose,
      (child.outline (nodes + groups + 1)).filterMap OutlineLine.node? =
        (child.enclosed (nodes + 1) groups).map fun e => (e.nodes + e.groups, e.node) := by
    intro child hm
    -- one step deeper is one node more around
    rw [Nat.add_right_comm, child.filterMap_outline]
  have hgrouped : ∀ child ∈ node.form.grouped,
      (child.outline (nodes + groups + 1 + 1)).filterMap OutlineLine.node? =
        (child.enclosed (nodes + 1) (groups + 1)).map fun e => (e.nodes + e.groups, e.node) := by
    intro child hm
    -- and two steps are a node and a group
    rw [Nat.add_right_comm nodes, Nat.add_assoc (nodes + 1), child.filterMap_outline]
  have hself : OutlineLine.node? (nodes + groups, .node node) = some (nodes + groups, node) := rfl
  rw [outline_eq, enclosed_eq, List.filterMap_cons_some hself, List.filterMap_append,
    List.filterMap_flatMap, filterMap_groups, List.flatMap_congr hloose, ← Form.grouped,
    List.flatMap_congr hgrouped, List.map_cons, List.map_append, List.map_flatMap, List.map_flatMap]
termination_by node
decreasing_by
  · exact Node.sizeOf_lt_of_mem (mem_children_of_loose ‹_›)
  · exact Node.sizeOf_lt_of_mem (mem_children_of_grouped ‹_›)

/-! ## What is told on one line -/

theorem not_mem_hexDigits (n : Nat) : '\n' ∉ hexDigits n := by
  have hdigit : ∀ n < 16, '\n' ∉ [n.digitChar] := by decide
  unfold hexDigits
  induction n using Nat.strongRecOn with
  | ind n ih =>
    by_cases h : n < 16
    · rw [Nat.toDigits_of_lt_base h]
      exact hdigit n h
    · rw [Nat.toDigits_of_base_le (by decide) (Nat.le_of_not_lt h), List.mem_append, not_or]
      exact ⟨ih (n / 16) (by omega), hdigit _ (Nat.mod_lt n (by decide))⟩

theorem not_mem_quotedChar (c : Char) : '\n' ∉ quotedChar c := by
  by_cases hc : c = '\n'
  · subst hc
    decide
  · unfold quotedChar
    split_ifs <;> simp [not_mem_hexDigits, Ne.symm hc]

theorem not_mem_quoted (text : String) : '\n' ∉ (quoted text).toList := by
  simp [quoted, not_mem_quotedChar]

theorem Decimal.not_mem_plain (d : Decimal) : '\n' ∉ d.plain := by
  obtain ⟨whole, fraction, hplain, hw, hf, -⟩ := d.plain_eq
  rw [hplain, List.mem_append, not_or]
  refine ⟨not_mem_of_isDigits hw, ?_⟩
  rcases hf with rfl | ⟨digits, hdigits, rfl⟩
  · exact List.not_mem_nil
  · simp [not_mem_of_isDigits hdigits]

theorem Number.not_mem_text (n : Number) : '\n' ∉ n.text.toList := by
  cases n with
  | nan => decide
  | infinity negative => cases negative <;> decide
  | finite negative rank =>
    have hplain := (shortest rank).not_mem_plain
    cases negative <;> simp [text, hplain]

theorem Value.not_mem_text (value : Value) : '\n' ∉ value.text.toList := by
  cases value with
  | number n => exact n.not_mem_text
  | string s => exact not_mem_quoted s
  | bool b => cases b <;> decide
  | null => decide

theorem Position.not_mem_text (p : Position) : '\n' ∉ p.text.toList := by
  simp only [text, String.toList_append, List.mem_append, not_or]
  exact ⟨⟨not_mem_repr _, by decide⟩, not_mem_repr _⟩

def Node.texts (node : Node) : List String :=
  node.id :: match node.form with
    | .name text => [text]
    | .function (some name) _ _ => [name]
    | _ => []

def Node.FitsOnLine (node : Node) : Prop := ∀ text ∈ node.texts, '\n' ∉ text.toList

instance (node : Node) : Decidable node.FitsOnLine :=
  inferInstanceAs (Decidable (∀ text ∈ node.texts, '\n' ∉ text.toList))

namespace OutlineItem

theorem not_mem_detail {node : Node} (h : node.FitsOnLine) : '\n' ∉ (detail node).toList := by
  unfold detail
  unfold Node.FitsOnLine Node.texts at h
  split <;> rename_i hf <;> simp only [hf] at h
  · split <;> simp [Value.not_mem_text]
  · simpa using h _ (.tail _ (.head _))
  · simpa using h _ (.tail _ (.head _))
  · exact List.not_mem_nil

theorem not_mem_node {node : Node} (h : node.FitsOnLine) : '\n' ∉ (text (.node node)).toList := by
  have harity : '\n' ∉ node.arity.text.toList := by cases node.arity <;> decide
  have hid : '\n' ∉ node.id.toList := h _ (.head _)
  simp only [text, String.toList_append, List.mem_append, not_or]
  refine ⟨⟨⟨⟨⟨⟨harity, by decide⟩, hid⟩, not_mem_detail h⟩, ?_⟩, by decide⟩, node.position.not_mem_text⟩
  split <;> simp [not_mem_quoted]

theorem not_mem_label {form : Form} {group : String × List Node} (h : group ∈ form.groups)
    (isEmpty : Bool) : '\n' ∉ (text (.label group.1 isEmpty)).toList := by
  have hall : ∀ label ∈ groupLabels, '\n' ∉ label.toList := by decide
  have hlabel := hall _ (Form.mem_groupLabels h)
  cases isEmpty <;> simp [text, hlabel]

end OutlineItem

theorem Node.not_mem_outline (depth : Nat) (node : Node) (h : node.Everywhere FitsOnLine) :
    ∀ line ∈ node.outline depth, '\n' ∉ line.2.text.toList := by
  obtain ⟨hself, hc⟩ := everywhere_iff.1 h
  have hloose : ∀ child ∈ node.form.loose, ∀ line ∈ child.outline (depth + 1),
      '\n' ∉ line.2.text.toList :=
    fun child hm => child.not_mem_outline _ (hc child (mem_children_of_loose hm))
  have hgrouped : ∀ child ∈ node.form.grouped, ∀ line ∈ child.outline (depth + 2),
      '\n' ∉ line.2.text.toList :=
    fun child hm => child.not_mem_outline _ (hc child (mem_children_of_grouped hm))
  intro line hl
  rw [outline_eq, List.mem_cons, List.mem_append, List.mem_flatMap, List.mem_flatMap] at hl
  rcases hl with rfl | ⟨child, hm, hl⟩ | ⟨group, hg, hl⟩
  · exact OutlineItem.not_mem_node hself
  · exact hloose child hm line hl
  · rw [groupOutline, List.mem_cons, List.mem_flatMap] at hl
    rcases hl with rfl | ⟨child, hm, hl⟩
    · exact OutlineItem.not_mem_label hg _
    · exact hgrouped child (List.mem_flatMap.2 ⟨group, hg, hm⟩) line hl
termination_by node
decreasing_by
  · exact Node.sizeOf_lt_of_mem (mem_children_of_loose ‹_›)
  · exact Node.sizeOf_lt_of_mem (mem_children_of_grouped ‹_›)

/-! ## The lines of the text -/

def OutlineLine.row (line : OutlineLine) : List Char := (indentation line.1 ++ line.2.text).toList

/-- Whether a line of a text heads a group: what it says starts with a bracket. -/
def isHeading (row : List Char) : Bool := (row.dropWhile (· == ' ')).head? == some '['

theorem OutlineLine.dropWhile_row (line : OutlineLine) :
    line.row.dropWhile (· == ' ') = line.2.text.toList.dropWhile (· == ' ') := by
  rw [row, String.toList_append, indentation, String.toList_ofList, List.dropWhile_append_of_pos]
  intro c hc
  rw [List.eq_of_mem_replicate hc]
  rfl

theorem Arity.head_text (arity : Arity) :
    ∃ c rest, arity.text.toList = c :: rest ∧ c ≠ ' ' ∧ c ≠ '[' := by
  cases arity <;> exact ⟨_, _, rfl, by decide, by decide⟩

theorem OutlineLine.isHeading_row (line : OutlineLine) : isHeading line.row = line.node?.isNone := by
  obtain ⟨depth, item⟩ := line
  rw [isHeading, dropWhile_row]
  cases item with
  | node node =>
    obtain ⟨c, rest, hc, hs, hb⟩ := node.arity.head_text
    simp [OutlineItem.text, hc, hs, hb, node?]
  | label text isEmpty => simp [OutlineItem.text, node?]

theorem OutlineLine.not_mem_row {line : OutlineLine} (h : '\n' ∉ line.2.text.toList) :
    '\n' ∉ line.row := by
  simp [row, indentation, h]

/-- The rows that head no group are those of nodes. -/
theorem filter_rows (lines : List OutlineLine) :
    (lines.map OutlineLine.row).filter (fun row => !isHeading row) =
      (lines.filterMap OutlineLine.node?).map fun line => OutlineLine.row (line.1, .node line.2) := by
  induction lines with
  | nil => rfl
  | cons line rest ih =>
    rw [List.map_cons, List.filter_cons, line.isHeading_row, ih]
    obtain ⟨depth, item⟩ := line
    cases item <;> rfl

theorem Statements.toList_outline {script : Statements} (h : script ≠ .empty) :
    script.outline.toList =
      ((script.toList.flatMap (Node.outline 0)).map OutlineLine.row).flatMap (· ++ ['\n']) := by
  have hempty : script.isEmpty = false := by
    cases script with
    | empty => exact absurd rfl h
    | _ => rfl
  rw [outline, hempty, if_neg Bool.false_ne_true, outlineNodes_eq, String.toList_join,
    List.flatMap_map, List.flatMap_map]
  refine List.flatMap_congr fun line _ => ?_
  rw [OutlineLine.text, OutlineLine.row, String.toList_append]
  rfl

/-- A row shows a node: two blanks for each node and each group around it, then its arity and its
symbol, and at the end its position. -/
def Enclosed.ShownBy (e : Enclosed) (row : List Char) : Prop :=
  ∃ details, row = List.replicate (2 * e.nodes + 2 * e.groups) ' ' ++
    (e.node.arity.text ++ " " ++ e.node.id).toList ++ details ++ (" @" ++ e.node.position.text).toList

theorem Enclosed.shownBy_row (e : Enclosed) :
    e.ShownBy (OutlineLine.row (e.nodes + e.groups, .node e.node)) := by
  unfold ShownBy
  rw [OutlineLine.row, OutlineItem.text, indentation, Nat.mul_add]
  simp only [String.toList_append, String.toList_ofList, List.append_assoc]
  exact ⟨_ ++ _, by rw [List.append_assoc]⟩

/-- **An outline shows each node once.** If no symbol and no name breaks a line, the lines of an outline
that head no group are one for each node, in the order of the walk, and each shows its node. -/
theorem lines_of_outline {script : Statements} (hs : script ≠ .empty)
    (h : ∀ visit ∈ script.walk, visit.2.FitsOnLine) :
    ∃ rows, script.outline.toList.splitOn '\n' = rows ++ [[]] ∧
      List.Forall₂ Enclosed.ShownBy script.enclosed (rows.filter fun row => !isHeading row) ∧
      script.enclosed.map (fun e => (e.nodes, e.node)) = script.walk := by
  let lines := script.toList.flatMap (Node.outline 0)
  have hrows : ∀ row ∈ lines.map OutlineLine.row, '\n' ∉ row := by
    intro row hr
    obtain ⟨line, hl, rfl⟩ := List.mem_map.1 hr
    obtain ⟨node, hm, hl⟩ := List.mem_flatMap.1 hl
    exact OutlineLine.not_mem_row (node.not_mem_outline 0 (Statements.forall_walk.1 h node hm) line hl)
  have hnodes : lines.filterMap OutlineLine.node? =
      script.enclosed.map fun e => (e.nodes + e.groups, e.node) := by
    rw [List.filterMap_flatMap, Statements.enclosed, List.map_flatMap]
    exact List.flatMap_congr fun node _ => node.filterMap_outline 0 0
  have hwalk : script.enclosed.map (fun e => (e.nodes, e.node)) = script.walk := by
    rw [Statements.enclosed, List.map_flatMap, Statements.walk]
    exact List.flatMap_congr fun node _ => node.map_enclosed 0 0
  refine ⟨lines.map OutlineLine.row, ?_, ?_, hwalk⟩
  · rw [Statements.toList_outline hs]
    exact splitOn_lines hrows
  · rw [filter_rows, hnodes, List.map_map, List.forall₂_map_right_iff, List.forall₂_same]
    exact fun e _ => e.shownBy_row

/-- A loop around a call that has an array as its argument. -/
theorem lines_of_outline_at_loop :
    let array := Node.ofForm "[" (.array [.ofName "x" ⟨1, 15⟩]) ⟨1, 14⟩
    let call := Node.ofForm "(" (.call (.ofName "f" ⟨1, 12⟩) [array]) ⟨1, 13⟩
    let loop := Node.ofForm "while" (.whileLoop (.ofName "x" ⟨1, 8⟩) (.single call)) ⟨1, 1⟩
    let script := Statements.single loop
    let rows := ["statement while @1:1", "  name (name) x @1:8", "  [body]", "    binary ( @1:13",
      "      name (name) f @1:12", "      [arguments]", "        unary [ @1:14", "          [elements]",
      "            name (name) x @1:15"].map String.toList
    script ≠ .empty ∧ (∀ visit ∈ script.walk, visit.2.FitsOnLine) ∧
      script.outline.toList.splitOn '\n' = rows ++ [[]] ∧
      script.enclosed = [⟨0, 0, loop⟩, ⟨1, 0, .ofName "x" ⟨1, 8⟩⟩, ⟨1, 1, call⟩,
        ⟨2, 1, .ofName "f" ⟨1, 12⟩⟩, ⟨2, 2, array⟩, ⟨3, 3, .ofName "x" ⟨1, 15⟩⟩] ∧
      List.Forall₂ Enclosed.ShownBy script.enclosed (rows.filter fun row => !isHeading row) := by
  intro array call loop script rows
  have hs : script ≠ .empty := nofun
  have hwalk : script.walk = [(0, loop), (1, .ofName "x" ⟨1, 8⟩), (1, call),
      (2, .ofName "f" ⟨1, 12⟩), (2, array), (3, .ofName "x" ⟨1, 15⟩)] := by
    simp [script, loop, call, array, Statements.walk, Statements.toList, Node.walk_eq, Node.children,
      Form.children, Node.form, Node.ofForm, Node.ofName]
  have henclosed : script.enclosed = [⟨0, 0, loop⟩, ⟨1, 0, .ofName "x" ⟨1, 8⟩⟩, ⟨1, 1, call⟩,
      ⟨2, 1, .ofName "f" ⟨1, 12⟩⟩, ⟨2, 2, array⟩, ⟨3, 3, .ofName "x" ⟨1, 15⟩⟩] := by
    simp [script, loop, call, array, Statements.enclosed, Statements.toList, Node.enclosed_eq,
      Form.loose, Form.grouped, Form.groups, Form.children, Node.form, Node.ofForm, Node.ofName]
  have hfits : ∀ visit ∈ script.walk, visit.2.FitsOnLine := by
    rw [hwalk]
    decide
  have hlines : (script.toList.flatMap (Node.outline 0)).map OutlineLine.row = rows := by
    decide +kernel
  have hrows : script.outline.toList.splitOn '\n' = rows ++ [[]] := by
    have hends : ∀ row ∈ rows, '\n' ∉ row := by decide +kernel
    rw [Statements.toList_outline hs, hlines, splitOn_lines hends]
  obtain ⟨shown, hshown, hnodes, -⟩ := lines_of_outline hs hfits
  have heq : shown = rows := List.append_cancel_right (hshown.symm.trans hrows)
  rw [heq] at hnodes
  exact ⟨hs, hfits, hrows, henclosed, hnodes⟩

end ScriptTree
