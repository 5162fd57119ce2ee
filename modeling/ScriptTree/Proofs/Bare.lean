import ScriptTree.Parser
import ScriptTree.Tree.Equality
import ScriptTree.Tree.Script
import ScriptTree.Tree.Walk

/-!
# Bare trees

A bare tree has every node at the start of the text. Two trees that have the same bare tree differ in
positions only; they are written alike and are the same as the same trees.
-/

namespace ScriptTree

mutual

def Node.bare : Node → Node
  | .mk id key _ form => .mk id key .start form.bare

def Form.bare : Form → Form
  | .literal value => .literal value
  | .name text => .name text
  | .self => .self
  | .unary a => .unary a.bare
  | .array nodes => .array (bareNodes nodes)
  | .object nodes => .object (bareNodes nodes)
  | .binary a b => .binary a.bare b.bare
  | .assignment a b => .assignment a.bare b.bare
  | .declaration a b => .declaration a.bare b.bare
  | .member a b => .member a.bare b.bare
  | .index a b => .index a.bare b.bare
  | .call a nodes => .call a.bare (bareNodes nodes)
  | .ternary a b c => .ternary a.bare b.bare c.bare
  | .block body => .block body.bare
  | .whileLoop a body => .whileLoop a.bare body.bare
  | .ifElse a s t => .ifElse a.bare s.bare t.bare
  | .breakOut => .breakOut
  | .returnWith value => .returnWith (bareOptional value)
  | .function name nodes body => .function name (bareNodes nodes) body.bare

def Statements.bare : Statements → Statements
  | .empty => .empty
  | .single a => .single a.bare
  | .sequence nodes => .sequence (bareNodes nodes)

def bareNodes : List Node → List Node
  | [] => []
  | a :: rest => a.bare :: bareNodes rest

def bareOptional : Option Node → Option Node
  | none => none
  | some a => some a.bare

end

def Node.plain (id : String) (form : Form) : Node := Node.ofForm id form .start

@[simp] theorem bareNodes_eq : ∀ nodes, bareNodes nodes = nodes.map Node.bare
  | [] => rfl
  | a :: rest => congrArg (a.bare :: ·) (bareNodes_eq rest)

@[simp] theorem bareOptional_eq : ∀ value, bareOptional value = value.map Node.bare
  | none => rfl
  | some _ => rfl

theorem SymbolToken.bare_node (t : SymbolToken) (form : Form) :
    (t.node form).bare = .plain t.id form.bare := rfl

theorem Node.bare_withKey (node : Node) (key : String) :
    (node.withKey key).bare = node.bare.withKey key := by
  cases node
  rfl

@[simp] theorem Node.form_bare (node : Node) : node.bare.form = node.form.bare := by
  cases node
  rfl

@[simp] theorem Form.isAssignable_bare (form : Form) : form.bare.isAssignable = form.isAssignable := by
  cases form <;> rfl

@[simp] theorem Form.isCallable_bare (form : Form) : form.bare.isCallable = form.isCallable := by
  cases form <;> rfl

@[simp] theorem Form.isAssignment_bare (form : Form) : form.bare.isAssignment = form.isAssignment := by
  cases form <;> rfl

@[simp] theorem Form.isCall_bare (form : Form) : form.bare.isCall = form.isCall := by
  cases form <;> rfl

theorem Node.flag_of_bare {a b : Node} (h : a.bare = b.bare) {flag : Form → Bool}
    (hflag : ∀ form, flag form.bare = flag form) : flag b.form = flag a.form := by
  rw [← hflag, ← form_bare, ← h, form_bare, hflag]

namespace Statements

theorem toList_single (node : Node) : (single node).toList = [node] := rfl

theorem toList_bare (body : Statements) : body.bare.toList = body.toList.map Node.bare := by
  cases body <;> simp [bare, toList]

theorem bare_ofList (nodes : List Node) : (ofList nodes).bare = ofList (nodes.map Node.bare) := by
  match nodes with
  | [] | [_] => rfl
  | _ :: _ :: _ => simp [ofList, bare]

theorem isEmpty_bare (body : Statements) : body.bare.isEmpty = body.isEmpty := by
  cases body <;> rfl

end Statements

theorem Form.children_bare (form : Form) : form.bare.children = form.children.map Node.bare := by
  cases form with
  | returnWith value => cases value <;> rfl
  | _ => simp [bare, children, Statements.toList_bare]

theorem Node.children_bare (node : Node) : node.bare.children = node.children.map Node.bare := by
  cases node
  exact Form.children_bare _

/-! ## What holds everywhere in a tree -/

theorem forall_mem_pair {α : Type} {P : α → Prop} {a b : α} (ha : P a) (hb : P b) : ∀ c ∈ [a, b], P c :=
  List.forall_mem_cons.2 ⟨ha, List.forall_mem_singleton.2 hb⟩

theorem Node.walk_eq (depth : Nat) (node : Node) :
    node.walk depth = (depth, node) :: node.children.flatMap (Node.walk (depth + 1)) := by
  rw [walk]
  simp

theorem Node.mem_walk_succ (node : Node) {depth : Nat} {below : Nat × Node}
    (h : below ∈ node.walk depth) : (below.1 + 1, below.2) ∈ node.walk (depth + 1) := by
  rw [walk_eq] at h ⊢
  rcases List.mem_cons.1 h with rfl | h
  · exact List.mem_cons_self ..
  · obtain ⟨child, hc, h⟩ := List.mem_flatMap.1 h
    exact List.mem_cons_of_mem _ (List.mem_flatMap.2 ⟨child, hc, mem_walk_succ child h⟩)
termination_by node
decreasing_by exact Node.sizeOf_lt_of_mem hc

def Node.Everywhere (P : Node → Prop) (node : Node) : Prop :=
  ∀ depth below, below ∈ node.walk depth → P below.2

theorem Node.everywhere_iff {P : Node → Prop} {node : Node} :
    node.Everywhere P ↔ P node ∧ ∀ child ∈ node.children, child.Everywhere P := by
  constructor
  · intro h
    refine ⟨h 0 (0, node) ?_, fun child hc depth below hb => ?_⟩
    · rw [walk_eq]
      exact List.mem_cons_self ..
    · refine h depth (below.1 + 1, below.2) ?_
      rw [walk_eq]
      exact List.mem_cons_of_mem _
        (List.mem_flatMap.2 ⟨child, hc, child.mem_walk_succ hb⟩)
  · rintro ⟨hp, hc⟩ depth below hb
    rw [walk_eq] at hb
    rcases List.mem_cons.1 hb with rfl | hb
    · exact hp
    · obtain ⟨child, hchild, hb⟩ := List.mem_flatMap.1 hb
      exact hc child hchild _ _ hb

theorem Node.everywhere_ofForm {P : Node → Prop} {id : String} {form : Form} {position : Position}
    (hc : form.children = []) :
    (Node.ofForm id form position).Everywhere P ↔ P (.ofForm id form position) := by
  refine everywhere_iff.trans (and_iff_left ?_)
  rw [show (Node.ofForm id form position).children = [] from hc]
  exact fun _ hm => (List.not_mem_nil hm).elim

theorem Node.everywhere_withKey {P : Node → Prop} {value : Node} {key : String}
    (hP : P (value.withKey key) ↔ P value) :
    (value.withKey key).Everywhere P ↔ value.Everywhere P := by
  rw [everywhere_iff, hP, everywhere_iff]
  obtain ⟨id, other, position, form⟩ := value
  exact Iff.rfl

theorem Node.everywhere_of_walk {P : Node → Prop} (depth : Nat) (node : Node)
    (h : ∀ visit ∈ node.walk depth, P visit.2) : node.Everywhere P := by
  rw [walk_eq] at h
  refine everywhere_iff.2 ⟨h _ (.head _), fun child hm => ?_⟩
  refine everywhere_of_walk (depth + 1) child fun visit hv => ?_
  exact h visit (.tail _ (List.mem_flatMap.2 ⟨child, hm, hv⟩))
termination_by node
decreasing_by exact Node.sizeOf_lt_of_mem hm

theorem Node.everywhere_map {P : Node → Prop} {g : Node → Node}
    (hchildren : ∀ node : Node, (g node).children = node.children.map g)
    (hP : ∀ node, P (g node) ↔ P node) (node : Node) : (g node).Everywhere P ↔ node.Everywhere P := by
  rw [everywhere_iff, everywhere_iff, hP, hchildren]
  refine and_congr_right fun _ => ?_
  simp only [List.forall_mem_map]
  exact forall₂_congr fun child hm => everywhere_map hchildren hP child
termination_by node
decreasing_by exact Node.sizeOf_lt_of_mem hm

theorem Statements.forall_walk {P : Node → Prop} {body : Statements} :
    (∀ visit ∈ body.walk, P visit.2) ↔ ∀ node ∈ body.toList, node.Everywhere P := by
  constructor
  · intro h node hm
    refine node.everywhere_of_walk 0 fun visit hv => h visit ?_
    exact List.mem_flatMap.2 ⟨node, hm, hv⟩
  · intro h visit hv
    obtain ⟨node, hm, hv⟩ := List.mem_flatMap.1 hv
    exact h node hm 0 visit hv

/-! ## Bare trees are the same -/

theorem sameNodes_of_bare {as : List Node}
    (ih : ∀ a ∈ as, ∀ b, a.bare = b.bare → a.same b = true) :
    ∀ bs, as.map Node.bare = bs.map Node.bare → sameNodes as bs = true := by
  induction as with
  | nil =>
    intro bs h
    cases bs with
    | nil => rw [sameNodes]
    | cons b bs => cases h
  | cons a as iha =>
    intro bs h
    cases bs with
    | nil => cases h
    | cons b bs =>
      obtain ⟨hab, hrest⟩ := List.cons.inj h
      rw [sameNodes, ih a (List.mem_cons_self ..) b hab,
        iha (fun c hc => ih c (List.mem_cons_of_mem a hc)) bs hrest]
      rfl

theorem Statements.same_of_bare {s t : Statements} (h : s.bare = t.bare)
    (ih : ∀ a ∈ s.toList, ∀ b, a.bare = b.bare → a.same b = true) : s.same t = true := by
  cases s <;> cases t <;> simp only [bare, single.injEq, sequence.injEq, reduceCtorEq, bareNodes_eq] at h
  · rw [same]
  · rw [same]
    exact ih _ (List.mem_singleton.2 rfl) _ h
  · rw [same]
    exact sameNodes_of_bare ih _ h

theorem sameOptional_of_bare {v w : Option Node} (h : v.map Node.bare = w.map Node.bare)
    (ih : ∀ a ∈ v, ∀ b, a.bare = b.bare → a.same b = true) : sameOptional v w = true := by
  cases v <;> cases w <;> simp only [Option.map_none, Option.map_some, reduceCtorEq] at h
  · rw [sameOptional]
  · rw [sameOptional]
    exact ih _ rfl _ (Option.some.inj h)

theorem Form.same_of_bare {f g : Form} (h : f.bare = g.bare)
    (hv : ∀ value, f = .literal value → value.equal value = true)
    (ih : ∀ a ∈ f.children, ∀ b, a.bare = b.bare → a.same b = true) : f.same g = true := by
  cases f <;> cases g <;> simp only [bare, reduceCtorEq, literal.injEq, name.injEq, unary.injEq,
    array.injEq, object.injEq, binary.injEq, assignment.injEq, declaration.injEq, member.injEq,
    index.injEq, call.injEq, ternary.injEq, block.injEq, whileLoop.injEq, ifElse.injEq,
    returnWith.injEq, function.injEq, bareNodes_eq, bareOptional_eq] at h <;> rw [same]
  case literal v w => subst h; exact hv v rfl
  case name => rw [h]; exact beq_self_eq_true _
  case unary => exact ih _ (List.mem_singleton.2 rfl) _ h
  case array | object => exact sameNodes_of_bare ih _ h
  case block => exact Statements.same_of_bare h ih
  case returnWith => exact sameOptional_of_bare h fun a ha => ih a (Option.mem_toList.2 ha)
  case binary | assignment | declaration | member | index | ternary =>
    simp only [children, List.mem_cons, List.not_mem_nil, or_false, forall_eq_or_imp, forall_eq] at ih
    simp [h, ih]
  case call =>
    have hnodes := sameNodes_of_bare (fun a ha => ih a (List.mem_cons_of_mem _ ha)) _ h.2
    rw [ih _ (List.mem_cons_self ..) _ h.1, hnodes]
    rfl
  case whileLoop =>
    have hbody := Statements.same_of_bare h.2 fun a ha => ih a (List.mem_cons_of_mem _ ha)
    rw [ih _ (List.mem_cons_self ..) _ h.1, hbody]
    rfl
  case ifElse =>
    have hs := Statements.same_of_bare h.2.1 fun a ha =>
      ih a (List.mem_cons_of_mem _ (List.mem_append_left _ ha))
    have ht := Statements.same_of_bare h.2.2 fun a ha =>
      ih a (List.mem_cons_of_mem _ (List.mem_append_right _ ha))
    rw [ih _ (List.mem_cons_self ..) _ h.1, hs, ht]
    rfl
  case function =>
    have hnodes := sameNodes_of_bare (fun a ha => ih a (List.mem_append_left _ ha)) _ h.2.1
    have hbody := Statements.same_of_bare h.2.2 fun a ha => ih a (List.mem_append_right _ ha)
    rw [h.1, hnodes, hbody]
    simp

/-- Trees that differ in positions only are the same, unless a value is not the same as itself. -/
theorem Node.same_of_bare (a : Node)
    (ha : a.Everywhere fun n => ∀ value, n.form = .literal value → value.equal value = true) :
    ∀ b, a.bare = b.bare → a.same b = true := by
  obtain ⟨hv, hc⟩ := everywhere_iff.1 ha
  rintro ⟨j, l, q, g⟩ h
  have ih : ∀ c ∈ a.children, ∀ d, c.bare = d.bare → c.same d = true :=
    fun c hm => same_of_bare c (hc c hm)
  obtain ⟨i, k, p, f⟩ := a
  simp only [bare, mk.injEq] at h
  rw [same, h.1, h.2.1, Form.same_of_bare h.2.2.2 hv ih]
  simp
termination_by a
decreasing_by exact Node.sizeOf_lt_of_mem hm

theorem Value.equal_self {value : Value} : value.equal value = true ↔ value ≠ .number .nan := by
  cases value with
  | number n => cases n <;> simp [equal, BEq.beq, Number.equal]
  | _ => simp [equal]

theorem mem_of_sameNodes {as : List Node} :
    ∀ bs, sameNodes as bs = true → ∀ a ∈ as, ∃ b, a.same b = true := by
  induction as with
  | nil => exact fun _ _ _ ha => (List.not_mem_nil ha).elim
  | cons c as ih =>
    intro bs h a ha
    cases bs with
    | nil => simp [sameNodes] at h
    | cons d bs =>
      rw [sameNodes, Bool.and_eq_true] at h
      cases ha with
      | head => exact ⟨d, h.1⟩
      | tail _ ha => exact ih bs h.2 a ha

theorem Statements.mem_of_same {s t : Statements} (h : s.same t = true) :
    ∀ a ∈ s.toList, ∃ b, a.same b = true := by
  cases s <;> cases t <;> simp only [same, Bool.false_eq_true] at h
  · exact fun _ ha => (List.not_mem_nil ha).elim
  · intro a ha
    cases List.mem_singleton.1 ha
    exact ⟨_, h⟩
  · exact mem_of_sameNodes _ h

theorem Form.mem_of_same {f g : Form} (h : f.same g = true) :
    ∀ a ∈ f.children, ∃ b, a.same b = true := by
  cases f <;> cases g <;> simp only [same, Bool.false_eq_true, Bool.and_eq_true] at h <;>
    simp only [children, List.mem_append, List.mem_cons, List.not_mem_nil, or_false,
      forall_eq, or_imp, forall_and]
  case literal | name | self | breakOut => exact fun _ ha => ha.elim
  case unary => exact ⟨_, h⟩
  case array | object => exact mem_of_sameNodes _ h
  case binary | assignment | declaration | member | index => exact ⟨⟨_, h.1⟩, _, h.2⟩
  case call => exact ⟨⟨_, h.1⟩, mem_of_sameNodes _ h.2⟩
  case ternary => exact ⟨⟨_, h.1.1⟩, ⟨_, h.1.2⟩, _, h.2⟩
  case block => exact Statements.mem_of_same h
  case whileLoop => exact ⟨⟨_, h.1⟩, Statements.mem_of_same h.2⟩
  case ifElse =>
    exact ⟨⟨_, h.1.1⟩, Statements.mem_of_same h.1.2, Statements.mem_of_same h.2⟩
  case returnWith v w =>
    cases v <;> cases w <;> simp only [sameOptional, Bool.false_eq_true] at h
    · exact fun _ ha => (List.not_mem_nil ha).elim
    · intro a ha
      cases List.mem_singleton.1 ha
      exact ⟨_, h⟩
  case function => exact ⟨mem_of_sameNodes _ h.1.2, Statements.mem_of_same h.2⟩

theorem Node.number_of_same (a : Node) :
    ∀ b, a.same b = true → a.Everywhere (·.form ≠ .literal (.number .nan)) := by
  rintro ⟨j, l, q, g⟩ h
  obtain ⟨i, k, p, f⟩ := a
  simp only [same, Bool.and_eq_true] at h
  refine everywhere_iff.2 ⟨fun (hf : f = _) => ?_, fun child hm => ?_⟩
  · subst hf
    cases g <;> simp only [Form.same, Bool.false_eq_true, and_false] at h
    rename_i w
    cases w with
    | number n => cases n <;> simp [Value.equal, BEq.beq, Number.equal] at h
    | _ => simp [Value.equal] at h
  · obtain ⟨b, hb⟩ := Form.mem_of_same h.2 child hm
    exact number_of_same child b hb
termination_by a
decreasing_by exact Node.sizeOf_lt_of_mem hm

theorem Node.same_iff_of_bare {a b : Node} (h : a.bare = b.bare) :
    a.same b = true ↔ a.Everywhere (·.form ≠ .literal (.number .nan)) := by
  refine ⟨a.number_of_same b, fun hn => a.same_of_bare (fun depth below hb value hv => ?_) b h⟩
  exact Value.equal_self.2 fun hnan => hn depth below hb (hnan ▸ hv)

theorem Statements.same_iff_of_bare {s t : Statements} (h : s.bare = t.bare) :
    s.same t = true ↔ ∀ visit ∈ s.walk, visit.2.form ≠ .literal (.number .nan) := by
  refine Iff.trans ?_ (forall_walk (P := (·.form ≠ .literal (.number .nan)))).symm
  constructor
  · intro hs a ha
    obtain ⟨b, hb⟩ := mem_of_same hs a ha
    exact a.number_of_same b hb
  · intro hn
    exact same_of_bare h fun a ha b hab => (Node.same_iff_of_bare hab).2 (hn a ha)

/-! ## Bare trees are written alike -/

theorem Node.propertyName?_bare (node : Node) : node.bare.propertyName? = node.propertyName? := by
  obtain ⟨id, key, position, form⟩ := node
  cases form <;> rfl

theorem Node.isConditional_bare (node : Node) : node.bare.isConditional = node.isConditional := by
  obtain ⟨id, key, position, form⟩ := node
  cases form <;> rfl

theorem Node.key_bare (node : Node) : node.bare.key = node.key := by
  cases node
  rfl

theorem writeItems_more (a b : Node) (rest : List Node) :
    writeItems (a :: b :: rest) = a.write .operand ++ ", " ++ writeItems (b :: rest) := by
  rw [writeItems]
  exact List.cons_ne_nil _ _

theorem writeEntries_more (a b : Node) (rest : List Node) :
    writeEntries (a :: b :: rest) = StringLiteral.write (a.key.getD "") ++ ": " ++
      a.write .operand ++ ", " ++ writeEntries (b :: rest) := by
  rw [writeEntries]
  exact List.cons_ne_nil _ _

mutual

theorem Node.write_bare (place : Place) : ∀ node : Node, node.bare.write place = node.write place
  | .mk id key position form => by
    rw [Node.bare, Node.write, Node.write, Form.write_bare]

theorem Form.write_bare (place : Place) (id : String) :
    ∀ form : Form, form.bare.write place id = form.write place id
  | .literal _ | .name _ | .self | .breakOut | .returnWith none => rfl
  | .unary a => by rw [Form.bare, Form.write, Form.write, a.write_bare]
  | .array nodes | .object nodes => by
    rw [Form.bare, Form.write, Form.write]
    first | rw [writeItems_bare nodes] | rw [writeEntries_bare nodes]
  | .binary a b | .assignment a b | .index a b => by
    rw [Form.bare, Form.write, Form.write, a.write_bare, b.write_bare]
  | .declaration a b => by
    cases place <;> rw [Form.bare, Form.write, Form.write, a.write_bare, b.write_bare]
  | .member a b => by
    rw [Form.bare, Form.write, Form.write, a.write_bare, b.write_bare, b.propertyName?_bare]
  | .call a nodes => by rw [Form.bare, Form.write, Form.write, a.write_bare, writeItems_bare nodes]
  | .ternary a b c => by
    rw [Form.bare, Form.write, Form.write, a.write_bare, b.write_bare, c.write_bare]
  | .block body => by rw [Form.bare, Form.write, Form.write, body.write_bare]
  | .whileLoop a body => by
    rw [Form.bare, Form.write, Form.write, a.write_bare, body.write_bare]
  | .ifElse a s t => by
    rw [Form.bare, Form.write, Form.write, a.write_bare, s.write_bare, t.writeElse_bare]
  | .returnWith (some a) => by
    rw [Form.bare, bareOptional, Form.write, Form.write, a.write_bare]
  | .function name nodes body => by
    rw [Form.bare, Form.write, Form.write, writeItems_bare nodes, body.write_bare]

theorem Statements.write_bare (depth : Nat) :
    ∀ body : Statements, body.bare.write depth = body.write depth
  | .empty => rfl
  | .single a => by rw [Statements.bare, Statements.write, Statements.write, a.write_bare]
  | .sequence nodes => by
    rw [Statements.bare, Statements.write, Statements.write, writeLines_bare _ nodes]

theorem Statements.writeElse_bare (depth : Nat) :
    ∀ body : Statements, body.bare.writeElse depth = body.writeElse depth
  | .empty => rfl
  | .single a => by
    rw [Statements.bare, Statements.writeElse, Statements.writeElse, a.isConditional_bare,
      a.write_bare, a.write_bare]
  | .sequence nodes => by
    rw [Statements.bare, Statements.writeElse, Statements.writeElse, writeLines_bare _ nodes]

theorem writeLines_bare (depth : Nat) :
    ∀ nodes : List Node, writeLines depth (bareNodes nodes) = writeLines depth nodes
  | [] => rfl
  | a :: rest => by
    rw [bareNodes, writeLines, writeLines, a.write_bare, writeLines_bare depth rest]

theorem writeItems_bare : ∀ nodes : List Node, writeItems (bareNodes nodes) = writeItems nodes
  | [] => rfl
  | [a] => by rw [bareNodes, bareNodes, writeItems, writeItems, a.write_bare]
  | a :: b :: rest => by
    have ih := writeItems_bare (b :: rest)
    rw [bareNodes] at ih
    rw [bareNodes, bareNodes, writeItems_more, writeItems_more, ih, a.write_bare]

theorem writeEntries_bare : ∀ nodes : List Node, writeEntries (bareNodes nodes) = writeEntries nodes
  | [] => rfl
  | [a] => by rw [bareNodes, bareNodes, writeEntries, writeEntries, a.write_bare, a.key_bare]
  | a :: b :: rest => by
    have ih := writeEntries_bare (b :: rest)
    rw [bareNodes] at ih
    rw [bareNodes, bareNodes, writeEntries_more, writeEntries_more, ih, a.write_bare, a.key_bare]

end

theorem Statements.script_bare (script : Statements) : script.bare.script = script.script := by
  rw [Statements.script, Statements.script, toList_bare, ← bareNodes_eq, writeLines_bare]

end ScriptTree
