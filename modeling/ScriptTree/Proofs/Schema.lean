import ScriptTree.Proofs.Symbols

/-!
# The schema of trees

The type of trees allows any id on any form and any node below any other. Those that come out of a
parse are more regular: `Node.Legal` says how the id and the operands of a node fit its form, and
`Statements.Regular` what a list of statements looks like. Both hold everywhere in the tree of a
script, whatever its tokens are (`legal_of_parseTokens`, `regular_of_parseTokens`).
-/

namespace ScriptTree

inductive FormKind where
  | literal
  | name
  | self
  | unary
  | array
  | object
  | binary
  | assignment
  | declaration
  | member
  | index
  | call
  | ternary
  | block
  | whileLoop
  | ifElse
  | breakOut
  | returnWith
  | function
deriving DecidableEq

namespace FormKind

def targets : List FormKind := [name, member, index]

def callees : List FormKind := [name, function, member, index, .call]

def statements : List FormKind :=
  [declaration, assignment, .call, block, whileLoop, ifElse, breakOut, returnWith]

def onlyStatements : List FormKind := [declaration, block, whileLoop, ifElse, breakOut, returnWith]

def jumps : List FormKind := [breakOut, returnWith]

end FormKind

namespace Form

def kind : Form → FormKind
  | literal _ => .literal
  | name _ => .name
  | self => .self
  | unary _ => .unary
  | array _ => .array
  | object _ => .object
  | binary .. => .binary
  | assignment .. => .assignment
  | declaration .. => .declaration
  | member .. => .member
  | index .. => .index
  | call .. => .call
  | ternary .. => .ternary
  | block _ => .block
  | whileLoop .. => .whileLoop
  | ifElse .. => .ifElse
  | breakOut => .breakOut
  | returnWith _ => .returnWith
  | function .. => .function

def operands : Form → List Node
  | literal _ | name _ | self | breakOut | block _ => []
  | unary a | whileLoop a _ | ifElse a _ _ => [a]
  | array nodes | object nodes | function _ nodes _ => nodes
  | binary a b | assignment a b | declaration a b | member a b | index a b => [a, b]
  | call a nodes => a :: nodes
  | ternary a b c => [a, b, c]
  | returnWith value => value.toList

def bodies : Form → List Statements
  | block body | whileLoop _ body | function _ _ body => [body]
  | ifElse _ consequent alternative => [consequent, alternative]
  | _ => []

theorem children_eq (form : Form) :
    form.children = form.operands ++ form.bodies.flatMap Statements.toList := by
  cases form <;> simp [children, operands, bodies]

end Form

def SymbolTable.isBinary (table : SymbolTable) (id : String) : Bool :=
  ((table.lookup? id).bind (·.infixRule?)).any fun rule => rule = .binary ∨ rule = .binaryRight

/-- The id and the operands that a form has. -/
def Form.Fits (id : String) : Form → Prop
  | literal value =>
    id = literalId ∨ (SymbolTable.grammar.lookup? id).bind (·.constant?) = some value
  | unary _ => id ∈ ["-", "!", "typeof"]
  | binary .. => SymbolTable.grammar.isBinary id = true
  | assignment target _ => id ∈ ["=", "+=", "-="] ∧ target.form.kind ∈ FormKind.targets
  | declaration target _ => id = "=" ∧ target.form.kind = .name
  | member _ property => id = "." ∧ ∃ text position, property = .ofValue (.string text) position
  | index .. => id = "["
  | call callee _ => id = "(" ∧ callee.form.kind ∈ FormKind.callees
  | function _ parameters _ => ∀ parameter ∈ parameters, parameter.form.kind = .name
  | _ => True

/-- A node as it is in the tree of a script. -/
structure Node.Legal (node : Node) : Prop where
  fits : node.form.Fits node.id
  key : ∀ child ∈ node.children, child.key.isSome = true ↔ node.form.kind = .object
  operand : ∀ operand ∈ node.form.operands, operand.form.kind ∉ FormKind.onlyStatements

def Statements.Normal : Statements → Prop
  | empty | single _ => True
  | sequence nodes => 2 ≤ nodes.length

structure Statements.Regular (body : Statements) : Prop where
  normal : body.Normal
  kinds : ∀ node ∈ body.toList, node.form.kind ∈ FormKind.statements
  jumps : body.toList.Pairwise fun node _ => node.form.kind ∉ FormKind.jumps

structure Node.Regular (node : Node) : Prop where
  bodies : ∀ body ∈ node.form.bodies, body.Regular
  block : ∀ body, node.form = .block body → body.toList ≠ []

/-! ## Parts of a tree -/

def Node.Good (node : Node) : Prop := node.Everywhere fun node => node.Legal ∧ node.Regular

structure Node.IsOperand (node : Node) : Prop where
  key : node.key = none
  kind : node.form.kind ∉ FormKind.onlyStatements
  good : node.Good

structure Node.IsStatement (node : Node) : Prop where
  key : node.key = none
  kind : node.form.kind ∈ FormKind.statements
  good : node.Good

structure Statements.IsBody (body : Statements) : Prop where
  regular : body.Regular
  statement : ∀ node ∈ body.toList, node.IsStatement

/-- What ends a block is the last of these statements, and the block ends behind them. -/
structure EndsBlock (nodes : List Node) (behind : SymbolToken) : Prop where
  last : nodes.Pairwise fun node _ => node.form.kind ∉ FormKind.jumps
  brace : ∀ node ∈ nodes, node.form.kind ∈ FormKind.jumps → behind.id = "\x7d"

def ListKind.Holds (node : Node) : ListKind → Prop
  | items => node.IsOperand
  | entries => node.key.isSome = true ∧ node.form.kind ∉ FormKind.onlyStatements ∧ node.Good
  | parameters => node.IsOperand ∧ node.form.kind = .name
  | declarations => node.IsStatement ∧ node.form.kind = .declaration

theorem Statements.normal_ofList (nodes : List Node) : (ofList nodes).Normal := by
  cases nodes with
  | nil => trivial
  | cons node rest =>
    cases rest with
    | nil => trivial
    | cons next rest => exact Nat.le_add_left 2 rest.length

theorem Form.mem_targets {form : Form} (h : form.isAssignable = true) :
    form.kind ∈ FormKind.targets := by
  cases form with
  | name => exact .head _
  | member => exact .tail _ (.head _)
  | index => exact .tail _ (.tail _ (.head _))
  | _ => cases h

theorem Form.mem_callees {form : Form} (h : form.isCallable = true) :
    form.kind ∈ FormKind.callees := by
  cases form with
  | name => exact .head _
  | function => exact .tail _ (.head _)
  | member => exact .tail _ (.tail _ (.head _))
  | index => exact .tail _ (.tail _ (.tail _ (.head _)))
  | call => exact .tail _ (.tail _ (.tail _ (.tail _ (.head _))))
  | _ => cases h

theorem Form.mem_statements {form : Form} (h : (form.isAssignment || form.isCall) = true) :
    form.kind ∈ FormKind.statements := by
  cases form with
  | assignment => exact .tail _ (.head _)
  | call => exact .tail _ (.tail _ (.head _))
  | _ => cases h

theorem FormKind.not_jump {form : Form} (h : (form.isAssignment || form.isCall) = true) :
    form.kind ∉ FormKind.jumps := by
  cases form with
  | assignment => exact (by decide : FormKind.assignment ∉ jumps)
  | call => exact (by decide : FormKind.call ∉ jumps)
  | _ => cases h

theorem Form.bodies_of_object {form : Form} (h : form.kind = .object) : form.bodies = [] := by
  cases form with
  | object => rfl
  | _ => cases h

section
variable {id : String} {position : Position} {form : Form}

theorem good_ofForm (hfits : form.Fits id)
    (hkey : ∀ a ∈ form.operands, a.key.isSome = true ↔ form.kind = .object)
    (hoperands : ∀ a ∈ form.operands, a.form.kind ∉ FormKind.onlyStatements ∧ a.Good)
    (hbodies : ∀ body ∈ form.bodies, body.IsBody)
    (hblock : ∀ body, form = .block body → body.toList ≠ []) :
    (Node.ofForm id form position).Good := by
  have hchildren : ∀ child ∈ form.children,
      child ∈ form.operands ∨ ∃ body ∈ form.bodies, child ∈ body.toList := by
    intro child hc
    rw [form.children_eq] at hc
    simpa using hc
  refine Node.everywhere_iff.2 ⟨⟨⟨hfits, ?_, fun a ha => (hoperands a ha).1⟩,
    fun body hb => (hbodies body hb).regular, hblock⟩, ?_⟩
  · intro child hc
    rcases hchildren child hc with hc | ⟨body, hb, hc⟩
    · exact hkey child hc
    · -- statements have no keys, and an object has no statements inside
      rw [((hbodies body hb).statement child hc).key]
      refine iff_of_false Bool.false_ne_true fun (hk : form.kind = .object) => ?_
      rw [Form.bodies_of_object hk] at hb
      cases hb
  · intro child hc
    rcases hchildren child hc with hc | ⟨body, hb, hc⟩
    · exact (hoperands child hc).2
    · exact ((hbodies body hb).statement child hc).good

theorem good_of_operands (hfits : form.Fits id) (hkind : form.kind ≠ .object)
    (hoperands : ∀ a ∈ form.operands, a.IsOperand) (hbodies : ∀ body ∈ form.bodies, body.IsBody)
    (hblock : ∀ body, form = .block body → body.toList ≠ []) :
    (Node.ofForm id form position).Good := by
  refine good_ofForm hfits (fun a ha => ?_)
    (fun a ha => ⟨(hoperands a ha).kind, (hoperands a ha).good⟩) hbodies hblock
  rw [(hoperands a ha).key]
  exact iff_of_false Bool.false_ne_true hkind

theorem operand_of_operands (kind : FormKind) (hkind : form.kind = kind)
    (h : kind ∉ FormKind.onlyStatements ∧ kind ≠ .object) (hfits : form.Fits id)
    (hoperands : ∀ a ∈ form.operands, a.IsOperand) (hbodies : ∀ body ∈ form.bodies, body.IsBody) :
    (Node.ofForm id form position).IsOperand := by
  subst hkind
  refine ⟨rfl, h.1, good_of_operands hfits h.2 hoperands hbodies fun body hb => ?_⟩
  subst hb
  exact absurd (List.Mem.tail _ (List.Mem.head _)) h.1

theorem statement_of_operands (kind : FormKind) (hkind : form.kind = kind)
    (h : kind ∈ FormKind.statements ∧ kind ≠ .object) (hfits : form.Fits id)
    (hoperands : ∀ a ∈ form.operands, a.IsOperand) (hbodies : ∀ body ∈ form.bodies, body.IsBody)
    (hblock : ∀ body, form = .block body → body.toList ≠ []) :
    (Node.ofForm id form position).IsStatement := by
  subst hkind
  exact ⟨rfl, h.1, good_of_operands hfits h.2 hoperands hbodies hblock⟩

end

theorem constant?_of_mem {id : String} (h : id ∈ PrefixRule.constant.ids) :
    (SymbolTable.grammar.lookup? id).bind (·.constant?) =
      some (SymbolTable.grammar.constantOf id) := by
  have hall : ∀ id ∈ PrefixRule.constant.ids,
      (SymbolTable.grammar.lookup? id).bind (·.constant?) =
        some (SymbolTable.grammar.constantOf id) := by decide +kernel
  exact hall id h

theorem isBinary_of_mem {id : String} {power : BindingPower} {rule : InfixRule}
    (hr : rule = .binary ∨ rule = .binaryRight) (h : (id, power) ∈ rule.operators) :
    SymbolTable.grammar.isBinary id = true := by
  obtain ⟨symbol, hl, hs, -, -⟩ := lookup?_of_operator h
  simpa [SymbolTable.isBinary, hl, hs] using hr

/-! ## Lists of nodes -/

theorem EndsBlock.nil (behind : SymbolToken) : EndsBlock [] behind := ⟨.nil, nofun⟩

theorem EndsBlock.single {node : Node} {behind : SymbolToken}
    (h : node.form.kind ∈ FormKind.jumps → behind.id = "\x7d") : EndsBlock [node] behind where
  last := List.pairwise_singleton _ _
  brace := List.forall_mem_singleton.2 h

theorem EndsBlock.of_forall {nodes : List Node} (behind : SymbolToken)
    (h : ∀ node ∈ nodes, node.form.kind ∉ FormKind.jumps) : EndsBlock nodes behind where
  last := List.pairwise_of_forall_mem_list fun a ha _ _ => h a ha
  brace node hm hj := absurd hj (h node hm)

theorem isBody_empty : Statements.empty.IsBody := ⟨⟨trivial, nofun, .nil⟩, nofun⟩

theorem isBody_of_statements {body : Statements} {behind : SymbolToken} (hn : body.Normal)
    (hs : ∀ node ∈ body.toList, node.IsStatement) (he : EndsBlock body.toList behind) :
    body.IsBody :=
  ⟨⟨hn, fun node hm => (hs node hm).kind, he.last⟩, hs⟩

theorem isBody_ofList {nodes : List Node} {behind : SymbolToken}
    (hs : ∀ node ∈ nodes, node.IsStatement) (he : EndsBlock nodes behind) :
    (Statements.ofList nodes).IsBody := by
  rw [← Statements.toList_ofList nodes] at hs he
  exact isBody_of_statements (Statements.normal_ofList nodes) hs he

/-! ## Readings give regular trees -/

def Phrase.Regular (behind : SymbolToken) : Phrase → Prop
  | expression _ node | condition node => node.IsOperand
  | climb _ left node => left.IsOperand → node.IsOperand
  | operand rule token node => token.id ∈ rule.ids → node.IsOperand
  | operation rule token left power node =>
    (token.id, power) ∈ rule.operators → left.IsOperand → node.IsOperand
  | element kind nodes | list kind nodes | upTo _ kind nodes => ∀ node ∈ nodes, kind.Holds node
  | functionName _ => True
  | statement read | ruled _ _ read =>
    read.Normal ∧ (∀ node ∈ read.toList, node.IsStatement) ∧ EndsBlock read.toList behind
  | statements nodes => (∀ node ∈ nodes, node.IsStatement) ∧ EndsBlock nodes behind
  | alternative body | blockBody body | block body => body.IsBody

theorem isOperand_literal {id : String} {value : Value} {position : Position}
    (h : (Form.literal value).Fits id) : (Node.ofForm id (.literal value) position).IsOperand :=
  operand_of_operands .literal rfl (by decide) h nofun nofun

theorem isOperand_name (text : String) (position : Position) :
    (Node.ofName text position).IsOperand :=
  operand_of_operands .name rfl (by decide) trivial nofun nofun

theorem isOperand_object {id : String} {nodes : List Node} {position : Position}
    (h : ∀ node ∈ nodes, ListKind.entries.Holds node) :
    (Node.ofForm id (.object nodes) position).IsOperand where
  key := rfl
  kind := (by decide : FormKind.object ∉ FormKind.onlyStatements)
  good := good_ofForm trivial (fun a ha => iff_of_true (h a ha).1 rfl) (fun a ha => (h a ha).2)
    nofun nofun

theorem holds_withKey {value : Node} (key : String) (h : value.IsOperand) :
    ListKind.entries.Holds (value.withKey key) := by
  obtain ⟨id, other, position, form⟩ := value
  have hgood := Node.everywhere_iff.1 h.good
  exact ⟨rfl, h.kind, Node.everywhere_iff.2 ⟨⟨⟨hgood.1.1.fits, hgood.1.1.key, hgood.1.1.operand⟩,
    ⟨hgood.1.2.bodies, hgood.1.2.block⟩⟩, hgood.2⟩⟩

section
variable {token : SymbolToken} {power : BindingPower} {left right : Node}

theorem isOperand_binary {rule : InfixRule} (hr : rule = .binary ∨ rule = .binaryRight)
    (h : (token.id, power) ∈ rule.operators) (hl : left.IsOperand) (hright : right.IsOperand) :
    (token.node (.binary left right)).IsOperand :=
  operand_of_operands .binary rfl (by decide) (isBinary_of_mem hr h) (forall_mem_pair hl hright) nofun

theorem isOperand_assignment (h : (token.id, power) ∈ InfixRule.assignment.operators)
    (ht : left.form.isAssignable = true) (hl : left.IsOperand) (hright : right.IsOperand) :
    (token.node (.assignment left right)).IsOperand := by
  have hid : token.id ∈ InfixRule.assignment.operators.map Prod.fst := List.mem_map_of_mem h
  exact operand_of_operands .assignment rfl (by decide) ⟨hid, Form.mem_targets ht⟩
    (forall_mem_pair hl hright) nofun

theorem isOperand_member {text : String} {position : Position}
    (h : (token.id, power) ∈ InfixRule.member.operators) (hl : left.IsOperand) :
    (token.node (.member left (.ofValue (.string text) position))).IsOperand := by
  have hid : token.id = "." := congrArg Prod.fst (List.mem_singleton.1 h)
  have hproperty : (Node.ofValue (.string text) position).IsOperand := isOperand_literal (.inl rfl)
  exact operand_of_operands .member rfl (by decide) ⟨hid, text, position, rfl⟩
    (forall_mem_pair hl hproperty) nofun

theorem isOperand_index (h : (token.id, power) ∈ InfixRule.index.operators) (hl : left.IsOperand)
    (hright : right.IsOperand) : (token.node (.index left right)).IsOperand := by
  have hid : token.id = "[" := congrArg Prod.fst (List.mem_singleton.1 h)
  exact operand_of_operands .index rfl (by decide) hid (forall_mem_pair hl hright) nofun

theorem isOperand_call {nodes : List Node} (h : (token.id, power) ∈ InfixRule.call.operators)
    (hc : left.form.isCallable = true) (hl : left.IsOperand)
    (hnodes : ∀ node ∈ nodes, node.IsOperand) :
    (token.node (.call left nodes)).IsOperand := by
  have hid : token.id = "(" := congrArg Prod.fst (List.mem_singleton.1 h)
  exact operand_of_operands .call rfl (by decide) ⟨hid, Form.mem_callees hc⟩
    (List.forall_mem_cons.2 ⟨hl, hnodes⟩) nofun

theorem regular_single {node : Node} {behind : SymbolToken} (h : node.IsStatement)
    (hj : node.form.kind ∈ FormKind.jumps → behind.id = "\x7d") :
    Phrase.Regular behind (.statement (.single node)) :=
  ⟨trivial, List.forall_mem_singleton.2 h, .single hj⟩

theorem regular_node {form : Form} {behind : SymbolToken} (kind : FormKind) (hkind : form.kind = kind)
    (h : kind ∈ FormKind.statements ∧ kind ≠ .object ∧ kind ≠ .block) (hfits : form.Fits token.id)
    (hoperands : ∀ a ∈ form.operands, a.IsOperand) (hbodies : ∀ body ∈ form.bodies, body.IsBody)
    (hj : kind ∈ FormKind.jumps → behind.id = "\x7d") :
    Phrase.Regular behind (.statement (.single (token.node form))) := by
  subst hkind
  refine regular_single
    (statement_of_operands _ rfl ⟨h.1, h.2.1⟩ hfits hoperands hbodies fun body hb => ?_) hj
  rw [hb] at h
  exact absurd rfl h.2.2

theorem regular_block {body : Statements} (behind : SymbolToken) (h : body.IsBody) :
    Phrase.Regular behind
      (.statement (if body.isEmpty then .empty else .single (token.node (.block body)))) := by
  by_cases hempty : body.isEmpty = true
  · rw [if_pos hempty]
    exact ⟨trivial, nofun, .nil behind⟩
  · have hne : body.toList ≠ [] := by
      intro hlist
      cases body with
      | empty => exact hempty rfl
      | single node => cases hlist
      | sequence nodes =>
        have hnormal : 2 ≤ nodes.length := h.regular.normal
        rw [show nodes = [] from hlist] at hnormal
        exact absurd hnormal (by decide)
    rw [if_neg hempty]
    refine regular_single (statement_of_operands .block rfl (by decide) trivial nofun
      (List.forall_mem_singleton.2 h) ?_) fun hj => ?_
    · rintro _ ⟨⟩
      exact hne
    · exact absurd (show FormKind.block ∈ FormKind.jumps from hj) (by decide)

end

theorem done_of_brace {table : SymbolTable} {act : Actions} {nodes : List Node} {p q : Parser}
    (h : Reads table act (.statements nodes) p q) (hid : p.current.id = "\x7d") :
    nodes = [] ∧ p = q := by
  cases h with
  | done _ => exact ⟨rfl, rfl⟩
  | next hne _ _ => exact absurd (.inl hid) hne

section
variable {act : Actions} (ha : act.Refines (Actions.standard .grammar)) {p q : Parser}
include ha

open Actions

theorem eq_asName_of_define {t : SymbolToken} {node : Node} (h : act.define t p = (.ok node, q)) :
    node = t.asName := by
  obtain ⟨-, -, rfl, -⟩ := standard_define_eq_ok.1 (ha.define h)
  rfl

/-- **Every reading is regular.** -/
theorem regular_of_reads {phrase : Phrase} (h : Reads .grammar act phrase p q) :
    phrase.Regular q.current := by
  -- what a symbol gives depends on the id it was chosen by, so these cases are implications
  induction h with
  | expression _ hr _ _ ih₁ ih₂ => exact ih₂ (ih₁ (prefixRule_eq_some.1 hr))
  | stay => exact id
  | climb _ _ hl hr _ _ ih₁ ih₂ => exact fun hleft => ih₂ (ih₁ (operator_of_lookup? hl hr).1 hleft)
  | name => exact fun _ => isOperand_name _ _
  | number => exact fun _ => isOperand_literal (.inl rfl)
  | string => exact fun _ => isOperand_literal (.inl rfl)
  | self => exact fun _ => operand_of_operands .self rfl (by decide) trivial nofun nofun
  | constant => exact fun hid => isOperand_literal (.inr (constant?_of_mem hid))
  | unary _ _ ih =>
    exact fun hid =>
      operand_of_operands .unary rfl (by decide) hid (List.forall_mem_singleton.2 ih) nofun
  | grouping _ _ ih => exact fun _ => ih
  | array _ ih => exact fun _ => operand_of_operands .array rfl (by decide) trivial ih nofun
  | object _ ih => exact fun _ => isOperand_object ih
  | function _ _ _ _ _ _ _ _ ih₂ ih₃ =>
    exact fun _ => operand_of_operands .function rfl (by decide) (fun node hm => (ih₂ node hm).2)
      (fun node hm => (ih₂ node hm).1) (List.forall_mem_singleton.2 (isBody_ofList ih₃.1 ih₃.2))
  | anonymous | named => exact trivial
  | binary _ ih => exact fun hid hleft => isOperand_binary (.inl rfl) hid hleft ih
  | binaryRight _ ih => exact fun hid hleft => isOperand_binary (.inr rfl) hid hleft ih
  | assignment ht _ ih => exact fun hid hleft => isOperand_assignment hid ht hleft ih
  | ternary _ _ _ ih₁ ih₂ =>
    exact fun _ hleft => operand_of_operands .ternary rfl (by decide) trivial
      (List.forall_mem_cons.2 ⟨hleft, forall_mem_pair ih₁ ih₂⟩) nofun
  | member => exact fun hid hleft => isOperand_member hid hleft
  | index _ _ ih => exact fun hid hleft => isOperand_index hid hleft ih
  | call hc _ ih => exact fun hid hleft => isOperand_call hid hc hleft ih
  | item _ ih => exact List.forall_mem_singleton.2 ih
  | entry _ _ _ _ ih => exact List.forall_mem_singleton.2 (holds_withKey _ ih)
  | parameter _ hd _ =>
    rw [eq_asName_of_define ha hd]
    exact List.forall_mem_singleton.2 ⟨isOperand_name _ _, rfl⟩
  | uninitialised => exact nofun
  | initialised _ hd _ hid hs _ ih =>
    rw [← current_of_moveOn (ha.advance ▸ hs)] at hid
    rw [eq_asName_of_define ha hd]
    exact List.forall_mem_singleton.2 ⟨statement_of_operands .declaration rfl (by decide) ⟨hid, rfl⟩
      (forall_mem_pair (isOperand_name _ _) ih) nofun nofun, rfl⟩
  | last _ _ ih => exact ih
  | more _ _ _ _ ih₁ ih₂ => exact List.forall_mem_append.2 ⟨ih₁, ih₂⟩
  | closed => exact nofun
  | filled _ _ _ ih => exact ih
  | expressionStatement _ _ hn _ ih =>
    exact regular_single ⟨ih.key, Form.mem_statements hn, ih.good⟩
      fun hj => absurd hj (FormKind.not_jump hn)
  | ruled _ _ _ _ ih => exact ih
  | blockStatement _ ih => exact regular_block _ ih
  | declaration _ _ ih =>
    refine ⟨Statements.normal_ofList _, ?_, ?_⟩
    · rw [Statements.toList_ofList]
      exact fun node hm => (ih node hm).1
    · rw [Statements.toList_ofList]
      exact .of_forall _ fun node hm => by simp [(ih node hm).2, FormKind.jumps]
  | whileLoop _ _ ih₁ ih₂ =>
    exact regular_node .whileLoop rfl (by decide) trivial (List.forall_mem_singleton.2 ih₁)
      (List.forall_mem_singleton.2 ih₂) fun hj => absurd hj (by decide)
  | ifElse _ _ _ ih₁ ih₂ ih₃ =>
    exact regular_node .ifElse rfl (by decide) trivial (List.forall_mem_singleton.2 ih₁)
      (List.forall_mem_cons.2 ⟨ih₂, List.forall_mem_singleton.2 ih₃⟩) fun hj => absurd hj (by decide)
  | breakOut _ hid => exact regular_node .breakOut rfl (by decide) trivial nofun nofun fun _ => hid
  | returnNothing _ _ hid =>
    exact regular_node .returnWith rfl (by decide) trivial nofun nofun fun _ => hid
  | returnValue _ _ _ hid ih =>
    exact regular_node .returnWith rfl (by decide) trivial (List.forall_mem_singleton.2 ih) nofun
      fun _ => hid
  | condition _ _ _ ih => exact ih
  | noAlternative => exact isBody_empty
  | elseIf _ _ _ _ _ ih => exact isBody_of_statements ih.1 ih.2.1 ih.2.2
  | elseBlock _ _ _ _ _ ih => exact ih
  | done => exact ⟨nofun, .nil _⟩
  | next _ _ hrest ih₁ ih₂ =>
    -- a jump is only read in front of a brace, and there the rest is empty
    have hread := ih₁.2.2
    refine ⟨List.forall_mem_append.2 ⟨ih₁.2.1, ih₂.1⟩, ?_, fun node hm hj => ?_⟩
    · refine List.pairwise_append.2 ⟨hread.last, ih₂.2.last, fun node hm other ho hj => ?_⟩
      rw [(done_of_brace hrest (hread.brace node hm hj)).1] at ho
      cases ho
    · rcases List.mem_append.1 hm with hm | hm
      · have hbrace := hread.brace node hm hj
        rwa [(done_of_brace hrest hbrace).2] at hbrace
      · exact ih₂.2.brace node hm hj
  | blockBody _ _ _ ih => exact isBody_ofList ih.1 ih.2
  | block _ _ ih => exact ih

end

/-! ## Scripts -/

/-- Everything in the tree of a script is regular, and nothing in it ends the script. -/
theorem regular_of_script {tokens : List Token} {tree : Statements}
    (h : parseTokens .grammar tokens = .ok tree) :
    tree.IsBody ∧ ∀ node ∈ tree.toList, node.form.kind ∉ FormKind.jumps := by
  obtain ⟨q, hrun⟩ := parseTokens_eq_ok.1 h
  obtain ⟨t, r, nodes, s, e, -, hread, he, rfl⟩ := reads_of_script hrun
  obtain ⟨hstatements, hends⟩ := regular_of_reads (.refl _) hread
  refine ⟨isBody_ofList hstatements hends, ?_⟩
  rw [Statements.toList_ofList]
  intro node hm hj
  have hend : s.current.id = endId := (Actions.expect_eq_ok.1 he).1
  exact absurd (hend.symm.trans (hends.brace node hm hj)) (by decide)

theorem Statements.IsBody.of_walk {body : Statements} (h : body.IsBody) :
    ∀ visit ∈ body.walk, visit.2.Legal ∧ visit.2.Regular := by
  intro visit hv
  obtain ⟨node, hm, hv⟩ := List.mem_flatMap.1 hv
  exact (h.statement node hm).good 0 visit hv

theorem exists_of_isOk {ε α : Type} {x : Except ε α} (h : x.isOk = true) : ∃ a, x = .ok a := by
  cases x with
  | error e => cases h
  | ok a => exact ⟨a, rfl⟩

def tokensAt (words : List Word) : List Token := words.map fun word => ⟨word.1, word.2, .start⟩

/-- Each operator of two operands makes a node of the tree of some script. -/
theorem exists_binary {id : String} (h : SymbolTable.grammar.isBinary id = true) :
    ∃ tokens tree, parseTokens .grammar tokens = .ok tree ∧
      ∃ visit ∈ tree.walk, visit.2.id = id ∧ visit.2.form.kind = .binary := by
  have hmem : id ∈ ["*", "/", "+", "-", "===", "!==", "<", "<=", ">", ">=", "&&", "||"] := by
    obtain ⟨rule, hr, hrule⟩ := (Option.any_eq_true _ _).1 h
    obtain ⟨symbol, hl, hs⟩ := Option.bind_eq_some_iff.1 hr
    have hid : id ∈ rule.operators.map Prod.fst :=
      List.mem_map_of_mem (operator_of_lookup? hl hs).1
    rcases of_decide_eq_true hrule with rfl | rfl
    · exact List.mem_append_left ["&&", "||"] hid
    · exact List.mem_append_right ["*", "/", "+", "-", "===", "!==", "<", "<=", ">", ">="] hid
  -- the script `a = a id a;` will do for each of them
  let a := Node.ofName "a" .start
  let operation := Node.ofForm id (.binary a a) .start
  let node := Node.ofForm "=" (.assignment a operation) .start
  refine ⟨tokensAt [(.name, "a"), (.operator, "="), (.name, "a"), (.operator, id), (.name, "a"),
    (.operator, ";")], .single node, ?_, (1, operation), ?_, rfl, rfl⟩
  · simp only [List.mem_cons, List.not_mem_nil, or_false] at hmem
    rcases hmem with rfl | rfl | rfl | rfl | rfl | rfl | rfl | rfl | rfl | rfl | rfl | rfl <;> rfl
  · refine List.mem_flatMap.2 ⟨node, .head _, ?_⟩
    rw [Node.walk_eq]
    refine .tail _ (List.mem_flatMap.2 ⟨operation, .tail _ (.head _), ?_⟩)
    rw [Node.walk_eq]
    exact .head _

/-- **Accepted trees are legal**: every node has an id and operands that fit its form, the entries of
objects and no other nodes have keys, and statements are no operands. All operators of two operands
occur. -/
theorem legal_of_parseTokens :
    (∀ tokens tree, parseTokens .grammar tokens = .ok tree →
      (∀ node ∈ tree.toList, node.key = none) ∧ ∀ visit ∈ tree.walk, visit.2.Legal) ∧
    ∀ id, SymbolTable.grammar.isBinary id = true → ∃ tokens tree,
      parseTokens .grammar tokens = .ok tree ∧
        ∃ visit ∈ tree.walk, visit.2.id = id ∧ visit.2.form.kind = .binary := by
  refine ⟨fun tokens tree h => ?_, fun id h => exists_binary h⟩
  have hbody := (regular_of_script h).1
  exact ⟨fun node hm => (hbody.statement node hm).key, fun visit hv => (hbody.of_walk visit hv).1⟩

theorem legal_of_parseTokens_at_object :
    let tokens := tokensAt [(.name, "o"), (.operator, "."), (.name, "if"), (.operator, "="),
      (.operator, "\x7b"), (.name, "a"), (.operator, ":"), (.operator, "-"), (.name, "f"),
      (.operator, "("), (.name, "pi"), (.operator, ")"), (.operator, "\x7d"), (.operator, ";")]
    (∃ tree, parseTokens .grammar tokens = .ok tree ∧ (∀ node ∈ tree.toList, node.key = none) ∧
      ∀ visit ∈ tree.walk, visit.2.Legal) ∧
    ∃ tokens tree, parseTokens .grammar tokens = .ok tree ∧
      ∃ visit ∈ tree.walk, visit.2.id = "&&" ∧ visit.2.form.kind = .binary := by
  intro tokens
  have hok : (parseTokens .grammar tokens).isOk = true := by decide +kernel
  obtain ⟨tree, h⟩ := exists_of_isOk hok
  exact ⟨⟨tree, h, legal_of_parseTokens.1 tokens tree h⟩,
    legal_of_parseTokens.2 "&&" (by decide +kernel)⟩

/-- **Accepted trees are regular**: all lists of statements are, blocks are not empty, and what ends its
block does not stand outside one. -/
theorem regular_of_parseTokens {tokens : List Token} {tree : Statements}
    (h : parseTokens .grammar tokens = .ok tree) :
    tree.Regular ∧ (∀ node ∈ tree.toList, node.form.kind ∉ FormKind.jumps) ∧
      ∀ visit ∈ tree.walk, visit.2.Regular := by
  obtain ⟨hbody, hjumps⟩ := regular_of_script h
  exact ⟨hbody.regular, hjumps, fun visit hv => (hbody.of_walk visit hv).2⟩

theorem regular_of_parseTokens_at_loop :
    let tokens := tokensAt [(.name, "var"), (.name, "x"), (.operator, "="), (.name, "y"),
      (.operator, ","), (.name, "z"), (.operator, ";"), (.name, "while"), (.operator, "("),
      (.name, "x"), (.operator, ")"), (.operator, "\x7b"), (.operator, "\x7b"), (.operator, "\x7d"),
      (.name, "z"), (.operator, "("), (.operator, ")"), (.operator, ";"), (.name, "break"),
      (.operator, ";"), (.operator, "\x7d")]
    ∃ tree, parseTokens .grammar tokens = .ok tree ∧ tree.Regular ∧
      (∀ node ∈ tree.toList, node.form.kind ∉ FormKind.jumps) ∧
      ∀ visit ∈ tree.walk, visit.2.Regular := by
  intro tokens
  have hok : (parseTokens .grammar tokens).isOk = true := by decide +kernel
  obtain ⟨tree, h⟩ := exists_of_isOk hok
  exact ⟨tree, h, regular_of_parseTokens h⟩

end ScriptTree
