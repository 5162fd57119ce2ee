import ScriptTree.Proofs.Pairing
import ScriptTree.Tree.Script

/-!
# Names and labels

The labels of a tree are the names of properties and the keys of entries: texts that a parse takes
as they are spelled. `respell` spells the names and the labels of a tree anew. Which tokens a parse
takes as labels is told by `Actions.labelling`, which puts a mark in place of each label.
-/

namespace ScriptTree

/-! ## Trees spelled anew -/

def Node.relabel (label : String → String) : Node → Node
  | .mk id key position (.literal (.string text)) =>
    .mk id key position (.literal (.string (label text)))
  | node => node

mutual

/-- The tree with other names and other labels. -/
def Node.respell (name label : String → String) : Node → Node
  | .mk id key position form => .mk id (key.map label) position (form.respell name label)

def Form.respell (name label : String → String) : Form → Form
  | .literal value => .literal value
  | .name text => .name (name text)
  | .self => .self
  | .unary a => .unary (a.respell name label)
  | .array nodes => .array (respellNodes name label nodes)
  | .object nodes => .object (respellNodes name label nodes)
  | .binary a b => .binary (a.respell name label) (b.respell name label)
  | .assignment a b => .assignment (a.respell name label) (b.respell name label)
  | .declaration a b => .declaration (a.respell name label) (b.respell name label)
  | .member a b => .member (a.respell name label) ((b.respell name label).relabel label)
  | .index a b => .index (a.respell name label) (b.respell name label)
  | .call a nodes => .call (a.respell name label) (respellNodes name label nodes)
  | .ternary a b c =>
    .ternary (a.respell name label) (b.respell name label) (c.respell name label)
  | .block body => .block (body.respell name label)
  | .whileLoop a body => .whileLoop (a.respell name label) (body.respell name label)
  | .ifElse a s t => .ifElse (a.respell name label) (s.respell name label) (t.respell name label)
  | .breakOut => .breakOut
  | .returnWith value => .returnWith (respellOptional name label value)
  | .function text nodes body =>
    .function (text.map name) (respellNodes name label nodes) (body.respell name label)

def Statements.respell (name label : String → String) : Statements → Statements
  | .empty => .empty
  | .single a => .single (a.respell name label)
  | .sequence nodes => .sequence (respellNodes name label nodes)

def respellNodes (name label : String → String) : List Node → List Node
  | [] => []
  | a :: rest => a.respell name label :: respellNodes name label rest

def respellOptional (name label : String → String) : Option Node → Option Node
  | none => none
  | some a => some (a.respell name label)

end

def Statements.unlabelled (body : Statements) : Statements := body.respell id fun _ => ""

section
variable (name label : String → String)

@[simp] theorem respellNodes_eq (nodes : List Node) :
    respellNodes name label nodes = nodes.map (Node.respell name label) := by
  induction nodes with
  | nil => rfl
  | cons a rest ih => rw [respellNodes, ih, List.map_cons]

theorem Node.respell_withKey (node : Node) (key : String) :
    (node.withKey key).respell name label = (node.respell name label).withKey (label key) := by
  cases node
  rfl

@[simp] theorem Node.form_respell (node : Node) :
    (node.respell name label).form = node.form.respell name label := by
  cases node
  rfl

theorem Node.position_respell (node : Node) :
    (node.respell name label).position = node.position := by
  cases node
  rfl

@[simp] theorem Form.isAssignable_respell (form : Form) :
    (form.respell name label).isAssignable = form.isAssignable := by
  cases form <;> rfl

@[simp] theorem Form.isCallable_respell (form : Form) :
    (form.respell name label).isCallable = form.isCallable := by
  cases form <;> rfl

@[simp] theorem Form.isAssignment_respell (form : Form) :
    (form.respell name label).isAssignment = form.isAssignment := by
  cases form <;> rfl

@[simp] theorem Form.isCall_respell (form : Form) :
    (form.respell name label).isCall = form.isCall := by
  cases form <;> rfl

namespace Statements

theorem toList_respell (body : Statements) :
    (body.respell name label).toList = body.toList.map (Node.respell name label) := by
  cases body <;> simp [respell, toList]

theorem respell_ofList (nodes : List Node) : (ofList nodes).respell name label =
    ofList (nodes.map (Node.respell name label)) := by
  cases nodes with
  | nil => rfl
  | cons a rest =>
    cases rest with
    | nil => rfl
    | cons b rest => simp [ofList, respell]

theorem isEmpty_respell (body : Statements) :
    (body.respell name label).isEmpty = body.isEmpty := by
  cases body <;> rfl

end Statements

end

/-! ## Twice anew -/

section
variable (name name' label label' : String → String)

theorem Node.relabel_respell (node : Node) :
    ((node.relabel label).respell name' label').relabel label' =
      (node.respell name' label').relabel (label' ∘ label) := by
  obtain ⟨id, key, position, form⟩ := node
  cases form with
  | literal value => cases value <;> rfl
  | _ => rfl

mutual

theorem Node.respell_respell : ∀ node : Node, (node.respell name label).respell name' label' =
    node.respell (name' ∘ name) (label' ∘ label)
  | .mk id key position form => by
    rw [Node.respell, Node.respell, Node.respell, Form.respell_respell form, Option.map_map]

theorem Form.respell_respell : ∀ form : Form, (form.respell name label).respell name' label' =
    form.respell (name' ∘ name) (label' ∘ label)
  | .literal _ | .name _ | .self | .breakOut | .returnWith none => rfl
  | .unary a => by simp only [Form.respell, a.respell_respell]
  | .array nodes | .object nodes => by simp only [Form.respell, respellNodes_respell nodes]
  | .binary a b | .assignment a b | .declaration a b | .index a b => by
    simp only [Form.respell, a.respell_respell, b.respell_respell]
  | .member a b => by
    simp only [Form.respell, a.respell_respell, Node.relabel_respell, b.respell_respell]
  | .call a nodes => by simp only [Form.respell, a.respell_respell, respellNodes_respell nodes]
  | .ternary a b c => by
    simp only [Form.respell, a.respell_respell, b.respell_respell, c.respell_respell]
  | .block body => by simp only [Form.respell, body.respell_respell]
  | .whileLoop a body => by simp only [Form.respell, a.respell_respell, body.respell_respell]
  | .ifElse a s t => by
    simp only [Form.respell, a.respell_respell, s.respell_respell, t.respell_respell]
  | .returnWith (some a) => by simp only [Form.respell, respellOptional, a.respell_respell]
  | .function text nodes body => by
    simp only [Form.respell, respellNodes_respell nodes, body.respell_respell, Option.map_map]

theorem Statements.respell_respell : ∀ body : Statements,
    (body.respell name label).respell name' label' = body.respell (name' ∘ name) (label' ∘ label)
  | .empty => rfl
  | .single a => by simp only [Statements.respell, a.respell_respell]
  | .sequence nodes => by simp only [Statements.respell, respellNodes_respell nodes]

theorem respellNodes_respell : ∀ nodes : List Node,
    respellNodes name' label' (respellNodes name label nodes) =
      respellNodes (name' ∘ name) (label' ∘ label) nodes
  | [] => rfl
  | a :: rest => by simp only [respellNodes, a.respell_respell, respellNodes_respell rest]

end

end

/-! ## Labels as they are -/

theorem relabel_id (node : Node) : node.relabel id = node := by
  obtain ⟨_, _, _, form⟩ := node
  cases form with
  | literal value => cases value <;> rfl
  | _ => rfl

theorem Form.children_respell (name : String → String) (form : Form) :
    (form.respell name id).children = form.children.map (Node.respell name id) := by
  cases form with
  | member a b => exact congrArg (a.respell name id :: [·]) (relabel_id _)
  | returnWith value => cases value <;> rfl
  | _ => simp [respell, children, Statements.toList_respell]

theorem children_respell (name : String → String) (node : Node) :
    (node.respell name id).children = node.children.map (Node.respell name id) := by
  cases node
  exact Form.children_respell name _

mutual

theorem respellNode_id : ∀ node : Node, node.respell id id = node
  | .mk _ _ _ form => by rw [Node.respell, Form.respell_id form, Option.map_id, id]

theorem Form.respell_id : ∀ form : Form, form.respell id id = form
  | .literal _ | .name _ | .self | .breakOut | .returnWith none => rfl
  | .unary a => by rw [Form.respell, respellNode_id a]
  | .array nodes | .object nodes => by rw [Form.respell, respellNodes_id nodes]
  | .binary a b | .assignment a b | .declaration a b | .index a b => by
    rw [Form.respell, respellNode_id a, respellNode_id b]
  | .member a b => by
    rw [Form.respell, respellNode_id a, respellNode_id b, relabel_id]
  | .call a nodes => by rw [Form.respell, respellNode_id a, respellNodes_id nodes]
  | .ternary a b c => by
    rw [Form.respell, respellNode_id a, respellNode_id b, respellNode_id c]
  | .block body => by rw [Form.respell, Statements.respell_id body]
  | .whileLoop a body => by rw [Form.respell, respellNode_id a, Statements.respell_id body]
  | .ifElse a s t => by
    rw [Form.respell, respellNode_id a, Statements.respell_id s, Statements.respell_id t]
  | .returnWith (some a) => by rw [Form.respell, respellOptional, respellNode_id a]
  | .function _ nodes body => by
    rw [Form.respell, respellNodes_id nodes, Statements.respell_id body, Option.map_id, id]

theorem Statements.respell_id : ∀ body : Statements, body.respell id id = body
  | .empty => rfl
  | .single a => by rw [Statements.respell, respellNode_id a]
  | .sequence nodes => by rw [Statements.respell, respellNodes_id nodes]

theorem respellNodes_id : ∀ nodes : List Node, respellNodes id id nodes = nodes
  | [] => rfl
  | a :: rest => by rw [respellNodes, respellNode_id a, respellNodes_id rest]

end

/-! ## The labels of a tree -/

def Form.label? : Form → Option String
  | member _ property => property.propertyName?
  | _ => none

def Node.labels (node : Node) : List String :=
  node.key.toList ++ (node.children.attach.flatMap fun ⟨child, _⟩ => child.labels) ++
    node.form.label?.toList
termination_by node
decreasing_by exact Node.sizeOf_lt_of_mem ‹_›

def labelsOf (nodes : List Node) : List String := nodes.flatMap Node.labels

def Statements.labels (body : Statements) : List String := labelsOf body.toList

theorem labelsOf_cons (node : Node) (rest : List Node) :
    labelsOf (node :: rest) = node.labels ++ labelsOf rest := List.flatMap_cons

@[simp] theorem labelsOf_append (nodes more : List Node) :
    labelsOf (nodes ++ more) = labelsOf nodes ++ labelsOf more := List.flatMap_append

@[simp] theorem labelsOf_singleton (node : Node) : labelsOf [node] = node.labels :=
  List.append_nil _

theorem Node.labels_eq (node : Node) :
    node.labels = node.key.toList ++ labelsOf node.children ++ node.form.label?.toList := by
  rw [labels]
  simp [labelsOf, List.flatMap_subtype, List.unattach_attach]

theorem labels_ofForm (id : String) (form : Form) (position : Position) :
    (Node.ofForm id form position).labels = labelsOf form.children ++ form.label?.toList := by
  rw [Node.labels_eq]
  rfl

theorem labels_of_literal (id : String) (value : Value) (position : Position) :
    (Node.ofForm id (.literal value) position).labels = [] := by
  rw [labels_ofForm]
  rfl

theorem labels_asName (t : SymbolToken) : t.asName.labels = [] := by
  rw [SymbolToken.asName, Node.ofName, labels_ofForm]
  rfl

theorem labels_member (t : SymbolToken) (left : Node) (text : String) (position : Position) :
    (t.node (.member left (Node.ofValue (.string text) position))).labels =
      left.labels ++ [text] := by
  rw [SymbolToken.node, labels_ofForm, Form.children, labelsOf_cons, labelsOf_singleton,
    Node.ofValue, labels_of_literal, List.append_nil]
  rfl

theorem Node.labels_withKey (node : Node) (key : String) :
    ((node.withKey key).labels).Sublist (key :: node.labels) := by
  obtain ⟨id, old, position, form⟩ := node
  rw [labels_eq, labels_eq, List.append_assoc, List.append_assoc]
  exact (List.sublist_append_right ..).cons_cons key

section
variable (name label : String → String)

theorem Node.labels_relabel (node : Node) : (node.relabel label).labels = node.labels := by
  obtain ⟨id, key, position, form⟩ := node
  rw [labels_eq, labels_eq]
  cases form with
  | literal value => cases value <;> rfl
  | _ => rfl

theorem Node.propertyName?_relabel (node : Node) :
    ((node.respell name label).relabel label).propertyName? = node.propertyName?.map label := by
  obtain ⟨id, key, position, form⟩ := node
  cases form with
  | literal value => cases value <;> rfl
  | _ => rfl

theorem Form.label?_respell (form : Form) :
    (form.respell name label).label? = form.label?.map label := by
  cases form with
  | member a b => exact b.propertyName?_relabel name label
  | _ => rfl

theorem Form.labels_children (form : Form) : labelsOf (form.respell name label).children =
    labelsOf (form.children.map (Node.respell name label)) := by
  cases form with
  | member a b => simp [respell, children, labelsOf, Node.labels_relabel]
  | returnWith value => cases value <;> rfl
  | _ => simp [respell, children, Statements.toList_respell]

theorem Node.labels_respell (node : Node) :
    (node.respell name label).labels = node.labels.map label := by
  have hchildren : labelsOf (node.children.map (respell name label)) =
      (labelsOf node.children).map label := by
    unfold labelsOf
    rw [List.flatMap_map, List.map_flatMap]
    exact List.flatMap_congr fun child hm => child.labels_respell
  obtain ⟨id, key, position, form⟩ := node
  rw [labels_eq, labels_eq, List.map_append, List.map_append, ← hchildren]
  simp only [respell, children, Node.form, Node.key]
  rw [Form.labels_children, Form.label?_respell, Option.toList_map, Option.toList_map]
termination_by node
decreasing_by exact Node.sizeOf_lt_of_mem hm

theorem Statements.labels_respell (body : Statements) :
    (body.respell name label).labels = body.labels.map label := by
  unfold labels labelsOf
  rw [toList_respell, List.flatMap_map, List.map_flatMap]
  exact List.flatMap_congr fun node _ => node.labels_respell name label

end

/-! ## Nodes that a run has made -/

namespace Pairing

/-- All labels of what a run makes are labels that it has taken. -/
theorem labels_of_made {P : Pairing} {Q : String → Prop} {id : String} {position : Position}
    {f g : Form} (h : P.Made f g) (hnode : ∀ {a b}, P.node a b → ∀ text ∈ a.labels, Q text)
    (hlabel : ∀ {t u}, P.label t u → Q t.value) :
    ∀ text ∈ (Node.ofForm id f position).labels, Q text := by
  intro text ht
  rw [labels_ofForm] at ht
  rcases List.mem_append.1 ht with ht | ht
  · obtain ⟨child, hc, ht⟩ := List.mem_flatMap.1 ht
    rcases h.child child hc with ⟨other, hchild⟩ | ⟨t, u, -, -, rfl⟩
    · exact hnode hchild text ht
    · rw [Node.ofValue, labels_ofForm] at ht
      simp [Form.children, Form.label?, labelsOf] at ht
  · cases h with
    | member _ htu =>
      simp only [Form.label?, Option.mem_toList] at ht
      cases ht
      exact hlabel htu
    | _ => simp [Form.label?] at ht

section
variable {P : Pairing} {name label : String → String}
  (hnode : ∀ {a b}, P.node a b → b = a.respell name label)
include hnode

theorem respell_of_nodes {as bs : List Node} (h : P.nodes as bs) :
    bs = as.map (Node.respell name label) := by
  induction h with
  | nil => rfl
  | cons h _ ih => rw [hnode h, ih, List.map_cons]

theorem respell_of_body {s t : Statements} (h : P.Body s t) : t = s.respell name label := by
  cases h with
  | empty => rfl
  | single h => rw [hnode h, Statements.respell]
  | sequence h => rw [respell_of_nodes hnode h, Statements.respell, respellNodes_eq]

theorem respell_of_made {f g : Form} (h : P.Made f g)
    (hname : ∀ {t u}, P.token t u → t.isName = true → u.value = name t.value)
    (hlabel : ∀ {t u}, P.label t u → u.value = label t.value ∧ u.position = t.position) :
    g = f.respell name label := by
  cases h with
  | self | breakOut => rfl
  | unary h => rw [hnode h, Form.respell]
  | array h | object h => rw [respell_of_nodes hnode h, Form.respell, respellNodes_eq]
  | binary h h' | assignment h h' | declaration h h' | index h h' =>
    rw [hnode h, hnode h', Form.respell]
  | member h ht =>
    rw [hnode h, (hlabel ht).1, (hlabel ht).2]
    rfl
  | call h hs => rw [hnode h, respell_of_nodes hnode hs, Form.respell, respellNodes_eq]
  | ternary h h' h'' => rw [hnode h, hnode h', hnode h'', Form.respell]
  | block h => rw [respell_of_body hnode h, Form.respell]
  | whileLoop h hs => rw [hnode h, respell_of_body hnode hs, Form.respell]
  | ifElse h hs ht =>
    rw [hnode h, respell_of_body hnode hs, respell_of_body hnode ht, Form.respell]
  | returnWith h =>
    cases h with
    | none => rfl
    | some h =>
      rw [hnode h]
      rfl
  | function hname' hps hs =>
    rw [respell_of_nodes hnode hps, respell_of_body hnode hs, Form.respell, respellNodes_eq]
    cases hname' with
    | none => rfl
    | some h =>
      obtain ⟨t, u, htu, ht, rfl, rfl⟩ := h
      rw [hname htu ht]
      rfl

end

end Pairing

/-! ## Occurrences -/

/-- A token of a list, with the number of those behind it; so equal tokens are told apart. -/
structure Occurrence where
  later : Nat
  token : Token
deriving DecidableEq

def occurrences : List Token → List Occurrence
  | [] => []
  | t :: rest => ⟨rest.length, t⟩ :: occurrences rest

theorem map_token_occurrences (tokens : List Token) :
    (occurrences tokens).map Occurrence.token = tokens := by
  induction tokens with
  | nil => rfl
  | cons t rest ih => rw [occurrences, List.map_cons, ih]

theorem later_lt_of_mem {tokens : List Token} {o : Occurrence} (h : o ∈ occurrences tokens) :
    o.later < tokens.length := by
  induction tokens with
  | nil => cases h
  | cons t rest ih =>
    rcases List.mem_cons.1 h with rfl | h
    · exact Nat.lt_succ_self _
    · exact Nat.lt_succ_of_lt (ih h)

theorem nodup_occurrences (tokens : List Token) : (occurrences tokens).Nodup := by
  induction tokens with
  | nil => exact .nil
  | cons t rest ih => exact List.nodup_cons.2 ⟨fun h => Nat.lt_irrefl _ (later_lt_of_mem h), ih⟩

theorem occurrences_suffix {tokens rest : List Token} (h : rest <:+ tokens) :
    occurrences rest <:+ occurrences tokens := by
  obtain ⟨front, rfl⟩ := h
  induction front with
  | nil => exact List.suffix_refl _
  | cons t front ih => exact ih.trans (List.suffix_cons _ _)

/-- The number leads back to the token. -/
theorem getElem?_reverse_later {tokens : List Token} {o : Occurrence} (h : o ∈ occurrences tokens) :
    tokens.reverse[o.later]? = some o.token := by
  induction tokens with
  | nil => cases h
  | cons t rest ih =>
    rw [List.reverse_cons]
    rcases List.mem_cons.1 h with rfl | h
    · have hlen : rest.reverse.length ≤ rest.length := Nat.le_of_eq List.length_reverse
      rw [List.getElem?_append_right hlen, List.length_reverse, Nat.sub_self]
      rfl
    · rw [List.getElem?_append_left (by rw [List.length_reverse]; exact later_lt_of_mem h), ih h]

/-! ## Tokens that are taken as labels -/

def Parser.here (p : Parser) : Occurrence := ⟨p.unread.length, p.current.token⟩

/-- The steps under a symbol table; but labels are given with tags for their texts. -/
def Actions.labelling (tag : Occurrence → String) (table : SymbolTable) : Actions :=
  { standard table with
    label := fun p => (do
      let label ← moveOn table
      pure { label with token := { label.token with value := tag p.here } }) p }

def parseLabelling (tag : Occurrence → String) (tokens : List Token) :
    Except SyntaxError Statements :=
  (Parse.script .grammar (.labelling tag .grammar) (.start tokens)).1

/-- A parse of the tokens takes these ones as labels: with whatever tags, the tree has just theirs. -/
def TakesAsLabels (tokens : List Token) (labels : List Occurrence) : Prop :=
  ∀ tag, ∃ tree, parseLabelling tag tokens = .ok tree ∧ tree.labels = labels.map tag

theorem labelling_value (table : SymbolTable) :
    Actions.labelling (·.token.value) table = .standard table := by
  have hlabel : (Actions.labelling (·.token.value) table).label = Actions.moveOn table := by
    funext p
    simp only [Actions.labelling, Parse.bind_apply, Actions.moveOn]
    cases p.unread with
    | nil => rfl
    | cons token rest =>
      dsimp only
      cases classify table p.scopes rest.isEmpty token <;> rfl
  exact congrArg (fun label => { Actions.standard table with label }) hlabel

theorem parseLabelling_value (tokens : List Token) :
    parseLabelling (·.token.value) tokens = parseTokens .grammar tokens := by
  rw [parseLabelling, labelling_value, parseTokens]

def tally (o : Occurrence) : String := String.ofList (List.replicate o.later '|')

def ofTally (tokens : List Token) (tag : Occurrence → String) (text : String) : String :=
  (tokens.reverse[text.length]?.map fun t => tag ⟨text.length, t⟩).getD ""

theorem ofTally_tally {tokens : List Token} {o : Occurrence} (h : o ∈ occurrences tokens)
    (tag : Occurrence → String) : ofTally tokens tag (tally o) = tag o := by
  have hlen : (tally o).length = o.later := by simp [tally]
  rw [ofTally, hlen, getElem?_reverse_later h]
  rfl

end ScriptTree
