import Mathlib.Data.List.Nodup
import ScriptTree.Proofs.Declarations
import ScriptTree.Proofs.Labels
import ScriptTree.Proofs.Rereading
import ScriptTree.Proofs.SpelledTrees

/-!
# Printing undoes parsing

A script may declare words of the grammar as variables. What is written of its tree is read back as
long as no variable that is left in the tree is spelled as such a word (`parseScript_script_of_free`).
So it is for every script that declares no such word (`parseScript_script`), and for every script at
all if its variables are given other names (`parseScript_script_respell`).
-/

namespace ScriptTree

open Actions

structure Node.Free (f : String → String) (node : Node) : Prop where
  writable : node.Writable
  spelled : node.Spelled
  name : ∀ text ∈ node.form.variableName?, Word.Spelled (.name, f text) ∧ isKeyword (f text) = false

/-- The bare tree with other names for its variables. -/
def anew (f : String → String) (node : Node) : Node := (node.respell f id).bare

def anewBody (f : String → String) (body : Statements) : Statements := (body.respell f id).bare

section
variable (f : String → String)

theorem anew_node (t : SymbolToken) (form : Form) :
    anew f (t.node form) = .plain t.id (form.respell f id).bare := rfl

theorem anew_withKey (node : Node) (key : String) :
    anew f (node.withKey key) = (anew f node).withKey key := by
  rw [anew, Node.respell_withKey, Node.bare_withKey]
  rfl

theorem form_anew (node : Node) : (anew f node).form = (node.form.respell f id).bare := by
  rw [anew, Node.form_bare, Node.form_respell]

theorem anewBody_ofList (nodes : List Node) :
    anewBody f (.ofList nodes) = .ofList (nodes.map (anew f)) := by
  rw [anewBody, Statements.respell_ofList, Statements.bare_ofList, List.map_map]
  rfl

theorem isEmpty_anewBody (body : Statements) : (anewBody f body).isEmpty = body.isEmpty := by
  rw [anewBody, Statements.isEmpty_bare, Statements.isEmpty_respell]

theorem anewNodes (nodes : List Node) :
    bareNodes (respellNodes f id nodes) = nodes.map (anew f) := by
  rw [bareNodes_eq, respellNodes_eq, List.map_map]
  rfl

theorem number?_respell (node : Node) : (node.respell f id).number? = node.number? := by
  obtain ⟨_, _, _, form⟩ := node
  cases form <;> rfl

theorem number?_anew (node : Node) : (anew f node).number? = node.number? :=
  (Node.number?_bare _).trans (number?_respell f node)

theorem writable_respell (node : Node) : (node.respell f id).Writable ↔ node.Writable := by
  refine Node.writable_map (number?_respell f) ?_
  obtain ⟨_, _, _, form⟩ := node
  cases form <;> rfl

theorem isConditional_anew (node : Node) : (anew f node).isConditional = node.isConditional := by
  obtain ⟨id, key, position, form⟩ := node
  cases form <;> rfl

end

/-! ## Readings -/

abbrev FreeNodes (f : String → String) (nodes : List Node) : Prop :=
  ∀ node ∈ nodes, node.Everywhere (Node.Free f)

/-- Statements are written with the other names, and what ends a block stands at its end. -/
def LinesAnew (f : String → String) (behind : SymbolToken) (nodes : List Node) : Prop :=
  ∃ ends, WrittenLines (nodes.map (anew f)) ((declaredNames nodes).map f) ends ∧
    (ends = true → behind.id = "\x7d")

/-- An operation can be written with the other names if the operand on its left can. -/
def OperationAnew (f : String → String) (left node : Node) : Prop :=
  left.Everywhere (Node.Free f) ∧ ((anew f left).Written → (anew f node).Written)

def NameAnew (f : String → String) (name : Option String) : Prop :=
  ∃ ws, Yields Piece.isNameChar ((name.map f).getD "") ws ∧
    Derives True (.functionName (name.map f)) ws

def ElementWritten (nodes : List Node) (names : List String) : ListKind → Prop
  | .declarations => WrittenLines nodes names false
  | kind => WrittenElement kind nodes names

/-- The elements of a list are written, the variables of a list of declarations as statements. -/
def ListWritten (nodes : List Node) (names : List String) : ListKind → Prop
  | .declarations => WrittenLines nodes names false
  | kind => WrittenList kind nodes names

/-- What is read is written with the other names, if these are free; `behind` is the symbol behind
it. -/
def Phrase.WrittenAnew (f : String → String) (behind : SymbolToken) : Phrase → Prop
  | expression _ node | condition node => node.Everywhere (Node.Free f) → (anew f node).Written
  | climb _ left node => node.Everywhere (Node.Free f) → OperationAnew f left node
  | operand rule token node => token.id ∈ rule.ids → node.Everywhere (Node.Free f) →
      (anew f node).Written
  | operation rule token left power node => (token.id, power) ∈ rule.operators →
      node.Everywhere (Node.Free f) → OperationAnew f left node
  | element kind nodes => FreeNodes f nodes →
      ElementWritten (nodes.map (anew f)) ((kind.names nodes).map f) kind
  | list kind nodes => FreeNodes f nodes →
      ListWritten (nodes.map (anew f)) ((kind.names nodes).map f) kind
  | upTo bracket kind nodes => FreeNodes f nodes → kind ≠ .declarations →
      WrittenUpTo bracket kind (nodes.map (anew f)) ((kind.names nodes).map f)
  | functionName name =>
      (∀ text ∈ name, Word.Spelled (.name, f text) ∧ isKeyword (f text) = false) → NameAnew f name
  | statement read => FreeNodes f read.toList → LinesAnew f behind read.toList
  | ruled rule token read => token.id = rule.id → FreeNodes f read.toList →
      LinesAnew f behind read.toList
  | statements nodes => FreeNodes f nodes → LinesAnew f behind nodes
  | alternative body => FreeNodes f body.toList → (anewBody f body).WrittenElse
  | blockBody body | block body => FreeNodes f body.toList → (anewBody f body).Written

section
variable {f : String → String} {p q r : Parser} {t : SymbolToken}

theorem free_children {form : Form} (h : (t.node form).Everywhere (Node.Free f)) :
    FreeNodes f form.children := (Node.everywhere_iff.1 h).2

theorem free_root {form : Form} (h : (t.node form).Everywhere (Node.Free f)) :
    Node.Free f (t.node form) := (Node.everywhere_iff.1 h).1

theorem free_withKey (value : Node) (key : String) :
    (value.withKey key).Free f ↔ value.Free f := by
  obtain ⟨id, other, position, form⟩ := value
  exact ⟨fun h => ⟨⟨h.writable.finite, h.writable.member⟩, ⟨h.spelled.name, h.spelled.number⟩, h.name⟩,
    fun h => ⟨⟨h.writable.finite, h.writable.member⟩, ⟨h.spelled.name, h.spelled.number⟩, h.name⟩⟩

theorem written_asName (h : t.asName.Everywhere (Node.Free f)) : (anew f t.asName).Written := by
  obtain ⟨hs, hk⟩ := (Node.everywhere_iff.1 h).1.name t.value rfl
  exact written_of_name rfl (yields_name hs) (.name hk)

theorem lines_anew {word : String} {form : Form} {ends : Bool} (hid : t.id = word)
    (hform : form.declared? = none)
    (h : WrittenLines [.plain word (form.respell f id).bare] [] ends) :
    WrittenLines ((Statements.single (t.node form)).toList.map (anew f))
      ((declaredNames (Statements.single (t.node form)).toList).map f) ends := by
  have hnone : (t.node form).form.declared? = none := hform
  rwa [declaredNames_single hnone, Statements.toList_single, List.map_singleton, anew_node, hid]

theorem linesAnew_of_goesOn {nodes : List Node}
    (h : WrittenLines (nodes.map (anew f)) ((declaredNames nodes).map f) false) :
    LinesAnew f t nodes := ⟨false, h, fun hends => absurd hends Bool.false_ne_true⟩

theorem operationAnew_of_node {form : Form} {left : Node} {rest : List Node}
    (hnode : (t.node form).Everywhere (Node.Free f)) (hform : form.children = left :: rest)
    (h : FreeNodes f rest → (anew f left).Written → (anew f (t.node form)).Written) :
    OperationAnew f left (t.node form) := by
  have hchildren := free_children hnode
  rw [hform] at hchildren
  obtain ⟨hleft, hrest⟩ := List.forall_mem_cons.1 hchildren
  exact ⟨hleft, h hrest⟩

/-- The names of a function are told apart also by their other spellings. -/
theorem written_functionAnew (hf : Function.Injective f) {behind : SymbolToken}
    {own : Option String} {parameters nodes : List Node} (hid : t.id = "function")
    (h : Reads .grammar (standard .grammar)
      (.operand .function t (t.node (.function own parameters (.ofList nodes)))) p q)
    (hname : NameAnew f own)
    (hp : WrittenUpTo .round .parameters (parameters.map (anew f)) ((parameterNames parameters).map f))
    (hlines : LinesAnew f behind nodes) :
    (anew f (t.node (.function own parameters (.ofList nodes)))).Written := by
  obtain ⟨ws, hy, hd⟩ := hname
  obtain ⟨ends, hlines, -⟩ := hlines
  have hdistinct := (Node.everywhere_iff.1 (distinct_of_reads h)).1 _ (List.mem_singleton_self _)
  rw [Statements.toList_ofList] at hdistinct
  have hnames := hdistinct.map hf
  rw [List.map_append, List.map_append, List.append_assoc, ← Option.toList_map] at hnames
  rw [anew_node, hid, Form.respell, Form.bare, anewNodes, ← anewBody, anewBody_ofList]
  exact written_function hy hd hp hlines hnames

theorem written_blockAnew (hf : Function.Injective f) {behind : SymbolToken} {nodes : List Node}
    (h : Reads .grammar (standard .grammar) (.blockBody (.ofList nodes)) p q)
    (hlines : LinesAnew f behind nodes) : (anewBody f (.ofList nodes)).Written := by
  obtain ⟨ends, hlines, -⟩ := hlines
  have hnames := (distinct_of_reads h).2
  rw [Statements.toList_ofList] at hnames
  rw [anewBody_ofList]
  exact written_block hlines (hnames.map hf)

theorem conditional_of_reads {read : Statements} (hid : p.current.id = "if")
    (h : Reads .grammar (standard .grammar) (.statement read) p q) :
    ∃ node, read = .single node ∧ node.isConditional = true := by
  have hrule : (SymbolTable.grammar.lookup? p.current.id).bind (·.statementRule?) = some .ifElse :=
    statementRule_eq_some.2 hid
  cases h with
  | expressionStatement hr =>
    rw [hrule] at hr
    cases hr
  | ruled hr _ _ hread =>
    rw [hrule] at hr
    cases hr
    cases hread with
    | ifElse => exact ⟨_, rfl, rfl⟩

/-- Behind what ends a block there are no more statements. -/
theorem statements_of_brace {nodes : List Node} (hid : p.current.id = "\x7d")
    (h : Reads .grammar (standard .grammar) (.statements nodes) p q) : nodes = [] ∧ q = p := by
  cases h with
  | done => exact ⟨rfl, rfl⟩
  | next hne => exact absurd (.inl hid) hne

theorem linesAnew_append {nodes rest : List Node}
    (hrest : Reads .grammar (standard .grammar) (.statements rest) p q)
    (h : LinesAnew f p.current nodes) (h' : LinesAnew f q.current rest) :
    LinesAnew f q.current (nodes ++ rest) := by
  obtain ⟨ends, hlines, hend⟩ := h
  rw [LinesAnew, declaredNames_append, List.map_append, List.map_append]
  cases ends with
  | true =>
    -- a jump is only read in front of a brace, and there the rest is empty
    obtain ⟨rfl, rfl⟩ := statements_of_brace (hend rfl) hrest
    rw [List.map_nil, List.append_nil, show declaredNames [] = [] from rfl, List.map_nil,
      List.append_nil]
    exact ⟨true, hlines, hend⟩
  | false =>
    obtain ⟨ends, hlines', hend'⟩ := h'
    exact ⟨ends, lines_append hlines hlines', hend'⟩

/-- **What is read is written with other names**, if these are free. -/
theorem writtenAnew_of_reads (hf : Function.Injective f) {phrase : Phrase}
    (h : Reads .grammar (standard .grammar) phrase p q) : phrase.WrittenAnew f q.current := by
  induction h with
  | expression _ hr _ _ ih₁ ih₂ =>
    intro hnode
    obtain ⟨hleft, hclimb⟩ := ih₂ hnode
    exact hclimb (ih₁ (prefixRule_eq_some.1 hr) hleft)
  | stay => exact fun hnode => ⟨hnode, id⟩
  | climb _ _ hl hr _ _ ih₁ ih₂ =>
    intro hnode
    obtain ⟨hmiddle, hclimb⟩ := ih₂ hnode
    obtain ⟨hleft, hoperation⟩ := ih₁ (operator_of_lookup? hl hr).1 hmiddle
    exact ⟨hleft, hclimb ∘ hoperation⟩
  | name => exact fun _ hnode => written_asName hnode
  | @number _ t n _ _ =>
    intro _ hnode
    have hroot := (Node.everywhere_iff.1 hnode).1
    exact written_unsigned (hroot.spelled.number n rfl) ⟨hroot.writable.finite, fun _ hm => by cases hm⟩
  | string => exact fun _ _ => written_string _
  | self =>
    intro hid _
    rw [anew_node, List.mem_singleton.1 hid]
    exact written_of_name rfl (yields_keyword "this" rfl) .self
  | constant => exact fun hid _ => written_constant hid
  | unary _ _ ih =>
    intro hid hnode
    have hword : ∀ id ∈ PrefixRule.unary.ids, ∃ w : Word,
        w ∈ [(.operator, "-"), (.operator, "!"), (.name, "typeof")] ∧ w.2 = id := by decide
    obtain ⟨w, hw, hid⟩ := hword _ hid
    rw [anew_node, ← hid]
    exact written_unary hw (ih (free_children hnode _ (.head _)))
  | grouping _ _ ih => exact fun _ hnode => ih hnode
  | array _ ih =>
    intro hid hnode
    rw [anew_node, List.mem_singleton.1 hid, Form.respell, Form.bare, anewNodes]
    exact written_array (ih (free_children hnode) (by decide))
  | object _ ih =>
    intro hid hnode
    rw [anew_node, List.mem_singleton.1 hid, Form.respell, Form.bare, anewNodes]
    exact written_object (ih (free_children hnode) (by decide))
  | function ho hn hs hp hb hbody hm ih₁ ih₂ ih₃ =>
    intro hid hnode
    have hchildren := free_children hnode
    rw [Form.children, Statements.toList_ofList] at hchildren
    obtain ⟨hparameters, hnodes⟩ := List.forall_mem_append.1 hchildren
    exact written_functionAnew hf (List.mem_singleton.1 hid)
      (.function ho hn hs hp hb hbody hm) (ih₁ (free_root hnode).name)
      (ih₂ hparameters (by decide)) (ih₃ hnodes)
  | anonymous =>
    exact fun _ => ⟨[], yields_nothing.loosen fun _ h => absurd h Bool.false_ne_true, .anonymous⟩
  | named =>
    intro hname
    obtain ⟨hs, hk⟩ := hname _ rfl
    exact ⟨_, yields_name hs, .named hk⟩
  | binary _ ih =>
    intro hid hnode
    obtain ⟨level, hlevel, -⟩ := InfixRule.level_of_binary hid
    exact operationAnew_of_node hnode rfl fun hright hleft =>
      written_binary hlevel hleft (ih (hright _ (.head _)))
  | binaryRight _ ih =>
    intro hid hnode
    have hids : ∀ operator ∈ InfixRule.binaryRight.operators, operator.1 ∈ ["&&", "||"] := by decide
    exact operationAnew_of_node hnode rfl fun hright hleft =>
      written_logic (hids _ hid) hleft (ih (hright _ (.head _)))
  | assignment hn _ ih =>
    intro hid hnode
    have hids : ∀ operator ∈ InfixRule.assignment.operators, operator.1 ∈ ["=", "+=", "-="] := by
      decide
    refine operationAnew_of_node hnode rfl fun hright hleft => ?_
    refine written_assignment (hids _ hid) ?_ hleft (ih (hright _ (.head _)))
    rwa [← anew, form_anew, Form.isAssignable_bare, Form.isAssignable_respell]
  | ternary _ _ _ ih₁ ih₂ =>
    intro hid hnode
    refine operationAnew_of_node hnode rfl fun hbranches hleft => ?_
    rw [anew_node, (Prod.mk.inj (List.mem_singleton.1 hid)).1]
    exact written_ternary hleft (ih₁ (hbranches _ (.head _))) (ih₂ (hbranches _ (.tail _ (.head _))))
  | member =>
    intro hid hnode
    have hroot := free_root hnode
    refine operationAnew_of_node hnode rfl fun _ hleft => ?_
    rw [anew_node, (Prod.mk.inj (List.mem_singleton.1 hid)).1]
    refine written_member (hroot.spelled.name _ rfl) ?_ hleft
    rw [← anew, number?_anew]
    exact hroot.writable.member _ rfl
  | index _ _ ih =>
    intro hid hnode
    refine operationAnew_of_node hnode rfl fun hindex hleft => ?_
    rw [anew_node, (Prod.mk.inj (List.mem_singleton.1 hid)).1]
    exact written_index hleft (ih (hindex _ (.head _)))
  | call hn _ ih =>
    intro hid hnode
    refine operationAnew_of_node hnode rfl fun harguments hleft => ?_
    rw [anew_node, (Prod.mk.inj (List.mem_singleton.1 hid)).1, Form.respell, Form.bare, anewNodes,
      ← anew]
    refine written_call ?_ hleft (ih harguments (by decide))
    rwa [form_anew, Form.isCallable_bare, Form.isCallable_respell]
  | item _ ih => exact fun hnodes => written_item (ih (hnodes _ (.head _)))
  | entry _ _ _ _ ih =>
    intro hnodes
    have hvalue := (Node.everywhere_withKey (free_withKey _ _)).1 (hnodes _ (.head _))
    rw [List.map_singleton, anew_withKey]
    exact written_entry _ (ih hvalue)
  | parameter hn hd hm =>
    intro hnodes
    obtain ⟨rfl, -⟩ := declares_of_declare hd hm
    obtain ⟨hs, hk⟩ := (Node.everywhere_iff.1 (hnodes _ (.head _))).1.name _ rfl
    exact written_parameter hs hk
  | uninitialised => exact fun _ => lines_nothing _
  | initialised hn hd hm hid hs _ ih =>
    intro hnodes
    obtain ⟨rfl, -⟩ := declares_of_declare hd hm
    have hchildren := free_children (hnodes _ (.head _))
    obtain ⟨hsp, hk⟩ := (Node.everywhere_iff.1 (hchildren _ (.head _))).1.name _ rfl
    have hvalue := ih (hchildren _ (.tail _ (.head _)))
    rw [current_of_moveOn hs, List.map_singleton, anew_node, hid]
    exact lines_initialised hsp hk hvalue
  | @last _ _ kind _ _ _ ih =>
    intro hnodes
    cases kind with
    | declarations => exact ih hnodes
    | _ => exact written_last (ih hnodes)
  | @more _ _ _ _ kind _ _ _ _ _ _ _ ih₁ ih₂ =>
    intro hnodes
    obtain ⟨hfirst, hrest⟩ := List.forall_mem_append.1 hnodes
    have h₁ := ih₁ hfirst
    have h₂ := ih₂ hrest
    rw [ListKind.names_append, List.map_append, List.map_append]
    cases kind with
    | declarations => exact lines_append h₁ h₂
    | _ => exact written_more h₁ h₂
  | @closed _ _ _ kind => exact fun _ _ => by cases kind <;> exact written_closed _ _
  | @filled _ _ _ _ kind _ _ _ _ _ ih =>
    intro hnodes hkind
    have h := ih hnodes
    cases kind with
    | declarations => exact absurd rfl hkind
    | _ => exact written_filled h
  | expressionStatement _ _ hn _ ih =>
    intro hnodes
    refine linesAnew_of_goesOn ?_
    rw [declaredNames_single (Form.declared?_of_effect hn)]
    refine lines_expression ?_ (ih (hnodes _ (.head _)))
    rwa [form_anew, Form.isAssignment_bare, Form.isCall_bare, Form.isAssignment_respell,
      Form.isCall_respell]
  | ruled hr hm _ _ ih =>
    rw [← current_of_moveOn hm] at hr
    exact ih (statementRule_eq_some.1 hr)
  | @blockStatement _ _ token body hbody ih =>
    intro hid hnodes
    refine linesAnew_of_goesOn ?_
    by_cases hempty : body.isEmpty = true
    · -- an empty block is left out
      rw [if_pos hempty]
      exact lines_nothing _
    · rw [if_neg hempty] at hnodes ⊢
      have hlines := lines_block (ih (free_children (hnodes _ (.head _))))
      rw [isEmpty_anewBody, if_neg hempty] at hlines
      exact lines_anew hid rfl hlines
  | declaration _ _ ih =>
    intro _ hnodes
    rw [Statements.toList_ofList] at hnodes ⊢
    exact linesAnew_of_goesOn (ih hnodes)
  | whileLoop _ _ ih₁ ih₂ =>
    intro hid hnodes
    obtain ⟨hcondition, hbody⟩ := List.forall_mem_cons.1 (free_children (hnodes _ (.head _)))
    refine linesAnew_of_goesOn (lines_anew hid rfl ?_)
    exact lines_while (ih₁ hcondition) (ih₂ hbody)
  | ifElse _ _ _ ih₁ ih₂ ih₃ =>
    intro hid hnodes
    obtain ⟨hcondition, hbodies⟩ := List.forall_mem_cons.1 (free_children (hnodes _ (.head _)))
    obtain ⟨hconsequent, halternative⟩ := List.forall_mem_append.1 hbodies
    refine linesAnew_of_goesOn (lines_anew hid rfl ?_)
    exact lines_conditional
      (written_conditional (ih₁ hcondition) (ih₂ hconsequent) (ih₃ halternative))
  | breakOut _ hend =>
    exact fun hid _ => ⟨true, lines_anew hid rfl lines_break, fun _ => hend⟩
  | returnNothing _ _ hend =>
    exact fun hid _ => ⟨true, lines_anew hid rfl lines_return, fun _ => hend⟩
  | returnValue _ _ _ hend ih =>
    intro hid hnodes
    have hvalue := ih (free_children (hnodes _ (.head _)) _ (.head _))
    exact ⟨true, lines_anew hid rfl (lines_returnValue hvalue), fun _ => hend⟩
  | condition _ _ _ ih => exact ih
  | noAlternative => exact fun _ => writtenElse_nothing
  | elseIf _ _ _ hif hread ih =>
    intro hnodes
    obtain ⟨node, rfl, hconditional⟩ := conditional_of_reads hif hread
    obtain ⟨ends, hlines, -⟩ := ih hnodes
    have hanew : (anew f node).isConditional = true := (isConditional_anew f node).trans hconditional
    exact writtenElse_conditional hanew (hlines.conditional _ (.head _) hanew)
  | elseBlock _ _ _ _ _ ih => exact fun hnodes => writtenElse_block (ih hnodes)
  | done => exact fun _ => linesAnew_of_goesOn (lines_nothing [])
  | next _ _ hrest ih₁ ih₂ =>
    intro hnodes
    obtain ⟨hfirst, hnodes'⟩ := List.forall_mem_append.1 hnodes
    exact linesAnew_append hrest (ih₁ hfirst) (ih₂ hnodes')
  | blockBody ho hs hm ih =>
    intro hnodes
    rw [Statements.toList_ofList] at hnodes
    exact written_blockAnew hf (.blockBody ho hs hm) (ih hnodes)
  | block _ _ ih => exact ih

end

/-! ## Scripts -/

theorem Form.mem_word? {form : Form} {text : String} (h : text ∈ form.variableName?) :
    text ∈ form.word? := by
  cases form with
  | name | function => exact h
  | _ => cases h

theorem not_isKeyword_of_mark (text : String) : isKeyword (text ++ "_") = false := by
  have hall : ∀ symbol ∈ SymbolTable.grammar.symbols, symbol.id.toList.getLast? ≠ some '_' := by
    decide +kernel
  refine Bool.eq_false_iff.2 fun hk => ?_
  obtain ⟨symbol, hl⟩ := Option.isSome_iff_exists.1 hk
  obtain ⟨hm, hid⟩ := SymbolTable.mem_of_lookup? hl
  refine hall symbol hm ?_
  rw [hid, String.toList_append]
  exact List.getLast?_concat

section
variable {source : String} {tree : Statements} (h : parseScript source = .ok tree)
  (hfinite : ∀ visit ∈ tree.walk, ∀ n ∈ visit.2.number?, n.isFinite = true)
  (hmember : ∀ visit ∈ tree.walk, ∀ object ∈ visit.2.object?, object.number? = none)
include h hfinite hmember

/-- **A tree with free names is read back**, whatever its script declares: if its variables get other
names that are told apart and are no words of the grammar, then what is written of it is read as the
tree with these names. -/
theorem parseScript_script_respell {f : String → String} (hf : Function.Injective f)
    (hfree : ∀ visit ∈ tree.walk, ∀ text ∈ visit.2.form.variableName?,
      Word.Spelled (.name, f text) ∧ isKeyword (f text) = false) :
    ∃ again, parseScript (tree.respell f id).script = .ok again ∧
      again.same (tree.respell f id) = true ∧ again.script = (tree.respell f id).script := by
  obtain ⟨tokens, -, hparse⟩ := parseScript_eq_ok.1 h
  obtain ⟨q, hrun⟩ := parseTokens_eq_ok.1 hparse
  obtain ⟨t, r, nodes, s, e, -, hread, he, rfl⟩ := reads_of_script hrun
  have hspelled := Statements.forall_walk.2 (spelled_of_parseScript h)
  have hnodes : FreeNodes f nodes := by
    rw [← Statements.toList_ofList nodes]
    exact Statements.forall_walk.1 fun visit hv =>
      ⟨⟨hfinite visit hv, hmember visit hv⟩, hspelled visit hv, hfree visit hv⟩
  obtain ⟨ends, hlines, hends⟩ := writtenAnew_of_reads hf hread hnodes
  have hend : s.current.id = endId := (expect_eq_ok.1 he).1
  cases ends with
  | true => exact absurd ((hends rfl).symm.trans hend) (by decide)
  | false =>
    have hnames := (distinct_of_reads hread).2.nodup
    have hwritable := Statements.writable_of_walk hfinite hmember
    rw [Statements.respell_ofList]
    have hbare : nodes.map (anew f) = (nodes.map (Node.respell f id)).map Node.bare :=
      (List.map_map ..).symm
    refine parseScript_script_of_lines (hbare ▸ hlines) (hnames.map hf) ?_
    exact List.forall_mem_map.2 fun node hm =>
      (Node.everywhere_map (children_respell f) (writable_respell f) node).2 (hwritable node hm)

/-- In particular, a script may declare words of the grammar that its tree does not name. -/
theorem parseScript_script_of_free
    (hfree : ∀ visit ∈ tree.walk, ∀ text ∈ visit.2.form.variableName?, isKeyword text = false) :
    ∃ again, parseScript tree.script = .ok again ∧ again.same tree = true ∧
      again.script = tree.script := by
  have hspelled := Statements.forall_walk.2 (spelled_of_parseScript h)
  have hself : tree.respell id id = tree := tree.respell_id
  rw [← hself]
  exact parseScript_script_respell h hfinite hmember Function.injective_id fun visit hv text ht =>
    ⟨(hspelled visit hv).name text (Form.mem_word? ht), hfree visit hv text ht⟩

/-- With a mark behind each of its variables the tree of every script is read back. -/
theorem parseScript_script_of_marks :
    ∃ again, parseScript (tree.respell (· ++ "_") id).script = .ok again ∧
      again.same (tree.respell (· ++ "_") id) = true ∧
      again.script = (tree.respell (· ++ "_") id).script := by
  have hspelled := Statements.forall_walk.2 (spelled_of_parseScript h)
  refine parseScript_script_respell h hfinite hmember (fun _ _ => String.append_left_inj _ |>.1)
    fun visit hv text ht => ⟨?_, not_isKeyword_of_mark text⟩
  obtain ⟨c, rest, htext, hc, hrest⟩ := (hspelled visit hv).name text (Form.mem_word? ht)
  refine ⟨c, rest ++ ['_'], ?_, hc, ?_⟩
  · rw [String.toList_append, htext]
    rfl
  · exact List.forall_mem_append.2 ⟨hrest, List.forall_mem_singleton.2 rfl⟩

end

/-- **Printing undoes parsing.** The text of the tree of a script is read as the same tree, if its
numerals are finite, no property is taken of a numeral, and no word of the grammar is declared. -/
theorem parseScript_script {source : String} {tree : Statements}
    (h : parseScript source = .ok tree)
    (hfinite : ∀ visit ∈ tree.walk, ∀ n ∈ visit.2.number?, n.isFinite = true)
    (hmember : ∀ visit ∈ tree.walk, ∀ object ∈ visit.2.object?, object.number? = none)
    (hdeclared : (parseDeclaring isFree source).isOk = true) :
    ∃ again, parseScript tree.script = .ok again ∧ again.same tree = true ∧
      again.script = tree.script :=
  parseScript_script_of_free h hfinite hmember (free_of_parseDeclaring h hdeclared)

theorem parseScript_script_at_loop :
    let source := "var x = 2, y; while (x) \x7b y(x); \x7d"
    ∃ tree again, parseScript source = .ok tree ∧ parseScript tree.script = .ok again ∧
      again.same tree = true ∧ again.script = tree.script := by
  intro source
  have htokens : tokensOf .standard source = .ok [⟨.name, "var", ⟨1, 1⟩⟩, ⟨.name, "x", ⟨1, 5⟩⟩,
      ⟨.operator, "=", ⟨1, 7⟩⟩, ⟨.number, "2", ⟨1, 9⟩⟩, ⟨.operator, ",", ⟨1, 10⟩⟩,
      ⟨.name, "y", ⟨1, 12⟩⟩, ⟨.operator, ";", ⟨1, 13⟩⟩, ⟨.name, "while", ⟨1, 15⟩⟩,
      ⟨.operator, "(", ⟨1, 21⟩⟩, ⟨.name, "x", ⟨1, 22⟩⟩, ⟨.operator, ")", ⟨1, 23⟩⟩,
      ⟨.operator, "\x7b", ⟨1, 25⟩⟩, ⟨.name, "y", ⟨1, 27⟩⟩, ⟨.operator, "(", ⟨1, 28⟩⟩,
      ⟨.name, "x", ⟨1, 29⟩⟩, ⟨.operator, ")", ⟨1, 30⟩⟩, ⟨.operator, ";", ⟨1, 31⟩⟩,
      ⟨.operator, "\x7d", ⟨1, 33⟩⟩, .ending ⟨1, 34⟩] := eq_ok_of_toOption (by decide +kernel)
  have h : parseScript source = .ok (.sequence [
      .ofForm "=" (.declaration (.ofName "x" ⟨1, 5⟩)
        (.ofValue (.number (.ofDecimal false ⟨2, 0⟩)) ⟨1, 9⟩)) ⟨1, 7⟩,
      .ofForm "while" (.whileLoop (.ofName "x" ⟨1, 22⟩) (.single
        (.ofForm "(" (.call (.ofName "y" ⟨1, 27⟩) [.ofName "x" ⟨1, 29⟩]) ⟨1, 28⟩))) ⟨1, 15⟩]) := by
    rw [parseScript, htokens]
    rfl
  refine (parseScript_script h ?_ ?_ ?_).elim fun again hagain => ⟨_, again, h, hagain⟩
  · simp [Statements.walk, Statements.toList, Node.walk_eq, Node.children, Form.children,
      Node.ofForm, Node.ofName, Node.ofValue, Node.form, Node.number?, Node.id]
    decide +kernel
  · simp [Statements.walk, Statements.toList, Node.walk_eq, Node.children, Form.children,
      Node.ofForm, Node.ofName, Node.ofValue, Node.form, Node.object?]
  · rw [parseDeclaring, htokens]
    rfl

end ScriptTree
