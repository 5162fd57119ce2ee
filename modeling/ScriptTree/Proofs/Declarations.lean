import ScriptTree.Proofs.Schema
import ScriptTree.Proofs.Language.Sound

/-!
# Names of one scope

Every list of statements in a tree stands for one scope, and so do a function's name, its parameters
and its body together. No scope of an accepted script declares a name twice (`distinct_of_parseTokens`),
whatever the symbol table is. The lists are collected while their scope is open, so the names of what
has been read so far are those that the scope has gained.
-/

namespace ScriptTree

open Actions Parse ScopeChain

def Form.name? : Form → Option String
  | name text => some text
  | _ => none

def Form.declared? : Form → Option String
  | declaration target _ => target.form.name?
  | _ => none

/-- The names that statements declare, those inside them apart. -/
def declaredNames (nodes : List Node) : List String := nodes.filterMap (·.form.declared?)

def parameterNames (nodes : List Node) : List String := nodes.filterMap (·.form.name?)

/-- The names of each scope that belongs to a node of this form. -/
def Form.scopeNames : Form → List (List String)
  | block body | whileLoop _ body => [declaredNames body.toList]
  | ifElse _ consequent alternative =>
    [declaredNames consequent.toList, declaredNames alternative.toList]
  | function own parameters body =>
    [own.toList ++ parameterNames parameters ++ declaredNames body.toList]
  | _ => []

/-- No scope of the node has a name twice. -/
def Node.Distinct (node : Node) : Prop := ∀ names ∈ node.form.scopeNames, names.Nodup

def ListKind.names (nodes : List Node) : ListKind → List String
  | items | entries => []
  | parameters => parameterNames nodes
  | declarations => declaredNames nodes

def Phrase.Distinct (c d : ScopeChain) : Phrase → Prop
  | expression _ node | operand _ _ node | condition node => node.Everywhere Node.Distinct
  | climb _ left node | operation _ _ left _ node =>
    left.Everywhere Node.Distinct → node.Everywhere Node.Distinct
  | element kind nodes | list kind nodes | upTo _ kind nodes =>
    (∀ node ∈ nodes, node.Everywhere Node.Distinct) ∧ c.Declares (kind.names nodes) d
  | functionName name => c.Declares name.toList d
  | statement read | ruled _ _ read =>
    (∀ node ∈ read.toList, node.Everywhere Node.Distinct) ∧
      c.Declares (declaredNames read.toList) d
  | statements nodes =>
    (∀ node ∈ nodes, node.Everywhere Node.Distinct) ∧ c.Declares (declaredNames nodes) d
  | alternative body | blockBody body | block body =>
    (∀ node ∈ body.toList, node.Everywhere Node.Distinct) ∧ (declaredNames body.toList).Nodup

/-! ## Names and nodes -/

theorem declaredNames_append (nodes more : List Node) :
    declaredNames (nodes ++ more) = declaredNames nodes ++ declaredNames more :=
  List.filterMap_append

theorem ListKind.names_append (kind : ListKind) (nodes more : List Node) :
    kind.names (nodes ++ more) = kind.names nodes ++ kind.names more := by
  cases kind with
  | items | entries => rfl
  | parameters => exact List.filterMap_append
  | declarations => exact declaredNames_append nodes more

theorem declaredNames_single {node : Node} (h : node.form.declared? = none) :
    declaredNames (Statements.single node).toList = [] := by
  simp [declaredNames, Statements.toList_single, h]

theorem Form.declared?_of_effect {form : Form} (h : (form.isAssignment || form.isCall) = true) :
    form.declared? = none := by
  cases form with
  | assignment | call => rfl
  | _ => cases h

theorem distinct_ofForm {id : String} {form : Form} {position : Position}
    (hnames : ∀ names ∈ form.scopeNames, names.Nodup)
    (hchildren : ∀ child ∈ form.children, child.Everywhere Node.Distinct) :
    (Node.ofForm id form position).Everywhere Node.Distinct :=
  Node.everywhere_iff.2 ⟨hnames, hchildren⟩

theorem distinct_leaf {id : String} {form : Form} {position : Position} (h : form.children = [])
    (hnames : form.scopeNames = []) :
    (Node.ofForm id form position).Everywhere Node.Distinct := by
  refine distinct_ofForm ?_ ?_
  · rw [hnames]
    exact nofun
  · rw [h]
    exact nofun

theorem distinct_withKey {value : Node} (key : String) (h : value.Everywhere Node.Distinct) :
    (value.withKey key).Everywhere Node.Distinct := by
  refine (Node.everywhere_withKey ?_).2 h
  cases value
  exact Iff.rfl

theorem distinct_single {node : Node} {c d : ScopeChain} (hnode : node.Everywhere Node.Distinct)
    (hname : node.form.declared? = none) :
    Phrase.Distinct c d (.statement (.single node)) := by
  refine ⟨List.forall_mem_singleton.2 hnode, ?_⟩
  rw [declaredNames_single hname]
  exact .none c d

theorem distinct_block {token : SymbolToken} {body : Statements} {c d : ScopeChain}
    (h : Phrase.Distinct c d (.blockBody body)) :
    Phrase.Distinct c d
      (.statement (if body.isEmpty then .empty else .single (token.node (.block body)))) := by
  by_cases hempty : body.isEmpty = true
  · rw [if_pos hempty]
    exact ⟨nofun, .none c d⟩
  · rw [if_neg hempty]
    exact distinct_single (distinct_ofForm (List.forall_mem_singleton.2 h.2) h.1) rfl

/-! ## Readings -/

section
variable {table : SymbolTable} {p q r : Parser}

theorem declares_of_declare {node : Node} {t : SymbolToken}
    (hd : (standard table).define p.current p = (.ok node, q))
    (hm : (standard table).advance q = (.ok t, r)) :
    node = p.current.asName ∧ p.scopes.Declares [p.current.value] r.scopes := by
  obtain ⟨scopes, hdef, rfl, rfl⟩ := standard_define_eq_ok.1 hd
  rw [scopes_of_moveOn hm]
  exact ⟨rfl, declares_of_define rfl hdef⟩

/-- **No reading declares a name twice in one scope.** -/
theorem distinct_of_reads {phrase : Phrase} (h : Reads table (standard table) phrase p q) :
    phrase.Distinct p.scopes q.scopes := by
  have ha := Refines.refl (standard table)
  induction h with
  | expression _ _ _ _ ih₁ ih₂ => exact ih₂ ih₁
  | stay => exact id
  | climb _ _ _ _ _ _ ih₁ ih₂ => exact fun hleft => ih₂ (ih₁ hleft)
  | name | number | string | self | constant => exact distinct_leaf rfl rfl
  | unary _ _ ih => exact distinct_ofForm nofun (List.forall_mem_singleton.2 ih)
  | grouping _ _ ih => exact ih
  | array _ ih => exact distinct_ofForm nofun ih.1
  | object _ ih => exact distinct_ofForm nofun ih.1
  | function ho hn hs hp hb hbody _ ih₁ ih₂ ih₃ =>
    rw [scopes_of_expect ha hs] at ih₂
    rw [scopes_of_expect ha hb] at ih₃
    have hf₁ := frames_of_reads ha hn
    have hf₂ := (scopes_of_expect ha hs ▸ frames_of_reads ha hp :)
    have hf₃ := (scopes_of_expect ha hb ▸ frames_of_reads ha hbody :)
    have hparameters := ih₁.trans ih₂.2 hf₁ hf₂
    have hall := hparameters.trans ih₃.2 (hf₁.trans hf₂) hf₃
    refine distinct_ofForm (List.forall_mem_singleton.2 ?_) ?_
    · rw [Statements.toList_ofList]
      exact hall.nodup
    · refine List.forall_mem_append.2 ⟨ih₂.1, ?_⟩
      rw [Statements.toList_ofList]
      exact ih₃.1
  | anonymous => exact .none _ _
  | named _ hd hm => exact (declares_of_declare hd hm).2
  | binary _ ih | binaryRight _ ih | assignment _ _ ih | index _ _ ih =>
    exact fun hleft => distinct_ofForm nofun (forall_mem_pair hleft ih)
  | ternary _ _ _ ih₁ ih₂ =>
    exact fun hleft => distinct_ofForm nofun (List.forall_mem_cons.2 ⟨hleft, forall_mem_pair ih₁ ih₂⟩)
  | member =>
    exact fun hleft => distinct_ofForm nofun (forall_mem_pair hleft (distinct_leaf rfl rfl))
  | call _ _ ih => exact fun hleft => distinct_ofForm nofun (List.forall_mem_cons.2 ⟨hleft, ih.1⟩)
  | item _ ih => exact ⟨List.forall_mem_singleton.2 ih, .none _ _⟩
  | entry _ _ _ _ ih =>
    exact ⟨List.forall_mem_singleton.2 (distinct_withKey _ ih), .none _ _⟩
  | parameter _ hd hm =>
    obtain ⟨rfl, hdecl⟩ := declares_of_declare hd hm
    exact ⟨List.forall_mem_singleton.2 (distinct_leaf rfl rfl), hdecl⟩
  | uninitialised => exact ⟨nofun, .none _ _⟩
  | initialised _ hd hm _ hs hv ih =>
    obtain ⟨rfl, hdecl⟩ := declares_of_declare hd hm
    refine ⟨List.forall_mem_singleton.2 (distinct_ofForm nofun
      (forall_mem_pair (distinct_leaf rfl rfl) ih)), ?_⟩
    exact hdecl.extend ((frames_of_advance ha hs).trans (frames_of_reads ha hv))
  | last _ _ ih => exact ih
  | more hf _ hm hrest ih₁ ih₂ =>
    rw [scopes_of_expect ha hm] at ih₂
    have hframes := (scopes_of_expect ha hm ▸ frames_of_reads ha hrest :)
    refine ⟨List.forall_mem_append.2 ⟨ih₁.1, ih₂.1⟩, ?_⟩
    rw [ListKind.names_append]
    exact ih₁.2.trans ih₂.2 (frames_of_reads ha hf) hframes
  | @closed _ _ _ kind _ _ _ =>
    refine ⟨nofun, ?_⟩
    cases kind <;> exact .none _ _
  | filled _ _ hm ih =>
    rw [Phrase.Distinct, scopes_of_expect ha hm]
    exact ih
  | expressionStatement _ _ hn _ ih => exact distinct_single ih (Form.declared?_of_effect hn)
  | ruled _ hm hr hread ih =>
    -- the names are free in front of the keyword as well
    have hframes := (frames_of_advance ha hm).trans (frames_of_reserve ha hr)
    exact ⟨ih.1, (Declares.none _ _).trans ih.2 hframes (frames_of_reads ha hread)⟩
  | blockStatement _ ih => exact distinct_block ih
  | declaration _ hm ih =>
    rw [Phrase.Distinct, scopes_of_expect ha hm, Statements.toList_ofList]
    exact ih
  | whileLoop _ _ ih₁ ih₂ =>
    exact distinct_single (distinct_ofForm (List.forall_mem_singleton.2 ih₂.2)
      (List.forall_mem_cons.2 ⟨ih₁, ih₂.1⟩)) rfl
  | ifElse _ _ _ ih₁ ih₂ ih₃ =>
    exact distinct_single (distinct_ofForm (forall_mem_pair ih₂.2 ih₃.2)
      (List.forall_mem_cons.2 ⟨ih₁, List.forall_mem_append.2 ⟨ih₂.1, ih₃.1⟩⟩)) rfl
  | breakOut | returnNothing => exact distinct_single (distinct_leaf rfl rfl) rfl
  | returnValue _ _ _ _ ih =>
    exact distinct_single (distinct_ofForm nofun (List.forall_mem_singleton.2 ih)) rfl
  | condition _ _ _ ih => exact ih
  | noAlternative => exact ⟨nofun, .nil⟩
  | elseIf _ _ _ _ _ ih => exact ⟨ih.1, ih.2.nodup⟩
  | elseBlock _ _ _ _ _ ih => exact ih
  | done => exact ⟨nofun, .none _ _⟩
  | next _ hs hrest ih₁ ih₂ =>
    refine ⟨List.forall_mem_append.2 ⟨ih₁.1, ih₂.1⟩, ?_⟩
    rw [declaredNames_append]
    exact ih₁.2.trans ih₂.2 (frames_of_reads ha hs) (frames_of_reads ha hrest)
  | blockBody _ _ _ ih =>
    rw [Phrase.Distinct, Statements.toList_ofList]
    exact ⟨ih.1, ih.2.nodup⟩
  | block _ _ ih => exact ih

end

/-- **No scope of an accepted script declares a name twice**: neither a list of statements, nor a
function with its own name, its parameters and its body. -/
theorem distinct_of_parseTokens {table : SymbolTable} {tokens : List Token} {tree : Statements}
    (h : parseTokens table tokens = .ok tree) :
    (declaredNames tree.toList).Nodup ∧
      ∀ visit ∈ tree.walk, ∀ names ∈ visit.2.form.scopeNames, names.Nodup := by
  obtain ⟨q, hrun⟩ := parseTokens_eq_ok.1 h
  obtain ⟨t, r, nodes, s, e, -, hread, -, rfl⟩ := reads_of_script hrun
  obtain ⟨hnodes, hdecl⟩ := distinct_of_reads hread
  rw [← Statements.toList_ofList nodes] at hnodes hdecl
  exact ⟨hdecl.nodup, (Statements.forall_walk (P := Node.Distinct)).2 hnodes⟩

theorem distinct_of_parseTokens_at_function :
    let tokens := tokensAt [(.name, "var"), (.name, "f"), (.operator, "="), (.name, "function"),
      (.name, "g"), (.operator, "("), (.name, "x"), (.operator, ","), (.name, "y"), (.operator, ")"),
      (.operator, "\x7b"), (.name, "var"), (.name, "f"), (.operator, "="), (.name, "x"),
      (.operator, ";"), (.operator, "\x7d"), (.operator, ","), (.name, "x"), (.operator, "="),
      (.name, "f"), (.operator, ";")]
    ∃ tree, parseTokens .grammar tokens = .ok tree ∧ declaredNames tree.toList = ["f", "x"] ∧
      (declaredNames tree.toList).Nodup ∧
      ∀ visit ∈ tree.walk, ∀ names ∈ visit.2.form.scopeNames, names.Nodup := by
  intro tokens
  exact ⟨_, rfl, rfl, @distinct_of_parseTokens .grammar tokens _ rfl⟩

end ScriptTree
