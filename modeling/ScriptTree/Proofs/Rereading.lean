import ScriptTree.Proofs.Precedence
import ScriptTree.Proofs.Written

/-!
# Reading what is written

A tree whose statements are written as lines is read back from these: the words of the lines are cut
from the text, the bare tree is derived from the words, and what is derived is read. Literals of the
second tree are equal to those of the first one if they are equal to themselves.
-/

namespace ScriptTree

open Piece

/-! ## Trees that are derived -/

def Form.variableName? : Form → Option String
  | name text => some text
  | function own _ _ => own
  | _ => none

/-- A node as words are derived as: what is no numeral is equal to itself, and no variable is spelled
as a word of the grammar. -/
structure Node.Derived (node : Node) : Prop where
  constant : ∀ value, node.form = .literal value → node.number? = none → value.equal value = true
  free : ∀ text ∈ node.form.variableName?, isKeyword text = false

def Part.nodes : Part → List Node
  | .operand _ node | .conditional node => [node]
  | .element _ nodes _ | .list _ nodes _ | .upTo _ _ nodes _ | .statements nodes _ _ => nodes
  | .statement body _ _ | .alternative body | .block body => body.toList
  | .functionName _ => []

theorem Node.everywhere_plain {P : Node → Prop} {id : String} {form : Form} :
    (Node.plain id form).Everywhere P ↔
      P (.plain id form) ∧ ∀ child ∈ form.children, child.Everywhere P := everywhere_iff

theorem Node.derived_of_form {id : String} {form : Form} (hl : ∀ value, form ≠ .literal value)
    (hn : ∀ text, form ≠ .name text)
    (hf : ∀ own parameters body, form ≠ .function own parameters body) :
    (Node.plain id form).Derived := by
  refine ⟨fun value hv => absurd hv (hl value), fun text ht => ?_⟩
  cases form with
  | name text => exact absurd rfl (hn text)
  | function own parameters body => exact absurd rfl (hf own parameters body)
  | _ => cases ht

theorem Node.derived_withKey (value : Node) (key : String) :
    (value.withKey key).Derived ↔ value.Derived := by
  obtain ⟨id, other, position, form⟩ := value
  exact ⟨fun h => ⟨h.constant, h.free⟩, fun h => ⟨h.constant, h.free⟩⟩

theorem derived_name {text : String} (h : isKeyword text = false) :
    (Node.ofName text .start).Everywhere Node.Derived :=
  (Node.everywhere_ofForm rfl).2 ⟨nofun, by rintro _ ⟨⟩; exact h⟩

theorem derived_number (n : Number) :
    (Node.ofValue (.number n) .start).Everywhere Node.Derived := by
  refine (Node.everywhere_ofForm rfl).2 ⟨?_, nofun⟩
  rintro _ ⟨⟩ ⟨⟩

theorem derived_string (text : String) :
    (Node.ofValue (.string text) .start).Everywhere Node.Derived := by
  refine (Node.everywhere_ofForm rfl).2 ⟨?_, nofun⟩
  rintro _ ⟨⟩ -
  exact beq_self_eq_true text

theorem derived_constant {id : String} (hid : id ∈ ["true", "false", "null", "pi"]) :
    (Node.plain id (.literal (SymbolTable.grammar.constantOf id))).Everywhere Node.Derived := by
  have hall : ∀ id ∈ ["true", "false", "null", "pi"],
      (SymbolTable.grammar.constantOf id).equal (SymbolTable.grammar.constantOf id) = true := by
    decide +kernel
  refine (Node.everywhere_ofForm rfl).2 ⟨?_, nofun⟩
  rintro _ ⟨⟩ -
  exact hall _ hid

theorem derived_function {name : Option String} {parameters : List Node} {body : Statements}
    (h : ∀ text ∈ name, isKeyword text = false) :
    (Node.plain "function" (.function name parameters body)).Derived := ⟨nofun, h⟩

theorem Derives.functionName {functions : Prop} {name : Option String} {ws : List Word}
    (h : Derives functions (.functionName name) ws) : ∀ text ∈ name, isKeyword text = false := by
  cases h with
  | anonymous => exact nofun
  | named hk =>
    rintro _ ⟨⟩
    exact hk

theorem derived_of_derives {functions : Prop} {part : Part} {ws : List Word}
    (h : Derives functions part ws) : ∀ node ∈ part.nodes, node.Everywhere Node.Derived := by
  induction h with
  | constant hid => exact fun node hm => List.mem_singleton.1 hm ▸ derived_constant hid
  | function _ hname _ _ _ _ ih₁ ih₂ =>
    refine fun node hm => List.mem_singleton.1 hm ▸ Node.everywhere_plain.2 ⟨?_, ?_⟩
    · exact derived_function hname.functionName
    · rw [Form.children, Statements.toList_ofList]
      exact List.forall_mem_append.2 ⟨ih₁, ih₂⟩
  | noAlternative => exact fun _ hm => (List.not_mem_nil hm).elim
  | entry _ _ ih =>
    refine fun node hm => List.mem_singleton.1 hm ▸ ?_
    exact (Node.everywhere_withKey (Node.derived_withKey _ _)).2 (ih _ (.head _))
  | @blockStatement body _ _ ih =>
    cases body with
    | empty => exact fun _ hm => (List.not_mem_nil hm).elim
    | _ =>
      refine fun node hm => List.mem_singleton.1 hm ▸ Node.everywhere_plain.2 ⟨?_, ih⟩
      simp [Node.derived_of_form]
  | _ =>
    simp_all [Part.nodes, Node.everywhere_plain, Form.children, Node.derived_of_form, or_imp,
      derived_name, derived_number, derived_string, Statements.toList_single]

/-- A number that can be written is equal to itself, as all other literals are. -/
theorem Node.equal_self {node : Node} (hw : node.Writable) (hc : node.Derived) {value : Value}
    (h : node.form = .literal value) : value.equal value = true := by
  cases hn : node.number? with
  | none => exact hc.constant value h hn
  | some n =>
    have hfinite := hw.finite n hn
    have hvalue : value = .number n :=
      Form.literal.inj (h.symm.trans (number?_eq_some.1 hn).1)
    subst hvalue
    cases n with
    | nan => cases hfinite
    | infinity negative => cases hfinite
    | finite negative rank =>
      rw [Value.equal]
      exact Bool.and_eq_true_iff.2 ⟨beq_self_eq_true rank, by simp⟩

/-! ## Trees and bare trees -/

namespace Node

theorem everywhere_bare {P : Node → Prop} (hP : ∀ node : Node, P node.bare ↔ P node) (node : Node) :
    node.bare.Everywhere P ↔ node.Everywhere P := everywhere_map children_bare hP node

theorem number?_bare (node : Node) : node.bare.number? = node.number? := by
  obtain ⟨id, key, position, form⟩ := node
  cases form <;> rfl

theorem object?_bare (node : Node) : node.bare.object? = node.object?.map bare := by
  obtain ⟨id, key, position, form⟩ := node
  cases form <;> rfl

theorem writable_map {g : Node → Node} (hnumber : ∀ node, (g node).number? = node.number?)
    {node : Node} (hobject : (g node).object? = node.object?.map g) :
    (g node).Writable ↔ node.Writable := by
  have hmember : (∀ object ∈ (g node).object?, object.number? = none) ↔
      ∀ object ∈ node.object?, object.number? = none := by
    rw [hobject]
    cases node.object? with
    | none => exact ⟨fun _ => nofun, fun _ => nofun⟩
    | some object => simp [hnumber]
  constructor
  · exact fun h => ⟨hnumber node ▸ h.finite, hmember.1 h.member⟩
  · exact fun h => ⟨(hnumber node).symm ▸ h.finite, hmember.2 h.member⟩

theorem writable_bare (node : Node) : node.bare.Writable ↔ node.Writable :=
  writable_map number?_bare node.object?_bare

theorem derived_bare (node : Node) : node.bare.Derived ↔ node.Derived := by
  obtain ⟨id, key, position, form⟩ := node
  cases form with
  | literal => exact ⟨fun h => ⟨h.constant, nofun⟩, fun h => ⟨h.constant, nofun⟩⟩
  | name | function => exact ⟨fun h => ⟨nofun, h.free⟩, fun h => ⟨nofun, h.free⟩⟩
  | _ => exact ⟨fun _ => ⟨nofun, nofun⟩, fun _ => ⟨nofun, nofun⟩⟩

end Node

/-! ## Scripts that declare allowed names only -/

open Actions

def Actions.declaring (allowed : String → Bool) (table : SymbolTable) : Actions :=
  { standard table with
    define := fun t =>
      if allowed t.value then (standard table).define t
      else Parse.fail (t.error (.alreadyReserved t.value)) }

/-- Reads a script in which only allowed names may be declared, be it by `var`, as parameters or as the
names of functions. -/
def parseDeclaring (allowed : String → Bool) (script : String) : Except SyntaxError Statements := do
  let tokens ← tokensOf .standard script
  (Parse.script .grammar (.declaring allowed .grammar) (.start tokens)).1

def isFree (name : String) : Bool := !isKeyword name

theorem define_of_declaring {allowed : String → Bool} {table : SymbolTable} {t : SymbolToken}
    {p q : Parser} {node : Node} (h : (declaring allowed table).define t p = (.ok node, q)) :
    allowed t.value = true ∧ (standard table).define t p = (.ok node, q) := by
  simp only [declaring] at h
  split at h
  · rename_i ht
    exact ⟨ht, h⟩
  · cases h

theorem refines_declaring (allowed : String → Bool) (table : SymbolTable) :
    (declaring allowed table).Refines (standard table) :=
  ⟨rfl, rfl, fun h => (define_of_declaring h).2, rfl, rfl, rfl⟩

theorem tame_declaring : (declaring isFree .grammar).Tame True :=
  ⟨refines_declaring _ _, fun h _ => by simpa [isFree] using (define_of_declaring h).1⟩

/-! ## Scripts and their words -/

section
variable {script : String} {tokens : List Token} (h : tokensOf .standard script = .ok tokens)
include h

theorem derives_of_script {act : Actions} (ha : act.Tame True) {tree : Statements} {q : Parser}
    (hp : Parse.script .grammar act (.start tokens) = (.ok tree, q)) :
    ∃ nodes names ws, tree = .ofList nodes ∧ tokens.map Token.word = ws ++ [Word.ending] ∧
      ScopeChain.empty.Declares names q.scopes ∧
      Derives True (.statements (nodes.map Node.bare) names false) ws := by
  obtain ⟨us, hus, hspelled⟩ := Parser.words_of_tokensOf h
  have hended : Word.Ended (Word.Proper True) (tokens.map Token.word) :=
    ⟨us, hus, fun w hw => ⟨(hspelled w hw).1, (hspelled w hw).2, fun _ => trivial⟩⟩
  obtain ⟨t, r, nodes, s, e, hm, hread, he, rfl⟩ := reads_of_script hp
  rw [ha.refines.advance] at hm
  obtain ⟨hr, hwords, hscopes⟩ := Parser.stands_of_start hended hm
  obtain ⟨names, ends, ws, htake, hd, hdecl, hends⟩ := spells_of_reads ha hread hr trivial
  have hid := (expect_eq_ok.1 he).1
  have hend := htake.stands.words_of_end (fun _ hw => hw.1) hid
  have hws : us = ws := by
    have hboth : us ++ [Word.ending] = ws ++ [Word.ending] := by
      rw [← hus, ← hwords, htake.words, hend]
    exact List.append_cancel_right hboth
  subst hws
  cases ends with
  | true => exact absurd ((hends rfl).symm.trans hid) (by decide)
  | false =>
    rw [hscopes, ← scopes_of_expect ha.refines he] at hdecl
    exact ⟨nodes, names, us, rfl, hus, hdecl, hd⟩

theorem parseScript_of_derives {functions : Prop} {nodes : List Node} {names : List String}
    {ws : List Word} (hws : tokens.map Token.word = ws ++ [Word.ending]) (hn : names.Nodup)
    (hd : Derives functions (.statements nodes names false) ws) :
    ∃ made, parseScript script = .ok (.ofList made) ∧ made.map Node.bare = nodes := by
  obtain ⟨us, hus, hspelled⟩ := Parser.words_of_tokensOf h
  obtain rfl := List.append_cancel_right (hus.symm.trans hws)
  have hended : Word.Ended Word.Readable (tokens.map Token.word) :=
    ⟨us, hus, fun w hw => ⟨(hspelled w hw).1, (hspelled w hw).2, (hd.legible w hw).2⟩⟩
  obtain ⟨t, r, hm⟩ := Parser.start_of_known hended fun _ hw => hw.2
  obtain ⟨hr, hwords, hscopes⟩ := Parser.stands_of_start hended hm
  have hfresh : r.scopes.Fresh names :=
    hscopes ▸ ⟨hn, fun name hname => ⟨hd.not_isKeyword name hname, rfl⟩⟩
  obtain ⟨s, made, hs, hbare, hread⟩ :=
    read_of_derives hd r [Word.ending] hr (hwords.trans hws) (.inr ⟨rfl, rfl⟩) hfresh
  obtain ⟨e, u, he⟩ :=
    hs.stands.expect_end (show (standard .grammar).advance = _ from rfl) hs.words
  have hrun := script_of_reads SymbolTable.ends_grammar hm hread he
  refine ⟨made, ?_, hbare⟩
  rw [parseScript, h]
  exact congrArg Prod.fst hrun

end

/-! ## Statements on lines -/

theorem parseScript_writeLines {nodes : List Node} {names : List String}
    (h : WrittenLines nodes names false) (hn : names.Nodup) :
    ∃ made, parseScript (writeLines 0 nodes) = .ok (.ofList made) ∧ made.map Node.bare = nodes ∧
      ∀ node ∈ nodes, node.Everywhere Node.Derived := by
  obtain ⟨vs, kept, hy, hd, hkept⟩ := h.lines 0
  obtain ⟨tokens, htokens, hwords⟩ := tokensOf_of_cuts hy.cuts
  obtain ⟨made, hmade, hbare⟩ := parseScript_of_derives htokens hwords (hkept.nodup hn) hd
  exact ⟨made, hmade, hbare, derived_of_derives hd⟩

theorem parseScript_script_of_lines {nodes : List Node} {names : List String}
    (h : WrittenLines (nodes.map Node.bare) names false) (hn : names.Nodup)
    (hw : ∀ node ∈ nodes, node.Everywhere Node.Writable) :
    ∃ again, parseScript (Statements.ofList nodes).script = .ok again ∧
      again.same (.ofList nodes) = true ∧ again.script = (Statements.ofList nodes).script := by
  obtain ⟨made, hmade, hbare, hderived⟩ := parseScript_writeLines h hn
  have htrees : (Statements.ofList made).bare = (Statements.ofList nodes).bare := by
    rw [Statements.bare_ofList, Statements.bare_ofList, hbare]
  rw [← bareNodes_eq, writeLines_bare] at hmade
  refine ⟨.ofList made, ?_, ?_, ?_⟩
  · rw [Statements.script, Statements.toList_ofList]
    exact hmade
  · refine Statements.same_of_bare htrees fun a ha => ?_
    rw [Statements.toList_ofList] at ha
    have hm : a.bare ∈ nodes.map Node.bare := hbare ▸ List.mem_map_of_mem ha
    obtain ⟨node, hnode, hsame⟩ := List.mem_map.1 hm
    have hwritable := (Node.everywhere_bare Node.writable_bare node).2 (hw node hnode)
    rw [hsame] at hwritable
    have hwritable := (Node.everywhere_bare Node.writable_bare a).1 hwritable
    have hc := (Node.everywhere_bare Node.derived_bare a).1 (hderived _ hm)
    exact Node.same_of_bare a fun depth below hb value =>
      Node.equal_self (hwritable depth below hb) (hc depth below hb)
  · rw [← Statements.script_bare, htrees, Statements.script_bare]

theorem Statements.writable_of_walk {nodes : List Node}
    (hfinite : ∀ visit ∈ (ofList nodes).walk, ∀ n ∈ visit.2.number?, n.isFinite = true)
    (hmember : ∀ visit ∈ (ofList nodes).walk, ∀ object ∈ visit.2.object?, object.number? = none) :
    ∀ node ∈ nodes, node.Everywhere Node.Writable := by
  rw [← toList_ofList nodes]
  exact forall_walk.1 fun visit hv => ⟨hfinite visit hv, hmember visit hv⟩

theorem script_of_declaring {allowed : String → Bool} {tokens : List Token} {q : Parser}
    {tree : Statements}
    (h : Parse.script .grammar (.declaring allowed .grammar) (.start tokens) = (.ok tree, q)) :
    Parse.script .grammar (.standard .grammar) (.start tokens) = (.ok tree, q) := by
  have hrefines := refines_declaring allowed .grammar
  obtain ⟨t, r, nodes, s, e, hm, hread, he, rfl⟩ := reads_of_script h
  rw [hrefines.advance] at hm
  rw [expect_eq_ok, hrefines.advance] at he
  exact script_of_reads SymbolTable.ends_grammar hm (hread.refine hrefines) (expect_eq_ok.2 he)

/-- A script that declares no word of the grammar is derived from its words, with the names that are
variables of the scope behind it. -/
theorem run_of_parseDeclaring {source : String} (h : (parseDeclaring isFree source).isOk = true) :
    ∃ tokens nodes names ws q, tokensOf .standard source = .ok tokens ∧
      tokens.map Token.word = ws ++ [Word.ending] ∧
      Parse.script .grammar (.standard .grammar) (.start tokens) = (.ok (.ofList nodes), q) ∧
      ScopeChain.empty.Declares names q.scopes ∧
      Derives True (.statements (nodes.map Node.bare) names false) ws := by
  cases htokens : tokensOf .standard source with
  | error e =>
    rw [parseDeclaring, htokens] at h
    cases h
  | ok tokens =>
    rw [parseDeclaring, htokens] at h
    cases hrun : Parse.script .grammar (.declaring isFree .grammar) (.start tokens) with
    | mk result q =>
      cases result with
      | error e =>
        simp only [bind, Except.bind, hrun] at h
        cases h
      | ok tree =>
        obtain ⟨nodes, names, ws, rfl, hwords, hdecl, hd⟩ :=
          derives_of_script htokens tame_declaring hrun
        exact ⟨tokens, nodes, names, ws, q, rfl, hwords, script_of_declaring hrun, hdecl, hd⟩

theorem free_of_parseDeclaring {source : String} {tree : Statements}
    (h : parseScript source = .ok tree) (hdeclared : (parseDeclaring isFree source).isOk = true) :
    ∀ visit ∈ tree.walk, ∀ text ∈ visit.2.form.variableName?, isKeyword text = false := by
  obtain ⟨tokens, nodes, names, ws, q, htokens, -, hrun, -, hd⟩ := run_of_parseDeclaring hdeclared
  rw [parseScript, htokens] at h
  obtain rfl := Except.ok.inj (h.symm.trans (congrArg Prod.fst hrun))
  have hall : ∀ node ∈ (Statements.ofList nodes).toList, node.Everywhere Node.Derived := by
    rw [Statements.toList_ofList]
    exact fun node hm => (Node.everywhere_bare Node.derived_bare node).1
      (derived_of_derives hd _ (List.mem_map_of_mem hm))
  exact fun visit hv => (Statements.forall_walk.2 hall visit hv).free

end ScriptTree
