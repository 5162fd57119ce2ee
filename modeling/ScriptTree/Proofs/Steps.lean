import ScriptTree.Proofs.Reading

/-!
# Parsers are made of steps

All that the parsers of the grammar do is to look at the current symbol, to take steps and to fail.
So what each step keeps, and what goes through a sequence of two parsers, is kept by all of them
(`built_nested`).
-/

namespace ScriptTree

/-- A parser that touches its state by the steps alone. -/
inductive Parse.Built (act : Actions) : {α : Type} → Parse α → Prop
  | pure {α : Type} (a : α) : Built act (pure a : Parse α)
  | fail {α : Type} (e : SyntaxError) : Built act (Parse.fail e : Parse α)
  | current : Built act Parse.current
  | bind {α β : Type} {x : Parse α} {f : α → Parse β} : Built act x → (∀ a, Built act (f a)) →
      Built act (x >>= f)
  | advance : Built act act.advance
  | label : Built act act.label
  | define (t : SymbolToken) : Built act (act.define t)
  | reserve (t : SymbolToken) : Built act (act.reserve t)
  | openScope : Built act act.openScope
  | closeScope : Built act act.closeScope

open Parse

structure Calls.Built (act : Actions) (calls : Calls) : Prop where
  expression (power : BindingPower) : Parse.Built act (calls.expression power)
  climb (power : BindingPower) (left : Node) : Parse.Built act (calls.climb power left)
  items : Parse.Built act calls.items
  entries : Parse.Built act calls.entries
  parameters : Parse.Built act calls.parameters
  declarations : Parse.Built act calls.declarations
  statement : Parse.Built act calls.statement
  statements : Parse.Built act calls.statements

section
variable {act : Actions} {α : Type}

theorem Parse.Built.ite {c : Prop} [Decidable c] {x y : Parse α} (hx : Built act x)
    (hy : Built act y) : Built act (if c then x else y) := by
  by_cases h : c
  · rwa [if_pos h]
  · rwa [if_neg h]

theorem built_currentIs {id : String} {f : Bool → Parse α} (h : ∀ b, Built act (f b)) :
    Built act (currentIs id >>= f) :=
  .bind (.bind .current fun t => .pure (t.id == id)) h

theorem built_expect (id : String) : Built act (act.expect id) :=
  .bind .current fun _ => .ite .advance (.fail _)

theorem built_scopeEnd (id : String) : Built act (act.expectScopeEnd id) :=
  .bind .current fun _ => .ite (.bind .closeScope fun _ => .advance) (.fail _)

theorem built_continued (nodes : List Node) {more : Parse (List Node)} (h : Built act more) :
    Built act (Calls.continued act nodes more) := by
  apply built_currentIs
  intro b
  apply Built.ite
  · exact .bind (built_expect ",") fun _ => .bind h fun _ => .pure _
  · exact .pure _

theorem built_upTo (closing : String) {list : Parse (List Node)} (h : Built act list) :
    Built act (Calls.upTo act closing list) := by
  apply built_currentIs
  intro b
  apply Built.ite
  · exact .bind (built_expect closing) fun _ => .pure _
  · exact .bind h fun _ => .bind (built_expect closing) fun _ => .pure _

theorem built_functionName : Built act (PrefixRule.functionName act) :=
  .bind .current fun t => .ite (.bind (.define t) fun _ => .bind .advance fun _ => .pure _) (.pure _)

theorem built_literal (token : SymbolToken) : Built act (PrefixRule.literalNode token) := by
  unfold PrefixRule.literalNode
  split
  · split
    · exact .pure _
    · exact .fail _
  · exact .pure _

theorem built_expectBlockEnd : Built act StatementRule.expectBlockEnd :=
  .bind .current fun _ => .ite (.pure _) (.fail _)

variable {calls : Calls} (hc : calls.Built act)
include hc

theorem built_body : Built act calls.body := .bind hc.statements fun _ => .pure _

theorem built_blockBody : Built act (calls.blockBody act) :=
  .bind .openScope fun _ => .bind (built_body hc) fun _ => .bind (built_scopeEnd _) fun _ => .pure _

theorem built_block : Built act (calls.block act) :=
  .bind (built_expect _) fun _ => built_blockBody hc

theorem built_function (token : SymbolToken) : Built act (PrefixRule.functionNode act calls token) :=
  .bind .openScope fun _ => .bind built_functionName fun _ => .bind (built_expect _) fun _ =>
    .bind (built_upTo ")" hc.parameters) fun _ => .bind (built_expect _) fun _ =>
      .bind (built_body hc) fun _ => .bind (built_scopeEnd _) fun _ => .pure _

theorem built_operand (table : SymbolTable) (rule : PrefixRule) (token : SymbolToken) :
    Built act (rule.parse table act calls token) := by
  cases rule with
  | name => exact .pure _
  | literal => exact built_literal token
  | self | constant => exact .bind (.reserve token) fun _ => .pure _
  | unary => exact .bind (.reserve token) fun _ => .bind (hc.expression _) fun _ => .pure _
  | grouping => exact .bind (hc.expression _) fun _ => .bind (built_expect _) fun _ => .pure _
  | array => exact .bind (built_upTo _ hc.items) fun _ => .pure _
  | object => exact .bind (built_upTo _ hc.entries) fun _ => .pure _
  | function => exact built_function hc token

theorem built_operation (rule : InfixRule) (token : SymbolToken) (left : Node)
    (power : BindingPower) : Built act (rule.parse act calls token left power) := by
  cases rule with
  | binary | binaryRight => exact .bind (hc.expression _) fun _ => .pure _
  | assignment => exact .ite (.bind (hc.expression _) fun _ => .pure _) (.fail _)
  | ternary =>
    exact .bind (hc.expression _) fun _ => .bind (built_expect _) fun _ =>
      .bind (hc.expression _) fun _ => .pure _
  | member => exact .bind .current fun _ => .ite (.bind .label fun _ => .pure _) (.fail _)
  | index => exact .bind (hc.expression _) fun _ => .bind (built_expect _) fun _ => .pure _
  | call => exact .ite (.bind (built_upTo _ hc.items) fun _ => .pure _) (.fail _)

theorem built_condition : Built act (StatementRule.condition act calls) :=
  .bind (built_expect _) fun _ => .bind (hc.expression _) fun _ => .bind (built_expect _) fun _ =>
    .pure _

theorem built_alternative : Built act (StatementRule.alternative act calls) := by
  apply built_currentIs
  intro b
  apply Built.ite
  · apply Built.bind .current
    intro word
    apply Built.bind (.reserve word)
    intro _
    apply Built.bind (built_expect _)
    intro _
    exact built_currentIs fun _ => .ite hc.statement (built_block hc)
  · exact .pure _

theorem built_returnValue : Built act (StatementRule.returnValue calls) :=
  built_currentIs fun _ => .ite (.pure _) (.bind (hc.expression _) fun _ => .pure _)

theorem built_ruled (rule : StatementRule) (token : SymbolToken) :
    Built act (rule.parse act calls token) := by
  cases rule with
  | block => exact .bind (built_blockBody hc) fun _ => .pure _
  | declaration => exact .bind hc.declarations fun _ => .bind (built_expect _) fun _ => .pure _
  | whileLoop => exact .bind (built_condition hc) fun _ => .bind (built_block hc) fun _ => .pure _
  | ifElse =>
    exact .bind (built_condition hc) fun _ => .bind (built_block hc) fun _ =>
      .bind (built_alternative hc) fun _ => .pure _
  | breakOut => exact .bind (built_expect _) fun _ => .bind built_expectBlockEnd fun _ => .pure _
  | returnWith =>
    exact .bind (built_returnValue hc) fun _ => .bind (built_expect _) fun _ =>
      .bind built_expectBlockEnd fun _ => .pure _

theorem built_nextExpression (table : SymbolTable) (power : BindingPower) :
    Built act (calls.nextExpression table act power) := by
  apply Built.bind .advance
  intro token
  cases (table.lookup? token.id).bind (·.prefixRule?) with
  | none => exact .fail _
  | some rule => exact .bind (built_operand hc table rule token) fun left => hc.climb power left

theorem built_nextClimb (table : SymbolTable) (power : BindingPower) (left : Node) :
    Built act (calls.nextClimb table act power left) := by
  apply Built.bind .current
  intro current
  apply Built.ite
  · apply Built.bind .advance
    intro token
    split
    · exact .bind (built_operation hc _ token left _) fun middle => hc.climb power middle
    · exact .fail _
  · exact .pure left

theorem built_nextEntries : Built act (calls.nextEntries act) := by
  apply Built.bind .current
  intro key
  apply Built.ite
  · exact .bind .label fun _ => .bind (built_expect _) fun _ => .bind (hc.expression _) fun _ =>
      built_continued _ hc.entries
  · exact .fail _

theorem built_nextParameters : Built act (calls.nextParameters act) := by
  apply Built.bind .current
  intro parameter
  apply Built.ite
  · exact .bind (.define parameter) fun _ => .bind .advance fun _ => built_continued _ hc.parameters
  · exact .fail _

theorem built_initialValue (name : Node) : Built act (calls.initialValue act name) :=
  built_currentIs fun _ =>
    .ite (.bind .advance fun _ => .bind (hc.expression _) fun _ => .pure _) (.pure _)

theorem built_nextDeclarations : Built act (calls.nextDeclarations act) := by
  apply Built.bind .current
  intro word
  apply Built.ite
  · exact .bind (.define word) fun name => .bind .advance fun _ =>
      .bind (built_initialValue hc name) fun _ => built_continued _ hc.declarations
  · exact .fail _

theorem built_nextStatement (table : SymbolTable) : Built act (calls.nextStatement table act) := by
  apply Built.bind .current
  intro current
  cases (table.lookup? current.id).bind (·.statementRule?) with
  | none =>
    apply Built.bind (hc.expression _)
    intro node
    exact .ite (.bind (built_expect ";") fun _ => .pure _) (.fail _)
  | some rule => exact .bind .advance fun token => .bind (.reserve token) fun _ => built_ruled hc rule token

theorem built_nextStatements : Built act calls.nextStatements :=
  .bind .current fun _ =>
    .ite (.pure _) (.bind hc.statement fun _ => .bind hc.statements fun _ => .pure _)

theorem Calls.Built.next (table : SymbolTable) : (calls.next table act).Built act where
  expression := built_nextExpression hc table
  climb := built_nextClimb hc table
  items := .bind (hc.expression _) fun _ => built_continued _ hc.items
  entries := built_nextEntries hc
  parameters := built_nextParameters hc
  declarations := built_nextDeclarations hc
  statement := built_nextStatement hc table
  statements := built_nextStatements hc

theorem built_script : Built act (calls.script act) :=
  .bind .advance fun _ => .bind (built_body hc) fun _ => .bind (built_expect _) fun _ => .pure _

theorem built_singleExpression : Built act (calls.singleExpression act) :=
  .bind .advance fun _ => .bind (hc.expression _) fun _ => .bind (built_expect _) fun _ => .pure _

end

theorem built_giveUp {act : Actions} {α : Type} : Built act (Calls.giveUp : Parse α) :=
  .bind .current fun _ => .fail _

theorem built_nested (table : SymbolTable) (act : Actions) :
    ∀ depth, (Calls.nested table act depth).Built act
  | 0 => {
      expression _ := built_giveUp
      climb _ _ := built_giveUp
      items := built_giveUp
      entries := built_giveUp
      parameters := built_giveUp
      declarations := built_giveUp
      statement := built_giveUp
      statements := built_giveUp }
  | depth + 1 => (built_nested table act depth).next table

end ScriptTree
