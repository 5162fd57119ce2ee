import ScriptTree.Parser.Run

/-!
# Readings

A reading is a successful run of the parsers, written as a derivation: one constructor for each way
through a rule of the grammar, with the steps of the parser's state as its side conditions. What
holds of every reading holds of every parse that succeeds, however deep its calls are nested
(`reads_of_runs`).
-/

namespace ScriptTree

inductive ListKind where
  | items
  | entries
  | parameters
  | declarations
deriving DecidableEq

inductive Bracket where
  | round
  | square
  | curly

def Bracket.close : Bracket → String
  | round => ")"
  | square => "]"
  | curly => "\x7d"

/-- What a parser of the grammar has read. -/
inductive Phrase where
  | expression (power : BindingPower) (node : Node)
  | climb (power : BindingPower) (left node : Node)
  | operand (rule : PrefixRule) (token : SymbolToken) (node : Node)
  | operation (rule : InfixRule) (token : SymbolToken) (left : Node) (power : BindingPower)
      (node : Node)
  | element (kind : ListKind) (nodes : List Node)
  | list (kind : ListKind) (nodes : List Node)
  | upTo (bracket : Bracket) (kind : ListKind) (nodes : List Node)
  | functionName (name : Option String)
  | statement (read : Statements)
  | ruled (rule : StatementRule) (token : SymbolToken) (read : Statements)
  | condition (node : Node)
  | alternative (read : Statements)
  | statements (nodes : List Node)
  | blockBody (body : Statements)
  | block (body : Statements)

def SymbolTable.constantOf (table : SymbolTable) (id : String) : Value :=
  ((table.lookup? id).bind (·.constant?)).getD .null

inductive Reads (table : SymbolTable) (act : Actions) : Phrase → Parser → Parser → Prop
  | expression {p q r s token rule left power node} : act.advance p = (.ok token, q) →
      (table.lookup? token.id).bind (·.prefixRule?) = some rule →
      Reads table act (.operand rule token left) q r →
      Reads table act (.climb power left node) r s →
      Reads table act (.expression power node) p s
  | stay {p power left} : ¬ power < table.power p.current.id →
      Reads table act (.climb power left left) p p
  | climb {p q r s token symbol rule power left middle node} :
      power < table.power p.current.id → act.advance p = (.ok token, q) →
      table.lookup? token.id = some symbol → symbol.infixRule? = some rule →
      Reads table act (.operation rule token left symbol.infixPower middle) q r →
      Reads table act (.climb power middle node) r s →
      Reads table act (.climb power left node) p s
  | name {p token} : Reads table act (.operand .name token token.asName) p p
  | number {p token n} : token.token.kind = .number → Number.ofText? token.value = some n →
      Reads table act (.operand .literal token (Node.ofValue (.number n) token.position)) p p
  | string {p token} : token.token.kind ≠ .number →
      Reads table act (.operand .literal token
        (Node.ofValue (.string token.value) token.position)) p p
  | self {p q token} : act.reserve token p = (.ok (), q) →
      Reads table act (.operand .self token (token.node .self)) p q
  | constant {p q token} : act.reserve token p = (.ok (), q) →
      Reads table act
        (.operand .constant token (token.node (.literal (table.constantOf token.id)))) p q
  | unary {p q r token operand} : act.reserve token p = (.ok (), q) →
      Reads table act (.expression .unary operand) q r →
      Reads table act (.operand .unary token (token.node (.unary operand))) p r
  | grouping {p q r token closing inner} : Reads table act (.expression .none inner) p q →
      act.expect ")" q = (.ok closing, r) →
      Reads table act (.operand .grouping token inner) p r
  | array {p q token nodes} : Reads table act (.upTo .square .items nodes) p q →
      Reads table act (.operand .array token (token.node (.array nodes))) p q
  | object {p q token nodes} : Reads table act (.upTo .curly .entries nodes) p q →
      Reads table act (.operand .object token (token.node (.object nodes))) p q
  | function {p q r s t u v w token sign brace closing name parameters nodes} :
      act.openScope p = (.ok (), q) → Reads table act (.functionName name) q r →
      act.expect "(" r = (.ok sign, s) →
      Reads table act (.upTo .round .parameters parameters) s t →
      act.expect "\x7b" t = (.ok brace, u) → Reads table act (.statements nodes) u v →
      act.expectScopeEnd "\x7d" v = (.ok closing, w) →
      Reads table act
        (.operand .function token (token.node (.function name parameters (.ofList nodes)))) p w
  | anonymous {p} : p.current.isName = false → Reads table act (.functionName none) p p
  | named {p q r node token} : p.current.isName = true →
      act.define p.current p = (.ok node, q) → act.advance q = (.ok token, r) →
      Reads table act (.functionName (some p.current.value)) p r
  | binary {p q token left power right} : Reads table act (.expression power right) p q →
      Reads table act (.operation .binary token left power (token.node (.binary left right))) p q
  | binaryRight {p q token left power right} :
      Reads table act (.expression power.weaker right) p q →
      Reads table act
        (.operation .binaryRight token left power (token.node (.binary left right))) p q
  | assignment {p q token left power value} : left.form.isAssignable = true →
      Reads table act (.expression power.weaker value) p q →
      Reads table act
        (.operation .assignment token left power (token.node (.assignment left value))) p q
  | ternary {p q r s token left power consequent colon alternative} :
      Reads table act (.expression .none consequent) p q → act.expect ":" q = (.ok colon, r) →
      Reads table act (.expression .none alternative) r s →
      Reads table act (.operation .ternary token left power
        (token.node (.ternary left consequent alternative))) p s
  | member {p q token left power label} : p.current.isName = true →
      act.label p = (.ok label, q) →
      Reads table act (.operation .member token left power
        (token.node (.member left (Node.ofValue (.string label.value) label.position)))) p q
  | index {p q r token left power closing index} : Reads table act (.expression .none index) p q →
      act.expect "]" q = (.ok closing, r) →
      Reads table act (.operation .index token left power (token.node (.index left index))) p r
  | call {p q token left power nodes} : left.form.isCallable = true →
      Reads table act (.upTo .round .items nodes) p q →
      Reads table act (.operation .call token left power (token.node (.call left nodes))) p q
  | item {p q node} : Reads table act (.expression .none node) p q →
      Reads table act (.element .items [node]) p q
  | entry {p q r s label colon value} :
      (p.current.isName || p.current.token.isLiteral) = true → act.label p = (.ok label, q) →
      act.expect ":" q = (.ok colon, r) → Reads table act (.expression .none value) r s →
      Reads table act (.element .entries [value.withKey label.value]) p s
  | parameter {p q r node token} : p.current.isName = true →
      act.define p.current p = (.ok node, q) → act.advance q = (.ok token, r) →
      Reads table act (.element .parameters [node]) p r
  | uninitialised {p q r node token} : p.current.isName = true →
      act.define p.current p = (.ok node, q) → act.advance q = (.ok token, r) →
      r.current.id ≠ "=" → Reads table act (.element .declarations []) p r
  | initialised {p q r s t node token sign value} : p.current.isName = true →
      act.define p.current p = (.ok node, q) → act.advance q = (.ok token, r) →
      r.current.id = "=" → act.advance r = (.ok sign, s) →
      Reads table act (.expression .none value) s t →
      Reads table act (.element .declarations [sign.node (.declaration node value)]) p t
  | last {p q kind nodes} : Reads table act (.element kind nodes) p q → q.current.id ≠ "," →
      Reads table act (.list kind nodes) p q
  | more {p q r s kind nodes comma rest} : Reads table act (.element kind nodes) p q →
      q.current.id = "," → act.expect "," q = (.ok comma, r) →
      Reads table act (.list kind rest) r s → Reads table act (.list kind (nodes ++ rest)) p s
  | closed {p q bracket kind token} : p.current.id = bracket.close →
      act.expect bracket.close p = (.ok token, q) → Reads table act (.upTo bracket kind []) p q
  | filled {p q r bracket kind token nodes} : p.current.id ≠ bracket.close →
      Reads table act (.list kind nodes) p q → act.expect bracket.close q = (.ok token, r) →
      Reads table act (.upTo bracket kind nodes) p r
  | expressionStatement {p q r node token} :
      (table.lookup? p.current.id).bind (·.statementRule?) = none →
      Reads table act (.expression .none node) p q →
      (node.form.isAssignment || node.form.isCall) = true → act.expect ";" q = (.ok token, r) →
      Reads table act (.statement (.single node)) p r
  | ruled {p q r s token rule read} :
      (table.lookup? p.current.id).bind (·.statementRule?) = some rule →
      act.advance p = (.ok token, q) → act.reserve token q = (.ok (), r) →
      Reads table act (.ruled rule token read) r s → Reads table act (.statement read) p s
  | blockStatement {p q token body} : Reads table act (.blockBody body) p q →
      Reads table act (.ruled .block token
        (if body.isEmpty then .empty else .single (token.node (.block body)))) p q
  | declaration {p q r token nodes closing} : Reads table act (.list .declarations nodes) p q →
      act.expect ";" q = (.ok closing, r) →
      Reads table act (.ruled .declaration token (.ofList nodes)) p r
  | whileLoop {p q r token condition body} : Reads table act (.condition condition) p q →
      Reads table act (.block body) q r →
      Reads table act (.ruled .whileLoop token (.single (token.node (.whileLoop condition body))))
        p r
  | ifElse {p q r s token condition consequent alternative} :
      Reads table act (.condition condition) p q → Reads table act (.block consequent) q r →
      Reads table act (.alternative alternative) r s →
      Reads table act (.ruled .ifElse token
        (.single (token.node (.ifElse condition consequent alternative)))) p s
  | breakOut {p q token closing} : act.expect ";" p = (.ok closing, q) → q.current.id = "\x7d" →
      Reads table act (.ruled .breakOut token (.single (token.node .breakOut))) p q
  | returnNothing {p q token closing} : p.current.id = ";" → act.expect ";" p = (.ok closing, q) →
      q.current.id = "\x7d" →
      Reads table act (.ruled .returnWith token (.single (token.node (.returnWith none)))) p q
  | returnValue {p q r token closing value} : p.current.id ≠ ";" →
      Reads table act (.expression .none value) p q → act.expect ";" q = (.ok closing, r) →
      r.current.id = "\x7d" →
      Reads table act
        (.ruled .returnWith token (.single (token.node (.returnWith (some value))))) p r
  | condition {p q r s node sign closing} : act.expect "(" p = (.ok sign, q) →
      Reads table act (.expression .none node) q r → act.expect ")" r = (.ok closing, s) →
      Reads table act (.condition node) p s
  | noAlternative {p} : p.current.id ≠ "else" → Reads table act (.alternative .empty) p p
  | elseIf {p q r s word read} : p.current.id = "else" →
      act.reserve p.current p = (.ok (), q) → act.expect "else" q = (.ok word, r) →
      r.current.id = "if" → Reads table act (.statement read) r s →
      Reads table act (.alternative read) p s
  | elseBlock {p q r s word body} : p.current.id = "else" →
      act.reserve p.current p = (.ok (), q) → act.expect "else" q = (.ok word, r) →
      r.current.id ≠ "if" → Reads table act (.block body) r s →
      Reads table act (.alternative body) p s
  | done {p} : p.current.id = "\x7d" ∨ p.current.id = endId → Reads table act (.statements []) p p
  | next {p q r read rest} : ¬ (p.current.id = "\x7d" ∨ p.current.id = endId) →
      Reads table act (.statement read) p q → Reads table act (.statements rest) q r →
      Reads table act (.statements (read.toList ++ rest)) p r
  | blockBody {p q r s nodes closing} : act.openScope p = (.ok (), q) →
      Reads table act (.statements nodes) q r →
      act.expectScopeEnd "\x7d" r = (.ok closing, s) →
      Reads table act (.blockBody (.ofList nodes)) p s
  | block {p q r body token} : act.expect "\x7b" p = (.ok token, q) →
      Reads table act (.blockBody body) q r → Reads table act (.block body) p r

/-! ## Runs of the parse monad -/

namespace Parse

variable {α β : Type}

theorem bind_eq_ok {x : Parse α} {f : α → Parse β} {p r : Parser} {b : β} :
    (x >>= f) p = (.ok b, r) ↔ ∃ a q, x p = (.ok a, q) ∧ f a q = (.ok b, r) := by
  rw [bind_apply]
  cases hx : x p with
  | mk result q =>
    cases result with
    | error e => simp
    | ok a =>
      constructor
      · exact fun h => ⟨a, q, rfl, h⟩
      · rintro ⟨_, _, h, h'⟩
        cases h
        exact h'

theorem pure_eq_ok {a b : α} {p q : Parser} : (pure a : Parse α) p = (.ok b, q) ↔ a = b ∧ p = q := by
  simp

theorem current_bind_apply (f : SymbolToken → Parse β) (p : Parser) :
    (current >>= f) p = f p.current p := rfl

theorem currentIs_bind_apply (id : String) (f : Bool → Parse β) (p : Parser) :
    (currentIs id >>= f) p = f (p.current.id == id) p := rfl

theorem ite_run {c : Prop} [Decidable c] (x y : Parse α) (p : Parser) :
    (if c then x else y) p = if c then x p else y p := by
  split <;> rfl

end Parse

/-! ## Steps that succeed -/

theorem Parse.changeScopes_eq_ok {change : ScopeChain → Except SyntaxError ScopeChain} {p q : Parser}
    {u : Unit} : changeScopes change p = (.ok u, q) ↔
      ∃ scopes, change p.scopes = .ok scopes ∧ q = { p with scopes } := by
  unfold changeScopes
  cases change p.scopes <;> simp [eq_comm]

namespace Actions

open Parse

theorem expect_eq_ok {act : Actions} {id : String} {p q : Parser} {t : SymbolToken} :
    act.expect id p = (.ok t, q) ↔ p.current.id = id ∧ act.advance p = (.ok t, q) := by
  simp only [expect, current_bind_apply, ite_run]
  split
  · simp [*]
  · simp [*]

theorem expectScopeEnd_eq_ok {act : Actions} {id : String} {p q : Parser} {t : SymbolToken} :
    act.expectScopeEnd id p = (.ok t, q) ↔
      p.current.id = id ∧ ∃ u r, act.closeScope p = (.ok u, r) ∧ act.advance r = (.ok t, q) := by
  simp only [expectScopeEnd, current_bind_apply, ite_run]
  split
  · simp only [*, true_and]
    exact bind_eq_ok
  · simp [*]

section
variable {table : SymbolTable} {p q : Parser} {t : SymbolToken} {u : Unit}

theorem standard_define_eq_ok {node : Node} : (standard table).define t p = (.ok node, q) ↔
    ∃ scopes, p.scopes.define t.asName = .ok scopes ∧ node = t.asName ∧ q = { p with scopes } := by
  simp only [standard, bind_eq_ok, pure_eq_ok, changeScopes_eq_ok]
  constructor
  · rintro ⟨_, _, ⟨scopes, hs, rfl⟩, rfl, rfl⟩
    exact ⟨scopes, hs, rfl, rfl⟩
  · rintro ⟨scopes, hs, rfl, rfl⟩
    exact ⟨(), _, ⟨scopes, hs, rfl⟩, rfl, rfl⟩

theorem standard_reserve_eq_ok : (standard table).reserve t p = (.ok u, q) ↔
    ∃ scopes, (if t.isName then p.scopes.reserve t.asName else .ok p.scopes) = .ok scopes ∧
      q = { p with scopes } := by
  simp only [standard, ite_run]
  split
  · exact changeScopes_eq_ok
  · constructor
    · intro h
      cases h
      exact ⟨_, rfl, rfl⟩
    · rintro ⟨_, h, rfl⟩
      cases h
      rfl

theorem standard_openScope_eq_ok :
    (standard table).openScope p = (.ok u, q) ↔ q = { p with scopes := p.scopes.push } := by
  simp [standard, changeScopes_eq_ok]

theorem standard_closeScope_eq_ok :
    (standard table).closeScope p = (.ok u, q) ↔ q = { p with scopes := p.scopes.pop } := by
  simp [standard, changeScopes_eq_ok]

end

/-- Steps that are those of another kind, but may refuse to declare a name. -/
structure Refines (act base : Actions) : Prop where
  advance : act.advance = base.advance
  label : act.label = base.label
  define {t p n q} : act.define t p = (.ok n, q) → base.define t p = (.ok n, q)
  reserve : act.reserve = base.reserve
  openScope : act.openScope = base.openScope
  closeScope : act.closeScope = base.closeScope

theorem Refines.refl (act : Actions) : act.Refines act := ⟨rfl, rfl, id, rfl, rfl, rfl⟩

end Actions

/-- A reading with steps that refuse some names is one with those that do not. -/
theorem Reads.refine {table : SymbolTable} {act base : Actions} (ha : act.Refines base)
    {phrase : Phrase} {p q : Parser} (h : Reads table act phrase p q) :
    Reads table base phrase p q := by
  -- but for `define`, both have the same steps, and `expect` has
  obtain ⟨advance, label, define, reserve, openScope, closeScope⟩ := act
  obtain ⟨rfl, rfl, hdefine, rfl, rfl, rfl⟩ := ha
  induction h with
  | expression hm hr _ _ ih₁ ih₂ => exact .expression hm hr ih₁ ih₂
  | stay hpow => exact .stay hpow
  | climb hpow hm hl hr _ _ ih₁ ih₂ => exact .climb hpow hm hl hr ih₁ ih₂
  | name => exact .name
  | number hk hn => exact .number hk hn
  | string hk => exact .string hk
  | self hr => exact .self hr
  | constant hr => exact .constant hr
  | unary hr _ ih => exact .unary hr ih
  | grouping _ hm ih => exact .grouping ih hm
  | array _ ih => exact .array ih
  | object _ ih => exact .object ih
  | function ho _ hs _ hb _ hm ih₁ ih₂ ih₃ => exact .function ho ih₁ hs ih₂ hb ih₃ hm
  | anonymous hn => exact .anonymous hn
  | named hn hd hm => exact .named hn (hdefine hd) hm
  | binary _ ih => exact .binary ih
  | binaryRight _ ih => exact .binaryRight ih
  | assignment hl _ ih => exact .assignment hl ih
  | ternary _ hm _ ih₁ ih₂ => exact .ternary ih₁ hm ih₂
  | member hn hm => exact .member hn hm
  | index _ hm ih => exact .index ih hm
  | call hl _ ih => exact .call hl ih
  | item _ ih => exact .item ih
  | entry hk hm hc _ ih => exact .entry hk hm hc ih
  | parameter hn hd hm => exact .parameter hn (hdefine hd) hm
  | uninitialised hn hd hm hid => exact .uninitialised hn (hdefine hd) hm hid
  | initialised hn hd hm hid hs _ ih => exact .initialised hn (hdefine hd) hm hid hs ih
  | last _ hid ih => exact .last ih hid
  | more _ hid hm _ ih₁ ih₂ => exact .more ih₁ hid hm ih₂
  | closed hid hm => exact .closed hid hm
  | filled hid _ hm ih => exact .filled hid ih hm
  | expressionStatement hr _ hk hm ih => exact .expressionStatement hr ih hk hm
  | ruled hr hm hres _ ih => exact .ruled hr hm hres ih
  | blockStatement _ ih => exact .blockStatement ih
  | declaration _ hm ih => exact .declaration ih hm
  | whileLoop _ _ ih₁ ih₂ => exact .whileLoop ih₁ ih₂
  | ifElse _ _ _ ih₁ ih₂ ih₃ => exact .ifElse ih₁ ih₂ ih₃
  | breakOut hm hid => exact .breakOut hm hid
  | returnNothing hid hm hend => exact .returnNothing hid hm hend
  | returnValue hid _ hm hend ih => exact .returnValue hid ih hm hend
  | condition hm _ hs ih => exact .condition hm ih hs
  | noAlternative hid => exact .noAlternative hid
  | elseIf hid hr hm hif _ ih => exact .elseIf hid hr hm hif ih
  | elseBlock hid hr hm hif _ ih => exact .elseBlock hid hr hm hif ih
  | done hid => exact .done hid
  | next hid _ _ ih₁ ih₂ => exact .next hid ih₁ ih₂
  | blockBody ho _ hm ih => exact .blockBody ho ih hm
  | block hm _ ih => exact .block hm ih

/-! ## Every run is a reading -/

def ListKind.parse (calls : Calls) : ListKind → Parse (List Node)
  | items => calls.items
  | entries => calls.entries
  | parameters => calls.parameters
  | declarations => calls.declarations

structure Calls.Sound (table : SymbolTable) (act : Actions) (calls : Calls) : Prop where
  expression {power p node q} : calls.expression power p = (.ok node, q) →
    Reads table act (.expression power node) p q
  climb {power left p node q} : calls.climb power left p = (.ok node, q) →
    Reads table act (.climb power left node) p q
  list (kind : ListKind) {p nodes q} : kind.parse calls p = (.ok nodes, q) →
    Reads table act (.list kind nodes) p q
  statement {p read q} : calls.statement p = (.ok read, q) →
    Reads table act (.statement read) p q
  statements {p nodes q} : calls.statements p = (.ok nodes, q) →
    Reads table act (.statements nodes) p q

section
open Parse

variable {table : SymbolTable} {act : Actions} {calls : Calls}

theorem reads_of_functionName {name : Option String} {p q : Parser}
    (h : PrefixRule.functionName act p = (.ok name, q)) :
    Reads table act (.functionName name) p q := by
  simp only [PrefixRule.functionName, current_bind_apply, ite_run] at h
  split at h
  · rename_i hn
    simp only [bind_eq_ok, pure_eq_ok] at h
    obtain ⟨node, r, hd, token, s, hm, rfl, rfl⟩ := h
    exact .named hn hd hm
  · rename_i hn
    simp only [pure_eq_ok] at h
    obtain ⟨rfl, rfl⟩ := h
    exact .anonymous (by simpa using hn)

theorem reads_of_literal {token : SymbolToken} {node : Node} {p q : Parser}
    (h : PrefixRule.literalNode token p = (.ok node, q)) :
    Reads table act (.operand .literal token node) p q := by
  cases hk : token.token.kind with
  | number =>
    simp only [PrefixRule.literalNode, hk] at h
    cases hn : Number.ofText? token.value with
    | none => simp [hn] at h
    | some n =>
      simp only [hn, pure_eq_ok] at h
      obtain ⟨rfl, rfl⟩ := h
      exact .number hk hn
  | name | operator | string | ending =>
    simp only [PrefixRule.literalNode, hk, pure_eq_ok] at h
    obtain ⟨rfl, rfl⟩ := h
    exact .string (by simp [hk])

theorem end_of_expectBlockEnd {p q : Parser} {u : Unit}
    (h : StatementRule.expectBlockEnd p = (.ok u, q)) : p.current.id = "\x7d" ∧ p = q := by
  simp only [StatementRule.expectBlockEnd, current_bind_apply, ite_run] at h
  split at h
  · simp only [pure_eq_ok] at h
    exact ⟨‹_›, h.2⟩
  · simp at h

variable (hc : calls.Sound table act)
include hc

theorem reads_of_upTo (bracket : Bracket) (kind : ListKind) {nodes : List Node} {p q : Parser}
    (h : Calls.upTo act bracket.close (kind.parse calls) p = (.ok nodes, q)) :
    Reads table act (.upTo bracket kind nodes) p q := by
  simp only [Calls.upTo, currentIs_bind_apply, ite_run, beq_iff_eq] at h
  split at h
  · rename_i hid
    simp only [bind_eq_ok, pure_eq_ok] at h
    obtain ⟨token, r, hm, rfl, rfl⟩ := h
    exact .closed hid hm
  · rename_i hid
    simp only [bind_eq_ok, pure_eq_ok] at h
    obtain ⟨nodes, r, hl, token, s, hm, rfl, rfl⟩ := h
    exact .filled hid (hc.list _ hl) hm

theorem reads_of_continued {kind : ListKind} {first nodes : List Node} {p q r : Parser}
    (hf : Reads table act (.element kind first) p q)
    (h : Calls.continued act first (kind.parse calls) q = (.ok nodes, r)) :
    Reads table act (.list kind nodes) p r := by
  simp only [Calls.continued, currentIs_bind_apply, ite_run, beq_iff_eq] at h
  split at h
  · rename_i hid
    simp only [bind_eq_ok, pure_eq_ok] at h
    obtain ⟨comma, s, hm, rest, t, hl, rfl, rfl⟩ := h
    exact .more hf hid hm (hc.list _ hl)
  · rename_i hid
    simp only [pure_eq_ok] at h
    obtain ⟨rfl, rfl⟩ := h
    exact .last hf hid

theorem reads_of_blockBody {body : Statements} {p q : Parser}
    (h : calls.blockBody act p = (.ok body, q)) : Reads table act (.blockBody body) p q := by
  simp only [Calls.blockBody, Calls.body, bind_eq_ok, pure_eq_ok] at h
  obtain ⟨_, r, ho, _, s, ⟨nodes, t, hs, rfl, rfl⟩, closing, u, hm, rfl, rfl⟩ := h
  exact .blockBody ho (hc.statements hs) hm

theorem reads_of_block {body : Statements} {p q : Parser}
    (h : calls.block act p = (.ok body, q)) : Reads table act (.block body) p q := by
  simp only [Calls.block, bind_eq_ok] at h
  obtain ⟨token, r, hm, hb⟩ := h
  exact .block hm (reads_of_blockBody hc hb)

theorem reads_of_condition {node : Node} {p q : Parser}
    (h : StatementRule.condition act calls p = (.ok node, q)) :
    Reads table act (.condition node) p q := by
  simp only [StatementRule.condition, bind_eq_ok, pure_eq_ok] at h
  obtain ⟨sign, r, ho, _, s, hn, closing, t, hm, rfl, rfl⟩ := h
  exact .condition ho (hc.expression hn) hm

theorem reads_of_alternative {read : Statements} {p q : Parser}
    (h : StatementRule.alternative act calls p = (.ok read, q)) :
    Reads table act (.alternative read) p q := by
  simp only [StatementRule.alternative, currentIs_bind_apply, ite_run, beq_iff_eq] at h
  split at h
  · rename_i hid
    simp only [current_bind_apply, bind_eq_ok] at h
    obtain ⟨_, r, hr, word, s, hm, _, _, hi, h⟩ := h
    cases hi
    simp only [ite_run, beq_iff_eq] at h
    split at h
    · exact .elseIf hid hr hm ‹_› (hc.statement h)
    · exact .elseBlock hid hr hm ‹_› (reads_of_block hc h)
  · rename_i hid
    simp only [pure_eq_ok] at h
    obtain ⟨rfl, rfl⟩ := h
    exact .noAlternative hid

theorem reads_of_function {token : SymbolToken} {node : Node} {p q : Parser}
    (h : PrefixRule.functionNode act calls token p = (.ok node, q)) :
    Reads table act (.operand .function token node) p q := by
  simp only [PrefixRule.functionNode, Calls.body, bind_eq_ok, pure_eq_ok] at h
  obtain ⟨_, p₁, ho, name, p₂, hn, sign, p₃, hs, parameters, p₄, hp, brace, p₅, hb, _, _,
    ⟨nodes, _, hbody, rfl, rfl⟩, closing, p₆, hm, rfl, rfl⟩ := h
  have hp := reads_of_upTo hc .round .parameters hp
  exact .function ho (reads_of_functionName hn) hs hp hb (hc.statements hbody) hm

theorem reads_of_operand {rule : PrefixRule} {token : SymbolToken} {node : Node} {p q : Parser}
    (h : rule.parse table act calls token p = (.ok node, q)) :
    Reads table act (.operand rule token node) p q := by
  cases rule with
  | name =>
    simp only [PrefixRule.parse, pure_eq_ok] at h
    obtain ⟨rfl, rfl⟩ := h
    exact .name
  | literal => exact reads_of_literal h
  | self =>
    simp only [PrefixRule.parse, PrefixRule.selfNode, bind_eq_ok, pure_eq_ok] at h
    obtain ⟨_, r, hr, rfl, rfl⟩ := h
    exact .self hr
  | constant =>
    simp only [PrefixRule.parse, PrefixRule.constantNode, bind_eq_ok, pure_eq_ok] at h
    obtain ⟨_, r, hr, rfl, rfl⟩ := h
    exact .constant hr
  | unary =>
    simp only [PrefixRule.parse, PrefixRule.unaryNode, bind_eq_ok, pure_eq_ok] at h
    obtain ⟨_, r, hr, operand, s, he, rfl, rfl⟩ := h
    exact .unary hr (hc.expression he)
  | grouping =>
    simp only [PrefixRule.parse, PrefixRule.grouped, bind_eq_ok, pure_eq_ok] at h
    obtain ⟨inner, r, he, closing, s, hm, rfl, rfl⟩ := h
    exact .grouping (hc.expression he) hm
  | array =>
    simp only [PrefixRule.parse, PrefixRule.arrayNode, bind_eq_ok, pure_eq_ok] at h
    obtain ⟨nodes, r, hl, rfl, rfl⟩ := h
    exact .array (reads_of_upTo hc .square .items hl)
  | object =>
    simp only [PrefixRule.parse, PrefixRule.objectNode, bind_eq_ok, pure_eq_ok] at h
    obtain ⟨nodes, r, hl, rfl, rfl⟩ := h
    exact .object (reads_of_upTo hc .curly .entries hl)
  | function => exact reads_of_function hc h

theorem reads_of_operation {rule : InfixRule} {token : SymbolToken} {left node : Node}
    {power : BindingPower} {p q : Parser}
    (h : rule.parse act calls token left power p = (.ok node, q)) :
    Reads table act (.operation rule token left power node) p q := by
  cases rule with
  | binary =>
    simp only [InfixRule.parse, InfixRule.binaryNode, bind_eq_ok, pure_eq_ok] at h
    obtain ⟨right, r, he, rfl, rfl⟩ := h
    exact .binary (hc.expression he)
  | binaryRight =>
    simp only [InfixRule.parse, InfixRule.binaryRightNode, bind_eq_ok, pure_eq_ok] at h
    obtain ⟨right, r, he, rfl, rfl⟩ := h
    exact .binaryRight (hc.expression he)
  | assignment =>
    simp only [InfixRule.parse, InfixRule.assignmentNode, ite_run] at h
    split at h
    · rename_i hl
      simp only [bind_eq_ok, pure_eq_ok] at h
      obtain ⟨value, r, he, rfl, rfl⟩ := h
      exact .assignment hl (hc.expression he)
    · simp at h
  | ternary =>
    simp only [InfixRule.parse, InfixRule.ternaryNode, bind_eq_ok, pure_eq_ok] at h
    obtain ⟨consequent, r, hs, colon, s, hm, alternative, t, ht, rfl, rfl⟩ := h
    exact .ternary (hc.expression hs) hm (hc.expression ht)
  | member =>
    simp only [InfixRule.parse, InfixRule.memberNode, current_bind_apply, ite_run] at h
    split at h
    · rename_i hn
      simp only [bind_eq_ok, pure_eq_ok] at h
      obtain ⟨label, r, hm, rfl, rfl⟩ := h
      exact .member hn hm
    · simp at h
  | index =>
    simp only [InfixRule.parse, InfixRule.indexNode, bind_eq_ok, pure_eq_ok] at h
    obtain ⟨index, r, he, closing, s, hm, rfl, rfl⟩ := h
    exact .index (hc.expression he) hm
  | call =>
    simp only [InfixRule.parse, InfixRule.callNode, ite_run] at h
    split at h
    · rename_i hl
      simp only [bind_eq_ok, pure_eq_ok] at h
      obtain ⟨nodes, r, hl', rfl, rfl⟩ := h
      exact .call hl (reads_of_upTo hc .round .items hl')
    · simp at h

theorem reads_of_return {token : SymbolToken} {read : Statements} {p q : Parser}
    (h : StatementRule.returnStatement act calls token p = (.ok read, q)) :
    Reads table act (.ruled .returnWith token read) p q := by
  simp only [StatementRule.returnStatement, StatementRule.returnValue, bind_eq_ok, pure_eq_ok,
    currentIs_bind_apply, ite_run, beq_iff_eq] at h
  obtain ⟨value, r, hv, closing, s, hm, _, _, he, rfl, rfl⟩ := h
  obtain ⟨hid, rfl⟩ := end_of_expectBlockEnd he
  split at hv
  · simp only [pure_eq_ok] at hv
    obtain ⟨rfl, rfl⟩ := hv
    exact .returnNothing ‹_› hm hid
  · simp only [bind_eq_ok, pure_eq_ok] at hv
    obtain ⟨node, _, hv, rfl, rfl⟩ := hv
    exact .returnValue ‹_› (hc.expression hv) hm hid

theorem reads_of_ruled {rule : StatementRule} {token : SymbolToken} {read : Statements}
    {p q : Parser} (h : rule.parse act calls token p = (.ok read, q)) :
    Reads table act (.ruled rule token read) p q := by
  cases rule with
  | block =>
    simp only [StatementRule.parse, StatementRule.blockStatement, bind_eq_ok, pure_eq_ok] at h
    obtain ⟨body, r, hb, rfl, rfl⟩ := h
    exact .blockStatement (reads_of_blockBody hc hb)
  | declaration =>
    simp only [StatementRule.parse, StatementRule.declarationStatement, bind_eq_ok,
      pure_eq_ok] at h
    obtain ⟨nodes, r, hl, closing, s, hm, rfl, rfl⟩ := h
    exact .declaration (hc.list .declarations hl) hm
  | whileLoop =>
    simp only [StatementRule.parse, StatementRule.whileStatement, bind_eq_ok, pure_eq_ok] at h
    obtain ⟨condition, r, hcond, body, s, hb, rfl, rfl⟩ := h
    exact .whileLoop (reads_of_condition hc hcond) (reads_of_block hc hb)
  | ifElse =>
    simp only [StatementRule.parse, StatementRule.ifStatement, bind_eq_ok, pure_eq_ok] at h
    obtain ⟨condition, r, hcond, consequent, s, hb, alternative, t, ha, rfl, rfl⟩ := h
    exact .ifElse (reads_of_condition hc hcond) (reads_of_block hc hb) (reads_of_alternative hc ha)
  | breakOut =>
    simp only [StatementRule.parse, StatementRule.breakStatement, bind_eq_ok, pure_eq_ok] at h
    obtain ⟨closing, r, hm, _, _, he, rfl, rfl⟩ := h
    obtain ⟨hid, rfl⟩ := end_of_expectBlockEnd he
    exact .breakOut hm hid
  | returnWith => exact reads_of_return hc h

theorem reads_of_nextExpression {power : BindingPower} {node : Node} {p q : Parser}
    (h : calls.nextExpression table act power p = (.ok node, q)) :
    Reads table act (.expression power node) p q := by
  simp only [Calls.nextExpression, bind_eq_ok] at h
  obtain ⟨token, r, hm, h⟩ := h
  cases hr : (table.lookup? token.id).bind (·.prefixRule?) with
  | none => simp [hr] at h
  | some rule =>
    simp only [hr, bind_eq_ok] at h
    obtain ⟨left, s, ho, h⟩ := h
    exact .expression hm hr (reads_of_operand hc ho) (hc.climb h)

theorem reads_of_nextClimb {power : BindingPower} {left node : Node} {p q : Parser}
    (h : calls.nextClimb table act power left p = (.ok node, q)) :
    Reads table act (.climb power left node) p q := by
  simp only [Calls.nextClimb, current_bind_apply, ite_run] at h
  split at h
  · rename_i hp
    simp only [bind_eq_ok] at h
    obtain ⟨token, r, hm, h⟩ := h
    cases hl : table.lookup? token.id with
    | none => simp [hl] at h
    | some symbol =>
      obtain ⟨id, lbp, pre, infixRule, infixPower, std, constant⟩ := symbol
      cases infixRule with
      | none => simp [hl] at h
      | some rule =>
        simp only [hl, bind_eq_ok] at h
        obtain ⟨middle, s, ho, h⟩ := h
        exact .climb hp hm hl rfl (reads_of_operation hc ho) (hc.climb h)
  · rename_i hp
    simp only [pure_eq_ok] at h
    obtain ⟨rfl, rfl⟩ := h
    exact .stay hp

theorem reads_of_nextItems {nodes : List Node} {p q : Parser}
    (h : calls.nextItems act p = (.ok nodes, q)) : Reads table act (.list .items nodes) p q := by
  simp only [Calls.nextItems, bind_eq_ok] at h
  obtain ⟨item, r, he, h⟩ := h
  exact reads_of_continued hc (.item (hc.expression he)) h

theorem reads_of_nextEntries {nodes : List Node} {p q : Parser}
    (h : calls.nextEntries act p = (.ok nodes, q)) :
    Reads table act (.list .entries nodes) p q := by
  simp only [Calls.nextEntries, current_bind_apply, ite_run] at h
  split at h
  · rename_i hk
    simp only [bind_eq_ok] at h
    obtain ⟨label, r, hl, colon, s, hm, value, t, he, h⟩ := h
    exact reads_of_continued hc (.entry hk hl hm (hc.expression he)) h
  · simp at h

theorem reads_of_nextParameters {nodes : List Node} {p q : Parser}
    (h : calls.nextParameters act p = (.ok nodes, q)) :
    Reads table act (.list .parameters nodes) p q := by
  simp only [Calls.nextParameters, current_bind_apply, ite_run] at h
  split at h
  · rename_i hn
    simp only [bind_eq_ok] at h
    obtain ⟨node, r, hd, token, s, hm, h⟩ := h
    exact reads_of_continued hc (.parameter hn hd hm) h
  · simp at h

theorem reads_of_nextDeclarations {nodes : List Node} {p q : Parser}
    (h : calls.nextDeclarations act p = (.ok nodes, q)) :
    Reads table act (.list .declarations nodes) p q := by
  simp only [Calls.nextDeclarations, current_bind_apply, ite_run] at h
  split at h
  · rename_i hn
    simp only [bind_eq_ok, Calls.initialValue, currentIs_bind_apply, ite_run, beq_iff_eq] at h
    obtain ⟨name, r, hd, token, s, hm, nodes', t, hv, h⟩ := h
    split at hv
    · rename_i hid
      simp only [bind_eq_ok, pure_eq_ok] at hv
      obtain ⟨sign, u, hs, value, v, he, rfl, rfl⟩ := hv
      exact reads_of_continued hc (.initialised hn hd hm hid hs (hc.expression he)) h
    · rename_i hid
      simp only [pure_eq_ok] at hv
      obtain ⟨rfl, rfl⟩ := hv
      exact reads_of_continued hc (.uninitialised hn hd hm hid) h
  · simp at h

theorem reads_of_nextStatement {read : Statements} {p q : Parser}
    (h : calls.nextStatement table act p = (.ok read, q)) :
    Reads table act (.statement read) p q := by
  simp only [Calls.nextStatement, current_bind_apply] at h
  cases hr : (table.lookup? p.current.id).bind (·.statementRule?) with
  | none =>
    simp only [hr, Calls.expressionStatement, bind_eq_ok, ite_run] at h
    obtain ⟨node, r, he, h⟩ := h
    split at h
    · rename_i hf
      simp only [bind_eq_ok, pure_eq_ok] at h
      obtain ⟨token, s, hm, rfl, rfl⟩ := h
      exact .expressionStatement hr (hc.expression he) hf hm
    · simp at h
  | some rule =>
    simp only [hr, bind_eq_ok] at h
    obtain ⟨token, r, hm, _, s, hres, h⟩ := h
    exact .ruled hr hm hres (reads_of_ruled hc h)

theorem reads_of_nextStatements {nodes : List Node} {p q : Parser}
    (h : calls.nextStatements p = (.ok nodes, q)) : Reads table act (.statements nodes) p q := by
  simp only [Calls.nextStatements, current_bind_apply, ite_run, Bool.or_eq_true,
    decide_eq_true_eq] at h
  split at h
  · rename_i hid
    simp only [pure_eq_ok] at h
    obtain ⟨rfl, rfl⟩ := h
    exact .done hid
  · rename_i hid
    simp only [bind_eq_ok, pure_eq_ok] at h
    obtain ⟨read, r, hs, rest, s, hr, rfl, rfl⟩ := h
    exact .next hid (hc.statement hs) (hc.statements hr)

theorem Calls.Sound.next : (calls.next table act).Sound table act where
  expression := reads_of_nextExpression hc
  climb := reads_of_nextClimb hc
  list kind _ _ _ h := by
    cases kind with
    | items => exact reads_of_nextItems hc h
    | entries => exact reads_of_nextEntries hc h
    | parameters => exact reads_of_nextParameters hc h
    | declarations => exact reads_of_nextDeclarations hc h
  statement := reads_of_nextStatement hc
  statements := reads_of_nextStatements hc

end

theorem Calls.sound_endless {table : SymbolTable} {act : Actions} :
    Calls.endless.Sound table act where
  expression h := by simp [endless, giveUp, Parse.bind_apply] at h
  climb h := by simp [endless, giveUp, Parse.bind_apply] at h
  list kind _ _ _ h := by
    cases kind <;> simp [ListKind.parse, endless, giveUp, Parse.bind_apply] at h
  statement h := by simp [endless, giveUp, Parse.bind_apply] at h
  statements h := by simp [endless, giveUp, Parse.bind_apply] at h

/-- **Every run is a reading**, at any depth of nesting. -/
theorem Calls.sound_nested (table : SymbolTable) (act : Actions) :
    ∀ depth, (Calls.nested table act depth).Sound table act
  | 0 => sound_endless
  | depth + 1 => (sound_nested table act depth).next

end ScriptTree
