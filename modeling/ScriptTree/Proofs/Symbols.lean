import ScriptTree.Proofs.Language

/-!
# Symbols of the language

What the symbol table of the language says of its symbols, rule by rule, and how the binding powers
stand to the levels of the grammar: what has been read at a level may be followed by a symbol up to
its ceiling, and an expression of a power is spelled at the level of that power.
-/

namespace ScriptTree

namespace SymbolTable

theorem mem_of_lookup? {table : SymbolTable} {id : String} {symbol : Symbol}
    (h : table.lookup? id = some symbol) : symbol ∈ table.symbols ∧ symbol.id = id :=
  ⟨List.mem_of_find?_eq_some h, by simpa using List.find?_some h⟩

theorem power_of_lookup? {table : SymbolTable} {id : String} {symbol : Symbol}
    (h : table.lookup? id = some symbol) : table.power id = symbol.power := by
  rw [power, h]

theorem power_of_forall {table : SymbolTable} {P : BindingPower → Prop} (hn : P 0)
    (h : ∀ symbol ∈ table.symbols, P symbol.power) (id : String) : P (table.power id) := by
  cases hl : table.lookup? id with
  | none => rwa [power, hl]
  | some symbol =>
    rw [power_of_lookup? hl]
    exact h symbol (mem_of_lookup? hl).1

end SymbolTable

open SymbolTable

/-! ## Powers and levels -/

/-- The highest power of a symbol behind what has been read at a level. -/
def Level.ceiling : Level → BindingPower
  | primary | access => .call
  | unary => .unary
  | product => .multiplicative
  | sum => .additive
  | relation => .relational
  | logic => BindingPower.logical.weaker
  | expression => .none

/-- The lowest power at which an expression of a level is not read to its end. -/
def Level.floor : Level → BindingPower
  | primary | access | unary => .call
  | product => .multiplicative
  | sum => .additive
  | relation => .relational
  | logic => .logical
  | expression => .assignment

def BindingPower.level (power : BindingPower) : Level :=
  if power < ternary then .expression
  else if power < logical then .logic
  else if power < relational then .relation
  else if power < additive then .sum
  else if power < multiplicative then .product
  else .unary

theorem power_spread (id : String) : grammar.power id ≤ BindingPower.call ∧
    (grammar.power id ≤ BindingPower.assignment.weaker → grammar.power id = 0) :=
  power_of_forall (P := fun power => power ≤ BindingPower.call ∧
    (power ≤ BindingPower.assignment.weaker → power = 0)) (by decide) (by decide +kernel) id

theorem power_le (id : String) : grammar.power id ≤ BindingPower.call := (power_spread id).1

theorem power_of_le (id : String) (h : grammar.power id ≤ BindingPower.assignment.weaker) :
    grammar.power id = 0 :=
  (power_spread id).2 h

/-! ## Symbols of a rule -/

def PrefixRule.all : List PrefixRule :=
  [name, literal, self, constant, unary, grouping, array, object, function]

def InfixRule.all : List InfixRule :=
  [binary, binaryRight, assignment, ternary, member, index, .call]

def StatementRule.all : List StatementRule :=
  [block, declaration, whileLoop, ifElse, breakOut, returnWith]

def PrefixRule.ids : PrefixRule → List String
  | name => [nameId]
  | literal => [literalId]
  | self => ["this"]
  | constant => ["true", "false", "null", "pi"]
  | unary => ["-", "!", "typeof"]
  | grouping => ["("]
  | array => ["["]
  | object => ["\x7b"]
  | function => ["function"]

def InfixRule.operators : InfixRule → List (String × BindingPower)
  | binary => [.product, .sum, .relation].flatMap fun level : Level =>
    level.operators.map (·, level.ceiling)
  | binaryRight => [("&&", .logical), ("||", .logical)]
  | assignment => [("=", .assignment), ("+=", .assignment), ("-=", .assignment)]
  | ternary => [("?", .ternary)]
  | member => [(".", .member)]
  | index => [("[", .member)]
  | .call => [("(", .call)]

def StatementRule.id : StatementRule → String
  | block => "\x7b"
  | declaration => "var"
  | whileLoop => "while"
  | ifElse => "if"
  | breakOut => "break"
  | returnWith => "return"

/-- Each symbol of the table has the rules and powers that the language gives it. -/
theorem symbol_regular : ∀ symbol ∈ grammar.symbols,
    symbol.prefixRule?.all (symbol.id ∈ ·.ids) = true ∧
    symbol.statementRule?.all (symbol.id = ·.id) = true ∧
    symbol.infixRule?.all (fun rule => (symbol.id, symbol.infixPower) ∈ rule.operators ∧
      symbol.power = symbol.infixPower) = true := by
  decide +kernel

theorem rule_regular :
    (∀ rule ∈ PrefixRule.all, ∀ id ∈ rule.ids,
      (grammar.lookup? id).bind (·.prefixRule?) = some rule) ∧
    (∀ rule ∈ StatementRule.all, (grammar.lookup? rule.id).bind (·.statementRule?) = some rule) ∧
    ∀ rule ∈ InfixRule.all, ∀ operator ∈ rule.operators,
      (grammar.lookup? operator.1).any (fun symbol =>
        symbol.infixRule? = some rule ∧ symbol.infixPower = operator.2) = true := by
  decide +kernel

theorem prefixRule_eq_some {id : String} {rule : PrefixRule} :
    (grammar.lookup? id).bind (·.prefixRule?) = some rule ↔ id ∈ rule.ids := by
  constructor
  · intro h
    obtain ⟨symbol, hl, hr⟩ := Option.bind_eq_some_iff.1 h
    obtain ⟨hs, rfl⟩ := mem_of_lookup? hl
    simpa [hr] using (symbol_regular symbol hs).1
  · exact rule_regular.1 rule (by cases rule <;> decide) id

theorem statementRule_eq_some {id : String} {rule : StatementRule} :
    (grammar.lookup? id).bind (·.statementRule?) = some rule ↔ id = rule.id := by
  constructor
  · intro h
    obtain ⟨symbol, hl, hr⟩ := Option.bind_eq_some_iff.1 h
    obtain ⟨hs, rfl⟩ := mem_of_lookup? hl
    simpa [hr] using (symbol_regular symbol hs).2.1
  · rintro rfl
    exact rule_regular.2.1 rule (by cases rule <;> decide)

theorem operator_of_lookup? {id : String} {symbol : Symbol} {rule : InfixRule}
    (hl : grammar.lookup? id = some symbol) (hr : symbol.infixRule? = some rule) :
    (id, symbol.infixPower) ∈ rule.operators ∧ grammar.power id = symbol.infixPower := by
  rw [power_of_lookup? hl]
  obtain ⟨hs, rfl⟩ := mem_of_lookup? hl
  simpa [hr] using (symbol_regular symbol hs).2.2

theorem lookup?_of_operator {id : String} {power : BindingPower} {rule : InfixRule}
    (h : (id, power) ∈ rule.operators) :
    ∃ symbol, grammar.lookup? id = some symbol ∧ symbol.infixRule? = some rule ∧
      symbol.infixPower = power ∧ grammar.power id = power := by
  obtain ⟨symbol, hl, hr⟩ := (Option.any_eq_true _ _).1
    (rule_regular.2.2 rule (by cases rule <;> decide) _ h)
  have hr := of_decide_eq_true hr
  exact ⟨symbol, hl, hr.1, hr.2, (operator_of_lookup? hl hr.1).2.trans hr.2⟩

end ScriptTree
