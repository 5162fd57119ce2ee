import ScriptTree.Proofs.Bare
import ScriptTree.Proofs.Words

/-!
# The language

The language as a grammar over words, with one level for each strength of binding and no mention of
binding powers. `Derives` relates a part of a script, as the bare tree that it stands for, to the
words that it is spelled by. Names that are declared are no words of the grammar.
-/

namespace ScriptTree

/-- How loosely the operators of an expression may bind. -/
inductive Level where
  | primary
  | access
  | unary
  | product
  | sum
  | relation
  | logic
  | expression
deriving DecidableEq

namespace Level

def tighter : Level → Level
  | primary | access => primary
  | unary => access
  | product => unary
  | sum => product
  | relation => sum
  | logic => relation
  | expression => logic

def operators : Level → List String
  | product => ["*", "/"]
  | sum => ["+", "-"]
  | relation => ["===", "!==", "<", "<=", ">", ">="]
  | _ => []

def rank : Level → Nat
  | primary => 0
  | access => 1
  | unary => 2
  | product => 3
  | sum => 4
  | relation => 5
  | logic => 6
  | expression => 7

end Level

def ListKind.declares : ListKind → Bool
  | items | entries => false
  | parameters | declarations => true

/-- A part of a script. The names are those that it declares in the innermost scope; `ends` tells
that it must end its block. -/
inductive Part where
  | operand (level : Level) (node : Node)
  | element (kind : ListKind) (nodes : List Node) (names : List String)
  | list (kind : ListKind) (nodes : List Node) (names : List String)
  | upTo (bracket : Bracket) (kind : ListKind) (nodes : List Node) (names : List String)
  | functionName (name : Option String)
  | statement (read : Statements) (names : List String) (ends : Bool)
  | statements (nodes : List Node) (names : List String) (ends : Bool)
  | conditional (node : Node)
  | alternative (read : Statements)
  | block (body : Statements)

def Word.startsStatement (w : Word) : Bool :=
  ((SymbolTable.grammar.lookup? w.symbol).bind (·.statementRule?)).isSome

def Word.isKey (w : Word) : Prop := w.1 = .name ∨ w.1 = .string ∨ w.1 = .number

/-- What the words of a part are; `functions` tells whether functions are among the operands. -/
inductive Derives (functions : Prop) : Part → List Word → Prop
  | name {text} : isKeyword text = false →
      Derives functions (.operand .primary (.ofName text .start)) [(.name, text)]
  | number {text n} : Number.ofText? text = some n →
      Derives functions (.operand .primary (.ofValue (.number n) .start)) [(.number, text)]
  | string {text} :
      Derives functions (.operand .primary (.ofValue (.string text) .start)) [(.string, text)]
  | self : Derives functions (.operand .primary (.plain "this" .self)) [(.name, "this")]
  | constant {id} : id ∈ ["true", "false", "null", "pi"] →
      Derives functions
        (.operand .primary (.plain id (.literal (SymbolTable.grammar.constantOf id)))) [(.name, id)]
  | array {nodes ws} : Derives functions (.upTo .square .items nodes []) ws →
      Derives functions (.operand .primary (.plain "[" (.array nodes))) ((.operator, "[") :: ws)
  | object {nodes ws} : Derives functions (.upTo .curly .entries nodes []) ws →
      Derives functions (.operand .primary (.plain "\x7b" (.object nodes)))
        ((.operator, "\x7b") :: ws)
  | group {node ws} : Derives functions (.operand .expression node) ws →
      Derives functions (.operand .primary node) ((.operator, "(") :: (ws ++ [(.operator, ")")]))
  | function {name parameters nodes names declared ends ws vs us} : functions →
      Derives functions (.functionName name) ws →
      Derives functions (.upTo .round .parameters parameters names) vs →
      Derives functions (.statements nodes declared ends) us →
      (name.toList ++ (names ++ declared)).Nodup →
      Derives functions
        (.operand .primary (.plain "function" (.function name parameters (.ofList nodes))))
        ((.name, "function") :: (ws ++ (.operator, "(") :: (vs ++ (.operator, "\x7b") ::
          (us ++ [(.operator, "\x7d")]))))
  | raise {level node ws} : Derives functions (.operand level.tighter node) ws →
      Derives functions (.operand level node) ws
  | member {object text ws} : Derives functions (.operand .access object) ws →
      Derives functions
        (.operand .access (.plain "." (.member object (.ofValue (.string text) .start))))
        (ws ++ [(.operator, "."), (.name, text)])
  | index {object index ws vs} : Derives functions (.operand .access object) ws →
      Derives functions (.operand .expression index) vs →
      Derives functions (.operand .access (.plain "[" (.index object index)))
        (ws ++ (.operator, "[") :: (vs ++ [(.operator, "]")]))
  | call {callee nodes ws vs} : callee.form.isCallable = true →
      Derives functions (.operand .access callee) ws →
      Derives functions (.upTo .round .items nodes []) vs →
      Derives functions (.operand .access (.plain "(" (.call callee nodes)))
        (ws ++ (.operator, "(") :: vs)
  | unary {w operand ws} : w ∈ [(.operator, "-"), (.operator, "!"), (.name, "typeof")] →
      Derives functions (.operand .unary operand) ws →
      Derives functions (.operand .unary (.plain w.2 (.unary operand))) (w :: ws)
  | binary {level id left right ws vs} : id ∈ level.operators →
      Derives functions (.operand level left) ws →
      Derives functions (.operand level.tighter right) vs →
      Derives functions (.operand level (.plain id (.binary left right)))
        (ws ++ (.operator, id) :: vs)
  | logic {id left right ws vs} : id ∈ ["&&", "||"] →
      Derives functions (.operand .relation left) ws →
      Derives functions (.operand .logic right) vs →
      Derives functions (.operand .logic (.plain id (.binary left right)))
        (ws ++ (.operator, id) :: vs)
  | ternary {condition consequent alternative ws vs us} :
      Derives functions (.operand .logic condition) ws →
      Derives functions (.operand .expression consequent) vs →
      Derives functions (.operand .expression alternative) us →
      Derives functions
        (.operand .expression (.plain "?" (.ternary condition consequent alternative)))
        (ws ++ (.operator, "?") :: (vs ++ (.operator, ":") :: us))
  | assignment {id target value ws vs} : id ∈ ["=", "+=", "-="] →
      target.form.isAssignable = true → Derives functions (.operand .access target) ws →
      Derives functions (.operand .expression value) vs →
      Derives functions (.operand .expression (.plain id (.assignment target value)))
        (ws ++ (.operator, id) :: vs)
  | item {node ws} : Derives functions (.operand .expression node) ws →
      Derives functions (.element .items [node] []) ws
  | entry {w : Word} {value ws} : w.isKey → Derives functions (.operand .expression value) ws →
      Derives functions (.element .entries [value.withKey w.2] []) (w :: (.operator, ":") :: ws)
  | parameter {text} : isKeyword text = false →
      Derives functions (.element .parameters [.ofName text .start] [text]) [(.name, text)]
  | uninitialised {text} : isKeyword text = false →
      Derives functions (.element .declarations [] [text]) [(.name, text)]
  | initialised {text value ws} : isKeyword text = false →
      Derives functions (.operand .expression value) ws →
      Derives functions
        (.element .declarations [.plain "=" (.declaration (.ofName text .start) value)] [text])
        ((.name, text) :: (.operator, "=") :: ws)
  | last {kind nodes names ws} : Derives functions (.element kind nodes names) ws →
      Derives functions (.list kind nodes names) ws
  | more {kind nodes rest names others ws vs} : Derives functions (.element kind nodes names) ws →
      Derives functions (.list kind rest others) vs →
      Derives functions (.list kind (nodes ++ rest) (names ++ others)) (ws ++ (.operator, ",") :: vs)
  | closed {bracket kind} : Derives functions (.upTo bracket kind [] []) [(.operator, bracket.close)]
  | filled {bracket kind nodes names ws} : Derives functions (.list kind nodes names) ws →
      Derives functions (.upTo bracket kind nodes names) (ws ++ [(.operator, bracket.close)])
  | anonymous : Derives functions (.functionName none) []
  | named {text} : isKeyword text = false →
      Derives functions (.functionName (some text)) [(.name, text)]
  | expressionStatement {node ws} : (node.form.isAssignment || node.form.isCall) = true →
      (∀ w ∈ ws.head?, w.startsStatement = false) →
      Derives functions (.operand .expression node) ws →
      Derives functions (.statement (.single node) [] false) (ws ++ [(.operator, ";")])
  | blockStatement {body ws} : Derives functions (.block body) ws →
      Derives functions (.statement
        (if body.isEmpty then .empty else .single (.plain "\x7b" (.block body))) [] false) ws
  | declaration {nodes names ws} : Derives functions (.list .declarations nodes names) ws →
      Derives functions (.statement (.ofList nodes) names false)
        ((.name, "var") :: (ws ++ [(.operator, ";")]))
  | whileLoop {condition body ws vs} : Derives functions (.operand .expression condition) ws →
      Derives functions (.block body) vs →
      Derives functions
        (.statement (.single (.plain "while" (.whileLoop condition body))) [] false)
        ((.name, "while") :: (.operator, "(") :: (ws ++ (.operator, ")") :: vs))
  | ifElse {node ws} : Derives functions (.conditional node) ws →
      Derives functions (.statement (.single node) [] false) ws
  | breakOut : Derives functions (.statement (.single (.plain "break" .breakOut)) [] true)
      [(.name, "break"), (.operator, ";")]
  | returnNothing :
      Derives functions (.statement (.single (.plain "return" (.returnWith none))) [] true)
        [(.name, "return"), (.operator, ";")]
  | returnValue {value ws} : Derives functions (.operand .expression value) ws →
      Derives functions (.statement (.single (.plain "return" (.returnWith (some value)))) [] true)
        ((.name, "return") :: (ws ++ [(.operator, ";")]))
  | conditional {condition consequent alternative ws vs us} :
      Derives functions (.operand .expression condition) ws →
      Derives functions (.block consequent) vs → Derives functions (.alternative alternative) us →
      Derives functions (.conditional (.plain "if" (.ifElse condition consequent alternative)))
        ((.name, "if") :: (.operator, "(") :: (ws ++ (.operator, ")") :: (vs ++ us)))
  | noAlternative : Derives functions (.alternative .empty) []
  | elseIf {node ws} : Derives functions (.conditional node) ws →
      Derives functions (.alternative (.single node)) ((.name, "else") :: ws)
  | elseBlock {body ws} : Derives functions (.block body) ws →
      Derives functions (.alternative body) ((.name, "else") :: ws)
  | done : Derives functions (.statements [] [] false) []
  | next {read rest names others ends ws vs} : Derives functions (.statement read names false) ws →
      Derives functions (.statements rest others ends) vs →
      Derives functions (.statements (read.toList ++ rest) (names ++ others) ends) (ws ++ vs)
  | final {read names ws} : Derives functions (.statement read names true) ws →
      Derives functions (.statements read.toList names true) ws
  | block {nodes names ends ws} : Derives functions (.statements nodes names ends) ws →
      names.Nodup →
      Derives functions (.block (.ofList nodes))
        ((.operator, "\x7b") :: (ws ++ [(.operator, "\x7d")]))

section
variable {functions : Prop}

theorem Level.rank_tighter (level : Level) (h : 0 < level.rank) :
    level.tighter.rank + 1 = level.rank := by
  cases level
  · exact absurd h (Nat.lt_irrefl 0)
  all_goals rfl

theorem Level.eq_of_rank {low high : Level} (h : low.rank = high.rank) : low = high := by
  revert h
  cases low <;> cases high <;> decide

/-- What is spelled at a level is so at each looser one. -/
theorem Derives.weaken {low : Level} {node : Node} {ws : List Word}
    (h : Derives functions (.operand low node) ws) (high : Level) (hr : low.rank ≤ high.rank) :
    Derives functions (.operand high node) ws := by
  by_cases heq : low.rank = high.rank
  · rwa [← Level.eq_of_rank heq]
  · have := high.rank_tighter (by omega)
    exact .raise (h.weaken high.tighter (by omega))
termination_by high.rank

/-- What can be assigned to is spelled at the level of the access operators. -/
theorem Derives.of_isAssignable {level : Level} {node : Node} {ws : List Word}
    (h : Derives functions (.operand level node) ws) (hn : node.form.isAssignable = true) :
    Derives functions (.operand .access node) ws := by
  generalize hpart : Part.operand level node = part at h
  induction h generalizing level with
  | raise _ ih =>
    cases hpart
    exact ih rfl
  | name h =>
    cases hpart
    exact (Derives.name h).weaken .access (by decide)
  | group h =>
    cases hpart
    exact (Derives.group h).weaken .access (by decide)
  | member h =>
    cases hpart
    exact .member h
  | index h hi =>
    cases hpart
    exact .index h hi
  | _ => cases hpart <;> cases hn

end

end ScriptTree
