import Mathlib.Data.List.Forall2
import ScriptTree.Parser.Run
import ScriptTree.Proofs.Bare

/-!
# Two runs side by side

A pairing says which states, tokens, nodes and errors of one run correspond to which of another. If
the steps keep it (`Pairing.Lawful`), all rules of the grammar do: runs from states that correspond
give results that do, or both fail. A run that is paired with itself shows what holds of everything
that it makes. The two runs may take different steps.
-/

namespace ScriptTree

/-- The causes that blame any token, as functions of its text; a missing operator and a numeral that
is none blame certain tokens only. -/
inductive Cause.Blames : (String → Cause) → Prop
  | noOperand : Blames .noOperand
  | expected (id : String) : Blames (.expected id)
  | noPropertyName : Blames .noPropertyName
  | noVariableName : Blames .noVariableName
  | noParameterName : Blames .noParameterName
  | badKey : Blames .badKey
  | unreachable : Blames fun _ => .unreachable
  | endless : Blames fun _ => .endless

def Cause.misuses : List Cause := [.notAssignable, .notCallable, .notAStatement]

structure Pairing where
  state : Parser → Parser → Prop
  halted : Parser → Parser → Prop
  token : SymbolToken → SymbolToken → Prop
  label : SymbolToken → SymbolToken → Prop
  node : Node → Node → Prop
  error : SyntaxError → SyntaxError → Prop

namespace Pairing

section
variable (P : Pairing)

def nodes : List Node → List Node → Prop := List.Forall₂ P.node

def Name (s s' : String) : Prop :=
  ∃ t u, P.token t u ∧ t.isName = true ∧ s = t.value ∧ s' = u.value

inductive Body : Statements → Statements → Prop
  | empty : Body .empty .empty
  | single {a b : Node} : P.node a b → Body (.single a) (.single b)
  | sequence {as bs : List Node} : P.nodes as bs → Body (.sequence as) (.sequence bs)

/-- The forms that rules make of nodes that correspond. -/
inductive Made : Form → Form → Prop
  | self : Made .self .self
  | unary {a b : Node} : P.node a b → Made (.unary a) (.unary b)
  | array {as bs : List Node} : P.nodes as bs → Made (.array as) (.array bs)
  | object {as bs : List Node} : P.nodes as bs → Made (.object as) (.object bs)
  | binary {a b c d : Node} : P.node a b → P.node c d → Made (.binary a c) (.binary b d)
  | assignment {a b c d : Node} : P.node a b → P.node c d → Made (.assignment a c) (.assignment b d)
  | declaration {a b c d : Node} :
    P.node a b → P.node c d → Made (.declaration a c) (.declaration b d)
  | member {a b : Node} {t u : SymbolToken} : P.node a b → P.label t u → t.isName = true →
    Made (.member a (.ofValue (.string t.value) t.position))
      (.member b (.ofValue (.string u.value) u.position))
  | index {a b c d : Node} : P.node a b → P.node c d → Made (.index a c) (.index b d)
  | call {a b : Node} {as bs : List Node} : P.node a b → P.nodes as bs → Made (.call a as) (.call b bs)
  | ternary {a b c d e f : Node} :
    P.node a b → P.node c d → P.node e f → Made (.ternary a c e) (.ternary b d f)
  | block {s t : Statements} : P.Body s t → Made (.block s) (.block t)
  | whileLoop {a b : Node} {s t : Statements} :
    P.node a b → P.Body s t → Made (.whileLoop a s) (.whileLoop b t)
  | ifElse {a b : Node} {s t s' t' : Statements} :
    P.node a b → P.Body s t → P.Body s' t' → Made (.ifElse a s s') (.ifElse b t t')
  | breakOut : Made .breakOut .breakOut
  | returnWith {v w : Option Node} : Option.Rel P.node v w → Made (.returnWith v) (.returnWith w)
  | function {m n : Option String} {as bs : List Node} {s t : Statements} :
    Option.Rel P.Name m n → P.nodes as bs → P.Body s t → Made (.function m as s) (.function n bs t)

inductive Outcome {α β : Type} (R : α → β → Prop) :
    Except SyntaxError α × Parser → Except SyntaxError β × Parser → Prop
  | ok {a : α} {b : β} {p q : Parser} : R a b → P.state p q → Outcome R (.ok a, p) (.ok b, q)
  | error {d e : SyntaxError} {p q : Parser} :
    P.error d e → P.halted p q → Outcome R (.error d, p) (.error e, q)

def Run {α β : Type} (R : α → β → Prop) (x : Parse α) (y : Parse β) : Prop :=
  ∀ p q, P.state p q → P.Outcome R (x p) (y q)

/-- What a pairing must be for the rules to keep it, if the runs take these steps. -/
structure Lawful (table : SymbolTable) (act act' : Actions) : Prop where
  halted {p q : Parser} : P.state p q → P.halted p q
  current {p q : Parser} : P.state p q → P.token p.current q.current
  id {t u : SymbolToken} : P.token t u → u.id = t.id
  kind {t u : SymbolToken} : P.token t u → u.token.kind = t.token.kind
  fault {t u : SymbolToken} {cause : String → Cause} : P.token t u → Cause.Blames cause →
    P.error (t.error (cause t.value)) (u.error (cause u.value))
  noOperator {t u : SymbolToken} : P.token t u → 0 < table.power t.id →
    (table.lookup? t.id).bind (·.infixRule?) = none →
    P.error (t.error (.noOperator t.value)) (u.error (.noOperator u.value))
  badNumber {t u : SymbolToken} : P.token t u → t.token.kind = .number →
    Number.ofText? t.value = none →
    P.error (t.error (.badNumber t.value)) (u.error (.badNumber u.value))
  misuse {a b : Node} {cause : Cause} : P.node a b → cause ∈ Cause.misuses →
    P.error ⟨cause, a.position⟩ ⟨cause, b.position⟩
  isAssignable {a b : Node} : P.node a b → b.form.isAssignable = a.form.isAssignable
  isCallable {a b : Node} : P.node a b → b.form.isCallable = a.form.isCallable
  isAssignment {a b : Node} : P.node a b → b.form.isAssignment = a.form.isAssignment
  isCall {a b : Node} : P.node a b → b.form.isCall = a.form.isCall
  name {t u : SymbolToken} : P.token t u →
    (table.lookup? t.id).bind (·.prefixRule?) = some .name → P.node t.asName u.asName
  numeral {t u : SymbolToken} : P.token t u → t.token.kind = .number → u.value = t.value
  number {t u : SymbolToken} {n : Number} : P.token t u → t.token.kind = .number →
    Number.ofText? t.value = some n →
    P.node (.ofValue (.number n) t.position) (.ofValue (.number n) u.position)
  string {t u : SymbolToken} : P.token t u →
    (table.lookup? t.id).bind (·.prefixRule?) = some .literal → t.token.kind ≠ .number →
    P.node (.ofValue (.string t.value) t.position) (.ofValue (.string u.value) u.position)
  constant {t u : SymbolToken} {value : Value} : P.token t u →
    (table.lookup? t.id).bind (·.prefixRule?) = some .constant →
    ((table.lookup? t.id).bind (·.constant?)).getD .null = value →
    P.node (t.node (.literal value)) (u.node (.literal value))
  made {t u : SymbolToken} {f g : Form} : P.token t u → P.Made f g → P.node (t.node f) (u.node g)
  entry {t u : SymbolToken} {a b : Node} : P.label t u → (t.isName || t.token.isLiteral) = true →
    P.node a b → P.node (a.withKey t.value) (b.withKey u.value)
  advance {p q : Parser} : P.state p q →
    P.Outcome (fun t u => t = p.current ∧ u = q.current) (act.advance p) (act'.advance q)
  label {p q : Parser} : P.state p q → (p.current.isName || p.current.token.isLiteral) = true →
    P.Outcome (fun t u => P.label t u ∧ t.token.kind = p.current.token.kind)
      (act.label p) (act'.label q)
  define {t u : SymbolToken} : P.token t u → t.isName = true →
    P.Run P.node (act.define t) (act'.define u)
  reserve {t u : SymbolToken} : P.token t u →
    P.Run (fun _ _ => True) (act.reserve t) (act'.reserve u)
  openScope : P.Run (fun _ _ => True) act.openScope act'.openScope
  closeScope : P.Run (fun _ _ => True) act.closeScope act'.closeScope

end

/-! ## Runs in general -/

section
variable {P : Pairing} {α β γ δ : Type} {R : α → β → Prop} {S : γ → δ → Prop}

theorem paired_pure {a : α} {b : β} (h : R a b) : P.Run R (pure a) (pure b) :=
  fun _ _ hpq => .ok h hpq

theorem Outcome.mono {R' : α → β → Prop} {x : Except SyntaxError α × Parser}
    {y : Except SyntaxError β × Parser} (h : P.Outcome R x y) (hR : ∀ a b, R a b → R' a b) :
    P.Outcome R' x y := by
  cases h with
  | ok hab hpq => exact .ok (hR _ _ hab) hpq
  | error he hpq => exact .error he hpq

theorem Outcome.bind {x : Parse α} {y : Parse β} {f : α → Parse γ} {g : β → Parse δ} {p q : Parser}
    (hx : P.Outcome R (x p) (y q)) (hf : ∀ a b, R a b → P.Run S (f a) (g b)) :
    P.Outcome S ((x >>= f) p) ((y >>= g) q) := by
  rw [Parse.bind_apply, Parse.bind_apply]
  generalize x p = run at hx
  generalize y q = run' at hx
  cases hx with
  | ok hab hpq => exact hf _ _ hab _ _ hpq
  | error he hpq => exact .error he hpq

theorem Run.bind {x : Parse α} {y : Parse β} {f : α → Parse γ} {g : β → Parse δ}
    (hx : P.Run R x y) (hf : ∀ a b, R a b → P.Run S (f a) (g b)) :
    P.Run S (x >>= f) (y >>= g) :=
  fun p q hpq => (hx p q hpq).bind hf

theorem paired_ite {c d : Prop} [Decidable c] [Decidable d] {x x' : Parse α} {y y' : Parse β}
    (hcd : d ↔ c) (hyes : c → P.Run R x y) (hno : ¬c → P.Run R x' y') :
    P.Run R (if c then x else x') (if d then y else y') := by
  by_cases hc : c
  · rw [if_pos hc, if_pos (hcd.2 hc)]
    exact hyes hc
  · rw [if_neg hc, if_neg fun hd => hc (hcd.1 hd)]
    exact hno hc

end

section
variable {P : Pairing} {table : SymbolTable} {act act' : Actions} (hl : P.Lawful table act act')
variable {α β : Type} {R : α → β → Prop}
include hl

theorem paired_fail {d e : SyntaxError} (h : P.error d e) :
    P.Run R (Parse.fail d) (Parse.fail e) :=
  fun _ _ hpq => .error h (hl.halted hpq)

theorem paired_fault {t u : SymbolToken} {cause : String → Cause} (h : P.token t u)
    (hc : Cause.Blames cause) :
    P.Run R (Parse.fail (t.error (cause t.value))) (Parse.fail (u.error (cause u.value))) :=
  paired_fail hl (hl.fault h hc)

theorem paired_current {f : SymbolToken → Parse α} {g : SymbolToken → Parse β}
    (h : ∀ t u, P.token t u → P.Run R (f t) (g u)) :
    P.Run R (Parse.current >>= f) (Parse.current >>= g) :=
  fun p q hpq => h _ _ (hl.current hpq) p q hpq

theorem paired_currentIs {id : String} {f : Bool → Parse α} {g : Bool → Parse β}
    (h : ∀ b, P.Run R (f b) (g b)) :
    P.Run R (Parse.currentIs id >>= f) (Parse.currentIs id >>= g) := by
  intro p q hpq
  simp only [Parse.bind_apply, Parse.currentIs_apply, hl.id (hl.current hpq)]
  exact h _ p q hpq

theorem paired_advance : P.Run P.token act.advance act'.advance := by
  intro p q hpq
  refine (hl.advance hpq).mono fun t u htu => ?_
  rw [htu.1, htu.2]
  exact hl.current hpq

theorem paired_expect (id : String) : P.Run P.token (act.expect id) (act'.expect id) :=
  paired_current hl fun t u h => by
    refine paired_ite (by rw [hl.id h]) (fun _ => paired_advance hl) fun _ => ?_
    exact paired_fault hl h (.expected id)

theorem paired_scopeEnd (id : String) :
    P.Run P.token (act.expectScopeEnd id) (act'.expectScopeEnd id) :=
  paired_current hl fun t u h => by
    refine paired_ite (by rw [hl.id h]) (fun _ => ?_) fun _ => paired_fault hl h (.expected id)
    exact hl.closeScope.bind fun _ _ _ => paired_advance hl

end

end Pairing

/-! ## Rules -/

structure Calls.Paired (P : Pairing) (calls other : Calls) : Prop where
  expression (power : BindingPower) : P.Run P.node (calls.expression power) (other.expression power)
  climb (power : BindingPower) {a b : Node} : P.node a b →
    P.Run P.node (calls.climb power a) (other.climb power b)
  items : P.Run P.nodes calls.items other.items
  entries : P.Run P.nodes calls.entries other.entries
  parameters : P.Run P.nodes calls.parameters other.parameters
  declarations : P.Run P.nodes calls.declarations other.declarations
  statement : P.Run P.Body calls.statement other.statement
  statements : P.Run P.nodes calls.statements other.statements

namespace Pairing

theorem body_ofList {P : Pairing} {as bs : List Node} (h : P.nodes as bs) :
    P.Body (.ofList as) (.ofList bs) := by
  cases h with
  | nil => exact .empty
  | cons hab hrest =>
    cases hrest with
    | nil => exact .single hab
    | cons hcd hrest => exact .sequence (.cons hab (.cons hcd hrest))

theorem Body.toList {P : Pairing} {s t : Statements} (h : P.Body s t) :
    P.nodes s.toList t.toList := by
  cases h with
  | empty => exact .nil
  | single h => exact .cons h .nil
  | sequence h => exact h

theorem exists_of_nodes {P : Pairing} {as bs : List Node} (h : P.nodes as bs) :
    ∀ a ∈ as, ∃ b, P.node a b := by
  induction h with
  | nil => exact fun _ ha => (List.not_mem_nil ha).elim
  | cons hab _ ih => exact List.forall_mem_cons.2 ⟨⟨_, hab⟩, ih⟩

/-- All children are nodes that the run has made, but for the names of properties. -/
theorem Made.child {P : Pairing} {f g : Form} (h : P.Made f g) : ∀ child ∈ f.children,
    (∃ other, P.node child other) ∨ ∃ t u, P.label t u ∧ t.isName = true ∧
      child = .ofValue (.string t.value) t.position := by
  intro child hc
  cases h with
  | self | breakOut => exact (List.not_mem_nil hc).elim
  | unary h => exact .inl (exists_of_nodes (.cons h .nil) child hc)
  | array h | object h => exact .inl (exists_of_nodes h child hc)
  | binary h h' | assignment h h' | declaration h h' | index h h' =>
    exact .inl (exists_of_nodes (.cons h (.cons h' .nil)) child hc)
  | member h htu ht =>
    rcases List.mem_cons.1 hc with rfl | hc
    · exact .inl ⟨_, h⟩
    · exact .inr ⟨_, _, htu, ht, List.mem_singleton.1 hc⟩
  | call h hs => exact .inl (exists_of_nodes (.cons h hs) child hc)
  | ternary h h' h'' => exact .inl (exists_of_nodes (.cons h (.cons h' (.cons h'' .nil))) child hc)
  | block h => exact .inl (exists_of_nodes h.toList child hc)
  | whileLoop h hs => exact .inl (exists_of_nodes (.cons h hs.toList) child hc)
  | ifElse h hs ht =>
    exact .inl (exists_of_nodes (.cons h (List.rel_append hs.toList ht.toList)) child hc)
  | returnWith h =>
    cases h with
    | none => exact (List.not_mem_nil hc).elim
    | some h => exact .inl (exists_of_nodes (.cons h .nil) child hc)
  | function _ hps hs =>
    exact .inl (exists_of_nodes (List.rel_append hps hs.toList) child hc)

theorem Body.isEmpty {P : Pairing} {s t : Statements} (h : P.Body s t) : t.isEmpty = s.isEmpty := by
  cases h <;> rfl

section
variable {P : Pairing} {table : SymbolTable} {act act' : Actions} {calls other : Calls}
variable (hl : P.Lawful table act act') (hc : calls.Paired P other)

section
include hl

theorem paired_continued {as bs : List Node} {x y : Parse (List Node)} (h : P.nodes as bs)
    (hxy : P.Run P.nodes x y) :
    P.Run P.nodes (Calls.continued act as x) (Calls.continued act' bs y) := by
  refine paired_currentIs hl fun b => paired_ite Iff.rfl (fun _ => ?_) fun _ => paired_pure h
  refine (paired_expect hl ",").bind fun _ _ _ => hxy.bind fun _ _ hrest => ?_
  exact paired_pure (List.rel_append h hrest)

theorem paired_upTo (closing : String) {x y : Parse (List Node)} (hxy : P.Run P.nodes x y) :
    P.Run P.nodes (Calls.upTo act closing x) (Calls.upTo act' closing y) := by
  refine paired_currentIs hl fun b => paired_ite Iff.rfl (fun _ => ?_) fun _ => ?_
  · exact (paired_expect hl closing).bind fun _ _ _ => paired_pure .nil
  · exact hxy.bind fun _ _ h => (paired_expect hl closing).bind fun _ _ _ => paired_pure h

theorem paired_functionName : P.Run (Option.Rel P.Name) (PrefixRule.functionName act)
    (PrefixRule.functionName act') := by
  refine paired_current hl fun t u h => ?_
  have hname : u.isName = t.isName := by simp [SymbolToken.isName, Token.isName, hl.kind h]
  refine paired_ite (by rw [hname]) (fun ht => ?_) fun _ => paired_pure .none
  refine (hl.define h ht).bind fun _ _ _ => (paired_advance hl).bind fun _ _ _ => ?_
  exact paired_pure (.some ⟨t, u, h, ht, rfl, rfl⟩)

theorem paired_literal {t u : SymbolToken} (h : P.token t u)
    (hr : (table.lookup? t.id).bind (·.prefixRule?) = some .literal) :
    P.Run P.node (PrefixRule.literalNode t) (PrefixRule.literalNode u) := by
  unfold PrefixRule.literalNode
  rw [hl.kind h]
  by_cases hk : t.token.kind = .number
  · rw [hk, hl.numeral h hk]
    dsimp only
    cases hn : Number.ofText? t.value with
    | some n => exact paired_pure (hl.number h hk hn)
    | none =>
      have hfault := hl.badNumber h hk hn
      rw [hl.numeral h hk] at hfault
      exact paired_fail hl hfault
  · have hstring := hl.string h hr hk
    cases hkind : t.token.kind with
    | number => exact absurd hkind hk
    | _ => exact paired_pure hstring

theorem paired_expectBlockEnd : P.Run (fun _ _ => True) StatementRule.expectBlockEnd
    StatementRule.expectBlockEnd :=
  paired_current hl fun t u h => by
    refine paired_ite (by rw [hl.id h]) (fun _ => paired_pure trivial) fun _ => ?_
    exact paired_fault hl h .unreachable

end

include hc

theorem paired_body : P.Run P.Body calls.body other.body :=
  hc.statements.bind fun _ _ h => paired_pure (body_ofList h)

include hl

theorem paired_blockBody : P.Run P.Body (calls.blockBody act) (other.blockBody act') :=
  hl.openScope.bind fun _ _ _ => (paired_body hc).bind fun _ _ h =>
    (paired_scopeEnd hl _).bind fun _ _ _ => paired_pure h

theorem paired_block : P.Run P.Body (calls.block act) (other.block act') :=
  (paired_expect hl _).bind fun _ _ _ => paired_blockBody hl hc

theorem paired_function {t u : SymbolToken} (h : P.token t u) :
    P.Run P.node (PrefixRule.functionNode act calls t) (PrefixRule.functionNode act' other u) := by
  refine hl.openScope.bind fun _ _ _ => (paired_functionName hl).bind fun _ _ hname => ?_
  refine (paired_expect hl _).bind fun _ _ _ => (paired_upTo hl _ hc.parameters).bind fun _ _ hps => ?_
  refine (paired_expect hl _).bind fun _ _ _ => (paired_body hc).bind fun _ _ hbody => ?_
  exact (paired_scopeEnd hl _).bind fun _ _ _ => paired_pure (hl.made h (.function hname hps hbody))

theorem paired_operand {t u : SymbolToken} (h : P.token t u) (rule : PrefixRule)
    (hr : (table.lookup? t.id).bind (·.prefixRule?) = some rule) :
    P.Run P.node (rule.parse table act calls t) (rule.parse table act' other u) := by
  cases rule with
  | name => exact paired_pure (hl.name h hr)
  | literal => exact paired_literal hl h hr
  | self => exact (hl.reserve h).bind fun _ _ _ => paired_pure (hl.made h .self)
  | constant =>
    refine (hl.reserve h).bind fun _ _ _ => ?_
    rw [hl.id h]
    exact paired_pure (hl.constant h hr rfl)
  | unary =>
    exact (hl.reserve h).bind fun _ _ _ => (hc.expression _).bind fun _ _ ha =>
      paired_pure (hl.made h (.unary ha))
  | grouping =>
    exact (hc.expression _).bind fun _ _ ha => (paired_expect hl _).bind fun _ _ _ => paired_pure ha
  | array =>
    exact (paired_upTo hl _ hc.items).bind fun _ _ has => paired_pure (hl.made h (.array has))
  | object =>
    exact (paired_upTo hl _ hc.entries).bind fun _ _ has => paired_pure (hl.made h (.object has))
  | function => exact paired_function hl hc h

omit hc in
theorem paired_member {t u : SymbolToken} {a b : Node} (h : P.token t u) (hab : P.node a b) :
    P.Run P.node (InfixRule.memberNode act t a) (InfixRule.memberNode act' u b) := by
  intro p q hpq
  have hnext := hl.current hpq
  have hname : q.current.isName = p.current.isName := by
    simp [SymbolToken.isName, Token.isName, hl.kind hnext]
  simp only [InfixRule.memberNode, Parse.bind_apply, Parse.current_apply, hname]
  by_cases ht : p.current.isName = true
  · rw [if_pos ht, if_pos ht]
    refine (hl.label hpq (by rw [ht, Bool.true_or])).bind fun v w hvw => ?_
    have hv : v.isName = true := by rwa [SymbolToken.isName, Token.isName, hvw.2]
    exact paired_pure (hl.made h (.member hab hvw.1 hv))
  · rw [if_neg ht, if_neg ht]
    exact paired_fault hl hnext .noPropertyName p q hpq

theorem paired_operation {t u : SymbolToken} {a b : Node} (h : P.token t u) (hab : P.node a b)
    (rule : InfixRule) (power : BindingPower) :
    P.Run P.node (rule.parse act calls t a power) (rule.parse act' other u b power) := by
  cases rule with
  | binary | binaryRight =>
    exact (hc.expression _).bind fun _ _ hv => paired_pure (hl.made h (.binary hab hv))
  | assignment =>
    refine paired_ite (by rw [hl.isAssignable hab]) (fun _ => ?_) fun _ => ?_
    · exact (hc.expression _).bind fun _ _ hv => paired_pure (hl.made h (.assignment hab hv))
    · exact paired_fail hl (hl.misuse hab (by simp [Cause.misuses]))
  | ternary =>
    exact (hc.expression _).bind fun _ _ hv => (paired_expect hl _).bind fun _ _ _ =>
      (hc.expression _).bind fun _ _ hw => paired_pure (hl.made h (.ternary hab hv hw))
  | member => exact paired_member hl h hab
  | index =>
    exact (hc.expression _).bind fun _ _ hv => (paired_expect hl _).bind fun _ _ _ =>
      paired_pure (hl.made h (.index hab hv))
  | call =>
    refine paired_ite (by rw [hl.isCallable hab]) (fun _ => ?_) fun _ => ?_
    · exact (paired_upTo hl _ hc.items).bind fun _ _ has => paired_pure (hl.made h (.call hab has))
    · exact paired_fail hl (hl.misuse hab (by simp [Cause.misuses]))

theorem paired_condition : P.Run P.node (StatementRule.condition act calls)
    (StatementRule.condition act' other) :=
  (paired_expect hl _).bind fun _ _ _ => (hc.expression _).bind fun _ _ h =>
    (paired_expect hl _).bind fun _ _ _ => paired_pure h

theorem paired_alternative : P.Run P.Body (StatementRule.alternative act calls)
    (StatementRule.alternative act' other) := by
  refine paired_currentIs hl fun b => paired_ite Iff.rfl (fun _ => ?_) fun _ => paired_pure .empty
  refine paired_current hl fun t u h => (hl.reserve h).bind fun _ _ _ => ?_
  refine (paired_expect hl _).bind fun _ _ _ => paired_currentIs hl fun b => ?_
  exact paired_ite Iff.rfl (fun _ => hc.statement) fun _ => paired_block hl hc

theorem paired_returnValue : P.Run (Option.Rel P.node) (StatementRule.returnValue calls)
    (StatementRule.returnValue other) := by
  refine paired_currentIs hl fun b => paired_ite Iff.rfl (fun _ => paired_pure .none) fun _ => ?_
  exact (hc.expression _).bind fun _ _ h => paired_pure (.some h)

theorem paired_ruled {t u : SymbolToken} (h : P.token t u) (rule : StatementRule) :
    P.Run P.Body (rule.parse act calls t) (rule.parse act' other u) := by
  cases rule with
  | block =>
    refine (paired_blockBody hl hc).bind fun s s' hs => ?_
    rw [hs.isEmpty]
    by_cases he : s.isEmpty = true
    · rw [if_pos he, if_pos he]
      exact paired_pure .empty
    · rw [if_neg he, if_neg he]
      exact paired_pure (.single (hl.made h (.block hs)))
  | declaration =>
    exact hc.declarations.bind fun _ _ has => (paired_expect hl _).bind fun _ _ _ =>
      paired_pure (body_ofList has)
  | whileLoop =>
    exact (paired_condition hl hc).bind fun _ _ ha => (paired_block hl hc).bind fun _ _ hs =>
      paired_pure (.single (hl.made h (.whileLoop ha hs)))
  | ifElse =>
    exact (paired_condition hl hc).bind fun _ _ ha => (paired_block hl hc).bind fun _ _ hs =>
      (paired_alternative hl hc).bind fun _ _ ht => paired_pure (.single (hl.made h (.ifElse ha hs ht)))
  | breakOut =>
    exact (paired_expect hl _).bind fun _ _ _ => (paired_expectBlockEnd hl).bind fun _ _ _ =>
      paired_pure (.single (hl.made h .breakOut))
  | returnWith =>
    exact (paired_returnValue hl hc).bind fun _ _ hv => (paired_expect hl _).bind fun _ _ _ =>
      (paired_expectBlockEnd hl).bind fun _ _ _ => paired_pure (.single (hl.made h (.returnWith hv)))

/-! ## Parsers for the parts -/

theorem paired_nextExpression (power : BindingPower) :
    P.Run P.node (calls.nextExpression table act power) (other.nextExpression table act' power) := by
  refine (paired_advance hl).bind fun t u h => ?_
  rw [hl.id h]
  cases hr : (table.lookup? t.id).bind (·.prefixRule?) with
  | none => exact paired_fault hl h .noOperand
  | some rule => exact (paired_operand hl hc h rule hr).bind fun _ _ ha => hc.climb power ha

theorem paired_nextClimb (power : BindingPower) {a b : Node} (hab : P.node a b) :
    P.Run P.node (calls.nextClimb table act power a) (other.nextClimb table act' power b) := by
  intro p q hpq
  have hnext := hl.current hpq
  simp only [Calls.nextClimb, Parse.bind_apply, Parse.current_apply, hl.id hnext]
  by_cases hp : power < table.power p.current.id
  · rw [if_pos hp, if_pos hp]
    refine (hl.advance hpq).bind fun t u htu => ?_
    obtain ⟨rfl, rfl⟩ := htu
    rw [hl.id hnext]
    split
    · exact (paired_operation hl hc hnext hab _ _).bind fun _ _ hcd => hc.climb power hcd
    · rename_i hno
      refine paired_fail hl (hl.noOperator hnext (Nat.zero_lt_of_lt hp) ?_)
      refine Option.bind_eq_none_iff.2 fun symbol hs => ?_
      by_contra hrule
      obtain ⟨rule, hrule⟩ := Option.ne_none_iff_exists'.1 hrule
      obtain ⟨id, power, pre, post, infixPower, statement, constant⟩ := symbol
      cases hrule
      exact hno _ _ _ _ _ _ _ hs
  · rw [if_neg hp, if_neg hp]
    exact .ok hab hpq

theorem paired_nextItems : P.Run P.nodes (calls.nextItems act) (other.nextItems act') :=
  (hc.expression _).bind fun _ _ h => paired_continued hl (.cons h .nil) hc.items

theorem paired_nextEntries : P.Run P.nodes (calls.nextEntries act) (other.nextEntries act') := by
  intro p q hpq
  have hkey := hl.current hpq
  have hword : (q.current.isName || q.current.token.isLiteral) =
      (p.current.isName || p.current.token.isLiteral) := by
    simp [SymbolToken.isName, Token.isName, Token.isLiteral, hl.kind hkey]
  simp only [Calls.nextEntries, Parse.bind_apply, Parse.current_apply, hword]
  by_cases ht : (p.current.isName || p.current.token.isLiteral) = true
  · rw [if_pos ht, if_pos ht]
    refine (hl.label hpq ht).bind fun v w hvw => ?_
    have hv : (v.isName || v.token.isLiteral) = true := by
      rw [SymbolToken.isName, Token.isName, Token.isLiteral, hvw.2]
      exact ht
    refine (paired_expect hl _).bind fun _ _ _ => (hc.expression _).bind fun _ _ hab => ?_
    exact paired_continued hl (.cons (hl.entry hvw.1 hv hab) .nil) hc.entries
  · rw [if_neg ht, if_neg ht]
    exact paired_fault hl hkey .badKey p q hpq

theorem paired_nextParameters :
    P.Run P.nodes (calls.nextParameters act) (other.nextParameters act') := by
  refine paired_current hl fun t u h => ?_
  have hname : u.isName = t.isName := by simp [SymbolToken.isName, Token.isName, hl.kind h]
  refine paired_ite (by rw [hname]) (fun ht => ?_) fun _ => paired_fault hl h .noParameterName
  exact (hl.define h ht).bind fun _ _ ha => (paired_advance hl).bind fun _ _ _ =>
    paired_continued hl (.cons ha .nil) hc.parameters

theorem paired_initialValue {a b : Node} (hab : P.node a b) :
    P.Run P.nodes (calls.initialValue act a) (other.initialValue act' b) := by
  refine paired_currentIs hl fun c => paired_ite Iff.rfl (fun _ => ?_) fun _ => paired_pure .nil
  exact (paired_advance hl).bind fun _ _ ht => (hc.expression _).bind fun _ _ hv =>
    paired_pure (.cons (hl.made ht (.declaration hab hv)) .nil)

theorem paired_nextDeclarations :
    P.Run P.nodes (calls.nextDeclarations act) (other.nextDeclarations act') := by
  refine paired_current hl fun t u h => ?_
  have hname : u.isName = t.isName := by simp [SymbolToken.isName, Token.isName, hl.kind h]
  refine paired_ite (by rw [hname]) (fun ht => ?_) fun _ => paired_fault hl h .noVariableName
  exact (hl.define h ht).bind fun _ _ ha => (paired_advance hl).bind fun _ _ _ =>
    (paired_initialValue hl hc ha).bind fun _ _ has => paired_continued hl has hc.declarations

theorem paired_expressionStatement :
    P.Run P.Body (calls.expressionStatement act) (other.expressionStatement act') := by
  refine (hc.expression _).bind fun a b hab => ?_
  refine paired_ite (by rw [hl.isAssignment hab, hl.isCall hab]) (fun _ => ?_) fun _ => ?_
  · exact (paired_expect hl _).bind fun _ _ _ => paired_pure (.single hab)
  · exact paired_fail hl (hl.misuse hab (by simp [Cause.misuses]))

theorem paired_nextStatement :
    P.Run P.Body (calls.nextStatement table act) (other.nextStatement table act') := by
  refine paired_current hl fun t u h => ?_
  rw [hl.id h]
  cases hr : (table.lookup? t.id).bind (·.statementRule?) with
  | none => exact paired_expressionStatement hl hc
  | some rule =>
    exact (paired_advance hl).bind fun _ _ h => (hl.reserve h).bind fun _ _ _ => paired_ruled hl hc h rule

theorem paired_nextStatements : P.Run P.nodes calls.nextStatements other.nextStatements := by
  refine paired_current hl fun t u h => ?_
  refine paired_ite (by rw [hl.id h]) (fun _ => paired_pure .nil) fun _ => ?_
  exact hc.statement.bind fun _ _ hs => hc.statements.bind fun _ _ hrest =>
    paired_pure (List.rel_append hs.toList hrest)

theorem paired_script {p q : Parser}
    (first : P.Outcome (fun _ _ => True) (act.advance p) (act'.advance q)) :
    P.Outcome P.Body (calls.script act p) (other.script act' q) :=
  first.bind fun _ _ _ => (paired_body hc).bind fun _ _ h => (paired_expect hl _).bind fun _ _ _ =>
    paired_pure h

theorem paired_singleExpression {p q : Parser}
    (first : P.Outcome (fun _ _ => True) (act.advance p) (act'.advance q)) :
    P.Outcome P.node (calls.singleExpression act p) (other.singleExpression act' q) :=
  first.bind fun _ _ _ => (hc.expression _).bind fun _ _ h => (paired_expect hl _).bind fun _ _ _ =>
    paired_pure h

end

end Pairing

open Pairing in
theorem Calls.Paired.next {P : Pairing} {table : SymbolTable} {act act' : Actions}
    {calls other : Calls} (hl : P.Lawful table act act') (hc : calls.Paired P other) :
    (calls.next table act).Paired P (other.next table act') where
  expression := paired_nextExpression hl hc
  climb power _ _ h := paired_nextClimb hl hc power h
  items := paired_nextItems hl hc
  entries := paired_nextEntries hl hc
  parameters := paired_nextParameters hl hc
  declarations := paired_nextDeclarations hl hc
  statement := paired_nextStatement hl hc
  statements := paired_nextStatements hl hc

namespace Pairing

section
variable {P : Pairing} {table : SymbolTable} {act act' : Actions} (hl : P.Lawful table act act')
include hl

theorem paired_giveUp {α β : Type} {R : α → β → Prop} : P.Run R Calls.giveUp Calls.giveUp :=
  paired_current hl fun _ _ h => paired_fault hl h .endless

/-- Parsers of the grammar keep every lawful pairing, however deep they are. -/
theorem paired_nested : ∀ depth,
    (Calls.nested table act depth).Paired P (Calls.nested table act' depth)
  | 0 => {
      expression _ := paired_giveUp hl
      climb _ _ _ _ := paired_giveUp hl
      items := paired_giveUp hl
      entries := paired_giveUp hl
      parameters := paired_giveUp hl
      declarations := paired_giveUp hl
      statement := paired_giveUp hl
      statements := paired_giveUp hl }
  | depth + 1 => Calls.Paired.next hl (paired_nested depth)

theorem paired_scriptRun {p q : Parser} (hlen : p.unread.length = q.unread.length)
    (first : P.Outcome (fun _ _ => True) (act.advance p) (act'.advance q)) :
    P.Outcome P.Body (Parse.script table act p) (Parse.script table act' q) := by
  have hreach : q.reach = p.reach := by rw [Parser.reach, Parser.reach, hlen]
  rw [Parse.script, Parse.script, Parse.withCalls, Parse.withCalls, hreach]
  exact paired_script hl (paired_nested hl _) first

theorem paired_expressionRun {p q : Parser} (hlen : p.unread.length = q.unread.length)
    (first : P.Outcome (fun _ _ => True) (act.advance p) (act'.advance q)) :
    P.Outcome P.node (Parse.singleExpression table act p)
      (Parse.singleExpression table act' q) := by
  have hreach : q.reach = p.reach := by rw [Parser.reach, Parser.reach, hlen]
  rw [Parse.singleExpression, Parse.singleExpression, Parse.withCalls, Parse.withCalls, hreach]
  exact paired_singleExpression hl (paired_nested hl _) first

end

/-! ## Nodes that correspond -/

/-- What is made of nodes that have a property everywhere has it everywhere, if the new node has it
and the names of properties do. -/
theorem everywhere_of_made {P : Pairing} {Q : Node → Prop} {id : String} {position : Position}
    {f g : Form} (h : P.Made f g) (hf : Q (.ofForm id f position))
    (hnode : ∀ {a b}, P.node a b → a.Everywhere Q)
    (hproperty : ∀ {t u}, P.label t u → Q (.ofValue (.string t.value) t.position)) :
    (Node.ofForm id f position).Everywhere Q := by
  refine Node.everywhere_iff.2 ⟨hf, fun child hc => ?_⟩
  obtain ⟨other, hchild⟩ | ⟨t, u, htu, -, rfl⟩ := h.child child hc
  · exact hnode hchild
  · exact (Node.everywhere_ofForm rfl).2 (hproperty htu)

section
variable {P : Pairing} (hnode : ∀ {a b}, P.node a b → a = b)
include hnode

theorem eq_of_nodes {as bs : List Node} (h : P.nodes as bs) : as = bs := by
  induction h with
  | nil => rfl
  | cons h _ ih => rw [hnode h, ih]

theorem eq_of_body {s t : Statements} (h : P.Body s t) : s = t := by
  cases h with
  | empty => rfl
  | single h => rw [hnode h]
  | sequence h => rw [eq_of_nodes hnode h]

theorem eq_of_made {f g : Form} (h : P.Made f g) (hvalue : ∀ {t u}, P.token t u → t.value = u.value)
    (hlabel : ∀ {t u}, P.label t u → t = u) : f = g := by
  cases h with
  | self | breakOut => rfl
  | unary h => rw [hnode h]
  | array h | object h => rw [eq_of_nodes hnode h]
  | binary h h' | assignment h h' | declaration h h' | index h h' => rw [hnode h, hnode h']
  | member h ht => rw [hnode h, hlabel ht]
  | call h hs => rw [hnode h, eq_of_nodes hnode hs]
  | ternary h h' h'' => rw [hnode h, hnode h', hnode h'']
  | block h => rw [eq_of_body hnode h]
  | whileLoop h hs => rw [hnode h, eq_of_body hnode hs]
  | ifElse h hs ht => rw [hnode h, eq_of_body hnode hs, eq_of_body hnode ht]
  | returnWith h =>
    cases h with
    | none => rfl
    | some h => rw [hnode h]
  | function hname hps hs =>
    rw [eq_of_nodes hnode hps, eq_of_body hnode hs]
    cases hname with
    | none => rfl
    | some h =>
      obtain ⟨t, u, htu, -, rfl, rfl⟩ := h
      rw [hvalue htu]

end

section
variable {P : Pairing} (hnode : ∀ {a b}, P.node a b → a.bare = b.bare)
include hnode

theorem bare_of_nodes {as bs : List Node} (h : P.nodes as bs) :
    as.map Node.bare = bs.map Node.bare := by
  induction h with
  | nil => rfl
  | cons h _ ih => rw [List.map_cons, List.map_cons, hnode h, ih]

theorem bare_of_body {s t : Statements} (h : P.Body s t) : s.bare = t.bare := by
  cases h with
  | empty => rfl
  | single h => rw [Statements.bare, Statements.bare, hnode h]
  | sequence h => simp only [Statements.bare, bareNodes_eq, bare_of_nodes hnode h]

/-- What is made of nodes that have the same bare nodes, and of the same words, has the same bare
form. -/
theorem bare_of_made {f g : Form} (h : P.Made f g)
    (hvalue : ∀ {t u}, P.token t u → u.value = t.value)
    (hlabel : ∀ {t u}, P.label t u → u.value = t.value) : f.bare = g.bare := by
  cases h with
  | self | breakOut => rfl
  | unary h => rw [Form.bare, Form.bare, hnode h]
  | array h | object h => simp only [Form.bare, bareNodes_eq, bare_of_nodes hnode h]
  | binary h h' | assignment h h' | declaration h h' | index h h' =>
    rw [Form.bare, Form.bare, hnode h, hnode h']
  | member h ht =>
    rw [Form.bare, Form.bare, hnode h, hlabel ht]
    rfl
  | call h hs => simp only [Form.bare, bareNodes_eq, hnode h, bare_of_nodes hnode hs]
  | ternary h h' h'' => rw [Form.bare, Form.bare, hnode h, hnode h', hnode h'']
  | block h => rw [Form.bare, Form.bare, bare_of_body hnode h]
  | whileLoop h hs => rw [Form.bare, Form.bare, hnode h, bare_of_body hnode hs]
  | ifElse h hs ht =>
    rw [Form.bare, Form.bare, hnode h, bare_of_body hnode hs, bare_of_body hnode ht]
  | returnWith h =>
    cases h with
    | none => rfl
    | some h => simp only [Form.bare, bareOptional_eq, Option.map_some, hnode h]
  | function hname hps hs =>
    simp only [Form.bare, bareNodes_eq, bare_of_nodes hnode hps, bare_of_body hnode hs]
    cases hname with
    | none => rfl
    | some h =>
      obtain ⟨t, u, htu, -, rfl, rfl⟩ := h
      rw [hvalue htu]

end

end Pairing

end ScriptTree
