import ScriptTree.Proofs.Reading
import Mathlib.Order.Filter.AtTopBot.Basic

/-!
# Readings are runs

A parser moves to one token after the other, and at the end of the script to further ends; what it
does besides leaves the tokens as they are. Every reading is what the parsers do at any depth from
some one on (`runs_of_reads`), and what they do is a reading (`reads_of_script`).
-/

namespace ScriptTree

/-- The end of a script binds nothing and starts nothing. -/
structure SymbolTable.Ends (table : SymbolTable) : Prop where
  power : table.power endId = 0
  prefixRule : (table.lookup? endId).bind (·.prefixRule?) = none
  statementRule : (table.lookup? endId).bind (·.statementRule?) = none

theorem SymbolTable.ends_grammar : grammar.Ends where
  power := by decide +kernel
  prefixRule := by decide +kernel
  statementRule := by decide +kernel

/-! ## Moves -/

namespace Parser

def ahead (p : Parser) : Nat :=
  p.unread.length + if p.current.token.kind = .ending then 0 else 1

theorem ahead_le (p : Parser) : p.ahead ≤ p.unread.length + 1 := by
  unfold ahead
  split <;> omega

def Settled (p : Parser) : Prop := p.current.token.kind = .ending → p.current.id = endId

theorem Settled.congr {p q : Parser} (hp : p.Settled) (h : q.current = p.current) : q.Settled := by
  unfold Settled
  rwa [h]

theorem Settled.kind_ne {p : Parser} (hp : p.Settled) (h : p.current.id ≠ endId) :
    p.current.token.kind ≠ .ending := fun hk => h (hp hk)

end Parser

open Parse

theorem classify_ending {table : SymbolTable} {scopes : ScopeChain} {isLast : Bool} {token : Token}
    {id : String} (h : classify table scopes isLast token = .ok id) (hk : token.kind = .ending) :
    id = endId := by
  simp only [classify, hk] at h
  split at h
  · cases h; rfl
  · cases h

/-- What cannot be resolved is an unknown operator, or an end that is not the last token. -/
theorem classify_eq_error {table : SymbolTable} {scopes : ScopeChain} {isLast : Bool} {token : Token}
    {e : SyntaxError} (h : classify table scopes isLast token = .error e) :
    token.kind = .operator ∧ e = ⟨.unknownOperator token.value, token.position⟩ ∨
      token.kind = .ending ∧ isLast = false ∧
        e = ⟨.misplacedToken TokenKind.ending.text, token.position⟩ := by
  unfold classify at h
  split at h
  · cases h
  · rename_i hk
    split at h
    · cases h
    · cases h
      exact .inl ⟨hk, rfl⟩
  · cases h
  · cases h
  · rename_i hk
    split at h
    · cases h
    · rename_i hlast
      cases h
      exact .inr ⟨hk, by simpa using hlast, rfl⟩

theorem moveOn_of_classify {table : SymbolTable} {p : Parser} {token : Token} {rest : List Token}
    {id : String} (hu : p.unread = token :: rest)
    (hc : classify table p.scopes rest.isEmpty token = .ok id) :
    Actions.moveOn table p = (.ok p.current,
      { p with unread := rest, current := ⟨id, token⟩, moves := p.moves + 1 }) := by
  unfold Actions.moveOn
  simp [hu, hc]

section
variable {table : SymbolTable} {p q : Parser} {t : SymbolToken}

/-- A move ends at the next token; behind the last one it ends at one more end. -/
theorem moveOn_eq_ok (h : Actions.moveOn table p = (.ok t, q)) : t = p.current ∧
    (p.unread = [] ∧
        q = { p with current := ⟨endId, Token.ending p.finish⟩, moves := p.moves + 1 } ∨
      ∃ token rest id, p.unread = token :: rest ∧
        classify table p.scopes rest.isEmpty token = .ok id ∧
        q = { p with unread := rest, current := ⟨id, token⟩, moves := p.moves + 1 }) := by
  unfold Actions.moveOn at h
  split at h
  · rename_i hu
    cases h
    exact ⟨rfl, .inl ⟨hu, rfl⟩⟩
  · rename_i token rest hu
    split at h
    · rename_i id hc
      cases h
      exact ⟨rfl, .inr ⟨token, rest, id, hu, hc, rfl⟩⟩
    · cases h

theorem current_of_moveOn (h : Actions.moveOn table p = (.ok t, q)) : t = p.current :=
  (moveOn_eq_ok h).1

theorem settled_of_moveOn (h : Actions.moveOn table p = (.ok t, q)) : q.Settled := by
  obtain ⟨-, ⟨hu, rfl⟩ | ⟨token, rest, id, hu, hc, rfl⟩⟩ := moveOn_eq_ok h
  · exact fun _ => rfl
  · exact classify_ending hc

theorem error_of_moveOn {e : SyntaxError} (h : Actions.moveOn table p = (.error e, q)) :
    ∃ token rest, p.unread = token :: rest ∧
      classify table p.scopes rest.isEmpty token = .error e := by
  unfold Actions.moveOn at h
  split at h
  · cases h
  · rename_i token rest hu
    split at h
    · cases h
    · rename_i hc
      cases h
      exact ⟨token, rest, hu, hc⟩

theorem tail_of_moveOn (h : Actions.moveOn table p = (.ok t, q)) : q.unread = p.unread.tail := by
  obtain ⟨-, ⟨hu, rfl⟩ | ⟨token, rest, id, hu, hc, rfl⟩⟩ := moveOn_eq_ok h
  · simp [hu]
  · simp [hu]

theorem ahead_of_moveOn (h : Actions.moveOn table p = (.ok t, q))
    (hk : p.current.token.kind ≠ .ending) : q.ahead + 1 ≤ p.ahead := by
  obtain ⟨-, ⟨hu, rfl⟩ | ⟨token, rest, id, hu, hc, rfl⟩⟩ := moveOn_eq_ok h
  · simp [Parser.ahead, hu, hk, Token.ending]
  · simp only [Parser.ahead, hu, hk, List.length_cons, ite_false]
    split <;> omega

end

section
variable {table : SymbolTable} {p q : Parser} {t : SymbolToken} {u : Unit}

theorem unmoved_of_define {node : Node} (h : (Actions.standard table).define t p = (.ok node, q)) :
    q.current = p.current ∧ q.unread = p.unread := by
  obtain ⟨scopes, -, -, rfl⟩ := Actions.standard_define_eq_ok.1 h
  exact ⟨rfl, rfl⟩

theorem unmoved_of_reserve (h : (Actions.standard table).reserve t p = (.ok u, q)) :
    q.current = p.current ∧ q.unread = p.unread := by
  obtain ⟨scopes, -, rfl⟩ := Actions.standard_reserve_eq_ok.1 h
  exact ⟨rfl, rfl⟩

theorem unmoved_of_openScope (h : (Actions.standard table).openScope p = (.ok u, q)) :
    q.current = p.current ∧ q.unread = p.unread := by
  cases Actions.standard_openScope_eq_ok.1 h
  exact ⟨rfl, rfl⟩

theorem unmoved_of_closeScope (h : (Actions.standard table).closeScope p = (.ok u, q)) :
    q.current = p.current ∧ q.unread = p.unread := by
  cases Actions.standard_closeScope_eq_ok.1 h
  exact ⟨rfl, rfl⟩

end

/-! ## Runs at a depth -/

/-- The parser of the phrase reads it. The parser of a list goes on with the next element behind
the first one. -/
def Phrase.Runs (table : SymbolTable) (act : Actions) (calls : Calls) (p q : Parser) : Phrase → Prop
  | expression power node => calls.expression power p = (.ok node, q)
  | climb power left node => calls.climb power left p = (.ok node, q)
  | operand rule token node => rule.parse table act calls token p = (.ok node, q)
  | operation rule token left power node =>
    rule.parse act calls token left power p = (.ok node, q)
  | element kind nodes =>
    kind.parse (calls.next table act) p = Calls.continued act nodes (kind.parse calls) q
  | list kind nodes => kind.parse calls p = (.ok nodes, q)
  | upTo bracket kind nodes => Calls.upTo act bracket.close (kind.parse calls) p = (.ok nodes, q)
  | functionName name => PrefixRule.functionName act p = (.ok name, q)
  | statement read => calls.statement p = (.ok read, q)
  | ruled rule token read => rule.parse act calls token p = (.ok read, q)
  | condition node => StatementRule.condition act calls p = (.ok node, q)
  | alternative read => StatementRule.alternative act calls p = (.ok read, q)
  | statements nodes => calls.statements p = (.ok nodes, q)
  | blockBody body => calls.blockBody act p = (.ok body, q)
  | block body => calls.block act p = (.ok body, q)

theorem SymbolToken.kind_ne_of_isName {t : SymbolToken} (h : t.isName = true) :
    t.token.kind ≠ .ending := by
  intro hk
  simp [isName, Token.isName, hk] at h

theorem SymbolToken.kind_ne_of_isKey {t : SymbolToken}
    (h : (t.isName || t.token.isLiteral) = true) : t.token.kind ≠ .ending := by
  intro hk
  simp [isName, Token.isName, Token.isLiteral, hk] at h

theorem Bracket.close_ne (bracket : Bracket) : bracket.close ≠ endId := by
  cases bracket <;> decide

theorem expectBlockEnd_of_end {p : Parser} (h : p.current.id = "\x7d") :
    StatementRule.expectBlockEnd p = (.ok (), p) := by
  simp only [StatementRule.expectBlockEnd, current_bind_apply, ite_run, h, ite_true, pure_apply]

theorem Calls.nested_succ (table : SymbolTable) (act : Actions) (d : Nat) :
    Calls.nested table act (d + 1) = (Calls.nested table act d).next table act := rfl

theorem eventually_of_succ {P : Nat → Prop} (h : ∀ᶠ d in Filter.atTop, P (d + 1)) :
    ∀ᶠ d in Filter.atTop, P d := by
  rw [← Filter.map_add_atTop_eq_nat 1]
  exact h

/-- **Every reading is a run** at any depth from some one on. -/
theorem runs_of_reads {table : SymbolTable} {act : Actions} {phrase : Phrase} {p q : Parser}
    (h : Reads table act phrase p q) :
    ∀ᶠ d in Filter.atTop, phrase.Runs table act (.nested table act d) p q := by
  -- Rules run at the depth of the parsers that they call. What these parsers read is one deeper, and
  -- takes a step to the successor.
  induction h with
  | expression hm hr _ _ ih₁ ih₂ =>
    apply eventually_of_succ
    filter_upwards [ih₁, ih₂] with d h₁ h₂
    refine bind_eq_ok.2 ⟨_, _, hm, ?_⟩
    simp only [hr]
    exact bind_eq_ok.2 ⟨_, _, h₁, h₂⟩
  | stay h =>
    refine eventually_of_succ (.of_forall fun d => ?_)
    simp only [Phrase.Runs, Calls.nested_succ, Calls.next, Calls.nextClimb, current_bind_apply,
      ite_run, h, ite_false, pure_apply]
  | @climb p q r s token symbol rule power left middle node hpow hm hl hr _ _ ih₁ ih₂ =>
    apply eventually_of_succ
    filter_upwards [ih₁, ih₂] with d h₁ h₂
    obtain ⟨id, lbp, pre, infixRule, infixPower, std, constant⟩ := symbol
    cases hr
    simp only [Phrase.Runs, Calls.nested_succ, Calls.next, Calls.nextClimb, current_bind_apply,
      ite_run, hpow, ite_true]
    refine bind_eq_ok.2 ⟨_, _, hm, ?_⟩
    simp only [hl]
    exact bind_eq_ok.2 ⟨_, _, h₁, h₂⟩
  | name => exact .of_forall fun d => rfl
  | number hk hn =>
    refine .of_forall fun d => ?_
    simp only [Phrase.Runs, PrefixRule.parse, PrefixRule.literalNode, hk, hn, pure_apply]
  | @string p token hk =>
    refine .of_forall fun d => ?_
    cases hk' : token.token.kind with
    | number => exact absurd hk' hk
    | _ => simp only [Phrase.Runs, PrefixRule.parse, PrefixRule.literalNode, hk', pure_apply]
  | self hr | constant hr => exact .of_forall fun d => bind_eq_ok.2 ⟨_, _, hr, rfl⟩
  | unary hr _ ih =>
    filter_upwards [ih] with d h
    exact bind_eq_ok.2 ⟨_, _, hr, bind_eq_ok.2 ⟨_, _, h, rfl⟩⟩
  | grouping _ hm ih | index _ hm ih | declaration _ hm ih =>
    filter_upwards [ih] with d h
    exact bind_eq_ok.2 ⟨_, _, h, bind_eq_ok.2 ⟨_, _, hm, rfl⟩⟩
  | array _ ih | object _ ih | binary _ ih | binaryRight _ ih | blockStatement _ ih =>
    filter_upwards [ih] with d h
    exact bind_eq_ok.2 ⟨_, _, h, rfl⟩
  | function ho _ hs _ hb _ hm ih₁ ih₂ ih₃ =>
    filter_upwards [ih₁, ih₂, ih₃] with d h₁ h₂ h₃
    exact bind_eq_ok.2 ⟨_, _, ho, bind_eq_ok.2 ⟨_, _, h₁, bind_eq_ok.2 ⟨_, _, hs,
      bind_eq_ok.2 ⟨_, _, h₂, bind_eq_ok.2 ⟨_, _, hb, bind_eq_ok.2
        ⟨_, _, bind_eq_ok.2 ⟨_, _, h₃, rfl⟩, bind_eq_ok.2 ⟨_, _, hm, rfl⟩⟩⟩⟩⟩⟩⟩
  | anonymous hn =>
    refine .of_forall fun d => ?_
    simp [Phrase.Runs, PrefixRule.functionName, current_bind_apply, hn]
  | named hn hd hm =>
    refine .of_forall fun d => ?_
    simp only [Phrase.Runs, PrefixRule.functionName, current_bind_apply, ite_run, hn, ite_true]
    exact bind_eq_ok.2 ⟨_, _, hd, bind_eq_ok.2 ⟨_, _, hm, rfl⟩⟩
  | assignment hl _ ih =>
    filter_upwards [ih] with d h
    simp only [Phrase.Runs, InfixRule.parse, InfixRule.assignmentNode, hl, ite_true]
    exact bind_eq_ok.2 ⟨_, _, h, rfl⟩
  | ternary _ hm _ ih₁ ih₂ =>
    filter_upwards [ih₁, ih₂] with d h₁ h₂
    exact bind_eq_ok.2 ⟨_, _, h₁, bind_eq_ok.2 ⟨_, _, hm, bind_eq_ok.2 ⟨_, _, h₂, rfl⟩⟩⟩
  | member hn hm =>
    refine .of_forall fun d => ?_
    simp only [Phrase.Runs, InfixRule.parse, InfixRule.memberNode, current_bind_apply, ite_run,
      hn, ite_true]
    exact bind_eq_ok.2 ⟨_, _, hm, rfl⟩
  | call hl _ ih =>
    filter_upwards [ih] with d h
    simp only [Phrase.Runs, InfixRule.parse, InfixRule.callNode, hl, ite_true]
    exact bind_eq_ok.2 ⟨_, _, h, rfl⟩
  | item _ ih =>
    filter_upwards [ih] with d h
    simp only [Phrase.Runs] at h
    simp only [Phrase.Runs, ListKind.parse, Calls.next, Calls.nextItems, bind_apply, h]
  | entry hk hl hm _ ih =>
    filter_upwards [ih] with d h
    simp only [Phrase.Runs] at h
    simp only [Phrase.Runs, ListKind.parse, Calls.next, Calls.nextEntries, bind_apply, current_apply,
      ite_run, hk, ite_true, hl, hm, h]
  | parameter hn hd hm =>
    refine .of_forall fun d => ?_
    simp only [Phrase.Runs, ListKind.parse, Calls.next, Calls.nextParameters, bind_apply, current_apply,
      ite_run, hn, ite_true, hd, hm]
  | uninitialised hn hd hm hid =>
    refine .of_forall fun d => ?_
    simp only [Phrase.Runs, ListKind.parse, Calls.next, Calls.nextDeclarations, Calls.initialValue,
      bind_apply, current_apply, currentIs_apply, ite_run, hn, ite_true, hd, hm,
      beq_iff_eq, hid, ite_false, pure_apply]
  | initialised hn hd hm hid hs _ ih =>
    filter_upwards [ih] with d h
    simp only [Phrase.Runs] at h
    simp only [Phrase.Runs, ListKind.parse, Calls.next, Calls.nextDeclarations, Calls.initialValue,
      bind_apply, current_apply, currentIs_apply, ite_run, hn, ite_true, hd, hm,
      beq_iff_eq, hid, hs, h, pure_apply]
  | last _ hid ih =>
    apply eventually_of_succ
    filter_upwards [ih] with d h
    simp only [Phrase.Runs] at h
    simp only [Phrase.Runs, Calls.nested_succ, h, Calls.continued, currentIs_bind_apply,
      ite_run, beq_iff_eq, hid, ite_false, pure_apply]
  | more _ hid hm _ ih₁ ih₂ =>
    apply eventually_of_succ
    filter_upwards [ih₁, ih₂] with d h₁ h₂
    simp only [Phrase.Runs] at h₁ h₂
    simp only [Phrase.Runs, Calls.nested_succ, h₁, Calls.continued, currentIs_bind_apply,
      ite_run, beq_iff_eq, hid, ite_true]
    exact bind_eq_ok.2 ⟨_, _, hm, bind_eq_ok.2 ⟨_, _, h₂, rfl⟩⟩
  | closed hid hm =>
    refine .of_forall fun d => ?_
    simp only [Phrase.Runs, Calls.upTo, currentIs_bind_apply, ite_run, beq_iff_eq, hid, ite_true]
    exact bind_eq_ok.2 ⟨_, _, hm, rfl⟩
  | filled hid _ hm ih =>
    filter_upwards [ih] with d h
    simp only [Phrase.Runs, Calls.upTo, currentIs_bind_apply, ite_run, beq_iff_eq, hid, ite_false]
    exact bind_eq_ok.2 ⟨_, _, h, bind_eq_ok.2 ⟨_, _, hm, rfl⟩⟩
  | expressionStatement hr _ hf hm ih =>
    apply eventually_of_succ
    filter_upwards [ih] with d h
    simp only [Phrase.Runs, Calls.nested_succ, Calls.next, Calls.nextStatement,
      current_bind_apply, hr]
    refine bind_eq_ok.2 ⟨_, _, h, ?_⟩
    simp only [ite_run, hf, ite_true]
    exact bind_eq_ok.2 ⟨_, _, hm, rfl⟩
  | ruled hr hm hres _ ih =>
    apply eventually_of_succ
    filter_upwards [ih] with d h
    simp only [Phrase.Runs, Calls.nested_succ, Calls.next, Calls.nextStatement,
      current_bind_apply, hr]
    exact bind_eq_ok.2 ⟨_, _, hm, bind_eq_ok.2 ⟨_, _, hres, h⟩⟩
  | whileLoop _ _ ih₁ ih₂ =>
    filter_upwards [ih₁, ih₂] with d h₁ h₂
    exact bind_eq_ok.2 ⟨_, _, h₁, bind_eq_ok.2 ⟨_, _, h₂, rfl⟩⟩
  | ifElse _ _ _ ih₁ ih₂ ih₃ =>
    filter_upwards [ih₁, ih₂, ih₃] with d h₁ h₂ h₃
    exact bind_eq_ok.2 ⟨_, _, h₁, bind_eq_ok.2 ⟨_, _, h₂, bind_eq_ok.2 ⟨_, _, h₃, rfl⟩⟩⟩
  | breakOut hm hid =>
    refine .of_forall fun d => ?_
    exact bind_eq_ok.2 ⟨_, _, hm, bind_eq_ok.2 ⟨_, _, expectBlockEnd_of_end hid, rfl⟩⟩
  | @returnNothing p q token closing hid hm hend =>
    refine .of_forall fun d => ?_
    refine bind_eq_ok.2 ⟨none, p, ?_, bind_eq_ok.2
      ⟨_, _, hm, bind_eq_ok.2 ⟨_, _, expectBlockEnd_of_end hend, rfl⟩⟩⟩
    simp only [StatementRule.returnValue, currentIs_bind_apply, ite_run, beq_iff_eq, hid, ite_true,
      pure_apply]
  | @returnValue p q r token closing value hid _ hm hend ih =>
    filter_upwards [ih] with d h
    refine bind_eq_ok.2 ⟨some value, q, ?_, bind_eq_ok.2
      ⟨_, _, hm, bind_eq_ok.2 ⟨_, _, expectBlockEnd_of_end hend, rfl⟩⟩⟩
    simp only [StatementRule.returnValue, currentIs_bind_apply, ite_run, beq_iff_eq, hid,
      ite_false]
    exact bind_eq_ok.2 ⟨_, _, h, rfl⟩
  | condition ho _ hm ih =>
    filter_upwards [ih] with d h
    exact bind_eq_ok.2 ⟨_, _, ho, bind_eq_ok.2 ⟨_, _, h, bind_eq_ok.2 ⟨_, _, hm, rfl⟩⟩⟩
  | noAlternative hid =>
    refine .of_forall fun d => ?_
    simp only [Phrase.Runs, StatementRule.alternative, currentIs_bind_apply, ite_run, beq_iff_eq,
      hid, ite_false, pure_apply]
  | elseIf hid hres hm hif _ ih =>
    filter_upwards [ih] with d h
    simp only [Phrase.Runs, StatementRule.alternative, currentIs_bind_apply, ite_run, beq_iff_eq,
      hid, ite_true, current_bind_apply]
    refine bind_eq_ok.2 ⟨_, _, hres, bind_eq_ok.2 ⟨_, _, hm, ?_⟩⟩
    simp only [currentIs_bind_apply, ite_run, beq_iff_eq, hif, ite_true]
    exact h
  | elseBlock hid hres hm hif _ ih =>
    filter_upwards [ih] with d h
    simp only [Phrase.Runs, StatementRule.alternative, currentIs_bind_apply, ite_run, beq_iff_eq,
      hid, ite_true, current_bind_apply]
    refine bind_eq_ok.2 ⟨_, _, hres, bind_eq_ok.2 ⟨_, _, hm, ?_⟩⟩
    simp only [currentIs_bind_apply, ite_run, beq_iff_eq, hif, ite_false]
    exact h
  | done hid =>
    refine eventually_of_succ (.of_forall fun d => ?_)
    simp only [Phrase.Runs, Calls.nested_succ, Calls.next, Calls.nextStatements,
      current_bind_apply, ite_run, Bool.or_eq_true, decide_eq_true_eq, hid, ite_true, pure_apply]
  | next hid _ _ ih₁ ih₂ =>
    apply eventually_of_succ
    filter_upwards [ih₁, ih₂] with d h₁ h₂
    simp only [Phrase.Runs, Calls.nested_succ, Calls.next, Calls.nextStatements,
      current_bind_apply, ite_run, Bool.or_eq_true, decide_eq_true_eq, hid, ite_false]
    exact bind_eq_ok.2 ⟨_, _, h₁, bind_eq_ok.2 ⟨_, _, h₂, rfl⟩⟩
  | blockBody ho _ hm ih =>
    filter_upwards [ih] with d h
    exact bind_eq_ok.2 ⟨_, _, ho, bind_eq_ok.2
      ⟨_, _, bind_eq_ok.2 ⟨_, _, h, rfl⟩, bind_eq_ok.2 ⟨_, _, hm, rfl⟩⟩⟩
  | block hm _ ih =>
    filter_upwards [ih] with d h
    exact bind_eq_ok.2 ⟨_, _, hm, h⟩

/-! ## Whole runs -/

section
variable {table : SymbolTable} {act : Actions} {p q : Parser}

theorem reads_of_script {script : Statements} (h : Parse.script table act p = (.ok script, q)) :
    ∃ t r nodes s e, act.advance p = (.ok t, r) ∧ Reads table act (.statements nodes) r s ∧
      act.expect endId s = (.ok e, q) ∧ script = .ofList nodes := by
  simp only [Parse.script, withCalls, Calls.script, Calls.body, bind_eq_ok, pure_eq_ok] at h
  obtain ⟨t, r, hm, _, s, ⟨nodes, _, hn, rfl, rfl⟩, e, _, he, rfl, rfl⟩ := h
  exact ⟨t, r, nodes, _, e, hm, (Calls.sound_nested table act _).statements hn, he, rfl⟩

theorem reads_of_singleExpression {node : Node}
    (h : Parse.singleExpression table act p = (.ok node, q)) :
    ∃ t r s e, act.advance p = (.ok t, r) ∧ Reads table act (.expression .none node) r s ∧
      act.expect endId s = (.ok e, q) := by
  simp only [Parse.singleExpression, withCalls, Calls.singleExpression, bind_eq_ok, pure_eq_ok] at h
  obtain ⟨t, r, hm, _, s, hn, e, _, he, rfl, rfl⟩ := h
  exact ⟨t, r, s, e, hm, (Calls.sound_nested table act _).expression hn, he⟩

theorem parseTokens_eq_ok {tokens : List Token} {tree : Statements} :
    parseTokens table tokens = .ok tree ↔
      ∃ q, Parse.script table (.standard table) (.start tokens) = (.ok tree, q) :=
  ⟨fun h => ⟨_, Prod.ext h rfl⟩, fun ⟨_, h⟩ => congrArg Prod.fst h⟩

theorem parseScript_eq_ok {script : String} {tree : Statements} : parseScript script = .ok tree ↔
    ∃ tokens, tokensOf .standard script = .ok tokens ∧ parseTokens .grammar tokens = .ok tree := by
  unfold parseScript
  cases tokensOf .standard script with
  | error e => exact ⟨nofun, nofun⟩
  | ok tokens => exact ⟨fun h => ⟨tokens, rfl, h⟩, fun ⟨_, rfl, h⟩ => h⟩

end

end ScriptTree
