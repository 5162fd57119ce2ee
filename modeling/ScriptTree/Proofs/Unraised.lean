import ScriptTree.Proofs.SpelledTrees

/-!
# Errors that no script raises

Three checks of the parser never fail on a script: what binds an operand has a rule for it, the end
stands behind all other tokens, and numerals are read as numbers. Nor is anything but a name
declared. All four are held together by `Pairing.scripted`, a run beside one in which other nodes
may be declared in any way.
-/

namespace ScriptTree

open Actions Parse Pairing

/-- Causes that take a grammar or tokens of another make. -/
def Cause.isForeign : Cause → Bool
  | .noOperator _ | .misplacedToken _ | .badNumber _ => true
  | _ => false

def Node.IsName (node : Node) : Prop :=
  ∃ name position, node = .ofName name position ∧ Word.Spelled (.name, name)

def Actions.declaringBy (declare : ScopeChain → Node → Except SyntaxError ScopeChain)
    (table : SymbolTable) : Actions :=
  { standard table with
    define := fun t => do
      changeScopes (declare · t.asName)
      pure t.asName }

/-! ## Checks that hold -/

theorem infixRule?_ne_none {id : String} (h : 0 < SymbolTable.grammar.power id) :
    (SymbolTable.grammar.lookup? id).bind (·.infixRule?) ≠ none := by
  have hall : ∀ symbol ∈ SymbolTable.grammar.symbols, 0 < symbol.power →
      symbol.infixRule? ≠ none := by decide +kernel
  cases hl : SymbolTable.grammar.lookup? id with
  | none =>
    rw [SymbolTable.power, hl] at h
    exact absurd h (Nat.lt_irrefl _)
  | some symbol =>
    rw [SymbolTable.power_of_lookup? hl] at h
    exact hall symbol (SymbolTable.mem_of_lookup? hl).1 h

theorem ofText?_ne_none {t : SymbolToken} (ht : t.Spelled) (hk : t.token.kind = .number) :
    Number.ofText? t.value ≠ none := by
  have hword := ht.word
  rw [Token.word, hk] at hword
  have hsome := Number.isSome_ofText?_of_isNumeral hword
  rw [String.ofList_toList] at hsome
  exact Option.isSome_iff_ne_none.1 hsome

structure Parser.Scripted (p : Parser) : Prop where
  spelled : p.Spelled
  amid : ∀ t ∈ p.unread.dropLast, t.kind ≠ .ending

theorem classify_not_foreign {table : SymbolTable} {scopes : ScopeChain} {token : Token}
    {isLast : Bool} {e : SyntaxError} (hk : isLast = false → token.kind ≠ .ending)
    (h : classify table scopes isLast token = .error e) : e.cause.isForeign = false := by
  obtain ⟨-, rfl⟩ | ⟨hending, hlast, rfl⟩ := classify_eq_error h
  · rfl
  · exact absurd hending (hk hlast)

theorem moveOn_not_foreign {table : SymbolTable} {p q : Parser} {e : SyntaxError} (hp : p.Scripted)
    (h : moveOn table p = (.error e, q)) : e.cause.isForeign = false := by
  obtain ⟨token, rest, hu, hc⟩ := error_of_moveOn h
  refine classify_not_foreign (fun hlast => hp.amid token ?_) hc
  rw [hu]
  cases rest with
  | nil => cases hlast
  | cons next rest => exact List.mem_cons_self

theorem scripted_of_moveOn {table : SymbolTable} {p q : Parser} {t : SymbolToken} (hp : p.Scripted)
    (h : moveOn table p = (.ok t, q)) : q.Scripted := by
  refine ⟨spelled_of_moveOn hp.spelled h, fun t ht => hp.amid t ?_⟩
  rw [tail_of_moveOn h, ← List.tail_dropLast] at ht
  exact List.mem_of_mem_tail ht

theorem scripted_start {script : String} {tokens : List Token}
    (h : tokensOf .standard script = .ok tokens) : (Parser.start tokens).Scripted := by
  refine ⟨spelled_start h, fun t ht => ?_⟩
  obtain ⟨ws, hws, hspelled⟩ := Parser.words_of_tokensOf h
  have hmem : t.word ∈ (tokens.map Token.word).dropLast := by
    rw [← List.map_dropLast]
    exact List.mem_map_of_mem ht
  rw [hws, List.dropLast_concat] at hmem
  exact (hspelled _ hmem).1

/-! ## A run beside itself -/

def Pairing.scripted : Pairing where
  state p q := p = q ∧ p.Scripted
  halted p q := p = q
  token t u := t = u ∧ t.Spelled
  label t u := t = u
  node a b := a = b
  error d e := d = e ∧ d.cause.isForeign = false

theorem scripted_moveOn {R : SymbolToken → SymbolToken → Prop} {table : SymbolTable} {p : Parser}
    (hR : R p.current p.current) (hp : p.Scripted) :
    Pairing.scripted.Outcome R (moveOn table p) (moveOn table p) := by
  cases hm : moveOn table p with
  | mk result q =>
    cases result with
    | ok t =>
      rw [← current_of_moveOn hm] at hR
      exact .ok hR ⟨rfl, scripted_of_moveOn hp hm⟩
    | error e => exact .error ⟨rfl, moveOn_not_foreign hp hm⟩ rfl

theorem scripted_changeScopes {change : ScopeChain → Except SyntaxError ScopeChain}
    (change' : ScopeChain → Except SyntaxError ScopeChain)
    (hsame : ∀ chain, change chain = change' chain)
    (herror : ∀ chain e, change' chain = .error e → e.cause.isForeign = false) :
    Pairing.scripted.Run (fun _ _ => True) (changeScopes change) (changeScopes change') := by
  rintro p _ ⟨rfl, hp⟩
  unfold changeScopes
  rw [hsame]
  cases hc : change' p.scopes with
  | ok scopes => exact .ok trivial ⟨rfl, ⟨hp.spelled.current, hp.spelled.unread⟩, hp.amid⟩
  | error e => exact .error ⟨rfl, herror _ _ hc⟩ rfl

theorem define_not_foreign {chain : ScopeChain} {node : Node} {e : SyntaxError}
    (h : chain.define node = .error e) : e.cause.isForeign = false := by
  obtain h | ⟨name, h | h⟩ := ScopeChain.cause_of_define h <;> rw [h] <;> rfl

theorem reserve_not_foreign {chain : ScopeChain} {node : Node} {e : SyntaxError}
    (h : chain.reserve node = .error e) : e.cause.isForeign = false := by
  obtain ⟨name, h⟩ := ScopeChain.cause_of_reserve h
  rw [h]
  rfl

section
variable {declare : ScopeChain → Node → Except SyntaxError ScopeChain}
  (hd : ∀ chain node, node.IsName → declare chain node = chain.define node)
include hd

theorem lawful_scripted :
    Pairing.scripted.Lawful .grammar (declaringBy declare .grammar) (standard .grammar) where
  halted h := h.1
  current h := ⟨by rw [h.1], h.2.spelled.current⟩
  id h := by rw [h.1]
  kind h := by rw [h.1]
  fault h hc := by
    obtain ⟨rfl, -⟩ := h
    exact ⟨rfl, by cases hc <;> rfl⟩
  noOperator _ hp hr := absurd hr (infixRule?_ne_none hp)
  badNumber h hk hn := absurd hn (ofText?_ne_none h.2 hk)
  misuse h hc := by
    obtain rfl : _ = _ := h
    refine ⟨rfl, ?_⟩
    simp only [Cause.misuses, List.mem_cons, List.not_mem_nil, or_false] at hc
    rcases hc with rfl | rfl | rfl <;> rfl
  isAssignable h := by rw [show _ = _ from h]
  isCallable h := by rw [show _ = _ from h]
  isAssignment h := by rw [show _ = _ from h]
  isCall h := by rw [show _ = _ from h]
  name h _ := congrArg SymbolToken.asName h.1
  numeral h _ := by rw [h.1]
  number h _ _ := by
    obtain ⟨rfl, -⟩ := h
    rfl
  string h _ _ := by
    obtain ⟨rfl, -⟩ := h
    rfl
  constant h _ _ := by
    obtain ⟨rfl, -⟩ := h
    rfl
  made h hfg := by
    obtain ⟨rfl, -⟩ := h
    rw [eq_of_made (P := .scripted) id hfg (fun h => by rw [h.1]) id]
    rfl
  entry h _ hab := by
    obtain rfl : _ = _ := h
    exact congrArg _ hab
  advance := by
    rintro p _ ⟨rfl, hp⟩
    exact scripted_moveOn ⟨rfl, rfl⟩ hp
  label := by
    rintro p _ ⟨rfl, hp⟩ -
    exact scripted_moveOn ⟨rfl, rfl⟩ hp
  define := by
    rintro t _ ⟨rfl, ht⟩ hname
    have hsame (chain : ScopeChain) : declare chain t.asName = chain.define t.asName :=
      hd chain _ ⟨t.value, t.position, rfl, ht.spelled_name hname⟩
    exact (scripted_changeScopes _ hsame fun _ _ => define_not_foreign).bind fun _ _ _ =>
      paired_pure rfl
  reserve := by
    rintro t _ ⟨rfl, -⟩
    refine paired_ite Iff.rfl (fun _ => ?_) fun _ => paired_pure trivial
    exact scripted_changeScopes _ (fun _ => rfl) fun _ _ => reserve_not_foreign
  openScope := scripted_changeScopes (fun chain => .ok chain.push) (fun _ => rfl) fun _ _ h => by
    cases h
  closeScope := scripted_changeScopes (fun chain => .ok chain.pop) (fun _ => rfl) fun _ _ h => by
    cases h

end

/-! ## Scripts -/

theorem eq_of_outcome {α : Type} {R : α → α → Prop} {run run' : Except SyntaxError α × Parser}
    (hR : ∀ a b, R a b → a = b) (h : Pairing.scripted.Outcome R run run') :
    run = run' ∧ ∀ e, run'.1 = .error e → e.cause.isForeign = false := by
  cases h with
  | ok hab hpq =>
    rw [hR _ _ hab, hpq.1]
    exact ⟨rfl, fun e he => by cases he⟩
  | error he hpq =>
    obtain rfl : _ = _ := hpq
    refine ⟨by rw [he.1], fun e h => ?_⟩
    cases h
    exact he.1 ▸ he.2

section
variable {declare : ScopeChain → Node → Except SyntaxError ScopeChain}
  (hd : ∀ chain node, node.IsName → declare chain node = chain.define node)
  {p : Parser} (hp : p.Scripted)
include hd hp

theorem scripted_script :
    script .grammar (declaringBy declare .grammar) p = script .grammar (standard .grammar) p ∧
      ∀ e, (script .grammar (standard .grammar) p).1 = .error e → e.cause.isForeign = false := by
  refine eq_of_outcome (fun _ _ => eq_of_body id) (paired_scriptRun (lawful_scripted hd) rfl ?_)
  exact scripted_moveOn trivial hp

theorem scripted_singleExpression :
    singleExpression .grammar (declaringBy declare .grammar) p =
        singleExpression .grammar (standard .grammar) p ∧
      ∀ e, (singleExpression .grammar (standard .grammar) p).1 = .error e →
        e.cause.isForeign = false := by
  refine eq_of_outcome (fun _ _ => id) (paired_expressionRun (lawful_scripted hd) rfl ?_)
  exact scripted_moveOn trivial hp

end

/-- **No script raises a foreign error.** On the tokens of a script every operator has a rule, the
end is where it must be and numerals are numbers; and only names are ever declared, so that it is all
one what declaring another node would do. -/
theorem parse_not_foreign {text : String} {tokens : List Token}
    (h : tokensOf .standard text = .ok tokens) :
    (∀ e, parseTokens .grammar tokens = .error e → e.cause.isForeign = false) ∧
    (∀ e, parseExpression .grammar tokens = .error e → e.cause.isForeign = false) ∧
    ∀ declare : ScopeChain → Node → Except SyntaxError ScopeChain,
      (∀ chain node, node.IsName → declare chain node = chain.define node) →
      let act := declaringBy declare .grammar
      script .grammar act (.start tokens) = script .grammar (standard .grammar) (.start tokens) ∧
      singleExpression .grammar act (.start tokens) =
        singleExpression .grammar (standard .grammar) (.start tokens) := by
  have hstart := scripted_start h
  have hdefine : ∀ chain node, node.IsName → ScopeChain.define chain node = chain.define node :=
    fun _ _ _ => rfl
  refine ⟨(scripted_script hdefine hstart).2, (scripted_singleExpression hdefine hstart).2, ?_⟩
  intro declare hd
  exact ⟨(scripted_script hd hstart).1, (scripted_singleExpression hd hstart).1⟩

/-- A second declaration is refused, also where anything but a name could be declared again. -/
theorem parse_not_foreign_at_redeclaration :
    let loose (chain : ScopeChain) (node : Node) : Except SyntaxError ScopeChain :=
      match node.form with
      | .name _ => chain.define node
      | _ => .ok chain
    ∃ tokens e, tokensOf .standard "var x, x;" = .ok tokens ∧
      parseTokens .grammar tokens = .error e ∧ e.cause.isForeign = false ∧
      (script .grammar (declaringBy loose .grammar) (.start tokens)).1 = .error e := by
  intro loose
  let tokens : List Token := [⟨.name, "var", ⟨1, 1⟩⟩, ⟨.name, "x", ⟨1, 5⟩⟩,
    ⟨.operator, ",", ⟨1, 6⟩⟩, ⟨.name, "x", ⟨1, 8⟩⟩, ⟨.operator, ";", ⟨1, 9⟩⟩, .ending ⟨1, 10⟩]
  have htokens : tokensOf .standard "var x, x;" = .ok tokens :=
    eq_ok_of_toOption (by decide +kernel)
  have hloose : ∀ chain node, node.IsName → loose chain node = chain.define node := by
    rintro chain _ ⟨name, position, rfl, -⟩
    rfl
  have herror : parseTokens .grammar tokens = .error ⟨.alreadyDefined "x", ⟨1, 8⟩⟩ := rfl
  obtain ⟨hcause, -, hrun⟩ := parse_not_foreign htokens
  refine ⟨tokens, _, htokens, herror, hcause _ herror, ?_⟩
  rw [(hrun loose hloose).1]
  exact herror

end ScriptTree
