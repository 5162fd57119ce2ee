import ScriptTree.Proofs.Symbols

/-!
# Runs side by side

With other steps than the standard ones, a parser may still run the same, but that its errors are
changed (`Parse.Mirrors`). A `Mirror` is a set of such steps, with the states from which they are taken:
settled ones, in which parsers are called and give results and the current symbol is up to date, and
loose ones behind a declaration or the end of a scope, from which the parser moves on at once. Every
parser of the grammar runs the same with the steps of a mirror (`mirrors_nested`).
-/

namespace ScriptTree

def Parser.Fresh (table : SymbolTable) (p : Parser) : Prop :=
  (classify table p.scopes p.unread.isEmpty p.current.token).toOption = some p.current.id

instance (table : SymbolTable) (p : Parser) : Decidable (p.Fresh table) :=
  inferInstanceAs (Decidable (_ = _))

def Cause.isCollision : Cause → Bool
  | alreadyDefined _ | alreadyReserved _ => true
  | _ => false

/-! ## Runs side by side -/

namespace Parse

def mapError {α : Type} (change : SyntaxError → SyntaxError) (x : Parse α) : Parse α := fun p =>
  ((x p).1.mapError change, (x p).2)

/-- From states of the first kind, the one parser runs as the other, but that its errors are changed;
it gives results in states of the second kind. -/
def Mirrors {α : Type} (change : SyntaxError → SyntaxError) (pre : Parser → Prop) (x y : Parse α)
    (post : α → Parser → Prop) : Prop :=
  ∀ p, pre p → x p = y.mapError change p ∧ ∀ a q, y p = (.ok a, q) → post a q

section
variable {α β : Type} {change : SyntaxError → SyntaxError} {pre : Parser → Prop}
  {post : α → Parser → Prop} {goal : β → Parser → Prop}

theorem mirrors_pure (a : α) (h : ∀ p, pre p → post a p) :
    Mirrors change pre (pure a) (pure a) post := by
  intro p hp
  refine ⟨rfl, ?_⟩
  rintro _ _ ⟨⟩
  exact h p hp

theorem mirrors_fail {e : SyntaxError} (h : change e = e) :
    Mirrors change pre (fail e) (fail e) post := by
  intro p _
  refine ⟨?_, nofun⟩
  rw [mapError, fail_apply]
  exact (congrArg (fun e => (Except.error e, p)) h).symm

theorem Mirrors.bind {x y : Parse α} {f g : α → Parse β} (h : Mirrors change pre x y post)
    (hf : ∀ a, Mirrors change (post a) (f a) (g a) goal) :
    Mirrors change pre (x >>= f) (y >>= g) goal := by
  intro p hp
  obtain ⟨hx, hpost⟩ := h p hp
  rw [mapError, bind_apply, bind_apply, hx, mapError]
  cases hy : y p with
  | mk result q =>
    cases result with
    | error e => exact ⟨rfl, nofun⟩
    | ok a => exact hf a q (hpost a q hy)

theorem Mirrors.at {x y : Parse α} {other : Parser → Prop} (h : Mirrors change pre x y post)
    (hpre : ∀ p, other p → pre p) : Mirrors change other x y post :=
  fun p hp => h p (hpre p hp)

theorem mirrors_current {f g : SymbolToken → Parse β}
    (h : ∀ t, Mirrors change (fun p => pre p ∧ p.current = t) (f t) (g t) goal) :
    Mirrors change pre (current >>= f) (current >>= g) goal :=
  fun p hp => h p.current p ⟨hp, rfl⟩

theorem mirrors_currentIs {id : String} {f g : Bool → Parse β}
    (h : ∀ b, Mirrors change (fun p => pre p ∧ (p.current.id == id) = b) (f b) (g b) goal) :
    Mirrors change pre (currentIs id >>= f) (currentIs id >>= g) goal :=
  fun p hp => h (p.current.id == id) p ⟨hp, rfl⟩

theorem mirrors_ite {c : Prop} [Decidable c] {x y v w : Parse α}
    (ht : c → Mirrors change pre x v post) (hf : ¬ c → Mirrors change pre y w post) :
    Mirrors change pre (if c then x else y) (if c then v else w) post := by
  by_cases h : c
  · rw [if_pos h, if_pos h]
    exact ht h
  · rw [if_neg h, if_neg h]
    exact hf h

end

end Parse

/-! ## Scopes in which a word is read -/

namespace ScopeChain

variable {c d : ScopeChain} {table : SymbolTable} {name other : String}

theorem lookup?_insert (c : ScopeChain) (name other : String) (known : Definition) :
    (c.insert name known).lookup? other = if other = name then some known else c.lookup? other := by
  unfold insert lookup? toList
  cases c.nested with
  | nil =>
    simp only [List.nil_append, List.findSome?_cons, Scope.lookup?_insert]
    by_cases h : other = name
    · simp [h]
    · simp [h]
  | cons scope outer =>
    simp only [List.cons_append, List.findSome?_cons, Scope.lookup?_insert]
    by_cases h : other = name
    · simp [h]
    · simp [h]

theorem resolve_push (c : ScopeChain) (table : SymbolTable) (name : String) :
    c.push.resolve table name = c.resolve table name := by
  have hl : c.push.lookup? name = c.lookup? name := List.findSome?_cons_of_isNone rfl
  rw [resolve, hl, resolve]

/-- A keyword that no scope knows can be marked: all words are read as before. -/
theorem resolve_insert {node : Node} (h : c.lookup? name = none) (other : String) :
    (c.insert name ⟨node, true⟩).resolve table other = c.resolve table other := by
  unfold resolve
  rw [lookup?_insert]
  by_cases heq : other = name
  · subst heq
    simp [h]
  · rw [if_neg heq]

/-- A word that is not read as a plain name can be used as a keyword. It is one already, or no scope
knows it. -/
theorem reserve_of_resolve (position : Position) (h : c.resolve table name ≠ nameId) :
    c.reserve (.ofName name position) = .ok c ∨ c.lookup? name = none ∧
      c.reserve (.ofName name position) = .ok (c.insert name ⟨.ofName name position, true⟩) := by
  have hform : (Node.ofName name position).form = .name name := rfl
  have hkey : (table.contains name && (c.lookup? name).all (·.isReserved)) = true :=
    Classical.byContradiction fun hn => h (if_neg hn)
  obtain ⟨-, hall⟩ := Bool.and_eq_true_iff.1 hkey
  unfold reserve
  simp only [hform]
  by_cases hr : c.isReserved name = true
  · exact .inl (if_pos hr)
  · have hnone : c.lookup? name = none := by
      cases hl : c.lookup? name with
      | none => rfl
      | some known => simp [isReserved, hl] at hr hall; simp [hr] at hall
    have hcurrent : c.current.lookup? name = none := by
      cases hl : c.current.lookup? name with
      | none => rfl
      | some known => rw [lookup?_of_current hl] at hnone; cases hnone
    rw [if_neg hr, hcurrent]
    exact .inr ⟨hnone, rfl⟩

end ScopeChain

def SymbolToken.ReadIn (c : ScopeChain) (t : SymbolToken) : Prop :=
  t.isName = true → t.id = c.resolve .grammar t.value

namespace Parser

variable {table : SymbolTable} {p q : Parser}

theorem fresh_iff : p.Fresh table ↔
    classify table p.scopes p.unread.isEmpty p.current.token = .ok p.current.id := by
  unfold Fresh
  cases classify table p.scopes p.unread.isEmpty p.current.token <;> simp [Except.toOption]

theorem fresh_of_moveOn {t : SymbolToken} (h : Actions.moveOn table p = (.ok t, q)) :
    q.Fresh table := by
  obtain ⟨-, ⟨hu, rfl⟩ | ⟨token, rest, id, hu, hc, rfl⟩⟩ := moveOn_eq_ok h
  · simp [fresh_iff, hu, classify, Token.ending]
  · exact fresh_iff.2 hc

theorem Fresh.congr {scopes : ScopeChain} (h : p.Fresh table)
    (hs : ∀ name, scopes.resolve table name = p.scopes.resolve table name) :
    Fresh table { p with scopes } := by
  rw [fresh_iff] at h ⊢
  unfold classify at h ⊢
  simp only [hs]
  exact h

theorem Fresh.readIn (h : p.Fresh .grammar) : p.current.ReadIn p.scopes := by
  intro hn
  rw [fresh_iff, classify, show p.current.token.kind = .name from eq_of_beq hn] at h
  exact (Except.ok.inj h).symm

end Parser

/-- A word that has been read as a symbol of its own can be used as a keyword. -/
theorem Actions.reserve_of_readIn {t : SymbolToken} {p : Parser} (h : t.ReadIn p.scopes)
    (hid : t.id ≠ nameId) :
    ∃ scopes, (standard .grammar).reserve t p = (.ok (), { p with scopes }) ∧
      (scopes = p.scopes ∨ p.scopes.lookup? t.value = none ∧
        scopes = p.scopes.insert t.value ⟨t.asName, true⟩) := by
  by_cases hn : t.isName = true
  · rw [h hn] at hid
    obtain hs | ⟨hnone, hs⟩ := ScopeChain.reserve_of_resolve t.position hid
    · exact ⟨_, standard_reserve_eq_ok.2 ⟨_, (if_pos hn).trans hs, rfl⟩, .inl rfl⟩
    · exact ⟨_, standard_reserve_eq_ok.2 ⟨_, (if_pos hn).trans hs, rfl⟩, .inr ⟨hnone, rfl⟩⟩
  · exact ⟨_, standard_reserve_eq_ok.2 ⟨_, if_neg hn, rfl⟩, .inl rfl⟩

/-! ## Mirrors -/

open Parse Actions

/-- Steps that run as the standard ones of the language, but for their errors. -/
structure Mirror where
  act : Actions
  change : SyntaxError → SyntaxError
  settled : Parser → Prop
  loose : Parser → Prop
  plain {e} : e.cause.isCollision = false → change e = e
  fresh {p} : settled p → p.Fresh .grammar
  loosen {p} : settled p → loose p
  advance : Mirrors change loose act.advance (moveOn .grammar) fun _ => settled
  label : Mirrors change loose act.label (moveOn .grammar) fun _ => settled
  define (t) : Mirrors change settled (act.define t) ((standard .grammar).define t) fun _ => loose
  reserve (t) : Mirrors change (fun p => settled p ∧ t.ReadIn p.scopes ∧ t.id ≠ nameId)
    (act.reserve t) ((standard .grammar).reserve t) fun _ => settled
  openScope : Mirrors change settled act.openScope (standard .grammar).openScope fun _ => settled
  closeScope : Mirrors change settled act.closeScope (standard .grammar).closeScope fun _ => loose

namespace Mirror

variable (m : Mirror)

def Shows {α : Type} (x y : Parse α) : Prop := Mirrors m.change m.settled x y fun _ => m.settled

variable {m} {α : Type} {pre : Parser → Prop}

theorem done (a : α) : m.Shows (pure a) (pure a) := mirrors_pure a fun _ hp => hp

theorem stay {good : Parser → Prop} (a : α) :
    Mirrors m.change (fun p => m.settled p ∧ good p) (pure a) (pure a) fun _ => m.settled :=
  mirrors_pure a fun _ hp => hp.1

theorem fault {cause : Cause} {position : Position} {goal : α → Parser → Prop}
    (h : cause.isCollision = false) :
    Mirrors m.change pre (fail ⟨cause, position⟩) (fail ⟨cause, position⟩) goal :=
  mirrors_fail (m.plain h)

theorem Shows.under {good : Parser → Prop} {x y : Parse α} (h : m.Shows x y) :
    Mirrors m.change (fun p => m.settled p ∧ good p) x y fun _ => m.settled :=
  h.at fun _ hp => hp.1

theorem move : m.Shows m.act.advance (moveOn .grammar) := m.advance.at fun _ hp => m.loosen hp

theorem moveLabel : m.Shows m.act.label (moveOn .grammar) := m.label.at fun _ hp => m.loosen hp

theorem take (good : SymbolToken → Prop) :
    Mirrors m.change (fun p => m.settled p ∧ good p.current) m.act.advance (moveOn .grammar)
      fun t q => m.settled q ∧ t.ReadIn q.scopes ∧ good t := by
  rintro p ⟨hp, hgood⟩
  obtain ⟨hrun, hpost⟩ := m.move p hp
  refine ⟨hrun, fun t q hm => ⟨hpost t q hm, ?_⟩⟩
  rw [current_of_moveOn hm, scopes_of_moveOn hm]
  exact ⟨(m.fresh hp).readIn, hgood⟩

theorem pass (id : String) : m.Shows (m.act.expect id) ((standard .grammar).expect id) :=
  mirrors_current fun _ => mirrors_ite (fun _ => move.under) fun _ => fault rfl

theorem scopeEnd (id : String) :
    m.Shows (m.act.expectScopeEnd id) ((standard .grammar).expectScopeEnd id) := by
  refine mirrors_current fun _ => mirrors_ite (fun _ => ?_) fun _ => fault rfl
  exact (m.closeScope.at fun _ hp => hp.1).bind fun _ => m.advance

theorem declare {t : SymbolToken} {f g : Node → Parse α} {good : Parser → Prop}
    (h : ∀ node, Mirrors m.change m.loose (f node) (g node) fun _ => m.settled) :
    Mirrors m.change (fun p => m.settled p ∧ good p) (m.act.define t >>= f)
      ((standard .grammar).define t >>= g) fun _ => m.settled :=
  ((m.define t).at fun _ hp => hp.1).bind h

end Mirror

/-! ## Rules side by side -/

structure Calls.Mirrored (m : Mirror) (image calls : Calls) : Prop where
  expression (power : BindingPower) : m.Shows (image.expression power) (calls.expression power)
  climb (power : BindingPower) (left : Node) :
    m.Shows (image.climb power left) (calls.climb power left)
  items : m.Shows image.items calls.items
  entries : m.Shows image.entries calls.entries
  parameters : m.Shows image.parameters calls.parameters
  declarations : m.Shows image.declarations calls.declarations
  statement : m.Shows image.statement calls.statement
  statements : m.Shows image.statements calls.statements

section
open Mirror

variable {m : Mirror} {image calls : Calls} {token : SymbolToken}

theorem mirrors_continued (nodes : List Node) {x y : Parse (List Node)} (h : m.Shows x y) :
    m.Shows (Calls.continued m.act nodes x) (Calls.continued (standard .grammar) nodes y) := by
  refine mirrors_currentIs fun b => mirrors_ite (fun _ => ?_) fun _ => stay _
  exact (pass ",").under.bind fun _ => h.bind fun _ => done _

theorem mirrors_upTo (closing : String) {x y : Parse (List Node)} (h : m.Shows x y) :
    m.Shows (Calls.upTo m.act closing x) (Calls.upTo (standard .grammar) closing y) := by
  refine mirrors_currentIs fun b => mirrors_ite (fun _ => ?_) fun _ => ?_
  · exact (pass closing).under.bind fun _ => done _
  · exact h.under.bind fun _ => (pass closing).bind fun _ => done _

/-- The name of a function is resolved outside its scope and declared inside. -/
theorem mirrors_functionName :
    m.Shows (PrefixRule.functionName m.act) (PrefixRule.functionName (standard .grammar)) := by
  refine mirrors_current fun t => mirrors_ite (fun _ => ?_) fun _ => stay _
  exact declare fun _ => m.advance.bind fun _ => done _

theorem mirrors_literal :
    m.Shows (PrefixRule.literalNode token) (PrefixRule.literalNode token) := by
  unfold PrefixRule.literalNode
  split
  · split
    · exact done _
    · exact fault rfl
  · exact done _

theorem mirrors_expectBlockEnd :
    m.Shows StatementRule.expectBlockEnd StatementRule.expectBlockEnd :=
  mirrors_current fun _ => mirrors_ite (fun _ => stay _) fun _ => fault rfl

variable (hc : image.Mirrored m calls)
include hc

theorem mirrors_body : m.Shows image.body calls.body := hc.statements.bind fun _ => done _

theorem mirrors_blockBody :
    m.Shows (image.blockBody m.act) (calls.blockBody (standard .grammar)) :=
  m.openScope.bind fun _ => (mirrors_body hc).bind fun _ => (scopeEnd _).bind fun _ => done _

theorem mirrors_block : m.Shows (image.block m.act) (calls.block (standard .grammar)) :=
  (pass _).bind fun _ => mirrors_blockBody hc

theorem mirrors_function : m.Shows (PrefixRule.functionNode m.act image token)
    (PrefixRule.functionNode (standard .grammar) calls token) :=
  m.openScope.bind fun _ => mirrors_functionName.bind fun _ => (pass _).bind fun _ =>
    (mirrors_upTo ")" hc.parameters).bind fun _ => (pass _).bind fun _ =>
      (mirrors_body hc).bind fun _ => (scopeEnd _).bind fun _ => done _

theorem mirrors_operand (rule : PrefixRule) (hid : token.id ∈ rule.ids) :
    Mirrors m.change (fun p => m.settled p ∧ token.ReadIn p.scopes)
      (rule.parse .grammar m.act image token) (rule.parse .grammar (standard .grammar) calls token)
      fun _ => m.settled := by
  -- the keywords among the symbols are no plain names
  have hreserve (hname : nameId ∉ rule.ids) :
      Mirrors m.change (fun p => m.settled p ∧ token.ReadIn p.scopes)
        (m.act.reserve token) ((standard .grammar).reserve token) fun _ => m.settled :=
    (m.reserve token).at fun _ hp => ⟨hp.1, hp.2, fun h => hname (h ▸ hid)⟩
  cases rule with
  | name => exact stay _
  | literal => exact mirrors_literal.under
  | self | constant => exact (hreserve (by decide)).bind fun _ => done _
  | unary => exact (hreserve (by decide)).bind fun _ => (hc.expression _).bind fun _ => done _
  | grouping => exact (hc.expression _).under.bind fun _ => (pass _).bind fun _ => done _
  | array => exact (mirrors_upTo _ hc.items).under.bind fun _ => done _
  | object => exact (mirrors_upTo _ hc.entries).under.bind fun _ => done _
  | function => exact (mirrors_function hc).under

theorem mirrors_operation (rule : InfixRule) (left : Node) (power : BindingPower) :
    m.Shows (rule.parse m.act image token left power)
      (rule.parse (standard .grammar) calls token left power) := by
  cases rule with
  | binary | binaryRight => exact (hc.expression _).bind fun _ => done _
  | assignment =>
    refine mirrors_ite (fun _ => ?_) fun _ => fault rfl
    exact (hc.expression _).bind fun _ => done _
  | ternary =>
    exact (hc.expression _).bind fun _ => (pass _).bind fun _ => (hc.expression _).bind fun _ =>
      done _
  | member =>
    refine mirrors_current fun t => mirrors_ite (fun _ => ?_) fun _ => fault rfl
    exact moveLabel.under.bind fun _ => done _
  | index => exact (hc.expression _).bind fun _ => (pass _).bind fun _ => done _
  | call =>
    refine mirrors_ite (fun _ => ?_) fun _ => fault rfl
    exact (mirrors_upTo _ hc.items).bind fun _ => done _

theorem mirrors_condition : m.Shows (StatementRule.condition m.act image)
    (StatementRule.condition (standard .grammar) calls) :=
  (pass _).bind fun _ => (hc.expression _).bind fun _ => (pass _).bind fun _ => done _

theorem mirrors_alternative : m.Shows (StatementRule.alternative m.act image)
    (StatementRule.alternative (standard .grammar) calls) := by
  refine mirrors_currentIs fun b => mirrors_ite (fun hb => ?_) fun _ => stay _
  refine mirrors_current fun word => ?_
  have hword : ∀ p : Parser, ((m.settled p ∧ (p.current.id == "else") = b) ∧ p.current = word) →
      m.settled p ∧ word.ReadIn p.scopes ∧ word.id ≠ nameId := by
    rintro p ⟨⟨hp, hid⟩, rfl⟩
    have hid : p.current.id = "else" := by simpa [hb] using hid
    exact ⟨hp, (m.fresh hp).readIn, by rw [hid]; decide⟩
  refine ((m.reserve word).at hword).bind fun _ => (pass _).bind fun _ => ?_
  refine mirrors_currentIs fun _ => mirrors_ite (fun _ => ?_) fun _ => ?_
  · exact hc.statement.under
  · exact (mirrors_block hc).under

theorem mirrors_returnValue :
    m.Shows (StatementRule.returnValue image) (StatementRule.returnValue calls) :=
  mirrors_currentIs fun _ => mirrors_ite (fun _ => stay _) fun _ =>
    (hc.expression _).under.bind fun _ => done _

theorem mirrors_ruled (rule : StatementRule) : m.Shows (rule.parse m.act image token)
    (rule.parse (standard .grammar) calls token) := by
  cases rule with
  | block => exact (mirrors_blockBody hc).bind fun _ => done _
  | declaration => exact hc.declarations.bind fun _ => (pass _).bind fun _ => done _
  | whileLoop => exact (mirrors_condition hc).bind fun _ => (mirrors_block hc).bind fun _ => done _
  | ifElse =>
    exact (mirrors_condition hc).bind fun _ => (mirrors_block hc).bind fun _ =>
      (mirrors_alternative hc).bind fun _ => done _
  | breakOut => exact (pass _).bind fun _ => mirrors_expectBlockEnd.bind fun _ => done _
  | returnWith =>
    exact (mirrors_returnValue hc).bind fun _ => (pass _).bind fun _ =>
      mirrors_expectBlockEnd.bind fun _ => done _

theorem mirrors_nextExpression (power : BindingPower) :
    m.Shows (image.nextExpression .grammar m.act power)
      (calls.nextExpression .grammar (standard .grammar) power) := by
  refine ((take fun _ => True).at fun _ hp => ⟨hp, trivial⟩).bind fun token => ?_
  cases hr : (SymbolTable.grammar.lookup? token.id).bind (·.prefixRule?) with
  | none => exact fault rfl
  | some rule =>
    refine ((mirrors_operand hc rule (prefixRule_eq_some.1 hr)).at
      fun _ hp => ⟨hp.1, hp.2.1⟩).bind fun left => ?_
    exact hc.climb power left

theorem mirrors_nextClimb (power : BindingPower) (left : Node) :
    m.Shows (image.nextClimb .grammar m.act power left)
      (calls.nextClimb .grammar (standard .grammar) power left) := by
  refine mirrors_current fun t => mirrors_ite (fun _ => ?_) fun _ => stay _
  refine move.under.bind fun token => ?_
  split
  · exact (mirrors_operation hc _ _ _).bind fun _ => hc.climb power _
  · exact fault rfl

theorem mirrors_nextItems :
    m.Shows (image.nextItems m.act) (calls.nextItems (standard .grammar)) :=
  (hc.expression _).bind fun _ => mirrors_continued _ hc.items

theorem mirrors_nextEntries :
    m.Shows (image.nextEntries m.act) (calls.nextEntries (standard .grammar)) := by
  refine mirrors_current fun _ => mirrors_ite (fun _ => ?_) fun _ => fault rfl
  exact moveLabel.under.bind fun _ => (pass _).bind fun _ => (hc.expression _).bind fun _ =>
    mirrors_continued _ hc.entries

theorem mirrors_nextParameters :
    m.Shows (image.nextParameters m.act) (calls.nextParameters (standard .grammar)) := by
  refine mirrors_current fun t => mirrors_ite (fun _ => ?_) fun _ => fault rfl
  exact declare fun _ => m.advance.bind fun _ => mirrors_continued _ hc.parameters

theorem mirrors_initialValue (name : Node) :
    m.Shows (image.initialValue m.act name) (calls.initialValue (standard .grammar) name) := by
  refine mirrors_currentIs fun _ => mirrors_ite (fun _ => ?_) fun _ => stay _
  exact move.under.bind fun _ => (hc.expression _).bind fun _ => done _

theorem mirrors_nextDeclarations :
    m.Shows (image.nextDeclarations m.act) (calls.nextDeclarations (standard .grammar)) := by
  refine mirrors_current fun t => mirrors_ite (fun _ => ?_) fun _ => fault rfl
  exact declare fun name => m.advance.bind fun _ => (mirrors_initialValue hc name).bind fun _ =>
    mirrors_continued _ hc.declarations

theorem mirrors_expressionStatement :
    m.Shows (image.expressionStatement m.act) (calls.expressionStatement (standard .grammar)) := by
  refine (hc.expression _).bind fun _ => mirrors_ite (fun _ => ?_) fun _ => fault rfl
  exact (pass _).bind fun _ => done _

theorem mirrors_nextStatement : m.Shows (image.nextStatement .grammar m.act)
    (calls.nextStatement .grammar (standard .grammar)) := by
  refine mirrors_current fun t => ?_
  cases hr : (SymbolTable.grammar.lookup? t.id).bind (·.statementRule?) with
  | none => exact (mirrors_expressionStatement hc).under
  | some rule =>
    refine (take (· = t)).bind fun token => ?_
    refine ((m.reserve token).at ?_).bind fun _ => mirrors_ruled hc rule
    rintro p ⟨hp, hread, rfl⟩
    refine ⟨hp, hread, ?_⟩
    rw [statementRule_eq_some.1 hr]
    cases rule <;> decide

theorem mirrors_nextStatements : m.Shows image.nextStatements calls.nextStatements := by
  refine mirrors_current fun _ => mirrors_ite (fun _ => stay _) fun _ => ?_
  exact hc.statement.under.bind fun _ => hc.statements.bind fun _ => done _

theorem Calls.Mirrored.next :
    (image.next .grammar m.act).Mirrored m (calls.next .grammar (standard .grammar)) where
  expression power := mirrors_nextExpression hc power
  climb power left := mirrors_nextClimb hc power left
  items := mirrors_nextItems hc
  entries := mirrors_nextEntries hc
  parameters := mirrors_nextParameters hc
  declarations := mirrors_nextDeclarations hc
  statement := mirrors_nextStatement hc
  statements := mirrors_nextStatements hc

theorem mirrors_script : Mirrors m.change m.loose (image.script m.act)
    (calls.script (standard .grammar)) fun _ => m.settled :=
  m.advance.bind fun _ => (mirrors_body hc).bind fun _ => (pass _).bind fun _ => done _

theorem mirrors_singleExpression : Mirrors m.change m.loose (image.singleExpression m.act)
    (calls.singleExpression (standard .grammar)) fun _ => m.settled :=
  m.advance.bind fun _ => (hc.expression _).bind fun _ => (pass _).bind fun _ => done _

end

theorem mirrors_giveUp (m : Mirror) {α : Type} :
    m.Shows (Calls.giveUp : Parse α) Calls.giveUp :=
  mirrors_current fun _ => Mirror.fault rfl

theorem Calls.mirrored_endless (m : Mirror) : Calls.endless.Mirrored m Calls.endless where
  expression _ := mirrors_giveUp m
  climb _ _ := mirrors_giveUp m
  items := mirrors_giveUp m
  entries := mirrors_giveUp m
  parameters := mirrors_giveUp m
  declarations := mirrors_giveUp m
  statement := mirrors_giveUp m
  statements := mirrors_giveUp m

/-- **All parsers run the same with the steps of a mirror.** -/
theorem mirrors_nested (m : Mirror) : ∀ depth,
    (Calls.nested .grammar m.act depth).Mirrored m (Calls.nested .grammar (standard .grammar) depth)
  | 0 => Calls.mirrored_endless m
  | depth + 1 => (mirrors_nested m depth).next

end ScriptTree
