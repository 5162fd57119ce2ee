import ScriptTree.Proofs.Frames

/-!
# Every parse comes to its end

Behind the last token there are always further ends to move over. If the end has no power and no rule
at the front of an expression, no parser goes on there: it fails at once or leaves the end to its
caller. So each call is at most three calls away from a move over a token, two depths of nesting
give the same run if the tokens that are left can be moved over within both, and there are no more
moves than tokens, but for one to the end and one over it (`parse_halts`). So what is a run at some
depth is what the parse does (`script_of_reads`).
-/

namespace ScriptTree

open Parse Actions

/-- What has become of a run from the first state: a result, with at least so many tokens less ahead,
or an error other than that it went too deep. -/
def Parser.Halted {α : Type} (p : Parser) (gain : Nat) (post : Parser → Prop) :
    Except SyntaxError α × Parser → Prop
  | (.ok _, q) => q.Settled ∧ post q ∧ q.ahead + gain ≤ p.ahead ∧
      q.moves + q.ahead ≤ p.moves + p.ahead
  | (.error e, q) => e.cause ≠ .endless ∧ q.moves ≤ p.moves + p.ahead + 1

/-- A run goes on from where another one has halted. -/
theorem Parser.Halted.after {α : Type} {p q : Parser} {gain gain' total : Nat}
    {goal : Parser → Prop} {run : Except SyntaxError α × Parser} (h : q.Halted gain' goal run)
    (ha : q.ahead + gain ≤ p.ahead) (hm : q.moves + q.ahead ≤ p.moves + p.ahead)
    (ht : total ≤ gain + gain') : p.Halted total goal run := by
  obtain ⟨result, r⟩ := run
  cases result with
  | error e => exact ⟨h.1, by have := h.2; omega⟩
  | ok b =>
    obtain ⟨hr, hgoal, hahead, hmoves⟩ := h
    exact ⟨hr, hgoal, by omega, by omega⟩

namespace Parse

/-- The two parsers run alike from the states of the first kind in which a depth leaves three calls
for every token ahead, and `cost` more. Each run halts, in a state of the second kind if it succeeds. -/
def Halts {α : Type} (depth cost gain : Nat) (pre : Parser → Prop) (x y : Parse α)
    (post : Parser → Prop) : Prop :=
  ∀ p, p.Settled → pre p → cost + 3 * p.ahead ≤ depth → x p = y p ∧ p.Halted gain post (y p)

abbrev Anywhere : Parser → Prop := fun _ => True

section
variable {α β : Type} {depth cost gain : Nat} {pre post goal : Parser → Prop}

theorem halts_pure (a : α) : Halts depth cost 0 pre (pure a) (pure a) Anywhere :=
  fun _ hp _ _ => ⟨rfl, hp, trivial, Nat.le_refl _, Nat.le_refl _⟩

theorem halts_done (a : α) : Halts depth 0 0 pre (pure a) (pure a) pre :=
  fun _ hp hpre _ => ⟨rfl, hp, hpre, Nat.le_refl _, Nat.le_refl _⟩

theorem halts_fail {e : SyntaxError} (h : e.cause ≠ .endless) :
    Halts depth cost gain pre (fail e : Parse α) (fail e) post :=
  fun _ _ _ _ => ⟨rfl, h, by omega⟩

theorem Halts.bind {x y : Parse α} {f g : α → Parse β} {next gain' : Nat}
    (h : Halts depth cost gain pre x y post) (hf : ∀ a, Halts depth next gain' post (f a) (g a) goal) :
    Halts depth (max cost (next - 3 * gain)) (gain + gain') pre (x >>= f) (y >>= g) goal := by
  intro p hp hpre hd
  obtain ⟨hx, hy⟩ := h p hp hpre (by omega)
  rw [bind_apply, bind_apply, hx]
  cases hr : y p with
  | mk result q =>
    rw [hr] at hy
    cases result with
    | error e => exact ⟨rfl, hy⟩
    | ok a =>
      obtain ⟨hq, hpost, hahead, hmoves⟩ := hy
      obtain ⟨he, hz⟩ := hf a q hq hpost (by omega)
      exact ⟨he, hz.after hahead hmoves (Nat.le_refl _)⟩

/-- Where there is more room, and less is gained; `rfl` compares the numerals. -/
theorem Halts.within {x y : Parse α} {cost' gain' : Nat} (h : Halts depth cost gain pre x y post)
    (hcost : Nat.ble cost cost' = true) (hgain : Nat.ble gain' gain = true) :
    Halts depth cost' gain' pre x y post := by
  intro p hp hpre hd
  have hcost := Nat.le_of_ble_eq_true hcost
  have hgain := Nat.le_of_ble_eq_true hgain
  obtain ⟨he, hy⟩ := h p hp hpre (by omega)
  exact ⟨he, hy.after (Nat.le_refl (p.ahead + 0)) (Nat.le_refl _) (by omega)⟩

theorem Halts.goOn {x y : Parse α} {f g : α → Parse β} {cost' total : Nat} (next gain' : Nat)
    (h : Halts depth cost gain pre x y post)
    (hcost : Nat.ble (max cost (next - 3 * gain)) cost' = true)
    (hgain : Nat.ble total (gain + gain') = true)
    (hf : ∀ a, Halts depth next gain' post (f a) (g a) goal) :
    Halts depth cost' total pre (x >>= f) (y >>= g) goal :=
  (h.bind hf).within hcost hgain

theorem halts_current {f g : SymbolToken → Parse β}
    (h : ∀ t, Halts depth cost gain (fun p => pre p ∧ p.current = t) (f t) (g t) goal) :
    Halts depth cost gain pre (current >>= f) (current >>= g) goal :=
  fun p hp hpre hd => h p.current p hp ⟨hpre, rfl⟩ hd

theorem halts_currentIs {id : String} {f g : Bool → Parse β}
    (h : ∀ b, Halts depth cost gain (fun p => pre p ∧ (p.current.id == id) = b) (f b) (g b) goal) :
    Halts depth cost gain pre (currentIs id >>= f) (currentIs id >>= g) goal :=
  fun p hp hpre hd => h (p.current.id == id) p hp ⟨hpre, rfl⟩ hd

theorem halts_ite {c : Prop} [Decidable c] {x y v w : Parse α}
    (ht : c → Halts depth cost gain pre x v post) (hf : ¬ c → Halts depth cost gain pre y w post) :
    Halts depth cost gain pre (if c then x else y) (if c then v else w) post := by
  by_cases h : c
  · rw [if_pos h, if_pos h]
    exact ht h
  · rw [if_neg h, if_neg h]
    exact hf h

end

end Parse

/-! ## Steps -/

theorem classify_not_endless {table : SymbolTable} {scopes : ScopeChain} {isLast : Bool} {t : Token}
    {e : SyntaxError} (h : classify table scopes isLast t = .error e) : e.cause ≠ .endless := by
  obtain ⟨-, rfl⟩ | ⟨-, -, rfl⟩ := classify_eq_error h
  · exact fun h => by cases h
  · exact fun h => by cases h

theorem define_not_endless {c : ScopeChain} {node : Node} {e : SyntaxError}
    (h : c.define node = .error e) : e.cause ≠ .endless := by
  obtain h | ⟨name, h | h⟩ := ScopeChain.cause_of_define h <;> simp [h]

theorem reserve_not_endless {c : ScopeChain} {node : Node} {e : SyntaxError}
    (h : c.reserve node = .error e) : e.cause ≠ .endless := by
  obtain ⟨name, h⟩ := ScopeChain.cause_of_reserve h
  simp [h]

section
variable {table : SymbolTable} {depth : Nat} {pre post : Parser → Prop}

/-- A move fails at a token that has no symbol. -/
theorem moveOn_cases (table : SymbolTable) (p : Parser) :
    (∃ q, moveOn table p = (.ok p.current, q) ∧ q.moves = p.moves + 1) ∨
      ∃ e q, moveOn table p = (.error e, q) ∧ q.moves = p.moves + 1 ∧ e.cause ≠ .endless := by
  unfold moveOn
  split
  · exact .inl ⟨_, rfl, rfl⟩
  · split
    · exact .inl ⟨_, rfl, rfl⟩
    · exact .inr ⟨_, _, rfl, rfl, classify_not_endless ‹_›⟩

theorem halts_moveOn (h : ∀ p, p.Settled → pre p → p.current.token.kind ≠ .ending) :
    Halts depth 0 1 pre (moveOn table) (moveOn table) Anywhere := by
  intro p hp hpre hd
  refine ⟨rfl, ?_⟩
  obtain ⟨q, hm, hq⟩ | ⟨e, q, hm, hq, he⟩ := moveOn_cases table p
  · have hahead := ahead_of_moveOn hm (h p hp hpre)
    rw [hm]
    exact ⟨settled_of_moveOn hm, trivial, hahead, by omega⟩
  · rw [hm]
    exact ⟨he, by omega⟩

theorem halts_expect {id : String} (hid : id ≠ endId) :
    Halts depth 0 1 pre ((standard table).expect id) ((standard table).expect id) Anywhere := by
  apply halts_current
  intro t
  apply halts_ite
  · rintro rfl
    apply halts_moveOn
    rintro p hp ⟨-, rfl⟩
    exact hp.kind_ne hid
  · exact fun _ => halts_fail nofun

theorem halts_changeScopes (change : ScopeChain → Except SyntaxError ScopeChain)
    (h : ∀ c e, change c = .error e → e.cause ≠ .endless)
    (hpost : ∀ p scopes, pre p → post { p with scopes }) :
    Halts depth 0 0 pre (changeScopes change) (changeScopes change) post := by
  intro p hp hpre hd
  refine ⟨rfl, ?_⟩
  unfold changeScopes
  cases hc : change p.scopes with
  | ok scopes => exact ⟨hp, hpost p scopes hpre, Nat.le_refl _, Nat.le_refl _⟩
  | error e => exact ⟨h _ _ hc, by omega⟩

theorem halts_openScope :
    Halts depth 0 0 pre (standard table).openScope (standard table).openScope Anywhere :=
  halts_changeScopes (fun c => .ok c.push) nofun fun _ _ _ => trivial

theorem halts_scopeEnd {id : String} (hid : id ≠ endId) :
    Halts depth 0 1 pre ((standard table).expectScopeEnd id) ((standard table).expectScopeEnd id)
      Anywhere := by
  apply halts_current
  intro t
  apply halts_ite
  · rintro rfl
    -- The closed scope leaves the current symbol, which is the one that is moved over.
    have hclose : Halts depth 0 0 (fun p => pre p ∧ p.current = t) (standard table).closeScope
        (standard table).closeScope (·.current = t) :=
      halts_changeScopes (fun c => .ok c.pop) nofun fun _ _ hp => hp.2
    have hmove : Halts depth 0 1 (·.current = t) (moveOn table) (moveOn table) Anywhere :=
      halts_moveOn fun p hp ht => hp.kind_ne (ht ▸ hid)
    exact (hclose.bind fun _ => hmove).within rfl rfl
  · exact fun _ => halts_fail nofun

theorem halts_reserve (t : SymbolToken) :
    Halts depth 0 0 pre ((standard table).reserve t) ((standard table).reserve t) Anywhere := by
  apply halts_ite
  · exact fun _ => halts_changeScopes _ (fun _ _ => reserve_not_endless) fun _ _ _ => trivial
  · exact fun _ => halts_pure ()

theorem halts_define (t : SymbolToken) :
    Halts depth 0 0 (fun p => pre p ∧ p.current = t) ((standard table).define t)
      ((standard table).define t) (·.current = t) := by
  have hchange : Halts depth 0 0 (fun p => pre p ∧ p.current = t)
      (changeScopes (·.define t.asName)) (changeScopes (·.define t.asName)) (·.current = t) :=
    halts_changeScopes _ (fun _ _ => define_not_endless) fun _ _ hp => hp.2
  exact (hchange.bind fun _ => halts_done _).within rfl rfl

theorem halts_overName {t : SymbolToken} (ht : t.isName = true) :
    Halts depth 0 1 (·.current = t) (moveOn table) (moveOn table) Anywhere :=
  halts_moveOn fun _ _ he => he ▸ SymbolToken.kind_ne_of_isName ht

end

/-! ## Rules -/

structure Calls.Halts (depth : Nat) (calls more : Calls) : Prop where
  -- The costs count the calls down to the next move: an expression moves or fails at once, a list and
  -- a statement call an expression first, and statements call a statement.
  expression {pre : Parser → Prop} (power : BindingPower) :
    Parse.Halts depth 1 0 pre (calls.expression power) (more.expression power) Anywhere
  climb {pre : Parser → Prop} (power : BindingPower) (left : Node) :
    Parse.Halts depth 1 0 pre (calls.climb power left) (more.climb power left) Anywhere
  items {pre : Parser → Prop} : Parse.Halts depth 2 0 pre calls.items more.items Anywhere
  entries {pre : Parser → Prop} : Parse.Halts depth 2 0 pre calls.entries more.entries Anywhere
  parameters {pre : Parser → Prop} :
    Parse.Halts depth 2 0 pre calls.parameters more.parameters Anywhere
  declarations {pre : Parser → Prop} :
    Parse.Halts depth 2 0 pre calls.declarations more.declarations Anywhere
  statement {pre : Parser → Prop} (h : ∀ p, pre p → p.current.id ≠ endId) :
    Parse.Halts depth 2 1 pre calls.statement more.statement Anywhere
  statements {pre : Parser → Prop} :
    Parse.Halts depth 3 0 pre calls.statements more.statements Anywhere

section
variable {table : SymbolTable} {depth : Nat} {pre : Parser → Prop} {token : SymbolToken}

theorem halts_continued (nodes : List Node) {x y : Parse (List Node)}
    (h : Halts depth 2 0 Anywhere x y Anywhere) :
    Halts depth 0 0 pre (Calls.continued (standard table) nodes x)
      (Calls.continued (standard table) nodes y) Anywhere := by
  apply halts_currentIs
  intro b
  apply halts_ite
  · exact fun _ => ((halts_expect (by decide)).bind fun _ => h.bind fun _ => halts_done _).within rfl rfl
  · exact fun _ => halts_pure _

theorem halts_upTo (bracket : Bracket) {x y : Parse (List Node)}
    (h : ∀ {pre}, Halts depth 2 0 pre x y Anywhere) :
    Halts depth 2 0 pre (Calls.upTo (standard table) bracket.close x)
      (Calls.upTo (standard table) bracket.close y) Anywhere := by
  have hclose {pre : Parser → Prop} : Halts depth 0 1 pre ((standard table).expect bracket.close)
      ((standard table).expect bracket.close) Anywhere := halts_expect bracket.close_ne
  apply halts_currentIs
  intro b
  apply halts_ite
  · exact fun _ => (hclose.bind fun _ => halts_done _).within rfl rfl
  · exact fun _ => (h.bind fun _ => hclose.bind fun _ => halts_done _).within rfl rfl

theorem halts_functionName : Halts depth 0 0 pre (PrefixRule.functionName (standard table))
    (PrefixRule.functionName (standard table)) Anywhere := by
  apply halts_current
  intro t
  apply halts_ite
  · intro ht
    exact ((halts_define t).bind fun _ => (halts_overName ht).bind fun _ => halts_done _).within rfl rfl
  · exact fun _ => halts_pure _

theorem halts_literal : Halts depth 0 0 pre (PrefixRule.literalNode token)
    (PrefixRule.literalNode token) Anywhere := by
  unfold PrefixRule.literalNode
  split
  · split
    · exact halts_pure _
    · exact halts_fail nofun
  · exact halts_pure _

theorem halts_expectBlockEnd : Halts depth 0 0 pre StatementRule.expectBlockEnd
    StatementRule.expectBlockEnd Anywhere :=
  halts_current fun _ => halts_ite (fun _ => halts_pure _) fun _ => halts_fail nofun

variable {calls more : Calls} (hc : calls.Halts depth more)
include hc

theorem halts_body : Halts depth 3 0 pre calls.body more.body Anywhere :=
  (hc.statements.bind fun _ => halts_done _).within rfl rfl

theorem halts_blockBody : Halts depth 3 0 pre (calls.blockBody (standard table))
    (more.blockBody (standard table)) Anywhere :=
  (halts_openScope.bind fun _ => (halts_body hc).bind fun _ =>
    (halts_scopeEnd (by decide)).bind fun _ => halts_done _).within rfl rfl

theorem halts_block : Halts depth 3 0 pre (calls.block (standard table))
    (more.block (standard table)) Anywhere :=
  ((halts_expect (by decide)).bind fun _ => halts_blockBody hc).within rfl rfl

theorem halts_function : Halts depth 3 0 pre (PrefixRule.functionNode (standard table) calls token)
    (PrefixRule.functionNode (standard table) more token) Anywhere :=
  (halts_openScope.bind fun _ => halts_functionName.bind fun _ =>
    (halts_expect (by decide)).bind fun _ => (halts_upTo .round hc.parameters).bind fun _ =>
      (halts_expect (by decide)).bind fun _ => (halts_body hc).bind fun _ =>
        (halts_scopeEnd (by decide)).bind fun _ => halts_done _).within rfl rfl

theorem halts_operand (rule : PrefixRule) : Halts depth 3 0 pre
    (rule.parse table (standard table) calls token) (rule.parse table (standard table) more token)
    Anywhere := by
  cases rule with
  | name => exact halts_pure _
  | literal => exact halts_literal.within rfl rfl
  | self | constant => exact ((halts_reserve token).bind fun _ => halts_done _).within rfl rfl
  | unary =>
    exact ((halts_reserve token).bind fun _ => (hc.expression _).bind fun _ => halts_done _).within rfl rfl
  | grouping =>
    exact ((hc.expression _).bind fun _ => (halts_expect (by decide)).bind fun _ =>
      halts_done _).within rfl rfl
  | array => exact ((halts_upTo .square hc.items).bind fun _ => halts_done _).within rfl rfl
  | object => exact ((halts_upTo .curly hc.entries).bind fun _ => halts_done _).within rfl rfl
  | function => exact halts_function hc

theorem halts_operation (rule : InfixRule) (left : Node) (power : BindingPower) :
    Halts depth 3 0 pre (rule.parse (standard table) calls token left power)
      (rule.parse (standard table) more token left power) Anywhere := by
  cases rule with
  | binary | binaryRight => exact ((hc.expression _).bind fun _ => halts_done _).within rfl rfl
  | assignment =>
    apply halts_ite
    · exact fun _ => ((hc.expression _).bind fun _ => halts_done _).within rfl rfl
    · exact fun _ => halts_fail nofun
  | ternary =>
    exact ((hc.expression _).bind fun _ => (halts_expect (by decide)).bind fun _ =>
      (hc.expression _).bind fun _ => halts_done _).within rfl rfl
  | member =>
    apply halts_current
    intro t
    apply halts_ite
    · intro ht
      have hover : Halts depth 0 1 (fun p => pre p ∧ p.current = t) (moveOn table) (moveOn table)
          Anywhere := halts_moveOn fun _ _ hp => hp.2 ▸ SymbolToken.kind_ne_of_isName ht
      exact (hover.bind fun _ => halts_done _).within rfl rfl
    · exact fun _ => halts_fail nofun
  | index =>
    exact ((hc.expression _).bind fun _ => (halts_expect (by decide)).bind fun _ =>
      halts_done _).within rfl rfl
  | call =>
    apply halts_ite
    · exact fun _ => ((halts_upTo .round hc.items).bind fun _ => halts_done _).within rfl rfl
    · exact fun _ => halts_fail nofun

theorem halts_condition : Halts depth 3 0 pre (StatementRule.condition (standard table) calls)
    (StatementRule.condition (standard table) more) Anywhere :=
  ((halts_expect (by decide)).bind fun _ => (hc.expression _).bind fun _ =>
    (halts_expect (by decide)).bind fun _ => halts_done _).within rfl rfl

theorem halts_alternative : Halts depth 3 0 pre
    (StatementRule.alternative (standard table) calls)
    (StatementRule.alternative (standard table) more) Anywhere := by
  apply halts_currentIs
  intro b
  apply halts_ite
  · intro _
    apply halts_current
    intro word
    refine (halts_reserve word).goOn 3 0 rfl rfl fun _ =>
      (halts_expect (by decide)).goOn 3 0 rfl rfl fun _ => ?_
    apply halts_currentIs
    intro b
    apply halts_ite
    · intro hb
      refine (hc.statement ?_).within rfl rfl
      intro p hp
      have hif : p.current.id = "if" := by simpa [hb] using hp.2
      rw [hif]
      decide
    · exact fun _ => halts_block hc
  · exact fun _ => halts_pure _

theorem halts_returnValue : Halts depth 1 0 pre (StatementRule.returnValue calls)
    (StatementRule.returnValue more) Anywhere := by
  apply halts_currentIs
  intro b
  apply halts_ite
  · exact fun _ => halts_pure _
  · exact fun _ => ((hc.expression _).bind fun _ => halts_done _).within rfl rfl

theorem halts_ruled (rule : StatementRule) : Halts depth 3 0 pre
    (rule.parse (standard table) calls token) (rule.parse (standard table) more token) Anywhere := by
  cases rule with
  | block => exact ((halts_blockBody hc).bind fun _ => halts_done _).within rfl rfl
  | declaration =>
    exact (hc.declarations.bind fun _ => (halts_expect (by decide)).bind fun _ => halts_done _).within rfl rfl
  | whileLoop =>
    exact ((halts_condition hc).bind fun _ => (halts_block hc).bind fun _ => halts_done _).within rfl rfl
  | ifElse =>
    exact ((halts_condition hc).bind fun _ => (halts_block hc).bind fun _ =>
      (halts_alternative hc).bind fun _ => halts_done _).within rfl rfl
  | breakOut =>
    exact ((halts_expect (by decide)).bind fun _ => halts_expectBlockEnd.bind fun _ =>
      halts_done _).within rfl rfl
  | returnWith =>
    exact ((halts_returnValue hc).bind fun _ => (halts_expect (by decide)).bind fun _ =>
      halts_expectBlockEnd.bind fun _ => halts_done _).within rfl rfl

theorem halts_nextItems : Halts depth 1 0 pre (calls.nextItems (standard table))
    (more.nextItems (standard table)) Anywhere :=
  ((hc.expression _).bind fun _ => halts_continued _ hc.items).within rfl rfl

theorem halts_nextEntries : Halts depth 1 0 pre (calls.nextEntries (standard table))
    (more.nextEntries (standard table)) Anywhere := by
  apply halts_current
  intro key
  apply halts_ite
  · intro hk
    have hover : Halts depth 0 1 (fun p => pre p ∧ p.current = key) (moveOn table) (moveOn table)
        Anywhere := halts_moveOn fun _ _ hp => hp.2 ▸ SymbolToken.kind_ne_of_isKey hk
    exact (hover.bind fun _ => (halts_expect (by decide)).bind fun _ => (hc.expression _).bind fun _ =>
      halts_continued _ hc.entries).within rfl rfl
  · exact fun _ => halts_fail nofun

theorem halts_nextParameters : Halts depth 1 0 pre (calls.nextParameters (standard table))
    (more.nextParameters (standard table)) Anywhere := by
  apply halts_current
  intro t
  apply halts_ite
  · intro ht
    exact ((halts_define t).bind fun _ => (halts_overName ht).bind fun _ =>
      halts_continued _ hc.parameters).within rfl rfl
  · exact fun _ => halts_fail nofun

theorem halts_initialValue (name : Node) : Halts depth 1 0 pre
    (calls.initialValue (standard table) name) (more.initialValue (standard table) name)
    Anywhere := by
  apply halts_currentIs
  intro b
  apply halts_ite
  · intro hb
    have hover : Halts depth 0 1 (fun p => pre p ∧ (p.current.id == "=") = b) (moveOn table)
        (moveOn table) Anywhere := by
      refine halts_moveOn fun p hp hpre => hp.kind_ne ?_
      have hsign : p.current.id = "=" := by simpa [hb] using hpre.2
      rw [hsign]
      decide
    exact (hover.bind fun _ => (hc.expression _).bind fun _ => halts_done _).within rfl rfl
  · exact fun _ => halts_pure _

theorem halts_nextDeclarations : Halts depth 1 0 pre (calls.nextDeclarations (standard table))
    (more.nextDeclarations (standard table)) Anywhere := by
  apply halts_current
  intro t
  apply halts_ite
  · intro ht
    exact ((halts_define t).bind fun name => (halts_overName ht).bind fun _ =>
      (halts_initialValue hc name).bind fun _ => halts_continued _ hc.declarations).within rfl rfl
  · exact fun _ => halts_fail nofun

theorem halts_expressionStatement : Halts depth 1 1 pre
    (calls.expressionStatement (standard table)) (more.expressionStatement (standard table))
    Anywhere := by
  refine (hc.expression _).goOn 0 1 rfl rfl fun node => ?_
  apply halts_ite
  · exact fun _ => ((halts_expect (by decide)).bind fun _ => halts_done _).within rfl rfl
  · exact fun _ => halts_fail nofun

theorem halts_nextStatement (h : ∀ p, pre p → p.current.id ≠ endId) : Halts depth 1 1 pre
    (calls.nextStatement table (standard table)) (more.nextStatement table (standard table))
    Anywhere := by
  apply halts_current
  intro t
  cases (table.lookup? t.id).bind (·.statementRule?) with
  | none => exact halts_expressionStatement hc
  | some rule =>
    have hover : Halts depth 0 1 (fun p => pre p ∧ p.current = t) (moveOn table) (moveOn table)
        Anywhere := halts_moveOn fun p hp hpre => hp.kind_ne (h p hpre.1)
    exact (hover.bind fun token => (halts_reserve token).bind fun _ => halts_ruled hc rule).within rfl rfl

theorem halts_nextStatements : Halts depth 2 0 pre calls.nextStatements more.nextStatements
    Anywhere := by
  apply halts_current
  intro t
  apply halts_ite
  · exact fun _ => halts_pure _
  · intro ht
    have hstatement : Halts depth 2 1 (fun p => pre p ∧ p.current = t) calls.statement
        more.statement Anywhere := by
      refine hc.statement fun p hp hid => ?_
      rw [hp.2] at hid
      simp [hid] at ht
    exact (hstatement.bind fun _ => hc.statements.bind fun _ => halts_done _).within rfl rfl

/-- Nothing starts with the end: a move over it fails, or its symbol does. -/
theorem halts_nextExpression (hfront : (table.lookup? endId).bind (·.prefixRule?) = none)
    (power : BindingPower) : Halts depth 0 0 pre (calls.nextExpression table (standard table) power)
      (more.nextExpression table (standard table) power) Anywhere := by
  intro p hp hpre hd
  by_cases hid : p.current.id = endId
  -- The move over the end gains nothing, so there may be no depth left to call anything behind it.
  · unfold Calls.nextExpression
    rw [bind_apply, bind_apply]
    obtain ⟨q, hm, hq⟩ | ⟨e, q, hm, hq, he⟩ := moveOn_cases table p
    · rw [show (standard table).advance p = _ from hm]
      simp only [hid, hfront]
      exact ⟨trivial, nofun, by omega⟩
    · rw [show (standard table).advance p = _ from hm]
      exact ⟨rfl, he, by omega⟩
  · have hover : Halts depth 0 1 (fun p => p.current.id ≠ endId) (moveOn table) (moveOn table)
        Anywhere := halts_moveOn fun p hp hid => hp.kind_ne hid
    refine hover.goOn 3 0 rfl rfl (fun token => ?_) p hp hid hd
    cases (table.lookup? token.id).bind (·.prefixRule?) with
    | none => exact halts_fail nofun
    | some rule => exact ((halts_operand hc rule).bind fun left => hc.climb power left).within rfl rfl

theorem halts_nextClimb (hpower : table.power endId = 0) (power : BindingPower) (left : Node) :
    Halts depth 0 0 pre (calls.nextClimb table (standard table) power left)
      (more.nextClimb table (standard table) power left) Anywhere := by
  apply halts_current
  intro t
  apply halts_ite
  · intro ht
    have hover : Halts depth 0 1 (fun p => pre p ∧ p.current = t) (moveOn table) (moveOn table)
        Anywhere := by
      refine halts_moveOn fun p hp hpre => hp.kind_ne fun hid => ?_
      rw [← hpre.2, hid, hpower] at ht
      exact Nat.not_lt_zero _ ht
    refine hover.goOn 3 0 rfl rfl fun token => ?_
    split
    · exact ((halts_operation hc _ _ _).bind fun _ => hc.climb power _).within rfl rfl
    · exact halts_fail nofun
  · exact fun _ => halts_pure _

/-- One depth more leaves room for one call more. -/
theorem Calls.Halts.next (hpower : table.power endId = 0)
    (hfront : (table.lookup? endId).bind (·.prefixRule?) = none) :
    (calls.next table (standard table)).Halts (depth + 1) (more.next table (standard table)) where
  expression power p hp hpre hd := halts_nextExpression hc hfront power p hp hpre (by omega)
  climb power left p hp hpre hd := halts_nextClimb hc hpower power left p hp hpre (by omega)
  items p hp hpre hd := halts_nextItems hc p hp hpre (by omega)
  entries p hp hpre hd := halts_nextEntries hc p hp hpre (by omega)
  parameters p hp hpre hd := halts_nextParameters hc p hp hpre (by omega)
  declarations p hp hpre hd := halts_nextDeclarations hc p hp hpre (by omega)
  statement h p hp hpre hd := halts_nextStatement hc h p hp hpre (by omega)
  statements p hp hpre hd := halts_nextStatements hc p hp hpre (by omega)

end

/-! ## Whole runs -/

section
variable {table : SymbolTable} (hpower : table.power endId = 0)
  (hfront : (table.lookup? endId).bind (·.prefixRule?) = none)
include hpower hfront

theorem halts_nested : ∀ depth more, depth ≤ more →
    (Calls.nested table (standard table) depth).Halts depth (.nested table (standard table) more)
  -- No depth is left for a call, whatever its cost.
  | 0, _, _ => {
      expression _ _ _ _ hd := by omega
      climb _ _ _ _ _ hd := by omega
      items _ _ _ hd := by omega
      entries _ _ _ hd := by omega
      parameters _ _ _ hd := by omega
      declarations _ _ _ hd := by omega
      statement _ _ _ _ hd := by omega
      statements _ _ _ hd := by omega }
  | depth + 1, 0, h => absurd h (by omega)
  | depth + 1, more + 1, h =>
    (halts_nested depth more (Nat.le_of_succ_le_succ h)).next hpower hfront

end

def Parse.whole {α : Type} (table : SymbolTable) (x : Parse α) : Parse α := do
  let _ ← (standard table).advance
  let a ← x
  let _ ← (standard table).expect endId
  pure a

theorem ahead_of_start {table : SymbolTable} {tokens : List Token} {t : SymbolToken} {q : Parser}
    (h : moveOn table (.start tokens) = (.ok t, q)) : q.ahead ≤ tokens.length := by
  cases tokens with
  | nil =>
    cases h
    exact Nat.le_refl _
  | cons token rest =>
    have hq := q.ahead_le
    rwa [tail_of_moveOn h] at hq

def Ended {α : Type} (moves : Nat) : Except SyntaxError α × Parser → Prop
  | (.ok _, q) => q.moves ≤ moves
  | (.error e, q) => e.cause ≠ .endless ∧ q.moves ≤ moves

section
variable {α β : Type} {table : SymbolTable} {p : Parser} {moves : Nat}

theorem ended_bind {x : Parse α} {f : α → Parse β} (h : Ended moves (x p))
    (hf : ∀ a q, x p = (.ok a, q) → Ended moves (f a q)) : Ended moves ((x >>= f) p) := by
  rw [bind_apply]
  cases hx : x p with
  | mk result q =>
    cases result with
    | ok a => exact hf a q hx
    | error e =>
      rw [hx] at h
      exact h

theorem ended_moveOn (h : p.moves + 1 ≤ moves) : Ended moves (moveOn table p) := by
  obtain ⟨q, hm, hq⟩ | ⟨e, q, hm, hq, he⟩ := moveOn_cases table p
  · rw [hm]
    show q.moves ≤ moves
    omega
  · rw [hm]
    exact ⟨he, by omega⟩

theorem ended_expect (id : String) (h : p.moves + 1 ≤ moves) :
    Ended moves ((standard table).expect id p) := by
  simp only [Actions.expect, current_bind_apply, ite_run]
  split
  · exact ended_moveOn h
  · exact ⟨(fun he => by cases he), by omega⟩

theorem ended_of_halted {gain : Nat} {post : Parser → Prop} {run : Except SyntaxError α × Parser}
    (h : p.Halted gain post run) (hm : p.moves + p.ahead + 1 ≤ moves) : Ended moves run := by
  obtain ⟨result, q⟩ := run
  cases result with
  | ok a =>
    obtain ⟨-, -, -, hmoves⟩ := h
    show q.moves ≤ moves
    omega
  | error e => exact ⟨h.1, Nat.le_trans h.2 hm⟩

section
variable {depth : Nat} {x y : Parse α} (h : Halts depth 3 0 Anywhere x y Anywhere)
  {tokens : List Token} (hd : 3 + 3 * tokens.length ≤ depth)
include h hd

theorem halted_behind_start {t : SymbolToken} {q : Parser}
    (hm : moveOn table (.start tokens) = (.ok t, q)) :
    x q = y q ∧ q.Halted 0 Anywhere (y q) ∧ q.moves + q.ahead ≤ tokens.length + 1 := by
  have hahead := ahead_of_start hm
  have hmoves : q.moves = 1 := by
    obtain ⟨-, ⟨-, rfl⟩ | ⟨token, rest, id, -, -, rfl⟩⟩ := moveOn_eq_ok hm
    · rfl
    · rfl
  obtain ⟨hx, hy⟩ := h q (settled_of_moveOn hm) trivial (by omega)
  exact ⟨hx, hy, by omega⟩

/-- Behind what a parser has read there is one move left, that over the end. -/
theorem halted_whole : whole table x (.start tokens) = whole table y (.start tokens) ∧
    Ended (tokens.length + 2) (whole table y (.start tokens)) := by
  constructor
  · unfold whole
    rw [bind_apply, bind_apply]
    cases hm : (standard table).advance (.start tokens) with
    | mk result q =>
      cases result with
      | error e => rfl
      | ok t =>
        dsimp only
        rw [bind_apply, bind_apply, (halted_behind_start h hd hm).1]
  · apply ended_bind (ended_moveOn (by simp [Parser.start]))
    intro t q hm
    obtain ⟨-, hy, hq⟩ := halted_behind_start h hd hm
    apply ended_bind (ended_of_halted hy (by omega))
    intro a r hr
    rw [hr] at hy
    obtain ⟨-, -, -, hmoves⟩ := hy
    have hend : Ended (tokens.length + 2) ((standard table).expect endId r) :=
      ended_expect endId (by omega)
    apply ended_bind hend
    intro e s hs
    rw [hs] at hend
    exact hend

end

end

theorem Ended.not_endless {α : Type} {moves : Nat} {run : Except SyntaxError α × Parser}
    (h : Ended moves run) {e : SyntaxError} (he : run.1 = .error e) : e.cause ≠ .endless := by
  obtain ⟨result, q⟩ := run
  cases he
  exact h.1

theorem Ended.moves_le {α : Type} {moves : Nat} {run : Except SyntaxError α × Parser}
    (h : Ended moves run) : run.2.moves ≤ moves := by
  obtain ⟨result, q⟩ := run
  cases result with
  | ok a => exact h
  | error e => exact h.2

theorem room_of_reach (tokens : List Token) : 3 + 3 * tokens.length ≤ (Parser.start tokens).reach := by
  show 3 + 3 * tokens.length ≤ 4 * (tokens.length + 4)
  omega

section
variable {table : SymbolTable} (hpower : table.power endId = 0)
  (hfront : (table.lookup? endId).bind (·.prefixRule?) = none)
include hpower hfront

theorem halts_script {depth more : Nat} (h : depth ≤ more) {tokens : List Token}
    (hd : 3 + 3 * tokens.length ≤ depth) :
    (Calls.nested table (standard table) depth).script (standard table) (.start tokens) =
        (Calls.nested table (standard table) more).script (standard table) (.start tokens) ∧
      Ended (tokens.length + 2)
        ((Calls.nested table (standard table) more).script (standard table) (.start tokens)) :=
  halted_whole (halts_body (halts_nested hpower hfront depth more h)) hd

theorem halts_singleExpression {depth more : Nat} (h : depth ≤ more) {tokens : List Token}
    (hd : 3 + 3 * tokens.length ≤ depth) :
    (Calls.nested table (standard table) depth).singleExpression (standard table) (.start tokens) =
        (Calls.nested table (standard table) more).singleExpression (standard table)
          (.start tokens) ∧
      Ended (tokens.length + 2)
        ((Calls.nested table (standard table) more).singleExpression (standard table)
          (.start tokens)) :=
  halted_whole (((halts_nested hpower hfront depth more h).expression .none).within rfl rfl) hd

theorem script_of_reach {tokens : List Token} {depth : Nat} (h : (Parser.start tokens).reach ≤ depth) :
    (Calls.nested table (standard table) depth).script (standard table) (.start tokens) =
      Parse.script table (standard table) (.start tokens) :=
  (halts_script hpower hfront h (room_of_reach tokens)).1.symm

theorem singleExpression_of_reach {tokens : List Token} {depth : Nat}
    (h : (Parser.start tokens).reach ≤ depth) :
    (Calls.nested table (standard table) depth).singleExpression (standard table) (.start tokens) =
      Parse.singleExpression table (standard table) (.start tokens) :=
  (halts_singleExpression hpower hfront h (room_of_reach tokens)).1.symm

/-- **Every parse ends**: its calls are nested no deeper than the script reaches, so that a greater
depth makes no difference, and it moves at most twice more often than there are tokens. -/
theorem parse_halts (tokens : List Token) :
    let act := standard table
    let p := Parser.start tokens
    (∀ depth, p.reach ≤ depth →
      (Calls.nested table act depth).script act p = Parse.script table act p ∧
      (Calls.nested table act depth).singleExpression act p = Parse.singleExpression table act p) ∧
    (∀ e, parseTokens table tokens = .error e → e.cause ≠ .endless) ∧
    (∀ e, parseExpression table tokens = .error e → e.cause ≠ .endless) ∧
    (Parse.script table act p).2.moves ≤ tokens.length + 2 ∧
    (Parse.singleExpression table act p).2.moves ≤ tokens.length + 2 := by
  intro act p
  have hscript := (halts_script hpower hfront (Nat.le_refl p.reach) (room_of_reach tokens)).2
  have hexpression :=
    (halts_singleExpression hpower hfront (Nat.le_refl p.reach) (room_of_reach tokens)).2
  refine ⟨fun depth hd => ⟨?_, ?_⟩, fun e he => hscript.not_endless he,
    fun e he => hexpression.not_endless he, hscript.moves_le, hexpression.moves_le⟩
  · exact script_of_reach hpower hfront hd
  · exact singleExpression_of_reach hpower hfront hd

end

/-- A table of a single operator, and the ends of a script that come one behind the other. -/
theorem parse_halts_at_ends :
    let table := SymbolTable.empty.addUnary "!"
    let last := Token.ending Position.start
    table.power endId = 0 ∧ (table.lookup? endId).bind (·.prefixRule?) = none ∧
      (Parse.script table (standard table)
        (.start [⟨.operator, "!", .start⟩, last, last])).2.moves ≤ 5 := by
  intro table last
  have hpower : table.power endId = 0 := by decide
  have hfront : (table.lookup? endId).bind (·.prefixRule?) = none := by decide
  exact ⟨hpower, hfront, (parse_halts hpower hfront _).2.2.2.1⟩

/-! ## Readings of whole scripts -/

section
variable {table : SymbolTable} (ht : table.Ends) {tokens : List Token} {t e : SymbolToken}
  {q r s : Parser}
include ht

theorem script_of_reads {nodes : List Node} (hm : (standard table).advance (.start tokens) = (.ok t, r))
    (hn : Reads table (standard table) (.statements nodes) r s)
    (he : (standard table).expect endId s = (.ok e, q)) :
    Parse.script table (standard table) (.start tokens) = (.ok (.ofList nodes), q) := by
  obtain ⟨depth, hrun, hd⟩ := ((runs_of_reads hn).and
    (Filter.eventually_ge_atTop (Parser.start tokens).reach)).exists
  rw [← script_of_reach ht.power ht.prefixRule hd]
  exact bind_eq_ok.2 ⟨_, _, hm, bind_eq_ok.2
    ⟨_, _, bind_eq_ok.2 ⟨_, _, hrun, rfl⟩, bind_eq_ok.2 ⟨_, _, he, rfl⟩⟩⟩

theorem singleExpression_of_reads {node : Node}
    (hm : (standard table).advance (.start tokens) = (.ok t, r))
    (hn : Reads table (standard table) (.expression .none node) r s)
    (he : (standard table).expect endId s = (.ok e, q)) :
    Parse.singleExpression table (standard table) (.start tokens) = (.ok node, q) := by
  obtain ⟨depth, hrun, hd⟩ := ((runs_of_reads hn).and
    (Filter.eventually_ge_atTop (Parser.start tokens).reach)).exists
  rw [← singleExpression_of_reach ht.power ht.prefixRule hd]
  exact bind_eq_ok.2 ⟨_, _, hm, bind_eq_ok.2 ⟨_, _, hrun, bind_eq_ok.2 ⟨_, _, he, rfl⟩⟩⟩

end

end ScriptTree
