import ScriptTree.Proofs.Symbols

/-!
# What is read is derived

Every reading of words that are spelled as those of a script are takes words of the language: those
of the part that was read. The climb carries the level of what has been read so far, and that the next
symbol is not above the ceiling of this level.
-/

namespace ScriptTree

/-- Steps of the language that declare no word of the grammar, as far as functions are allowed. -/
structure Actions.Tame (functions : Prop) (act : Actions) : Prop where
  refines : act.Refines (.standard .grammar)
  keeps {t p node q} : act.define t p = (.ok node, q) → functions → isKeyword t.value = false

def Word.Proper (functions : Prop) (w : Word) : Prop :=
  w.Spelled ∧ (w = (.name, "function") → functions)

structure Parser.Takes (functions : Prop) (ws : List Word) (p q : Parser) : Prop where
  words : p.words = ws ++ q.words
  stands : q.Stands (Word.Proper functions)

structure ScopeChain.Declares (names : List String) (c d : ScopeChain) : Prop where
  nodup : names.Nodup
  free : ∀ name ∈ names, c.current.lookup? name = none
  known : ∀ name ∈ names, ∃ known, d.current.lookup? name = some known ∧ known.isReserved = false

theorem ScopeChain.Declares.none (c d : ScopeChain) : c.Declares [] d :=
  ⟨List.nodup_nil, fun _ h => (List.not_mem_nil h).elim, fun _ h => (List.not_mem_nil h).elim⟩

theorem ScopeChain.declares_of_define {c d : ScopeChain} {node : Node} {name : String}
    (hn : node.form = .name name) (h : c.define node = .ok d) : c.Declares [name] d := by
  obtain ⟨_, hname, hfree, rfl⟩ := ScopeChain.define_eq_ok h
  cases hn.symm.trans hname
  refine ⟨by simp, by simpa using hfree, ?_⟩
  simp [ScopeChain.current_insert, ScopeChain.Scope.lookup?_insert]

theorem ScopeChain.Declares.extend {names : List String} {c d e : ScopeChain}
    (h : c.Declares names d) (hf : d.Frames e) : c.Declares names e where
  nodup := h.nodup
  free := h.free
  known name hn := by
    obtain ⟨known, hknown, hvar⟩ := h.known name hn
    exact ⟨known, hf.kept name known hknown, hvar⟩

/-- Names that are declared one after the other are different ones. -/
theorem ScopeChain.Declares.trans {names others : List String} {c d e : ScopeChain}
    (h : c.Declares names d) (h' : d.Declares others e) (hf : c.Frames d) (hf' : d.Frames e) :
    c.Declares (names ++ others) e where
  nodup := by
    refine List.nodup_append.2 ⟨h.nodup, h'.nodup, fun a ha b hb hab => ?_⟩
    obtain ⟨known, hknown, -⟩ := h.known a ha
    rw [hab, h'.free b hb] at hknown
    cases hknown
  free name hn := by
    rcases List.mem_append.1 hn with hn | hn
    · exact h.free name hn
    · cases hc : c.current.lookup? name with
      | none => rfl
      | some known => exact absurd (hf.kept name known hc) (by rw [h'.free name hn]; exact nofun)
  known name hn := by
    rcases List.mem_append.1 hn with hn | hn
    · exact (h.extend hf').known name hn
    · exact h'.known name hn

/-! ## Thresholds -/

theorem BindingPower.rank_level_le {a b : BindingPower} (h : a ≤ b) :
    (level b).rank ≤ (level a).rank := by
  unfold level ternary logical relational additive multiplicative
  unfold BindingPower at *
  repeat' split
  all_goals first | decide | omega

theorem BindingPower.rank_unary_le (power : BindingPower) :
    Level.unary.rank ≤ (level power).rank := by
  unfold level
  repeat' split
  all_goals decide

/-- What an operator makes is spelled at the level of every power below its own. -/
theorem Level.rank_le_of_lt {level : Level} {low power : BindingPower} (h : low < power)
    (hl : level.rank ≤ (BindingPower.level power.weaker).rank) :
    level.rank ≤ (BindingPower.level low).rank :=
  Nat.le_trans hl (BindingPower.rank_level_le (Nat.le_sub_one_of_lt h))

/-- An operator that groups to the left has its own level on the left, and the next tighter one on
the right. -/
theorem InfixRule.level_of_binary {id : String} {power : BindingPower}
    (h : (id, power) ∈ InfixRule.binary.operators) :
    ∃ level : Level, id ∈ level.operators ∧ power = level.ceiling ∧ power.level = level.tighter ∧
      power.weaker.level = level ∧ ∀ left : Level, power ≤ left.ceiling → left.rank ≤ level.rank := by
  obtain ⟨level, hl, h⟩ := List.mem_flatMap.1 h
  obtain ⟨id, hid, heq⟩ := List.mem_map.1 h
  cases heq
  refine ⟨level, hid, rfl, ?_⟩
  simp only [List.mem_cons, List.not_mem_nil, or_false] at hl
  rcases hl with rfl | rfl | rfl
  all_goals
    refine ⟨by decide, by decide, fun left => ?_⟩
    cases left <;> decide

theorem InfixRule.isOperator_of_mem {id : String} {power : BindingPower} {rule : InfixRule}
    (h : (id, power) ∈ rule.operators) : Word.isOperator id = true := by
  have hall : ∀ operator ∈ rule.operators, Word.isOperator operator.1 = true := by
    cases rule <;> decide
  exact hall _ h

/-! ## Steps over words -/

open Actions Word InfixRule

namespace Parser

section
variable {functions : Prop} {p q r : Parser} {ws vs : List Word}

theorem Takes.none (hp : p.Stands (Word.Proper functions)) : p.Takes functions [] p := ⟨rfl, hp⟩

theorem Takes.trans (h : p.Takes functions ws q) (h' : q.Takes functions vs r) :
    p.Takes functions (ws ++ vs) r :=
  ⟨by rw [h.words, h'.words, List.append_assoc], h'.stands⟩

theorem Takes.ofScopes {scopes : ScopeChain} (hp : p.Stands (Word.Proper functions))
    (hs : scopes.KeepsKeywords) : p.Takes functions [] { p with scopes } :=
  ⟨rfl, hp.symbol, hs, hp.ahead⟩

end

end Parser

section
variable {functions : Prop} {act : Actions} (ha : act.Tame functions) {p q : Parser}
  {t : SymbolToken} {u : Unit} (hp : p.Stands (Word.Proper functions))
include ha hp

theorem Actions.Tame.advance (hm : act.advance p = (.ok t, q))
    (hk : p.current.token.kind ≠ .ending) :
    p.Takes functions [t.token.word] q ∧ t = p.current ∧ t.id = t.token.word.symbol ∧
      t.token.word.Proper functions ∧ q.scopes = p.scopes := by
  rw [ha.refines.advance] at hm
  obtain ⟨ht, hgood, hid, hw, hq, hs⟩ := hp.moved hm hk
  exact ⟨⟨hw, hq⟩, ht, hid, hgood, hs⟩

theorem Actions.Tame.label (hm : act.label p = (.ok t, q))
    (hk : p.current.token.kind ≠ .ending) :
    p.Takes functions [t.token.word] q ∧ t = p.current := by
  rw [ha.refines.label] at hm
  obtain ⟨ht, -, -, hw, hq, -⟩ := hp.moved hm hk
  exact ⟨⟨hw, hq⟩, ht⟩

theorem Actions.Tame.expectWord {id : String} (hm : act.expect id p = (.ok t, q))
    (hid : id ≠ endId) : p.Takes functions [t.token.word] q ∧ t.token.word.symbol = id ∧
      t.token.word.Spelled := by
  obtain ⟨hcur, hm⟩ := expect_eq_ok.1 hm
  obtain ⟨htake, rfl, hsym, hgood, -⟩ := ha.advance hp hm (hp.kind_of_id (hcur ▸ hid))
  exact ⟨htake, hsym.symm.trans hcur, hgood.1⟩

theorem Actions.Tame.expect {id : String} (hm : act.expect id p = (.ok t, q))
    (hid : isOperator id = true) : p.Takes functions [(.operator, id)] q := by
  have hne : id ≠ endId := by
    rintro rfl
    exact absurd hid (by decide)
  obtain ⟨htake, hsym, hs⟩ := ha.expectWord hp hm hne
  rwa [eq_of_symbol_operator hs hsym hid] at htake

theorem Actions.Tame.define {node : Node} (hd : act.define t p = (.ok node, q))
    (hf : functions) : p.Takes functions [] q ∧ node = t.asName ∧ isKeyword t.value = false ∧
      q.current = p.current ∧ p.scopes.Declares [t.value] q.scopes := by
  have hk := ha.keeps hd hf
  obtain ⟨scopes, hdef, rfl, rfl⟩ := standard_define_eq_ok.1 (ha.refines.define hd)
  have hdecl : p.scopes.Declares [t.value] scopes := ScopeChain.declares_of_define rfl hdef
  obtain ⟨name, hname, -, rfl⟩ := ScopeChain.define_eq_ok hdef
  cases hname
  refine ⟨.ofScopes hp (hp.scopes.insert fun h => ?_), rfl, hk, rfl, hdecl⟩
  rw [hk] at h
  cases h

theorem Actions.Tame.reserve (hr : act.reserve t p = (.ok u, q)) :
    p.Takes functions [] q ∧ q.current = p.current := by
  rw [ha.refines.reserve] at hr
  obtain ⟨scopes, hres, rfl⟩ := standard_reserve_eq_ok.1 hr
  split at hres
  · exact ⟨.ofScopes hp (hp.scopes.reserve hres), rfl⟩
  · cases hres
    exact ⟨.ofScopes hp hp.scopes, rfl⟩

theorem Actions.Tame.openScope (ho : act.openScope p = (.ok u, q)) :
    p.Takes functions [] q ∧ q.scopes = p.scopes.push := by
  rw [ha.refines.openScope] at ho
  cases standard_openScope_eq_ok.1 ho
  exact ⟨.ofScopes hp hp.scopes.push, rfl⟩

theorem Actions.Tame.expectScopeEnd {id : String} (hm : act.expectScopeEnd id p = (.ok t, q))
    (hid : isOperator id = true) : p.Takes functions [(.operator, id)] q := by
  obtain ⟨hcur, u, r, hc, hm⟩ := expectScopeEnd_eq_ok.1 hm
  rw [ha.refines.closeScope] at hc
  cases standard_closeScope_eq_ok.1 hc
  have htake := Parser.Takes.ofScopes hp hp.scopes.pop
  exact htake.trans (ha.expect htake.stands (expect_eq_ok.2 ⟨hcur, hm⟩) hid)

theorem Actions.Tame.declare {r : Parser} {node : Node} (hn : p.current.isName = true)
    (hd : act.define p.current p = (.ok node, q)) (hm : act.advance q = (.ok t, r))
    (hf : functions) : p.Takes functions [(.name, p.current.value)] r ∧ node = p.current.asName ∧
      isKeyword p.current.value = false ∧ p.scopes.Declares [p.current.value] r.scopes := by
  obtain ⟨htake, hnode, hk, hcur, hdecl⟩ := ha.define hp hd hf
  have hkind : p.current.token.kind = .name := by
    simpa [SymbolToken.isName, Token.isName] using hn
  obtain ⟨hmove, rfl, -, -, hs⟩ := ha.advance htake.stands hm (by rw [hcur, hkind]; decide)
  rw [hcur, Token.word, hkind] at hmove
  exact ⟨htake.trans hmove, hnode, hk, hs ▸ hdecl⟩

end

/-! ## What a phrase spells -/

def Phrase.Spells (functions : Prop) (p q : Parser) : Phrase → Prop
  | .expression power node => ∃ ws, p.Takes functions ws q ∧
      SymbolTable.grammar.power q.current.id ≤ power ∧
      Derives functions (.operand power.level node.bare) ws
  | .climb power left node => ∀ level vs, Derives functions (.operand level left.bare) vs →
      level.rank ≤ power.level.rank → SymbolTable.grammar.power p.current.id ≤ level.ceiling →
      ∃ ws, p.Takes functions ws q ∧ SymbolTable.grammar.power q.current.id ≤ power ∧
        Derives functions (.operand power.level node.bare) (vs ++ ws)
  | .operand rule token node => token.id ∈ rule.ids → token.id = token.token.word.symbol →
      token.token.word.Proper functions → ∃ level ws, p.Takes functions ws q ∧
        level.rank ≤ Level.unary.rank ∧ SymbolTable.grammar.power q.current.id ≤ level.ceiling ∧
        Derives functions (.operand level node.bare) (token.token.word :: ws)
  | .operation rule token left power node => (token.id, power) ∈ rule.operators →
      token.token.word = (.operator, token.id) → ∀ level vs,
      Derives functions (.operand level left.bare) vs → power ≤ level.ceiling →
      ∃ high ws, p.Takes functions ws q ∧ high.rank ≤ power.weaker.level.rank ∧
        SymbolTable.grammar.power q.current.id ≤ high.ceiling ∧
        Derives functions (.operand high node.bare) (vs ++ token.token.word :: ws)
  | .element kind nodes => (kind.declares = true → functions) → ∃ names ws,
      p.Takes functions ws q ∧ Derives functions (.element kind (nodes.map Node.bare) names) ws ∧
      p.scopes.Declares names q.scopes ∧ (kind.declares = false → names = [])
  | .list kind nodes => (kind.declares = true → functions) → ∃ names ws,
      p.Takes functions ws q ∧ Derives functions (.list kind (nodes.map Node.bare) names) ws ∧
      p.scopes.Declares names q.scopes ∧ (kind.declares = false → names = [])
  | .upTo bracket kind nodes => (kind.declares = true → functions) → ∃ names ws,
      p.Takes functions ws q ∧
      Derives functions (.upTo bracket kind (nodes.map Node.bare) names) ws ∧
      p.scopes.Declares names q.scopes ∧ (kind.declares = false → names = [])
  | .functionName name => functions → ∃ ws, p.Takes functions ws q ∧
      Derives functions (.functionName name) ws ∧ p.scopes.Declares name.toList q.scopes
  | .statement read => functions → ∃ names ends ws, p.Takes functions ws q ∧
      Derives functions (.statement read.bare names ends) ws ∧ p.scopes.Declares names q.scopes ∧
      (ends = true → q.current.id = "\x7d") ∧
      (p.current.id = "if" → ∃ node, read.bare = .single node ∧ Derives functions (.conditional node) ws)
  | .ruled rule token read => functions → token.id = rule.id →
      token.id = token.token.word.symbol → token.token.word.Spelled →
      ∃ names ends ws, p.Takes functions ws q ∧
      Derives functions (.statement read.bare names ends) (token.token.word :: ws) ∧
      p.scopes.Declares names q.scopes ∧ (ends = true → q.current.id = "\x7d") ∧
      (rule = .ifElse → ∃ node, read.bare = .single node ∧
        Derives functions (.conditional node) (token.token.word :: ws))
  | .condition node => functions → ∃ ws,
      p.Takes functions ((.operator, "(") :: (ws ++ [(.operator, ")")])) q ∧
      Derives functions (.operand .expression node.bare) ws
  | .alternative read => functions → ∃ ws, p.Takes functions ws q ∧
      Derives functions (.alternative read.bare) ws
  | .statements nodes => functions → ∃ names ends ws, p.Takes functions ws q ∧
      Derives functions (.statements (nodes.map Node.bare) names ends) ws ∧
      p.scopes.Declares names q.scopes ∧ (ends = true → q.current.id = "\x7d")
  | .blockBody body => functions → ∃ ws, p.Takes functions ws q ∧
      Derives functions (.block body.bare) ((.operator, "\x7b") :: ws)
  | .block body => functions → ∃ ws, p.Takes functions ws q ∧
      Derives functions (.block body.bare) ws

section
variable {functions : Prop} {act : Actions} (ha : act.Tame functions) {p q r s : Parser}
  {t : SymbolToken} (hp : p.Stands (Word.Proper functions))
include ha hp

/-! ### Expressions -/

theorem spells_expression {rule : PrefixRule} {power : BindingPower} {left node : Node}
    (hm : act.advance p = (.ok t, q))
    (hr : (SymbolTable.grammar.lookup? t.id).bind (·.prefixRule?) = some rule)
    (ih₁ : q.Stands (Word.Proper functions) → (Phrase.operand rule t left).Spells functions q r)
    (ih₂ : r.Stands (Word.Proper functions) → (Phrase.climb power left node).Spells functions r s) :
    (Phrase.expression power node).Spells functions p s := by
  have hid := prefixRule_eq_some.1 hr
  have hk : p.current.token.kind ≠ .ending := by
    refine hp.kind_of_id fun he => ?_
    rw [ha.refines.advance] at hm
    rw [current_of_moveOn hm, he, SymbolTable.ends_grammar.prefixRule] at hr
    cases hr
  obtain ⟨htake, -, hsym, hgood, -⟩ := ha.advance hp hm hk
  obtain ⟨level, ws, htake₁, hrank, hpow, hd⟩ := ih₁ htake.stands hid hsym hgood
  obtain ⟨vs, htake₂, hstop, hd⟩ := ih₂ htake₁.stands level _ hd
    (Nat.le_trans hrank (BindingPower.rank_unary_le power)) hpow
  exact ⟨_, (htake.trans htake₁).trans htake₂, hstop, hd⟩

theorem spells_climb {rule : InfixRule} {symbol : Symbol} {power : BindingPower}
    {left middle node : Node} (hpow : power < SymbolTable.grammar.power p.current.id)
    (hm : act.advance p = (.ok t, q)) (hl : SymbolTable.grammar.lookup? t.id = some symbol)
    (hr : symbol.infixRule? = some rule)
    (ih₁ : q.Stands (Word.Proper functions) →
      (Phrase.operation rule t left symbol.infixPower middle).Spells functions q r)
    (ih₂ : r.Stands (Word.Proper functions) →
      (Phrase.climb power middle node).Spells functions r s) :
    (Phrase.climb power left node).Spells functions p s := by
  intro level vs hd hrank hceil
  have hk : p.current.token.kind ≠ .ending := by
    refine hp.kind_of_id fun he => ?_
    rw [he, SymbolTable.ends_grammar.power] at hpow
    exact Nat.not_lt_zero _ hpow
  obtain ⟨htake, rfl, hsym, hgood, -⟩ := ha.advance hp hm hk
  obtain ⟨hop, hpower⟩ := operator_of_lookup? hl hr
  have hword := eq_of_symbol_operator hgood.1 hsym.symm (isOperator_of_mem hop)
  rw [hpower] at hceil hpow
  obtain ⟨high, ws, htake₁, hhigh, hceil₁, hd⟩ := ih₁ htake.stands hop hword level vs hd hceil
  obtain ⟨us, htake₂, hstop, hd⟩ := ih₂ htake₁.stands high _ hd (Level.rank_le_of_lt hpow hhigh) hceil₁
  refine ⟨_, (htake.trans htake₁).trans htake₂, hstop, ?_⟩
  simpa using hd

/-! ### Operands -/

omit ha in
theorem spells_name : (Phrase.operand .name t t.asName).Spells functions p p := by
  intro hid hsym hgood
  have hid : t.id = nameId := by simpa [PrefixRule.ids] using hid
  obtain ⟨text, hw, hk⟩ := eq_of_symbol_name hgood.1 (hsym.symm.trans hid)
  refine ⟨.primary, [], .none hp, by decide, power_le _, ?_⟩
  obtain rfl : t.value = text := congrArg Prod.snd hw
  rw [hw]
  exact .name hk

omit ha in
theorem spells_number {n : Number} (hk : t.token.kind = .number)
    (hn : Number.ofText? t.value = some n) :
    (Phrase.operand .literal t (Node.ofValue (.number n) t.position)).Spells functions p p := by
  intro _ _ _
  refine ⟨.primary, [], .none hp, by decide, power_le _, ?_⟩
  rw [Token.word, hk]
  exact .number hn

omit ha in
theorem spells_string (hk : t.token.kind ≠ .number) :
    (Phrase.operand .literal t (Node.ofValue (.string t.value) t.position)).Spells functions p p := by
  intro hid hsym hgood
  have hid : t.id = literalId := by simpa [PrefixRule.ids] using hid
  refine ⟨.primary, [], .none hp, by decide, power_le _, ?_⟩
  have hstring : t.token.kind = .string :=
    (eq_of_symbol_literal hgood.1 (hsym.symm.trans hid)).resolve_right hk
  rw [Token.word, hstring]
  exact .string

theorem spells_self {u : Unit} (hr : act.reserve t p = (.ok u, q)) :
    (Phrase.operand .self t (t.node .self)).Spells functions p q := by
  intro hid hsym hgood
  have hid : t.id = "this" := by simpa [PrefixRule.ids] using hid
  refine ⟨.primary, [], (ha.reserve hp hr).1, by decide, power_le _, ?_⟩
  rw [eq_of_symbol_keyword hgood.1 (hsym.symm.trans hid) (by decide), SymbolToken.bare_node, hid]
  exact .self

theorem spells_constant {u : Unit} (hr : act.reserve t p = (.ok u, q)) :
    (Phrase.operand .constant t
      (t.node (.literal (SymbolTable.grammar.constantOf t.id)))).Spells functions p q := by
  intro hid hsym hgood
  have hstart : Piece.isNameStart (t.id.toList.headD ' ') = true := by
    revert hid
    simp only [PrefixRule.ids, List.mem_cons, List.not_mem_nil, or_false]
    rintro (h | h | h | h) <;> rw [h] <;> decide
  refine ⟨.primary, [], (ha.reserve hp hr).1, by decide, power_le _, ?_⟩
  rw [eq_of_symbol_keyword hgood.1 hsym.symm hstart, SymbolToken.bare_node]
  exact .constant hid

omit ha hp in
theorem word_of_unary {w : Word} {id : String} (hid : id ∈ PrefixRule.unary.ids) (hs : w.Spelled)
    (hsym : w.symbol = id) :
    w ∈ [(.operator, "-"), (.operator, "!"), (.name, "typeof")] ∧ w.2 = id := by
  simp only [PrefixRule.ids, List.mem_cons, List.not_mem_nil, or_false] at hid
  rcases hid with rfl | rfl | rfl
  · rw [eq_of_symbol_operator hs hsym (by decide)]
    decide
  · rw [eq_of_symbol_operator hs hsym (by decide)]
    decide
  · rw [eq_of_symbol_keyword hs hsym (by decide)]
    decide

theorem spells_unary {u : Unit} {operand : Node} (hr : act.reserve t p = (.ok u, q))
    (ih : q.Stands (Word.Proper functions) → (Phrase.expression .unary operand).Spells functions q r) :
    (Phrase.operand .unary t (t.node (.unary operand))).Spells functions p r := by
  intro hid hsym hgood
  have htake := (ha.reserve hp hr).1
  obtain ⟨ws, htake₁, hstop, hd⟩ := ih htake.stands
  obtain ⟨hw, htext⟩ := word_of_unary hid hgood.1 hsym.symm
  refine ⟨.unary, ws, htake.trans htake₁, by decide, hstop, ?_⟩
  rw [SymbolToken.bare_node, ← htext]
  exact .unary hw hd

omit hp in
theorem spells_grouping {closing : SymbolToken} {inner : Node}
    (ih : (Phrase.expression .none inner).Spells functions p q)
    (hm : act.expect ")" q = (.ok closing, r)) :
    (Phrase.operand .grouping t inner).Spells functions p r := by
  intro hid hsym hgood
  have hid : t.id = "(" := by simpa [PrefixRule.ids] using hid
  obtain ⟨ws, htake, -, hd⟩ := ih
  have htake₁ := ha.expect htake.stands hm (by decide)
  refine ⟨.primary, _, htake.trans htake₁, by decide, power_le _, ?_⟩
  rw [eq_of_symbol_operator hgood.1 (hsym.symm.trans hid) (by decide)]
  exact .group hd

omit ha hp in
theorem spells_array {nodes : List Node} (ih : (Phrase.upTo .square .items nodes).Spells functions p q) :
    (Phrase.operand .array t (t.node (.array nodes))).Spells functions p q := by
  intro hid hsym hgood
  have hid : t.id = "[" := by simpa [PrefixRule.ids] using hid
  obtain ⟨names, ws, htake, hd, -, hnames⟩ := ih fun h => nomatch h
  cases hnames rfl
  refine ⟨.primary, ws, htake, by decide, power_le _, ?_⟩
  rw [eq_of_symbol_operator hgood.1 (hsym.symm.trans hid) (by decide), SymbolToken.bare_node, hid,
    Form.bare, bareNodes_eq]
  exact .array hd

omit ha hp in
theorem spells_object {nodes : List Node} (ih : (Phrase.upTo .curly .entries nodes).Spells functions p q) :
    (Phrase.operand .object t (t.node (.object nodes))).Spells functions p q := by
  intro hid hsym hgood
  have hid : t.id = "\x7b" := by simpa [PrefixRule.ids] using hid
  obtain ⟨names, ws, htake, hd, -, hnames⟩ := ih fun h => nomatch h
  cases hnames rfl
  refine ⟨.primary, ws, htake, by decide, power_le _, ?_⟩
  rw [eq_of_symbol_operator hgood.1 (hsym.symm.trans hid) (by decide), SymbolToken.bare_node, hid,
    Form.bare, bareNodes_eq]
  exact .object hd

omit hp in
theorem spells_function {u v w x : Parser} {sign brace closing : SymbolToken} {name : Option String}
    {parameters nodes : List Node} {e : Unit} (hp : p.Stands (Word.Proper functions))
    (ho : act.openScope p = (.ok e, q))
    (ih₁ : q.Stands (Word.Proper functions) → (Phrase.functionName name).Spells functions q r)
    (hf₁ : q.scopes.Frames r.scopes) (hs : act.expect "(" r = (.ok sign, s))
    (ih₂ : s.Stands (Word.Proper functions) →
      (Phrase.upTo .round .parameters parameters).Spells functions s u)
    (hf₂ : s.scopes.Frames u.scopes) (hb : act.expect "\x7b" u = (.ok brace, v))
    (ih₃ : v.Stands (Word.Proper functions) → (Phrase.statements nodes).Spells functions v w)
    (hf₃ : v.scopes.Frames w.scopes) (hm : act.expectScopeEnd "\x7d" w = (.ok closing, x)) :
    (Phrase.operand .function t
      (t.node (.function name parameters (.ofList nodes)))).Spells functions p x := by
  intro hid hsym hgood
  have hid : t.id = "function" := by simpa [PrefixRule.ids] using hid
  have hword := eq_of_symbol_keyword hgood.1 (hsym.symm.trans hid) (by decide)
  have hfun := hgood.2 hword
  have htake := (ha.openScope hp ho).1
  obtain ⟨ws, htake₁, hd₁, hdecl₁⟩ := ih₁ htake.stands hfun
  have htake₂ := ha.expect htake₁.stands hs (by decide)
  obtain ⟨names, vs, htake₃, hd₂, hdecl₂, -⟩ := ih₂ htake₂.stands fun _ => hfun
  have htake₄ := ha.expect htake₃.stands hb (by decide)
  obtain ⟨declared, ends, us, htake₅, hd₃, hdecl₃, -⟩ := ih₃ htake₄.stands hfun
  have htake₆ := ha.expectScopeEnd htake₅.stands hm (by decide)
  rw [← scopes_of_expect ha.refines hs] at hdecl₁ hf₁
  rw [← scopes_of_expect ha.refines hb] at hdecl₂ hf₂
  have hnodup := (hdecl₁.trans (hdecl₂.trans hdecl₃ hf₂ hf₃) hf₁ (hf₂.trans hf₃)).nodup
  refine ⟨.primary, _, htake.trans (htake₁.trans (htake₂.trans (htake₃.trans
    (htake₄.trans (htake₅.trans htake₆))))), by decide, power_le _, ?_⟩
  rw [hword, SymbolToken.bare_node, hid, Form.bare, bareNodes_eq, Statements.bare_ofList]
  exact .function hfun hd₁ hd₂ hd₃ hnodup

/-! ### Operations -/

omit ha hp in
theorem spells_binary {left right : Node} {power : BindingPower}
    (ih : (Phrase.expression power right).Spells functions p q) :
    (Phrase.operation .binary t left power (t.node (.binary left right))).Spells functions p q := by
  intro hop hword level vs hd hceil
  obtain ⟨high, hid, hpow, hright, hweak, hleft⟩ := InfixRule.level_of_binary hop
  obtain ⟨ws, htake, hstop, hd'⟩ := ih
  refine ⟨high, ws, htake, Nat.le_of_eq (by rw [hweak]), hpow ▸ hstop, ?_⟩
  rw [hright] at hd'
  rw [hword, SymbolToken.bare_node]
  exact .binary hid (hd.weaken high (hleft level hceil)) hd'

omit ha hp in
theorem spells_binaryRight {left right : Node} {power : BindingPower}
    (ih : (Phrase.expression power.weaker right).Spells functions p q) :
    (Phrase.operation .binaryRight t left power (t.node (.binary left right))).Spells
      functions p q := by
  intro hop hword level vs hd hceil
  obtain ⟨hid, rfl⟩ : t.id ∈ ["&&", "||"] ∧ power = .logical := by
    simp only [InfixRule.operators, List.mem_cons, Prod.mk.injEq, List.not_mem_nil, or_false] at hop
    rcases hop with ⟨h, rfl⟩ | ⟨h, rfl⟩ <;> simp [h]
  have hleft : level.rank ≤ Level.relation.rank := by
    revert hceil
    cases level <;> decide
  obtain ⟨ws, htake, hstop, hd'⟩ := ih
  refine ⟨.logic, ws, htake, by decide, hstop, ?_⟩
  rw [hword, SymbolToken.bare_node]
  exact .logic hid (hd.weaken .relation hleft) hd'

omit ha hp in
theorem spells_assignment {left value : Node} {power : BindingPower}
    (hl : left.form.isAssignable = true)
    (ih : (Phrase.expression power.weaker value).Spells functions p q) :
    (Phrase.operation .assignment t left power (t.node (.assignment left value))).Spells
      functions p q := by
  intro hop hword level vs hd hceil
  obtain ⟨hid, rfl⟩ : t.id ∈ ["=", "+=", "-="] ∧ power = .assignment := by
    simp only [InfixRule.operators, List.mem_cons, Prod.mk.injEq, List.not_mem_nil, or_false] at hop
    rcases hop with ⟨h, rfl⟩ | ⟨h, rfl⟩ | ⟨h, rfl⟩ <;> simp [h]
  have hl' : left.bare.form.isAssignable = true := by simpa using hl
  obtain ⟨ws, htake, hstop, hd'⟩ := ih
  refine ⟨.expression, ws, htake, by decide, Nat.le_of_eq (power_of_le _ hstop), ?_⟩
  rw [hword, SymbolToken.bare_node]
  exact .assignment hid hl' (hd.of_isAssignable hl') hd'

omit hp in
theorem spells_ternary {colon : SymbolToken} {left consequent alternative : Node}
    {power : BindingPower} (ih₁ : (Phrase.expression .none consequent).Spells functions p q)
    (hm : act.expect ":" q = (.ok colon, r))
    (ih₂ : r.Stands (Word.Proper functions) →
      (Phrase.expression .none alternative).Spells functions r s) :
    (Phrase.operation .ternary t left power
      (t.node (.ternary left consequent alternative))).Spells functions p s := by
  intro hop hword level vs hd hceil
  obtain ⟨hid, rfl⟩ : t.id = "?" ∧ power = .ternary := by simpa [InfixRule.operators] using hop
  have hleft : level.rank ≤ Level.logic.rank := by
    revert hceil
    cases level <;> decide
  obtain ⟨ws, htake, -, hd₁⟩ := ih₁
  have htake₁ := ha.expect htake.stands hm (by decide)
  obtain ⟨us, htake₂, hstop, hd₂⟩ := ih₂ htake₁.stands
  refine ⟨.expression, _, htake.trans (htake₁.trans htake₂), by decide, hstop, ?_⟩
  rw [hword, SymbolToken.bare_node, hid]
  exact .ternary (hd.weaken .logic hleft) hd₁ hd₂

theorem spells_member {label : SymbolToken} {left : Node} {power : BindingPower}
    (hn : p.current.isName = true) (hm : act.label p = (.ok label, q)) :
    (Phrase.operation .member t left power (t.node
      (.member left (Node.ofValue (.string label.value) label.position)))).Spells functions p q := by
  intro hop hword level vs hd hceil
  obtain ⟨hid, rfl⟩ : t.id = "." ∧ power = .member := by simpa [InfixRule.operators] using hop
  have hleft : level.rank ≤ Level.access.rank := by
    revert hceil
    cases level <;> decide
  obtain ⟨htake, rfl⟩ := ha.label hp hm (SymbolToken.kind_ne_of_isName hn)
  have hkind : p.current.token.kind = .name := by
    simpa [SymbolToken.isName, Token.isName] using hn
  refine ⟨.access, _, htake, by decide, power_le _, ?_⟩
  rw [hword, SymbolToken.bare_node, hid, Token.word, hkind]
  exact .member (hd.weaken .access hleft)

omit hp in
theorem spells_index {closing : SymbolToken} {left index : Node} {power : BindingPower}
    (ih : (Phrase.expression .none index).Spells functions p q)
    (hm : act.expect "]" q = (.ok closing, r)) :
    (Phrase.operation .index t left power (t.node (.index left index))).Spells functions p r := by
  intro hop hword level vs hd hceil
  obtain ⟨hid, rfl⟩ : t.id = "[" ∧ power = .member := by simpa [InfixRule.operators] using hop
  have hleft : level.rank ≤ Level.access.rank := by
    revert hceil
    cases level <;> decide
  obtain ⟨ws, htake, -, hd'⟩ := ih
  have htake₁ := ha.expect htake.stands hm (by decide)
  refine ⟨.access, _, htake.trans htake₁, by decide, power_le _, ?_⟩
  rw [hword, SymbolToken.bare_node, hid]
  exact .index (hd.weaken .access hleft) hd'

omit ha hp in
theorem spells_call {left : Node} {nodes : List Node} {power : BindingPower}
    (hl : left.form.isCallable = true) (ih : (Phrase.upTo .round .items nodes).Spells functions p q) :
    (Phrase.operation .call t left power (t.node (.call left nodes))).Spells functions p q := by
  intro hop hword level vs hd hceil
  obtain ⟨hid, rfl⟩ : t.id = "(" ∧ power = .call := by simpa [InfixRule.operators] using hop
  have hleft : level.rank ≤ Level.access.rank := by
    revert hceil
    cases level <;> decide
  obtain ⟨names, ws, htake, hd', -, hnames⟩ := ih fun h => nomatch h
  cases hnames rfl
  refine ⟨.access, ws, htake, by decide, power_le _, ?_⟩
  rw [hword, SymbolToken.bare_node, hid, Form.bare, bareNodes_eq]
  exact .call (by simpa using hl) (hd.weaken .access hleft) hd'

/-! ### Lists -/

omit ha hp in
theorem spells_item {node : Node} (ih : (Phrase.expression .none node).Spells functions p q) :
    (Phrase.element .items [node]).Spells functions p q := by
  intro _
  obtain ⟨ws, htake, -, hd⟩ := ih
  exact ⟨[], ws, htake, .item hd, .none _ _, fun _ => rfl⟩

theorem spells_entry {label colon : SymbolToken} {value : Node}
    (hk : (p.current.isName || p.current.token.isLiteral) = true)
    (hl : act.label p = (.ok label, q)) (hm : act.expect ":" q = (.ok colon, r))
    (ih : r.Stands (Word.Proper functions) → (Phrase.expression .none value).Spells functions r s) :
    (Phrase.element .entries [value.withKey label.value]).Spells functions p s := by
  intro _
  obtain ⟨htake, rfl⟩ := ha.label hp hl (SymbolToken.kind_ne_of_isKey hk)
  have hkey : p.current.token.word.isKey := by
    simpa [SymbolToken.isName, Token.isName, Token.isLiteral, Word.isKey, Token.word] using hk
  have htake₁ := ha.expect htake.stands hm (by decide)
  obtain ⟨ws, htake₂, -, hd⟩ := ih htake₁.stands
  refine ⟨[], _, htake.trans (htake₁.trans htake₂), ?_, .none _ _, fun _ => rfl⟩
  rw [List.map_singleton, Node.bare_withKey]
  exact .entry hkey hd

theorem spells_parameter {node : Node} (hn : p.current.isName = true)
    (hd : act.define p.current p = (.ok node, q)) (hm : act.advance q = (.ok t, r)) :
    (Phrase.element .parameters [node]).Spells functions p r := by
  intro hf
  obtain ⟨htake, rfl, hk, hdecl⟩ := ha.declare hp hn hd hm (hf rfl)
  exact ⟨_, _, htake, .parameter hk, hdecl, nofun⟩

theorem spells_uninitialised {node : Node} (hn : p.current.isName = true)
    (hd : act.define p.current p = (.ok node, q)) (hm : act.advance q = (.ok t, r)) :
    (Phrase.element .declarations []).Spells functions p r := by
  intro hf
  obtain ⟨htake, -, hk, hdecl⟩ := ha.declare hp hn hd hm (hf rfl)
  exact ⟨_, _, htake, .uninitialised hk, hdecl, nofun⟩

theorem spells_initialised {u : Parser} {sign : SymbolToken} {node value : Node}
    (hn : p.current.isName = true) (hd : act.define p.current p = (.ok node, q))
    (hm : act.advance q = (.ok t, r)) (he : r.current.id = "=")
    (hs : act.advance r = (.ok sign, s))
    (ih : s.Stands (Word.Proper functions) → (Phrase.expression .none value).Spells functions s u)
    (hf : r.scopes.Frames u.scopes) :
    (Phrase.element .declarations [sign.node (.declaration node value)]).Spells functions p u := by
  intro hfun
  obtain ⟨htake, rfl, hk, hdecl⟩ := ha.declare hp hn hd hm (hfun rfl)
  have htake₁ := ha.expect htake.stands (expect_eq_ok.2 ⟨he, hs⟩) (by decide)
  obtain ⟨ws, htake₂, -, hd'⟩ := ih htake₁.stands
  have hsign : sign.id = "=" := by
    rw [ha.refines.advance] at hs
    rw [current_of_moveOn hs, he]
  refine ⟨[p.current.value], _, htake.trans (htake₁.trans htake₂), ?_, hdecl.extend hf, nofun⟩
  rw [List.map_singleton, SymbolToken.bare_node, hsign]
  exact .initialised hk hd'

omit hp in
theorem spells_more {kind : ListKind} {nodes rest : List Node} {comma : SymbolToken}
    (ih₁ : (Phrase.element kind nodes).Spells functions p q) (hf₁ : p.scopes.Frames q.scopes)
    (hm : act.expect "," q = (.ok comma, r))
    (ih₂ : r.Stands (Word.Proper functions) → (Phrase.list kind rest).Spells functions r s)
    (hf₂ : r.scopes.Frames s.scopes) : (Phrase.list kind (nodes ++ rest)).Spells functions p s := by
  intro hf
  obtain ⟨names, ws, htake, hd, hdecl, hnames⟩ := ih₁ hf
  have htake₁ := ha.expect htake.stands hm (by decide)
  obtain ⟨others, vs, htake₂, hd', hdecl', hothers⟩ := ih₂ htake₁.stands hf
  rw [← scopes_of_expect ha.refines hm] at hdecl hf₁
  refine ⟨_, _, htake.trans (htake₁.trans htake₂), ?_, hdecl.trans hdecl' hf₁ hf₂, fun hk => ?_⟩
  · rw [List.map_append]
    exact .more hd hd'
  · rw [hnames hk, hothers hk]
    rfl

theorem spells_closed {bracket : Bracket} {kind : ListKind}
    (hm : act.expect bracket.close p = (.ok t, q)) :
    (Phrase.upTo bracket kind []).Spells functions p q := by
  intro _
  have htake := ha.expect hp hm (by cases bracket <;> decide)
  exact ⟨[], _, htake, .closed, .none _ _, fun _ => rfl⟩

omit hp in
theorem spells_filled {bracket : Bracket} {kind : ListKind} {nodes : List Node}
    (ih : (Phrase.list kind nodes).Spells functions p q)
    (hm : act.expect bracket.close q = (.ok t, r)) :
    (Phrase.upTo bracket kind nodes).Spells functions p r := by
  intro hf
  obtain ⟨names, ws, htake, hd, hdecl, hnames⟩ := ih hf
  have htake₁ := ha.expect htake.stands hm (by cases bracket <;> decide)
  rw [← scopes_of_expect ha.refines hm] at hdecl
  exact ⟨names, _, htake.trans htake₁, .filled hd, hdecl, hnames⟩

theorem spells_named {node : Node} (hn : p.current.isName = true)
    (hd : act.define p.current p = (.ok node, q)) (hm : act.advance q = (.ok t, r)) :
    (Phrase.functionName (some p.current.value)).Spells functions p r := by
  intro hf
  obtain ⟨htake, -, hk, hdecl⟩ := ha.declare hp hn hd hm hf
  exact ⟨_, htake, .named hk, hdecl⟩

/-! ### Statements -/

omit hp in
theorem spells_expressionStatement {node : Node} (hp : p.Stands (Word.Proper functions))
    (hr : (SymbolTable.grammar.lookup? p.current.id).bind (·.statementRule?) = none)
    (ih : (Phrase.expression .none node).Spells functions p q)
    (hform : (node.form.isAssignment || node.form.isCall) = true)
    (hm : act.expect ";" q = (.ok t, r)) :
    (Phrase.statement (.single node)).Spells functions p r := by
  intro _
  obtain ⟨ws, htake, -, hd⟩ := ih
  have htake₁ := ha.expect htake.stands hm (by decide)
  have hhead : ∀ w ∈ ws.head?, w.startsStatement = false := by
    intro w hw
    obtain ⟨rest, rfl⟩ := List.head?_eq_some_iff.1 hw
    have hcur : p.current.token.word = w := (List.cons.inj htake.words).1
    rw [Word.startsStatement, ← hcur, ← hp.symbol, hr]
    rfl
  refine ⟨[], false, _, htake.trans htake₁, ?_, .none _ _, nofun, fun hif => ?_⟩
  · exact .expressionStatement (by simpa using hform) hhead hd
  · have hrule : (SymbolTable.grammar.lookup? "if").bind (·.statementRule?) = some .ifElse :=
      statementRule_eq_some.2 rfl
    rw [hif, hrule] at hr
    cases hr

theorem spells_ruled {u : Unit} {rule : StatementRule} {read : Statements}
    (hr : (SymbolTable.grammar.lookup? p.current.id).bind (·.statementRule?) = some rule)
    (hm : act.advance p = (.ok t, q)) (hres : act.reserve t q = (.ok u, r))
    (hf : q.scopes.Frames r.scopes)
    (ih : r.Stands (Word.Proper functions) → (Phrase.ruled rule t read).Spells functions r s) :
    (Phrase.statement read).Spells functions p s := by
  intro hfun
  have hid := statementRule_eq_some.1 hr
  have hk : p.current.token.kind ≠ .ending := by
    refine hp.kind_of_id fun he => ?_
    rw [he, SymbolTable.ends_grammar.statementRule] at hr
    cases hr
  obtain ⟨htake, rfl, hsym, hgood, hs⟩ := ha.advance hp hm hk
  obtain ⟨htake₁, -⟩ := ha.reserve htake.stands hres
  obtain ⟨names, ends, ws, htake₂, hd, hdecl, hends, hif⟩ := ih htake₁.stands hfun hid hsym hgood.1
  refine ⟨names, ends, _, htake.trans (htake₁.trans htake₂), hd, ?_, hends, fun he => ?_⟩
  · refine ⟨hdecl.nodup, fun name hn => ?_, hdecl.known⟩
    cases hc : p.scopes.current.lookup? name with
    | none => rfl
    | some known =>
      rw [hs] at hf
      exact absurd (hf.kept name known hc) (by rw [hdecl.free name hn]; exact nofun)
  · refine hif ?_
    rw [he] at hid
    revert hid
    cases rule <;> decide

omit ha hp in
theorem spells_blockStatement {body : Statements} (ih : (Phrase.blockBody body).Spells functions p q) :
    (Phrase.ruled .block t
      (if body.isEmpty then .empty else .single (t.node (.block body)))).Spells functions p q := by
  intro hf hid hsym hs
  obtain ⟨ws, htake, hd⟩ := ih hf
  refine ⟨[], false, ws, htake, ?_, .none _ _, nofun, nofun⟩
  have hbare : (if body.isEmpty then Statements.empty else .single (t.node (.block body))).bare =
      if body.bare.isEmpty then .empty else .single (.plain "\x7b" (.block body.bare)) := by
    rw [Statements.isEmpty_bare]
    split
    · rfl
    · rw [Statements.bare, SymbolToken.bare_node, hid]
      rfl
  rw [eq_of_symbol_operator hs (hsym.symm.trans hid) (by decide), hbare]
  exact .blockStatement hd

omit hp in
theorem spells_declaration {nodes : List Node} {closing : SymbolToken}
    (ih : (Phrase.list .declarations nodes).Spells functions p q)
    (hm : act.expect ";" q = (.ok closing, r)) :
    (Phrase.ruled .declaration t (.ofList nodes)).Spells functions p r := by
  intro hf hid hsym hs
  obtain ⟨names, ws, htake, hd, hdecl, -⟩ := ih fun _ => hf
  have htake₁ := ha.expect htake.stands hm (by decide)
  rw [← scopes_of_expect ha.refines hm] at hdecl
  refine ⟨names, false, _, htake.trans htake₁, ?_, hdecl, nofun, nofun⟩
  rw [eq_of_symbol_keyword hs (hsym.symm.trans hid) (by decide), Statements.bare_ofList]
  exact .declaration hd

omit ha hp in
theorem spells_whileLoop {condition : Node} {body : Statements}
    (ih₁ : (Phrase.condition condition).Spells functions p q)
    (ih₂ : q.Stands (Word.Proper functions) → (Phrase.block body).Spells functions q r) :
    (Phrase.ruled .whileLoop t (.single (t.node (.whileLoop condition body)))).Spells
      functions p r := by
  intro hf hid hsym hs
  obtain ⟨ws, htake, hd⟩ := ih₁ hf
  obtain ⟨vs, htake₁, hd'⟩ := ih₂ htake.stands hf
  have hd : Derives functions
      (.statement (.single (.plain "while" (.whileLoop condition.bare body.bare))) [] false)
      ((.name, "while") :: ((.operator, "(") :: (ws ++ [(.operator, ")")])) ++ vs) := by
    simpa using Derives.whileLoop hd hd'
  rw [eq_of_symbol_keyword hs (hsym.symm.trans hid) (by decide), Statements.bare,
    SymbolToken.bare_node, hid]
  exact ⟨[], false, _, htake.trans htake₁, hd, .none _ _, nofun, nofun⟩

omit ha hp in
theorem spells_ifElse {condition : Node} {consequent alternative : Statements}
    (ih₁ : (Phrase.condition condition).Spells functions p q)
    (ih₂ : q.Stands (Word.Proper functions) → (Phrase.block consequent).Spells functions q r)
    (ih₃ : r.Stands (Word.Proper functions) →
      (Phrase.alternative alternative).Spells functions r s) :
    (Phrase.ruled .ifElse t
      (.single (t.node (.ifElse condition consequent alternative)))).Spells functions p s := by
  intro hf hid hsym hs
  obtain ⟨ws, htake, hd₁⟩ := ih₁ hf
  obtain ⟨vs, htake₁, hd₂⟩ := ih₂ htake.stands hf
  obtain ⟨us, htake₂, hd₃⟩ := ih₃ htake₁.stands hf
  have hd : Derives functions
      (.conditional (.plain "if" (.ifElse condition.bare consequent.bare alternative.bare)))
      ((.name, "if") :: ((.operator, "(") :: (ws ++ [(.operator, ")")])) ++ (vs ++ us)) := by
    simpa using Derives.conditional hd₁ hd₂ hd₃
  rw [eq_of_symbol_keyword hs (hsym.symm.trans hid) (by decide), Statements.bare,
    SymbolToken.bare_node, hid]
  refine ⟨[], false, _, htake.trans (htake₁.trans htake₂), .ifElse hd, .none _ _, nofun,
    fun _ => ⟨_, rfl, hd⟩⟩

theorem spells_breakOut {closing : SymbolToken} (hm : act.expect ";" p = (.ok closing, q))
    (he : q.current.id = "\x7d") :
    (Phrase.ruled .breakOut t (.single (t.node .breakOut))).Spells functions p q := by
  intro _ hid hsym hs
  refine ⟨[], true, _, ha.expect hp hm (by decide), ?_, .none _ _, fun _ => he, nofun⟩
  rw [eq_of_symbol_keyword hs (hsym.symm.trans hid) (by decide), Statements.bare,
    SymbolToken.bare_node, hid]
  exact .breakOut

theorem spells_returnNothing {closing : SymbolToken} (hm : act.expect ";" p = (.ok closing, q))
    (he : q.current.id = "\x7d") :
    (Phrase.ruled .returnWith t (.single (t.node (.returnWith none)))).Spells functions p q := by
  intro _ hid hsym hs
  refine ⟨[], true, _, ha.expect hp hm (by decide), ?_, .none _ _, fun _ => he, nofun⟩
  rw [eq_of_symbol_keyword hs (hsym.symm.trans hid) (by decide), Statements.bare,
    SymbolToken.bare_node, hid]
  exact .returnNothing

omit hp in
theorem spells_returnValue {closing : SymbolToken} {value : Node}
    (ih : (Phrase.expression .none value).Spells functions p q)
    (hm : act.expect ";" q = (.ok closing, r)) (he : r.current.id = "\x7d") :
    (Phrase.ruled .returnWith t (.single (t.node (.returnWith (some value))))).Spells
      functions p r := by
  intro _ hid hsym hs
  obtain ⟨ws, htake, -, hd⟩ := ih
  have htake₁ := ha.expect htake.stands hm (by decide)
  refine ⟨[], true, _, htake.trans htake₁, ?_, .none _ _, fun _ => he, nofun⟩
  rw [eq_of_symbol_keyword hs (hsym.symm.trans hid) (by decide), Statements.bare,
    SymbolToken.bare_node, hid]
  exact .returnValue hd

theorem spells_condition {sign closing : SymbolToken} {node : Node}
    (ho : act.expect "(" p = (.ok sign, q))
    (ih : q.Stands (Word.Proper functions) → (Phrase.expression .none node).Spells functions q r)
    (hm : act.expect ")" r = (.ok closing, s)) : (Phrase.condition node).Spells functions p s := by
  intro _
  have htake := ha.expect hp ho (by decide)
  obtain ⟨ws, htake₁, -, hd⟩ := ih htake.stands
  have htake₂ := ha.expect htake₁.stands hm (by decide)
  exact ⟨ws, htake.trans (htake₁.trans htake₂), hd⟩

theorem takes_else {u : Unit} {w : SymbolToken} (hr : act.reserve t p = (.ok u, q))
    (hm : act.expect "else" q = (.ok w, r)) : p.Takes functions [(.name, "else")] r := by
  obtain ⟨htake, -⟩ := ha.reserve hp hr
  obtain ⟨htake₁, hsym, hs⟩ := ha.expectWord htake.stands hm (by decide)
  rw [eq_of_symbol_keyword hs hsym (by decide)] at htake₁
  exact htake.trans htake₁

theorem spells_elseIf {u : Unit} {w : SymbolToken} {read : Statements}
    (hr : act.reserve t p = (.ok u, q)) (hm : act.expect "else" q = (.ok w, r))
    (hif : r.current.id = "if")
    (ih : r.Stands (Word.Proper functions) → (Phrase.statement read).Spells functions r s) :
    (Phrase.alternative read).Spells functions p s := by
  intro hf
  have htake := takes_else ha hp hr hm
  obtain ⟨names, ends, ws, htake₁, -, -, -, hcond⟩ := ih htake.stands hf
  obtain ⟨node, hread, hd⟩ := hcond hif
  refine ⟨_, htake.trans htake₁, ?_⟩
  rw [hread]
  exact .elseIf hd

theorem spells_elseBlock {u : Unit} {w : SymbolToken} {body : Statements}
    (hr : act.reserve t p = (.ok u, q)) (hm : act.expect "else" q = (.ok w, r))
    (ih : r.Stands (Word.Proper functions) → (Phrase.block body).Spells functions r s) :
    (Phrase.alternative body).Spells functions p s := by
  intro hf
  have htake := takes_else ha hp hr hm
  obtain ⟨ws, htake₁, hd⟩ := ih htake.stands hf
  exact ⟨_, htake.trans htake₁, .elseBlock hd⟩

omit ha hp in
theorem spells_next {read : Statements} {rest : List Node}
    (ih₁ : (Phrase.statement read).Spells functions p q) (hf₁ : p.scopes.Frames q.scopes)
    (hn : Reads .grammar act (.statements rest) q r)
    (ih₂ : q.Stands (Word.Proper functions) → (Phrase.statements rest).Spells functions q r)
    (hf₂ : q.scopes.Frames r.scopes) :
    (Phrase.statements (read.toList ++ rest)).Spells functions p r := by
  intro hf
  obtain ⟨names, ends, ws, htake, hd, hdecl, hends, -⟩ := ih₁ hf
  cases ends with
  | false =>
    obtain ⟨others, ends, vs, htake₁, hd', hdecl', hends'⟩ := ih₂ htake.stands hf
    refine ⟨_, ends, _, htake.trans htake₁, ?_, hdecl.trans hdecl' hf₁ hf₂, hends'⟩
    rw [List.map_append, ← Statements.toList_bare]
    exact .next hd hd'
  | true =>
    -- a closing brace follows, so there are no more statements
    cases hn with
    | next hne => exact absurd (.inl (hends rfl)) hne
    | done =>
      refine ⟨names, true, ws, htake, ?_, hdecl, hends⟩
      rw [List.append_nil, ← Statements.toList_bare]
      exact .final hd

theorem spells_blockBody {u : Unit} {closing : SymbolToken} {nodes : List Node}
    (ho : act.openScope p = (.ok u, q))
    (ih : q.Stands (Word.Proper functions) → (Phrase.statements nodes).Spells functions q r)
    (hm : act.expectScopeEnd "\x7d" r = (.ok closing, s)) :
    (Phrase.blockBody (.ofList nodes)).Spells functions p s := by
  intro hf
  obtain ⟨htake, -⟩ := ha.openScope hp ho
  obtain ⟨names, ends, ws, htake₁, hd, hdecl, -⟩ := ih htake.stands hf
  have htake₂ := ha.expectScopeEnd htake₁.stands hm (by decide)
  refine ⟨_, htake.trans (htake₁.trans htake₂), ?_⟩
  rw [Statements.bare_ofList]
  exact .block hd hdecl.nodup

theorem spells_block {body : Statements} (hm : act.expect "\x7b" p = (.ok t, q))
    (ih : q.Stands (Word.Proper functions) → (Phrase.blockBody body).Spells functions q r) :
    (Phrase.block body).Spells functions p r := by
  intro hf
  have htake := ha.expect hp hm (by decide)
  obtain ⟨ws, htake₁, hd⟩ := ih htake.stands hf
  exact ⟨_, htake.trans htake₁, hd⟩

end

/-- **What is read is derived**, from the words that it took. -/
theorem spells_of_reads {functions : Prop} {act : Actions} (ha : act.Tame functions)
    {phrase : Phrase} {p q : Parser} (h : Reads .grammar act phrase p q)
    (hp : p.Stands (Word.Proper functions)) : phrase.Spells functions p q := by
  induction h with
  | expression hm hr _ _ ih₁ ih₂ => exact spells_expression ha hp hm hr ih₁ ih₂
  | stay hpow =>
    intro level vs hd hrank hceil
    refine ⟨[], .none hp, Nat.le_of_not_lt hpow, ?_⟩
    rw [List.append_nil]
    exact hd.weaken _ hrank
  | climb hpow hm hl hr _ _ ih₁ ih₂ => exact spells_climb ha hp hpow hm hl hr ih₁ ih₂
  | name => exact spells_name hp
  | number hk hn => exact spells_number hp hk hn
  | string hk => exact spells_string hp hk
  | self hr => exact spells_self ha hp hr
  | constant hr => exact spells_constant ha hp hr
  | unary hr _ ih => exact spells_unary ha hp hr ih
  | grouping _ hm ih => exact spells_grouping ha (ih hp) hm
  | array _ ih => exact spells_array (ih hp)
  | object _ ih => exact spells_object (ih hp)
  | function ho hn hs hps hb hss hm ih₁ ih₂ ih₃ =>
    exact spells_function ha hp ho ih₁ (frames_of_reads ha.refines hn) hs ih₂
      (frames_of_reads ha.refines hps) hb ih₃ (frames_of_reads ha.refines hss) hm
  | anonymous => exact fun _ => ⟨[], .none hp, .anonymous, .none _ _⟩
  | named hn hd hm => exact spells_named ha hp hn hd hm
  | binary _ ih => exact spells_binary (ih hp)
  | binaryRight _ ih => exact spells_binaryRight (ih hp)
  | assignment hl _ ih => exact spells_assignment hl (ih hp)
  | ternary _ hm _ ih₁ ih₂ => exact spells_ternary ha (ih₁ hp) hm ih₂
  | member hn hm => exact spells_member ha hp hn hm
  | index _ hm ih => exact spells_index ha (ih hp) hm
  | call hl _ ih => exact spells_call hl (ih hp)
  | item _ ih => exact spells_item (ih hp)
  | entry hk hl hm _ ih => exact spells_entry ha hp hk hl hm ih
  | parameter hn hd hm => exact spells_parameter ha hp hn hd hm
  | uninitialised hn hd hm _ => exact spells_uninitialised ha hp hn hd hm
  | initialised hn hd hm he hs hv ih =>
    have hf := (frames_of_advance ha.refines hs).trans (frames_of_reads ha.refines hv)
    exact spells_initialised ha hp hn hd hm he hs ih hf
  | last _ _ ih =>
    intro hf
    obtain ⟨names, ws, htake, hd, hrest⟩ := ih hp hf
    exact ⟨names, ws, htake, .last hd, hrest⟩
  | more he _ hm hl ih₁ ih₂ =>
    exact spells_more ha (ih₁ hp) (frames_of_reads ha.refines he) hm ih₂
      (frames_of_reads ha.refines hl)
  | closed _ hm => exact spells_closed ha hp hm
  | filled _ _ hm ih => exact spells_filled ha (ih hp) hm
  | expressionStatement hr _ hform hm ih => exact spells_expressionStatement ha hp hr (ih hp) hform hm
  | ruled hr hm hres _ ih =>
    exact spells_ruled ha hp hr hm hres (frames_of_reserve ha.refines hres) ih
  | blockStatement _ ih => exact spells_blockStatement (ih hp)
  | declaration _ hm ih => exact spells_declaration ha (ih hp) hm
  | whileLoop _ _ ih₁ ih₂ => exact spells_whileLoop (ih₁ hp) ih₂
  | ifElse _ _ _ ih₁ ih₂ ih₃ => exact spells_ifElse (ih₁ hp) ih₂ ih₃
  | breakOut hm he => exact spells_breakOut ha hp hm he
  | returnNothing _ hm he => exact spells_returnNothing ha hp hm he
  | returnValue _ _ hm he ih => exact spells_returnValue ha (ih hp) hm he
  | condition ho _ hm ih => exact spells_condition ha hp ho ih hm
  | noAlternative _ => exact fun _ => ⟨[], .none hp, .noAlternative⟩
  | elseIf _ hr hm hif _ ih => exact spells_elseIf ha hp hr hm hif ih
  | elseBlock _ hr hm _ _ ih => exact spells_elseBlock ha hp hr hm ih
  | done _ => exact fun _ => ⟨[], false, [], .none hp, .done, .none _ _, nofun⟩
  | next _ hs hn ih₁ ih₂ =>
    exact spells_next (ih₁ hp) (frames_of_reads ha.refines hs) hn ih₂
      (frames_of_reads ha.refines hn)
  | blockBody ho _ hm ih => exact spells_blockBody ha hp ho ih hm
  | block hm _ ih => exact spells_block ha hp hm ih

end ScriptTree
